import DexContainer.Proofs.Container.Operands

/-! One handle for one content. The index of a section leads from a content to the first handle that
has it, and neither later additions nor layouts change which one that is, so over a whole run
handles that were returned are equal exactly when what was added is. Main statement:
`canonical_of_reachable`. -/

namespace DexContainer

variable {k : Kind}

theorem Section.FindsFirst.find?_eq_some_iff {s : Section k} {x : Content k} {h : Handle k}
    (hs : s.FindsFirst) : s.find? x = some h ↔
      s.get? h = some x ∧ ∀ h' : Handle k, s.get? h' = some x → h.id ≤ h'.id := by
  refine ⟨hs.get?_of_find?, fun ⟨hx, hle⟩ => ?_⟩
  cases hfind : s.find? x with
  | none => exact absurd hx (hs.find?_eq_none.1 hfind h)
  | some y =>
    obtain ⟨hy, hle'⟩ := hs.get?_of_find? hfind
    have hid : y.id = h.id := Nat.le_antisymm (hle' h hx) (hle y hy)
    cases y
    cases h
    exact congrArg (fun n => some (Handle.mk n)) hid

namespace Container

variable {c d e : Container} {x : Content k} {y : Handle k}

/-! ### Over a run -/

/-- What was found first is found first from then on: what is added later comes behind it. -/
theorem find?_of_extends (hc : c.Reachable) (hd : d.Reachable) (h : c.Extends d)
    (hk : k.isSingleton = false) (hx : (c.sectionOf k).find? x = some y) :
    (d.sectionOf k).find? x = some y := by
  rw [(hc.findsFirst k hk).find?_eq_some_iff] at hx
  obtain ⟨hy, hle⟩ := hx
  refine (hd.findsFirst k hk).find?_eq_some_iff.2
    ⟨get_eq_ok.1 (h k y x hk (get_eq_ok.2 hy)), fun z hz => ?_⟩
  by_contra hlt
  have hzy : z.id < y.id := Nat.lt_of_not_le hlt
  have hresolves : c.Resolves k y := ⟨x, hy⟩
  obtain ⟨w, hw⟩ : c.Resolves k z :=
    resolves_iff.2 (Nat.lt_trans hzy (resolves_iff.1 hresolves))
  have hdw := get_eq_ok.1 (h k z w hk (get_eq_ok.2 hw))
  obtain rfl : w = x := Option.some.inj (hdw.symm.trans hz)
  exact hlt (hle z hw)

/-- Content that has its handle is not added again, and other content gets another handle. -/
theorem eq_iff_of_intern (hc : c.Reachable) (hx : (c.sectionOf k).find? x = some y)
    {x' : Content k} {y' : Handle k} (h : c.intern x' = .ok (d, y')) : y' = y ↔ x' = x := by
  obtain ⟨hk, -⟩ := intern_eq_ok.1 h
  have hy' := get?_intern hc.findsFirst h
  constructor
  · rintro rfl
    have hy := get?_of_intern h ((hc.findsFirst k hk).get?_of_find? hx).1
    exact Option.some.inj (hy'.symm.trans hy)
  · rintro rfl
    have hfind := find?_of_intern h hx
    exact Option.some.inj ((find?_intern h).symm.trans hfind)

/-! ### No content twice -/

/-- No section holds two equal items, the header and the map apart. -/
def Distinct (c : Container) : Prop :=
  ∀ k, k.isSingleton = false → (c.sectionOf k).items.toList.Nodup

theorem distinct_empty (o : Options) : (empty o).Distinct := by
  intro k hk
  cases k <;> first | exact List.nodup_nil | cases hk

theorem Distinct.congr (hc : c.Distinct) (h : c.KeepsContent d) : d.Distinct := by
  intro k hk
  rw [h k hk]
  exact hc k hk

theorem Distinct.intern (hc : c.Distinct) (hfirst : c.FindsFirst) (h : c.intern x = .ok (d, y)) :
    d.Distinct := by
  obtain ⟨hk, -, ⟨-, rfl⟩ | ⟨hnone, -, rfl⟩⟩ := intern_eq_ok.1 h
  · exact hc
  · have habsent : x ∉ (c.sectionOf k).items.toList := fun hx => by
      obtain ⟨i, hi⟩ := List.mem_iff_getElem?.1 hx
      rw [Array.getElem?_toList] at hi
      exact (hfirst k hk).find?_eq_none.1 hnone ⟨i⟩ hi
    refine Distinct.congr (c := c.modifySection k (·.append x)) ?_
      (keepsItems_markMutated _).keepsContent
    refine forall_modifySection (P := fun j s => j.isSingleton = false → s.items.toList.Nodup)
      (fun hk => ?_) fun j _ => hc j
    rw [Section.items_append, Array.toList_push, ← List.concat_eq_append]
    exact (hc k hk).concat habsent

theorem distinct_of_run {o : Options} {ops : List Operation} (h : (empty o).run ops = .ok c) :
    c.Distinct :=
  (Reachable.empty o).of_run (fun hc hd hdistinct => hdistinct.intern hc.findsFirst hd)
    (fun hd hdistinct => hdistinct.congr hd) h (distinct_empty o)

/-! ### What adding does -/

/-- A section has one more item, and the others hold what they held. -/
structure GrowsBy (c d : Container) (k : Kind) (x : Content k) : Prop where
  items : (d.sectionOf k).items = (c.sectionOf k).items.push x
  others : ∀ j, j ≠ k → (d.sectionOf j).items = (c.sectionOf j).items

theorem growsBy_append (c : Container) (x : Content k) :
    c.GrowsBy (c.modifySection k (·.append x)).markMutated k x := by
  refine ⟨?_, fun j hj => ?_⟩
  · rw [keepsItems_markMutated, sectionOf_modifySection_self, Section.items_append]
  · rw [keepsItems_markMutated, sectionOf_modifySection_of_ne c _ hj]

theorem eq_or_growsBy_of_intern (hc : c.FindsFirst) (h : c.intern x = .ok (d, y)) :
    ((∃ z : Handle k, c.get z = .ok x) → d = c) ∧
      ((∀ z : Handle k, c.get z ≠ .ok x) → c.GrowsBy d k x ∧ y.id = (c.sectionOf k).size) := by
  obtain ⟨hk, -, ⟨hfind, rfl⟩ | ⟨hnone, rfl, rfl⟩⟩ := intern_eq_ok.1 h
  · have hy := ((hc k hk).get?_of_find? hfind).1
    exact ⟨fun _ => rfl, fun habsent => absurd (get_eq_ok.2 hy) (habsent y)⟩
  · refine ⟨fun ⟨z, hz⟩ => ?_, fun _ => ⟨growsBy_append c x, rfl⟩⟩
    exact absurd (get_eq_ok.1 hz) ((hc k hk).find?_eq_none.1 hnone z)

/-- Adding is refused for the singletons and for content without an encoding only. -/
theorem exists_intern_eq_error_iff : (∃ v, c.intern x = .error v) ↔
    k.isSingleton = true ∨ ∃ v, Content.check k x = .error v := by
  rw [Container.intern]
  cases k.isSingleton with
  | true => simp [throw, throwThe, MonadExceptOf.throw, bind, Except.bind]
  | false =>
    cases Content.check k x with
    | error v => simp [bind, Except.bind]
    | ok u =>
      cases (c.sectionOf k).find? x <;> simp [bind, Except.bind, pure, Except.pure]

/-- Whatever was read or added, changed, laid out and written: the index finds what a section holds,
under the first handle that leads to it; adding leads to the one handle by which the content is
found from then on, so that handles are equal exactly when contents are; what is there is not added
again, and what is not makes its section longer by one; every handle keeps its item; in a container
that was started empty no section holds the same content twice; and what is refused changes
nothing. -/
theorem canonical_of_reachable (hc : c.Reachable) :
    (∀ (k : Kind) (x : Content k), k.isSingleton = false →
      ((∃ h, (c.sectionOf k).find? x = some h) ↔ ∃ h : Handle k, c.get h = .ok x) ∧
      ∀ h, (c.sectionOf k).find? x = some h ↔
        c.get h = .ok x ∧ ∀ h' : Handle k, c.get h' = .ok x → h.id ≤ h'.id) ∧
    (∀ (k : Kind) (x : Content k) (d : Container) (h : Handle k), c.intern x = .ok (d, h) →
      d.get h = .ok x ∧ (d.sectionOf k).find? x = some h ∧
      ((∃ h' : Handle k, c.get h' = .ok x) → d = c) ∧
      ((∀ h' : Handle k, c.get h' ≠ .ok x) → c.GrowsBy d k x ∧ h.id = (c.sectionOf k).size) ∧
      ∀ ops e, d.run ops = .ok e → e.get h = .ok x ∧ (e.sectionOf k).find? x = some h ∧
        ∀ (y : Content k) (f : Container) (h' : Handle k), e.intern y = .ok (f, h') →
          (h' = h ↔ y = x)) ∧
    (∀ ops d, c.run ops = .ok d → ∀ (k : Kind) (h : Handle k) (x : Content k),
      k.isSingleton = false → c.get h = .ok x → d.get h = .ok x) ∧
    (∀ o ops, (empty o).run ops = .ok c → c.Distinct) ∧
    ∀ (k : Kind) (x : Content k), ((∃ v, c.intern x = .error v) ↔
        k.isSingleton = true ∨ ∃ v, Content.check k x = .error v) ∧
      ∀ v, c.intern x = .error v → (Operation.intern k x).apply c = .ok c := by
  refine ⟨fun k x hk => ⟨?_, fun h => ?_⟩, fun k x d h hd => ?_,
    fun ops d hd => extends_of_run hc hd, fun o ops h => distinct_of_run h,
    fun k x => ⟨exists_intern_eq_error_iff, fun v hv => ?_⟩⟩
  · have hfirst := hc.findsFirst k hk
    constructor
    · rintro ⟨h, hh⟩
      exact ⟨h, get_eq_ok.2 (hfirst.get?_of_find? hh).1⟩
    · rintro ⟨h, hh⟩
      by_contra hnone
      refine hfirst.find?_eq_none.1 ?_ h (get_eq_ok.1 hh)
      exact Option.eq_none_iff_forall_ne_some.2 fun h' hh' => hnone ⟨h', hh'⟩
  · simp only [(hc.findsFirst k hk).find?_eq_some_iff, get_eq_ok]
  · have hk := (intern_eq_ok.1 hd).1
    have hreachable := hc.intern hd
    have hx := get_eq_ok.2 (get?_intern hc.findsFirst hd)
    obtain ⟨hpresent, habsent⟩ := eq_or_growsBy_of_intern hc.findsFirst hd
    refine ⟨hx, find?_intern hd, hpresent, habsent, fun ops e he => ?_⟩
    have hextends := extends_of_run hreachable he
    have hfind := find?_of_extends hreachable (hreachable.run he) hextends hk (find?_intern hd)
    exact ⟨hextends k h x hk hx, hfind, fun y f h' => eq_iff_of_intern (hreachable.run he) hfind⟩
  · rw [Operation.apply, hv]
    rfl

/-- A type that was added and laid out is found again, before and after a string is added. -/
theorem canonical_of_reachable_internType : ∃ (c e : Container) (h : Handle .typeId),
    (empty {}).run [.internType "V", .place] = .ok c ∧ c.Reachable ∧ c.Distinct ∧
    c.intern (k := .typeId) ⟨⟨0⟩⟩ = .ok (c, h) ∧
    c.run [.internString "W", .place] = .ok e ∧ e.get h = .ok ⟨⟨0⟩⟩ ∧
    ∀ f h', e.intern (k := .typeId) ⟨⟨1⟩⟩ = .ok (f, h') → h' ≠ h := by
  have hrun : ((empty {}).run [.internType "V", .place] >>= fun c =>
      c.intern (k := .typeId) ⟨⟨0⟩⟩ >>= fun r =>
        (fun e => ((c.sectionOf .typeId).items, (e.sectionOf .stringId).size)) <$>
          r.1.run [.internString "W", .place]) = .ok (#[⟨⟨0⟩⟩], 2) := by
    cbv
  obtain ⟨c, hc, hrun⟩ := bind_eq_ok.1 hrun
  obtain ⟨⟨d, h⟩, hd, hrun⟩ := bind_eq_ok.1 hrun
  obtain ⟨e, he, heq⟩ := map_eq_ok.1 hrun
  simp only [Prod.mk.injEq] at heq
  have hreachable := reachable_of_run (.empty {}) hc
  obtain ⟨-, hadds, -, hdistinct, -⟩ := canonical_of_reachable hreachable
  obtain ⟨-, -, hpresent, -, hlater⟩ := hadds _ _ _ _ hd
  obtain rfl : d = c := hpresent ⟨⟨0⟩, by rw [get_eq_ok, Section.get?, heq.1]; rfl⟩
  obtain ⟨hget, -, hiff⟩ := hlater _ _ he
  refine ⟨d, e, h, hc, hreachable, hdistinct _ _ hc, hd, he, hget, fun f h' hf heq => ?_⟩
  cases (hiff _ _ _ hf).1 heq

end Container

end DexContainer
