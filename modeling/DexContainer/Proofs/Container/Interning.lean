import Mathlib.Data.List.Induction
import DexContainer.Proofs.Container.Reachable

/-! Adding content. The index of a section finds the first of equal items, whether they were added
or read, so content that is there is not added again. Main statements: `Reachable.findsFirst`, the
index finds what is there in every container that can occur; and `intern_of_get` and
`intern_of_forall_get`, what adding does with content that is there and with content that is not. -/

namespace DexContainer

variable {k : Kind}

namespace Section

variable {s t : Section k} {x : Content k} {h : Handle k}

/-- The index finds a content under the first of its handles. -/
def FindsFirst (s : Section k) : Prop :=
  ∀ x : Content k, s.index[x]? = s.items.toList.findIdx? (· == x)

theorem FindsFirst.congr (hs : s.FindsFirst) (hitems : t.items = s.items)
    (hindex : t.index = s.index) : t.FindsFirst := by
  intro x
  rw [hitems, hindex]
  exact hs x

theorem findsFirst_empty : ({} : Section k).FindsFirst := by
  intro x
  simp

theorem FindsFirst.find?_eq_none (hs : s.FindsFirst) :
    s.find? x = none ↔ ∀ h : Handle k, s.get? h ≠ some x := by
  simp only [find?, hs x, Option.map_eq_none_iff, List.findIdx?_eq_none_iff, get?,
    ← Array.getElem?_toList, beq_eq_false_iff_ne]
  constructor
  · intro hne h hx
    exact hne x (List.mem_of_getElem? hx) rfl
  · intro hne y hy hyx
    obtain ⟨i, hi, rfl⟩ := List.getElem_of_mem hy
    exact hne ⟨i⟩ (by rw [List.getElem?_eq_getElem hi, hyx])

/-- What is found has the content, and no handle before it has. -/
theorem FindsFirst.get?_of_find? (hs : s.FindsFirst) (hx : s.find? x = some h) :
    s.get? h = some x ∧ ∀ h' : Handle k, s.get? h' = some x → h.id ≤ h'.id := by
  obtain ⟨n, hn, rfl⟩ := Option.map_eq_some_iff.1 hx
  rw [hs x] at hn
  obtain ⟨hlt, hxn, hbefore⟩ := List.findIdx?_eq_some_iff_getElem.1 hn
  refine ⟨?_, fun h' hh' => ?_⟩
  · rw [get?, ← Array.getElem?_toList, List.getElem?_eq_getElem hlt, beq_iff_eq.1 hxn]
  · by_contra hlt'
    have hlt' : h'.id < n := Nat.not_le.1 hlt'
    rw [get?, ← Array.getElem?_toList, List.getElem?_eq_getElem (Nat.lt_trans hlt' hlt)] at hh'
    have := hbefore h'.id hlt'
    simp [Option.some.inj hh'] at this

theorem FindsFirst.append (hs : s.FindsFirst) (hx : s.find? x = none) :
    (s.append x).FindsFirst := by
  obtain ⟨items, order, positions, index, offset?, byteSize⟩ := s
  intro y
  have hy := hs y
  have hnone := Option.map_eq_none_iff.1 hx
  simp only [append, Std.HashMap.getElem?_insert, Array.toList_push, List.findIdx?_append] at *
  by_cases hxy : x = y
  · subst hxy
    simp [← hy, hnone]
  · simp [hxy, hy]

/-- Of equal items the first one is entered. -/
theorem getElem?_foldl_insertIfNew (xs : List (Content k)) :
    (xs.foldl (fun (index, id) x => (index.insertIfNew x id, id + 1))
      (({} : Std.HashMap (Content k) Nat), 0)).2 = xs.length ∧
    ∀ x : Content k, (xs.foldl (fun (index, id) x => (index.insertIfNew x id, id + 1))
      (({} : Std.HashMap (Content k) Nat), 0)).1[x]? = xs.findIdx? (· == x) := by
  induction xs using List.reverseRecOn with
  | nil => simp
  | append_singleton xs y ih =>
    obtain ⟨hlength, hindex⟩ := ih
    rw [List.foldl_append, List.foldl_cons, List.foldl_nil]
    refine ⟨by simp [hlength], fun x => ?_⟩
    simp only [Std.HashMap.getElem?_insertIfNew, hlength, List.findIdx?_append, ← hindex x]
    by_cases hxy : y = x
    · subst hxy
      by_cases hy : y ∈ (xs.foldl (fun (index, id) x => (index.insertIfNew x id, id + 1))
          (({} : Std.HashMap (Content k) Nat), 0)).1
      · simp [hy]
      · simp [hy]
    · simp [hxy]

/-- The index that reading makes. -/
theorem findsFirst_of_index (h : s.index = indexOf s.items) : s.FindsFirst := by
  intro x
  rw [h, indexOf, ← Array.foldl_toList]
  exact (getElem?_foldl_insertIfNew s.items.toList).2 x

end Section

namespace Container

variable {c d : Container} {x : Content k} {y : Handle k} {fileSize : Nat}

/-! ### Forgetting a layout -/

theorem sectionOf_foldl_invalidate {ks : List Kind} (hn : ks.Nodup) (k : Kind) :
    (ks.foldl (fun c k => c.modifySection k Section.invalidate) c).sectionOf k =
      if k ∈ ks then (c.sectionOf k).invalidate else c.sectionOf k := by
  induction ks generalizing c with
  | nil => rfl
  | cons j ks ih =>
    rw [List.foldl_cons, ih (List.nodup_cons.1 hn).2]
    by_cases hk : k = j
    · subst hk
      rw [if_neg (List.nodup_cons.1 hn).1, if_pos (List.mem_cons_self ..),
        sectionOf_modifySection_self]
    · rw [sectionOf_modifySection_of_ne c _ hk]
      simp [hk]

@[simp] theorem sectionOf_invalidate (c : Container) (k : Kind) :
    c.invalidate.sectionOf k = (c.sectionOf k).invalidate := by
  rw [invalidate, sectionOf_foldl_invalidate Kind.readOrder_nodup, if_pos (Kind.mem_readOrder k)]

theorem sectionOf_markMutated (c : Container) (k : Kind) : c.markMutated.sectionOf k =
    if c.stage.isPlaced then (c.sectionOf k).invalidate else c.sectionOf k := by
  rw [markMutated]
  split
  · exact sectionOf_invalidate c k
  · rfl

@[simp] theorem stage_markMutated (c : Container) : c.markMutated.stage = .mutated := by
  rw [markMutated]
  split <;> rfl

theorem keepsItems_modifySection {f : Section k → Section k}
    (h : (f (c.sectionOf k)).items = (c.sectionOf k).items) :
    c.KeepsItems (c.modifySection k f) := by
  intro j
  exact forall_modifySection (P := fun j s => s.items = (c.sectionOf j).items) h (fun _ _ => rfl) j

theorem keepsItems_markMutated (c : Container) : c.KeepsItems c.markMutated := by
  intro k
  rw [sectionOf_markMutated]
  split <;> rfl

theorem keepsItems_setPolicy (c : Container) (p : Policy) : c.KeepsItems (c.setPolicy p) := by
  rw [setPolicy]
  split
  · exact fun _ => rfl
  · exact keepsItems_markMutated _

theorem keepsItems_setPolicies (c : Container) (ps : List Policy) :
    c.KeepsItems (ps.foldl setPolicy c) := by
  induction ps generalizing c with
  | nil => exact fun _ => rfl
  | cons p ps ih => exact fun k => (ih _ k).trans (keepsItems_setPolicy c p k)

@[simp] theorem policy_markMutated (c : Container) : c.markMutated.policy = c.policy := by
  have hinvalidate (ks : List Kind) (c : Container) :
      (ks.foldl (fun c k => c.modifySection k Section.invalidate) c).policy = c.policy := by
    induction ks generalizing c with
    | nil => rfl
    | cons k ks ih => rw [List.foldl_cons, ih, policy_modifySection]
  rw [markMutated]
  split
  · exact hinvalidate Kind.readOrder c
  · rfl

theorem policy_setPolicy (c : Container) (p : Policy) : (c.setPolicy p).policy = p := by
  rw [setPolicy]
  split
  · assumption
  · rw [policy_markMutated]

/-- A policy leaves a container that was not laid out where it stands. -/
theorem sectionOf_setPolicy (h : c.stage.isPlaced = false) (p : Policy) (k : Kind) :
    (c.setPolicy p).sectionOf k = c.sectionOf k := by
  rw [setPolicy]
  split
  · rfl
  · rw [markMutated, if_neg (by rw [h]; decide)]
    rfl

/-- No item and no section has a place. -/
def Cleared (c : Container) : Prop :=
  ∀ k, (∀ h : Handle k, c.position? h = none) ∧ (c.sectionOf k).offset? = none

/-- A container that stood as it was laid out forgets where, and one that has forgotten it learns
nothing. -/
theorem cleared_markMutated (h : c.stage.isPlaced = true ∨ c.Cleared) : c.markMutated.Cleared := by
  intro k
  show (∀ y : Handle k, (c.markMutated.sectionOf k).position? y = none) ∧ _
  rw [sectionOf_markMutated]
  split
  · exact ⟨fun y => (c.sectionOf k).position?_invalidate y, rfl⟩
  · rename_i hstage
    exact h.resolve_left hstage k

/-! ### The index -/

/-- The index of every section whose items can be added finds what the section holds. -/
def FindsFirst (c : Container) : Prop := ∀ k, k.isSingleton = false → (c.sectionOf k).FindsFirst

theorem FindsFirst.congr (hc : c.FindsFirst) (h : c.KeepsContent d)
    (hindex : ∀ k, (d.sectionOf k).index = (c.sectionOf k).index) : d.FindsFirst :=
  fun k hk => (hc k hk).congr (h k hk) (hindex k)

theorem findsFirst_empty (o : Options) : (empty o).FindsFirst := by
  intro k hk
  cases k <;> first | exact Section.findsFirst_empty | cases hk

theorem FindsFirst.markMutated (hc : c.FindsFirst) : c.markMutated.FindsFirst := by
  intro k hk
  rw [sectionOf_markMutated]
  split
  · exact (hc k hk).congr rfl rfl
  · exact hc k hk

theorem FindsFirst.setPolicy (hc : c.FindsFirst) (p : Policy) : (c.setPolicy p).FindsFirst := by
  rw [Container.setPolicy]
  split
  · exact hc
  · exact FindsFirst.markMutated hc

theorem FindsFirst.intern (hc : c.FindsFirst) (h : c.intern x = .ok (d, y)) : d.FindsFirst := by
  obtain ⟨hk, -, ⟨-, rfl⟩ | ⟨hnone, -, rfl⟩⟩ := intern_eq_ok.1 h
  · exact hc
  · refine FindsFirst.markMutated ?_
    exact forall_modifySection (P := fun j s => j.isSingleton = false → s.FindsFirst)
      (fun hk => (hc k hk).append hnone) fun j _ => hc j

/-- A layout leaves the index alone. -/
theorem index_of_placeWithin {rounds : Nat} (hwf : c.SectionsWellFormed)
    (h : c.placeWithin rounds = .ok (d, fileSize)) (k : Kind) :
    (d.sectionOf k).index = (c.sectionOf k).index := by
  obtain ⟨e, dataOffset, dataEnd, hrearranges, -, -, -, hcloses⟩ := exists_of_placeWithin hwf h
  exact (hcloses.index k).trans (hrearranges.index k)

theorem Reachable.findsFirst (hc : c.Reachable) : c.FindsFirst := by
  induction hc with
  | empty o => exact findsFirst_empty o
  | ofImage h => exact fun k hk => Section.findsFirst_of_index (index_of_ofImage h hk)
  | intern _ h ih => exact ih.intern h
  | setPolicy _ p ih => exact ih.setPolicy p
  | place hc h ih =>
    have hlays := (laidOut_of_placeWithin hc.coherent.wellFormed hc.coherent.singletons h).1
    exact ih.congr hlays.items (index_of_placeWithin hc.coherent.wellFormed h)
  | write _ h ih =>
    obtain ⟨-, -, rfl⟩ := write_eq_ok.1 h
    exact ih
  | toImage hc h ih =>
    obtain ⟨e, fileSize, out, hplace, -, -, -, rfl⟩ := toImage_eq_ok.1 h
    have hlays := (laidOut_of_placeWithin hc.coherent.wellFormed hc.coherent.singletons hplace).1
    exact ih.congr hlays.items fun k => index_of_placeWithin hc.coherent.wellFormed hplace k

/-! ### What adding does -/

/-- Content that is not there gets the next handle. -/
theorem intern_of_forall_get (hc : c.FindsFirst) (hk : k.isSingleton = false)
    (hcheck : Content.check k x = .ok ()) (hx : ∀ h : Handle k, c.get h ≠ .ok x) :
    c.intern x =
      .ok ((c.modifySection k (·.append x)).markMutated, ⟨(c.sectionOf k).size⟩) := by
  have hnone := (hc k hk).find?_eq_none.2 fun h hh => hx h (get_eq_ok.2 hh)
  exact intern_eq_ok.2 ⟨hk, hcheck, .inr ⟨hnone, rfl, rfl⟩⟩

theorem get?_markMutated (c : Container) (h : Handle k) :
    (c.markMutated.sectionOf k).get? h = (c.sectionOf k).get? h :=
  (keepsItems_markMutated c).get? h

/-- What was there stays under its handle. -/
theorem get?_of_intern {j : Kind} {h : Handle j} {z : Content j} (hd : c.intern x = .ok (d, y))
    (hz : (c.sectionOf j).get? h = some z) : (d.sectionOf j).get? h = some z := by
  obtain ⟨-, -, ⟨-, rfl⟩ | ⟨-, -, rfl⟩⟩ := intern_eq_ok.1 hd
  · exact hz
  · rw [get?_markMutated]
    by_cases hj : j = k
    · subst hj
      rw [sectionOf_modifySection_self]
      exact Section.get?_append_of_get? x hz
    · rwa [sectionOf_modifySection_of_ne c _ hj]

/-- What was not there is what was added. -/
theorem get?_or_of_intern {j : Kind} {h : Handle j} {z : Content j} (hd : c.intern x = .ok (d, y))
    (hz : (d.sectionOf j).get? h = some z) :
    (c.sectionOf j).get? h = some z ∨ (⟨j, z⟩ : (k : Kind) × Content k) = ⟨k, x⟩ := by
  obtain ⟨-, -, ⟨-, rfl⟩ | ⟨-, -, rfl⟩⟩ := intern_eq_ok.1 hd
  · exact .inl hz
  · rw [get?_markMutated] at hz
    by_cases hj : j = k
    · subst hj
      rw [sectionOf_modifySection_self, Section.get?_append] at hz
      split at hz
      · exact .inr (by rw [Option.some.inj hz])
      · exact .inl hz
    · rw [sectionOf_modifySection_of_ne c _ hj] at hz
      exact .inl hz

/-- The handle that is returned leads to the content. -/
theorem get?_intern (hc : c.FindsFirst) (hd : c.intern x = .ok (d, y)) :
    (d.sectionOf k).get? y = some x := by
  obtain ⟨hk, -, ⟨hfind, rfl⟩ | ⟨-, rfl, rfl⟩⟩ := intern_eq_ok.1 hd
  · exact ((hc k hk).get?_of_find? hfind).1
  · rw [get?_markMutated, sectionOf_modifySection_self, Section.get?_append, if_pos rfl]

theorem cleared_append (hc : c.Cleared) : (c.modifySection k (·.append x)).Cleared := by
  refine forall_modifySection
    (P := fun j s => (∀ y : Handle j, s.position? y = none) ∧ s.offset? = none)
    ⟨fun y => ?_, (hc k).2⟩ fun j _ => hc j
  have hy : (c.sectionOf k).position? y = none := (hc k).1 y
  simp only [Section.position?, Section.append, Array.getElem?_push] at hy ⊢
  split
  · rfl
  · exact hy

theorem find?_markMutated (c : Container) (x : Content k) :
    (c.markMutated.sectionOf k).find? x = (c.sectionOf k).find? x := by
  rw [sectionOf_markMutated]
  split <;> rfl

/-- What was found is found under the same handle. -/
theorem find?_of_intern {j : Kind} {h : Handle j} {z : Content j} (hd : c.intern x = .ok (d, y))
    (hz : (c.sectionOf j).find? z = some h) : (d.sectionOf j).find? z = some h := by
  obtain ⟨-, -, ⟨-, rfl⟩ | ⟨hnone, -, rfl⟩⟩ := intern_eq_ok.1 hd
  · exact hz
  · rw [find?_markMutated]
    by_cases hj : j = k
    · subst hj
      rw [sectionOf_modifySection_self, Section.find?_append, if_neg]
      · exact hz
      · rintro rfl
        rw [hnone] at hz
        cases hz
    · rwa [sectionOf_modifySection_of_ne c _ hj]

theorem find?_intern (hd : c.intern x = .ok (d, y)) : (d.sectionOf k).find? x = some y := by
  obtain ⟨-, -, ⟨hfind, rfl⟩ | ⟨-, rfl, rfl⟩⟩ := intern_eq_ok.1 hd
  · exact hfind
  · rw [find?_markMutated, sectionOf_modifySection_self, Section.find?_append, if_pos rfl]

theorem Resolves.intern {j : Kind} {z : Handle j} (hz : c.Resolves j z)
    (hd : c.intern x = .ok (d, y)) : d.Resolves j z := by
  obtain ⟨w, hw⟩ := hz
  exact ⟨w, get?_of_intern hd hw⟩

/-- Adding an item whose handles lead to items leaves no handle that leads nowhere. -/
theorem Closed.intern (hc : c.Closed) (hd : c.intern x = .ok (d, y))
    (hx : Each c.Resolves (Content.handles k x)) : d.Closed := by
  intro j h z hz
  rcases get?_or_of_intern hd hz with hz | heq
  · exact (hc j h z hz).mono fun _ _ hr => hr.intern hd
  · cases heq
    exact hx.mono fun _ _ hr => hr.intern hd

theorem Resolves.internType {b : Container} {j : Kind} {z : Handle j} {descriptor : String}
    {h : Handle .typeId} (hz : b.Resolves j z) (hc : b.internType descriptor = .ok (c, h)) :
    c.Resolves j z := by
  obtain ⟨⟨b2, string⟩, hstring, htype⟩ := bind_eq_ok.1 hc
  obtain ⟨⟨b1, data⟩, hdata, hname⟩ := bind_eq_ok.1 hstring
  exact ((hz.intern hdata).intern hname).intern htype

/-- Adding a string leaves no handle that leads nowhere. -/
theorem Closed.internString {b : Container} {text : String} {h : Handle .stringId}
    (hclosed : b.Closed) (hb : b.Reachable) (hc : b.internString text = .ok (c, h)) :
    c.Closed ∧ c.Resolves .stringId h := by
  obtain ⟨⟨b1, data⟩, hdata, hname⟩ := bind_eq_ok.1 hc
  have hdata1 : b1.Resolves _ data := ⟨_, get?_intern hb.findsFirst hdata⟩
  have hclosed1 := hclosed.intern hdata each_nil
  exact ⟨hclosed1.intern hname (each_cons.2 ⟨hdata1, each_nil⟩), _,
    get?_intern (hb.intern hdata).findsFirst hname⟩

/-- Adding a type leaves no handle that leads nowhere. -/
theorem Closed.internType {b : Container} {descriptor : String} {h : Handle .typeId}
    (hclosed : b.Closed) (hb : b.Reachable) (hc : b.internType descriptor = .ok (c, h)) :
    c.Closed ∧ c.Resolves .typeId h := by
  obtain ⟨⟨b2, string⟩, hstring, htype⟩ := bind_eq_ok.1 hc
  obtain ⟨hclosed2, hstring2⟩ := hclosed.internString hb hstring
  exact ⟨hclosed2.intern htype (each_cons.2 ⟨hstring2, each_nil⟩), _,
    get?_intern (hb.internString hstring).findsFirst htype⟩

theorem Resolves.first {h : Handle k} (hh : c.Resolves k h) : c.Resolves k ⟨0⟩ :=
  resolves_iff.2 (Nat.lt_of_le_of_lt (Nat.zero_le _) (resolves_iff.1 hh))

theorem closed_of_oneMethod (h : oneMethod = .ok c) : c.Closed := by
  obtain ⟨⟨c3, type⟩, htype, h⟩ := bind_eq_ok.1 h
  obtain ⟨⟨c2, string⟩, hstring, h3⟩ := bind_eq_ok.1 htype
  obtain ⟨⟨c1, data⟩, h1, h2⟩ := bind_eq_ok.1 hstring
  obtain ⟨⟨c4, proto⟩, h4, h⟩ := bind_eq_ok.1 h
  obtain ⟨⟨c5, method⟩, h5, h⟩ := bind_eq_ok.1 h
  obtain ⟨⟨c6, code⟩, h6, h⟩ := bind_eq_ok.1 h
  obtain ⟨⟨c7, classData⟩, h7, h⟩ := bind_eq_ok.1 h
  cases h
  have hreachable1 := (Reachable.empty {}).intern h1
  have hreachable2 := hreachable1.intern h2
  have hreachable3 := hreachable2.intern h3
  have hreachable4 := hreachable3.intern h4
  have hreachable5 := hreachable4.intern h5
  have hdata : c1.Resolves _ data := ⟨_, get?_intern (Reachable.empty {}).findsFirst h1⟩
  have hstring : c2.Resolves _ string := ⟨_, get?_intern hreachable1.findsFirst h2⟩
  have htype : c3.Resolves _ type := ⟨_, get?_intern hreachable2.findsFirst h3⟩
  have hproto : c4.Resolves _ proto := ⟨_, get?_intern hreachable3.findsFirst h4⟩
  have hmethod : c5.Resolves _ method := ⟨_, get?_intern hreachable4.findsFirst h5⟩
  have hcode : c6.Resolves _ code := ⟨_, get?_intern hreachable5.findsFirst h6⟩
  have hc1 := (closed_empty {}).intern h1 each_nil
  have hc2 := hc1.intern h2 (each_cons.2 ⟨hdata, each_nil⟩)
  have hc3 := hc2.intern h3 (each_cons.2 ⟨hstring, each_nil⟩)
  have hc4 := hc3.intern h4 (each_cons.2 ⟨(hstring.intern h3).first, each_cons.2 ⟨htype, each_nil⟩⟩)
  have hc5 := hc4.intern h5 (each_cons.2 ⟨htype.intern h4, each_cons.2 ⟨hproto,
    each_cons.2 ⟨((hstring.intern h3).intern h4).first, each_nil⟩⟩⟩)
  have hc6 := hc5.intern h6 each_nil
  exact hc6.intern h7 (each_cons.2 ⟨hmethod.intern h6, each_cons.2 ⟨hcode, each_nil⟩⟩)

/-- Something was added, so the layout is no longer valid. -/
structure Adds (c d : Container) : Prop where
  sizes : ∀ k, (c.sectionOf k).size ≤ (d.sectionOf k).size
  grows : ∃ k, (c.sectionOf k).size < (d.sectionOf k).size
  policy : d.policy = c.policy
  stage : d.stage = .mutated
  cleared : c.stage.isPlaced = true ∨ c.Cleared → d.Cleared

theorem Adds.trans {e : Container} (h : c.Adds d) (h' : d.Adds e) : c.Adds e := by
  obtain ⟨k, hk⟩ := h.grows
  exact ⟨fun k => Nat.le_trans (h.sizes k) (h'.sizes k), ⟨k, Nat.lt_of_lt_of_le hk (h'.sizes k)⟩,
    h'.policy.trans h.policy, h'.stage, fun hc => h'.cleared (.inr (h.cleared hc))⟩

theorem adds_append (c : Container) (x : Content k) :
    c.Adds (c.modifySection k (·.append x)).markMutated := by
  have hsize (j : Kind) : ((c.modifySection k (·.append x)).markMutated.sectionOf j).size =
      ((c.modifySection k (·.append x)).sectionOf j).size := by
    rw [Section.size, keepsItems_markMutated, Section.size]
  refine ⟨fun j => ?_, ⟨k, ?_⟩, ?_, stage_markMutated _, fun hc => cleared_markMutated ?_⟩
  · rw [hsize]
    refine forall_modifySection (P := fun j s => (c.sectionOf j).size ≤ s.size) ?_
      (fun _ _ => Nat.le_refl _) j
    rw [Section.size_append]
    exact Nat.le_succ _
  · rw [hsize, sectionOf_modifySection_self, Section.size_append]
    exact Nat.lt_succ_self _
  · rw [policy_markMutated, policy_modifySection]
  · rw [stage_modifySection]
    exact hc.imp_right fun hc j => cleared_append hc j

end Container

end DexContainer
