import DexContainer.Proofs.Yields

/-! What stands in an image, apart from the handles that a run of readers gives out. The readers of
items are blind to the references that were met before: they stop at the same place, or fail with
the same fault, and they give the same value but for its handles. An index is its own handle, and an
offset becomes the slot that it has in the end. The rules below follow the readers step by step, as
those of `Reads` and `Yields` do, and collect the numbers that were met. -/

namespace DexContainer

/-- The fault blames a reference that leads nowhere. -/
def Fault.IsDangling : Fault → Prop
  | .danglingIndex .. | .danglingOffset .. => True
  | _ => False

namespace References

variable {r r' : References} {k : Kind} {hs : List AnyHandle} {ρ : Renaming}

/-- Remembers a number that stands in an image for a handle. -/
def meet (r : References) (h : AnyHandle) : References :=
  if h.1.isIndexed then r.note h.1 h.2.id else (r.reserve h.1 h.2.id).2

/-- Remembers some numbers one after the other. -/
def meetAll (r : References) (hs : List AnyHandle) : References := hs.foldl meet r

/-- The renaming takes numbers that stand in an image to handles: an index to itself, and an offset
to its slot. -/
def Names (r : References) (ρ : Renaming) : Prop :=
  ∀ (k : Kind) (h : Handle k),
    if k.isIndexed then ρ k h = h else ∀ i, r.slots[(k, h.id)]? = some i → ρ k h = ⟨i⟩

theorem meet_index (hk : k.isIndexed = true) (n : Nat) :
    r.meet ⟨k, ⟨n⟩⟩ = r.note k n := if_pos hk

theorem meet_offset (hk : k.isIndexed = false) (n : Nat) :
    r.meet ⟨k, ⟨n⟩⟩ = (r.reserve k n).2 := if_neg (by simp [hk])

theorem meetAll_append (r : References) (hs hs' : List AnyHandle) :
    r.meetAll (hs ++ hs') = (r.meetAll hs).meetAll hs' := List.foldl_append

theorem extends_meet (r : References) (h : AnyHandle) : r ≤ r.meet h := by
  rw [meet]
  split
  · exact extends_note ..
  · exact extends_reserve ..

theorem extends_meetAll (r : References) (hs : List AnyHandle) : r ≤ r.meetAll hs := by
  induction hs generalizing r with
  | nil => rfl
  | cons h hs ih => exact extends_trans (extends_meet r h) (ih _)

theorem Sound.meet (hr : r.Sound) (h : AnyHandle) : (r.meet h).Sound := by
  rw [References.meet]
  split
  · rename_i hk
    exact hr.note hk _
  · rename_i hk
    exact hr.reserve (by simpa using hk) _

theorem Sound.meetAll (hr : r.Sound) (hs : List AnyHandle) : (r.meetAll hs).Sound := by
  induction hs generalizing r with
  | nil => exact hr
  | cons h hs ih => exact ih (hr.meet h)

/-- The handles that are given out for numbers. -/
def handleOf (r : References) : Renaming := fun k h =>
  ⟨if k.isIndexed then h.id else r.slots[(k, h.id)]?.getD 0⟩

theorem names_handleOf (r : References) : r.Names r.handleOf := by
  intro k h
  split
  · rename_i hk
    simp [handleOf, hk]
  · rename_i hk
    intro i hi
    simp [handleOf, hk, hi]

theorem Names.anti (hr : r ≤ r') (h : r'.Names ρ) : r.Names ρ := by
  intro k x
  have hx := h k x
  split
  · rename_i hk
    rwa [if_pos hk] at hx
  · rename_i hk
    rw [if_neg hk] at hx
    exact fun i hi => hx i (hr.slots k x.id i hi)

theorem Names.index (h : r.Names ρ) (hk : k.isIndexed = true) (x : Handle k) : ρ k x = x := by
  have := h k x
  rwa [if_pos hk] at this

theorem Names.offset {i : Nat} (h : r.Names ρ) (hk : k.isIndexed = false) {x : Handle k}
    (hx : r.slots[(k, x.id)]? = some i) : ρ k x = ⟨i⟩ := by
  have := h k x
  rw [if_neg (by simp [hk])] at this
  exact this i hx

theorem slots_meetAll_of_slot {r : References} {met : List AnyHandle}
    (hmet : ∀ h ∈ met, h.1.isIndexed = false → ∃ i, r.slots[(h.1, h.2.id)]? = some i) :
    (r.meetAll met).slots = r.slots := by
  induction met generalizing r with
  | nil => rfl
  | cons h met ih =>
    obtain ⟨hh, hmet⟩ := List.forall_mem_cons.1 hmet
    have hslots : (r.meet h).slots = r.slots := by
      rw [meet]
      split
      · rfl
      · rename_i hk
        obtain ⟨i, hi⟩ := hh (by simpa using hk)
        rw [reserve_of_slot hi]
    rw [meetAll, List.foldl_cons, ← meetAll, ih (hslots ▸ hmet), hslots]

/-- Every slot is the number of its offset. -/
def IsSelf (r : References) : Prop :=
  ∀ (k : Kind) (n i : Nat), r.slots[(k, n)]? = some i → i = n

/-- As long as every slot is the number of its offset, so can the next one be. -/
theorem exists_isSelf_of_isSelf (hr : r.Sound) (hself : r.IsSelf) (hk : k.isIndexed = false)
    (n : Nat) : ∃ r', r ≤ r' ∧ r'.Sound ∧ r'.IsSelf ∧ n ≤ r'.slotCount k := by
  induction n with
  | zero => exact ⟨r, extends_refl r, hr, hself, Nat.zero_le _⟩
  | succ n ih =>
    obtain ⟨r', hle, hr', hself', hn⟩ := ih
    have hfree : r'.slots[(k, r'.slotCount k)]? = none := by
      refine Option.eq_none_iff_forall_ne_some.2 fun i hi => ?_
      have hlt := ((hr'.slot_iff k _ i).1 hi).1
      rw [hself' k _ i hi] at hlt
      exact Nat.lt_irrefl _ hlt
    refine ⟨(r'.reserve k (r'.slotCount k)).2, extends_trans hle (extends_reserve ..),
      hr'.reserve hk _, fun j o i hi => ?_, ?_⟩
    · simp only [reserve_of_none hfree, Std.HashMap.getElem?_insert, beq_iff_eq] at hi
      split at hi
      · rename_i he
        cases he
        exact (Option.some.inj hi).symm
      · exact hself' j o i hi
    · rw [reserve_of_none hfree]
      simpa [slotCount] using hn

/-- There are references that take these numbers to themselves. -/
theorem exists_names_self (hs : List AnyHandle) :
    ∃ r : References, r.Sound ∧ ∀ met ⊆ hs, (r.meetAll met).Names fun _ h => h := by
  obtain ⟨r, hr, hself, hslots⟩ : ∃ r : References, r.Sound ∧ r.IsSelf ∧
      ∀ h ∈ hs, h.1.isIndexed = false → ∃ i, r.slots[(h.1, h.2.id)]? = some i := by
    induction hs with
    | nil => exact ⟨{}, sound_empty, fun _ _ _ hi => absurd hi (by simp), by simp⟩
    | cons h hs ih =>
      obtain ⟨r, hr, hself, hslots⟩ := ih
      cases hk : h.1.isIndexed with
      | true => exact ⟨r, hr, hself, List.forall_mem_cons.2 ⟨fun hn => by simp [hk] at hn, hslots⟩⟩
      | false =>
        obtain ⟨r', hle, hr', hself', hlt⟩ := exists_isSelf_of_isSelf hr hself hk (h.2.id + 1)
        refine ⟨r', hr', hself', List.forall_mem_cons.2 ⟨fun _ => ?_, fun g hg hgk => ?_⟩⟩
        · have hslot := (hr'.slot_iff h.1 _ h.2.id).2 ⟨hlt, rfl⟩
          rw [← hself' _ _ _ hslot] at hslot
          exact ⟨_, hslot⟩
        · obtain ⟨i, hi⟩ := hslots g hg hgk
          exact ⟨i, hle.slots _ _ _ hi⟩
  refine ⟨r, hr, fun met hmet k h => ?_⟩
  rw [slots_meetAll_of_slot fun h hh => hslots h (hmet hh)]
  split
  · rfl
  · intro i hi
    rw [hself k h.id i hi]

/-! ### What was met -/

theorem slots_meet {k : Kind} {o i : Nat} {h : AnyHandle}
    (hi : (r.meet h).slots[(k, o)]? = some i) :
    r.slots[(k, o)]? = some i ∨ k.isIndexed = false ∧ h = ⟨k, ⟨o⟩⟩ := by
  obtain ⟨j, ⟨n⟩⟩ := h
  rw [meet] at hi
  split at hi
  · exact .inl hi
  · rename_i hj
    rw [Bool.not_eq_true] at hj
    cases hs : r.slots[(j, n)]? with
    | some _ =>
      rw [reserve_of_slot hs] at hi
      exact .inl hi
    | none =>
      simp only [reserve_of_none hs, Std.HashMap.getElem?_insert, beq_iff_eq] at hi
      split at hi
      · rename_i he
        cases he
        exact .inr ⟨hj, rfl⟩
      · exact .inl hi

/-- The number was met. -/
def Met (r : References) : HandleProperty := fun k h =>
  if k.isIndexed then ∃ m, r.highest[k]? = some m ∧ h.id ≤ m else ∃ i, r.slots[(k, h.id)]? = some i

theorem Met.mono {x : Handle k} (hr : r ≤ r') (h : r.Met k x) : r'.Met k x := by
  unfold Met at *
  split
  · rename_i hk
    rw [if_pos hk] at h
    obtain ⟨m, hm, hle⟩ := h
    obtain ⟨m', hm', hle'⟩ := hr.highest k m hm
    exact ⟨m', hm', Nat.le_trans hle hle'⟩
  · rename_i hk
    rw [if_neg hk] at h
    obtain ⟨i, hi⟩ := h
    exact ⟨i, hr.slots k x.id i hi⟩

theorem met_meet (r : References) (k : Kind) (x : Handle k) : (r.meet ⟨k, x⟩).Met k x := by
  rw [Met]
  split
  · rename_i hk
    exact ⟨_, by rw [meet_index hk, highest_note, if_pos rfl], Nat.le_max_left ..⟩
  · rename_i hk
    rw [meet_offset (by simpa using hk)]
    exact ⟨_, slot_reserve r k x.id⟩

theorem each_met (r : References) (hs : List AnyHandle) : Each (r.meetAll hs).Met hs := by
  induction hs generalizing r with
  | nil => exact each_nil
  | cons h hs ih =>
    exact each_cons.2 ⟨(met_meet r h.1 h.2).mono (extends_meetAll (r.meet h) hs), ih _⟩

/-- The handle that is given out for a number that was met leads to where the number leads. -/
theorem Met.holds {x : Handle k} (hr : r.Sound) (hρ : r.Names ρ) (h : r.Met k x) :
    r.Holds k (ρ k x) := by
  rw [Holds]
  rw [Met] at h
  split
  · rename_i hk
    rwa [if_pos hk, ← hρ.index hk x] at h
  · rename_i hk
    rw [if_neg hk] at h
    obtain ⟨i, hi⟩ := h
    rw [hρ.offset (by simpa using hk) hi]
    exact ((hr.slot_iff k x.id i).1 hi).1

/-- Two numbers are given two handles, once they were met. -/
theorem Names.injective {x y : Handle k} (hρ : r.Names ρ) (hr : r.Sound)
    (hx : k.isIndexed = false → r.Met k x) (hy : k.isIndexed = false → r.Met k y)
    (h : ρ k x = ρ k y) : x = y := by
  cases hk : k.isIndexed with
  | true => rwa [hρ.index hk, hρ.index hk] at h
  | false =>
    have hx := hx hk
    have hy := hy hk
    rw [Met, if_neg (by simp [hk])] at hx hy
    obtain ⟨i, hi⟩ := hx
    obtain ⟨j, hj⟩ := hy
    rw [hρ.offset hk hi, hρ.offset hk hj] at h
    cases h
    have hxy := ((hr.slot_iff k x.id i).1 hi).2.symm.trans ((hr.slot_iff k y.id i).1 hj).2
    cases x
    cases y
    exact congrArg Handle.mk hxy

end References

/-- Parts that stand one after the other, each from where the one before ends. -/
def Chain {α : Type} (P : Nat → Nat → α → Prop) : Nat → List α → Nat → Prop
  | cursor, [], finish => cursor = finish
  | cursor, x :: xs, finish => ∃ next, P cursor next x ∧ Chain P next xs finish

theorem Chain.exists_map {α β : Type} {P : Nat → Nat → α → Prop} {Q : Nat → Nat → β → Prop}
    {g : β → α} {cursor finish : Nat} {xs : List α} (h : Chain P cursor xs finish)
    (hP : ∀ m n x, P m n x → ∃ y, Q m n y ∧ x = g y) :
    ∃ ys, Chain Q cursor ys finish ∧ xs = ys.map g := by
  induction xs generalizing cursor with
  | nil => exact ⟨[], h, rfl⟩
  | cons x xs ih =>
    obtain ⟨next, hx, hxs⟩ := h
    obtain ⟨y, hy, rfl⟩ := hP _ _ _ hx
    obtain ⟨ys, hys, rfl⟩ := ih hxs
    exact ⟨y :: ys, ⟨next, hy, hys⟩, rfl⟩

/-- Whatever references were met before, the reader stops at the same position and gives a value
that depends on the handles only that its numbers are renamed to, or it fails with the same fault,
which blames no reference. -/
def BlindAt (s : Source) (d : Renaming → Decoder α)
    (P : Nat → (Renaming → α) → List AnyHandle → Prop) : Prop :=
  (∃ n a hs met, P n a hs ∧ List.Perm met hs ∧ ∀ (r : References) (ρ : Renaming),
    (r.meetAll met).Names ρ → d ρ { s with references := r } =
      .ok (a ρ) { s with position := n, references := r.meetAll met }) ∨
  ∃ e met, ¬Fault.IsDangling e ∧ ∀ (r : References) (ρ : Renaming), (r.meetAll met).Names ρ →
    ∃ t, d ρ { s with references := r } = .error e t

/-- The same at every position. -/
def Blind (d : Renaming → Decoder α) (P : (Renaming → α) → List AnyHandle → Prop) : Prop :=
  ∀ s : Source, BlindAt s d fun _ => P

/-- A value without handles. -/
def IsConstant (a : Renaming → α) (hs : List AnyHandle) : Prop := (∃ x, ∀ ρ, a ρ = x) ∧ hs = []

/-- A value that is renamed with its handles. -/
def IsRenamed (rename : Renaming → α → α) (handles : α → List AnyHandle) (a : Renaming → α)
    (hs : List AnyHandle) : Prop :=
  ∃ x, (∀ ρ, a ρ = rename ρ x) ∧ hs = handles x

/-! ### Rules -/

namespace BlindAt

variable {α β : Type} {s : Source} {d : Renaming → Decoder α} {f : Renaming → α → Decoder β}
  {P P' : Nat → (Renaming → α) → List AnyHandle → Prop}
  {Q : Nat → (Renaming → β) → List AnyHandle → Prop}

theorem pure {a : Renaming → α} (h : P s.position a []) : BlindAt s (fun ρ => pure (a ρ)) P :=
  .inl ⟨s.position, a, [], [], h, .nil, fun _ _ _ => rfl⟩

theorem throw {e : Fault} (he : ¬e.IsDangling) :
    BlindAt s (fun _ => (throw e : Decoder α)) P :=
  .inr ⟨e, [], he, fun r _ _ => ⟨{ s with references := r }, rfl⟩⟩

/-- The second reader is blind for every value that the first one may give. -/
theorem bind (hd : BlindAt s d P) (hf : ∀ n a hs, P n a hs →
    BlindAt { s with position := n } (fun ρ => f ρ (a ρ)) fun m b hs' => Q m b (hs ++ hs')) :
    BlindAt s (fun ρ => d ρ >>= f ρ) Q := by
  rcases hd with ⟨n, a, hs, met, hP, hperm, hok⟩ | ⟨e, met, he, herror⟩
  · rcases hf n a hs hP with ⟨m, b, hs', met', hQ, hperm', hok'⟩ | ⟨e, met', he, herror⟩
    · refine .inl ⟨m, b, hs ++ hs', met ++ met', hQ, hperm.append hperm', fun r ρ hρ => ?_⟩
      rw [References.meetAll_append] at hρ ⊢
      exact (Decoder.bind_of_ok (hok r ρ (hρ.anti (References.extends_meetAll ..)))).trans
        (hok' (r.meetAll met) ρ hρ)
    · refine .inr ⟨e, met ++ met', he, fun r ρ hρ => ?_⟩
      rw [References.meetAll_append] at hρ
      obtain ⟨t, ht⟩ := herror (r.meetAll met) ρ hρ
      exact ⟨t, (Decoder.bind_of_ok (hok r ρ (hρ.anti (References.extends_meetAll ..)))).trans ht⟩
  · refine .inr ⟨e, met, he, fun r ρ hρ => ?_⟩
    obtain ⟨t, ht⟩ := herror r ρ hρ
    exact ⟨t, Decoder.bind_of_error ht⟩

theorem mono (hd : BlindAt s d P)
    (h : ∀ n a hs, P n a hs → ∃ hs', hs.Perm hs' ∧ P' n a hs') : BlindAt s d P' := by
  rcases hd with ⟨n, a, hs, met, hP, hperm, hok⟩ | herror
  · obtain ⟨hs', hperm', hP'⟩ := h n a hs hP
    exact .inl ⟨n, a, hs', met, hP', hperm.trans hperm', hok⟩
  · exact .inr herror

theorem timesOnto {d : Decoder α} {P : Nat → Nat → (Renaming → α) × List AnyHandle → Prop}
    (hd : ∀ n, BlindAt { s with position := n } (fun _ => d) fun m a hs => P n m (a, hs))
    (count : Nat) (read : Renaming → List α) :
    BlindAt s (fun ρ => Decoder.timesOnto d count (read ρ)) fun n a hs =>
      ∃ xs, xs.length = count ∧ Chain P s.position xs n ∧
        (∀ ρ, a ρ = (read ρ).reverse ++ xs.map (·.1 ρ)) ∧ hs = xs.flatMap (·.2) := by
  induction count generalizing s read with
  | zero => exact .pure ⟨[], rfl, rfl, fun ρ => (List.append_nil _).symm, rfl⟩
  | succ count ih =>
    refine (hd s.position).bind fun n a hs hP => ?_
    refine (ih (s := { s with position := n }) hd fun ρ => a ρ :: read ρ).mono ?_
    rintro m b _ ⟨xs, hlen, hchain, hb, rfl⟩
    refine ⟨_, .refl _, (a, hs) :: xs, congrArg Nat.succ hlen, ⟨n, hP, hchain⟩, fun ρ => ?_, rfl⟩
    rw [hb ρ, List.reverse_cons, List.append_assoc, List.map_cons]
    rfl

theorem position (s : Source) : BlindAt s (fun _ => Decoder.position)
    fun n a hs => n = s.position ∧ (a, hs) = (fun _ => s.position, []) :=
  .inl ⟨s.position, _, [], [], ⟨rfl, rfl⟩, .nil, fun _ _ _ => rfl⟩

theorem offset {k : Kind} (hk : k.isIndexed = false) (n : Nat) (s : Source) :
    BlindAt s (fun _ => Decoder.offset k n)
      fun m a hs => m = s.position ∧ (a, hs) = (fun ρ => ρ k ⟨n⟩, [⟨k, ⟨n⟩⟩]) := by
  refine .inl ⟨s.position, _, _, [⟨k, ⟨n⟩⟩], ⟨rfl, rfl⟩, .refl _, fun r ρ hρ => ?_⟩
  rw [References.meetAll, List.foldl_cons, List.foldl_nil, References.meet_offset hk] at hρ ⊢
  beta_reduce
  rw [hρ.offset hk (References.slot_reserve r k n)]
  rfl

end BlindAt

namespace Blind

variable {α β : Type} {d : Decoder α} {f : Renaming → α → Decoder β} {k : Kind}
  {P P' : (Renaming → α) → List AnyHandle → Prop} {Q : (Renaming → β) → List AnyHandle → Prop}
  {rename : Renaming → α → α} {handles : α → List AnyHandle}

theorem pure {a : Renaming → α} (h : P a []) : Blind (fun ρ => pure (a ρ)) P :=
  fun _ => .pure h

theorem throw {e : Fault} (he : ¬e.IsDangling) : Blind (fun _ => (throw e : Decoder α)) P :=
  fun _ => .throw he

theorem mono {d : Renaming → Decoder α} (hd : Blind d P)
    (h : ∀ a hs, P a hs → ∃ hs', hs.Perm hs' ∧ P' a hs') : Blind d P' :=
  fun s => (hd s).mono fun _ => h

/-- The first reader gives a value without handles. -/
theorem bind (hd : Blind (fun _ => d) IsConstant) (hf : ∀ x, Blind (fun ρ => f ρ x) Q) :
    Blind (fun ρ => d >>= f ρ) Q := by
  refine fun s => (hd s).bind fun n a hs ⟨⟨x, ha⟩, hhs⟩ => ?_
  subst hhs
  obtain rfl : a = fun _ => x := funext ha
  exact hf x _

/-- The first reader gives a value with handles. -/
theorem bind_renamed (hd : Blind (fun _ => d) (IsRenamed rename handles))
    (hf : ∀ x, Blind (fun ρ => f ρ (rename ρ x)) fun b hs => Q b (handles x ++ hs)) :
    Blind (fun ρ => d >>= f ρ) Q := by
  refine fun s => (hd s).bind fun n a hs ⟨x, ha, hhs⟩ => ?_
  subst hhs
  obtain rfl : a = fun ρ => rename ρ x := funext ha
  exact hf x _

theorem throw_bind {e : Fault} {f : Renaming → α → Decoder β} (he : ¬e.IsDangling) :
    Blind (fun ρ => MonadExcept.throw e >>= f ρ) Q :=
  fun _ => (BlindAt.throw (P := fun _ _ _ => False) he).bind fun _ _ _ h => h.elim

/-- Reads as many values one after the other. -/
theorem times (hd : Blind (fun _ => d) (IsRenamed rename handles)) (count : Nat) :
    Blind (fun _ => Decoder.times count d)
      (IsRenamed (fun ρ xs => xs.map (rename ρ)) fun xs => xs.flatMap handles) := by
  intro s
  refine (BlindAt.timesOnto (P := fun _ _ x => IsRenamed rename handles x.1 x.2) (fun _ => hd _)
    count fun _ => []).mono ?_
  rintro n a _ ⟨xs, -, hchain, ha, rfl⟩
  obtain ⟨ys, -, rfl⟩ := hchain.exists_map (Q := fun _ _ _ => True)
    (g := fun y => (fun ρ => rename ρ y, handles y)) fun _ _ x ⟨y, hy, hhs⟩ =>
      ⟨y, trivial, Prod.ext (funext hy) hhs⟩
  refine ⟨_, .refl _, ys, fun ρ => ?_, List.flatMap_map ..⟩
  rw [ha ρ, List.map_map]
  rfl

theorem isRenamed (hd : Blind (fun _ => d) IsConstant) :
    Blind (fun _ => d) (IsRenamed (fun _ x => x) fun _ => []) :=
  hd.mono fun _ _ ⟨⟨x, ha⟩, hhs⟩ => ⟨_, .refl _, x, ha, hhs⟩

theorem isConstant (hd : Blind (fun _ => d) (IsRenamed (fun _ x => x) fun _ => [])) :
    Blind (fun _ => d) IsConstant :=
  hd.mono fun _ _ ⟨x, ha, hhs⟩ => ⟨_, .refl _, ⟨x, ha⟩, hhs⟩

/-! ### Numbers -/

/-- A reader that fails where it stands or gives a value and moves the position. -/
theorem of_position (h : ∀ s : Source, (∃ x n, ∀ r, d { s with references := r } =
      .ok x { s with position := n, references := r }) ∨
    ∃ e, ¬Fault.IsDangling e ∧ ∀ r, d { s with references := r } =
      .error e { s with references := r }) : Blind (fun _ => d) IsConstant := by
  intro s
  rcases h s with ⟨x, n, hok⟩ | ⟨e, he, herror⟩
  · exact .inl ⟨n, fun _ => x, [], [], ⟨⟨x, fun _ => rfl⟩, rfl⟩, .nil, fun r _ _ => hok r⟩
  · exact .inr ⟨e, [], he, fun r _ _ => ⟨_, herror r⟩⟩

theorem constant (x : α) : Blind (fun _ => Pure.pure x) IsConstant := .pure ⟨⟨x, fun _ => rfl⟩, rfl⟩

theorem ofExcept {e : Except Fault α} (he : ∀ fault, e = .error fault → ¬fault.IsDangling) :
    Blind (fun _ => Decoder.ofExcept e) IsConstant := by
  cases e with
  | ok x => exact constant x
  | error fault => exact throw (he fault rfl)

theorem position : Blind (fun _ => Decoder.position) IsConstant :=
  of_position fun s => .inl ⟨s.position, s.position, fun _ => rfl⟩

theorem remaining : Blind (fun _ => Decoder.remaining) IsConstant :=
  of_position fun s => .inl ⟨s.remaining, s.position, fun _ => rfl⟩

theorem keepsSigned : Blind (fun _ => Decoder.keepsSigned) IsConstant :=
  of_position fun s => .inl ⟨s.keepsSigned, s.position, fun _ => rfl⟩

theorem byte : Blind (fun _ => Decoder.byte) IsConstant := by
  refine of_position fun s => ?_
  cases h : s.image[s.position]? with
  | some b => exact .inl ⟨b, s.position + 1, fun r => by simp [Decoder.byte, h, Source.advance]⟩
  | none => exact .inr ⟨_, id, fun r => by simp [Decoder.byte, h]; rfl⟩

theorem bytes (n : Nat) : Blind (fun _ => Decoder.bytes n) IsConstant := by
  refine of_position fun s => ?_
  by_cases h : s.position + n ≤ s.image.size
  · exact .inl ⟨_, s.position + n, fun r => by simp only [Decoder.bytes, if_pos h]; rfl⟩
  · exact .inr ⟨.unexpectedEnd s.position n, id, fun r => by simp only [Decoder.bytes, if_neg h]⟩

theorem vector (n : Nat) : Blind (fun _ => Decoder.vector n) IsConstant := by
  refine of_position fun s => ?_
  by_cases h : s.position + n ≤ s.image.size
  · exact .inl ⟨⟨s.image.extract s.position (s.position + n), by simp; omega⟩, s.position + n,
      fun r => by simp only [Decoder.vector, dif_pos h]; rfl⟩
  · exact .inr ⟨.unexpectedEnd s.position n, id, fun r => by simp only [Decoder.vector, dif_neg h]⟩

theorem half : Blind (fun _ => Decoder.half) IsConstant := (bytes 2).bind fun _ => constant _

theorem word : Blind (fun _ => Decoder.word) IsConstant := (bytes 4).bind fun _ => constant _

theorem groupsWithin {failure : Fault} (h : ¬failure.IsDangling) (limit : Nat) :
    Blind (fun _ => Decoder.groupsWithin failure limit) IsConstant := by
  induction limit with
  | zero => exact throw h
  | succ limit ih =>
    refine byte.bind fun b => ?_
    split
    · exact constant _
    · exact ih.bind fun _ => constant _

theorem groups (defect : Defect) : Blind (fun _ => Decoder.groups defect) IsConstant :=
  position.bind fun _ => groupsWithin id _

theorem unsignedWithLength : Blind (fun _ => Decoder.unsignedWithLength) IsConstant :=
  (groups _).bind fun _ => constant _

theorem unsigned : Blind (fun _ => Decoder.unsigned) IsConstant :=
  unsignedWithLength.bind fun _ => constant _

theorem signed : Blind (fun _ => Decoder.signed) IsConstant := (groups _).bind fun _ => constant _

theorem plusOne : Blind (fun _ => Decoder.plusOne) IsConstant := unsigned.bind fun _ => constant _

theorem times_constant (hd : Blind (fun _ => d) IsConstant) (count : Nat) :
    Blind (fun _ => Decoder.times count d) IsConstant := by
  refine isConstant ((hd.isRenamed.times count).mono fun a hs ⟨xs, ha, hhs⟩ => ?_)
  exact ⟨hs, .refl _, xs, fun ρ => (ha ρ).trans (List.map_id' xs),
    hhs.trans (List.flatMap_eq_nil_iff.2 fun _ _ => rfl)⟩

/-! ### References -/

theorem index (hk : k.isIndexed = true) (n : Nat) :
    Blind (fun _ => Decoder.index k n) (IsRenamed (fun ρ => ρ k) fun h => [h.any]) := by
  intro s
  refine .inl ⟨s.position, fun ρ => ρ k ⟨n⟩, [⟨k, ⟨n⟩⟩], [⟨k, ⟨n⟩⟩], ⟨⟨n⟩, fun _ => rfl, rfl⟩,
    .refl _, fun r ρ hρ => ?_⟩
  beta_reduce
  rw [hρ.index hk, References.meetAll, List.foldl_cons, List.foldl_nil, References.meet_index hk]
  rfl

theorem offset (hk : k.isIndexed = false) (n : Nat) :
    Blind (fun _ => Decoder.offset k n) (IsRenamed (fun ρ => ρ k) fun h => [h.any]) :=
  fun s => (BlindAt.offset hk n s).mono fun _ _ _ ⟨_, h⟩ => by
    cases h
    exact ⟨_, .refl _, ⟨n⟩, fun _ => rfl, rfl⟩

/-- A reference that may be absent. -/
theorem optional {d : Decoder (Handle k)}
    (hd : Blind (fun _ => d) (IsRenamed (fun ρ => ρ k) fun h => [h.any])) :
    Blind (fun _ => some <$> d)
      (IsRenamed (fun ρ => Option.map (ρ k)) fun o => o.toList.map Handle.any) := by
  simp only [map_eq_pure_bind]
  exact hd.bind_renamed fun h => pure ⟨some h, fun _ => rfl, rfl⟩

theorem absent : Blind (fun _ => Pure.pure none)
    (IsRenamed (fun ρ => Option.map (ρ k)) fun o => o.toList.map Handle.any) :=
  pure ⟨none, fun _ => rfl, rfl⟩

theorem optionalIndex (hk : k.isIndexed = true) (n : Nat) :
    Blind (fun _ => Decoder.optionalIndex k n)
      (IsRenamed (fun ρ => Option.map (ρ k)) fun o => o.toList.map Handle.any) := by
  simp only [Decoder.optionalIndex]
  split
  · exact absent
  · exact (index hk n).optional

theorem optionalOffset (hk : k.isIndexed = false) (n : Nat) :
    Blind (fun _ => Decoder.optionalOffset k n)
      (IsRenamed (fun ρ => Option.map (ρ k)) fun o => o.toList.map Handle.any) := by
  simp only [Decoder.optionalOffset]
  split
  · exact absent
  · exact (offset hk n).optional

theorem indexOfOption (hk : k.isIndexed = true) (m : Option Nat) :
    Blind (fun _ => Decoder.indexOfOption k m)
      (IsRenamed (fun ρ => Option.map (ρ k)) fun o => o.toList.map Handle.any) := by
  cases m with
  | none => exact absent
  | some n => exact (index hk n).optional

end Blind

end DexContainer
