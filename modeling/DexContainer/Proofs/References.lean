import DexContainer.Decoding.References
import DexContainer.Proofs.Renaming

/-! What the references met so far tell. Slots and offsets determine each other, and references
only grow: a slot keeps its offset, and the highest index never falls. Reading back what was
written from a table of positions meets only those positions, and then the handles that are read
rename the handles that were written. -/

namespace DexContainer.References

variable {r r' r'' : References} {k : Kind} {places : Places} {ρ : Renaming}

/-- Slots and offsets determine each other, offsets are met of data kinds only and indices of the
other kinds only. -/
structure Sound (r : References) : Prop where
  slot_iff : ∀ (k : Kind) (o i : Nat),
    r.slots[(k, o)]? = some i ↔ i < r.slotCount k ∧ r.slotOffset k i = o
  isIndexed_of_slot : ∀ (k : Kind) (o i : Nat), r.slots[(k, o)]? = some i → k.isIndexed = false
  isIndexed_of_highest : ∀ (k : Kind) (m : Nat), r.highest[k]? = some m → k.isIndexed = true

/-- What was met stays met. -/
structure Extends (r r' : References) : Prop where
  slots : ∀ (k : Kind) (o i : Nat), r.slots[(k, o)]? = some i → r'.slots[(k, o)]? = some i
  counts : ∀ k : Kind, r.slotCount k ≤ r'.slotCount k
  highest : ∀ (k : Kind) (m : Nat),
    r.highest[k]? = some m → ∃ m', r'.highest[k]? = some m' ∧ m ≤ m'

instance : LE References := ⟨Extends⟩

@[refl] theorem extends_refl (r : References) : r ≤ r :=
  ⟨fun _ _ _ h => h, fun _ => Nat.le_refl _, fun _ m h => ⟨m, h, Nat.le_refl m⟩⟩

theorem extends_trans (h : r ≤ r') (h' : r' ≤ r'') : r ≤ r'' := by
  refine ⟨fun k o i hi => h'.slots k o i (h.slots k o i hi),
    fun k => Nat.le_trans (h.counts k) (h'.counts k), ?_⟩
  intro k m hm
  obtain ⟨m', hm', hle⟩ := h.highest k m hm
  obtain ⟨m'', hm'', hle'⟩ := h'.highest k m' hm'
  exact ⟨m'', hm'', Nat.le_trans hle hle'⟩

/-- The handle names something that was met. -/
def Holds (r : References) : HandleProperty := fun k h =>
  if k.isIndexed then ∃ m, r.highest[k]? = some m ∧ h.id ≤ m else h.id < r.slotCount k

theorem Holds.mono {h : Handle k} (hr : r ≤ r') (hh : r.Holds k h) : r'.Holds k h := by
  unfold Holds at *
  split
  · rename_i hk
    rw [if_pos hk] at hh
    obtain ⟨m, hm, hle⟩ := hh
    obtain ⟨m', hm', hle'⟩ := hr.highest k m hm
    exact ⟨m', hm', Nat.le_trans hle hle'⟩
  · rename_i hk
    rw [if_neg hk] at hh
    exact Nat.lt_of_lt_of_le hh (hr.counts k)

theorem sound_empty : Sound {} := by
  constructor <;> intros <;> simp_all [slotCount]

/-! ### Offsets -/

@[simp] theorem highest_reserve (r : References) (k : Kind) (n : Nat) :
    (r.reserve k n).2.highest = r.highest := by
  simp only [reserve]
  split <;> rfl

theorem reserve_of_slot {n i : Nat} (h : r.slots[(k, n)]? = some i) : r.reserve k n = (i, r) := by
  simp only [reserve, h]

theorem reserve_of_none {n : Nat} (h : r.slots[(k, n)]? = none) :
    r.reserve k n = (r.slotCount k,
      ⟨r.slots.insert (k, n) (r.slotCount k), r.offsets.insert (k, r.slotCount k) n,
        r.counts.insert k (r.slotCount k + 1), r.highest⟩) := by
  simp only [reserve, h, slotCount]

theorem slot_reserve (r : References) (k : Kind) (n : Nat) :
    (r.reserve k n).2.slots[(k, n)]? = some (r.reserve k n).1 := by
  cases h : r.slots[(k, n)]? with
  | some i => rw [reserve_of_slot h, h]
  | none => simp [reserve_of_none h]

/-- A new slot is the first one free, so it takes no other offset's place. -/
theorem Sound.reserve (hr : r.Sound) (hk : k.isIndexed = false) (n : Nat) :
    (r.reserve k n).2.Sound := by
  cases h : r.slots[(k, n)]? with
  | some i => rwa [reserve_of_slot h]
  | none =>
    rw [reserve_of_none h]
    refine ⟨fun j o i => ?_, fun j o i hi => ?_, fun j m hm => hr.isIndexed_of_highest j m hm⟩
    · have hj := hr.slot_iff j o i
      have hn := hr.slot_iff k n i
      simp only [h, reduceCtorEq, false_iff] at hn
      simp only [slotCount, slotOffset, Std.HashMap.getElem?_insert, Std.HashMap.getD_insert,
        beq_iff_eq, Prod.mk.injEq] at hj hn ⊢
      by_cases hjk : k = j
      · subst hjk
        by_cases ho : n = o
        · subst ho
          by_cases hi : r.counts.getD k 0 = i
          · simp [hi]
          · simp only [true_and, and_self, if_true, Option.some.injEq, hi, if_false, false_iff]
            intro hlt
            exact hn ⟨by omega, hlt.2⟩
        · by_cases hi : r.counts.getD k 0 = i
          · simp [ho, hi, hj]
          · simp only [ho, and_false, if_false, hi, if_true, hj]
            refine and_congr_left fun _ => ?_
            omega
      · simp only [hjk, false_and, if_false]
        exact hj
    · simp only [Std.HashMap.getElem?_insert, beq_iff_eq, Prod.mk.injEq] at hi
      split at hi
      · rename_i hjk
        rw [← hjk.1, hk]
      · exact hr.isIndexed_of_slot j o i hi

theorem extends_reserve (r : References) (k : Kind) (n : Nat) : r ≤ (r.reserve k n).2 := by
  cases h : r.slots[(k, n)]? with
  | some i =>
    rw [reserve_of_slot h]
  | none =>
    rw [reserve_of_none h]
    refine ⟨fun j o i hi => ?_, fun j => ?_, fun j m hm => ⟨m, hm, Nat.le_refl m⟩⟩
    · rw [Std.HashMap.getElem?_insert]
      split
      · rename_i he
        rw [beq_iff_eq] at he
        rw [he, hi] at h
        exact absurd h (by simp)
      · exact hi
    · simp only [slotCount, Std.HashMap.getD_insert]
      split
      · rename_i he
        rw [← beq_iff_eq.1 he]
        omega
      · exact Nat.le_refl _

theorem holds_reserve (hr : r.Sound) (hk : k.isIndexed = false) (n : Nat) :
    (r.reserve k n).2.Holds k ⟨(r.reserve k n).1⟩ := by
  have hs := ((hr.reserve hk n).slot_iff k n _).1 (slot_reserve r k n)
  simp [Holds, hk, hs.1]

/-! ### Indices -/

theorem highest_note (r : References) (j k : Kind) (n : Nat) :
    (r.note k n).highest[j]? =
      if k = j then some (max n (r.highest.getD k n)) else r.highest[j]? := by
  simp [note, Std.HashMap.getElem?_insert]

theorem highest_note_of_le {n m : Nat} (h : (r.note k n).highest[k]? = some m) :
    n ≤ m ∧ (m = n ∨ r.highest[k]? = some m) := by
  rw [highest_note, if_pos rfl, Std.HashMap.getD_eq_getD_getElem?] at h
  cases hm : r.highest[k]? with
  | none => simp_all
  | some m' =>
    simp only [hm, Option.getD_some, Option.some.injEq] at h ⊢
    omega

theorem Sound.note (hr : r.Sound) (hk : k.isIndexed = true) (n : Nat) : (r.note k n).Sound := by
  refine ⟨hr.slot_iff, hr.isIndexed_of_slot, fun j m hm => ?_⟩
  rw [highest_note] at hm
  split at hm
  · rename_i hj
    rw [← hj, hk]
  · exact hr.isIndexed_of_highest j m hm

theorem extends_note (r : References) (k : Kind) (n : Nat) : r ≤ r.note k n := by
  refine ⟨fun _ _ _ h => h, fun _ => Nat.le_refl _, fun j m hm => ?_⟩
  rw [highest_note]
  split
  · rename_i hj
    subst hj
    refine ⟨_, rfl, ?_⟩
    rw [Std.HashMap.getD_eq_getD_getElem?, hm]
    exact Nat.le_max_right ..
  · exact ⟨m, hm, Nat.le_refl m⟩

theorem holds_note (hk : k.isIndexed = true) (n : Nat) : (r.note k n).Holds k ⟨n⟩ := by
  rw [Holds, if_pos hk]
  exact ⟨_, by rw [highest_note, if_pos rfl], Nat.le_max_left ..⟩

end DexContainer.References
