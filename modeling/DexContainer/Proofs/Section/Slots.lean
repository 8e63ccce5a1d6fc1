import Mathlib.Data.List.Nodup
import DexContainer.Proofs.Reads
import DexContainer.Proofs.Section.Layout

/-! Items of a data section and their slots. A decoder accepts a section when every slot has its
item, and then the slots are the numbers of the items. Main statements: `requireAll_bySlot`, items
whose slots are the numbers below a count stand each at its slot; and `perm_slots`, when every
offset that was met has its item, the slots of the items are the numbers below the count of the
slots. -/

namespace DexContainer

theorem perm_range_of_nodup {ids : List Nat} {n : Nat} (hn : ids.Nodup)
    (h : ∀ i, i ∈ ids ↔ i < n) : ids.Perm (List.range n) := by
  refine (List.perm_ext_iff_of_nodup hn List.nodup_range).2 fun i => ?_
  rw [h, List.mem_range]

namespace Section

variable {k : Kind} {references : References} {found placed : List (Found k)} {count : Nat}

theorem bySlot_eq (count : Nat) (found : List (Found k)) :
    bySlot count found =
      assign (found.map fun x => (x.slot, x)) (Array.replicate count none) := by
  rw [bySlot, assign, List.foldl_map]

theorem requireAll_eq_ok {slots : Array (Option (Found k))} :
    requireAll references slots = .ok placed ↔ slots.toList = placed.map some := by
  rw [requireAll]
  generalize slots.toList = xs
  generalize 0 = n
  induction xs generalizing n placed with
  | nil => cases placed <;> simp
  | cons x xs ih =>
    cases x <;> cases placed <;> simp [List.zipIdx_cons, List.mapM_cons, ih, and_comm]

theorem getElem?_bySlot {i : Nat} {x : Found k} (h : (bySlot count found)[i]? = some (some x)) :
    x ∈ found ∧ x.slot = i := by
  rw [bySlot_eq] at h
  rcases mem_or_of_getElem?_assign h with h | h
  · obtain ⟨y, hy, heq⟩ := List.mem_map.1 h
    cases heq
    exact ⟨hy, rfl⟩
  · simp [Array.getElem?_replicate] at h

/-- What is accepted holds an item in every slot. -/
theorem of_requireAll_bySlot (h : requireAll references (bySlot count found) = .ok placed) :
    placed.length = count ∧ ∀ i x, placed[i]? = some x → x ∈ found ∧ x.slot = i := by
  have hlist := requireAll_eq_ok.1 h
  constructor
  · have := congrArg List.length hlist
    simpa [bySlot_eq] using this.symm
  · intro i x hx
    apply getElem?_bySlot
    rw [← Array.getElem?_toList, hlist, List.getElem?_map, hx]
    rfl

theorem getElem?_bySlot_of_mem {x : Found k} (h : (found.map (·.slot)).Nodup) (hx : x ∈ found)
    (hlt : x.slot < count) : (bySlot count found)[x.slot]? = some (some x) := by
  have hnodup : ((found.map fun x => (x.slot, x)).map Prod.fst).Nodup := by
    rwa [List.map_map]
  rw [bySlot_eq]
  exact getElem?_assign_of_mem hnodup (List.mem_map_of_mem hx) (by simpa using hlt)

/-- What is refused has a slot without an item. -/
theorem exists_of_requireAll_bySlot {e : Fault} (hn : (found.map (·.slot)).Nodup)
    (h : requireAll references (bySlot count found) = .error e) :
    ∃ i < count, e = .danglingOffset k (references.slotOffset k i) ∧ ∀ x ∈ found, x.slot ≠ i := by
  obtain ⟨⟨o, i⟩, hmem, herror⟩ := exists_of_mapM_eq_error h
  have hi := (List.mem_zipIdx_iff_getElem?).1 hmem
  rw [Array.getElem?_toList] at hi
  obtain ⟨hlt, -⟩ := Array.getElem?_eq_some_iff.1 hi
  have hcount : i < count := by simpa [bySlot_eq] using hlt
  cases o with
  | some x => cases herror
  | none =>
    refine ⟨i, hcount, by cases herror; rfl, ?_⟩
    rintro x hx rfl
    rw [getElem?_bySlot_of_mem hn hx hcount] at hi
    cases hi

theorem exists_eq_map_some {α : Type} {xs : List (Option α)} (h : ∀ o ∈ xs, ∃ x, o = some x) :
    ∃ ys : List α, xs = ys.map some := by
  induction xs with
  | nil => exact ⟨[], rfl⟩
  | cons o xs ih =>
    obtain ⟨x, rfl⟩ := h _ (List.mem_cons_self ..)
    obtain ⟨ys, rfl⟩ := ih fun o ho => h o (List.mem_cons_of_mem _ ho)
    exact ⟨x :: ys, rfl⟩

theorem requireAll_bySlot (h : (found.map (·.slot)).Perm (List.range count)) :
    ∃ placed, requireAll references (bySlot count found) = .ok placed ∧ placed.length = count ∧
      ∀ x ∈ found, placed[x.slot]? = some x := by
  have hget : ∀ x ∈ found, (bySlot count found)[x.slot]? = some (some x) := by
    intro x hx
    refine getElem?_bySlot_of_mem (h.nodup_iff.2 List.nodup_range) hx ?_
    exact List.mem_range.1 (h.mem_iff.1 (List.mem_map_of_mem hx))
  obtain ⟨placed, hplaced⟩ :
      ∃ placed : List (Found k), (bySlot count found).toList = placed.map some := by
    refine exists_eq_map_some fun o ho => ?_
    obtain ⟨i, hi, rfl⟩ := List.getElem_of_mem ho
    have hlt : i < count := by simpa [bySlot_eq] using hi
    obtain ⟨x, hx, rfl⟩ := List.mem_map.1 (h.mem_iff.2 (List.mem_range.2 hlt))
    have := hget x hx
    rw [← Array.getElem?_toList, List.getElem?_eq_getElem hi] at this
    exact ⟨x, Option.some.inj this⟩
  refine ⟨placed, requireAll_eq_ok.2 hplaced, ?_, fun x hx => ?_⟩
  · have := congrArg List.length hplaced
    simpa [bySlot_eq] using this.symm
  · have := hget x hx
    rw [← Array.getElem?_toList, hplaced, List.getElem?_map] at this
    simpa using this

end Section

namespace References

variable {r r' : References} {places : Places} {k : Kind}

/-- Every position of a kind was met. -/
def Covers (places : Places) (k : Kind) (r : References) : Prop :=
  ∀ (h : Handle k) (o : Nat), places.position? k h = some o → ∃ i, r.slots[(k, o)]? = some i

/-- The slots stand for the offsets of the items: there are neither more nor fewer, and no two items
share one. -/
theorem perm_slots {found : List (Nat × Nat)} (hr : r.Sound)
    (hslots : ∀ x ∈ found, r.slots[(k, x.1)]? = some x.2)
    (hall : ∀ o i, r.slots[(k, o)]? = some i → o ∈ found.map Prod.fst)
    (hnodup : (found.map Prod.fst).Nodup) :
    (found.map Prod.snd).Perm (List.range (r.slotCount k)) := by
  have hoffset : ∀ x ∈ found, r.slotOffset k x.2 = x.1 := fun x hx =>
    ((hr.slot_iff k x.1 x.2).1 (hslots x hx)).2
  apply perm_range_of_nodup
  · apply List.Nodup.of_map (r.slotOffset k)
    have hmap : found.map (r.slotOffset k ∘ Prod.snd) = found.map Prod.fst :=
      List.map_congr_left hoffset
    rwa [List.map_map, hmap]
  · intro i
    constructor
    · intro hi
      obtain ⟨x, hx, rfl⟩ := List.mem_map.1 hi
      exact ((hr.slot_iff k x.1 x.2).1 (hslots x hx)).1
    · intro hi
      have hslot := (hr.slot_iff k (r.slotOffset k i) i).2 ⟨hi, rfl⟩
      obtain ⟨x, hx, hxo⟩ := List.mem_map.1 (hall _ _ hslot)
      have := hslots x hx
      rw [hxo, hslot] at this
      exact List.mem_map.2 ⟨x, hx, (Option.some.inj this).symm⟩

end References

end DexContainer
