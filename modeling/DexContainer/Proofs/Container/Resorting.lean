import Mathlib.Data.List.Chain
import DexContainer.Proofs.Container.Sorting

/-! Sorting a second time. A section that has been sorted keeps its order when it is sorted again,
also when some items cannot be compared: in the order that insertion leads to, every item has been
compared with the one before it, and comparing two items the other way round tells the opposite.
Main statements: `insertionSort_of_insertionSort`; and `holdsOrder_of_canonicalOrder`, the
canonical order of a section that stands in it. -/

namespace DexContainer

namespace Canonical

variable {α ε : Type} {compare : α → α → Except ε Ordering} {x : α} {xs ys zs : List α}

/-- Comparing the other way round succeeds as well, and tells the opposite. -/
def IsOriented (compare : α → α → Except ε Ordering) : Prop :=
  ∀ x y o, compare x y = .ok o → compare y x = .ok o.swap

/-- Every item may stand in front of the next one in the list, which is the one before it in the
order. -/
def IsPlaced (compare : α → α → Except ε Ordering) (xs : List α) : Prop :=
  xs.IsChain fun x y => ∃ o, compare x y = .ok o ∧ o ≠ .lt

/-- An item is inserted in front of the others or behind the first of them. -/
theorem eq_or_exists_of_insertBack (h : insertBack compare x ys = .ok zs) :
    zs = x :: ys ∨ ∃ y ys' zs', ys = y :: ys' ∧ zs = y :: zs' := by
  cases ys with
  | nil =>
    cases h
    exact .inl rfl
  | cons y ys =>
    rw [insertBack] at h
    obtain ⟨o, -, h⟩ := bind_eq_ok.1 h
    cases o with
    | lt =>
      obtain ⟨rest, -, h⟩ := bind_eq_ok.1 h
      cases h
      exact .inr ⟨y, ys, rest, rfl, rfl⟩
    | eq =>
      cases h
      exact .inl rfl
    | gt =>
      cases h
      exact .inl rfl

/-- Inserting an item compares it with its neighbours. -/
theorem isPlaced_of_insertBack (ho : IsOriented compare) (hys : IsPlaced compare ys)
    (h : insertBack compare x ys = .ok zs) : IsPlaced compare zs := by
  induction ys generalizing zs with
  | nil =>
    cases h
    exact .singleton x
  | cons y ys ih =>
    rw [insertBack] at h
    obtain ⟨o, hxy, h⟩ := bind_eq_ok.1 h
    cases o with
    | lt =>
      obtain ⟨rest, hrest, h⟩ := bind_eq_ok.1 h
      cases h
      have hplaced := ih hys.tail hrest
      -- what stands behind `y` now is the inserted item, or what stood there before
      rcases eq_or_exists_of_insertBack hrest with rfl | ⟨w, ws, rest, rfl, rfl⟩
      · exact .cons_cons ⟨_, ho x y _ hxy, by decide⟩ hplaced
      · exact .cons_cons (List.isChain_cons_cons.1 hys).1 hplaced
    | eq =>
      cases h
      exact .cons_cons ⟨_, hxy, by decide⟩ hys
    | gt =>
      cases h
      exact .cons_cons ⟨_, hxy, by decide⟩ hys

/-- An item that may stand in front of all others is not moved. -/
theorem insertBack_of_isPlaced (h : IsPlaced compare (x :: ys)) :
    insertBack compare x ys = .ok (x :: ys) := by
  cases ys with
  | nil => rfl
  | cons y ys =>
    obtain ⟨o, hxy, ho⟩ := (List.isChain_cons_cons.1 h).1
    rw [insertBack, hxy, ok_bind]
    cases o with
    | lt => exact absurd rfl ho
    | eq => rfl
    | gt => rfl

/-- Inserting one item after the other keeps the items placed. -/
theorem isPlaced_of_foldlM_insertBack (ho : IsOriented compare) (hys : IsPlaced compare ys)
    (h : xs.foldlM (fun sorted x => insertBack compare x sorted) ys = .ok zs) :
    IsPlaced compare zs := by
  induction xs generalizing ys with
  | nil =>
    cases h
    exact hys
  | cons x xs ih =>
    rw [List.foldlM_cons] at h
    obtain ⟨next, hnext, h⟩ := bind_eq_ok.1 h
    exact ih (isPlaced_of_insertBack ho hys hnext) h

/-- Items that come in the order in which they may stand are only put in front of each other. -/
theorem foldlM_insertBack_of_isPlaced (h : IsPlaced compare (xs.reverse ++ ys)) :
    xs.foldlM (fun sorted x => insertBack compare x sorted) ys = .ok (xs.reverse ++ ys) := by
  induction xs generalizing ys with
  | nil => rfl
  | cons x xs ih =>
    rw [List.reverse_cons, List.append_assoc, List.singleton_append] at h ⊢
    rw [List.foldlM_cons, insertBack_of_isPlaced h.right_of_append, ok_bind, ih h]

/-- Sorting once more changes nothing. -/
theorem insertionSort_of_insertionSort (ho : IsOriented compare)
    (h : insertionSort compare xs = .ok ys) : insertionSort compare ys = .ok ys := by
  obtain ⟨zs, hzs, h⟩ := bind_eq_ok.1 h
  obtain rfl := Except.ok.inj h
  have hplaced : IsPlaced compare (zs.reverse.reverse ++ []) := by
    simpa using isPlaced_of_foldlM_insertBack ho .nil hzs
  rw [insertionSort, foldlM_insertBack_of_isPlaced hplaced, ok_bind, List.append_nil,
    List.reverse_reverse, pure_eq]

theorem compareText_swap (a b : CodePoints) : (compareText a b).swap = compareText b a := by
  have : Std.OrientedCmp compareText := inferInstanceAs (Std.OrientedCmp (List.compareLex compare))
  exact Std.OrientedCmp.eq_swap.symm

theorem compareLists_swap {entry : α → Except ε CodePoints} {xs ys : List α} {o : Ordering}
    (h : compareLists entry xs ys = .ok o) : compareLists entry ys xs = .ok o.swap := by
  induction xs generalizing ys with
  | nil =>
    cases ys with
    | nil =>
      cases h
      rfl
    | cons b bs =>
      obtain ⟨key, hkey, h⟩ := bind_eq_ok.1 h
      cases h
      rw [compareLists, hkey]
      rfl
  | cons a as ih =>
    cases ys with
    | nil =>
      obtain ⟨key, hkey, h⟩ := bind_eq_ok.1 h
      cases h
      rw [compareLists, hkey]
      rfl
    | cons b bs =>
      rw [compareLists] at h ⊢
      obtain ⟨ka, hka, h⟩ := bind_eq_ok.1 h
      obtain ⟨kb, hkb, h⟩ := bind_eq_ok.1 h
      rw [hka, hkb, ok_bind, ok_bind, ← compareText_swap]
      cases hab : compareText ka kb with
      | lt =>
        rw [hab] at h
        cases h
        rfl
      | eq =>
        rw [hab] at h
        exact ih h
      | gt =>
        rw [hab] at h
        cases h
        rfl

end Canonical

namespace Container

variable {c d : Container} {k : Kind}

theorem compareContents_swap {x y : Content k} {o : Ordering}
    (h : c.compareContents k x y = .ok o) : c.compareContents k y x = .ok o.swap := by
  cases k with
  | stringData =>
    have : Std.OrientedCmp Utf16.compareUnits :=
      inferInstanceAs (Std.OrientedCmp (List.compareLex compare))
    cases h
    exact congrArg Except.ok Std.OrientedCmp.eq_swap
  | typeList => exact Canonical.compareLists_swap h
  | annotationItem =>
    have hswap : compare (AnnotationItem.visibility y) (AnnotationItem.visibility x) =
        (compare (AnnotationItem.visibility x) (AnnotationItem.visibility y)).swap :=
      Std.OrientedCmp.eq_swap
    rw [compareContents] at h ⊢
    rw [hswap]
    cases hxy : compare (AnnotationItem.visibility x) (AnnotationItem.visibility y) with
    | lt =>
      rw [hxy] at h
      cases h
      rfl
    | gt =>
      rw [hxy] at h
      cases h
      rfl
    | eq =>
      rw [hxy] at h
      obtain ⟨a, ha, h⟩ := bind_eq_ok.1 h
      obtain ⟨b, hb, h⟩ := bind_eq_ok.1 h
      cases h
      simp only [Ordering.swap_eq, ha, hb, ok_bind, Canonical.compareText_swap]
      rfl
  | _ =>
    cases h
    rfl

theorem compareContents_congr (h : c.KeepsContent d) :
    d.compareContents k = c.compareContents k := by
  funext x y
  cases k <;> simp only [compareContents, funext (descriptorKey_congr h)]

/-- The canonical order depends on what the items hold and on the order in which they stand. -/
theorem canonicalOrder_congr (h : c.KeepsContent d) (hk : k.isSortable = true)
    (horder : (d.sectionOf k).order = (c.sectionOf k).order) :
    d.canonicalOrder k = c.canonicalOrder k := by
  simp only [canonicalOrder, withContent_congr h hk, withKey_congr h, compareContents_congr h,
    horder]

theorem HoldsOrder.congr (hc : c.HoldsOrder k) (h : c.KeepsContent d) (hk : k.isSortable = true)
    (horder : (d.sectionOf k).order = (c.sectionOf k).order) : d.HoldsOrder k := by
  rw [HoldsOrder, canonicalOrder_congr h hk horder, horder]
  exact hc

/-- Items with their handles are found again in any order. -/
theorem mapM_withContent_perm {ids : List Nat} {items sorted : List (Nat × Content k)}
    (h : ids.mapM (c.withContent k) = .ok items) (hperm : sorted.Perm items) :
    (sorted.map (·.1)).mapM (c.withContent k) = .ok sorted := by
  rw [mapM_map]
  refine mapM_eq_ok.2 (List.forall₂_same.2 fun x hx => ?_)
  obtain ⟨id, -, hid⟩ := exists_of_mem_mapM h (hperm.mem_iff.1 hx)
  obtain ⟨y, hy, hx⟩ := bind_eq_ok.1 hid
  cases hx
  exact hid

/-- An item without a key is still among the items after they were sorted. -/
theorem exists_error_of_perm {items sorted : List (Nat × Content k)} {e : Violation}
    (h : items.mapM (c.withKey k) = .error e) (hperm : sorted.Perm items) :
    ∃ e, sorted.mapM (c.withKey k) = .error e := by
  cases hkeyed : sorted.mapM (c.withKey k) with
  | error e => exact ⟨e, rfl⟩
  | ok keyed =>
    obtain ⟨x, hx, hxerror⟩ := exists_of_mapM_eq_error h
    obtain ⟨y, hy⟩ := exists_of_mapM_eq_ok hkeyed (hperm.mem_iff.2 hx)
    cases hxerror.symm.trans hy

/-- A section that was put into canonical order keeps it. -/
theorem holdsOrder_of_canonicalOrder {order : List Nat} (hk : k.isSortable = true)
    (h : c.canonicalOrder k = .ok order) (hitems : c.KeepsContent d)
    (horder : (d.sectionOf k).order = order.toArray) : d.HoldsOrder k := by
  obtain ⟨items, hcontents, h⟩ := bind_eq_ok.1 h
  split at h
  · rename_i keyed hkeyed
    obtain rfl := Except.ok.inj h
    have hkeyed : (c.sectionOf k).order.toList.mapM (c.keyed k) = .ok keyed :=
      mapM_bind_eq_ok.2 ⟨items, hcontents, hkeyed⟩
    exact (isSorted_of_keyed hk hkeyed hitems horder).holdsOrder
  · rename_i e herror
    obtain ⟨sorted, hsorted, h⟩ := bind_eq_ok.1 h
    obtain rfl := Except.ok.inj h
    have hperm := Canonical.insertionSort_perm hsorted
    obtain ⟨e', hfails⟩ := exists_error_of_perm herror hperm
    have hagain := Canonical.insertionSort_of_insertionSort
      (fun _ _ _ h => compareContents_swap h) hsorted
    rw [HoldsOrder, canonicalOrder, horder, withContent_congr hitems hk, withKey_congr hitems,
      compareContents_congr hitems, mapM_withContent_perm hcontents hperm, ok_bind, hfails]
    simp only [hagain, ok_bind, pure_eq]

/-! ### All sections -/

theorem holdsOrder_of_sortSection (h : c.sortSection k = .ok d) (hk : k.isSortable = true) :
    d.HoldsOrder k := by
  have hkeeps := (rearranges_sortSection h).1.items.keepsContent
  rw [sortSection, if_pos hk] at h
  obtain ⟨order, horder, h⟩ := bind_eq_ok.1 h
  refine holdsOrder_of_canonicalOrder hk horder hkeeps ?_
  cases h
  rw [sectionOf_modifySection_self]
  rfl

/-- Sorting one section leaves the others in the order in which they stand. -/
theorem HoldsOrder.sortSection {j : Kind} (hc : c.HoldsOrder k) (hk : k.isSortable = true)
    (hj : j ≠ k) (h : c.sortSection j = .ok d) : d.HoldsOrder k :=
  hc.congr (rearranges_sortSection h).1.items.keepsContent hk
    (by rw [sectionOf_sortSection_of_ne h hj.symm])

theorem holdsOrder_of_sortData (hs : c.policy.sorts = true) (h : c.sortData = .ok d)
    (hk : k.isSortable = true) : d.HoldsOrder k := by
  have hself {c d : Container} (_ : True) (h : c.sortSection k = .ok d) : d.HoldsOrder k :=
    holdsOrder_of_sortSection h hk
  exact of_sortData hk hs (fun _ _ _ => trivial) hself (fun hc => hc.sortSection hk) trivial h

end Container

end DexContainer
