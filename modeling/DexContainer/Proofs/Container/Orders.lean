import DexContainer.Proofs.ClassOrder
import DexContainer.Proofs.Container.Stacked

/-! What reordering keeps. Main statements: the dependency order of the class definitions and the
canonical order of a data section list the same items as before, so both only rearrange the
container. -/

namespace DexContainer

variable {α ε : Type}

/-! ### Orders are permutations -/

namespace ClassOrder

theorem getElem_cons_eraseIdx_perm {xs : List α} {i : Nat} (hi : i < xs.length) :
    (xs[i] :: xs.eraseIdx i).Perm xs := by
  have hsplit : xs = xs.take i ++ xs[i] :: xs.drop (i + 1) := by
    rw [← List.drop_eq_getElem_cons hi, List.take_append_drop]
  rw [List.eraseIdx_eq_take_drop_succ]
  conv => rhs; rw [hsplit]
  exact List.perm_middle.symm

theorem emit_perm (emitted : Std.HashSet Nat) (limit : Nat) (waiting : List Node) :
    (emit emitted limit waiting).Perm (waiting.map (·.id)) := by
  induction limit generalizing emitted waiting with
  | zero => exact .refl _
  | succ limit ih =>
    rw [emit]
    split
    · exact .refl _
    · rename_i i _
      split
      · exact .refl _
      · rename_i n hn
        obtain ⟨hi, rfl⟩ := List.getElem?_eq_some_iff.1 hn
        have hperm := (getElem_cons_eraseIdx_perm hi).map (·.id)
        exact ((ih _ _).cons _).trans hperm

end ClassOrder

namespace Canonical

theorem insertBack_perm {compare : α → α → Except ε Ordering} {x : α} {xs ys : List α}
    (h : insertBack compare x xs = .ok ys) : ys.Perm (x :: xs) := by
  induction xs generalizing ys with
  | nil =>
    cases h
    exact .refl _
  | cons y xs ih =>
    rw [insertBack] at h
    obtain ⟨o, -, h⟩ := bind_eq_ok.1 h
    split at h
    · obtain ⟨zs, hzs, h⟩ := bind_eq_ok.1 h
      cases h
      exact ((ih hzs).cons y).trans (.swap x y xs)
    · cases h
      exact .refl _

theorem insertionSort_perm {compare : α → α → Except ε Ordering} {xs ys : List α}
    (h : insertionSort compare xs = .ok ys) : ys.Perm xs := by
  have hfold (xs sorted zs : List α)
      (h : xs.foldlM (fun sorted x => insertBack compare x sorted) sorted = .ok zs) :
      zs.Perm (xs ++ sorted) := by
    induction xs generalizing sorted with
    | nil =>
      cases h
      exact .refl _
    | cons x xs ih =>
      rw [List.foldlM_cons] at h
      obtain ⟨next, hnext, h⟩ := bind_eq_ok.1 h
      have hperm := (ih next h).trans ((insertBack_perm hnext).append_left xs)
      exact hperm.trans List.perm_middle
  obtain ⟨zs, hzs, h⟩ := bind_eq_ok.1 h
  cases h
  exact (List.reverse_perm zs).trans (by simpa using hfold xs [] zs hzs)

end Canonical

namespace Container

variable {c d : Container} {k : Kind}

/-- A step that keeps the number of every member keeps the list of numbers. -/
theorem map_fst_of_mapM {β γ : Type} {f : α → Except ε β} {p : α → γ} {q : β → γ}
    {xs : List α} {ys : List β} (h : xs.mapM f = .ok ys)
    (hf : ∀ x y, f x = .ok y → q y = p x) : ys.map q = xs.map p := by
  replace h := mapM_eq_ok.1 h
  induction h with
  | nil => rfl
  | cons hx _ ih => rw [List.map_cons, List.map_cons, hf _ _ hx, ih]

theorem id_of_classNode {definers : Std.HashMap (Handle .typeId) Nat} {id : Nat}
    {n : ClassOrder.Node} (h : c.classNode definers id = .ok n) : n.id = id := by
  simp only [classNode, bind_eq_ok, pure_eq_ok] at h
  obtain ⟨_, -, _, -, rfl⟩ := h
  rfl

/-- The dependency order, without a queue. -/
theorem dependencyOrder_eq (c : Container) : c.dependencyOrder = do
    let ids := (c.sectionOf .classDef).order.toList
    let nodes ← ids.mapM (c.classNode (c.definers ids))
    return ClassOrder.emit {} nodes.length nodes := by
  cases hnodes : (c.sectionOf .classDef).order.toList.mapM
      (c.classNode (c.definers (c.sectionOf .classDef).order.toList)) with
  | error e => simp only [dependencyOrder, hnodes]; rfl
  | ok nodes =>
  simp only [dependencyOrder, hnodes, ok_bind]
  refine congrArg Except.ok (ClassOrder.arrange_eq fun n hn m hm hid => ?_)
  obtain ⟨i, -, hi⟩ := exists_of_mem_mapM hnodes hn
  obtain ⟨j, -, hj⟩ := exists_of_mem_mapM hnodes hm
  obtain rfl : i = j := by rw [← id_of_classNode hi, ← id_of_classNode hj, hid]
  exact Except.ok.inj (hi.symm.trans hj)

theorem dependencyOrder_perm {order : List Nat} (h : c.dependencyOrder = .ok order) :
    order.Perm (c.sectionOf .classDef).order.toList := by
  rw [dependencyOrder_eq] at h
  obtain ⟨nodes, hnodes, h⟩ := bind_eq_ok.1 h
  cases h
  have hids := map_fst_of_mapM (p := id) hnodes fun _ _ h => id_of_classNode h
  rw [List.map_id] at hids
  rw [← hids]
  exact ClassOrder.emit_perm _ _ _

theorem canonicalOrder_perm {order : List Nat} (h : c.canonicalOrder k = .ok order) :
    order.Perm (c.sectionOf k).order.toList := by
  obtain ⟨items, hitems, h⟩ := bind_eq_ok.1 h
  have hids := map_fst_of_mapM (p := id) (q := Prod.fst) hitems fun id x hx => by
    simp only [withContent, bind_eq_ok, pure_eq_ok] at hx
    obtain ⟨_, -, rfl⟩ := hx
    rfl
  rw [List.map_id] at hids
  rw [← hids]
  split at h
  · rename_i keyed hkeyed
    cases h
    have hkeys := map_fst_of_mapM (q := Prod.fst) hkeyed
      fun x y hy => by
        simp only [withKey, bind_eq_ok, pure_eq_ok] at hy
        obtain ⟨_, -, rfl⟩ := hy
        rfl
    rw [← hkeys]
    exact (List.mergeSort_perm keyed _).map _
  · obtain ⟨sorted, hsorted, h⟩ := bind_eq_ok.1 h
    cases h
    exact (Canonical.insertionSort_perm hsorted).map _

/-! ### Reordering -/

theorem rearranges_reorder {order : List Nat} (h : order.Perm (c.sectionOf k).order.toList) :
    c.Rearranges (c.modifySection k (·.reorder order.toArray)) :=
  rearranges_modifySection rfl rfl h fun hs => hs.reorder h

theorem rearranges_orderClasses (h : c.orderClasses = .ok d) :
    c.Rearranges d ∧ ∀ k, k ≠ .classDef → d.sectionOf k = c.sectionOf k := by
  rw [orderClasses] at h
  split at h
  · obtain ⟨order, horder, h⟩ := bind_eq_ok.1 h
    cases h
    exact ⟨rearranges_reorder (dependencyOrder_perm horder),
      fun k hk => sectionOf_modifySection_of_ne c _ hk⟩
  · cases h
    exact ⟨.refl c, fun _ _ => rfl⟩

theorem rearranges_sortSection (h : c.sortSection k = .ok d) :
    c.Rearranges d ∧ ∀ j, j.isSortable = false → d.sectionOf j = c.sectionOf j := by
  rw [sortSection] at h
  split at h
  · rename_i hk
    obtain ⟨order, horder, h⟩ := bind_eq_ok.1 h
    cases h
    refine ⟨rearranges_reorder (canonicalOrder_perm horder), fun j hj => ?_⟩
    refine sectionOf_modifySection_of_ne c _ fun hjk => ?_
    rw [hjk, hk] at hj
    cases hj
  · cases h
    exact ⟨.refl c, fun _ _ => rfl⟩

theorem rearranges_sortData (h : c.sortData = .ok d) :
    c.Rearranges d ∧ ∀ k, k.isSortable = false → d.sectionOf k = c.sectionOf k := by
  rw [sortData] at h
  split at h
  · rename_i hsorts
    clear hsorts
    revert h
    generalize Kind.dataOrder = ks
    intro h
    induction ks generalizing c with
    | nil =>
      cases h
      exact ⟨.refl d, fun _ _ => rfl⟩
    | cons k ks ih =>
      rw [List.foldlM_cons] at h
      obtain ⟨e, he, h⟩ := bind_eq_ok.1 h
      obtain ⟨hce, hframe⟩ := rearranges_sortSection he
      obtain ⟨hed, hframe'⟩ := ih h
      exact ⟨hce.trans hed, fun j hj => (hframe' j hj).trans (hframe j hj)⟩
  · cases h
    exact ⟨.refl c, fun _ _ => rfl⟩

end Container

end DexContainer
