import DexContainer.Section

/-! What the operations on a section do to its items, its index and its positions. Main
statements: adding an item gives it the next handle and leaves the others alone; reordering,
forgetting a layout and taking one over change no item and no index. -/

namespace DexContainer.Section

variable {k : Kind}

/-! ### Adding -/

@[simp] theorem size_push (s : Section k) (x : Content k) : (s.push x).size = s.size + 1 := by
  cases s
  simp [push, size]

@[simp] theorem size_append (s : Section k) (x : Content k) : (s.append x).size = s.size + 1 := by
  cases s
  simp [append, size]

theorem items_append (s : Section k) (x : Content k) : (s.append x).items = s.items.push x := by
  cases s
  rfl

theorem get?_append (s : Section k) (x : Content k) (h : Handle k) :
    (s.append x).get? h = if h.id = s.size then some x else s.get? h := by
  cases s
  exact Array.getElem?_push

theorem get?_append_of_get? {s : Section k} {h : Handle k} {y : Content k} (x : Content k)
    (hy : s.get? h = some y) : (s.append x).get? h = some y := by
  have hs : h.id ≠ s.size := by
    have := Array.getElem?_eq_some_iff.1 hy
    exact Nat.ne_of_lt this.1
  rw [get?_append, if_neg hs, hy]

theorem find?_append (s : Section k) (x y : Content k) :
    (s.append x).find? y = if x = y then some ⟨s.size⟩ else s.find? y := by
  cases s
  simp only [append, find?, Std.HashMap.getElem?_insert, beq_iff_eq]
  split <;> rfl

theorem position?_append (s : Section k) (x : Content k) (h : Handle k)
    (hs : s.positions.size = s.items.size) : (s.append x).position? h = s.position? h := by
  cases s
  simp only [append, position?, Array.getElem?_push]
  split
  · rename_i hid
    simp [hid]
  · rfl

/-! ### Order and layout -/

@[simp] theorem size_reorder (s : Section k) (order : Array Nat) :
    (s.reorder order).size = s.size := rfl

@[simp] theorem get?_reorder (s : Section k) (order : Array Nat) (h : Handle k) :
    (s.reorder order).get? h = s.get? h := rfl

@[simp] theorem find?_reorder (s : Section k) (order : Array Nat) (x : Content k) :
    (s.reorder order).find? x = s.find? x := rfl

@[simp] theorem size_invalidate (s : Section k) : s.invalidate.size = s.size := rfl

@[simp] theorem get?_invalidate (s : Section k) (h : Handle k) :
    s.invalidate.get? h = s.get? h := rfl

@[simp] theorem find?_invalidate (s : Section k) (x : Content k) :
    s.invalidate.find? x = s.find? x := rfl

theorem position?_eq_some_iff {s : Section k} {h : Handle k} {n : Nat} :
    s.position? h = some n ↔ s.positions[h.id]? = some (some n) := by
  rw [position?]
  cases s.positions[h.id]? <;> simp

@[simp] theorem position?_invalidate (s : Section k) (h : Handle k) :
    s.invalidate.position? h = none := by
  simp only [invalidate, position?, Array.getElem?_map]
  cases s.positions[h.id]? <;> rfl

@[simp] theorem size_applyLayout (s : Section k) (l : Layout) : (s.applyLayout l).size = s.size :=
  rfl

@[simp] theorem get?_applyLayout (s : Section k) (l : Layout) (h : Handle k) :
    (s.applyLayout l).get? h = s.get? h := rfl

@[simp] theorem find?_applyLayout (s : Section k) (l : Layout) (x : Content k) :
    (s.applyLayout l).find? x = s.find? x := rfl

end DexContainer.Section
