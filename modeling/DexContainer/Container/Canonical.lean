import DexContainer.Container.Basic
import DexContainer.Text.Utf16

/-! The canonical order of the sortable sections: strings by their code units, type lists by the
descriptors of their types with a shorter list first, annotations by visibility and then by the
descriptor of their type. Sorting keeps the order of equal items. Every comparison looks at as much
of the two items as it needs; when a handle cannot be resolved, sorting fails only if a comparison
comes to it. -/

namespace DexContainer

namespace Canonical

/-- A text as the list of its code points, by which texts are ordered. -/
abbrev CodePoints := List Nat

/-- The code points of a text. -/
def codePoints (text : String) : CodePoints := text.toList.map Char.toNat

/-- What the canonical order compares: a number first, and then a list of texts. -/
structure Key where
  rank : Nat
  texts : List CodePoints
deriving DecidableEq, Repr

/-- The order of texts. -/
def compareText (a b : CodePoints) : Ordering := List.compareLex compare a b

/-- The order of keys. -/
def Key.compare (a b : Key) : Ordering :=
  (Ord.compare a.rank b.rank).then (List.compareLex compareText a.texts b.texts)

/-- Compares two lists from the front; an entry is computed when the comparison comes to it, and
that of the first list before that of the second. -/
def compareLists (entry : α → Except ε CodePoints) : List α → List α → Except ε Ordering
  | [], [] => pure .eq
  | [], b :: _ => do let _ ← entry b; return .lt
  | a :: _, [] => do let _ ← entry a; return .gt
  | a :: as, b :: bs => do
    match compareText (← entry a) (← entry b) with
    | .eq => compareLists entry as bs
    | o => return o

/-- Moves an item back past the items, nearest first, that it is less than. -/
def insertBack (compare : α → α → Except ε Ordering) (x : α) : List α → Except ε (List α)
  | [] => pure [x]
  | y :: ys => do
    match ← compare x y with
    | .lt => return y :: (← insertBack compare x ys)
    | _ => return x :: y :: ys

/-- Sorts by insertion, keeping the order of equal items. -/
def insertionSort (compare : α → α → Except ε Ordering) (xs : List α) : Except ε (List α) := do
  return (← xs.foldlM (fun sorted x => insertBack compare x sorted) []).reverse

end Canonical

namespace Container

/-- The descriptor of a type, as it is compared. -/
def descriptorKey (c : Container) (h : Handle .typeId) : Except Violation Canonical.CodePoints :=
  Canonical.codePoints <$> c.descriptor h

/-- The key of an item in the canonical order; items of other kinds are all equal. -/
def canonicalKey (c : Container) : (k : Kind) → Content k → Except Violation Canonical.Key
  | .stringData, x => pure ⟨0, [StringData.units x]⟩
  | .typeList, x => do return ⟨0, ← (TypeList.types x).mapM c.descriptorKey⟩
  | .annotationItem, x => do
    return ⟨(AnnotationItem.visibility x).toNat,
      [← c.descriptorKey (AnnotationBody.type (AnnotationItem.body x))]⟩
  | _, _ => pure ⟨0, []⟩

/-- Compares two items in the canonical order. -/
def compareContents (c : Container) :
    (k : Kind) → Content k → Content k → Except Violation Ordering
  | .stringData, x, y => pure (Utf16.compareUnits (StringData.units x) (StringData.units y))
  | .typeList, x, y =>
    Canonical.compareLists c.descriptorKey (TypeList.types x) (TypeList.types y)
  | .annotationItem, x, y => do
    match compare (AnnotationItem.visibility x) (AnnotationItem.visibility y) with
    | .eq =>
      let a ← c.descriptorKey (AnnotationBody.type (AnnotationItem.body x))
      let b ← c.descriptorKey (AnnotationBody.type (AnnotationItem.body y))
      return Canonical.compareText a b
    | o => return o
  | _, _, _ => pure .eq

/-- A handle with its item. -/
def withContent (c : Container) (k : Kind) (id : Nat) : Except Violation (Nat × Content k) := do
  return (id, ← c.get ⟨id⟩)

/-- A handle with the key of its item. -/
def withKey (c : Container) (k : Kind) (x : Nat × Content k) :
    Except Violation (Nat × Canonical.Key) := do
  return (x.1, ← c.canonicalKey k x.2)

/-- The handles of a section in canonical order. When every key can be computed the handles are
sorted by their keys, else by comparing the items themselves. -/
def canonicalOrder (c : Container) (k : Kind) : Except Violation (List Nat) := do
  let items ← (c.sectionOf k).order.toList.mapM (c.withContent k)
  match items.mapM (c.withKey k) with
  | .ok keyed =>
    return (keyed.mergeSort fun a b => (Canonical.Key.compare a.2 b.2).isLE).map (·.1)
  | .error _ =>
    return (← Canonical.insertionSort (fun a b => c.compareContents k a.2 b.2) items).map (·.1)

end Container

end DexContainer
