import DexContainer.Content
import Std.Data.HashMap

/-! A section holds the items of one kind. Handles number the items in the order in which they
were added, and the order in which the items stand in the file is kept apart from it, so that
reordering a section leaves every handle valid. Positions are known after reading and after
layout. An index from content to handle finds an item that is already there. -/

namespace DexContainer

/-- The items of a kind. -/
structure Section (k : Kind) where
  /-- The items by handle. -/
  items : Array (Content k) := #[]
  /-- The handles in file order. -/
  order : Array Nat := #[]
  /-- The positions by handle. -/
  positions : Array (Option Nat) := #[]
  /-- The least handle of every content that was added or read. -/
  index : Std.HashMap (Content k) Nat := {}
  /-- The offset of the first item, absent while there is none. -/
  offset? : Option Nat := none
  /-- The bytes from the first item to the end of the last. -/
  byteSize : Nat := 0

namespace Section

variable {k : Kind}

/-- The number of items. -/
def size (s : Section k) : Nat := s.items.size

/-- The item behind a handle. -/
def get? (s : Section k) (h : Handle k) : Option (Content k) := s.items[h.id]?

/-- The item behind a handle that must have one. -/
def get (s : Section k) (h : Handle k) : Except Violation (Content k) :=
  match s.get? h with
  | some x => pure x
  | none => throw (.unresolved k h.id)

/-- The handle of a content. -/
def find? (s : Section k) (x : Content k) : Option (Handle k) := s.index[x]?.map Handle.mk

/-- The position of an item. -/
def position? (s : Section k) (h : Handle k) : Option Nat := s.positions[h.id]?.getD none

/-- The handles in file order. -/
def handles (s : Section k) : List (Handle k) := s.order.toList.map Handle.mk

/-- The positions in file order. -/
def positionsInOrder (s : Section k) : List (Option Nat) := s.handles.map s.position?

/-- Adds an item and tells nothing to the index. -/
def push : Section k → Content k → Section k
  | ⟨items, order, positions, index, offset?, byteSize⟩, x =>
    let id := items.size
    ⟨items.push x, order.push id, positions.push none, index, offset?, byteSize⟩

/-- Adds an item whose content is new. -/
def append : Section k → Content k → Section k
  | ⟨items, order, positions, index, offset?, byteSize⟩, x =>
    let id := items.size
    ⟨items.push x, order.push id, positions.push none, index.insert x id, offset?, byteSize⟩

/-- Replaces the item of a singleton. -/
def replaceFirst (s : Section k) (x : Content k) : Section k :=
  { s with items := s.items.setIfInBounds 0 x }

/-- Replaces the file order. -/
def reorder (s : Section k) (order : Array Nat) : Section k := { s with order := order }

/-- Forgets the layout. -/
def invalidate (s : Section k) : Section k :=
  { s with positions := s.positions.map fun _ => none, offset? := none, byteSize := 0 }

/-! ### Reading -/

/-- An item of a data section as it is read: its slot, its offset and what it holds. -/
structure Found (k : Kind) where
  slot : Nat
  offset : Nat
  content : Content k

/-- Reads the next item of a data section, which takes the slot of its offset. -/
def decodeFound (k : Kind) : Decoder (Found k) := do
  Decoder.align k.alignment
  let offset ← Decoder.position
  let content ← Content.decode k
  let h ← Decoder.offset k offset
  return { slot := h.id, offset, content }

/-- The items by slot. -/
def bySlot (count : Nat) (found : List (Found k)) : Array (Option (Found k)) :=
  found.foldl (fun slots x => slots.setIfInBounds x.slot (some x)) (Array.replicate count none)

/-- Every slot must have its item. -/
def requireAll (references : References) (slots : Array (Option (Found k))) :
    Except Fault (List (Found k)) :=
  slots.toList.zipIdx.mapM fun (x, slot) =>
    match x with
    | some x => pure x
    | none => throw (.danglingOffset k (references.slotOffset k slot))

/-- The index of some items: the first of equal contents counts. -/
def indexOf (items : Array (Content k)) : Std.HashMap (Content k) Nat :=
  (items.foldl (fun (index, id) x => (index.insertIfNew x id, id + 1)) ({}, 0)).1

/-- Reads an indexed section: the number of an item is its handle and its position. -/
def decodeIndexed (k : Kind) (count : Nat) : Decoder (Section k) := do
  let start ← Decoder.position
  let items := (← Decoder.times count (Content.decode k)).toArray
  let finish ← Decoder.position
  return {
    items, order := Array.range count, positions := (Array.range count).map some,
    index := indexOf items, offset? := if count = 0 then none else some start,
    byteSize := if count = 0 then 0 else finish - start }

/-- Reads a data section: the slot of an item is its handle and its offset is its position. -/
def decodeData (k : Kind) (count : Nat) : Decoder (Section k) := do
  let found ← Decoder.times count (decodeFound k)
  let finish ← Decoder.position
  let references ← Decoder.references
  let slots := bySlot (references.slotCount k) found
  let placed := (← Decoder.ofExcept (requireAll references slots)).toArray
  let items := placed.map (·.content)
  return {
    items, order := (found.map (·.slot)).toArray, positions := placed.map fun x => some x.offset,
    index := indexOf items, offset? := found.head?.map (·.offset),
    byteSize :=
      match found.head? with
      | none => 0
      | some x => finish - x.offset }

/-- Reads `count` items from the position on. -/
def decode (k : Kind) (count : Nat) : Decoder (Section k) :=
  if k.isIndexed then decodeIndexed k count else decodeData k count

/-! ### Layout -/

/-- Where the items of a section are to stand. -/
structure Layout where
  offset? : Option Nat
  /-- The positions in file order. -/
  positions : Array Nat
  /-- The first offset after the section. -/
  next : Nat
  byteSize : Nat

/-- Places one more item after the `positions` placed before it, from `cursor` on. -/
def placeItem (places : Places) (s : Section k) (placed : Nat × Array Nat) (id : Nat) :
    Except Violation (Nat × Array Nat) := do
  let (cursor, positions) := placed
  let start := alignUp cursor k.alignment
  let size ← Content.size places k (← s.get ⟨id⟩)
  return (start + size, positions.push (if k.isIndexed then positions.size else start))

/-- Places the items one after the other from `start` on. -/
def layout (places : Places) (start : Nat) (s : Section k) : Except Violation Layout := do
  if s.order.isEmpty then
    return { offset? := none, positions := #[], next := start, byteSize := 0 }
  let base := alignUp start k.alignment
  let (next, positions) ← s.order.foldlM (placeItem places s) (base, #[])
  return { offset? := some base, positions, next, byteSize := next - base }

/-- Takes over a layout. -/
def applyLayout (s : Section k) (l : Layout) : Section k :=
  let cleared := Array.replicate s.positions.size none
  { s with
    positions := (s.order.zip l.positions).foldl
      (fun positions (id, position) => positions.setIfInBounds id (some position)) cleared
    offset? := l.offset?
    byteSize := l.byteSize }

/-! ### Writing -/

/-- Adds zeros up to the next aligned offset. -/
def pad (alignment : Nat) (out : Array UInt8) : Array UInt8 :=
  out ++ Array.replicate (padding out.size alignment) 0

/-- Writes one more item. -/
def writeItem (places : Places) (s : Section k) (out : Array UInt8) (id : Nat) :
    Except Violation (Array UInt8) := do
  return pad k.alignment out ++ (← Content.write places k (← s.get ⟨id⟩))

/-- Writes the items one after the other. -/
def write (places : Places) (s : Section k) (out : Array UInt8) :
    Except Violation (Array UInt8) :=
  s.order.foldlM (writeItem places s) out

end Section

end DexContainer
