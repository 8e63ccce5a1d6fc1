import DexContainer.Container.Canonical
import DexContainer.Container.ClassOrder

/-! Layout: every item gets its position. The header stands first, then the index tables, the data
sections and the map. The length of class data depends on the offsets of code, which stands behind
it, so the data sections are laid out in rounds until no code offset moves. -/

namespace DexContainer.Container

/-- A layout takes no more rounds than this. -/
def maxRounds : Nat := 16

/-- Lays out a section from `start` on, and tells the first offset after it. -/
def placeSection (k : Kind) (c : Container) (start : Nat) :
    Except Violation (Container × Nat) := do
  let l ← (c.sectionOf k).layout c.places start
  return (c.modifySection k (·.applyLayout l), l.next)

/-- Lays out sections one after the other. -/
def placeSections (ks : List Kind) (c : Container) (start : Nat) :
    Except Violation (Container × Nat) :=
  ks.foldlM (fun (c, start) k => placeSection k c start) (c, start)

/-- Puts the class definitions into dependency order, unless the policy keeps their order. -/
def orderClasses (c : Container) : Except Violation Container := do
  if c.policy.reordersClasses then
    let order ← c.dependencyOrder
    return c.modifySection .classDef (·.reorder order.toArray)
  else return c

/-- Puts a sortable section into canonical order. -/
def sortSection (c : Container) (k : Kind) : Except Violation Container := do
  if k.isSortable then
    let order ← c.canonicalOrder k
    return c.modifySection k (·.reorder order.toArray)
  else return c

/-- Puts the sortable data sections into canonical order, if the policy says so. -/
def sortData (c : Container) : Except Violation Container :=
  if c.policy.sorts then Kind.dataOrder.foldlM sortSection c else pure c

/-- The offsets of code in file order. -/
def codeOffsets (c : Container) : List (Option Nat) := (c.sectionOf .code).positionsInOrder

/-- Lays out all data sections once. -/
def placeData (c : Container) (start : Nat) : Except Violation (Container × Nat) :=
  placeSections Kind.dataOrder c start

/-- Lays out all data sections until a round moves no code. -/
def settle (start : Nat) : (rounds : Nat) → Container → Except Violation (Container × Nat)
  | 0, _ => throw (.unsettled maxRounds)
  | rounds + 1, c => do
    let (d, next) ← placeData c start
    if d.codeOffsets = c.codeOffsets then return (d, next) else settle start rounds d

/-- The row of a section. -/
def mapEntryOf (c : Container) (k : Kind) : MapEntry :=
  let s := c.sectionOf k
  ⟨k, s.size, s.offset?.getD 0, s.byteSize⟩

/-- The rows of the map that stands at `mapOffset`: one for every section that holds an item, in
the order of the offsets. -/
def mapEntries (c : Container) (mapOffset : Nat) : List MapEntry :=
  let kinds := Kind.readOrder.filter fun k => k ≠ .mapList && (c.sectionOf k).size ≠ 0
  let rows := kinds.map c.mapEntryOf
  let row : MapEntry := ⟨.mapList, 1, mapOffset, 4 + MapEntry.length * (rows.length + 1)⟩
  (rows ++ [row]).mergeSort fun a b => a.offset ≤ b.offset

/-- Writes what layout determines into the header. -/
def stampHeader (c : Container) (dataOffset mapOffset fileSize : Nat) : Container :=
  let header := { c.header with
    dataOffset, mapOffset, fileSize, dataSize := fileSize - dataOffset }
  c.modifySection .header (·.replaceFirst header)

/-- Gives every item its position within a number of rounds, and tells the length of the file. -/
def placeWithin (rounds : Nat) (c : Container) : Except Violation (Container × Nat) := do
  let (c, tablesStart) ← placeSection .header c 0
  let c ← c.orderClasses
  let (c, dataOffset) ← placeSections Kind.tables c tablesStart
  let c ← c.sortData
  let (c, dataEnd) ← settle dataOffset rounds c
  let mapOffset := alignUp dataEnd Kind.mapList.alignment
  let map : MapList := ⟨c.mapEntries mapOffset⟩
  let c := c.modifySection .mapList (·.replaceFirst map)
  let (c, fileSize) ← placeSection .mapList c mapOffset
  return ({ c.stampHeader dataOffset mapOffset fileSize with stage := .placed }, fileSize)

/-- Gives every item its position, and tells the length of the file. -/
def place (c : Container) : Except Violation (Container × Nat) := c.placeWithin maxRounds

end DexContainer.Container
