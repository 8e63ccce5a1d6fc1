import DexContainer.Container.Basic
import DexContainer.Stamp

/-! Reading: the header names the map, the map names the sections, and the sections are decoded in
a fixed order. An image is accepted only as a whole: every row of the map must lie within the
image, and every reference must lead to an item that was decoded. The rows of the map are checked in
the order in which the table of rows gives them back. -/

namespace DexContainer.Container

/-- A section must lie within an image of the given length: an empty one starts no later than at
the end, any other holds its fixed-width entries and starts before the end. -/
def checkBounds (k : Kind) (offset count length : Nat) : Except Fault Unit :=
  let span := k.entrySize?.getD 0 * count
  if count = 0 then
    if offset ≤ length then pure () else throw (.sectionOutOfBounds k offset length)
  else if offset < length ∧ offset + span ≤ length then pure ()
  else throw (.sectionOutOfBounds k offset length)

/-- Reads the section of a kind at an offset. -/
def decodeSection (c : Container) (k : Kind) (offset count : Nat) : Decoder Container := do
  Decoder.seek offset
  let s ← Section.decode k count
  return c.modifySection k fun _ => s

/-- Where a section is read: the header at the start, the map where the header says, and any other
where the directory says. -/
def rowOf (directory : List MapEntry) (mapOffset : Nat) : Kind → Option (Nat × Nat)
  | .header => some (0, 1)
  | .mapList => some (mapOffset, 1)
  | k => (directory.find? (·.kind == k)).map fun e => (e.offset, e.count)

/-- Reads a section that has a row. -/
def decodeRow (directory : List MapEntry) (mapOffset : Nat) (c : Container) (k : Kind) :
    Decoder Container :=
  match rowOf directory mapOffset k with
  | none => pure c
  | some (offset, count) => c.decodeSection k offset count

/-- Every reference to a kind leads to an item. -/
def checkReferences (c : Container) (references : References) (k : Kind) : Except Fault Unit := do
  references.checkIndices k (c.sectionOf k).size
  references.checkOffsets k (c.sectionOf k).size

/-- Reads a container from an image whose integrity has been checked. -/
def decode (r : RowOrder) (o : Options) : Decoder Container := do
  let length ← Decoder.remaining
  let c ← (empty o).decodeSection .header 0 1
  let mapOffset := c.header.mapOffset
  if mapOffset = 0 then throw (.missingSection .mapList)
  Decoder.ofExcept (checkBounds .mapList mapOffset 1 length)
  let c ← c.decodeSection .mapList mapOffset 1
  let directory ← Decoder.ofExcept (c.map.directory r)
  directory.forM fun e => Decoder.ofExcept (checkBounds e.kind e.offset e.count length)
  let c ← Kind.readOrder.foldlM (decodeRow directory mapOffset) c
  let references ← Decoder.references
  Kind.readOrder.forM fun k => Decoder.ofExcept (c.checkReferences references k)
  return c

/-- Reads a container. -/
def ofImage (r : RowOrder) (image : Image) (o : Options) : Except Fault Container := do
  if image.size < Header.length then throw (.bufferTooSmall image.size)
  if o.verifyIntegrity then Stamp.verify image
  match decode r o { image, keepsSigned := o.preserveSignedRegisters } with
  | .ok c _ => return c
  | .error e _ => throw e

end DexContainer.Container
