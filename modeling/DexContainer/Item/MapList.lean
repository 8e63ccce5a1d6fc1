import DexContainer.Decoding.Source
import DexContainer.Item.Places

/-! The map directory: one row for every section of the file, with the number of its items and
the offset of the first. It is the last item of a file. A reader makes a table of the rows, in which
they are looked up by kind and which gives them back in an order of its own. -/

namespace DexContainer

/-- A row of the directory. -/
structure MapEntry where
  kind : Kind
  count : Nat
  offset : Nat
  /-- The bytes that the section spans; the file does not hold this, so a row that is read has
  zero. -/
  byteSize : Nat := 0
deriving DecidableEq, Hashable, Repr

/-- The map directory. -/
structure MapList where
  entries : List MapEntry := []
deriving DecidableEq, Hashable, Repr

namespace MapEntry

/-- The length of a row. -/
def length : Nat := 12

/-- The bytes of a row. -/
def write (e : MapEntry) : Bytes :=
  Word.half e.kind.typeCode ++ Word.half 0 ++ Word.full e.count ++ Word.full e.offset

/-- Reads a row. -/
def decode : Decoder MapEntry := do
  let code ← Decoder.half
  let kind ← match Kind.ofTypeCode? code with
    | some kind => pure kind
    | none => throw (.unknownKind code)
  let _ ← Decoder.half
  let count ← Decoder.word
  let offset ← Decoder.word
  return { kind, count, offset }

end MapEntry

/-- The order in which a table gives back the rows that it was made of. It need not be the order of
the file, and every table has its own: all that is known is that each row comes once. -/
structure RowOrder where
  arrange : List MapEntry → List MapEntry
  perm (es : List MapEntry) : (arrange es).Perm es

/-- The order of the file. -/
def RowOrder.stored : RowOrder := ⟨id, fun es => .refl es⟩

/-- The order of the file from its end. -/
def RowOrder.reversed : RowOrder := ⟨List.reverse, List.reverse_perm⟩

namespace MapList

/-- The first row of a kind. -/
def entry? (m : MapList) (k : Kind) : Option MapEntry := m.entries.find? (·.kind == k)

/-- The first kind that has a second row, given the kinds of the rows before. -/
def repeated? (seen : List Kind) : List MapEntry → Option Kind
  | [] => none
  | e :: es => if e.kind ∈ seen then some e.kind else repeated? (e.kind :: seen) es

/-- The table of the rows, when no kind has two. -/
def directory (r : RowOrder) (m : MapList) : Except Fault (List MapEntry) :=
  match repeated? [] m.entries with
  | some k => throw (.duplicateMapEntry k)
  | none => pure (r.arrange m.entries)

/-- The length of the directory. -/
def size (m : MapList) : Nat := 4 + MapEntry.length * m.entries.length

/-- The bytes of the directory. -/
def write (m : MapList) : Bytes := Word.full m.entries.length ++ m.entries.flatMap MapEntry.write

/-- Reads a directory whose announced rows fit into what is left of the image. -/
def decode : Decoder MapList := do
  let count ← Decoder.word
  if (← Decoder.remaining) / MapEntry.length < count then
    throw (.unexpectedEnd (← Decoder.position) (count * MapEntry.length))
  return ⟨← Decoder.times count MapEntry.decode⟩

end MapList

end DexContainer
