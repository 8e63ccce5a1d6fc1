import DexContainer.Decoding.Source
import DexContainer.Item.Places
import DexContainer.Text.ModifiedUtf8

/-! The contents of strings. The bytes are kept as they are read, so that an odd but accepted
encoding survives; the length is the number of code units, which a reader checks. -/

namespace DexContainer

/-- The contents of a string. -/
structure StringData where
  /-- The number of UTF-16 code units. -/
  utf16Length : Nat
  /-- The bytes, without the zero byte that ends them. -/
  data : Bytes
deriving DecidableEq, Hashable, Repr

namespace StringData

/-- The contents of a text. -/
def ofText (text : String) : StringData :=
  let us := Utf16.units text
  ⟨us.length, ModifiedUtf8.encode us⟩

/-- The code units of the string. -/
def units (x : StringData) : List Nat := ModifiedUtf8.units x.data

/-- The text of the string. -/
def text (x : StringData) : String := Utf16.lossy x.units

/-- The length of the string in the file. -/
def size (x : StringData) : Nat := Leb128.unsignedSize x.utf16Length + x.data.length + 1

/-- The bytes of the string in the file. -/
def write (x : StringData) : Bytes := Leb128.unsigned x.utf16Length ++ x.data ++ [0]

/-- Adds the bytes before the next zero byte to those read before, which stand in reverse. At most
`limit` bytes are looked at, which is no restriction when no more are left. -/
def dataOnto (failure : Fault) : (limit : Nat) → Bytes → Decoder Bytes
  | 0, _ => throw failure
  | limit + 1, read => do
    let b ← Decoder.byte
    if b = 0 then return read.reverse
    else dataOnto failure limit (b :: read)

/-- Reads a string and checks its length. -/
def decode : Decoder StringData := do
  let start ← Decoder.position
  let utf16Length ← Decoder.unsigned
  let data ← dataOnto (.invalidValue start .unterminatedString) (← Decoder.remaining) []
  let x : StringData := ⟨utf16Length, data⟩
  if x.units.length ≠ utf16Length then
    throw (.invalidValue start (.stringLength utf16Length x.units.length))
  return x

theorem units_ofText (text : String) : (ofText text).units = Utf16.units text :=
  ModifiedUtf8.units_encode fun _ => Utf16.lt_of_mem_units

theorem text_ofText (text : String) : (ofText text).text = text := by
  rw [StringData.text, units_ofText, Utf16.lossy_units]

end StringData

end DexContainer
