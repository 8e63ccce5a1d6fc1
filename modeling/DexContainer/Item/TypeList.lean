import DexContainer.Decoding.Source
import DexContainer.Item.Places

/-! Lists of types: the parameters of a prototype or the interfaces of a class. The entries are
16-bit indices. -/

namespace DexContainer

/-- A list of types. -/
structure TypeList where
  types : List (Handle .typeId)
deriving DecidableEq, Hashable, Repr

namespace TypeList

/-- The length of the list, without the padding that may follow. -/
def size (x : TypeList) : Nat := 4 + 2 * x.types.length

/-- The bytes of the list. -/
def write (places : Places) (x : TypeList) : Written := do
  return Word.full x.types.length ++
    (← writeAll (fun t => do return Word.half (← places.position t)) x.types)

/-- Reads a list. -/
def decode : Decoder TypeList := do
  let count ← Decoder.word
  return ⟨← Decoder.times count (do Decoder.index .typeId (← Decoder.half))⟩

end TypeList

end DexContainer
