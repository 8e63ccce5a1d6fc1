import DexContainer.Kind
import DexContainer.Fault
import Std.Data.HashMap

/-! What a decoder remembers of the references that it has met. An index reference names its item
by itself, so only the highest index of each kind is kept. An offset reference is given a slot of
its kind, the next free one when the offset is new; the item found at the offset later takes that
slot. After the sections are decoded every slot must have its item and every index its entry. -/

namespace DexContainer

/-- The references met so far. -/
structure References where
  /-- The slot given to an offset. -/
  slots : Std.HashMap (Kind × Nat) Nat := {}
  /-- The offset that a slot stands for. -/
  offsets : Std.HashMap (Kind × Nat) Nat := {}
  /-- The number of slots given out. -/
  counts : Std.HashMap Kind Nat := {}
  /-- The highest index met. -/
  highest : Std.HashMap Kind Nat := {}

namespace References

/-- The number of slots of a kind. -/
def slotCount (r : References) (k : Kind) : Nat := r.counts.getD k 0

/-- The offset of a slot. -/
def slotOffset (r : References) (k : Kind) (slot : Nat) : Nat := r.offsets.getD (k, slot) 0

/-- The slot of an offset, a new one when the offset has none. -/
def reserve : References → Kind → Nat → Nat × References
  | ⟨slots, offsets, counts, highest⟩, k, offset =>
    match slots[(k, offset)]? with
    | some slot => (slot, ⟨slots, offsets, counts, highest⟩)
    | none =>
      let slot := counts.getD k 0
      (slot,
        ⟨slots.insert (k, offset) slot, offsets.insert (k, slot) offset,
          counts.insert k (slot + 1), highest⟩)

/-- Remembers an index. -/
def note : References → Kind → Nat → References
  | ⟨slots, offsets, counts, highest⟩, k, index =>
    ⟨slots, offsets, counts, highest.insert k (max index (highest.getD k index))⟩

/-- Every index met lies in a section of `count` items. -/
def checkIndices (r : References) (k : Kind) (count : Nat) : Except Fault Unit :=
  match r.highest[k]? with
  | some index => if count ≤ index then throw (.danglingIndex k index count) else pure ()
  | none => pure ()

/-- Every slot given out belongs to a section of `count` items. -/
def checkOffsets (r : References) (k : Kind) (count : Nat) : Except Fault Unit :=
  if count < r.slotCount k then throw (.danglingOffset k (r.slotOffset k count)) else pure ()

end References

end DexContainer
