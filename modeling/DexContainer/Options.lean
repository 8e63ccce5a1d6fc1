import DexContainer.Fault
import DexContainer.Toml.Document

/-! Options: what reading checks and keeps, and how layout orders the sections. They can be given
as a text with one truth value for each. -/

namespace DexContainer

/-- How layout orders the sections. -/
structure Policy where
  /-- The sortable data sections take their canonical order. -/
  sortAllItems : Bool := false
  /-- Every section keeps the order that it has; this wins over sorting. -/
  inPlace : Bool := false
deriving DecidableEq, Repr

namespace Policy

/-- Layout sorts the sortable data sections. -/
def sorts (p : Policy) : Bool := p.sortAllItems && !p.inPlace

/-- Layout puts the class definitions behind what they depend on. -/
def reordersClasses (p : Policy) : Bool := !p.inPlace

end Policy

/-- What a caller chooses for reading and layout. -/
structure Options where
  /-- Registers that were read in the signed form are written in that form. -/
  preserveSignedRegisters : Bool := true
  sortAllItems : Bool := false
  inPlace : Bool := false
  /-- The checksum and the signature are checked before anything is decoded. -/
  verifyIntegrity : Bool := false
deriving DecidableEq, Repr

namespace Options

/-- The part of the options that layout follows. -/
def policy (o : Options) : Policy := ⟨o.sortAllItems, o.inPlace⟩

/-- The truth value of a key, which keeps its default when the key is missing. -/
def booleanOf (t : Toml.Table) (key : String) (default : Bool) : Except Fault Bool :=
  match t.find? key with
  | none => pure default
  | some (.value (.boolean b)) => pure b
  | some _ => throw .configuration

/-- The options that a text gives. Other keys are allowed and have no meaning. -/
def ofText (text : String) : Except Fault Options := do
  match Toml.parse text with
  | none => throw .configuration
  | some t =>
    let default : Options := {}
    return {
      preserveSignedRegisters :=
        ← booleanOf t "preserve_signed_registers" default.preserveSignedRegisters
      sortAllItems := ← booleanOf t "sort_all_items" default.sortAllItems
      inPlace := ← booleanOf t "in_place" default.inPlace
      verifyIntegrity := ← booleanOf t "verify_integrity" default.verifyIntegrity }

end Options

end DexContainer
