import DexContainer.Kind
import DexContainer.Text.Hexadecimal

/-! The ways in which a caller can break the conditions of an operation: a container is asked for
an item that it does not hold, given content that has no encoding, or written before it is laid
out. Nothing that is read from an image is a violation; that is a `Fault`. -/

namespace DexContainer

/-- Where a container stands between reading, layout and writing. -/
inductive Stage
  /-- Freshly made or decoded. -/
  | constructed
  /-- Content or policy changed since the last layout. -/
  | mutated
  | placed
  | written
  /-- The bytes written last carry their checksum and signature. -/
  | finalized
deriving DecidableEq, Repr, Inhabited

namespace Stage

def name : Stage → String
  | .constructed => "Constructed"
  | .mutated => "Mutated"
  | .placed => "Placed"
  | .written => "Written"
  | .finalized => "Finalized"

/-- Every item holds a valid position. -/
def isPlaced : Stage → Bool
  | .placed | .written | .finalized => true
  | .constructed | .mutated => false

end Stage

/-- A condition of an operation that its caller broke. -/
inductive Violation
  /-- No item of the section has this number. -/
  | unresolved (kind : Kind) (id : Nat)
  /-- The item has no position yet. -/
  | unplaced (kind : Kind) (id : Nat)
  /-- The header and the map are never added. -/
  | singleton (kind : Kind)
  /-- The catch handler with this number catches nothing. -/
  | emptyHandler (index : Nat)
  /-- A guarded range names a catch handler that its code item does not have. -/
  | handlerOutOfRange (address handler count : Nat)
  /-- A guarded range names no catch handler, found while its code item is written. -/
  | noSuchHandler (handler count : Nat)
  /-- The container is written before it is laid out. -/
  | notPlaced (stage : Stage)
  /-- The code offsets still move after all rounds of layout. -/
  | unsettled (rounds : Nat)
deriving DecidableEq, Repr

namespace Violation

/-- The text of a violation. -/
def message : Violation → String
  | .unresolved kind id => s!"no {kind.name} has the handle {id}"
  | .unplaced kind id =>
    s!"{kind.name} Handle#{id} has no position; place() must run before writing"
  | .singleton kind => s!"{kind.name} is a singleton and cannot be interned"
  | .emptyHandler index => s!"catch handler {index} has neither typed catches nor a catch-all"
  | .handlerOutOfRange address handler count =>
    s!"try block at {Hexadecimal.marked address} refers to handler {handler} of {count}"
  | .noSuchHandler handler count => s!"no catch handler {handler} of {count}"
  | .notPlaced stage => s!"DexFile::write_to called before place() (state {stage.name})"
  | .unsettled rounds => s!"code offsets did not settle after {rounds} placement rounds"

end Violation

end DexContainer
