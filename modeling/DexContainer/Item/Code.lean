import DexContainer.Decoding.Source
import DexContainer.Item.Places

/-! Method bodies: code units, which are carried over as they are, guarded ranges and catch
handlers. In the file a guarded range names its handler by the offset of the handler within the
list of handlers; here it names it by number. A body without guarded ranges has no list of
handlers in the file. -/

namespace DexContainer

/-- A range of code units whose exceptions are caught. -/
structure GuardedRange where
  start : UInt32
  length : UInt16
  /-- The number of the catch handler. -/
  handler : Nat
deriving DecidableEq, Hashable, Repr

/-- Where exceptions go: the first address whose type matches, else the catch-all. -/
structure CatchHandler where
  catches : List (Handle .typeId × UInt32)
  catchAll : Option UInt32
deriving DecidableEq, Hashable, Repr

/-- A method body. -/
structure Code where
  registers : UInt16
  ins : UInt16
  outs : UInt16
  debugInfo : Option (Handle .debugInfo)
  units : List UInt16
  ranges : List GuardedRange
  handlers : List CatchHandler
deriving DecidableEq, Hashable, Repr

namespace CatchHandler

/-- The number of typed catches, negative when a catch-all follows them. -/
def signedCount (x : CatchHandler) : Int :=
  if x.catchAll.isSome then -(x.catches.length : Int) else x.catches.length

/-- The length of a typed catch. -/
def sizeOfCatch (places : Places) (x : Handle .typeId × UInt32) : Size := do
  return Leb128.unsignedSize (← places.position x.1) + Leb128.unsignedSize x.2.toNat

/-- The length of a handler. -/
def size (places : Places) (x : CatchHandler) : Size := do
  let catches ← sizeOfAll (sizeOfCatch places) x.catches
  return Leb128.signedSize x.signedCount + catches +
    match x.catchAll with
    | none => 0
    | some address => Leb128.unsignedSize address.toNat

/-- The bytes of a typed catch. -/
def writeCatch (places : Places) (x : Handle .typeId × UInt32) : Written := do
  return Leb128.unsigned (← places.position x.1) ++ Leb128.unsigned x.2.toNat

/-- The bytes of a handler. -/
def write (places : Places) (x : CatchHandler) : Written := do
  let catches ← writeAll (writeCatch places) x.catches
  return Leb128.signed x.signedCount ++ catches ++
    match x.catchAll with
    | none => []
    | some address => Leb128.unsigned address.toNat

/-- Reads a typed catch. -/
def decodeCatch : Decoder (Handle .typeId × UInt32) := do
  let type ← Decoder.index .typeId (← Decoder.unsigned)
  return (type, UInt32.ofNat (← Decoder.unsigned))

/-- Reads a handler; a catch-all follows when the number of typed catches is not positive. -/
def decode : Decoder CatchHandler := do
  let count ← Decoder.signed
  let catches ← Decoder.times count.natAbs decodeCatch
  if 0 < count then return { catches, catchAll := none }
  else return { catches, catchAll := some (UInt32.ofNat (← Decoder.unsigned)) }

end CatchHandler

namespace Code

/-- Guarded ranges start at a multiple of four bytes. -/
def needsPadding (x : Code) : Bool := !x.ranges.isEmpty && x.units.length % 2 == 1

/-- The offsets of members of the given lengths that follow one another from `start` on. -/
def offsetsFrom (start : Nat) : List Nat → List Nat
  | [] => []
  | size :: sizes => start :: offsetsFrom (start + size) sizes

/-- The offset of every handler within the list of handlers. -/
def handlerOffsets (places : Places) (x : Code) : Except Violation (List Nat) := do
  return offsetsFrom (Leb128.unsignedSize x.handlers.length)
    (← x.handlers.mapM (CatchHandler.size places))

/-- The length of the body. -/
def size (places : Places) (x : Code) : Size := do
  let fixed := 16 + 2 * x.units.length + if x.needsPadding then 2 else 0
  if x.ranges.isEmpty then return fixed
  else
    return fixed + 8 * x.ranges.length + Leb128.unsignedSize x.handlers.length +
      (← sizeOfAll (CatchHandler.size places) x.handlers)

/-- The bytes of a guarded range, given the offsets of the handlers. -/
def writeRange (offsets : List Nat) (x : GuardedRange) : Written :=
  match offsets[x.handler]? with
  | some offset => pure (Word.full x.start.toNat ++ Word.half x.length.toNat ++ Word.half offset)
  | none => throw (.noSuchHandler x.handler offsets.length)

/-- The bytes of the guarded ranges and the handlers. -/
def writeRanges (places : Places) (x : Code) : Written := do
  let offsets ← x.handlerOffsets places
  let ranges ← writeAll (writeRange offsets) x.ranges
  let handlers ← writeAll (CatchHandler.write places) x.handlers
  return (if x.needsPadding then Word.half 0 else []) ++ ranges ++
    Leb128.unsigned x.handlers.length ++ handlers

/-- The bytes of the body. -/
def write (places : Places) (x : Code) : Written := do
  let debugInfo ← places.optionalOffset x.debugInfo
  let body := Word.half x.registers.toNat ++ Word.half x.ins.toNat ++ Word.half x.outs.toNat ++
    Word.half x.ranges.length ++ Word.full debugInfo ++ Word.full x.units.length ++
    x.units.flatMap fun u => Word.half u.toNat
  if x.ranges.isEmpty then return body
  else return body ++ (← x.writeRanges places)

/-- The number of the first handler that catches nothing. -/
def emptyHandler? (x : Code) : Option Nat :=
  x.handlers.findIdx? fun h => h.catches.isEmpty && h.catchAll.isNone

/-- The first guarded range without a handler. -/
def unguarded? (x : Code) : Option GuardedRange :=
  x.ranges.find? fun r => decide (x.handlers.length ≤ r.handler)

/-- What has no encoding: a handler that catches nothing, or a guarded range without a handler. -/
def check (x : Code) : Except Violation Unit :=
  match x.emptyHandler?, x.unguarded? with
  | some index, _ => throw (.emptyHandler index)
  | none, some r => throw (.handlerOutOfRange r.start.toNat r.handler x.handlers.length)
  | none, none => pure ()

/-- The 16-bit words of a run of bytes. -/
def unitsOfBytes : Bytes → List UInt16
  | a :: b :: bs => UInt16.ofNat (Word.ofBytes [a, b]) :: unitsOfBytes bs
  | _ => []

/-- Reads a handler and tells its offset from `start`. -/
def decodeHandler (start : Nat) : Decoder (Nat × CatchHandler) := do
  let position ← Decoder.position
  return (position - start, ← CatchHandler.decode)

/-- Reads a guarded range, which names its handler by offset. -/
def decodeRange : Decoder GuardedRange := do
  let start ← Decoder.word
  let length ← Decoder.half
  let offset ← Decoder.half
  return { start := UInt32.ofNat start, length := UInt16.ofNat length, handler := offset }

/-- Replaces the offset that a guarded range names by the number of the first handler there. -/
def resolve (start : Nat) (offsets : List Nat) (r : GuardedRange) : Except Fault GuardedRange :=
  match offsets.idxOf? r.handler with
  | some number => pure { r with handler := number }
  | none => throw (.invalidValue start (.noHandlerAt r.handler))

/-- Reads a body. -/
def decode : Decoder Code := do
  let registers := UInt16.ofNat (← Decoder.half)
  let ins := UInt16.ofNat (← Decoder.half)
  let outs := UInt16.ofNat (← Decoder.half)
  let rangeCount ← Decoder.half
  let debugInfo ← Decoder.optionalOffset .debugInfo (← Decoder.word)
  let unitCount ← Decoder.word
  let units := unitsOfBytes (← Decoder.bytes (2 * unitCount))
  if rangeCount = 0 then
    return { registers, ins, outs, debugInfo, units, ranges := [], handlers := [] }
  if unitCount % 2 = 1 then
    let _ ← Decoder.half
  let raw ← Decoder.times rangeCount decodeRange
  let start ← Decoder.position
  let handlerCount ← Decoder.unsigned
  let handlers ← Decoder.times handlerCount (decodeHandler start)
  let ranges ← Decoder.ofExcept (raw.mapM (resolve start (handlers.map (·.1))))
  return { registers, ins, outs, debugInfo, units, ranges, handlers := handlers.map (·.2) }

end Code

end DexContainer
