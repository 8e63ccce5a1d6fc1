import DexContainer.Item.Scalar

/-! Encoded values: scalars, arrays of values and annotations, whose elements are named values. A
reader accepts a value whose parts lie at most 128 levels below it, a writer takes any. -/

namespace DexContainer

mutual

/-- A value. -/
inductive Value
  | scalar (value : Scalar)
  | array (values : List Value)
  | annotated (body : AnnotationBody)
deriving Hashable, Repr

/-- A type and a value for each of some names. -/
structure AnnotationBody where
  type : Handle .typeId
  elements : List (Handle .stringId × Value)
deriving Hashable, Repr

end

/-! ### Equality -/

mutual

/-- Whether two values are equal. -/
def Value.decEq : (v w : Value) → Decidable (v = w)
  | .scalar a, .scalar b => decidable_of_iff (a = b) (by simp)
  | .array vs, .array ws =>
    have := Value.decEqAll vs ws
    decidable_of_iff (vs = ws) (by simp)
  | .annotated a, .annotated b =>
    have := AnnotationBody.decEq a b
    decidable_of_iff (a = b) (by simp)
  | .scalar _, .array _ => isFalse (by simp)
  | .scalar _, .annotated _ => isFalse (by simp)
  | .array _, .scalar _ => isFalse (by simp)
  | .array _, .annotated _ => isFalse (by simp)
  | .annotated _, .scalar _ => isFalse (by simp)
  | .annotated _, .array _ => isFalse (by simp)

/-- Whether two lists of values are equal. -/
def Value.decEqAll : (vs ws : List Value) → Decidable (vs = ws)
  | [], [] => isTrue rfl
  | [], _ :: _ => isFalse (by simp)
  | _ :: _, [] => isFalse (by simp)
  | v :: vs, w :: ws =>
    have := Value.decEq v w
    have := Value.decEqAll vs ws
    decidable_of_iff (v = w ∧ vs = ws) (by simp)

/-- Whether two annotation bodies are equal. -/
def AnnotationBody.decEq : (a b : AnnotationBody) → Decidable (a = b)
  | ⟨s, es⟩, ⟨t, fs⟩ =>
    have := Value.decEqElements es fs
    decidable_of_iff (s = t ∧ es = fs) (by simp)

/-- Whether two lists of elements are equal. -/
def Value.decEqElements : (es fs : List (Handle .stringId × Value)) → Decidable (es = fs)
  | [], [] => isTrue rfl
  | [], _ :: _ => isFalse (by simp)
  | _ :: _, [] => isFalse (by simp)
  | (m, v) :: es, (n, w) :: fs =>
    have := Value.decEq v w
    have := Value.decEqElements es fs
    decidable_of_iff (m = n ∧ v = w ∧ es = fs) (by simp [and_assoc])

end

instance : DecidableEq Value := Value.decEq

instance : DecidableEq AnnotationBody := AnnotationBody.decEq

/-! ### Writing -/

mutual

/-- The bytes of a value. -/
def Value.write (places : Places) : Value → Written
  | .scalar v => v.write places
  | .array vs => do
    return Scalar.leadByte 0x1c 0 :: Leb128.unsigned vs.length ++ (← Value.writeAll places vs)
  | .annotated a => do return Scalar.leadByte 0x1d 0 :: (← AnnotationBody.write places a)

/-- The bytes of some values, one after the other. -/
def Value.writeAll (places : Places) : List Value → Written
  | [] => pure []
  | v :: vs => do
    let first ← Value.write places v
    return first ++ (← Value.writeAll places vs)

/-- The bytes of an annotation body. -/
def AnnotationBody.write (places : Places) : AnnotationBody → Written
  | ⟨type, es⟩ => do
    let index ← places.position type
    return Leb128.unsigned index ++ Leb128.unsigned es.length ++ (← Value.writeElements places es)

/-- The bytes of some elements, one after the other. -/
def Value.writeElements (places : Places) : List (Handle .stringId × Value) → Written
  | [] => pure []
  | (name, v) :: es => do
    let index ← places.position name
    let first ← Value.write places v
    return Leb128.unsigned index ++ first ++ (← Value.writeElements places es)

end

mutual

/-- The length of a value. -/
def Value.size (places : Places) : Value → Size
  | .scalar v => v.size places
  | .array vs => do return 1 + (Leb128.unsignedSize vs.length + (← Value.sizeAll places vs))
  | .annotated a => do return 1 + (← AnnotationBody.size places a)

/-- The length of some values together. -/
def Value.sizeAll (places : Places) : List Value → Size
  | [] => pure 0
  | v :: vs => do
    let first ← Value.size places v
    return first + (← Value.sizeAll places vs)

/-- The length of an annotation body; the elements are measured before the type is looked up. -/
def AnnotationBody.size (places : Places) : AnnotationBody → Size
  | ⟨type, es⟩ => do
    let elements ← Value.sizeElements places es
    return Leb128.unsignedSize (← places.position type) + Leb128.unsignedSize es.length + elements

/-- The length of some elements together. -/
def Value.sizeElements (places : Places) : List (Handle .stringId × Value) → Size
  | [] => pure 0
  | (name, v) :: es => do
    let index ← places.position name
    let first ← Value.size places v
    return Leb128.unsignedSize index + first + (← Value.sizeElements places es)

end

/-! ### Reading -/

/-- Reads an annotation body, given how its values are read. -/
def AnnotationBody.decodeWith (value : Decoder Value) : Decoder AnnotationBody := do
  let type ← Decoder.index .typeId (← Decoder.unsigned)
  let count ← Decoder.unsigned
  let elements ← Decoder.times count do
    let name ← Decoder.index .stringId (← Decoder.unsigned)
    return (name, ← value)
  return { type, elements }

namespace Value

/-- The number of levels of a value that a reader accepts, the value's own among them. -/
def maxLevels : Nat := 129

/-- Reads an array, given how its values are read. -/
def decodeAll (value : Decoder Value) : Decoder (List Value) := do
  Decoder.times (← Decoder.unsigned) value

/-- Reads a value of at most this many levels. -/
def decodeWithin : (levels : Nat) → Decoder Value
  | 0 => do throw (.invalidValue (← Decoder.position) .nestedTooDeeply)
  | levels + 1 => do
    let start ← Decoder.position
    let lead ← Decoder.byte
    match lead.toNat % 32 with
    | 0x1c => return .array (← decodeAll (decodeWithin levels))
    | 0x1d => return .annotated (← AnnotationBody.decodeWith (decodeWithin levels))
    | valueType => return .scalar (← Scalar.decode start valueType (lead.toNat / 32))

/-- Reads a value. -/
def decode : Decoder Value := decodeWithin maxLevels

end Value

/-- Reads an annotation body. -/
def AnnotationBody.decode : Decoder AnnotationBody := AnnotationBody.decodeWith Value.decode

/-- The initial values of the static fields of a class. -/
structure EncodedArray where
  values : List Value
deriving DecidableEq, Hashable, Repr

namespace EncodedArray

/-- The length of the array. -/
def size (places : Places) (x : EncodedArray) : Size := do
  return Leb128.unsignedSize x.values.length + (← Value.sizeAll places x.values)

/-- The bytes of the array. -/
def write (places : Places) (x : EncodedArray) : Written := do
  return Leb128.unsigned x.values.length ++ (← Value.writeAll places x.values)

/-- Reads an array. -/
def decode : Decoder EncodedArray := do return ⟨← Value.decodeAll Value.decode⟩

end EncodedArray

end DexContainer
