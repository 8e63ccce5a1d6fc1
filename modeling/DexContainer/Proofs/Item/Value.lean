import DexContainer.Item.Value
import DexContainer.Proofs.Item.Scalar

/-! Encoded values as they are written and read. A value is a tree, and what holds of it follows
from what holds of its parts; the lists of values and of elements are measured and written like
any other list. -/

namespace DexContainer

variable {places places' : Places} {ρ : Renaming} {keeps : Bool} {p : Nat} {bs : Bytes}

/-! ### Handles -/

mutual

/-- The handles of a value. -/
def Value.handles : Value → List AnyHandle
  | .scalar v => v.handles
  | .array vs => Value.handlesAll vs
  | .annotated a => AnnotationBody.handles a

/-- The handles of some values. -/
def Value.handlesAll : List Value → List AnyHandle
  | [] => []
  | v :: vs => Value.handles v ++ Value.handlesAll vs

/-- The handles of an annotation body. -/
def AnnotationBody.handles : AnnotationBody → List AnyHandle
  | ⟨type, es⟩ => type.any :: Value.handlesElements es

/-- The handles of some elements. -/
def Value.handlesElements : List (Handle .stringId × Value) → List AnyHandle
  | [] => []
  | (name, v) :: es => name.any :: Value.handles v ++ Value.handlesElements es

end

mutual

/-- The value with its handles renamed. -/
def Value.rename (ρ : Renaming) : Value → Value
  | .scalar v => .scalar (v.rename ρ)
  | .array vs => .array (Value.renameAll ρ vs)
  | .annotated a => .annotated (AnnotationBody.rename ρ a)

/-- Some values with their handles renamed. -/
def Value.renameAll (ρ : Renaming) : List Value → List Value
  | [] => []
  | v :: vs => Value.rename ρ v :: Value.renameAll ρ vs

/-- The annotation body with its handles renamed. -/
def AnnotationBody.rename (ρ : Renaming) : AnnotationBody → AnnotationBody
  | ⟨type, es⟩ => ⟨ρ _ type, Value.renameElements ρ es⟩

/-- Some elements with their handles renamed. -/
def Value.renameElements (ρ : Renaming) :
    List (Handle .stringId × Value) → List (Handle .stringId × Value)
  | [] => []
  | (name, v) :: es => (ρ _ name, Value.rename ρ v) :: Value.renameElements ρ es

end

mutual

/-- The number of levels of a value, its own among them. -/
def Value.levels : Value → Nat
  | .scalar _ => 1
  | .array vs => 1 + Value.levelsAll vs
  | .annotated a => 1 + AnnotationBody.levels a

/-- The number of levels of the deepest of some values. -/
def Value.levelsAll : List Value → Nat
  | [] => 0
  | v :: vs => max (Value.levels v) (Value.levelsAll vs)

/-- The number of levels of the deepest value of an annotation body. -/
def AnnotationBody.levels : AnnotationBody → Nat
  | ⟨_, es⟩ => Value.levelsElements es

/-- The number of levels of the deepest of some elements. -/
def Value.levelsElements : List (Handle .stringId × Value) → Nat
  | [] => 0
  | (_, v) :: es => max (Value.levels v) (Value.levelsElements es)

end

/-- The bytes of an element. -/
def Value.writeElement (places : Places) (e : Handle .stringId × Value) : Written := do
  let index ← places.position e.1
  return Leb128.unsigned index ++ (← e.2.write places)

/-- The length of an element. -/
def Value.sizeElement (places : Places) (e : Handle .stringId × Value) : Size := do
  let index ← places.position e.1
  return Leb128.unsignedSize index + (← e.2.size places)

/-! ### Lists of values and of elements -/

theorem Value.handlesAll_eq (vs : List Value) :
    Value.handlesAll vs = vs.flatMap Value.handles := by
  induction vs with
  | nil => rfl
  | cons v vs ih => exact congrArg (v.handles ++ ·) ih

theorem Value.handlesElements_eq (es : List (Handle .stringId × Value)) :
    Value.handlesElements es = es.flatMap fun e => e.1.any :: e.2.handles := by
  induction es with
  | nil => rfl
  | cons e es ih =>
    obtain ⟨name, v⟩ := e
    exact congrArg (name.any :: v.handles ++ ·) ih

theorem Value.renameAll_eq (ρ : Renaming) (vs : List Value) :
    Value.renameAll ρ vs = vs.map (Value.rename ρ) := by
  induction vs with
  | nil => rfl
  | cons v vs ih => exact congrArg (v.rename ρ :: ·) ih

theorem Value.renameElements_eq (ρ : Renaming) (es : List (Handle .stringId × Value)) :
    Value.renameElements ρ es = es.map fun e => (ρ _ e.1, e.2.rename ρ) := by
  induction es with
  | nil => rfl
  | cons e es ih =>
    obtain ⟨name, v⟩ := e
    exact congrArg ((ρ _ name, v.rename ρ) :: ·) ih

theorem Value.writeAll_eq (places : Places) (vs : List Value) :
    Value.writeAll places vs = DexContainer.writeAll (Value.write places) vs := by
  induction vs with
  | nil => rfl
  | cons v vs ih =>
    rw [writeAll_cons, ← ih]
    rfl

theorem Value.sizeAll_eq (places : Places) (vs : List Value) :
    Value.sizeAll places vs = sizeOfAll (Value.size places) vs := by
  induction vs with
  | nil => rfl
  | cons v vs ih =>
    rw [sizeOfAll_cons, ← ih]
    rfl

theorem Value.writeElements_eq (places : Places) (es : List (Handle .stringId × Value)) :
    Value.writeElements places es = DexContainer.writeAll (Value.writeElement places) es := by
  induction es with
  | nil => rfl
  | cons e es ih =>
    obtain ⟨name, v⟩ := e
    rw [writeAll_cons, ← ih, writeElement]
    simp only [bind_assoc, pure_bind]
    rfl

theorem Value.sizeElements_eq (places : Places) (es : List (Handle .stringId × Value)) :
    Value.sizeElements places es = sizeOfAll (Value.sizeElement places) es := by
  induction es with
  | nil => rfl
  | cons e es ih =>
    obtain ⟨name, v⟩ := e
    rw [sizeOfAll_cons, ← ih, sizeElement]
    simp only [bind_assoc, pure_bind]
    rfl

/-! ### Values of each form -/

namespace Value

theorem handles_scalar (x : Scalar) : (scalar x).handles = x.handles := rfl

theorem handles_array (vs : List Value) : (array vs).handles = vs.flatMap handles :=
  handlesAll_eq vs

theorem handles_annotated (a : AnnotationBody) : (annotated a).handles = a.handles := rfl

theorem rename_scalar (ρ : Renaming) (x : Scalar) :
    (scalar x).rename ρ = .scalar (x.rename ρ) := rfl

theorem rename_array (ρ : Renaming) (vs : List Value) :
    (array vs).rename ρ = .array (vs.map (rename ρ)) :=
  congrArg array (renameAll_eq ρ vs)

theorem rename_annotated (ρ : Renaming) (a : AnnotationBody) :
    (annotated a).rename ρ = .annotated (a.rename ρ) := rfl

theorem levels_scalar (x : Scalar) : (scalar x).levels = 1 := rfl

theorem levels_array (vs : List Value) : (array vs).levels = 1 + levelsAll vs := rfl

theorem levels_annotated (a : AnnotationBody) : (annotated a).levels = 1 + a.levels := rfl

theorem write_scalar (places : Places) (x : Scalar) :
    (scalar x).write places = x.write places := rfl

theorem write_array (places : Places) (vs : List Value) : (array vs).write places = do
    return Scalar.leadByte 0x1c 0 :: Leb128.unsigned vs.length ++
      (← DexContainer.writeAll (write places) vs) := by
  rw [← writeAll_eq]
  rfl

theorem write_annotated (places : Places) (a : AnnotationBody) : (annotated a).write places = do
    return Scalar.leadByte 0x1d 0 :: (← a.write places) := rfl

theorem size_scalar (places : Places) (x : Scalar) : (scalar x).size places = x.size places := rfl

theorem size_array (places : Places) (vs : List Value) : (array vs).size places = do
    return 1 + (Leb128.unsignedSize vs.length + (← sizeOfAll (size places) vs)) := by
  rw [← sizeAll_eq]
  rfl

theorem size_annotated (places : Places) (a : AnnotationBody) : (annotated a).size places = do
    return 1 + (← a.size places) := rfl

end Value

namespace AnnotationBody

theorem handles_eq (a : AnnotationBody) :
    a.handles = a.type.any :: a.elements.flatMap fun e => e.1.any :: e.2.handles := by
  obtain ⟨type, es⟩ := a
  exact congrArg (type.any :: ·) (Value.handlesElements_eq es)

theorem rename_eq (ρ : Renaming) (a : AnnotationBody) :
    a.rename ρ = ⟨ρ _ a.type, a.elements.map fun e => (ρ _ e.1, e.2.rename ρ)⟩ := by
  obtain ⟨type, es⟩ := a
  exact congrArg (mk (ρ _ type)) (Value.renameElements_eq ρ es)

theorem write_eq (places : Places) (a : AnnotationBody) : a.write places = do
    let index ← places.position a.type
    return Leb128.unsigned index ++ Leb128.unsigned a.elements.length ++
      (← DexContainer.writeAll (Value.writeElement places) a.elements) := by
  obtain ⟨type, es⟩ := a
  rw [← Value.writeElements_eq]
  rfl

theorem size_eq (places : Places) (a : AnnotationBody) : a.size places = do
    let elements ← sizeOfAll (Value.sizeElement places) a.elements
    return Leb128.unsignedSize (← places.position a.type) +
      Leb128.unsignedSize a.elements.length + elements := by
  obtain ⟨type, es⟩ := a
  rw [← Value.sizeElements_eq]
  rfl

end AnnotationBody

/-! ### Levels -/

theorem Value.levelsAll_le_iff {vs : List Value} {n : Nat} :
    Value.levelsAll vs ≤ n ↔ ∀ v ∈ vs, v.levels ≤ n := by
  induction vs with
  | nil => exact iff_of_true (Nat.zero_le n) fun _ hv => absurd hv List.not_mem_nil
  | cons v vs ih =>
    rw [List.forall_mem_cons, ← ih]
    exact Nat.max_le

theorem Value.levelsElements_le_iff {es : List (Handle .stringId × Value)} {n : Nat} :
    Value.levelsElements es ≤ n ↔ ∀ e ∈ es, e.2.levels ≤ n := by
  induction es with
  | nil => exact iff_of_true (Nat.zero_le n) fun _ he => absurd he List.not_mem_nil
  | cons e es ih =>
    rw [List.forall_mem_cons, ← ih]
    exact Nat.max_le

theorem AnnotationBody.levels_le_iff {a : AnnotationBody} {n : Nat} :
    a.levels ≤ n ↔ ∀ e ∈ a.elements, e.2.levels ≤ n := by
  obtain ⟨type, es⟩ := a
  exact Value.levelsElements_le_iff

/-! ### Induction -/

section Induction

variable {P : Value → Prop}

mutual

theorem Value.holds (scalar : ∀ x, P (.scalar x)) (array : ∀ vs, (∀ v ∈ vs, P v) → P (.array vs))
    (annotated : ∀ a : AnnotationBody, (∀ e ∈ a.elements, P e.2) → P (.annotated a)) :
    (v : Value) → P v
  | .scalar x => scalar x
  | .array vs => array vs (Value.holdsAll scalar array annotated vs)
  | .annotated ⟨type, es⟩ =>
    annotated ⟨type, es⟩ (Value.holdsElements scalar array annotated es)

theorem Value.holdsAll (scalar : ∀ x, P (.scalar x))
    (array : ∀ vs, (∀ v ∈ vs, P v) → P (.array vs))
    (annotated : ∀ a : AnnotationBody, (∀ e ∈ a.elements, P e.2) → P (.annotated a)) :
    (vs : List Value) → ∀ v ∈ vs, P v
  | [] => fun _ hv => absurd hv (by simp)
  | v :: vs => fun w hw => by
    rcases List.mem_cons.1 hw with h | hw
    · rw [h]
      exact Value.holds scalar array annotated v
    · exact Value.holdsAll scalar array annotated vs w hw

theorem Value.holdsElements (scalar : ∀ x, P (.scalar x))
    (array : ∀ vs, (∀ v ∈ vs, P v) → P (.array vs))
    (annotated : ∀ a : AnnotationBody, (∀ e ∈ a.elements, P e.2) → P (.annotated a)) :
    (es : List (Handle .stringId × Value)) → ∀ e ∈ es, P e.2
  | [] => fun _ he => absurd he (by simp)
  | (name, v) :: es => fun e he => by
    rcases List.mem_cons.1 he with h | he
    · rw [h]
      exact Value.holds scalar array annotated v
    · exact Value.holdsElements scalar array annotated es e he

end

/-- A property of scalars that arrays and annotations inherit from their parts holds of every
value. -/
@[elab_as_elim]
theorem Value.form_induction {P : Value → Prop} (v : Value) (scalar : ∀ x, P (.scalar x))
    (array : ∀ vs, (∀ v ∈ vs, P v) → P (.array vs))
    (annotated : ∀ a : AnnotationBody, (∀ e ∈ a.elements, P e.2) → P (.annotated a)) : P v :=
  Value.holds scalar array annotated v

end Induction

end DexContainer
