import DexContainer.Content
import DexContainer.Proofs.Parallel

/-! What the two runs of the reader of an item give. All readers but that of debug information are
deaf; the two runs of that one move alike as well, and the items that they give agree but for the
marks on registers. Main statement: `Content.parallel`, which holds of the readers of all kinds. -/

namespace DexContainer

/-! ### Deaf readers -/

instance Header.deaf : Deaf decode := by
  rw [decode]
  repeat refine Deaf.step fun _ => ?_
  dsimp only
  split
  · infer_instance
  · repeat refine Deaf.step fun _ => ?_
    split
    · infer_instance
    · repeat refine Deaf.step fun _ => ?_
      infer_instance

instance MapEntry.deaf : Deaf decode := by
  refine Deaf.step fun code => ?_
  dsimp only
  split <;> infer_instance

instance MapList.deaf : Deaf decode := by
  rw [decode]
  dsimp only
  infer_instance

instance StringData.deaf_dataOnto (failure : Fault) (limit : Nat) (read : Bytes) :
    Deaf (dataOnto failure limit read) := by
  induction limit generalizing read with
  | zero => exact Deaf.throw failure
  | succ limit ih =>
    rw [dataOnto]
    infer_instance

instance StringData.deaf : Deaf decode := by
  rw [decode]
  dsimp only
  infer_instance

instance StringId.deaf : Deaf decode := by
  rw [decode]
  infer_instance

instance TypeId.deaf : Deaf decode := by
  rw [decode]
  infer_instance

instance ProtoId.deaf : Deaf decode := by
  rw [decode]
  infer_instance

instance FieldId.deaf : Deaf decode := by
  rw [decode]
  infer_instance

instance MethodId.deaf : Deaf decode := by
  rw [decode]
  infer_instance

instance ClassDef.deaf : Deaf decode := by
  rw [decode]
  repeat refine Deaf.step fun _ => ?_
  infer_instance

instance TypeList.deaf : Deaf decode := by
  rw [decode]
  infer_instance

instance AnnotationSet.deaf : Deaf decode := by
  rw [decode]
  infer_instance

instance AnnotationSetRefList.deaf : Deaf decode := by
  rw [decode]
  infer_instance

instance AnnotationsDirectory.deaf_row (j k : Kind) : Deaf (decodeRow j k) := by
  rw [decodeRow]
  infer_instance

instance AnnotationsDirectory.deaf : Deaf decode := by
  rw [decode]
  repeat refine Deaf.step fun _ => ?_
  infer_instance

instance ClassData.deaf_fieldsOnto (count previous : Nat) (read : List EncodedField) :
    Deaf (fieldsOnto count previous read) := by
  induction count generalizing previous read with
  | zero => exact Deaf.pure read.reverse
  | succ count ih =>
    rw [fieldsOnto]
    dsimp only
    infer_instance

instance ClassData.deaf_methodsOnto (count previous : Nat) (read : List EncodedMethod) :
    Deaf (methodsOnto count previous read) := by
  induction count generalizing previous read with
  | zero => exact Deaf.pure read.reverse
  | succ count ih =>
    rw [methodsOnto]
    dsimp only
    infer_instance

instance ClassData.deaf : Deaf decode := by
  rw [decode]
  infer_instance

instance CatchHandler.deaf_catch : Deaf decodeCatch := by
  rw [decodeCatch]
  infer_instance

instance CatchHandler.deaf : Deaf decode := by
  rw [decode]
  infer_instance

instance Code.deaf_range : Deaf decodeRange := by
  rw [decodeRange]
  infer_instance

instance Code.deaf_handler (start : Nat) : Deaf (decodeHandler start) := by
  rw [decodeHandler]
  infer_instance

instance Code.deaf : Deaf decode := by
  rw [decode]
  dsimp only
  repeat refine Deaf.step fun _ => ?_
  infer_instance

instance Scalar.deaf_readUnsigned (width : Nat) : Deaf (readUnsigned width) := by
  rw [readUnsigned]
  infer_instance

instance Scalar.deaf_readSigned (width : Nat) : Deaf (readSigned width) := by
  rw [readSigned]
  infer_instance

instance Scalar.deaf (start valueType argument : Nat) : Deaf (decode start valueType argument) := by
  unfold decode
  dsimp only
  split <;> infer_instance

instance AnnotationBody.deaf_decodeWith (value : Decoder Value) [Deaf value] :
    Deaf (decodeWith value) := by
  rw [decodeWith]
  infer_instance

instance Value.deaf_decodeAll (value : Decoder Value) [Deaf value] : Deaf (decodeAll value) := by
  rw [decodeAll]
  infer_instance

instance Value.deaf_decodeWithin (levels : Nat) : Deaf (decodeWithin levels) := by
  induction levels with
  | zero =>
    rw [decodeWithin]
    infer_instance
  | succ levels ih =>
    refine Deaf.step fun start => ?_
    refine Deaf.step fun lead => ?_
    split <;> infer_instance

instance Value.deaf : Deaf decode := Value.deaf_decodeWithin maxLevels

instance AnnotationBody.deaf : Deaf decode := AnnotationBody.deaf_decodeWith Value.decode

instance AnnotationItem.deaf : Deaf decode := by
  rw [decode]
  infer_instance

instance EncodedArray.deaf : Deaf decode := by
  rw [decode]
  infer_instance

/-! ### Debug information -/

/-- The register without the mark of the signed form. -/
def Register.unmarked (r : Register) : Register := { r with isSigned := false }

theorem Register.parallel : Parallel unmarked decode decode :=
  Deaf.bind_parallel fun _ => Parallel.keepsSigned.bind fun _ => .pure _

instance DebugOp.deaf_reference (k : Kind) : Deaf (decodeReference k) := by
  rw [decodeReference]
  infer_instance

/-- The step without marks on its registers. -/
def DebugOp.unmarked : DebugOp → DebugOp
  | .startLocal register name type => .startLocal register.unmarked name type
  | .startLocalExtended register name type signature =>
    .startLocalExtended register.unmarked name type signature
  | .endLocal register => .endLocal register.unmarked
  | .restartLocal register => .restartLocal register.unmarked
  | x => x

theorem DebugOp.parallel (opcode : UInt8) :
    Parallel unmarked (decode opcode) (decode opcode) := by
  unfold decode
  split
  · exact Deaf.bind_parallel fun n => .pure (advancePc (UInt32.ofNat n))
  · exact Deaf.bind_parallel fun n => .pure (advanceLine (Int32.ofInt n))
  · refine Register.parallel.bind fun register => ?_
    refine Deaf.bind_parallel fun name => Deaf.bind_parallel fun type => ?_
    exact .pure (startLocal register name type)
  · refine Register.parallel.bind fun register => Deaf.bind_parallel fun name => ?_
    refine Deaf.bind_parallel fun type => Deaf.bind_parallel fun signature => ?_
    exact .pure (startLocalExtended register name type signature)
  · exact Register.parallel.bind fun register => .pure (endLocal register)
  · exact Register.parallel.bind fun register => .pure (restartLocal register)
  · exact .pure setPrologueEnd
  · exact .pure setEpilogueBegin
  · exact Deaf.bind_parallel fun name => .pure (setFile name)
  · exact .pure (special opcode)

namespace DebugInfo

/-- The item without marks on its registers. -/
def unmarked (x : DebugInfo) : DebugInfo := { x with ops := x.ops.map DebugOp.unmarked }

theorem parallel_opsOnto (limit : Nat) (read : List DebugOp) :
    Parallel (List.map DebugOp.unmarked) (opsOnto limit read)
      (opsOnto limit (read.map DebugOp.unmarked)) := by
  induction limit generalizing read with
  | zero => exact Deaf.bind_parallel fun _ => .throw _
  | succ limit ih =>
    refine Deaf.bind_parallel fun opcode => ?_
    split
    · rw [← List.map_reverse]
      exact .pure read.reverse
    · exact (DebugOp.parallel opcode).bind fun op => ih (op :: read)

theorem parallel : Parallel unmarked decode decode := by
  refine Deaf.bind_parallel fun lineStart => Deaf.bind_parallel fun nameCount => ?_
  refine Deaf.bind_parallel fun parameterNames => Deaf.bind_parallel fun limit => ?_
  exact (parallel_opsOnto limit []).bind fun ops =>
    .pure (mk (UInt32.ofNat lineStart) parameterNames ops)

end DebugInfo

/-- The readers of all kinds but one are deaf. -/
theorem Content.deaf {k : Kind} (hk : k ≠ .debugInfo) : Deaf (decode k) := by
  cases k with
  | debugInfo => exact absurd rfl hk
  | header => exact Header.deaf
  | stringId => exact StringId.deaf
  | typeId => exact TypeId.deaf
  | protoId => exact ProtoId.deaf
  | fieldId => exact FieldId.deaf
  | methodId => exact MethodId.deaf
  | classDef => exact ClassDef.deaf
  | mapList => exact MapList.deaf
  | typeList => exact TypeList.deaf
  | annotationSetRefList => exact AnnotationSetRefList.deaf
  | annotationSet => exact AnnotationSet.deaf
  | classData => exact ClassData.deaf
  | code => exact Code.deaf
  | stringData => exact StringData.deaf
  | annotationItem => exact AnnotationItem.deaf
  | encodedArray => exact EncodedArray.deaf
  | annotationsDirectory => exact AnnotationsDirectory.deaf

end DexContainer
