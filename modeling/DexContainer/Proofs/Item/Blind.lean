import Mathlib.Data.List.Perm.Basic
import DexContainer.Proofs.Blind
import DexContainer.Proofs.Content

/-! No reader of an item looks at the references that were met before it: what it reads depends on
them only through the handles that stand for its numbers. Main statement: `Content.blind`, which
holds of the readers of all kinds. -/

namespace DexContainer

variable {α : Type} {k : Kind}

/-! ### The header, the directory and strings -/

namespace Header

theorem not_isDangling_of_checkMagic {magic : Bytes} {e : Fault}
    (h : checkMagic magic = .error e) : ¬e.IsDangling := by
  rw [checkMagic] at h
  split at h
  · cases h
    exact id
  · split at h
    · cases h
    · cases h
      exact id

theorem blind : Blind (fun _ => decode) IsConstant := by
  refine (Blind.vector 8).bind fun magic => ?_
  refine (Blind.ofExcept fun _ => not_isDangling_of_checkMagic).bind fun _ => ?_
  refine Blind.word.bind fun checksum => ?_
  refine (Blind.vector 20).bind fun signature => ?_
  refine Blind.word.bind fun fileSize => ?_
  refine Blind.word.bind fun headerSize => ?_
  dsimp only
  split
  · exact Blind.throw_bind id
  refine Blind.word.bind fun tag => ?_
  split
  · exact Blind.throw_bind id
  refine Blind.word.bind fun linkSize => ?_
  refine Blind.word.bind fun linkOffset => ?_
  refine Blind.word.bind fun mapOffset => ?_
  refine (Blind.bytes _).bind fun _ => ?_
  refine Blind.word.bind fun dataSize => ?_
  exact Blind.word.bind fun dataOffset => Blind.constant _

end Header

namespace MapList

theorem blind_row : Blind (fun _ => MapEntry.decode) IsConstant := by
  refine Blind.half.bind fun code => ?_
  have hrow (kind : Kind) : Blind (fun _ => do
      let _ ← Decoder.half
      let count ← Decoder.word
      let offset ← Decoder.word
      return ({ kind, count, offset } : MapEntry)) IsConstant := by
    refine Blind.half.bind fun _ => ?_
    refine Blind.word.bind fun count => ?_
    exact Blind.word.bind fun offset => Blind.constant _
  dsimp only
  split
  · exact hrow _
  · exact Blind.throw_bind id

theorem blind : Blind (fun _ => decode) IsConstant := by
  refine Blind.word.bind fun count => ?_
  refine Blind.remaining.bind fun n => ?_
  have hrows : Blind (fun _ => MapList.mk <$> Decoder.times count MapEntry.decode) IsConstant := by
    simp only [map_eq_pure_bind]
    exact (Blind.times_constant blind_row count).bind fun _ => Blind.constant _
  dsimp only
  split
  · exact Blind.position.bind fun _ => Blind.throw_bind id
  · exact hrows

end MapList

namespace StringData

theorem blind_dataOnto {failure : Fault} (h : ¬failure.IsDangling) (limit : Nat) (read : Bytes) :
    Blind (fun _ => dataOnto failure limit read) IsConstant := by
  induction limit generalizing read with
  | zero => exact Blind.throw h
  | succ limit ih =>
    refine Blind.byte.bind fun b => ?_
    split
    · exact Blind.constant _
    · exact ih (b :: read)

theorem blind : Blind (fun _ => decode) IsConstant := by
  refine Blind.position.bind fun start => ?_
  refine Blind.unsigned.bind fun length => ?_
  refine Blind.remaining.bind fun limit => ?_
  refine (blind_dataOnto id limit []).bind fun data => ?_
  dsimp only
  split
  · exact Blind.throw_bind id
  · exact Blind.constant _

end StringData

/-! ### Tables and lists of references -/

theorem StringId.blind : Blind (fun _ => decode) (IsRenamed rename handles) := by
  refine Blind.word.bind fun n => (Blind.offset rfl n).bind_renamed fun data => ?_
  exact Blind.pure ⟨⟨data⟩, fun _ => rfl, rfl⟩

theorem TypeId.blind : Blind (fun _ => decode) (IsRenamed rename handles) := by
  refine Blind.word.bind fun n => (Blind.index rfl n).bind_renamed fun descriptor => ?_
  exact Blind.pure ⟨⟨descriptor⟩, fun _ => rfl, rfl⟩

theorem ProtoId.blind : Blind (fun _ => decode) (IsRenamed rename handles) := by
  refine Blind.word.bind fun n => (Blind.index rfl n).bind_renamed fun shorty => ?_
  refine Blind.word.bind fun n => (Blind.index rfl n).bind_renamed fun returnType => ?_
  refine Blind.word.bind fun n => (Blind.optionalOffset rfl n).bind_renamed fun parameters => ?_
  exact Blind.pure ⟨⟨shorty, returnType, parameters⟩, fun _ => rfl, by simp [handles]⟩

theorem FieldId.blind : Blind (fun _ => decode) (IsRenamed rename handles) := by
  refine Blind.half.bind fun n => (Blind.index rfl n).bind_renamed fun owner => ?_
  refine Blind.half.bind fun n => (Blind.index rfl n).bind_renamed fun type => ?_
  refine Blind.word.bind fun n => (Blind.index rfl n).bind_renamed fun name => ?_
  exact Blind.pure ⟨⟨owner, type, name⟩, fun _ => rfl, rfl⟩

theorem MethodId.blind : Blind (fun _ => decode) (IsRenamed rename handles) := by
  refine Blind.half.bind fun n => (Blind.index rfl n).bind_renamed fun owner => ?_
  refine Blind.half.bind fun n => (Blind.index rfl n).bind_renamed fun proto => ?_
  refine Blind.word.bind fun n => (Blind.index rfl n).bind_renamed fun name => ?_
  exact Blind.pure ⟨⟨owner, proto, name⟩, fun _ => rfl, rfl⟩

theorem ClassDef.blind : Blind (fun _ => decode) (IsRenamed rename handles) := by
  refine Blind.word.bind fun n => (Blind.index rfl n).bind_renamed fun type => ?_
  refine Blind.word.bind fun flags => ?_
  refine Blind.word.bind fun n => (Blind.optionalIndex rfl n).bind_renamed fun superclass => ?_
  refine Blind.word.bind fun n => (Blind.optionalOffset rfl n).bind_renamed fun interfaces => ?_
  refine Blind.word.bind fun n => (Blind.optionalIndex rfl n).bind_renamed fun sourceFile => ?_
  refine Blind.word.bind fun n => (Blind.optionalOffset rfl n).bind_renamed fun annotations => ?_
  refine Blind.word.bind fun n => (Blind.optionalOffset rfl n).bind_renamed fun classData => ?_
  refine Blind.word.bind fun n => (Blind.optionalOffset rfl n).bind_renamed fun staticValues => ?_
  exact Blind.pure ⟨⟨type, UInt32.ofNat flags, superclass, interfaces, sourceFile, annotations,
    classData, staticValues⟩, fun _ => rfl, by simp [handles]⟩

theorem TypeList.blind : Blind (fun _ => decode) (IsRenamed rename handles) := by
  have htype : Blind (fun _ => do Decoder.index .typeId (← Decoder.half))
      (IsRenamed (fun ρ => ρ _) fun h => [h.any]) := Blind.half.bind fun n => Blind.index rfl n
  refine Blind.word.bind fun count => (htype.times count).bind_renamed fun types => ?_
  exact Blind.pure ⟨⟨types⟩, fun _ => rfl, by rw [List.append_nil, handles, List.map_eq_flatMap]⟩

theorem AnnotationSet.blind : Blind (fun _ => decode) (IsRenamed rename handles) := by
  have hmember : Blind (fun _ => do Decoder.offset .annotationItem (← Decoder.word))
      (IsRenamed (fun ρ => ρ _) fun h => [h.any]) := Blind.word.bind fun n => Blind.offset rfl n
  refine Blind.word.bind fun count => (hmember.times count).bind_renamed fun members => ?_
  exact Blind.pure ⟨⟨members⟩, fun _ => rfl, by rw [List.append_nil, handles, List.map_eq_flatMap]⟩

theorem AnnotationSetRefList.blind : Blind (fun _ => decode) (IsRenamed rename handles) := by
  have hset : Blind (fun _ => do Decoder.optionalOffset .annotationSet (← Decoder.word))
      (IsRenamed (fun ρ => Option.map (ρ _)) fun o => o.toList.map Handle.any) :=
    Blind.word.bind fun n => Blind.optionalOffset rfl n
  refine Blind.word.bind fun count => (hset.times count).bind_renamed fun sets => ?_
  exact Blind.pure ⟨⟨sets⟩, fun _ => rfl, List.append_nil _⟩

namespace AnnotationsDirectory

theorem blind_row {j : Kind} (hj : j.isIndexed = true) (hk : k.isIndexed = false) :
    Blind (fun _ => decodeRow j k) (IsRenamed renameRow handlesOfRow) := by
  refine Blind.word.bind fun m => (Blind.index hj m).bind_renamed fun member => ?_
  refine Blind.word.bind fun n => (Blind.offset hk n).bind_renamed fun attached => ?_
  exact Blind.pure ⟨(member, attached), fun _ => rfl, rfl⟩

theorem blind : Blind (fun _ => decode) (IsRenamed rename handles) := by
  refine Blind.word.bind fun n => (Blind.optionalOffset rfl n).bind_renamed fun onClass => ?_
  refine Blind.word.bind fun fieldCount => ?_
  refine Blind.word.bind fun methodCount => ?_
  refine Blind.word.bind fun parameterCount => ?_
  refine ((blind_row rfl rfl).times fieldCount).bind_renamed fun fields => ?_
  refine ((blind_row rfl rfl).times methodCount).bind_renamed fun methods => ?_
  refine ((blind_row rfl rfl).times parameterCount).bind_renamed fun parameters => ?_
  exact Blind.pure ⟨⟨onClass, fields, methods, parameters⟩, fun _ => rfl, by simp [handles]⟩

end AnnotationsDirectory

/-! ### Members of classes -/

namespace ClassData

/-- The member that is read next stands in front of those that were read before. -/
theorem blind_fields (count previous : Nat) (read : Renaming → List EncodedField) :
    Blind (fun ρ => fieldsOnto count previous (read ρ)) (IsRenamed
      (fun ρ fs => (read ρ).reverse ++ fs.map (EncodedField.rename ρ))
      fun fs => fs.map (·.field.any)) := by
  induction count generalizing previous read with
  | zero => exact Blind.pure ⟨[], fun _ => (List.append_nil _).symm, rfl⟩
  | succ count ih =>
    refine Blind.unsigned.bind fun difference => ?_
    refine (Blind.index rfl _).bind_renamed fun field => ?_
    refine Blind.unsigned.bind fun flags => ?_
    refine (ih _ fun ρ => ⟨ρ _ field, UInt32.ofNat flags⟩ :: read ρ).mono ?_
    rintro a _ ⟨fs, ha, rfl⟩
    refine ⟨_, .refl _, ⟨field, UInt32.ofNat flags⟩ :: fs, fun ρ => ?_, rfl⟩
    simp [ha ρ, EncodedField.rename]

/-- The handles of a method in the order in which they are met. -/
def handlesOfMethod (m : EncodedMethod) : List AnyHandle :=
  m.code.toList.map Handle.any ++ [m.method.any]

theorem blind_methods (count previous : Nat) (read : Renaming → List EncodedMethod) :
    Blind (fun ρ => methodsOnto count previous (read ρ)) (IsRenamed
      (fun ρ ms => (read ρ).reverse ++ ms.map (EncodedMethod.rename ρ))
      fun ms => ms.flatMap handlesOfMethod) := by
  induction count generalizing previous read with
  | zero => exact Blind.pure ⟨[], fun _ => (List.append_nil _).symm, rfl⟩
  | succ count ih =>
    refine Blind.unsigned.bind fun difference => ?_
    refine Blind.unsigned.bind fun flags => ?_
    refine Blind.unsigned.bind fun n => (Blind.optionalOffset rfl n).bind_renamed fun code => ?_
    refine (Blind.index rfl _).bind_renamed fun method => ?_
    refine (ih _ fun ρ => ⟨ρ _ method, UInt32.ofNat flags, code.map (ρ _)⟩ :: read ρ).mono ?_
    rintro a _ ⟨ms, ha, rfl⟩
    refine ⟨_, .refl _, ⟨method, UInt32.ofNat flags, code⟩ :: ms, fun ρ => ?_,
      (List.append_assoc ..).symm⟩
    simp [ha ρ, EncodedMethod.rename]

theorem blind : Blind (fun _ => decode) (IsRenamed rename handles) := by
  have hmethods (count : Nat) : Blind (fun _ => methodsOnto count 0 []) (IsRenamed
      (fun ρ ms => ms.map (EncodedMethod.rename ρ))
      fun ms => ms.flatMap EncodedMethod.handles) := by
    refine (blind_methods count 0 fun _ => []).mono ?_
    rintro a _ ⟨ms, ha, rfl⟩
    refine ⟨_, List.Perm.flatMap_left _ fun m _ => ?_, ms, ha, rfl⟩
    exact List.perm_append_comm
  refine Blind.unsigned.bind fun staticCount => ?_
  refine Blind.unsigned.bind fun instanceCount => ?_
  refine Blind.unsigned.bind fun directCount => ?_
  refine Blind.unsigned.bind fun virtualCount => ?_
  refine (blind_fields staticCount 0 fun _ => []).bind_renamed fun staticFields => ?_
  refine (blind_fields instanceCount 0 fun _ => []).bind_renamed fun instanceFields => ?_
  refine (hmethods directCount).bind_renamed fun directMethods => ?_
  refine (hmethods virtualCount).bind_renamed fun virtualMethods => ?_
  exact Blind.pure ⟨⟨staticFields, instanceFields, directMethods, virtualMethods⟩, fun _ => rfl,
    by simp [handles]⟩

end ClassData

/-! ### Method bodies -/

namespace CatchHandler

theorem blind : Blind (fun _ => decode) (IsRenamed rename handles) := by
  have hcatch : Blind (fun _ => decodeCatch)
      (IsRenamed (fun ρ c => (ρ _ c.1, c.2)) fun c => [c.1.any]) := by
    refine Blind.unsigned.bind fun n => (Blind.index rfl n).bind_renamed fun type => ?_
    exact Blind.unsigned.bind fun address =>
      Blind.pure ⟨(type, UInt32.ofNat address), fun _ => rfl, rfl⟩
  have hhandles (catches : List (Handle .typeId × UInt32)) (all : Option UInt32) :
      (catches.flatMap fun c => [c.1.any]) ++ [] = handles ⟨catches, all⟩ := by
    rw [List.append_nil, handles, List.map_map, List.map_eq_flatMap]
    rfl
  refine Blind.signed.bind fun count => ?_
  refine (hcatch.times count.natAbs).bind_renamed fun catches => ?_
  split
  · exact Blind.pure ⟨⟨catches, none⟩, fun _ => rfl, hhandles ..⟩
  · refine Blind.unsigned.bind fun address => ?_
    exact Blind.pure ⟨⟨catches, some (UInt32.ofNat address)⟩, fun _ => rfl, hhandles ..⟩

end CatchHandler

namespace Code

theorem not_isDangling_of_resolve {start : Nat} {offsets : List Nat} {r : GuardedRange} {e : Fault}
    (h : resolve start offsets r = .error e) : ¬e.IsDangling := by
  rw [resolve] at h
  cases hn : offsets.idxOf? r.handler with
  | none =>
    rw [hn] at h
    cases h
    exact id
  | some number =>
    rw [hn] at h
    cases h

theorem blind_decodeRange : Blind (fun _ => decodeRange) IsConstant := by
  refine Blind.word.bind fun start => ?_
  refine Blind.half.bind fun length => ?_
  exact Blind.half.bind fun offset => Blind.constant _

theorem blind_decodeHandler (start : Nat) : Blind (fun _ => decodeHandler start)
    (IsRenamed (fun ρ x => (x.1, x.2.rename ρ)) fun x => x.2.handles) := by
  refine Blind.position.bind fun position => CatchHandler.blind.bind_renamed fun x => ?_
  exact Blind.pure ⟨(position - start, x), fun _ => rfl, List.append_nil _⟩

theorem blind_lists (rangeCount : Nat) : Blind (fun _ => decodeLists rangeCount) (IsRenamed
    (fun ρ lists => (lists.1, lists.2.map (CatchHandler.rename ρ)))
    fun lists => lists.2.flatMap CatchHandler.handles) := by
  refine (Blind.times_constant blind_decodeRange rangeCount).bind fun raw => ?_
  refine Blind.position.bind fun start => ?_
  refine Blind.unsigned.bind fun count => ?_
  refine ((blind_decodeHandler start).times count).bind_renamed fun found => ?_
  simp only [List.map_map, Function.comp_def]
  refine (Blind.ofExcept fun e he => ?_).bind fun ranges => ?_
  · obtain ⟨r, -, hr⟩ := exists_of_mapM_eq_error he
    exact not_isDangling_of_resolve hr
  · exact Blind.pure ⟨(ranges, found.map (·.2)), fun ρ => by simp, by simp [List.flatMap_map]⟩

theorem blind : Blind (fun _ => decode) (IsRenamed rename handles) := by
  rw [decode_eq]
  refine Blind.half.bind fun registers => ?_
  refine Blind.half.bind fun ins => ?_
  refine Blind.half.bind fun outs => ?_
  refine Blind.half.bind fun rangeCount => ?_
  refine Blind.word.bind fun n => (Blind.optionalOffset rfl n).bind_renamed fun debugInfo => ?_
  refine Blind.word.bind fun unitCount => ?_
  refine (Blind.bytes _).bind fun units => ?_
  have hlists : Blind (fun ρ => (fun lists => Code.mk (UInt16.ofNat registers) (UInt16.ofNat ins)
      (UInt16.ofNat outs) (debugInfo.map (ρ _)) (unitsOfBytes units) lists.1 lists.2) <$>
        decodeLists rangeCount)
      fun a hs => IsRenamed rename handles a (debugInfo.toList.map Handle.any ++ hs) := by
    simp only [map_eq_pure_bind]
    refine (blind_lists rangeCount).bind_renamed fun lists => ?_
    exact Blind.pure ⟨⟨UInt16.ofNat registers, UInt16.ofNat ins, UInt16.ofNat outs, debugInfo,
      unitsOfBytes units, lists.1, lists.2⟩, fun _ => rfl, by simp [handles]⟩
  simp only [decodeGuarded]
  split
  · exact Blind.pure ⟨⟨UInt16.ofNat registers, UInt16.ofNat ins, UInt16.ofNat outs, debugInfo,
      unitsOfBytes units, [], []⟩, fun _ => rfl, rfl⟩
  · split
    · exact Blind.half.bind fun _ => hlists
    · exact hlists

end Code

/-! ### Debug information -/

theorem Register.blind : Blind (fun _ => decode) IsConstant := by
  refine Blind.unsignedWithLength.bind fun x => ?_
  exact Blind.keepsSigned.bind fun keeps => Blind.constant _

namespace DebugOp

theorem blind_reference (hk : k.isIndexed = true) : Blind (fun _ => decodeReference k)
    (IsRenamed (fun ρ => Option.map (ρ k)) fun o => o.toList.map Handle.any) :=
  Blind.plusOne.bind fun n => Blind.indexOfOption hk n

theorem blind (opcode : UInt8) : Blind (fun _ => decode opcode) (IsRenamed rename handles) := by
  unfold decode
  split
  · exact Blind.unsigned.bind fun n => Blind.pure ⟨.advancePc (UInt32.ofNat n), fun _ => rfl, rfl⟩
  · exact Blind.signed.bind fun v => Blind.pure ⟨.advanceLine (Int32.ofInt v), fun _ => rfl, rfl⟩
  · refine Register.blind.bind fun register => ?_
    refine (blind_reference rfl).bind_renamed fun name => ?_
    refine (blind_reference rfl).bind_renamed fun type => ?_
    exact Blind.pure ⟨.startLocal register name type, fun _ => rfl, by simp [handles]⟩
  · refine Register.blind.bind fun register => ?_
    refine (blind_reference rfl).bind_renamed fun name => ?_
    refine (blind_reference rfl).bind_renamed fun type => ?_
    refine (blind_reference rfl).bind_renamed fun signature => ?_
    exact Blind.pure ⟨.startLocalExtended register name type signature, fun _ => rfl,
      by simp [handles]⟩
  · exact Register.blind.bind fun register => Blind.pure ⟨.endLocal register, fun _ => rfl, rfl⟩
  · exact Register.blind.bind fun register => Blind.pure ⟨.restartLocal register, fun _ => rfl, rfl⟩
  · exact Blind.pure ⟨.setPrologueEnd, fun _ => rfl, rfl⟩
  · exact Blind.pure ⟨.setEpilogueBegin, fun _ => rfl, rfl⟩
  · refine (blind_reference rfl).bind_renamed fun name => ?_
    exact Blind.pure ⟨.setFile name, fun _ => rfl, List.append_nil _⟩
  · exact Blind.pure ⟨.special opcode, fun _ => rfl, rfl⟩

end DebugOp

namespace DebugInfo

theorem blind_ops (limit : Nat) (read : Renaming → List DebugOp) :
    Blind (fun ρ => opsOnto limit (read ρ)) (IsRenamed
      (fun ρ ops => (read ρ).reverse ++ ops.map (DebugOp.rename ρ))
      fun ops => ops.flatMap DebugOp.handles) := by
  induction limit generalizing read with
  | zero => exact Blind.position.bind fun _ => Blind.throw id
  | succ limit ih =>
    refine Blind.byte.bind fun opcode => ?_
    split
    · exact Blind.pure ⟨[], fun _ => (List.append_nil _).symm, rfl⟩
    · refine (DebugOp.blind opcode).bind_renamed fun op => ?_
      refine (ih fun ρ => op.rename ρ :: read ρ).mono ?_
      rintro a _ ⟨ops, ha, rfl⟩
      exact ⟨_, .refl _, op :: ops, fun ρ => by simp [ha ρ], rfl⟩

theorem blind : Blind (fun _ => decode) (IsRenamed rename handles) := by
  refine Blind.unsigned.bind fun lineStart => ?_
  refine Blind.unsigned.bind fun nameCount => ?_
  refine ((DebugOp.blind_reference rfl).times nameCount).bind_renamed fun names => ?_
  refine Blind.remaining.bind fun limit => ?_
  refine (blind_ops limit fun _ => []).bind_renamed fun ops => ?_
  exact Blind.pure ⟨⟨UInt32.ofNat lineStart, names, ops⟩, fun _ => rfl, by simp [handles]⟩

end DebugInfo

/-! ### Values and annotations -/

namespace Scalar

section Readers

variable {start valueType width limit : Nat}

theorem blind_unsigned (width : Nat) : Blind (fun _ => readUnsigned width) IsConstant :=
  (Blind.bytes width).bind fun _ => Blind.constant _

theorem blind_signed (width : Nat) : Blind (fun _ => readSigned width) IsConstant :=
  (Blind.bytes width).bind fun _ => Blind.constant _

theorem blind_upTo {d : Decoder α} {P : (Renaming → α) → List AnyHandle → Prop}
    (hd : Blind (fun _ => d) P) : Blind (fun _ =>
      (if limit < width then throw (.invalidValue start (.valueWidth valueType width))
        else pure ()) >>= fun _ => d) P := by
  split
  · exact Blind.throw_bind id
  · exact hd

theorem blind_plain {d : Decoder α} (g : α → Scalar) (hd : Blind (fun _ => d) IsConstant)
    (hrename : ∀ ρ x, (g x).rename ρ = g x) (hg : ∀ x, (g x).handles = []) :
    Blind (fun _ => do return g (← d)) (IsRenamed rename handles) :=
  hd.bind fun x => Blind.pure ⟨g x, fun ρ => (hrename ρ x).symm, (hg x).symm⟩

theorem blind_reference (g : Handle k → Scalar) (hk : k.isIndexed = true)
    (hrename : ∀ ρ h, (g h).rename ρ = g (ρ k h)) (hg : ∀ h, (g h).handles = [h.any]) :
    Blind (fun _ => do return g (← Decoder.index k (← readUnsigned width)))
      (IsRenamed rename handles) := by
  refine (blind_unsigned width).bind fun n => (Blind.index hk n).bind_renamed fun h => ?_
  exact Blind.pure ⟨g h, fun ρ => (hrename ρ h).symm, (hg h).symm⟩

end Readers

theorem blind (start valueType argument : Nat) :
    Blind (fun _ => decode start valueType argument) (IsRenamed rename handles) := by
  unfold decode
  split
  · exact blind_upTo (blind_plain _ (blind_signed _) (fun _ _ => rfl) fun _ => rfl)
  · exact blind_upTo (blind_plain _ (blind_signed _) (fun _ _ => rfl) fun _ => rfl)
  · exact blind_upTo (blind_plain _ (blind_unsigned _) (fun _ _ => rfl) fun _ => rfl)
  · exact blind_upTo (blind_plain _ (blind_signed _) (fun _ _ => rfl) fun _ => rfl)
  · exact blind_plain _ (blind_signed _) (fun _ _ => rfl) fun _ => rfl
  · exact blind_upTo (blind_plain _ (blind_unsigned _) (fun _ _ => rfl) fun _ => rfl)
  · exact blind_plain _ (blind_unsigned _) (fun _ _ => rfl) fun _ => rfl
  · exact blind_upTo (blind_reference .methodType rfl (fun _ _ => rfl) fun _ => rfl)
  · exact blind_upTo (blind_plain _ (blind_unsigned _) (fun _ _ => rfl) fun _ => rfl)
  · exact blind_upTo (blind_reference .string rfl (fun _ _ => rfl) fun _ => rfl)
  · exact blind_upTo (blind_reference .type rfl (fun _ _ => rfl) fun _ => rfl)
  · exact blind_upTo (blind_reference .field rfl (fun _ _ => rfl) fun _ => rfl)
  · exact blind_upTo (blind_reference .method rfl (fun _ _ => rfl) fun _ => rfl)
  · exact blind_upTo (blind_reference .enum rfl (fun _ _ => rfl) fun _ => rfl)
  · exact Blind.pure ⟨.null, fun _ => rfl, rfl⟩
  · exact blind_upTo (Blind.pure ⟨.boolean (argument == 1), fun _ => rfl, rfl⟩)
  · exact Blind.throw id

end Scalar

section Parts

variable {value : Decoder Value}

theorem AnnotationBody.blind_with
    (hvalue : Blind (fun _ => value) (IsRenamed Value.rename Value.handles)) :
    Blind (fun _ => decodeWith value) (IsRenamed rename handles) := by
  have helement : Blind (fun _ => Value.decodeElement value)
      (IsRenamed (fun ρ e => (ρ _ e.1, e.2.rename ρ)) fun e => e.1.any :: e.2.handles) := by
    refine Blind.unsigned.bind fun n => (Blind.index rfl n).bind_renamed fun name => ?_
    refine hvalue.bind_renamed fun v => ?_
    exact Blind.pure ⟨(name, v), fun _ => rfl, by simp⟩
  rw [decodeWith_eq]
  refine Blind.unsigned.bind fun n => (Blind.index rfl n).bind_renamed fun type => ?_
  refine Blind.unsigned.bind fun count => ?_
  refine (helement.times count).bind_renamed fun es => ?_
  refine Blind.pure ⟨⟨type, es⟩, fun ρ => ?_, ?_⟩
  · rw [rename_eq]
  · rw [handles_eq, List.append_nil]
    rfl

theorem Value.blind_all (hvalue : Blind (fun _ => value) (IsRenamed Value.rename Value.handles)) :
    Blind (fun _ => decodeAll value)
      (IsRenamed (fun ρ vs => vs.map (Value.rename ρ)) fun vs => vs.flatMap Value.handles) :=
  Blind.unsigned.bind fun count => hvalue.times count

end Parts

theorem Value.blind (levels : Nat) :
    Blind (fun _ => decodeWithin levels) (IsRenamed rename handles) := by
  induction levels with
  | zero => exact Blind.position.bind fun _ => Blind.throw id
  | succ levels ih =>
    rw [decodeWithin_succ]
    refine Blind.position.bind fun start => Blind.byte.bind fun lead => ?_
    simp only [decodeAfterLead]
    split
    · refine (blind_all ih).bind_renamed fun vs => ?_
      refine Blind.pure ⟨.array vs, fun ρ => ?_, ?_⟩
      · rw [rename_array]
      · rw [handles_array, List.append_nil]
    · refine (AnnotationBody.blind_with ih).bind_renamed fun a => ?_
      exact Blind.pure ⟨.annotated a, fun _ => rfl, List.append_nil _⟩
    · refine (Scalar.blind _ _ _).bind_renamed fun x => ?_
      exact Blind.pure ⟨.scalar x, fun _ => rfl, List.append_nil _⟩

theorem EncodedArray.blind : Blind (fun _ => decode) (IsRenamed rename handles) := by
  refine (Value.blind_all (Value.blind _)).bind_renamed fun vs => ?_
  exact Blind.pure ⟨⟨vs⟩, fun _ => rfl, List.append_nil _⟩

theorem AnnotationItem.blind : Blind (fun _ => decode) (IsRenamed rename handles) := by
  refine Blind.byte.bind fun visibility => ?_
  refine (AnnotationBody.blind_with (Value.blind _)).bind_renamed fun body => ?_
  exact Blind.pure ⟨⟨visibility, body⟩, fun _ => rfl, List.append_nil _⟩

/-! ### All kinds -/

/-- What the reader of an item gives depends on the references met before only through the handles
that its numbers are renamed to. -/
theorem Content.blind (k : Kind) : Blind (fun _ => decode k)
    (IsRenamed (fun ρ => rename ρ k) (handles k)) := by
  cases k with
  | header => exact Header.blind.isRenamed
  | stringId => exact StringId.blind
  | typeId => exact TypeId.blind
  | protoId => exact ProtoId.blind
  | fieldId => exact FieldId.blind
  | methodId => exact MethodId.blind
  | classDef => exact ClassDef.blind
  | mapList => exact MapList.blind.isRenamed
  | typeList => exact TypeList.blind
  | annotationSetRefList => exact AnnotationSetRefList.blind
  | annotationSet => exact AnnotationSet.blind
  | classData => exact ClassData.blind
  | code => exact Code.blind
  | stringData => exact StringData.blind.isRenamed
  | debugInfo => exact DebugInfo.blind
  | annotationItem => exact AnnotationItem.blind
  | encodedArray => exact EncodedArray.blind
  | annotationsDirectory => exact AnnotationsDirectory.blind

end DexContainer
