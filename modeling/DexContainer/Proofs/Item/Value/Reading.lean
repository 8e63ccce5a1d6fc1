import DexContainer.Proofs.Item.Value.Writing

/-! How encoded values are read. A reader counts the levels that it goes down, so a value that is
not too deep is read back, and whatever is read is not too deep. -/

namespace DexContainer

variable {places : Places} {keeps : Bool} {p : Nat} {bs : Bytes}

/-- Reads an element, given how its value is read. -/
def Value.decodeElement (value : Decoder Value) : Decoder (Handle .stringId × Value) := do
  let name ← Decoder.index .stringId (← Decoder.unsigned)
  return (name, ← value)

theorem AnnotationBody.decodeWith_eq (value : Decoder Value) : decodeWith value = do
    let type ← Decoder.index .typeId (← Decoder.unsigned)
    let count ← Decoder.unsigned
    let elements ← Decoder.times count (Value.decodeElement value)
    return { type, elements } := rfl

/-! ### Reading back -/

theorem Value.reads_element {e : Handle .stringId × Value} {value : Decoder Value}
    (hp : places.FitsWord _ e.1)
    (he : ∀ bs, e.2.write places = .ok bs → bs.length < 2 ^ 32 →
      ∀ p, Reads places keeps (fun _ => True) p value bs fun ρ => e.2.rename ρ)
    (h : writeElement places e = .ok bs) (hb : bs.length < 2 ^ 32) :
    Reads places keeps (fun _ => True) p (decodeElement value) bs
      fun ρ => (ρ _ e.1, e.2.rename ρ) := by
  simp only [writeElement, bind_eq_ok, pure_eq_ok] at h
  obtain ⟨n, hn, cs, hcs, rfl⟩ := h
  have hn := Places.position_eq_ok.1 hn
  simp only [List.length_append] at hb
  rw [← List.append_nil cs]
  refine (Reads.unsigned (hp n hn)).bind_const ?_
  refine (Reads.index rfl hn).bind_nil fun name _ => ?_
  refine ((he cs hcs (by omega) _).mono fun _ _ => trivial).bind fun v _ => ?_
  refine Reads.pure fun ρ hρ => ?_
  rw [hρ.1.2, hρ.2]

theorem Value.length_pos_of_writeElement {e : Handle .stringId × Value}
    (h : writeElement places e = .ok bs) : 0 < bs.length := by
  simp only [writeElement, bind_eq_ok, pure_eq_ok] at h
  obtain ⟨n, -, cs, -, rfl⟩ := h
  have := Leb128.unsigned_ne_nil n
  simp only [List.length_append]
  have := List.length_pos_iff.2 this
  omega

/-- The body is read back when the values of its elements are. -/
theorem AnnotationBody.reads_of {a : AnnotationBody} {value : Decoder Value}
    (hp : Each places.FitsWord a.handles)
    (ha : ∀ e ∈ a.elements, ∀ bs, e.2.write places = .ok bs → bs.length < 2 ^ 32 →
      ∀ p, Reads places keeps (fun _ => True) p value bs fun ρ => e.2.rename ρ)
    (h : a.write places = .ok bs) (hb : bs.length < 2 ^ 32) :
    Reads places keeps (fun _ => True) p (decodeWith value) bs fun ρ => a.rename ρ := by
  obtain ⟨n, hn, cs, hcs, rfl⟩ := write_eq_ok.1 h
  have hn := Places.position_eq_ok.1 hn
  obtain ⟨htype, hes⟩ := each_handles.1 hp
  simp only [List.length_append] at hb
  have hcount : a.elements.length < 2 ^ 32 := by
    have := length_le_of_writeAll (fun e _ bs hb => Value.length_pos_of_writeElement hb) hcs
    omega
  rw [List.append_assoc, ← List.append_nil cs, decodeWith_eq]
  refine (Reads.unsigned (htype n hn)).bind_const ?_
  refine (Reads.index rfl hn).bind_nil fun type _ => ?_
  refine (Reads.unsigned hcount).bind_const ?_
  refine (Reads.writeAll hcs fun e he cs hcs hle p => Value.reads_element (hes e he).1 (ha e he)
    hcs (by omega)).bind fun es _ => Reads.pure fun ρ hρ => ?_
  rw [rename_eq, hρ.1.2, hρ.2]

/-- Reads what follows the first byte of a value, which stood at `start`. -/
def Value.decodeAfterLead (levels start : Nat) (lead : UInt8) : Decoder Value :=
  match lead.toNat % 32 with
  | 0x1c => do return .array (← decodeAll (decodeWithin levels))
  | 0x1d => do return .annotated (← AnnotationBody.decodeWith (decodeWithin levels))
  | valueType => do return .scalar (← Scalar.decode start valueType (lead.toNat / 32))

theorem Value.decodeWithin_succ (levels : Nat) : decodeWithin (levels + 1) = (do
    let start ← Decoder.position
    let lead ← Decoder.byte
    decodeAfterLead levels start lead) := rfl

theorem Value.reads_of_afterLead {levels : Nat} {lead : UInt8} {rest : Bytes} {v : Renaming → Value}
    (h : Reads places keeps (fun _ => True) (p + 1) (decodeAfterLead levels p lead) rest v) :
    Reads places keeps (fun _ => True) p (decodeWithin (levels + 1)) (lead :: rest) v := by
  rw [decodeWithin_succ]
  exact Reads.bind_position ((Reads.byte lead).bind_const h)

theorem Value.decodeAfterLead_array (levels start : Nat) :
    decodeAfterLead levels start (Scalar.leadByte 0x1c 0) = (do
      return .array (← decodeAll (decodeWithin levels))) := rfl

theorem Value.decodeAfterLead_annotated (levels start : Nat) :
    decodeAfterLead levels start (Scalar.leadByte 0x1d 0) = (do
      return .annotated (← AnnotationBody.decodeWith (decodeWithin levels))) := rfl

theorem Value.decodeAfterLead_scalar {valueType argument : Nat} (levels start : Nat)
    (ht : valueType < 32) (ha : argument < 8) (h1 : valueType ≠ 0x1c) (h2 : valueType ≠ 0x1d) :
    decodeAfterLead levels start (Scalar.leadByte valueType argument) = (do
      return .scalar (← Scalar.decode start valueType argument)) := by
  have hlead := Scalar.leadByte_toNat argument ht
  have hmod : (Scalar.leadByte valueType argument).toNat % 32 = valueType := by omega
  have hdiv : (Scalar.leadByte valueType argument).toNat / 32 = argument := by omega
  rw [decodeAfterLead, hmod, hdiv]
  split
  · exact absurd rfl h1
  · exact absurd rfl h2
  · rfl

theorem Value.length_pos_of_write {v : Value} (h : v.write places = .ok bs) : 0 < bs.length := by
  cases v with
  | scalar x =>
    have := Scalar.size_of_write (x := x) (by rwa [write_scalar] at h)
    exact Scalar.length_pos_of_write (x := x) (by rwa [write_scalar] at h)
  | array vs =>
    obtain ⟨cs, -, rfl⟩ := write_array_eq_ok.1 h
    exact Nat.succ_pos _
  | annotated a =>
    obtain ⟨cs, -, rfl⟩ := write_annotated_eq_ok.1 h
    exact Nat.succ_pos _

/-- A value is read back when it has no more levels than the reader accepts. -/
theorem Value.reads {v : Value} {limit : Nat} (hp : Each places.FitsWord v.handles)
    (hv : v.levels ≤ limit) (h : v.write places = .ok bs) (hb : bs.length < 2 ^ 32) :
    Reads places keeps (fun _ => True) p (decodeWithin limit) bs fun ρ => v.rename ρ := by
  induction v using Value.form_induction generalizing bs limit p with
  | scalar x =>
    rw [levels_scalar] at hv
    rw [handles_scalar] at hp
    obtain ⟨limit, rfl⟩ := Nat.exists_eq_add_one.2 hv
    rw [write_scalar] at h
    obtain ⟨valueType, argument, rest, hx⟩ := Scalar.exists_readsAfterLead hp h
    rw [hx.lead]
    refine reads_of_afterLead ?_
    rw [decodeAfterLead_scalar limit p hx.type_lt hx.argument_lt hx.ne_array hx.ne_annotated]
    simp only [rename_scalar]
    exact (hx.reads p _).map Value.scalar
  | array vs ih =>
    rw [levels_array] at hv
    obtain ⟨limit, rfl⟩ := Nat.exists_eq_add_one.2 (show 0 < limit by omega)
    have hlevels := levelsAll_le_iff.1 (show levelsAll vs ≤ limit by omega)
    obtain ⟨cs, hcs, rfl⟩ := write_array_eq_ok.1 h
    simp only [List.length_cons, List.length_append] at hb
    have hcount : vs.length < 2 ^ 32 := by
      have := length_le_of_writeAll (fun v _ bs hb => length_pos_of_write hb) hcs
      omega
    refine reads_of_afterLead ?_
    rw [decodeAfterLead_array]
    simp only [rename_array]
    refine Reads.map Value.array ?_
    refine (Reads.unsigned hcount).bind_const ?_
    have hp := each_array.1 hp
    exact Reads.writeAll hcs fun v hmem ds hds hle p =>
      ih v hmem (hp v hmem) (hlevels v hmem) hds (by omega)
  | annotated a ih =>
    rw [levels_annotated] at hv
    rw [handles_annotated] at hp
    have hes := (AnnotationBody.each_handles.1 hp).2
    obtain ⟨limit, rfl⟩ := Nat.exists_eq_add_one.2 (show 0 < limit by omega)
    have hlevels := AnnotationBody.levels_le_iff.1 (show a.levels ≤ limit by omega)
    obtain ⟨cs, hcs, rfl⟩ := write_annotated_eq_ok.1 h
    simp only [List.length_cons] at hb
    refine reads_of_afterLead ?_
    rw [decodeAfterLead_annotated]
    simp only [rename_annotated]
    refine Reads.map Value.annotated ?_
    exact AnnotationBody.reads_of hp
      (fun e hmem ds hds hlt p => ih e hmem (hes e hmem).2 (hlevels e hmem) hds hlt) hcs (by omega)

theorem AnnotationBody.reads {a : AnnotationBody} (hp : Each places.FitsWord a.handles)
    (ha : a.levels ≤ Value.maxLevels) (h : a.write places = .ok bs) (hb : bs.length < 2 ^ 32) :
    Reads places keeps (fun _ => True) p decode bs fun ρ => a.rename ρ := by
  have hes := (each_handles.1 hp).2
  have hlevels := levels_le_iff.1 ha
  exact reads_of hp
    (fun e hmem _ hds hlt _ => Value.reads (hes e hmem).2 (hlevels e hmem) hds hlt) h hb

/-! ### Accepting -/

theorem AnnotationBody.yields_of {value : Decoder Value} {limit : Nat}
    (hv : Yields keeps (fun _ => True) 0 value
      fun r v => Each r.Holds v.handles ∧ v.levels ≤ limit) :
    Yields keeps (fun _ => True) 1 (decodeWith value)
      fun r a => Each r.Holds a.handles ∧ a.levels ≤ limit := by
  have he : Yields keeps (fun _ => True) 0 (Value.decodeElement value)
      fun r e => r.Holds _ e.1 ∧ Each r.Holds e.2.handles ∧ e.2.levels ≤ limit := by
    refine Yields.unsigned.bind_tail fun m _ => ?_
    refine (Yields.index rfl m).bind fun name _ => ?_
    refine (hv.given_of fun _ _ => trivial).bind fun v _ => Yields.pure fun r hr => ?_
    exact ⟨hr.1.2.2, hr.2⟩
  rw [decodeWith_eq]
  refine Yields.unsigned.bind fun m _ => ?_
  refine (Yields.index rfl m).bind fun type _ => ?_
  refine Yields.unsigned.bind_tail fun count _ => ?_
  refine (Yields.times he count).bind fun es _ => Yields.pure fun r hr => ?_
  obtain ⟨⟨⟨-, htype⟩, -⟩, -, hes⟩ := hr
  refine ⟨each_handles.2 ⟨htype.2, fun e hmem => ⟨(hes e hmem).1, (hes e hmem).2.1⟩⟩, ?_⟩
  exact levels_le_iff.2 fun e hmem => (hes e hmem).2.2

theorem Value.yields_all {value : Decoder Value} {limit : Nat}
    (hv : Yields keeps (fun _ => True) 0 value
      fun r v => Each r.Holds v.handles ∧ v.levels ≤ limit) :
    Yields keeps (fun _ => True) 1 (decodeAll value)
      fun r vs => ∀ v ∈ vs, Each r.Holds v.handles ∧ v.levels ≤ limit := by
  refine Yields.unsigned.bind fun count _ => ?_
  exact (Yields.times hv count).mono (Nat.le_refl _) fun _ _ _ h => h.2

theorem Value.yields (limit : Nat) : Yields keeps (fun _ => True) 0 (decodeWithin limit)
    fun r v => Each r.Holds v.handles ∧ v.levels ≤ limit := by
  induction limit with
  | zero => exact Yields.position.bind fun _ _ => Yields.throw
  | succ limit ih =>
    rw [decodeWithin_succ]
    refine Yields.position.bind fun start _ => ?_
    refine Yields.byte.bind_tail fun lead _ => ?_
    rw [decodeAfterLead]
    split
    · refine ((yields_all ih).given_of fun _ _ => trivial).bind_tail fun vs _ => ?_
      refine Yields.pure fun r hr => ?_
      have hlevels := levelsAll_le_iff.2 fun v hmem => (hr.2 v hmem).2
      rw [each_array, levels_array]
      exact ⟨fun v hmem => (hr.2 v hmem).1, by omega⟩
    · refine ((AnnotationBody.yields_of ih).given_of fun _ _ => trivial).bind_tail fun a _ => ?_
      refine Yields.pure fun r hr => ?_
      rw [handles_annotated, levels_annotated]
      exact ⟨hr.2.1, by omega⟩
    · refine ((Scalar.yields _ _ _).given_of fun _ _ => trivial).bind fun x _ => ?_
      refine Yields.pure fun r hr => ?_
      rw [handles_scalar, levels_scalar]
      exact ⟨hr.2, by omega⟩

theorem AnnotationBody.yields : Yields keeps (fun _ => True) 1 decode
    fun r a => Each r.Holds a.handles ∧ a.levels ≤ Value.maxLevels :=
  yields_of (Value.yields _)

end DexContainer
