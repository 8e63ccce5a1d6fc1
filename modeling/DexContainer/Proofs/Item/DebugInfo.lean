import DexContainer.Proofs.Item.Register

/-! Debug programs as they are written and read. -/

namespace DexContainer

variable {places places' : Places} {ρ : Renaming} {keeps : Bool} {p : Nat} {bs : Bytes}
  {given : Renaming → Prop} {k : Kind}

namespace DebugOp

variable {x : DebugOp}

/-- The handles of a step. -/
def handles : DebugOp → List AnyHandle
  | .startLocal _ name type => name.toList.map Handle.any ++ type.toList.map Handle.any
  | .startLocalExtended _ name type signature =>
    name.toList.map Handle.any ++ type.toList.map Handle.any ++ signature.toList.map Handle.any
  | .setFile name => name.toList.map Handle.any
  | _ => []

/-- The step with its handles renamed. -/
def rename (ρ : Renaming) : DebugOp → DebugOp
  | .startLocal register name type => .startLocal register (name.map (ρ _)) (type.map (ρ _))
  | .startLocalExtended register name type signature =>
    .startLocalExtended register (name.map (ρ _)) (type.map (ρ _)) (signature.map (ρ _))
  | .setFile name => .setFile (name.map (ρ _))
  | x => x

/-- The step that a reader sees. -/
def asRead (keeps : Bool) : DebugOp → DebugOp
  | .startLocal register name type => .startLocal (register.asRead keeps) name type
  | .startLocalExtended register name type signature =>
    .startLocalExtended (register.asRead keeps) name type signature
  | .endLocal register => .endLocal (register.asRead keeps)
  | .restartLocal register => .restartLocal (register.asRead keeps)
  | x => x

/-- The registers can be encoded, and a special opcode is none of the others. -/
def IsEncodable : DebugOp → Prop
  | .startLocal register _ _ | .startLocalExtended register _ _ _ | .endLocal register
  | .restartLocal register => register.IsEncodable
  | .special opcode => 0x0a ≤ opcode.toNat
  | _ => True

theorem rename_id (x : DebugOp) : x.rename (fun _ h => h) = x := by
  cases x <;> simp [rename]

theorem handles_asRead (keeps : Bool) (x : DebugOp) : (x.asRead keeps).handles = x.handles := by
  cases x <;> rfl

theorem rename_asRead (ρ : Renaming) (keeps : Bool) (x : DebugOp) :
    (x.asRead keeps).rename ρ = (x.rename ρ).asRead keeps := by
  cases x <;> rfl

/-! ### References -/

theorem sizeOfReference_of_write {o : Option (Handle k)} (h : writeReference places o = .ok bs) :
    sizeOfReference places o = .ok bs.length := by
  simp only [writeReference, bind_eq_ok, pure_eq_ok] at h
  obtain ⟨m, hm, rfl⟩ := h
  simp [sizeOfReference, hm, Leb128.length_plusOne, pure_eq]

theorem length_pos_of_writeReference {o : Option (Handle k)}
    (h : writeReference places o = .ok bs) : 0 < bs.length := by
  simp only [writeReference, bind_eq_ok, pure_eq_ok] at h
  obtain ⟨m, -, rfl⟩ := h
  refine List.length_pos_iff.2 ?_
  cases m with
  | none => exact Leb128.unsigned_ne_nil _
  | some n => exact Leb128.unsigned_ne_nil _

theorem exists_writeReference {o : Option (Handle k)} (h : ∀ h ∈ o, places.IsPlaced k h) :
    ∃ bs, writeReference places o = .ok bs := by
  obtain ⟨m, hm⟩ := Places.exists_optionalPosition h
  exact ⟨_, by rw [writeReference, hm]; rfl⟩

theorem writeReference_rename {o : Option (Handle k)}
    (h : ∀ h ∈ o, places.Agrees places' ρ k h) :
    writeReference places' (o.map (ρ k)) = writeReference places o := by
  rw [writeReference, writeReference, Places.optionalPosition_map h]

theorem sizeOfReference_rename {o : Option (Handle k)}
    (h : ∀ h ∈ o, places.Agrees places' ρ k h) :
    sizeOfReference places' (o.map (ρ k)) = sizeOfReference places o := by
  rw [sizeOfReference, sizeOfReference, Places.optionalPosition_map h]

theorem reads_reference {o : Option (Handle k)} (hp : places.Bounded) (hk : k.isIndexed = true)
    (h : writeReference places o = .ok bs) :
    Reads places keeps given p (decodeReference k) bs fun ρ => o.map (ρ k) := by
  simp only [writeReference, bind_eq_ok, pure_eq_ok] at h
  obtain ⟨m, hm, rfl⟩ := h
  rw [← List.append_nil (Leb128.plusOne m)]
  exact (Reads.plusOne (hp.optionalPosition_lt hm)).bind_const (Reads.indexOfOption hk hm)

theorem yields_reference {accepted : References → Prop} (hk : k.isIndexed = true) :
    Yields keeps accepted 0 (decodeReference k) fun r o => ∀ h ∈ o, r.Holds k h := by
  refine Yields.bind (P := fun _ _ => True) (n := 0) ?_ fun m _ => ?_
  · exact Yields.unsigned.bind_tail fun n _ => Yields.pure fun _ _ => trivial
  · exact (Yields.indexOfOption hk m).mono (Nat.le_refl _) fun _ _ _ h => h

/-! ### Writing -/

theorem size_of_write (h : x.write places = .ok bs) : x.size places = .ok bs.length := by
  cases x with
  | advancePc n =>
    obtain rfl := pure_eq_ok.1 h
    simp [size, Leb128.length_unsigned, pure_eq, Nat.add_comm]
  | advanceLine n =>
    obtain rfl := pure_eq_ok.1 h
    simp [size, Leb128.length_signed, pure_eq, Nat.add_comm]
  | startLocal register name type =>
    simp only [write, bind_eq_ok, pure_eq_ok] at h
    obtain ⟨cs, hcs, ds, hds, rfl⟩ := h
    simp [size, sizeOfReference_of_write hcs, sizeOfReference_of_write hds, Register.length_write,
      pure_eq]
    omega
  | startLocalExtended register name type signature =>
    simp only [write, bind_eq_ok, pure_eq_ok] at h
    obtain ⟨cs, hcs, ds, hds, es, hes, rfl⟩ := h
    simp [size, sizeOfReference_of_write hcs, sizeOfReference_of_write hds,
      sizeOfReference_of_write hes, Register.length_write, pure_eq]
    omega
  | endLocal register | restartLocal register =>
    obtain rfl := pure_eq_ok.1 h
    simp [size, Register.length_write, pure_eq, Nat.add_comm]
  | setPrologueEnd | setEpilogueBegin | special opcode =>
    obtain rfl := pure_eq_ok.1 h
    rfl
  | setFile name =>
    simp only [write, bind_eq_ok, pure_eq_ok] at h
    obtain ⟨cs, hcs, rfl⟩ := h
    simp [size, sizeOfReference_of_write hcs, pure_eq, Nat.add_comm]

theorem exists_write (hx : Each places.IsPlaced x.handles) : ∃ bs, x.write places = .ok bs := by
  cases x with
  | startLocal register name type =>
    simp only [handles, each_append, each_map, Option.mem_toList] at hx
    obtain ⟨cs, hcs⟩ := exists_writeReference hx.1
    obtain ⟨ds, hds⟩ := exists_writeReference hx.2
    exact ⟨_, by simp only [write, hcs, hds, ok_bind]; rfl⟩
  | startLocalExtended register name type signature =>
    simp only [handles, each_append, each_map, Option.mem_toList] at hx
    obtain ⟨cs, hcs⟩ := exists_writeReference hx.1.1
    obtain ⟨ds, hds⟩ := exists_writeReference hx.1.2
    obtain ⟨es, hes⟩ := exists_writeReference hx.2
    exact ⟨_, by simp only [write, hcs, hds, hes, ok_bind]; rfl⟩
  | setFile name =>
    simp only [handles, each_map, Option.mem_toList] at hx
    obtain ⟨cs, hcs⟩ := exists_writeReference hx
    exact ⟨_, by simp only [write, hcs, ok_bind]; rfl⟩
  | _ => exact ⟨_, rfl⟩

theorem write_rename (hx : Each (places.Agrees places' ρ) x.handles) :
    (x.rename ρ).write places' = x.write places := by
  cases x with
  | startLocal register name type =>
    simp only [handles, each_append, each_map, Option.mem_toList] at hx
    simp only [rename, write, writeReference_rename hx.1, writeReference_rename hx.2]
  | startLocalExtended register name type signature =>
    simp only [handles, each_append, each_map, Option.mem_toList] at hx
    simp only [rename, write, writeReference_rename hx.1.1, writeReference_rename hx.1.2,
      writeReference_rename hx.2]
  | setFile name =>
    simp only [handles, each_map, Option.mem_toList] at hx
    simp only [rename, write, writeReference_rename hx]
  | _ => rfl

theorem size_rename (hx : Each (places.Agrees places' ρ) x.handles) :
    (x.rename ρ).size places' = x.size places := by
  cases x with
  | startLocal register name type =>
    simp only [handles, each_append, each_map, Option.mem_toList] at hx
    simp only [rename, size, sizeOfReference_rename hx.1, sizeOfReference_rename hx.2]
  | startLocalExtended register name type signature =>
    simp only [handles, each_append, each_map, Option.mem_toList] at hx
    simp only [rename, size, sizeOfReference_rename hx.1.1, sizeOfReference_rename hx.1.2,
      sizeOfReference_rename hx.2]
  | setFile name =>
    simp only [handles, each_map, Option.mem_toList] at hx
    simp only [rename, size, sizeOfReference_rename hx]
  | _ => rfl

theorem write_asRead (hx : x.IsEncodable) : (x.asRead true).write places = x.write places := by
  cases x with
  | startLocal register name type =>
    simp only [asRead, write, Register.write_asRead (r := register) hx]
  | startLocalExtended register name type signature =>
    simp only [asRead, write, Register.write_asRead (r := register) hx]
  | endLocal register | restartLocal register =>
    simp only [asRead, write, Register.write_asRead (r := register) hx]
  | _ => rfl

theorem size_asRead (hx : x.IsEncodable) : (x.asRead true).size places = x.size places := by
  cases x with
  | startLocal register name type =>
    simp only [asRead, size, Register.size_asRead (r := register) hx]
  | startLocalExtended register name type signature =>
    simp only [asRead, size, Register.size_asRead (r := register) hx]
  | endLocal register | restartLocal register =>
    simp only [asRead, size, Register.size_asRead (r := register) hx]
  | _ => rfl

/-! ### Reading back -/

/-- A written step starts with an opcode that does not end the program, and what follows the opcode
is read back. -/
theorem exists_reads (keeps : Bool) (hp : places.Bounded) (hx : x.IsEncodable)
    (h : x.write places = .ok bs) :
    ∃ opcode rest, bs = opcode :: rest ∧ opcode ≠ DebugInfo.endSequence ∧
      ∀ p, Reads places keeps (fun _ => True) p (decode opcode) rest
        fun ρ => (x.rename ρ).asRead keeps := by
  cases x with
  | advancePc n =>
    obtain rfl := pure_eq_ok.1 h
    refine ⟨_, _, rfl, by decide, fun p => ?_⟩
    rw [← List.append_nil (Leb128.unsigned _)]
    refine (Reads.unsigned n.toNat_lt).bind_const (Reads.pure fun _ _ => ?_)
    simp [rename, asRead]
  | advanceLine n =>
    obtain rfl := pure_eq_ok.1 h
    refine ⟨_, _, rfl, by decide, fun p => ?_⟩
    rw [← List.append_nil (Leb128.signed _)]
    refine (Reads.signed ⟨n.le_toInt, n.toInt_lt⟩).bind_const (Reads.pure fun _ _ => ?_)
    simp [rename, asRead]
  | startLocal register name type =>
    simp only [write, bind_eq_ok, pure_eq_ok] at h
    obtain ⟨cs, hcs, ds, hds, rfl⟩ := h
    refine ⟨_, _, rfl, by decide, fun p => ?_⟩
    rw [List.append_assoc, ← List.append_nil ds]
    refine (Register.reads hx).bind_const ?_
    refine (reads_reference hp rfl hcs).bind fun name' _ => ?_
    refine (reads_reference hp rfl hds).bind fun type' _ => Reads.pure fun ρ hρ => ?_
    rw [rename, asRead, hρ.1.2, hρ.2]
  | startLocalExtended register name type signature =>
    simp only [write, bind_eq_ok, pure_eq_ok] at h
    obtain ⟨cs, hcs, ds, hds, es, hes, rfl⟩ := h
    refine ⟨_, _, rfl, by decide, fun p => ?_⟩
    rw [List.append_assoc, List.append_assoc, ← List.append_nil es]
    refine (Register.reads hx).bind_const ?_
    refine (reads_reference hp rfl hcs).bind fun name' _ => ?_
    refine (reads_reference hp rfl hds).bind fun type' _ => ?_
    refine (reads_reference hp rfl hes).bind fun signature' _ => Reads.pure fun ρ hρ => ?_
    rw [rename, asRead, hρ.1.1.2, hρ.1.2, hρ.2]
  | endLocal register =>
    obtain rfl := pure_eq_ok.1 h
    refine ⟨_, _, rfl, by decide, fun p => ?_⟩
    exact (Register.reads hx).map DebugOp.endLocal
  | restartLocal register =>
    obtain rfl := pure_eq_ok.1 h
    refine ⟨_, _, rfl, by decide, fun p => ?_⟩
    exact (Register.reads hx).map DebugOp.restartLocal
  | setPrologueEnd | setEpilogueBegin =>
    obtain rfl := pure_eq_ok.1 h
    exact ⟨_, _, rfl, by decide, fun p => Reads.pure fun _ _ => rfl⟩
  | setFile name =>
    simp only [write, bind_eq_ok, pure_eq_ok] at h
    obtain ⟨cs, hcs, rfl⟩ := h
    refine ⟨_, _, rfl, by decide, fun p => ?_⟩
    exact (reads_reference hp rfl hcs).map DebugOp.setFile
  | special opcode =>
    obtain rfl := pure_eq_ok.1 h
    have hop : 0x0a ≤ opcode.toNat := hx
    refine ⟨_, _, rfl, fun he => ?_, fun p => ?_⟩
    · rw [he] at hop
      exact absurd hop (by decide)
    · rw [decode]
      split
      all_goals first | omega | exact Reads.pure fun _ _ => rfl

/-! ### Accepting -/

theorem yields {opcode : UInt8} (hop : opcode ≠ DebugInfo.endSequence) :
    Yields keeps (fun _ => True) 0 (decode opcode)
      fun r x => Each r.Holds x.handles ∧ x.IsEncodable ∧ x.asRead keeps = x := by
  rw [decode]
  split
  · refine Yields.unsigned.bind_tail fun n _ => Yields.pure fun _ _ => ?_
    simp [handles, IsEncodable, asRead]
  · refine Yields.signed.bind_tail fun n _ => Yields.pure fun _ _ => ?_
    simp [handles, IsEncodable, asRead]
  · refine Register.yields.bind_tail fun register _ => ?_
    refine (yields_reference rfl).bind fun name _ => ?_
    refine (yields_reference rfl).bind fun type _ => Yields.pure fun r hr => ?_
    obtain ⟨⟨⟨-, h1, h2⟩, h3⟩, h4⟩ := hr
    refine ⟨?_, h1, ?_⟩
    · simp only [handles, each_append, each_map, Option.mem_toList]
      exact ⟨h3, h4⟩
    · rw [asRead, h2]
  · refine Register.yields.bind_tail fun register _ => ?_
    refine (yields_reference rfl).bind fun name _ => ?_
    refine (yields_reference rfl).bind fun type _ => ?_
    refine (yields_reference rfl).bind fun signature _ => Yields.pure fun r hr => ?_
    obtain ⟨⟨⟨⟨-, h1, h2⟩, h3⟩, h4⟩, h5⟩ := hr
    refine ⟨?_, h1, ?_⟩
    · simp only [handles, each_append, each_map, Option.mem_toList]
      exact ⟨⟨h3, h4⟩, h5⟩
    · rw [asRead, h2]
  · refine Register.yields.bind_tail fun register _ => Yields.pure fun r hr => ?_
    exact ⟨each_nil, hr.2.1, by rw [asRead, hr.2.2]⟩
  · refine Register.yields.bind_tail fun register _ => Yields.pure fun r hr => ?_
    exact ⟨each_nil, hr.2.1, by rw [asRead, hr.2.2]⟩
  · exact Yields.pure fun _ _ => ⟨each_nil, trivial, rfl⟩
  · exact Yields.pure fun _ _ => ⟨each_nil, trivial, rfl⟩
  · refine (yields_reference rfl).bind fun name _ => Yields.pure fun r hr => ?_
    refine ⟨?_, trivial, rfl⟩
    simp only [handles, each_map, Option.mem_toList]
    exact hr.2
  · refine Yields.pure fun _ _ => ⟨each_nil, ?_, rfl⟩
    have h0 : opcode.toNat ≠ 0 := fun h => hop (UInt8.toNat_inj.1 h)
    show 0x0a ≤ opcode.toNat
    simp only [imp_false] at *
    omega

end DebugOp

namespace DebugInfo

variable {x : DebugInfo}

/-- The handles of the program. -/
def handles (x : DebugInfo) : List AnyHandle :=
  (x.parameterNames.flatMap fun o => o.toList.map Handle.any) ++ x.ops.flatMap DebugOp.handles

/-- The program with its handles renamed. -/
def rename (ρ : Renaming) (x : DebugInfo) : DebugInfo where
  lineStart := x.lineStart
  parameterNames := x.parameterNames.map (Option.map (ρ _))
  ops := x.ops.map (DebugOp.rename ρ)

/-- The program that a reader sees. -/
def asRead (keeps : Bool) (x : DebugInfo) : DebugInfo :=
  { x with ops := x.ops.map (DebugOp.asRead keeps) }

/-- Every step can be encoded. -/
def IsEncodable (x : DebugInfo) : Prop := ∀ op ∈ x.ops, op.IsEncodable

theorem rename_id (x : DebugInfo) : x.rename (fun _ h => h) = x := by
  have hops : x.ops.map (DebugOp.rename fun _ h => h) = x.ops :=
    (List.map_congr_left fun op _ => op.rename_id).trans (List.map_id' x.ops)
  simp [rename, hops]

theorem each_handles {P : HandleProperty} : Each P x.handles ↔
    (∀ o ∈ x.parameterNames, ∀ h ∈ o, P _ h) ∧ ∀ op ∈ x.ops, Each P op.handles := by
  simp [handles]

theorem handles_asRead (keeps : Bool) (x : DebugInfo) : (x.asRead keeps).handles = x.handles := by
  simp [handles, asRead, List.flatMap_map, DebugOp.handles_asRead]

theorem write_eq_ok : x.write places = .ok bs ↔
    ∃ names, writeAll (DebugOp.writeReference places) x.parameterNames = .ok names ∧
    ∃ ops, writeAll (DebugOp.write places) x.ops = .ok ops ∧
      Leb128.unsigned x.lineStart.toNat ++ Leb128.unsigned x.parameterNames.length ++ names ++
        ops ++ [endSequence] = bs := by
  simp [write]

theorem size_of_write (h : x.write places = .ok bs) : x.size places = .ok bs.length := by
  obtain ⟨names, hnames, ops, hops, rfl⟩ := write_eq_ok.1 h
  have h1 := sizeOfAll_of_writeAll (fun o _ bs hb => DebugOp.sizeOfReference_of_write hb) hnames
  have h2 := sizeOfAll_of_writeAll (fun op _ bs hb => DebugOp.size_of_write hb) hops
  simp [size, h1, h2, Leb128.length_unsigned, pure_eq, Nat.add_assoc]

theorem exists_write (h : Each places.IsPlaced x.handles) : ∃ bs, x.write places = .ok bs := by
  obtain ⟨h1, h2⟩ := each_handles.1 h
  obtain ⟨names, hnames⟩ := exists_writeAll fun o ho => DebugOp.exists_writeReference (h1 o ho)
  obtain ⟨ops, hops⟩ := exists_writeAll fun op hop => DebugOp.exists_write (h2 op hop)
  exact ⟨_, write_eq_ok.2 ⟨names, hnames, ops, hops, rfl⟩⟩

theorem write_rename (hx : Each (places.Agrees places' ρ) x.handles) :
    (x.rename ρ).write places' = x.write places := by
  obtain ⟨h1, h2⟩ := each_handles.1 hx
  have hnames := writeAll_map (Option.map (ρ _))
    fun o ho => DebugOp.writeReference_rename (h1 o ho)
  have hops := writeAll_map (DebugOp.rename ρ)
    fun op hop => DebugOp.write_rename (h2 op hop)
  simp only [write, rename, hnames, hops, List.length_map]

/-- Every handle of a program is of a kind that others are measured by. -/
theorem isMeasured_of_mem {h : AnyHandle} (hh : h ∈ x.handles) : h.1.isMeasured = true := by
  have hx : Each (fun k _ => k.isMeasured = true) x.handles := by
    refine each_handles.2 ⟨fun _ _ _ _ => rfl, fun op _ => ?_⟩
    cases op <;> simp [DebugOp.handles, Kind.isMeasured]
  exact hx h hh

theorem ne_code_of_mem {h : AnyHandle} (hh : h ∈ x.handles) : h.1 ≠ .code := by
  have hx : Each (fun k _ => k ≠ .code) x.handles := by
    refine each_handles.2 ⟨fun _ _ _ _ => by decide, fun op _ => ?_⟩
    cases op <;> simp [DebugOp.handles]
  exact hx h hh

theorem exists_size (h : Each places.IsMeasurable x.handles) : ∃ n, x.size places = .ok n := by
  obtain ⟨bs, hbs⟩ := exists_write fun y hy => h y hy (isMeasured_of_mem hy) (ne_code_of_mem hy)
  exact ⟨_, size_of_write hbs⟩

theorem size_rename (hx : Each (places.Measures places' ρ) x.handles) :
    (x.rename ρ).size places' = x.size places := by
  have hx : Each (places.Agrees places' ρ) x.handles := fun h hh =>
    hx h hh (isMeasured_of_mem hh)
  obtain ⟨h1, h2⟩ := each_handles.1 hx
  have hnames := sizeOfAll_map (Option.map (ρ _))
    fun o ho => DebugOp.sizeOfReference_rename (h1 o ho)
  have hops := sizeOfAll_map (DebugOp.rename ρ)
    fun op hop => DebugOp.size_rename (h2 op hop)
  simp only [size, rename, hnames, hops, List.length_map]

theorem write_asRead (hx : x.IsEncodable) : (x.asRead true).write places = x.write places := by
  have hops := writeAll_map (v := DebugOp.write places) (DebugOp.asRead true)
    fun op hop => DebugOp.write_asRead (hx op hop)
  simp only [write, asRead, hops]

theorem size_asRead (hx : x.IsEncodable) : (x.asRead true).size places = x.size places := by
  have hops := sizeOfAll_map (v := DebugOp.size places) (DebugOp.asRead true)
    fun op hop => DebugOp.size_asRead (hx op hop)
  simp only [size, asRead, hops]

/-! ### Reading back -/

/-- Steps are read up to the end of the program, when the limit allows for as many steps as there
are bytes. -/
theorem reads_ops {ops : List DebugOp} {limit : Nat} (hp : places.Bounded)
    (hops : ∀ op ∈ ops, op.IsEncodable) (h : writeAll (DebugOp.write places) ops = .ok bs)
    (hl : bs.length < limit) (read : List DebugOp) (b : Renaming → List DebugOp)
    (hb : ∀ ρ, given ρ → b ρ = read.reverse ++ ops.map fun op => (op.rename ρ).asRead keeps) :
    Reads places keeps given p (opsOnto limit read) (bs ++ [endSequence]) b := by
  induction ops generalizing given bs limit read p with
  | nil =>
    obtain rfl : [] = bs := by simpa [writeAll_nil] using h
    obtain ⟨limit, rfl⟩ := Nat.exists_eq_add_one.2 hl
    rw [opsOnto]
    refine (Reads.byte _).bind_const ?_
    rw [if_pos rfl]
    exact Reads.pure fun ρ hρ => by simpa using hb ρ hρ
  | cons op ops ih =>
    rw [writeAll_cons] at h
    simp only [bind_eq_ok, pure_eq_ok] at h
    obtain ⟨cs, hcs, ds, hds, rfl⟩ := h
    have hop := hops op (List.mem_cons_self ..)
    obtain ⟨limit, rfl⟩ := Nat.exists_eq_add_one.2 (Nat.zero_lt_of_lt hl)
    obtain ⟨opcode, rest, rfl, hne, hread⟩ := DebugOp.exists_reads keeps hp hop hcs
    simp only [List.length_append, List.length_cons] at hl
    rw [opsOnto, List.append_assoc, List.cons_append]
    refine (Reads.byte opcode).bind_const ?_
    rw [if_neg hne]
    refine ((hread _).mono fun _ _ => trivial).bind fun x _ => ?_
    refine ih (fun op hop => hops op (List.mem_cons_of_mem _ hop)) hds (by omega) _ fun ρ hρ => ?_
    rw [hb ρ hρ.1, ← hρ.2]
    simp

theorem reads (hp : places.Bounded) (hx : x.IsEncodable) (h : x.write places = .ok bs)
    (hlen : bs.length < 2 ^ 32) :
    Reads places keeps (fun _ => True) p decode bs fun ρ => (x.rename ρ).asRead keeps := by
  obtain ⟨names, hnames, ops, hops, rfl⟩ := write_eq_ok.1 h
  simp only [List.length_append] at hlen
  have hcount : x.parameterNames.length < 2 ^ 32 := by
    have := length_le_of_writeAll
      (fun o _ bs hb => DebugOp.length_pos_of_writeReference hb) hnames
    omega
  simp only [List.append_assoc]
  rw [← List.append_nil (ops ++ [endSequence])]
  refine (Reads.unsigned x.lineStart.toNat_lt).bind_const ?_
  refine (Reads.unsigned hcount).bind_const ?_
  refine (Reads.writeAll hnames fun o _ ds hds _ p =>
    DebugOp.reads_reference hp rfl hds).bind fun names' _ => ?_
  refine Reads.bind_remaining fun n hn => ?_
  simp only [List.length_append, List.length_singleton, List.length_nil] at hn
  refine (reads_ops hp hx hops (by omega) [] _ fun _ _ => rfl).bind fun ops' _ => ?_
  refine Reads.pure fun ρ hρ => ?_
  obtain ⟨⟨-, rfl⟩, rfl⟩ := hρ
  simp [rename, asRead, Function.comp_def]

/-! ### Accepting -/

theorem yields_ops {accepted : References → Prop} (limit : Nat) (read : List DebugOp) :
    Yields keeps accepted 0 (opsOnto limit read) fun r ops =>
      ∃ os, ops = read.reverse ++ os ∧
        ∀ op ∈ os, Each r.Holds op.handles ∧ op.IsEncodable ∧ op.asRead keeps = op := by
  induction limit generalizing accepted read with
  | zero => exact Yields.position.bind fun _ _ => Yields.throw
  | succ limit ih =>
    rw [opsOnto]
    refine Yields.byte.bind_tail fun opcode _ => ?_
    split
    · exact Yields.pure fun _ _ => ⟨[], by simp⟩
    · rename_i hne
      refine ((DebugOp.yields hne).given_of fun _ _ => trivial).bind fun op _ => ?_
      refine (ih _).mono (Nat.le_refl _) ?_
      rintro r _ ⟨-, hop⟩ ⟨os, rfl, hos⟩
      refine ⟨op :: os, by simp, fun o ho => ?_⟩
      rcases List.mem_cons.1 ho with rfl | ho
      · exact hop
      · exact hos o ho

theorem yields : Yields keeps (fun _ => True) 1 decode
    fun r x => Each r.Holds x.handles ∧ x.IsEncodable ∧ x.asRead keeps = x := by
  refine Yields.unsigned.bind fun lineStart _ => ?_
  refine Yields.unsigned.bind_tail fun nameCount _ => ?_
  refine (Yields.times (DebugOp.yields_reference rfl) nameCount).bind fun names _ => ?_
  refine Yields.remaining.bind fun limit _ => ?_
  refine (yields_ops limit []).bind fun ops _ => Yields.pure fun r hr => ?_
  obtain ⟨⟨⟨-, -, hnames⟩, -⟩, os, hops, hos⟩ := hr
  obtain rfl : ops = os := hops
  refine ⟨each_handles.2 ⟨hnames, fun op hop => (hos op hop).1⟩, fun op hop => (hos op hop).2.1, ?_⟩
  have hread : ops.map (DebugOp.asRead keeps) = ops :=
    (List.map_congr_left fun op hop => (hos op hop).2.2).trans (List.map_id' ops)
  simp [asRead, hread]

end DebugInfo

end DexContainer
