import DexContainer.Proofs.Item.Widths
import DexContainer.Proofs.Yields

/-! Encoded values without parts as they are written and read. -/

namespace DexContainer.Scalar

variable {places places' : Places} {ρ : Renaming} {keeps : Bool} {p : Nat} {bs : Bytes}
  {given : Renaming → Prop} {x : Scalar} {k : Kind}

/-- The handles of the value. -/
def handles : Scalar → List AnyHandle
  | .methodType h => [h.any]
  | .string h => [h.any]
  | .type h => [h.any]
  | .field h => [h.any]
  | .method h => [h.any]
  | .enum h => [h.any]
  | _ => []

/-- The value with its handles renamed. -/
def rename (ρ : Renaming) : Scalar → Scalar
  | .methodType h => .methodType (ρ _ h)
  | .string h => .string (ρ _ h)
  | .type h => .type (ρ _ h)
  | .field h => .field (ρ _ h)
  | .method h => .method (ρ _ h)
  | .enum h => .enum (ρ _ h)
  | x => x

theorem rename_id (x : Scalar) : x.rename (fun _ h => h) = x := by
  cases x <;> rfl

theorem rename_congr {ρ' : Renaming} (hx : Each (fun k h => ρ k h = ρ' k h) x.handles) :
    x.rename ρ = x.rename ρ' := by
  cases x with
  | methodType r | string r | type r | field r | method r | enum r =>
    simp only [rename, (each_cons.1 hx).1]
  | _ => rfl

/-- A value without parts refers to other items by index only. -/
theorem each_isIndexed (x : Scalar) : Each (fun k _ => k.isIndexed = true) x.handles := by
  cases x with
  | methodType r | string r | type r | field r | method r | enum r =>
    exact each_cons.2 ⟨rfl, each_nil⟩
  | _ => exact each_nil

/-! ### Lengths -/

theorem size_of_write (h : x.write places = .ok bs) : x.size places = .ok bs.length := by
  cases x with
  | byte v | null | boolean v =>
    obtain rfl := pure_eq_ok.1 h
    rfl
  | short v | int v | long v =>
    obtain rfl := pure_eq_ok.1 h
    rw [length_writeSigned]
    rfl
  | char v | methodHandle v =>
    obtain rfl := pure_eq_ok.1 h
    rw [length_writeUnsigned]
    rfl
  | float v | double v =>
    obtain rfl := pure_eq_ok.1 h
    rw [length_writeRightZero]
    rfl
  | methodType r | string r | type r | field r | method r | enum r =>
    obtain ⟨n, hn, rfl⟩ := map_eq_ok.1 h
    rw [length_writeUnsigned, size, hn]
    rfl

theorem length_pos_of_write (h : x.write places = .ok bs) : 0 < bs.length := by
  cases x with
  | methodType r | string r | type r | field r | method r | enum r =>
    obtain ⟨n, -, rfl⟩ := map_eq_ok.1 h
    exact Nat.succ_pos _
  | _ =>
    obtain rfl := pure_eq_ok.1 h
    exact Nat.succ_pos _

theorem exists_write (hx : Each places.IsPlaced x.handles) : ∃ bs, x.write places = .ok bs := by
  cases x with
  | methodType r | string r | type r | field r | method r | enum r =>
    obtain ⟨n, hn⟩ := (each_cons.1 hx).1.exists_position
    exact ⟨_, map_eq_ok.2 ⟨n, hn, rfl⟩⟩
  | _ => exact ⟨_, rfl⟩

theorem exists_size (hx : Each places.IsMeasurable x.handles) : ∃ n, x.size places = .ok n := by
  cases x with
  | methodType r | string r | type r | field r | method r | enum r =>
    obtain ⟨n, hn⟩ := ((each_cons.1 hx).1 rfl (by decide)).exists_position
    exact ⟨_, by rw [size, hn]; rfl⟩
  | _ => exact ⟨_, rfl⟩

/-! ### Renaming -/

theorem write_rename (hx : Each (places.Agrees places' ρ) x.handles) :
    (x.rename ρ).write places' = x.write places := by
  cases x with
  | methodType r | string r | type r | field r | method r | enum r =>
    have hr : places'.position (ρ _ r) = places.position r := (each_cons.1 hx).1
    simp only [rename, write, hr]
  | _ => rfl

theorem size_rename (hx : Each (places.Measures places' ρ) x.handles) :
    (x.rename ρ).size places' = x.size places := by
  cases x with
  | methodType r | string r | type r | field r | method r | enum r =>
    have hr : places'.position (ρ _ r) = places.position r := (each_cons.1 hx).1 rfl
    simp only [rename, size, hr]
  | _ => rfl

/-! ### Reading back -/

theorem leadByte_toNat {valueType : Nat} (argument : Nat) (ht : valueType < 32) :
    (leadByte valueType argument).toNat = argument % 8 * 32 + valueType := by
  rw [leadByte, UInt8.toNat_ofNat']
  omega

/-- A width within its limit is let through. -/
theorem upTo_bind {f : PUnit → Decoder α} {e : Fault} {limit width : Nat} (hw : width ≤ limit) :
    ((if limit < width then throw e else pure ()) >>= f) = f ⟨⟩ := by
  rw [if_neg (Nat.not_lt.2 hw), pure_bind]

/-- A reference is read back from an unsigned number of minimal width. -/
theorem reads_reference {h : Handle k} {n : Nat} (g : Handle k → α) (hk : k.isIndexed = true)
    (hn : places.position? k h = some n) {width : Nat} (hw : n < 256 ^ width) :
    Reads places keeps given p (do return g (← Decoder.index k (← readUnsigned width)))
      (Word.bytes width n) fun ρ => g (ρ k h) := by
  rw [← List.append_nil (Word.bytes width n)]
  exact (reads_unsigned hw).bind_const ((Reads.index hk hn).map g)

/-- What follows the first byte of a written value is read back by the type and the argument that
the first byte holds. -/
structure ReadsAfterLead (places : Places) (keeps : Bool) (x : Scalar) (bs : Bytes)
    (valueType argument : Nat) (rest : Bytes) : Prop where
  lead : bs = leadByte valueType argument :: rest
  type_lt : valueType < 32
  ne_array : valueType ≠ 0x1c
  ne_annotated : valueType ≠ 0x1d
  argument_lt : argument < 8
  reads : ∀ start p, Reads places keeps (fun _ => True) p (decode start valueType argument) rest
    fun ρ => x.rename ρ

/-! A type of values enters the lemmas below by its limit and by `g`, which makes the value of what
was read. -/

theorem readsAfterLead_signed {v : Int} {valueType : Nat} (g : Int → Scalar) (limit : Nat)
    (hv : fitsSigned v limit = true) (h1 : 1 ≤ limit) (h8 : limit ≤ 8) (ht : valueType < 0x1c)
    (hx : ∀ ρ, x.rename ρ = g v)
    (hd : ∀ start argument, argument + 1 ≤ limit →
      decode start valueType argument = do return g (← readSigned (argument + 1))) :
    ReadsAfterLead places keeps x (writeSigned valueType v) valueType (signedWidth v - 1)
      (Word.bytes (signedWidth v) (v % 2 ^ 64).toNat) := by
  have hle := signedWidth_le hv h1 h8
  obtain ⟨hfits, hlow, hhigh⟩ := signedWidth_spec (fitsSigned_mono hv h8)
  refine ⟨rfl, by omega, by omega, by omega, by omega, fun start p => ?_⟩
  rw [hd start _ (by omega), Nat.sub_add_cancel hlow]
  simp only [hx]
  exact (reads_signed hfits hlow hhigh).map g

theorem readsAfterLead_unsigned {n valueType : Nat} (limit : Nat) (hn : n < 256 ^ limit)
    (h1 : 1 ≤ limit) (h8 : limit ≤ 8) (ht : valueType < 0x1c)
    (hr : ∀ argument start p, argument + 1 ≤ limit → n < 256 ^ (argument + 1) →
      Reads places keeps (fun _ => True) p (decode start valueType argument)
        (Word.bytes (argument + 1) n) fun ρ => x.rename ρ) :
    ReadsAfterLead places keeps x (writeUnsigned valueType n) valueType (unsignedWidth n - 1)
      (Word.bytes (unsignedWidth n) n) := by
  have hle := unsignedWidth_le hn h1 h8
  have h64 : n < 2 ^ 64 := by
    have hp : 256 ^ limit ≤ 256 ^ 8 := Nat.pow_le_pow_right (by decide) h8
    omega
  obtain ⟨hfits, hlow, hhigh⟩ := unsignedWidth_spec h64
  refine ⟨rfl, by omega, by omega, by omega, by omega, fun start p => ?_⟩
  have hwidth : unsignedWidth n - 1 + 1 = unsignedWidth n := Nat.sub_add_cancel hlow
  have := hr (unsignedWidth n - 1) start p (by omega) (by rwa [hwidth])
  rwa [hwidth] at this

theorem readsAfterLead_number {n valueType : Nat} (g : Nat → Scalar) (limit : Nat)
    (hn : n < 256 ^ limit) (h1 : 1 ≤ limit) (h8 : limit ≤ 8) (ht : valueType < 0x1c)
    (hx : ∀ ρ, x.rename ρ = g n)
    (hd : ∀ start argument, argument + 1 ≤ limit →
      decode start valueType argument = do return g (← readUnsigned (argument + 1))) :
    ReadsAfterLead places keeps x (writeUnsigned valueType n) valueType (unsignedWidth n - 1)
      (Word.bytes (unsignedWidth n) n) := by
  refine readsAfterLead_unsigned limit hn h1 h8 ht fun argument start p hle hfits => ?_
  rw [hd start argument hle]
  simp only [hx]
  exact (reads_unsigned hfits).map g

theorem readsAfterLead_reference {h : Handle k} {n valueType : Nat} (g : Handle k → Scalar)
    (hp : places.FitsWord k h) (hk : k.isIndexed = true) (hn : places.position h = .ok n)
    (ht : valueType < 0x1c) (hx : ∀ ρ, x.rename ρ = g (ρ k h))
    (hd : ∀ start argument, argument + 1 ≤ 4 → decode start valueType argument = do
      return g (← Decoder.index k (← readUnsigned (argument + 1)))) :
    ReadsAfterLead places keeps x (writeUnsigned valueType n) valueType (unsignedWidth n - 1)
      (Word.bytes (unsignedWidth n) n) := by
  have hn := Places.position_eq_ok.1 hn
  refine readsAfterLead_unsigned 4 (hp n hn) (by decide) (by decide) ht
    fun argument start p hle hfits => ?_
  rw [hd start argument hle]
  simp only [hx]
  exact reads_reference g hk hn hfits

theorem readsAfterLead_rightZero {bits valueType : Nat} (g : Nat → Scalar) (total : Nat)
    (hb : bits < 256 ^ total) (h1 : 1 ≤ total) (h8 : total ≤ 8) (ht : valueType < 0x1c)
    (hx : ∀ ρ, x.rename ρ = g bits)
    (hd : ∀ start argument, argument + 1 ≤ total → decode start valueType argument = do
      return g (256 ^ (total - (argument + 1)) * (← readUnsigned (argument + 1)))) :
    ReadsAfterLead places keeps x (writeRightZero valueType bits total) valueType
      (rightZeroWidth bits total - 1)
      (Word.bytes (rightZeroWidth bits total)
        (bits / 256 ^ (total - rightZeroWidth bits total))) := by
  obtain ⟨hlow, hhigh, -⟩ := rightZeroWidth_spec bits h1
  refine ⟨rfl, by omega, by omega, by omega, by omega, fun start p => ?_⟩
  rw [hd start _ (by omega), Nat.sub_add_cancel hlow]
  have hx (ρ : Renaming) : x.rename ρ = g (256 ^ (total - rightZeroWidth bits total) *
      (bits / 256 ^ (total - rightZeroWidth bits total))) := by
    rw [hx, mul_div_of_rightZeroWidth h1]
  simp only [hx]
  exact (reads_unsigned (div_lt_of_rightZeroWidth h1 hb)).map fun n =>
    g (256 ^ (total - rightZeroWidth bits total) * n)

theorem fitsSigned_of_bounds {v : Int} {width : Nat} (h : -2 ^ (8 * width - 1) ≤ v)
    (h' : v < 2 ^ (8 * width - 1)) : fitsSigned v width = true :=
  decide_eq_true ⟨h, h'⟩

theorem reads_byte (v : Int8) (start : Nat) :
    Reads places keeps (fun _ => True) p (decode start 0x00 0) [v.toUInt8]
      fun ρ => (Scalar.byte v).rename ρ := by
  rw [show decode start 0x00 0 = do return .byte (Int8.ofInt (← readSigned 1)) from
    upTo_bind (Nat.le_refl 1)]
  have hbytes : Reads places keeps (fun _ => True) p (readSigned 1) [v.toUInt8]
      fun _ => v.toInt := by
    rw [← List.append_nil [v.toUInt8]]
    refine (Reads.bytes [v.toUInt8]).bind_const (Reads.pure fun _ _ => ?_)
    have hv : v.toInt = (v.toUInt8.toNat : Int).bmod 256 := BitVec.toInt_eq_toNat_bmod v.toBitVec
    simp [Word.ofBytes, hv]
  rw [← List.append_nil [v.toUInt8]]
  exact hbytes.bind_const (Reads.pure fun _ _ => by simp [rename])

theorem exists_readsAfterLead (hp : Each places.FitsWord x.handles)
    (h : x.write places = .ok bs) :
    ∃ valueType argument rest, ReadsAfterLead places keeps x bs valueType argument rest := by
  cases x with
  | byte v =>
    obtain rfl := pure_eq_ok.1 h
    exact ⟨_, _, _, rfl, by decide, by decide, by decide, by decide,
      fun start p => reads_byte v start⟩
  | short v =>
    obtain rfl := pure_eq_ok.1 h
    exact ⟨_, _, _, readsAfterLead_signed (fun n => .short (Int16.ofInt n)) 2
      (fitsSigned_of_bounds v.le_toInt v.toInt_lt) (by decide) (by decide) (by decide)
      (fun _ => by simp [rename]) fun _ _ hw => upTo_bind hw⟩
  | int v =>
    obtain rfl := pure_eq_ok.1 h
    exact ⟨_, _, _, readsAfterLead_signed (fun n => .int (Int32.ofInt n)) 4
      (fitsSigned_of_bounds v.le_toInt v.toInt_lt) (by decide) (by decide) (by decide)
      (fun _ => by simp [rename]) fun _ _ hw => upTo_bind hw⟩
  | long v =>
    obtain rfl := pure_eq_ok.1 h
    exact ⟨_, _, _, readsAfterLead_signed (fun n => .long (Int64.ofInt n)) 8
      (fitsSigned_of_bounds v.le_toInt v.toInt_lt) (by decide) (by decide) (by decide)
      (fun _ => by simp [rename]) fun _ _ _ => rfl⟩
  | char v =>
    obtain rfl := pure_eq_ok.1 h
    exact ⟨_, _, _, readsAfterLead_number (fun n => .char (UInt16.ofNat n)) 2
      v.toNat_lt (by decide) (by decide) (by decide)
      (fun _ => by simp [rename]) fun _ _ hw => upTo_bind hw⟩
  | methodHandle v =>
    obtain rfl := pure_eq_ok.1 h
    exact ⟨_, _, _, readsAfterLead_number (fun n => .methodHandle (UInt32.ofNat n)) 4
      v.toNat_lt (by decide) (by decide) (by decide)
      (fun _ => by simp [rename]) fun _ _ hw => upTo_bind hw⟩
  | float v =>
    obtain rfl := pure_eq_ok.1 h
    exact ⟨_, _, _, readsAfterLead_rightZero (fun n => .float (UInt32.ofNat n)) 4
      v.toNat_lt (by decide) (by decide) (by decide)
      (fun _ => by simp [rename]) fun _ _ hw => upTo_bind hw⟩
  | double v =>
    obtain rfl := pure_eq_ok.1 h
    exact ⟨_, _, _, readsAfterLead_rightZero (fun n => .double (UInt64.ofNat n)) 8
      v.toNat_lt (by decide) (by decide) (by decide)
      (fun _ => by simp [rename]) fun _ _ _ => rfl⟩
  | null =>
    obtain rfl := pure_eq_ok.1 h
    exact ⟨_, _, _, rfl, by decide, by decide, by decide, by decide,
      fun start p => Reads.pure fun _ _ => rfl⟩
  | boolean v =>
    obtain rfl := pure_eq_ok.1 h
    have hv : v.toNat < 2 := by cases v <;> decide
    refine ⟨_, _, _, rfl, by decide, by decide, by decide, by omega, fun start p => ?_⟩
    rw [show decode start 0x1f v.toNat = pure (.boolean (v.toNat == 1)) from upTo_bind hv]
    refine Reads.pure fun _ _ => ?_
    cases v <;> rfl
  | methodType r =>
    obtain ⟨n, hn, rfl⟩ := map_eq_ok.1 h
    exact ⟨_, _, _, readsAfterLead_reference .methodType (each_cons.1 hp).1 rfl hn (by decide)
      (fun _ => rfl) fun _ _ hw => upTo_bind hw⟩
  | string r =>
    obtain ⟨n, hn, rfl⟩ := map_eq_ok.1 h
    exact ⟨_, _, _, readsAfterLead_reference .string (each_cons.1 hp).1 rfl hn (by decide)
      (fun _ => rfl) fun _ _ hw => upTo_bind hw⟩
  | type r =>
    obtain ⟨n, hn, rfl⟩ := map_eq_ok.1 h
    exact ⟨_, _, _, readsAfterLead_reference .type (each_cons.1 hp).1 rfl hn (by decide)
      (fun _ => rfl) fun _ _ hw => upTo_bind hw⟩
  | field r =>
    obtain ⟨n, hn, rfl⟩ := map_eq_ok.1 h
    exact ⟨_, _, _, readsAfterLead_reference .field (each_cons.1 hp).1 rfl hn (by decide)
      (fun _ => rfl) fun _ _ hw => upTo_bind hw⟩
  | method r =>
    obtain ⟨n, hn, rfl⟩ := map_eq_ok.1 h
    exact ⟨_, _, _, readsAfterLead_reference .method (each_cons.1 hp).1 rfl hn (by decide)
      (fun _ => rfl) fun _ _ hw => upTo_bind hw⟩
  | enum r =>
    obtain ⟨n, hn, rfl⟩ := map_eq_ok.1 h
    exact ⟨_, _, _, readsAfterLead_reference .enum (each_cons.1 hp).1 rfl hn (by decide)
      (fun _ => rfl) fun _ _ hw => upTo_bind hw⟩

/-! ### Accepting -/

section Yields

variable {accepted : References → Prop} {P : References → α → Prop}

theorem yields_upTo {f : PUnit → Decoder α} {e : Fault} {limit width : Nat}
    (hf : Yields keeps accepted 0 (f ⟨⟩) P) :
    Yields keeps accepted 0 ((if limit < width then throw e else pure ()) >>= f) P := by
  split
  · exact Yields.throw_bind
  · exact hf

theorem yields_number (width : Nat) :
    Yields keeps accepted 0 (readUnsigned width) fun _ _ => True :=
  (Yields.bytes width).bind_tail fun _ _ => Yields.pure fun _ _ => trivial

theorem yields_signed (width : Nat) :
    Yields keeps accepted 0 (readSigned width) fun _ _ => True :=
  (Yields.bytes width).bind_tail fun _ _ => Yields.pure fun _ _ => trivial

theorem yields_reference {width : Nat} (g : Handle k → Scalar) (hk : k.isIndexed = true)
    (hg : ∀ h, (g h).handles = [h.any]) :
    Yields keeps accepted 0 (do return g (← Decoder.index k (← readUnsigned width)))
      fun r x => Each r.Holds x.handles := by
  refine (yields_number width).bind fun n _ => ?_
  refine (Yields.index hk n).bind fun h _ => Yields.pure fun r hr => ?_
  simp [hg, hr.2.2]

end Yields

theorem yields (start valueType argument : Nat) :
    Yields keeps (fun _ => True) 0 (decode start valueType argument)
      fun r x => Each r.Holds x.handles := by
  unfold decode
  split
  · exact yields_upTo ((yields_signed _).bind fun _ _ => Yields.pure fun _ _ => by simp [handles])
  · exact yields_upTo ((yields_signed _).bind fun _ _ => Yields.pure fun _ _ => by simp [handles])
  · exact yields_upTo ((yields_number _).bind fun _ _ => Yields.pure fun _ _ => by simp [handles])
  · exact yields_upTo ((yields_signed _).bind fun _ _ => Yields.pure fun _ _ => by simp [handles])
  · exact (yields_signed _).bind fun _ _ => Yields.pure fun _ _ => by simp [handles]
  · exact yields_upTo ((yields_number _).bind fun _ _ => Yields.pure fun _ _ => by simp [handles])
  · exact (yields_number _).bind fun _ _ => Yields.pure fun _ _ => by simp [handles]
  · exact yields_upTo (yields_reference .methodType rfl fun _ => rfl)
  · exact yields_upTo ((yields_number _).bind fun _ _ => Yields.pure fun _ _ => by simp [handles])
  · exact yields_upTo (yields_reference .string rfl fun _ => rfl)
  · exact yields_upTo (yields_reference .type rfl fun _ => rfl)
  · exact yields_upTo (yields_reference .field rfl fun _ => rfl)
  · exact yields_upTo (yields_reference .method rfl fun _ => rfl)
  · exact yields_upTo (yields_reference .enum rfl fun _ => rfl)
  · exact Yields.pure fun _ _ => by simp [handles]
  · exact yields_upTo (Yields.pure fun _ _ => by simp [handles])
  · exact Yields.throw

end DexContainer.Scalar
