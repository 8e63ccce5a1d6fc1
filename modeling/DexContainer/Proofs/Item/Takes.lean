import DexContainer.Proofs.Content

/-! How many bytes the items of an image take. An image may hold numbers in longer forms than a
writer uses, values in more bytes than they need and padding in any form. Main statement:
`Content.takes`, an item that was read takes at least as many bytes as it is written in when its
handles are written as the numbers that stand in the image. -/

namespace DexContainer

variable {ρ : Renaming} {p : Nat} {k : Kind}

/-! ### Items of fixed width -/

theorem Header.takes : Takes ρ p decode fun _ bs => bs.length = length := by
  refine (Takes.vector 8).bind fun magic bs1 => ?_
  refine (Takes.ofExcept _).bind fun _ bs2 => ?_
  refine Takes.word.bind fun checksum bs3 => ?_
  refine (Takes.vector 20).bind fun signature bs4 => ?_
  refine Takes.word.bind fun fileSize bs5 => ?_
  refine Takes.word.bind fun headerSize bs6 => ?_
  dsimp only
  split
  · exact Takes.throw_bind
  refine Takes.word.bind fun tag bs7 => ?_
  split
  · exact Takes.throw_bind
  refine Takes.word.bind fun linkSize bs8 => ?_
  refine Takes.word.bind fun linkOffset bs9 => ?_
  refine Takes.word.bind fun mapOffset bs10 => ?_
  refine (Takes.bytes _).bind fun _ bs11 => ?_
  refine Takes.word.bind fun dataSize bs12 => ?_
  refine Takes.word.bind fun dataOffset bs13 => Takes.pure ?_
  rintro ⟨-, h13⟩ ⟨-, h12⟩ ⟨-, h11⟩ ⟨-, h10⟩ ⟨-, h9⟩ ⟨-, h8⟩ ⟨-, h7⟩ ⟨-, h6⟩ ⟨-, h5⟩ ⟨-, h4⟩
    ⟨-, h3⟩ ⟨-, h2⟩ ⟨-, h1⟩
  simp only [List.length_append, h1, h2, h3, h4, h5, h6, h7, h8, h9, h10, h11, h12, h13,
    List.length_nil]
  rfl

theorem StringId.takes : Takes ρ p decode fun _ bs => bs.length = 4 := by
  refine Takes.word.bind fun n bs => ?_
  refine (Takes.offset rfl n).bind fun data cs => Takes.pure ?_
  rintro ⟨-, rfl⟩ ⟨-, hbs⟩
  simp [hbs]

theorem TypeId.takes : Takes ρ p decode fun _ bs => bs.length = 4 := by
  refine Takes.word.bind fun n bs => ?_
  refine (Takes.index n).bind fun descriptor cs => Takes.pure ?_
  rintro ⟨-, rfl⟩ ⟨-, hbs⟩
  simp [hbs]

theorem ProtoId.takes : Takes ρ p decode fun _ bs => bs.length = 12 := by
  refine Takes.word.bind fun l bs1 => ?_
  refine (Takes.index l).bind fun shorty bs2 => ?_
  refine Takes.word.bind fun m bs3 => ?_
  refine (Takes.index m).bind fun returnType bs4 => ?_
  refine Takes.word.bind fun n bs5 => ?_
  refine (Takes.optionalOffset rfl n).bind fun parameters bs6 => Takes.pure ?_
  rintro ⟨-, rfl⟩ ⟨-, h5⟩ ⟨-, rfl⟩ ⟨-, h3⟩ ⟨-, rfl⟩ ⟨-, h1⟩
  simp [h1, h3, h5]

theorem FieldId.takes : Takes ρ p decode fun _ bs => bs.length = 8 := by
  refine Takes.half.bind fun l bs1 => ?_
  refine (Takes.index l).bind fun owner bs2 => ?_
  refine Takes.half.bind fun m bs3 => ?_
  refine (Takes.index m).bind fun type bs4 => ?_
  refine Takes.word.bind fun n bs5 => ?_
  refine (Takes.index n).bind fun name bs6 => Takes.pure ?_
  rintro ⟨-, rfl⟩ ⟨-, h5⟩ ⟨-, rfl⟩ ⟨-, h3⟩ ⟨-, rfl⟩ ⟨-, h1⟩
  simp [h1, h3, h5]

theorem MethodId.takes : Takes ρ p decode fun _ bs => bs.length = 8 := by
  refine Takes.half.bind fun l bs1 => ?_
  refine (Takes.index l).bind fun owner bs2 => ?_
  refine Takes.half.bind fun m bs3 => ?_
  refine (Takes.index m).bind fun proto bs4 => ?_
  refine Takes.word.bind fun n bs5 => ?_
  refine (Takes.index n).bind fun name bs6 => Takes.pure ?_
  rintro ⟨-, rfl⟩ ⟨-, h5⟩ ⟨-, rfl⟩ ⟨-, h3⟩ ⟨-, rfl⟩ ⟨-, h1⟩
  simp [h1, h3, h5]

theorem ClassDef.takes : Takes ρ p decode fun _ bs => bs.length = 32 := by
  refine Takes.word.bind fun n1 bs1 => (Takes.index n1).bind fun type cs1 => ?_
  refine Takes.word.bind fun flags bs2 => ?_
  refine Takes.word.bind fun n3 bs3 => (Takes.optionalIndex n3).bind fun superclass cs3 => ?_
  refine Takes.word.bind fun n4 bs4 => (Takes.optionalOffset rfl n4).bind fun interfaces cs4 => ?_
  refine Takes.word.bind fun n5 bs5 => (Takes.optionalIndex n5).bind fun sourceFile cs5 => ?_
  refine Takes.word.bind fun n6 bs6 => (Takes.optionalOffset rfl n6).bind fun annotations cs6 => ?_
  refine Takes.word.bind fun n7 bs7 => (Takes.optionalOffset rfl n7).bind fun classData cs7 => ?_
  refine Takes.word.bind fun n8 bs8 => (Takes.optionalOffset rfl n8).bind fun values cs8 => ?_
  refine Takes.pure ?_
  rintro ⟨-, rfl⟩ ⟨-, h8⟩ ⟨-, rfl⟩ ⟨-, h7⟩ ⟨-, rfl⟩ ⟨-, h6⟩ rfl ⟨-, h5⟩ ⟨-, rfl⟩ ⟨-, h4⟩ rfl ⟨-, h3⟩
    ⟨-, h2⟩ ⟨-, rfl⟩ ⟨-, h1⟩
  simp [*]

/-! ### Lists of items of fixed width -/

theorem MapEntry.takes : Takes ρ p decode fun _ bs => bs.length = length := by
  refine Takes.half.bind fun code bs1 => ?_
  have hrow (kind : Kind) (p : Nat) : Takes ρ p (do
      let _ ← Decoder.half
      let count ← Decoder.word
      let offset ← Decoder.word
      return ({ kind, count, offset } : MapEntry)) fun _ bs => bs.length = 10 := by
    refine Takes.half.bind fun _ bs2 => ?_
    refine Takes.word.bind fun count bs3 => ?_
    refine Takes.word.bind fun offset bs4 => Takes.pure ?_
    rintro ⟨-, h4⟩ ⟨-, h3⟩ ⟨-, h2⟩
    simp [h2, h3, h4]
  dsimp only
  split
  · refine (hrow _ _).mono ?_
    rintro _ bs hbs ⟨-, h1⟩
    rw [List.length_append, h1, hbs]
    rfl
  · exact Takes.throw_bind

theorem MapList.takes : Takes ρ p decode fun x bs => bs.length = x.size := by
  refine Takes.word.bind fun count bs1 => ?_
  refine Takes.remaining.bind fun limit bs2 => ?_
  dsimp only
  split
  · exact Takes.position.bind fun position bs3 => Takes.throw_bind
  · refine (Takes.times_width (fun _ => MapEntry.takes) count).bind fun entries bs3 => Takes.pure ?_
    rintro ⟨rfl, h3⟩ rfl ⟨-, h1⟩
    simp only [size, List.length_append, h1, h3, List.length_nil]
    omega

/-- A list with its length in front of it. -/
theorem Takes.counted {α β : Type} {entry : Decoder α} {width : Nat} (f : List α → β)
    (hentry : ∀ p, Takes ρ p entry fun _ bs => bs.length = width) :
    Takes ρ p (do let count ← Decoder.word; return f (← Decoder.times count entry))
      fun x bs => ∃ xs, x = f xs ∧ bs.length = 4 + width * xs.length := by
  refine Takes.word.bind fun count bs => ?_
  refine (Takes.times_width hentry count).bind fun xs cs => Takes.pure ?_
  rintro ⟨rfl, hcs⟩ ⟨-, hbs⟩
  exact ⟨xs, rfl, by rw [List.append_nil, List.length_append, hbs, hcs]⟩

theorem TypeList.takes : Takes ρ p decode fun x bs => bs.length = x.size := by
  have hentry (p : Nat) : Takes ρ p (do Decoder.index .typeId (← Decoder.half))
      fun _ bs => bs.length = 2 := by
    refine Takes.half.bind fun n bs => (Takes.index n).mono ?_
    rintro _ _ ⟨-, rfl⟩ ⟨-, hbs⟩
    rw [List.append_nil, hbs]
  refine (Takes.counted mk hentry).mono ?_
  rintro _ bs ⟨types, rfl, hbs⟩
  exact hbs

theorem AnnotationSet.takes : Takes ρ p decode fun x bs => bs.length = x.size := by
  have hentry (p : Nat) : Takes ρ p (do Decoder.offset .annotationItem (← Decoder.word))
      fun _ bs => bs.length = 4 := by
    refine Takes.word.bind fun n bs => (Takes.offset rfl n).mono ?_
    rintro _ _ ⟨-, rfl⟩ ⟨-, hbs⟩
    rw [List.append_nil, hbs]
  refine (Takes.counted mk hentry).mono ?_
  rintro _ bs ⟨members, rfl, hbs⟩
  exact hbs

theorem AnnotationSetRefList.takes : Takes ρ p decode fun x bs => bs.length = x.size := by
  have hentry (p : Nat) : Takes ρ p (do Decoder.optionalOffset .annotationSet (← Decoder.word))
      fun _ bs => bs.length = 4 := by
    refine Takes.word.bind fun n bs => (Takes.optionalOffset rfl n).mono ?_
    rintro _ _ ⟨-, rfl⟩ ⟨-, hbs⟩
    rw [List.append_nil, hbs]
  refine (Takes.counted mk hentry).mono ?_
  rintro _ bs ⟨sets, rfl, hbs⟩
  exact hbs

namespace AnnotationsDirectory

theorem takes_row (j : Kind) (hk : k.isIndexed = false) :
    Takes ρ p (decodeRow j k) fun _ bs => bs.length = 8 := by
  refine Takes.word.bind fun m bs => (Takes.index m).bind fun member cs => ?_
  refine Takes.word.bind fun n ds => (Takes.offset hk n).bind fun attached es => Takes.pure ?_
  rintro ⟨-, rfl⟩ ⟨-, hds⟩ ⟨-, rfl⟩ ⟨-, hbs⟩
  simp [hbs, hds]

theorem takes : Takes ρ p decode fun x bs => bs.length = x.size := by
  refine Takes.word.bind fun n bs1 => ?_
  refine (Takes.optionalOffset rfl n).bind fun onClass bs2 => ?_
  refine Takes.word.bind fun fieldCount bs3 => ?_
  refine Takes.word.bind fun methodCount bs4 => ?_
  refine Takes.word.bind fun parameterCount bs5 => ?_
  refine (Takes.times_width (fun _ => takes_row _ rfl) _).bind fun fields bs6 => ?_
  refine (Takes.times_width (fun _ => takes_row _ rfl) _).bind fun methods bs7 => ?_
  refine (Takes.times_width (fun _ => takes_row _ rfl) _).bind fun parameters bs8 => Takes.pure ?_
  rintro ⟨rfl, h8⟩ ⟨rfl, h7⟩ ⟨rfl, h6⟩ ⟨-, h5⟩ ⟨-, h4⟩ ⟨-, h3⟩ ⟨-, rfl⟩ ⟨-, h1⟩
  simp only [size, List.length_append, h1, h3, h4, h5, h6, h7, h8, List.length_nil]
  omega

end AnnotationsDirectory

/-! ### Values -/

namespace Scalar

section Takes

variable {α : Type} {P : α → Bytes → Prop} {width : Nat}

theorem takes_upTo {f : PUnit → Decoder α} {e : Fault} {limit : Nat}
    (hf : width ≤ limit → Takes ρ p (f ⟨⟩) P) :
    Takes ρ p ((if limit < width then throw e else pure ()) >>= f) P := by
  split
  · exact Takes.throw_bind
  · rename_i hle
    exact hf (Nat.le_of_not_lt hle)

theorem takes_unsigned (width : Nat) :
    Takes ρ p (readUnsigned width) fun n bs => n < 256 ^ width ∧ bs.length = width :=
  (Takes.bytes width).bind fun x bs => Takes.pure fun h => by
    obtain ⟨rfl, rfl⟩ := h
    exact ⟨Word.ofBytes_lt bs, by rw [List.append_nil]⟩

theorem takes_signed (hwidth : 1 ≤ width) :
    Takes ρ p (readSigned width) fun v bs => fitsSigned v width = true ∧ bs.length = width := by
  refine (Takes.bytes width).bind fun x bs => Takes.pure ?_
  rintro ⟨-, hlen⟩
  exact ⟨fitsSigned_bmod _ hwidth, by rw [List.append_nil, hlen]⟩

/-- A number that takes no more bytes than were read is written behind a byte of its own. -/
theorem takes_number {R : α → Prop} {d : Decoder α} (lead : UInt8) (g : α → Scalar)
    (hd : Takes ρ p d fun v bs => R v ∧ bs.length = width)
    (hg : ∀ v, R v → ∃ n, (g v).size .numbers = .ok n ∧ n ≤ 1 + width) :
    Takes ρ p (do return g (← d)) fun x bs => (x.size .numbers).FitsIn (lead :: bs) := by
  refine hd.bind fun v bs => Takes.pure ?_
  rintro ⟨hv, rfl⟩
  obtain ⟨n, hn, hle⟩ := hg v hv
  exact ⟨n, hn, by simp; omega⟩

theorem takes_reference (lead : UInt8) (g : Handle k → Scalar)
    (hg : ∀ h, (g h).size .numbers = .ok (1 + unsignedWidth h.id)) (h1 : 1 ≤ width)
    (h8 : width ≤ 8) : Takes ρ p (do return g (← Decoder.index k (← readUnsigned width)))
      fun x bs => (x.size .numbers).FitsIn (lead :: bs) := by
  have hd : Takes ρ p (do Decoder.index k (← readUnsigned width))
      fun h bs => h.id < 256 ^ width ∧ bs.length = width := by
    refine (takes_unsigned width).bind fun n bs => (Takes.index n).mono ?_
    rintro _ _ ⟨rfl, rfl⟩ ⟨hn, hbs⟩
    exact ⟨hn, by rw [List.append_nil, hbs]⟩
  have hnumber := takes_number lead g hd fun h hh =>
    ⟨_, hg h, Nat.add_le_add_left (unsignedWidth_le hh h1 h8) 1⟩
  rwa [bind_assoc] at hnumber

theorem mul_pow_lt {n total : Nat} (hn : n < 256 ^ width) (hle : width ≤ total) :
    256 ^ (total - width) * n < 256 ^ total := by
  have hpow : 256 ^ (total - width) * 256 ^ width = 256 ^ total := by
    rw [← Nat.pow_add, Nat.sub_add_cancel hle]
  rw [← hpow]
  exact Nat.mul_lt_mul_of_pos_left hn (Nat.pow_pos (by decide))

theorem range_of_fitsSigned {v : Int} {limit : Nat} (hv : fitsSigned v width = true)
    (hle : width ≤ limit) : -2 ^ (8 * limit - 1) ≤ v ∧ v < 2 ^ (8 * limit - 1) :=
  of_decide_eq_true (fitsSigned_mono hv hle)

end Takes

/-- A value takes no fewer bytes than it is written in, its first byte among them. -/
theorem takes (lead : UInt8) {start valueType argument : Nat} (ha : argument < 8) :
    Takes ρ p (decode start valueType argument)
      fun x bs => (x.size .numbers).FitsIn (lead :: bs) := by
  have h1 : 1 ≤ argument + 1 := Nat.succ_pos _
  have h8 : argument + 1 ≤ 8 := ha
  have hlt {n limit : Nat} (hn : n < 256 ^ (argument + 1)) (hle : argument + 1 ≤ limit) :
      n < 256 ^ limit := Nat.lt_of_lt_of_le hn (Nat.pow_le_pow_right (by decide) hle)
  have hsigned {v : Int} (hv : fitsSigned v (argument + 1) = true) :
      1 + signedWidth v ≤ 1 + (argument + 1) := Nat.add_le_add_left (signedWidth_le hv h1 h8) 1
  have hunsigned {n : Nat} (hn : n < 256 ^ (argument + 1)) :
      1 + unsignedWidth n ≤ 1 + (argument + 1) := Nat.add_le_add_left (unsignedWidth_le hn h1 h8) 1
  unfold decode
  split
  · exact takes_upTo fun _ => takes_number lead _ (takes_signed h1) fun v _ => ⟨2, rfl, by omega⟩
  · refine takes_upTo fun hle => takes_number lead _ (takes_signed h1) fun v hv => ⟨_, rfl, ?_⟩
    obtain ⟨hmin, hmax⟩ := range_of_fitsSigned hv hle
    rw [Int16.toInt_ofInt_of_le hmin hmax]
    exact hsigned hv
  · refine takes_upTo fun hle => takes_number lead _ (takes_unsigned _) fun n hn => ⟨_, rfl, ?_⟩
    rw [UInt16.toNat_ofNat_of_lt' (hlt hn hle)]
    exact hunsigned hn
  · refine takes_upTo fun hle => takes_number lead _ (takes_signed h1) fun v hv => ⟨_, rfl, ?_⟩
    obtain ⟨hmin, hmax⟩ := range_of_fitsSigned hv hle
    rw [Int32.toInt_ofInt_of_le hmin hmax]
    exact hsigned hv
  · refine takes_number lead _ (takes_signed h1) fun v hv => ⟨_, rfl, ?_⟩
    obtain ⟨hmin, hmax⟩ := range_of_fitsSigned hv h8
    rw [Int64.toInt_ofInt_of_le hmin hmax]
    exact hsigned hv
  · refine takes_upTo fun hle => takes_number lead _ (takes_unsigned _) fun n hn => ⟨_, rfl, ?_⟩
    rw [UInt32.toNat_ofNat_of_lt' (mul_pow_lt hn hle)]
    exact Nat.add_le_add_left (rightZeroWidth_le h1 (Nat.dvd_mul_right ..)) 1
  · refine takes_number lead _ (takes_unsigned _) fun n hn => ⟨_, rfl, ?_⟩
    rw [UInt64.toNat_ofNat_of_lt' (mul_pow_lt hn h8)]
    exact Nat.add_le_add_left (rightZeroWidth_le h1 (Nat.dvd_mul_right ..)) 1
  · exact takes_upTo fun _ => takes_reference lead .methodType (fun _ => rfl) h1 h8
  · refine takes_upTo fun hle => takes_number lead _ (takes_unsigned _) fun n hn => ⟨_, rfl, ?_⟩
    rw [UInt32.toNat_ofNat_of_lt' (hlt hn hle)]
    exact hunsigned hn
  · exact takes_upTo fun _ => takes_reference lead .string (fun _ => rfl) h1 h8
  · exact takes_upTo fun _ => takes_reference lead .type (fun _ => rfl) h1 h8
  · exact takes_upTo fun _ => takes_reference lead .field (fun _ => rfl) h1 h8
  · exact takes_upTo fun _ => takes_reference lead .method (fun _ => rfl) h1 h8
  · exact takes_upTo fun _ => takes_reference lead .enum (fun _ => rfl) h1 h8
  · exact Takes.pure ⟨1, rfl, by simp⟩
  · exact takes_upTo fun _ => Takes.pure ⟨1, rfl, by simp⟩
  · exact Takes.throw

end Scalar

namespace Value

variable {value : Decoder Value}

theorem takes_all (hv : ∀ p, Takes ρ p value fun v bs => (v.size .numbers).FitsIn bs) :
    Takes ρ p (decodeAll value) fun vs bs => ∃ n, sizeOfAll (size .numbers) vs = .ok n ∧
      Leb128.unsignedSize vs.length + n ≤ bs.length := by
  refine Takes.unsigned.bind fun count bs => (Takes.times_sizeOfAll hv count).mono ?_
  rintro vs cs ⟨rfl, n, hn, hle⟩ ⟨-, hcount⟩
  exact ⟨n, hn, by rw [List.length_append]; omega⟩

theorem takes_element (hv : ∀ p, Takes ρ p value fun v bs => (v.size .numbers).FitsIn bs) :
    Takes ρ p (decodeElement value) fun e bs => (sizeElement .numbers e).FitsIn bs := by
  refine Takes.unsigned.bind fun n bs => (Takes.index n).bind fun name cs => ?_
  refine (hv _).bind fun v ds => Takes.pure ?_
  rintro ⟨m, hm, hle⟩ ⟨rfl, rfl⟩ ⟨-, hn⟩
  refine ⟨Leb128.unsignedSize n + m, ?_, ?_⟩
  · simp only [sizeElement, hm]
    rfl
  · simp only [List.length_append, List.length_nil]
    omega

end Value

theorem AnnotationBody.takes_of {value : Decoder Value}
    (hv : ∀ p, Takes ρ p value fun v bs => (v.size .numbers).FitsIn bs) :
    Takes ρ p (decodeWith value) fun a bs => (a.size .numbers).FitsIn bs := by
  rw [decodeWith_eq]
  refine Takes.unsigned.bind fun n bs => (Takes.index n).bind fun type cs => ?_
  refine Takes.unsigned.bind fun count ds => ?_
  refine (Takes.times_sizeOfAll (fun _ => Value.takes_element hv) count).bind fun es fs =>
    Takes.pure ?_
  rintro ⟨rfl, m, hm, hle⟩ ⟨-, hcount⟩ ⟨rfl, rfl⟩ ⟨-, hn⟩
  refine ⟨Leb128.unsignedSize n + Leb128.unsignedSize es.length + m, ?_, ?_⟩
  · rw [size_eq, hm]
    rfl
  · simp only [List.length_append, List.length_nil]
    omega

theorem Value.takes (limit : Nat) :
    Takes ρ p (decodeWithin limit) fun v bs => (v.size .numbers).FitsIn bs := by
  induction limit generalizing p with
  | zero => exact Takes.position.bind fun _ _ => Takes.throw
  | succ limit ih =>
    rw [decodeWithin_succ]
    refine Takes.position.bind fun start bs => Takes.byte.bind fun lead cs => ?_
    rw [decodeAfterLead]
    split
    · refine (takes_all fun _ => ih).bind fun vs ds => Takes.pure ?_
      rintro ⟨n, hn, hle⟩ rfl ⟨-, rfl⟩
      refine ⟨1 + (Leb128.unsignedSize vs.length + n), by rw [size_array, hn]; rfl, ?_⟩
      simp only [List.length_append, List.length_cons, List.length_nil]
      omega
    · refine (AnnotationBody.takes_of fun _ => ih).bind fun a ds => Takes.pure ?_
      rintro ⟨n, hn, hle⟩ rfl ⟨-, rfl⟩
      refine ⟨1 + n, by rw [size_annotated, hn]; rfl, ?_⟩
      simp only [List.length_append, List.length_cons, List.length_nil]
      omega
    · have hargument : lead.toNat / 32 < 8 := by
        have := lead.toNat_lt
        omega
      refine (Scalar.takes lead hargument).bind fun x ds => Takes.pure ?_
      rintro hx rfl ⟨-, rfl⟩
      rw [List.append_nil]
      exact hx

theorem EncodedArray.takes :
    Takes ρ p decode fun x bs => (x.size .numbers).FitsIn bs := by
  refine (Value.takes_all fun _ => Value.takes _).bind fun vs bs => Takes.pure ?_
  rintro ⟨n, hn, hle⟩
  refine ⟨Leb128.unsignedSize vs.length + n, ?_, by simpa using hle⟩
  rw [size, Value.sizeAll_eq, hn]
  rfl

theorem AnnotationItem.takes :
    Takes ρ p decode fun x bs => (x.size .numbers).FitsIn bs := by
  refine Takes.byte.bind fun visibility bs => ?_
  refine (AnnotationBody.takes_of fun _ => Value.takes _).bind fun body cs => Takes.pure ?_
  rintro ⟨n, hn, hle⟩ rfl
  refine ⟨1 + n, ?_, by simp; omega⟩
  rw [size, hn]
  rfl

/-! ### Debug information -/

theorem Register.takes : Takes ρ p decode fun r bs => r.size ≤ bs.length := by
  refine Takes.unsignedWithLength.bind fun x bs => ?_
  obtain ⟨n, length⟩ := x
  refine Takes.keepsSigned.bind fun keeps cs => Takes.pure ?_
  rintro rfl ⟨hlt, rfl, hle⟩
  have hvalue : (UInt32.ofNat n).toNat = n := UInt32.toNat_ofNat_of_lt hlt
  rw [List.append_nil, List.append_nil, size]
  split
  · rename_i hsigned
    simp only [Bool.and_eq_true, beq_iff_eq] at hsigned
    exact Nat.le_of_eq hsigned.2.symm
  · simpa only [hvalue] using hle

namespace DebugOp

theorem takes_reference (k : Kind) : Takes ρ p (decodeReference k) fun o bs =>
    (sizeOfReference .numbers o).FitsIn bs := by
  refine Takes.plusOne.bind fun m bs => (Takes.indexOfOption m).mono ?_
  rintro _ _ ⟨rfl, rfl⟩ hle
  refine ⟨Leb128.plusOneSize m, ?_, by rwa [List.append_nil]⟩
  cases m <;> rfl

theorem takes (opcode : UInt8) :
    Takes ρ p (decode opcode) fun x bs => (x.size .numbers).FitsIn (opcode :: bs) := by
  rw [decode]
  split
  · refine Takes.unsigned.bind fun n bs => Takes.pure ?_
    rintro ⟨hlt, hle⟩
    refine ⟨_, rfl, ?_⟩
    rw [UInt32.toNat_ofNat_of_lt' hlt, List.append_nil, List.length_cons]
    omega
  · refine Takes.signed.bind fun v bs => Takes.pure ?_
    rintro ⟨⟨hmin, hmax⟩, hle⟩
    refine ⟨_, rfl, ?_⟩
    rw [Int32.toInt_ofInt_of_le hmin hmax, List.append_nil, List.length_cons]
    omega
  · refine Register.takes.bind fun register bs => ?_
    refine (takes_reference _).bind fun name cs => (takes_reference _).bind fun type ds => ?_
    refine Takes.pure ?_
    rintro ⟨n, hn, hle⟩ ⟨m, hm, hle'⟩ hregister
    refine ⟨1 + (register.size + m + n), by rw [size, hm, hn]; rfl, ?_⟩
    simp only [List.length_append, List.length_cons, List.length_nil]
    omega
  · refine Register.takes.bind fun register bs => ?_
    refine (takes_reference _).bind fun name cs => (takes_reference _).bind fun type ds => ?_
    refine (takes_reference _).bind fun signature es => Takes.pure ?_
    rintro ⟨l, hl, hle⟩ ⟨n, hn, hle'⟩ ⟨m, hm, hle''⟩ hregister
    refine ⟨1 + (register.size + m + n + l), by rw [size, hm, hn, hl]; rfl, ?_⟩
    simp only [List.length_append, List.length_cons, List.length_nil]
    omega
  · refine Register.takes.bind fun register bs => Takes.pure fun hregister => ?_
    refine ⟨_, rfl, ?_⟩
    rw [List.append_nil, List.length_cons]
    omega
  · refine Register.takes.bind fun register bs => Takes.pure fun hregister => ?_
    refine ⟨_, rfl, ?_⟩
    rw [List.append_nil, List.length_cons]
    omega
  · exact Takes.pure ⟨1, rfl, by simp⟩
  · exact Takes.pure ⟨1, rfl, by simp⟩
  · refine (takes_reference _).bind fun name bs => Takes.pure ?_
    rintro ⟨n, hn, hle⟩
    refine ⟨1 + n, by rw [size, hn]; rfl, ?_⟩
    rw [List.append_nil, List.length_cons]
    omega
  · exact Takes.pure ⟨1, rfl, by simp⟩

end DebugOp

namespace DebugInfo

theorem takes_ops (limit : Nat) (read : List DebugOp) :
    Takes ρ p (opsOnto limit read) fun ops bs => ∃ os, ops = read.reverse ++ os ∧
      ∃ n, sizeOfAll (DebugOp.size .numbers) os = .ok n ∧ n + 1 ≤ bs.length := by
  induction limit generalizing p read with
  | zero => exact Takes.position.bind fun _ _ => Takes.throw
  | succ limit ih =>
    rw [opsOnto]
    refine Takes.byte.bind fun opcode bs => ?_
    split
    · exact Takes.pure fun h => ⟨[], by simp, 0, rfl, by simp [h]⟩
    · refine (DebugOp.takes opcode).bind fun op cs => (ih (op :: read)).mono ?_
      rintro _ ds ⟨os, rfl, n, hn, hle⟩ ⟨m, hm, hle'⟩ rfl
      refine ⟨op :: os, by simp, m + n, by rw [sizeOfAll_cons, hm, hn]; rfl, ?_⟩
      simp only [List.length_append, List.length_cons, List.length_nil] at hle' ⊢
      omega

theorem takes : Takes ρ p decode fun x bs => (x.size .numbers).FitsIn bs := by
  refine Takes.unsigned.bind fun lineStart bs => Takes.unsigned.bind fun count cs => ?_
  refine (Takes.times_sizeOfAll (fun _ => DebugOp.takes_reference _) count).bind fun names ds => ?_
  refine Takes.remaining.bind fun limit es => (takes_ops limit []).bind fun ops fs => ?_
  refine Takes.pure ?_
  rintro ⟨os, hos, n, hn, hle⟩ rfl ⟨rfl, m, hm, hle'⟩ ⟨-, hcount⟩ ⟨hlt, hline⟩
  obtain rfl : ops = os := hos
  refine ⟨Leb128.unsignedSize lineStart + Leb128.unsignedSize names.length + m + n + 1, ?_, ?_⟩
  · rw [size, hm, hn, UInt32.toNat_ofNat_of_lt' hlt]
    rfl
  · simp only [List.length_append, List.length_nil]
    omega

end DebugInfo

/-! ### Strings -/

namespace StringData

theorem takes_dataOnto (failure : Fault) (limit : Nat) (read : Bytes) :
    Takes ρ p (dataOnto failure limit read) fun data bs =>
      data.length + 1 = read.length + bs.length := by
  induction limit generalizing p read with
  | zero => exact Takes.throw
  | succ limit ih =>
    rw [dataOnto]
    refine Takes.byte.bind fun b bs => ?_
    split
    · exact Takes.pure fun h => by simp [h]
    · refine (ih (b :: read)).mono fun data cs hdata h => ?_
      rw [hdata, h]
      simp
      omega

/-- The length of a string has a 32-bit field. -/
theorem takes : Takes ρ p decode fun x bs => x.utf16Length < 2 ^ 32 ∧ x.size ≤ bs.length := by
  refine Takes.position.bind fun start bs => Takes.unsigned.bind fun length cs => ?_
  refine Takes.remaining.bind fun limit ds => (takes_dataOnto _ limit []).bind fun data es => ?_
  dsimp only
  split
  · exact Takes.throw_bind
  · refine Takes.pure ?_
    rintro hdata rfl ⟨hlt, hlength⟩ ⟨-, rfl⟩
    refine ⟨hlt, ?_⟩
    rw [size]
    simp only [List.length_append, List.length_nil] at hdata ⊢
    omega

end StringData

/-! ### Class data -/

namespace ClassData

theorem difference_add {n : Nat} (previous : Nat) (h : n < 2 ^ 32) :
    difference ((previous + n) % 2 ^ 32) previous = n := by
  rw [difference]
  omega

theorem takes_fields (count previous : Nat) (read : List EncodedField) :
    Takes ρ p (fieldsOnto count previous read) fun fs bs => ∃ gs, fs = read.reverse ++ gs ∧
      gs.length = count ∧ (sizeOfFields .numbers previous gs).FitsIn bs := by
  induction count generalizing p previous read with
  | zero => exact Takes.pure ⟨[], by simp, rfl, 0, rfl, Nat.le_refl 0⟩
  | succ count ih =>
    rw [fieldsOnto]
    refine Takes.unsigned.bind fun n bs => ?_
    refine (Takes.index _).bind fun field cs => Takes.unsigned.bind fun flags ds => ?_
    refine (ih _ _).mono ?_
    rintro _ es ⟨gs, rfl, hlen, m, hm, hle⟩ ⟨hlt, hflags⟩ ⟨rfl, rfl⟩ ⟨hlt', hn⟩
    refine ⟨⟨⟨(previous + n) % 2 ^ 32⟩, UInt32.ofNat flags⟩ :: gs, by simp, by simp [hlen],
      Leb128.unsignedSize n + Leb128.unsignedSize flags + m, ?_, ?_⟩
    · simp only [sizeOfFields, Places.position_numbers, ok_bind, hm, difference_add previous hlt',
        UInt32.toNat_ofNat_of_lt' hlt]
      rfl
    · simp only [List.length_append, List.length_nil]
      omega

/-- The number of a method body is the offset that stands in the image. -/
theorem takes_methods (hρ : ∀ h : Handle .code, ρ .code h = h) (count previous : Nat)
    (read : List EncodedMethod) :
    Takes ρ p (methodsOnto count previous read) fun ms bs => ∃ ns, ms = read.reverse ++ ns ∧
      ns.length = count ∧ (sizeOfMethods .numbers previous ns).FitsIn bs := by
  induction count generalizing p previous read with
  | zero => exact Takes.pure ⟨[], by simp, rfl, 0, rfl, Nat.le_refl 0⟩
  | succ count ih =>
    rw [methodsOnto]
    refine Takes.unsigned.bind fun n bs => Takes.unsigned.bind fun flags cs => ?_
    refine Takes.unsigned.bind fun offset ds => ?_
    refine (Takes.optionalOffset rfl offset).bind fun code es => ?_
    refine (Takes.index _).bind fun method fs => (ih _ _).mono ?_
    rintro _ gs ⟨ns, rfl, hlen, m, hm, hle⟩ ⟨rfl, rfl⟩ ⟨rfl, rfl⟩ ⟨-, hoffset⟩ ⟨hlt, hflags⟩
      ⟨hlt', hn⟩
    have hcode : codeSize .numbers (if offset = 0 then none else some (ρ .code ⟨offset⟩)) =
        Leb128.unsignedSize offset := by
      split
      · rename_i hzero
        rw [hzero, Leb128.unsignedSize_of_lt (by decide)]
        rfl
      · rw [hρ]
        rfl
    refine ⟨⟨⟨(previous + n) % 2 ^ 32⟩, UInt32.ofNat flags,
      if offset = 0 then none else some (ρ .code ⟨offset⟩)⟩ :: ns, by simp, by simp [hlen],
      Leb128.unsignedSize n + Leb128.unsignedSize flags + Leb128.unsignedSize offset + m, ?_, ?_⟩
    · simp only [sizeOfMethods, Places.position_numbers, ok_bind, hm, difference_add previous hlt',
        UInt32.toNat_ofNat_of_lt' hlt, hcode]
      rfl
    · simp only [List.length_append, List.length_nil]
      omega

theorem takes (hρ : ∀ h : Handle .code, ρ .code h = h) :
    Takes ρ p decode fun x bs => (x.size .numbers).FitsIn bs := by
  refine Takes.unsigned.bind fun n1 bs1 => Takes.unsigned.bind fun n2 bs2 => ?_
  refine Takes.unsigned.bind fun n3 bs3 => Takes.unsigned.bind fun n4 bs4 => ?_
  refine (takes_fields n1 0 []).bind fun staticFields cs1 => ?_
  refine (takes_fields n2 0 []).bind fun instanceFields cs2 => ?_
  refine (takes_methods hρ n3 0 []).bind fun directMethods cs3 => ?_
  refine (takes_methods hρ n4 0 []).bind fun virtualMethods cs4 => Takes.pure ?_
  rintro ⟨ms4, h4, rfl, m4, hm4, hle4⟩ ⟨ms3, h3, rfl, m3, hm3, hle3⟩ ⟨fs2, h2, rfl, m2, hm2, hle2⟩
    ⟨fs1, h1, rfl, m1, hm1, hle1⟩ ⟨-, hn4⟩ ⟨-, hn3⟩ ⟨-, hn2⟩ ⟨-, hn1⟩
  obtain rfl : virtualMethods = ms4 := h4
  obtain rfl : directMethods = ms3 := h3
  obtain rfl : instanceFields = fs2 := h2
  obtain rfl : staticFields = fs1 := h1
  refine ⟨_, by simp only [size, hm1, hm2, hm3, hm4, ok_bind]; rfl, ?_⟩
  simp only [List.length_append, List.length_nil]
  omega

end ClassData

/-! ### Items of every kind -/

/-- An item that was read is written in no more bytes when its handles are written as the numbers
that stand in the image. -/
theorem Content.takes (hρ : k = .classData → ∀ h : Handle .code, ρ .code h = h) :
    Takes ρ p (decode k) fun x bs => (size .numbers k x).FitsIn bs := by
  cases k with
  | header => exact Header.takes.mono fun _ _ => fitsIn_of_length
  | stringId => exact StringId.takes.mono fun _ _ => fitsIn_of_length
  | typeId => exact TypeId.takes.mono fun _ _ => fitsIn_of_length
  | protoId => exact ProtoId.takes.mono fun _ _ => fitsIn_of_length
  | fieldId => exact FieldId.takes.mono fun _ _ => fitsIn_of_length
  | methodId => exact MethodId.takes.mono fun _ _ => fitsIn_of_length
  | classDef => exact ClassDef.takes.mono fun _ _ => fitsIn_of_length
  | mapList => exact MapList.takes.mono fun _ _ => fitsIn_of_length
  | typeList => exact TypeList.takes.mono fun _ _ => fitsIn_of_length
  | annotationSetRefList => exact AnnotationSetRefList.takes.mono fun _ _ => fitsIn_of_length
  | annotationSet => exact AnnotationSet.takes.mono fun _ _ => fitsIn_of_length
  | annotationsDirectory => exact AnnotationsDirectory.takes.mono fun _ _ => fitsIn_of_length
  | stringData => exact StringData.takes.mono fun _ _ h => ⟨_, rfl, h.2⟩
  | classData => exact ClassData.takes (hρ rfl)
  | code => exact Code.takes.mono fun _ _ => And.left
  | debugInfo => exact DebugInfo.takes
  | annotationItem => exact AnnotationItem.takes
  | encodedArray => exact EncodedArray.takes

end DexContainer
