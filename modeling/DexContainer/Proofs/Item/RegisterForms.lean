import DexContainer.Proofs.Item.Register
import DexContainer.Proofs.ShortestForms

/-! The forms in which a register is found. An image holds a register in the shortest unsigned form
or, if an older writer made it, in the signed one, and it is read as an unsigned number either way;
the number of its bytes tells which form it was. Main statement: `keeps_form`, a register that was
read from one of the two forms is written in that form, and one that was read from another number of
bytes than either has is written in the shortest. -/

namespace DexContainer.Register

variable {v : UInt32} {s t : Source} {bs tail : Bytes} {keeps : Bool} {length : Nat}

/-- The bytes are a form of the value: the shortest unsigned one or, for a value that is not
negative as a signed word, the signed one. -/
def IsForm (v : UInt32) (bs : Bytes) : Prop :=
  bs = Leb128.unsigned v.toNat ∨ v.toNat < 2 ^ 31 ∧ bs = Leb128.signed v.toNat

/-- Either form is read as the value, together with the length of the form. -/
theorem unsignedWithLength_of_isForm (h : IsForm v bs) (hs : s.rest = bs ++ tail) :
    Decoder.unsignedWithLength s = .ok (v.toNat, bs.length) (s.advance bs.length) := by
  obtain rfl | ⟨hv, rfl⟩ := h
  · rw [Leb128.length_unsigned]
    exact Decoder.unsignedWithLength_of_rest v.toNat_lt hs
  · rw [Leb128.length_signed]
    exact Decoder.unsignedWithLength_of_rest_signed hv hs

/-- The register that a value and the number of its bytes tell. -/
def found (keeps : Bool) (v : UInt32) (length : Nat) : Register where
  value := v
  isSigned := keeps && decide (Leb128.unsignedSize v.toNat < length) &&
    length == Leb128.signedSize v.toInt32.toInt

theorem decode_of_number (h : Decoder.unsignedWithLength s = .ok (v.toNat, length) t) :
    decode s = .ok (found t.keepsSigned v length) t := by
  rw [decode, Decoder.bind_of_ok h]
  simp only [UInt32.ofNat_toNat]
  rw [Decoder.bind_of_ok (show Decoder.keepsSigned t = .ok t.keepsSigned t from rfl)]
  rfl

/-- Whatever is accepted as a register is a number of at most a word. -/
theorem exists_number_of_decode {r : Register} (h : decode s = .ok r t) : ∃ length,
    Decoder.unsignedWithLength s = .ok (r.value.toNat, length) t ∧
      r = found t.keepsSigned r.value length := by
  obtain ⟨⟨n, length⟩, u, hn, h⟩ := Decoder.exists_of_bind h
  obtain ⟨keeps, u', hkeeps, h⟩ := Decoder.exists_of_bind h
  obtain ⟨-, -, -, hlt, -⟩ := Takes.exists_bytes (fun _ _ => Takes.unsignedWithLength) hn
  have hvalue : (UInt32.ofNat n).toNat = n := UInt32.toNat_ofNat_of_lt hlt
  cases hkeeps
  cases h
  refine ⟨length, by rwa [hvalue], ?_⟩
  simp only [found, hvalue]
  rfl

theorem isSigned_found : (found keeps v length).isSigned = true ↔
    keeps = true ∧ Leb128.unsignedSize v.toNat < length ∧
      length = Leb128.signedSize v.toInt32.toInt := by
  simp [found, and_assoc]

theorem found_of_not_isSigned (h : ¬(found keeps v length).isSigned = true) :
    found keeps v length = { value := v } :=
  congrArg (Register.mk v) (Bool.eq_false_iff.2 h)

theorem toInt_toInt32 (hv : v.toNat < 2 ^ 31) : v.toInt32.toInt = v.toNat :=
  signedValue_eq (r := { value := v }) hv

/-- A form that is longer than the shortest is the signed one, and that one has the mark. -/
theorem isSigned_found_of_isForm (h : IsForm v bs) :
    (found true v bs.length).isSigned = true ↔
      bs = Leb128.signed v.toInt32.toInt ∧ Leb128.unsignedSize v.toNat < bs.length := by
  rw [isSigned_found]
  obtain rfl | ⟨hv, rfl⟩ := h
  · rw [Leb128.length_unsigned]
    constructor
    · rintro ⟨-, hlt, -⟩
      exact absurd hlt (Nat.lt_irrefl _)
    · rintro ⟨-, hlt⟩
      exact absurd hlt (Nat.lt_irrefl _)
  · rw [toInt_toInt32 hv, Leb128.length_signed]
    simp

/-- A form is written again as it was found. -/
theorem write_found_of_isForm (h : IsForm v bs) : (found true v bs.length).write = bs := by
  by_cases hsigned : (found true v bs.length).isSigned = true
  · rw [write, if_pos hsigned]
    exact ((isSigned_found_of_isForm h).1 hsigned).1.symm
  · rw [write, if_neg hsigned]
    obtain rfl | ⟨hv, rfl⟩ := h
    · rfl
    · refine (Leb128.signed_eq_unsigned ?_).symm
      by_contra hlt
      rw [Leb128.length_unsigned] at hlt
      refine hsigned ((isSigned_found_of_isForm (.inr ⟨hv, rfl⟩)).2 ⟨?_, Nat.lt_of_not_le hlt⟩)
      rw [toInt_toInt32 hv]

/-- A register that is found in one of its two forms is read as its value, and while such forms are
kept it is written and measured as it was found, with the mark of the signed form exactly where that
is the longer one; while they are not kept it is an unsigned register. A register that is found in
any other number of bytes than the signed form has is written in the shortest form. -/
theorem keeps_form (v : UInt32) (s : Source) :
    (∀ bs tail, IsForm v bs → s.rest = bs ++ tail → ∃ r,
      decode s = .ok r (s.advance bs.length) ∧ r.value = v ∧
      (s.keepsSigned = true → r.write = bs ∧ r.size = bs.length ∧
        (r.isSigned = true ↔
          bs = Leb128.signed v.toInt32.toInt ∧ Leb128.unsignedSize v.toNat < bs.length)) ∧
      (s.keepsSigned = false → r = { value := v })) ∧
    ∀ r t, decode s = .ok r t → r.value = v → ∃ bs, s.rest = bs ++ t.rest ∧
      t.position = s.position + bs.length ∧ Leb128.unsignedSize v.toNat ≤ bs.length ∧
      (bs.length ≠ Leb128.signedSize v.toInt32.toInt →
        r = { value := v } ∧ r.write = Leb128.unsigned v.toNat) := by
  constructor
  · intro bs tail hform hs
    have hread := decode_of_number (unsignedWithLength_of_isForm hform hs)
    refine ⟨_, hread, rfl, fun hkeeps => ?_, fun hkeeps => ?_⟩
    · have hkeeps : (s.advance bs.length).keepsSigned = true := hkeeps
      rw [hkeeps, ← length_write, write_found_of_isForm hform]
      exact ⟨rfl, rfl, isSigned_found_of_isForm hform⟩
    · refine found_of_not_isSigned fun hsigned => ?_
      cases hkeeps.symm.trans (isSigned_found.1 hsigned).1
  · rintro r t h rfl
    obtain ⟨length, hnumber, hr⟩ := exists_number_of_decode h
    obtain ⟨bs, hrest, hposition, -, hlength, hle⟩ :=
      Takes.exists_bytes (fun _ _ => Takes.unsignedWithLength) hnumber
    obtain rfl : length = bs.length := hlength
    refine ⟨bs, hrest, hposition, hle, fun hne => ?_⟩
    have hplain : r = { value := r.value } := by
      rw [hr]
      exact found_of_not_isSigned fun hsigned => hne (isSigned_found.1 hsigned).2.2
    refine ⟨hplain, ?_⟩
    rw [hplain]
    rfl

/-- Register 64 is found in the signed form, which takes a byte more than the other, and register 5
in three bytes, which are those of neither form. -/
theorem keeps_form_signed :
    (∃ r t, decode { image := #[0xc0, 0x00] } = .ok r t ∧ r.value = 64 ∧
      r.write = [0xc0, 0x00] ∧ r.size = 2 ∧ r.isSigned = true) ∧
    (∃ t, decode { image := #[0xc0, 0x00], keepsSigned := false } = .ok { value := 64 } t) ∧
    ∃ r t, decode { image := #[0x85, 0x80, 0x00] } = .ok r t ∧ r.value = 5 ∧ r.write = [0x05] := by
  have hsixtyFour : Leb128.signed (64 : UInt32).toNat = [0xc0, 0x00] := by
    rw [Leb128.signed_natCast_of_le (by decide),
      Leb128.signed_natCast_of_lt (n := (64 : UInt32).toNat / 128) (by decide)]
    rfl
  have hform : IsForm 64 [0xc0, 0x00] := .inr ⟨by decide, hsixtyFour.symm⟩
  obtain ⟨hkept, -⟩ := keeps_form 64 { image := #[0xc0, 0x00] }
  obtain ⟨r, hr, hvalue, hkeeps, -⟩ := hkept [0xc0, 0x00] [] hform rfl
  obtain ⟨hwrite, hsize, hsigned⟩ := hkeeps rfl
  obtain ⟨hplain, -⟩ := keeps_form 64 { image := #[0xc0, 0x00], keepsSigned := false }
  obtain ⟨r', hr', -, -, hdrops⟩ := hplain [0xc0, 0x00] [] hform rfl
  have hnumber : Decoder.unsignedWithLength { image := #[0x85, 0x80, 0x00] } =
      .ok ((5 : UInt32).toNat, 3) { image := #[0x85, 0x80, 0x00], position := 3 } := by
    cbv
  have hlong := decode_of_number hnumber
  obtain ⟨-, hother⟩ := keeps_form 5 { image := #[0x85, 0x80, 0x00] }
  obtain ⟨bs, -, hlength, -, hshort⟩ := hother _ _ hlong rfl
  have hthree : bs.length = 3 := by simpa using hlength.symm
  have hone : Leb128.signedSize (5 : UInt32).toInt32.toInt = 1 := by
    rw [toInt_toInt32 (by decide), ← Leb128.length_signed, Leb128.signed_natCast_of_lt (by decide)]
    rfl
  refine ⟨⟨r, _, hr, hvalue, hwrite, hsize, hsigned.2 ⟨?_, ?_⟩⟩, ⟨_, hdrops rfl ▸ hr'⟩, _, _,
    hlong, rfl, ?_⟩
  · rw [toInt_toInt32 (by decide), hsixtyFour]
  · rw [Leb128.unsignedSize_of_lt (by decide)]
    decide
  · rw [(hshort (by omega)).2]
    cbv

end DexContainer.Register
