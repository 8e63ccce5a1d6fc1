import DexContainer.Item.DebugInfo
import DexContainer.Proofs.Reads.Primitives
import DexContainer.Proofs.Yields

/-! Registers as they are written and read. A reader tells the signed form by its length, so it
sees the mark of a register only where the two forms differ in length. Main statement: where they
do not, they are the same bytes. -/

namespace DexContainer

namespace Leb128

/-! ### The two forms of a number -/

theorem signed_natCast_of_lt {n : Nat} (h : n < 64) : signed n = [UInt8.ofNat n] := by
  have hf : fitsGroup n = true := decide_eq_true ⟨by omega, by omega⟩
  have hn : ((n : Int) % 128).toNat = n := by omega
  rw [signed, if_pos hf, hn]

theorem signed_natCast_of_le {n : Nat} (h : 64 ≤ n) :
    signed n = UInt8.ofNat (n % 128 + 128) :: signed (n / 128 : Nat) := by
  have hf : fitsGroup n = false := decide_eq_false fun hn => by omega
  have hn : ((n : Int) % 128).toNat = n % 128 := by omega
  have hd : (n : Int) / 128 = (n / 128 : Nat) := by omega
  rw [signed, hf, hn, hd]
  rfl

/-- The two forms of a number are the same bytes when they have the same length. -/
theorem signed_eq_unsigned {n : Nat} (h : (signed n).length ≤ (unsigned n).length) :
    signed n = unsigned n := by
  fun_induction unsigned n with
  | case1 n hn =>
    by_cases h64 : n < 64
    · exact signed_natCast_of_lt h64
    · have := length_signed_pos (n / 128 : Nat)
      rw [signed_natCast_of_le (by omega)] at h
      simp only [List.length_cons, List.length_nil] at h
      omega
  | case2 n hn ih =>
    rw [signed_natCast_of_le (by omega)] at h ⊢
    rw [ih (by simpa using h)]

theorem wordOfGroups_signed {n : Nat} (h : n < 2 ^ 31) :
    wordOfGroups (groups (signed n)) = n := by
  have hr := (signed_range n).2
  have hz := length_signed_pos n
  have hg := groupsToNat_groups_signed n
  obtain ⟨l, hl⟩ := Nat.exists_eq_add_one.2 hz
  rw [hl, Int.pow_succ] at hg
  rw [hl, Nat.add_sub_cancel] at hr
  have hmod : (n : Int) % (128 ^ l * 128) = n := Int.emod_eq_of_lt (by omega) (by omega)
  rw [wordOfGroups]
  omega

end Leb128

/-- The reader of unsigned numbers reads the signed form of a number that is not negative, and tells
the length of that form. -/
theorem Decoder.unsignedWithLength_of_rest_signed {n : Nat} {s : Source} {tail : Bytes}
    (hn : n < 2 ^ 31) (h : s.rest = Leb128.signed n ++ tail) :
    unsignedWithLength s = .ok (n, Leb128.signedSize n) (s.advance (Leb128.signedSize n)) := by
  have hg := groups_of_rest .overlongUnsigned (Leb128.isNumber_signed n)
    (Leb128.length_signed_le (by omega)) h
  rw [unsignedWithLength, bind_of_ok hg, pure_apply, Leb128.wordOfGroups_signed hn,
    Leb128.length_groups, Leb128.length_signed]

namespace Register

variable {places : Places} {keeps : Bool} {given : Renaming → Prop} {p : Nat} {r : Register}

/-- A signed register is not negative as a signed word. -/
def IsEncodable (r : Register) : Prop := r.isSigned = true → r.value.toNat < 2 ^ 31

/-- The register that a reader sees: the mark stays when the reader keeps marks and the signed form
is longer than the other. -/
def asRead (keeps : Bool) (r : Register) : Register where
  value := r.value
  isSigned := keeps && r.isSigned &&
    decide (Leb128.unsignedSize r.value.toNat < Leb128.signedSize r.signedValue)

theorem signedValue_eq (h : r.value.toNat < 2 ^ 31) : r.signedValue = r.value.toNat := by
  have hv : r.signedValue = (r.value.toNat : Int).bmod (2 ^ 32) :=
    BitVec.toInt_eq_toNat_bmod r.value.toBitVec
  rw [hv, Int.bmod_eq_of_le] <;> omega

theorem length_write (r : Register) : r.write.length = r.size := by
  rw [write, size]
  split
  · exact Leb128.length_signed _
  · exact Leb128.length_unsigned _

theorem isSigned_asRead : (r.asRead keeps).isSigned = true ↔ keeps = true ∧ r.isSigned = true ∧
    Leb128.unsignedSize r.value.toNat < Leb128.signedSize r.signedValue := by
  simp [asRead, and_assoc]

/-- The bytes of a register that lost its mark on reading are those of the register. -/
theorem write_asRead (hr : r.IsEncodable) : (r.asRead true).write = r.write := by
  have hread : (r.asRead true).write = if (r.asRead true).isSigned then
    Leb128.signed r.signedValue else Leb128.unsigned r.value.toNat := rfl
  rw [hread, write]
  by_cases hs : r.isSigned = true
  · rw [if_pos hs]
    split
    · rfl
    · rename_i hlost
      have hle : ¬Leb128.unsignedSize r.value.toNat < Leb128.signedSize r.signedValue :=
        fun hlt => hlost (isSigned_asRead.2 ⟨rfl, hs, hlt⟩)
      rw [signedValue_eq (hr hs)] at hle ⊢
      refine (Leb128.signed_eq_unsigned ?_).symm
      rw [Leb128.length_signed, Leb128.length_unsigned]
      omega
  · rw [if_neg hs, if_neg fun h => hs (isSigned_asRead.1 h).2.1]

theorem size_asRead (hr : r.IsEncodable) : (r.asRead true).size = r.size := by
  rw [← length_write, ← length_write, write_asRead hr]

theorem unsignedWithLength_of_signed {n : Nat} (hn : n < 2 ^ 31) :
    Reads places keeps given p Decoder.unsignedWithLength (Leb128.signed n)
      fun _ => (n, Leb128.signedSize n) :=
  Reads.of_rest fun _ _ _ hs =>
    Leb128.length_signed n ▸ Decoder.unsignedWithLength_of_rest_signed hn hs

theorem reads (hr : r.IsEncodable) :
    Reads places keeps given p decode r.write fun _ => r.asRead keeps := by
  rw [← List.append_nil r.write, write]
  split
  · rename_i hs
    have hv := signedValue_eq (hr hs)
    rw [hv]
    refine (unsignedWithLength_of_signed (hr hs)).bind_const ?_
    refine Reads.bind_keepsSigned (Reads.pure fun _ _ => ?_)
    have hv' : ({ value := r.value } : Register).signedValue = r.value.toNat := hv
    simp [asRead, hs, hv, hv']
  · rename_i hs
    refine (Reads.unsignedWithLength r.value.toNat_lt).bind_const ?_
    refine Reads.bind_keepsSigned (Reads.pure fun _ _ => ?_)
    simp [asRead, hs]

theorem yields {accepted : References → Prop} : Yields keeps accepted 1 decode
    fun _ r => r.IsEncodable ∧ r.asRead keeps = r := by
  refine Yields.unsignedWithLength.bind fun x _ => ?_
  obtain ⟨n, length⟩ := x
  refine Yields.keepsSigned.bind fun b _ => Yields.pure fun _ hr => ?_
  obtain ⟨⟨-, hn, hlen⟩, rfl⟩ := hr
  have hval : (UInt32.ofNat n).toNat = n := UInt32.toNat_ofNat_of_lt hn
  simp only [IsEncodable, asRead, hval]
  refine ⟨fun hs => ?_, ?_⟩
  · simp only [Bool.and_eq_true, decide_eq_true_eq] at hs
    have := Leb128.lt_of_unsignedSize_lt (n := n) (by unfold Leb128.maxGroups at hlen; omega)
    omega
  · have hmark (s : Bool) : ({ value := UInt32.ofNat n, isSigned := s } : Register).signedValue =
        ({ value := UInt32.ofNat n } : Register).signedValue := rfl
    simp only [hmark]
    generalize Leb128.signedSize ({ value := UInt32.ofNat n } : Register).signedValue = m
    congr 1
    by_cases hm : length = m
    · cases b <;> simp [hm]
    · have hbeq : (length == m) = false := beq_eq_false_iff_ne.2 hm
      rw [hbeq]
      simp

end Register

end DexContainer
