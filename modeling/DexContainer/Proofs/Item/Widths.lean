import DexContainer.Item.Scalar
import DexContainer.Proofs.Reads.Primitives

/-! Numbers of minimal width. Main statements: the width that a writer chooses holds the number, it
is the least one that does, and a number is read back from the bytes of its width. -/

namespace DexContainer.Scalar

/-! ### The least width -/

theorem find_width {f : Nat → Bool} (h8 : f 8 = true) :
    let width := ((List.range' 1 7).find? f).getD 8
    f width = true ∧ 1 ≤ width ∧ width ≤ 8 := by
  cases hw : (List.range' 1 7).find? f with
  | none => exact ⟨h8, by decide, by decide⟩
  | some width =>
    obtain ⟨hfits, hmem, -⟩ := List.find?_range'_eq_some.1 hw
    rw [List.mem_range'_1] at hmem
    exact ⟨hfits, hmem.1, by simp only [Option.getD_some]; omega⟩

theorem find_width_le {fits : Nat → Bool} {n : Nat} (hn : fits n = true) (h1 : 1 ≤ n) (h8 : n ≤ 8) :
    ((List.range' 1 7).find? fits).getD 8 ≤ n := by
  cases hw : (List.range' 1 7).find? fits with
  | none =>
    by_contra hlt
    have := List.find?_range'_eq_none.1 hw n h1 (by simp only [Option.getD_none] at hlt; omega)
    simp [hn] at this
  | some width =>
    obtain ⟨-, -, hmin⟩ := List.find?_range'_eq_some.1 hw
    by_contra hlt
    have := hmin n h1 (by simpa using hlt)
    simp [hn] at this

section Signed

variable {v : Int} {n : Nat}

theorem signedWidth_spec (hv : fitsSigned v 8 = true) :
    fitsSigned v (signedWidth v) = true ∧ 1 ≤ signedWidth v ∧ signedWidth v ≤ 8 :=
  find_width hv

theorem signedWidth_le (hv : fitsSigned v n = true) (h1 : 1 ≤ n) (h8 : n ≤ 8) :
    signedWidth v ≤ n :=
  find_width_le hv h1 h8

theorem fitsSigned_mono {width : Nat} (hv : fitsSigned v width = true) (hle : width ≤ n) :
    fitsSigned v n = true := by
  have hpow : (2 : Int) ^ (8 * width - 1) ≤ 2 ^ (8 * n - 1) := by
    exact_mod_cast Nat.pow_le_pow_right (by decide : 0 < 2) (by omega)
  simp only [fitsSigned, decide_eq_true_eq] at hv ⊢
  omega

theorem fitsSigned_bmod {width : Nat} (v : Int) (h1 : 1 ≤ width) :
    fitsSigned (v.bmod (2 ^ (8 * width))) width = true := by
  have hhalf : (2 : Nat) ^ (8 * width) = 2 * 2 ^ (8 * width - 1) := by
    rw [← Nat.pow_succ']
    congr 1
    omega
  have hcast : ((2 ^ (8 * width - 1) : Nat) : Int) = 2 ^ (8 * width - 1) := by simp
  have hmin := Int.le_bmod (x := v) (Nat.two_pow_pos (8 * width))
  have hmax := Int.bmod_lt (x := v) (Nat.two_pow_pos (8 * width))
  rw [fitsSigned, decide_eq_true_iff]
  rw [hhalf] at hmin hmax ⊢
  omega

theorem unsignedWidth_spec (hn : n < 2 ^ 64) :
    n < 256 ^ unsignedWidth n ∧ 1 ≤ unsignedWidth n ∧ unsignedWidth n ≤ 8 := by
  have := find_width (f := fun width => decide (n < 256 ^ width)) (decide_eq_true hn)
  simpa [unsignedWidth] using this

theorem unsignedWidth_le {width : Nat} (hn : n < 256 ^ width) (h1 : 1 ≤ width) (h8 : width ≤ 8) :
    unsignedWidth n ≤ width :=
  find_width_le (decide_eq_true hn) h1 h8

end Signed

theorem zeroBytes_le (limit n : Nat) : zeroBytes limit n ≤ limit := by
  induction limit generalizing n with
  | zero => exact Nat.le_refl 0
  | succ limit ih =>
    rw [zeroBytes]
    split
    · exact Nat.succ_le_succ (ih _)
    · exact Nat.zero_le _

theorem le_zeroBytes {limit m n : Nat} (hm : m ≤ limit) (h : 256 ^ m ∣ n) :
    m ≤ zeroBytes limit n := by
  induction limit generalizing m n with
  | zero => exact hm
  | succ limit ih =>
    rw [zeroBytes]
    cases m with
    | zero => exact Nat.zero_le _
    | succ m =>
      obtain ⟨q, rfl⟩ := h
      have hq : 256 ^ (m + 1) * q = 256 * (256 ^ m * q) := by
        rw [Nat.pow_succ, Nat.mul_comm (256 ^ m) 256, Nat.mul_assoc]
      rw [hq, if_pos (Nat.mul_mod_right ..), Nat.mul_div_cancel_left _ (by decide)]
      exact Nat.succ_le_succ (ih (Nat.le_of_succ_le_succ hm) (Nat.dvd_mul_right ..))

theorem dvd_of_zeroBytes (limit n : Nat) : 256 ^ zeroBytes limit n ∣ n := by
  induction limit generalizing n with
  | zero => exact Nat.one_dvd n
  | succ limit ih =>
    rw [zeroBytes]
    split
    · rename_i hn
      rw [Nat.pow_succ]
      obtain ⟨q, hq⟩ := ih (n / 256)
      exact ⟨q, by rw [Nat.mul_right_comm, ← hq]; omega⟩
    · exact Nat.one_dvd n

theorem rightZeroWidth_spec {total : Nat} (bits : Nat) (ht : 0 < total) :
    1 ≤ rightZeroWidth bits total ∧ rightZeroWidth bits total ≤ total ∧
      256 ^ (total - rightZeroWidth bits total) ∣ bits := by
  have hle := zeroBytes_le (total - 1) bits
  have hdvd := dvd_of_zeroBytes (total - 1) bits
  rw [rightZeroWidth]
  refine ⟨by omega, by omega, ?_⟩
  rwa [Nat.sub_sub_self (by omega)]

theorem rightZeroWidth_le {width total bits : Nat} (h1 : 1 ≤ width)
    (h : 256 ^ (total - width) ∣ bits) : rightZeroWidth bits total ≤ width := by
  have := le_zeroBytes (show total - width ≤ total - 1 by omega) h
  rw [rightZeroWidth]
  omega

/-! ### Lengths -/

theorem length_writeSigned (valueType : Nat) (v : Int) :
    (writeSigned valueType v).length = 1 + signedWidth v := by
  simp [writeSigned, Nat.add_comm]

theorem length_writeUnsigned (valueType n : Nat) :
    (writeUnsigned valueType n).length = 1 + unsignedWidth n := by
  simp [writeUnsigned, Nat.add_comm]

theorem length_writeRightZero (valueType bits total : Nat) :
    (writeRightZero valueType bits total).length = 1 + rightZeroWidth bits total := by
  simp [writeRightZero, Nat.add_comm]

/-! ### Reading back -/

variable {places : Places} {keeps : Bool} {given : Renaming → Prop} {p : Nat}

theorem reads_bytes {width n : Nat} :
    Reads places keeps given p (Decoder.bytes width) (Word.bytes width n)
      fun _ => Word.bytes width n := by
  have h : Reads places keeps given p _ (Word.bytes width n) fun _ => Word.bytes width n :=
    Reads.bytes _
  rwa [Word.bytes_length] at h

theorem reads_unsigned {width n : Nat} (hn : n < 256 ^ width) :
    Reads places keeps given p (readUnsigned width) (Word.bytes width n) fun _ => n := by
  rw [← List.append_nil (Word.bytes width n)]
  exact reads_bytes.bind_const (Reads.pure fun _ _ => (Word.ofBytes_bytes_of_lt hn).symm)

/-- The low bytes of a number in two's complement determine it when it fits them. -/
theorem bmod_ofBytes_bytes {width : Nat} {v : Int} (hv : fitsSigned v width = true) (h1 : 1 ≤ width)
    (h8 : width ≤ 8) :
    (Word.ofBytes (Word.bytes width (v % 2 ^ 64).toNat) : Int).bmod (2 ^ (8 * width)) = v := by
  have hpow : (256 : Nat) ^ width = 2 ^ (8 * width) := by rw [Nat.pow_mul]
  have hnn : 0 ≤ v % 2 ^ 64 := Int.emod_nonneg _ (by decide)
  have hdvd : ((2 ^ (8 * width) : Nat) : Int) ∣ 2 ^ 64 := by
    have : (2 : Nat) ^ (8 * width) ∣ 2 ^ 64 := Nat.pow_dvd_pow 2 (by omega)
    exact_mod_cast this
  rw [Word.ofBytes_bytes, hpow, Int.natCast_emod, Int.toNat_of_nonneg hnn,
    Int.emod_emod_of_dvd _ hdvd, Int.emod_bmod]
  simp only [fitsSigned, decide_eq_true_eq] at hv
  have hhalf : (2 : Nat) ^ (8 * width) = 2 * 2 ^ (8 * width - 1) := by
    rw [← Nat.pow_succ']
    congr 1
    omega
  have hcast : ((2 ^ (8 * width - 1) : Nat) : Int) = 2 ^ (8 * width - 1) := by simp
  rw [Int.bmod_eq_of_le]
  · rw [hhalf]
    push_cast
    omega
  · rw [hhalf]
    push_cast
    omega

theorem reads_signed {width : Nat} {v : Int} (hv : fitsSigned v width = true) (h1 : 1 ≤ width)
    (h8 : width ≤ 8) :
    Reads places keeps given p (readSigned width) (Word.bytes width (v % 2 ^ 64).toNat)
      fun _ => v := by
  rw [← List.append_nil (Word.bytes width _)]
  refine reads_bytes.bind_const (Reads.pure fun _ _ => ?_)
  exact (bmod_ofBytes_bytes hv h1 h8).symm

theorem mul_div_of_rightZeroWidth {bits total : Nat} (ht : 0 < total) :
    256 ^ (total - rightZeroWidth bits total) *
      (bits / 256 ^ (total - rightZeroWidth bits total)) = bits :=
  Nat.mul_div_cancel' (rightZeroWidth_spec bits ht).2.2

theorem div_lt_of_rightZeroWidth {bits total : Nat} (ht : 0 < total) (hb : bits < 256 ^ total) :
    bits / 256 ^ (total - rightZeroWidth bits total) < 256 ^ rightZeroWidth bits total := by
  have hle := (rightZeroWidth_spec bits ht).2.1
  rw [Nat.div_lt_iff_lt_mul (Nat.pow_pos (by decide)), ← Nat.pow_add]
  rwa [Nat.add_sub_cancel' hle]

end DexContainer.Scalar
