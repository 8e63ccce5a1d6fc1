import DexContainer.Bytes.Leb128

/-! The groups of a run of bytes. Main statements: what is written is one number, in which every
byte but the last announces another one, and its groups denote the word that was written; and no
number takes fewer bytes than its shortest form. -/

namespace DexContainer.Leb128

/-- One number: every byte but the last announces another byte. -/
def IsNumber : Bytes → Prop
  | [] => False
  | b :: bs => if b < 128 then bs = [] else IsNumber bs

/-- The groups of a run of bytes. -/
def groups (bs : Bytes) : List Nat := bs.map fun b => b.toNat % 128

@[simp] theorem length_groups (bs : Bytes) : (groups bs).length = bs.length := List.length_map ..

/-! ### Runs of bytes that are one number -/

theorem toNat_ofNat_of_lt {n : Nat} (h : n < 256) : (UInt8.ofNat n).toNat = n := by
  rw [UInt8.toNat_ofNat']
  omega

theorem length_pos_of_isNumber {bs : Bytes} (h : IsNumber bs) : 0 < bs.length := by
  cases bs with
  | nil => exact absurd h id
  | cons b bs => simp

theorem isNumber_singleton {n : Nat} (h : n < 128) : IsNumber [UInt8.ofNat n] := by
  have hb : UInt8.ofNat n < 128 := by
    rw [UInt8.lt_iff_toNat_lt, toNat_ofNat_of_lt (by omega)]
    exact h
  simp [IsNumber, hb]

theorem isNumber_cons {n : Nat} {bs : Bytes} (h : 128 ≤ n) (hn : n < 256) (hbs : IsNumber bs) :
    IsNumber (UInt8.ofNat n :: bs) := by
  have hb : ¬UInt8.ofNat n < 128 := by
    rw [UInt8.lt_iff_toNat_lt, toNat_ofNat_of_lt hn]
    exact Nat.not_lt.2 h
  rw [IsNumber, if_neg hb]
  exact hbs

theorem isNumber_unsigned (n : Nat) : IsNumber (unsigned n) := by
  fun_induction unsigned n with
  | case1 n h => exact isNumber_singleton h
  | case2 n h ih => exact isNumber_cons (by omega) (by omega) ih

theorem isNumber_signed (v : Int) : IsNumber (signed v) := by
  fun_induction signed v with
  | case1 v h => exact isNumber_singleton (by omega)
  | case2 v h ih => exact isNumber_cons (by omega) (by omega) ih

/-! ### What the groups denote -/

theorem groupsToNat_groups_unsigned (n : Nat) : groupsToNat (groups (unsigned n)) = n := by
  fun_induction unsigned n with
  | case1 n h =>
    simp only [groups, List.map_cons, List.map_nil, groupsToNat]
    rw [toNat_ofNat_of_lt (by omega)]
    omega
  | case2 n h ih =>
    simp only [groups, List.map_cons, groupsToNat] at ih ⊢
    rw [ih, toNat_ofNat_of_lt (by omega)]
    omega

theorem emod_eq_of_eq_add_mul {v m r q : Int} (hv : v = r + m * q) (h0 : 0 ≤ r) (hm : r < m) :
    v % m = r := by
  rw [hv, Int.add_mul_emod_self_left, Int.emod_eq_of_lt h0 hm]

theorem emod_add_mul_emod {v m : Int} (h : 0 < m) :
    v % 128 + 128 * (v / 128 % m) = v % (m * 128) := by
  have h1 := Int.emod_add_mul_ediv (v / 128) m
  have h2 := Int.emod_nonneg (v / 128) (Int.ne_of_gt h)
  have h3 := Int.emod_lt_of_pos (v / 128) h
  refine (emod_eq_of_eq_add_mul (q := v / 128 / m) ?_ ?_ ?_).symm
  · rw [Int.mul_comm m 128, Int.mul_assoc]
    omega
  · omega
  · omega

theorem groupsToNat_groups_signed (v : Int) :
    (groupsToNat (groups (signed v)) : Int) = v % 128 ^ (signed v).length := by
  fun_induction signed v with
  | case1 v h =>
    simp only [groups, List.map_cons, List.map_nil, groupsToNat, List.length_singleton]
    rw [toNat_ofNat_of_lt (by omega), Int.pow_one]
    omega
  | case2 v h ih =>
    simp only [groups, List.map_cons, groupsToNat, List.length_cons] at ih ⊢
    rw [toNat_ofNat_of_lt (by omega), Int.pow_succ]
    push_cast
    rw [ih, ← emod_add_mul_emod (Int.pow_pos (by decide))]
    omega

/-! ### Words -/

theorem length_signed_pos (v : Int) : 0 < (signed v).length := by
  rw [signed]
  split <;> simp

/-- The last group of the signed form holds the sign. -/
theorem signed_range (v : Int) :
    -(64 * 128 ^ ((signed v).length - 1)) ≤ v ∧ v < 64 * 128 ^ ((signed v).length - 1) := by
  fun_induction signed v with
  | case1 v h =>
    simp only [fitsGroup, decide_eq_true_eq] at h
    simp only [List.length_singleton, Nat.sub_self, Int.pow_zero]
    omega
  | case2 v h ih =>
    obtain ⟨k, hk⟩ := Nat.exists_eq_add_one.2 (length_signed_pos (v / 128))
    rw [hk] at ih
    simp only [List.length_cons, hk, Nat.add_sub_cancel, Int.pow_succ] at ih ⊢
    omega

theorem length_signed_le {v : Int} (h : -2 ^ 31 ≤ v ∧ v < 2 ^ 31) : (signed v).length ≤ 5 := by
  have step (v : Int) :
      (signed v).length ≤ 1 ∨ (signed v).length = 1 + (signed (v / 128)).length := by
    rw [signed]
    split
    · simp
    · right; simp; omega
  have last (v : Int) (h : -64 ≤ v ∧ v < 64) : (signed v).length = 1 := by
    rw [signed]; simp [fitsGroup, h]
  have h1 := step v
  have h2 := step (v / 128)
  have h3 := step (v / 128 / 128)
  have h4 := step (v / 128 / 128 / 128)
  have h5 := last (v / 128 / 128 / 128 / 128) (by omega)
  omega

theorem wordOfGroups_unsigned {n : Nat} (h : n < 2 ^ 32) :
    wordOfGroups (groups (unsigned n)) = n := by
  rw [wordOfGroups, groupsToNat_groups_unsigned, Nat.mod_eq_of_lt h]

theorem intOfGroups_signed {v : Int} (h : -2 ^ 31 ≤ v ∧ v < 2 ^ 31) :
    intOfGroups (groups (signed v)) = v := by
  have hr := signed_range v
  have hn := length_signed_le h
  have hz := length_signed_pos v
  rw [intOfGroups, groupsToNat_groups_signed, length_groups]
  generalize (signed v).length = n at *
  split
  · have hp : (128 : Int) ^ n = (2 ^ (7 * n) : Nat) := by rw [Nat.pow_mul]; simp
    have hq : (2 : Nat) ^ (7 * n) = 128 * 128 ^ (n - 1) := by
      rw [Nat.pow_mul, Nat.mul_comm, ← Nat.pow_succ, Nat.succ_eq_add_one, Nat.sub_add_cancel hz]
    have hc : ((128 ^ (n - 1) : Nat) : Int) = 128 ^ (n - 1) := by simp
    rw [hp, Int.emod_bmod, Int.bmod_eq_of_le] <;> rw [hq] <;> push_cast <;> omega
  · have h5 : n = 5 := by unfold maxGroups at *; omega
    subst h5
    rw [Int.bmod_eq_iff (by decide)]
    omega

theorem intOfGroups_range (gs : List Nat) :
    -2 ^ 31 ≤ intOfGroups gs ∧ intOfGroups gs < 2 ^ 31 := by
  rw [intOfGroups]
  have h4 : gs.length < maxGroups → 7 * gs.length ≤ 28 := by
    unfold maxGroups
    omega
  split
  · rename_i hl
    have hp : (2 : Nat) ^ (7 * gs.length) ≤ 2 ^ 28 := Nat.pow_le_pow_right (by decide) (h4 hl)
    have hz : 0 < 2 ^ (7 * gs.length) := Nat.two_pow_pos _
    have h1 := Int.le_bmod (x := (groupsToNat gs : Int)) hz
    have h2 := Int.bmod_lt (x := (groupsToNat gs : Int)) hz
    generalize Int.bmod _ _ = v at *
    generalize 2 ^ (7 * gs.length) = m at *
    omega
  · have h1 := Int.le_bmod (x := (groupsToNat gs : Int)) (m := 2 ^ 32) (by decide)
    have h2 := Int.bmod_lt (x := (groupsToNat gs : Int)) (m := 2 ^ 32) (by decide)
    omega

/-! ### Shortest forms -/

theorem signedSize_le_of_range {v : Int} {k : Nat} (h : -(64 * 128 ^ k) ≤ v ∧ v < 64 * 128 ^ k) :
    signedSize v ≤ k + 1 := by
  induction k generalizing v with
  | zero =>
    have hv : fitsGroup v = true := by
      rw [fitsGroup, decide_eq_true_iff]
      omega
    exact Nat.le_of_eq (by rw [signedSize, if_pos hv])
  | succ k ih =>
    rw [signedSize]
    split
    · omega
    · have := ih (v := v / 128) (by rw [Int.pow_succ] at h; omega)
      omega

theorem groupsToNat_groups_lt (bs : Bytes) : groupsToNat (groups bs) < 128 ^ bs.length := by
  induction bs with
  | nil => simp [groups, groupsToNat]
  | cons b bs ih =>
    simp only [groups, List.map_cons, groupsToNat, List.length_cons, Nat.pow_succ] at ih ⊢
    omega

theorem unsignedSize_wordOfGroups_le {bs : Bytes} (h : 0 < bs.length) :
    unsignedSize (wordOfGroups (groups bs)) ≤ bs.length := by
  obtain ⟨k, hk⟩ := Nat.exists_eq_add_one.2 h
  have hlt := groupsToNat_groups_lt bs
  have hmod : wordOfGroups (groups bs) ≤ groupsToNat (groups bs) := Nat.mod_le _ _
  rw [hk] at hlt ⊢
  exact unsignedSize_le_of_lt_pow (Nat.succ_pos k) (Nat.lt_of_le_of_lt hmod hlt)

/-- The sign of fewer than five groups is that of the last one, and a word fits into five. -/
theorem signedSize_intOfGroups_le {bs : Bytes} (h : 0 < bs.length) (hle : bs.length ≤ maxGroups) :
    signedSize (intOfGroups (groups bs)) ≤ bs.length := by
  obtain ⟨k, hk⟩ := Nat.exists_eq_add_one.2 h
  rw [intOfGroups, length_groups, hk]
  apply signedSize_le_of_range
  split
  · have hp : (2 : Nat) ^ (7 * (k + 1)) = 128 * 128 ^ k := by
      rw [Nat.pow_mul, Nat.pow_succ, Nat.mul_comm]
    have hc : ((128 ^ k : Nat) : Int) = 128 ^ k := by simp
    have hz : 0 < 128 ^ k := Nat.pow_pos (by decide)
    have h1 := Int.le_bmod (x := (groupsToNat (groups bs) : Int)) (m := 128 * 128 ^ k) (by omega)
    have h2 := Int.bmod_lt (x := (groupsToNat (groups bs) : Int)) (m := 128 * 128 ^ k) (by omega)
    rw [hp]
    omega
  · have hk4 : k = 4 := by unfold maxGroups at *; omega
    have h1 := Int.le_bmod (x := (groupsToNat (groups bs) : Int)) (m := 2 ^ 32) (by decide)
    have h2 := Int.bmod_lt (x := (groupsToNat (groups bs) : Int)) (m := 2 ^ 32) (by decide)
    subst hk4
    omega

end DexContainer.Leb128
