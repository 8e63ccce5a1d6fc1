import DexContainer.Bytes.Word

/-! Numbers in groups of seven bits, lowest group first, where every byte but the last has its
high bit set. An unsigned number fills its last group with zeros, a signed number with its sign.
Both forms carry 32-bit words, so a reader takes at most five groups. The size functions give the
lengths without writing anything. -/

namespace DexContainer.Leb128

/-- The shortest unsigned form. -/
def unsigned (n : Nat) : Bytes :=
  if n < 128 then [UInt8.ofNat n] else UInt8.ofNat (n % 128 + 128) :: unsigned (n / 128)
termination_by n
decreasing_by omega

/-- The length of the shortest unsigned form. A longer number starts with four full groups, and a
word has one group after them. -/
def unsignedSize (n : Nat) : Nat :=
  if n ≤ 0x7f then 1
  else if n ≤ 0x3fff then 2
  else if n ≤ 0x1fffff then 3
  else if n ≤ 0xfffffff then 4
  else 4 + unsignedSize (n / 2 ^ 28)

/-- One group suffices when the sign bit of the group is the sign of the number. -/
def fitsGroup (v : Int) : Bool := decide (-64 ≤ v ∧ v < 64)

/-- The shortest signed form. -/
def signed (v : Int) : Bytes :=
  if fitsGroup v then [UInt8.ofNat (v % 128).toNat]
  else UInt8.ofNat ((v % 128).toNat + 128) :: signed (v / 128)
termination_by v.natAbs
decreasing_by
  simp only [fitsGroup, decide_eq_true_eq] at *
  omega

/-- The length of the shortest signed form. -/
def signedSize (v : Int) : Nat :=
  if fitsGroup v then 1 else 1 + signedSize (v / 128)
termination_by v.natAbs
decreasing_by
  simp only [fitsGroup, decide_eq_true_eq] at *
  omega

/-- An optional number is written one higher, and an absent one as zero. -/
def plusOne : Option Nat → Bytes
  | none => unsigned 0
  | some n => unsigned (n + 1)

/-- The length of the form that `plusOne` writes. -/
def plusOneSize : Option Nat → Nat
  | none => 1
  | some n => unsignedSize (n + 1)

/-! ### Reading groups -/

/-- No number takes more groups than this. -/
def maxGroups : Nat := 5

/-- The number that a list of seven-bit groups denotes. -/
def groupsToNat : List Nat → Nat
  | [] => 0
  | g :: gs => g + 128 * groupsToNat gs

/-- The unsigned word that a list of groups denotes; bits above the word are dropped. -/
def wordOfGroups (gs : List Nat) : Nat := groupsToNat gs % 2 ^ 32

/-- The signed word that a list of groups denotes: fewer than five groups are extended by the
sign of the last one, five fill the word and the bits above it are dropped. -/
def intOfGroups (gs : List Nat) : Int :=
  if gs.length < maxGroups then (groupsToNat gs : Int).bmod (2 ^ (7 * gs.length))
  else (groupsToNat gs : Int).bmod (2 ^ 32)

/-! ### Lengths -/

theorem length_signed (v : Int) : (signed v).length = signedSize v := by
  fun_induction signed v with
  | case1 v h => rw [signedSize]; simp [h]
  | case2 v h ih => rw [signedSize]; simp [h, ih]; omega

theorem unsignedSize_of_lt {n : Nat} (h : n < 128) : unsignedSize n = 1 := by
  rw [unsignedSize, if_pos (by omega)]

/-- Taking the lowest group away saves one byte, also where that brings the number below four full
groups. -/
theorem unsignedSize_div {n : Nat} (h : 128 ≤ n) : unsignedSize n = 1 + unsignedSize (n / 128) := by
  induction n using Nat.strongRecOn with
  | _ n ih =>
    rw [unsignedSize.eq_def n, unsignedSize.eq_def (n / 128)]
    have hd : n / 128 / 2 ^ 28 = n / 2 ^ 28 / 128 := by omega
    by_cases hs : n < 2 ^ 35
    · rw [unsignedSize_of_lt (show n / 2 ^ 28 < 128 by omega)]
      repeat' split
      all_goals omega
    · have hi := ih (n / 2 ^ 28) (by omega) (by omega)
      rw [hd]
      repeat' split
      all_goals omega

theorem length_unsigned (n : Nat) : (unsigned n).length = unsignedSize n := by
  fun_induction unsigned n with
  | case1 n h => rw [unsignedSize_of_lt h, List.length_singleton]
  | case2 n h ih =>
    rw [List.length_cons, ih, unsignedSize_div (n := n) (by omega)]
    omega

theorem length_plusOne (m : Option Nat) : (plusOne m).length = plusOneSize m := by
  cases m with
  | none => rw [plusOne, length_unsigned, unsignedSize_of_lt (by decide), plusOneSize]
  | some n => exact length_unsigned (n + 1)

theorem unsignedSize_pos (n : Nat) : 0 < unsignedSize n := by
  rw [unsignedSize]
  repeat' split
  all_goals omega

theorem lt_of_unsignedSize_lt {n : Nat} (h : unsignedSize n < 5) : n < 2 ^ 28 := by
  have := unsignedSize_pos (n / 2 ^ 28)
  rw [unsignedSize] at h
  repeat' split at h
  all_goals omega

theorem unsigned_ne_nil (n : Nat) : unsigned n ≠ [] := by
  rw [unsigned]
  split <;> simp

theorem unsignedSize_le_of_lt_pow {n groups : Nat} (hg : 0 < groups) (hn : n < 128 ^ groups) :
    unsignedSize n ≤ groups := by
  induction groups generalizing n with
  | zero => exact absurd hg (Nat.lt_irrefl 0)
  | succ groups ih =>
    by_cases hlow : n < 128
    · rw [unsignedSize_of_lt hlow]
      omega
    · have hlt : n / 128 < 128 ^ groups := by
        rwa [Nat.div_lt_iff_lt_mul (by decide), ← Nat.pow_succ]
      have hpos : 0 < groups := by
        rcases Nat.eq_zero_or_pos groups with rfl | hpos
        · rw [Nat.pow_zero] at hlt
          omega
        · exact hpos
      have := ih hpos hlt
      rw [unsignedSize_div (by omega)]
      omega

theorem unsignedSize_le {n : Nat} (hn : n < 2 ^ 32) : unsignedSize n ≤ 5 :=
  unsignedSize_le_of_lt_pow (by decide) (Nat.lt_trans hn (by decide))

theorem unsignedSize_mono {m n : Nat} (h : m ≤ n) : unsignedSize m ≤ unsignedSize n := by
  induction n using Nat.strongRecOn generalizing m with
  | ind n ih =>
    by_cases hm : m < 128
    · rw [unsignedSize_of_lt hm]
      exact unsignedSize_pos n
    · have hrest : unsignedSize (m / 128) ≤ unsignedSize (n / 128) :=
        ih _ (by omega) (Nat.div_le_div_right h)
      rw [unsignedSize_div (n := m) (by omega), unsignedSize_div (n := n) (by omega)]
      omega

end DexContainer.Leb128
