/-! Little-endian words: the least significant byte comes first. Main statements: a word is read
back from its bytes, and a word of `n` bytes has exactly `n` of them. -/

namespace DexContainer

-- Powers and sums of numbers are the built-in ones, whatever algebra is imported besides.

@[default_instance 20000]
instance (priority := 20000) builtinPow {α : Type} [NatPow α] : Pow α Nat := instPowNat

instance (priority := 20000) builtinZero : Zero Nat := Zero.ofOfNat0

/-- A run of bytes. -/
abbrev Bytes := List UInt8

namespace Word

/-- The low `width` bytes of a number. -/
def bytes : (width n : Nat) → Bytes
  | 0, _ => []
  | width + 1, n => UInt8.ofNat (n % 256) :: bytes width (n / 256)

/-- The number that a run of bytes denotes. -/
def ofBytes : Bytes → Nat
  | [] => 0
  | b :: bs => b.toNat + 256 * ofBytes bs

/-- A 16-bit word. -/
def half (n : Nat) : Bytes := bytes 2 n

/-- A 32-bit word. -/
def full (n : Nat) : Bytes := bytes 4 n

@[simp] theorem bytes_length (width n : Nat) : (bytes width n).length = width := by
  induction width generalizing n with
  | zero => rfl
  | succ width ih => simp [bytes, ih]

@[simp] theorem half_length (n : Nat) : (half n).length = 2 := bytes_length 2 n

@[simp] theorem full_length (n : Nat) : (full n).length = 4 := bytes_length 4 n

theorem ofBytes_lt (bs : Bytes) : ofBytes bs < 256 ^ bs.length := by
  induction bs with
  | nil => simp [ofBytes]
  | cons b bs ih =>
    have hb := b.toNat_lt
    simp only [ofBytes, List.length_cons, Nat.pow_succ]
    omega

theorem ofBytes_bytes (width n : Nat) : ofBytes (bytes width n) = n % 256 ^ width := by
  induction width generalizing n with
  | zero => simp [bytes, ofBytes, Nat.mod_one]
  | succ width ih =>
    have hb : (UInt8.ofNat (n % 256)).toNat = n % 256 := by
      rw [UInt8.toNat_ofNat']; omega
    rw [bytes, ofBytes, hb, ih, Nat.pow_succ, Nat.mul_comm (256 ^ width), Nat.mod_mul]

theorem ofBytes_bytes_of_lt {width n : Nat} (h : n < 256 ^ width) :
    ofBytes (bytes width n) = n := by
  rw [ofBytes_bytes, Nat.mod_eq_of_lt h]

theorem bytes_ofBytes (bs : Bytes) : bytes bs.length (ofBytes bs) = bs := by
  induction bs with
  | nil => rfl
  | cons b bs ih =>
    have hb := b.toNat_lt
    have h1 : (b.toNat + 256 * ofBytes bs) % 256 = b.toNat := by omega
    have h2 : (b.toNat + 256 * ofBytes bs) / 256 = ofBytes bs := by omega
    simp [bytes, ofBytes, h1, h2, ih]

end Word

end DexContainer
