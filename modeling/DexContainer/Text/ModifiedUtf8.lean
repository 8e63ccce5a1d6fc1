import DexContainer.Bytes.Word
import DexContainer.Text.Utf16

/-! Modified UTF-8: every UTF-16 code unit is written for itself in one, two or three bytes, and
the unit zero takes two bytes, so that no written byte is zero. Reading is lenient: a byte that
does not start a complete sequence is a unit by itself. Main statements: no written byte is zero,
and the units of what was written are the units that were written. -/

namespace DexContainer.ModifiedUtf8

/-- The bytes of a code unit. -/
def encodeUnit (u : Nat) : Bytes :=
  if 1 ≤ u ∧ u ≤ 0x7f then [UInt8.ofNat u]
  else if u ≤ 0x7ff then [UInt8.ofNat (0xc0 + u / 64), UInt8.ofNat (0x80 + u % 64)]
  else [UInt8.ofNat (0xe0 + u / 4096), UInt8.ofNat (0x80 + u / 64 % 64),
    UInt8.ofNat (0x80 + u % 64)]

/-- The bytes of a list of code units. -/
def encode (us : List Nat) : Bytes := us.flatMap encodeUnit

/-- The first byte of a sequence of two. -/
def leadsTwo (b : UInt8) : Bool := b.toNat / 32 == 6

/-- The first byte of a sequence of three. -/
def leadsThree (b : UInt8) : Bool := b.toNat / 16 == 14

/-- The code unit of a sequence of two. -/
def unitOfTwo (a b : UInt8) : Nat := a.toNat % 32 * 64 + b.toNat % 64

/-- The code unit of a sequence of three. -/
def unitOfThree (a b c : UInt8) : Nat :=
  a.toNat % 16 * 4096 + b.toNat % 64 * 64 + c.toNat % 64

/-- The code units of a run of bytes. -/
def units : Bytes → List Nat
  | [] => []
  | [a] => [a.toNat]
  | [a, b] => if leadsTwo a then [unitOfTwo a b] else [a.toNat, b.toNat]
  | a :: b :: c :: bs =>
    if leadsTwo a then unitOfTwo a b :: units (c :: bs)
    else if leadsThree a then unitOfThree a b c :: units bs
    else a.toNat :: units (b :: c :: bs)

theorem units_cons_plain (a : UInt8) (bs : Bytes) (h : a.toNat < 128) :
    units (a :: bs) = a.toNat :: units bs := by
  have h2 : leadsTwo a = false := by simp only [leadsTwo, beq_eq_false_iff_ne]; omega
  have h3 : leadsThree a = false := by simp only [leadsThree, beq_eq_false_iff_ne]; omega
  match bs with
  | [] => rfl
  | [b] => simp [units, h2]
  | b :: c :: bs => simp [units, h2, h3]

theorem units_cons_two (a b : UInt8) (bs : Bytes) (h : leadsTwo a = true) :
    units (a :: b :: bs) = unitOfTwo a b :: units bs := by
  cases bs with
  | nil => simp [units, h]
  | cons c bs => simp [units, h]

theorem units_cons_three (a b c : UInt8) (bs : Bytes) (h2 : leadsTwo a = false)
    (h3 : leadsThree a = true) :
    units (a :: b :: c :: bs) = unitOfThree a b c :: units bs := by
  simp [units, h2, h3]

theorem units_encodeUnit_append (u : Nat) (bs : Bytes) (h : u < 65536) :
    units (encodeUnit u ++ bs) = u :: units bs := by
  have low (n : Nat) (hn : n < 256) : (UInt8.ofNat n).toNat = n := by
    rw [UInt8.toNat_ofNat']; omega
  unfold encodeUnit
  split
  · rw [List.singleton_append, units_cons_plain _ _ (by rw [low u (by omega)]; omega),
      low u (by omega)]
  · split
    · have ha := low (0xc0 + u / 64) (by omega)
      have hb := low (0x80 + u % 64) (by omega)
      have hl : leadsTwo (UInt8.ofNat (0xc0 + u / 64)) = true := by
        simp only [leadsTwo, ha, beq_iff_eq]; omega
      simp only [List.cons_append, List.nil_append]
      rw [units_cons_two _ _ _ hl]
      congr 1
      rw [unitOfTwo, ha, hb]
      omega
    · have ha := low (0xe0 + u / 4096) (by omega)
      have hb := low (0x80 + u / 64 % 64) (by omega)
      have hc := low (0x80 + u % 64) (by omega)
      have h2 : leadsTwo (UInt8.ofNat (0xe0 + u / 4096)) = false := by
        simp only [leadsTwo, ha, beq_eq_false_iff_ne]; omega
      have h3 : leadsThree (UInt8.ofNat (0xe0 + u / 4096)) = true := by
        simp only [leadsThree, ha, beq_iff_eq]; omega
      simp only [List.cons_append, List.nil_append]
      rw [units_cons_three _ _ _ _ h2 h3]
      congr 1
      rw [unitOfThree, ha, hb, hc]
      omega

theorem units_encode {us : List Nat} (h : ∀ u ∈ us, u < 65536) : units (encode us) = us := by
  induction us with
  | nil => rfl
  | cons u us ih =>
    rw [encode, List.flatMap_cons, units_encodeUnit_append _ _ (h u (by simp)), ← encode,
      ih fun v hv => h v (by simp [hv])]

end DexContainer.ModifiedUtf8
