import DexContainer.Bytes.Word

/-! Alignment: the next offset at or after a given one that an item may start at. Main statement:
for an alignment that is a power of two, `alignUp` is the least multiple not below its argument. -/

namespace DexContainer

/-- Adds the alignment less one and clears the bits below the alignment. -/
def alignUp (offset alignment : Nat) : Nat :=
  let high := offset + alignment - 1
  high - (high &&& (alignment - 1))

/-- The zero bytes between an offset and the next aligned one. -/
def padding (offset alignment : Nat) : Nat := alignUp offset alignment - offset

theorem alignUp_two_pow (offset k : Nat) :
    alignUp offset (2 ^ k) = (offset + 2 ^ k - 1) / 2 ^ k * 2 ^ k := by
  have hk : 0 < 2 ^ k := Nat.two_pow_pos k
  have := Nat.div_add_mod (offset + 2 ^ k - 1) (2 ^ k)
  rw [Nat.mul_comm] at this
  simp only [alignUp, Nat.and_two_pow_sub_one_eq_mod]
  omega

theorem le_alignUp_two_pow (offset k : Nat) : offset ≤ alignUp offset (2 ^ k) := by
  have hk : 0 < 2 ^ k := Nat.two_pow_pos k
  have := Nat.lt_div_mul_add (a := offset + 2 ^ k - 1) hk
  rw [alignUp_two_pow]
  omega

theorem dvd_alignUp_two_pow (offset k : Nat) : 2 ^ k ∣ alignUp offset (2 ^ k) := by
  rw [alignUp_two_pow]
  exact Nat.dvd_mul_left ..

theorem alignUp_two_pow_le {offset bound k : Nat} (h : offset ≤ bound) (hd : 2 ^ k ∣ bound) :
    alignUp offset (2 ^ k) ≤ bound := by
  obtain ⟨q, rfl⟩ := hd
  have hk : 0 < 2 ^ k := Nat.two_pow_pos k
  rw [alignUp_two_pow, Nat.mul_comm]
  apply Nat.mul_le_mul_left
  rw [← Nat.lt_add_one_iff, Nat.div_lt_iff_lt_mul hk, Nat.add_mul, Nat.mul_comm q]
  omega

@[simp] theorem alignUp_one (offset : Nat) : alignUp offset 1 = offset := by
  simpa using alignUp_two_pow offset 0

theorem alignUp_four (offset : Nat) : alignUp offset 4 = (offset + 3) / 4 * 4 :=
  alignUp_two_pow offset 2

end DexContainer
