import DexContainer.Bytes.Word

/-! Adler-32: one more than the sum of the bytes, and the sum of all such sums on the way, both
modulo a prime and joined into one word. -/

namespace DexContainer.Adler32

/-- The largest prime below 2^16. -/
def modulus : Nat := 65521

/-- The two running sums. -/
structure Sums where
  bytes : Nat := 1
  sums : Nat := 0

/-- Takes one byte into the sums. -/
def Sums.add (s : Sums) (b : UInt8) : Sums :=
  let bytes := (s.bytes + b.toNat) % modulus
  ⟨bytes, (s.sums + bytes) % modulus⟩

/-- The checksum that two sums make. -/
def Sums.word (s : Sums) : UInt32 := UInt32.ofNat (s.sums * 65536 + s.bytes)

/-- The checksum of a run of bytes. -/
def checksum (bs : Bytes) : UInt32 := (bs.foldl Sums.add {}).word

end DexContainer.Adler32
