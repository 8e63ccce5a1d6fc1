/-! Hexadecimal text: lowercase digits, with a fixed number of digits for bytes and words or with
as few as the number needs. -/

namespace DexContainer.Hexadecimal

/-- The digits of a number, most significant first and without leading zeros; zero is one digit. -/
def digits (n : Nat) : String := String.ofList (Nat.toDigits 16 n)

/-- The digits of a number, filled up with zeros on the left. -/
def padded (width n : Nat) : String :=
  let ds := Nat.toDigits 16 n
  String.ofList (List.replicate (width - ds.length) '0' ++ ds)

/-- A byte has two digits. -/
def byte (b : UInt8) : String := padded 2 b.toNat

/-- The bytes one after the other. -/
def bytes (bs : List UInt8) : String := String.join (bs.map byte)

/-- A number behind the mark `0x`. -/
def marked (n : Nat) : String := "0x" ++ digits n

/-- A number behind the mark `0x`, with at least `width` digits. -/
def markedPadded (width n : Nat) : String := "0x" ++ padded width n

end DexContainer.Hexadecimal
