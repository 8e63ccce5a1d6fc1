import DexContainer.Bytes.Word

/-! UTF-8 read without failure: a maximal part of a well-formed sequence that cannot be continued
counts as one replacement character, and so does any byte that starts no sequence. -/

namespace DexContainer.Utf8

/-- A byte that continues a sequence. -/
def continues (b : UInt8) : Bool := decide (0x80 ≤ b ∧ b ≤ 0xbf)

/-- The number of bytes that a first byte announces; none for a byte that starts no sequence. -/
def announced (a : UInt8) : Option Nat :=
  if a < 0x80 then some 1
  else if 0xc2 ≤ a ∧ a ≤ 0xdf then some 2
  else if 0xe0 ≤ a ∧ a ≤ 0xef then some 3
  else if 0xf0 ≤ a ∧ a ≤ 0xf4 then some 4
  else none

/-- The second bytes that a first byte allows: no overlong form, no surrogate and nothing above
the last character. -/
def allowsSecond (a b : UInt8) : Bool :=
  if a == 0xe0 then decide (0xa0 ≤ b ∧ b ≤ 0xbf)
  else if a == 0xed then decide (0x80 ≤ b ∧ b ≤ 0x9f)
  else if a == 0xf0 then decide (0x90 ≤ b ∧ b ≤ 0xbf)
  else if a == 0xf4 then decide (0x80 ≤ b ∧ b ≤ 0x8f)
  else continues b

/-- The bytes that follow a first byte as parts of its sequence, at most `wanted` of them. -/
def tail (a : UInt8) (wanted : Nat) : Bytes → Bytes
  | [] => []
  | b :: bs =>
    if 0 < wanted && allowsSecond a b then b :: (bs.take (wanted - 1)).takeWhile continues else []

/-- The character of a complete sequence. -/
def ofSequence (a : UInt8) (bs : Bytes) : Char :=
  let lead := if bs.length = 0 then a.toNat else a.toNat % 2 ^ (6 - bs.length)
  Char.ofNat (bs.foldl (fun n b => n * 64 + b.toNat % 64) lead)

/-- The first character and the number of bytes after the first that belong to it. -/
def first (a : UInt8) (bs : Bytes) : Char × Nat :=
  match announced a with
  | none => (Char.ofNat 0xfffd, 0)
  | some count =>
    let t := tail a (count - 1) bs
    if t.length + 1 = count then (ofSequence a t, t.length) else (Char.ofNat 0xfffd, t.length)

/-- The characters of a run of bytes. -/
def chars : Bytes → List Char
  | [] => []
  | a :: bs => (first a bs).1 :: chars (bs.drop (first a bs).2)
termination_by bs => bs.length
decreasing_by
  simp only [List.length_drop, List.length_cons]
  omega

/-- The text of a run of bytes. -/
def lossy (bs : Bytes) : String := String.ofList (chars bs)

end DexContainer.Utf8
