import DexContainer.Bytes.Word

/-! SHA-1: the message is filled up to blocks of sixteen words, each block is spread to eighty
words, and eighty rounds per block change a state of five words. -/

namespace DexContainer.Sha1

/-- The state between two blocks. -/
structure State where
  a : UInt32
  b : UInt32
  c : UInt32
  d : UInt32
  e : UInt32

/-- The state before the first block. -/
def State.initial : State :=
  ⟨0x67452301, 0xefcdab89, 0x98badcfe, 0x10325476, 0xc3d2e1f0⟩

/-- Turns a word to the left. -/
def rotate (w : UInt32) (n : UInt32) : UInt32 := (w <<< n) ||| (w >>> (32 - n))

/-- The bytes of a word, most significant first. -/
def wordBytes (w : UInt32) : Bytes := (Word.full w.toNat).reverse

/-- The message, a mark, zeros up to eight bytes before the end of a block, and its length in
bits. -/
def filled (message : Bytes) : Bytes :=
  let length := message.length
  message ++ 0x80 :: (List.replicate ((119 - length % 64) % 64) 0 ++
    (Word.bytes 8 (8 * length)).reverse)

/-- Adds the words of a run of bytes, most significant byte first, to those before, which stand
in reverse. -/
def wordsOnto (read : List UInt32) : Bytes → List UInt32
  | a :: b :: c :: d :: bs => wordsOnto (UInt32.ofNat (Word.ofBytes [d, c, b, a]) :: read) bs
  | _ => read.reverse

/-- The words of a run of bytes. -/
def words (bs : Bytes) : List UInt32 := wordsOnto [] bs

/-- Spreads sixteen words to eighty: each new word mixes four earlier ones. -/
def schedule (block : Array UInt32) : Array UInt32 :=
  (List.range 64).foldl (fun w i =>
    w.push (rotate (w.getD (i + 13) 0 ^^^ w.getD (i + 8) 0 ^^^ w.getD (i + 2) 0 ^^^ w.getD i 0) 1))
    block

/-- The mixing function and the constant of a round. -/
def mix (round : Nat) (b c d : UInt32) : UInt32 × UInt32 :=
  if round < 20 then ((b &&& c) ||| (~~~b &&& d), 0x5a827999)
  else if round < 40 then (b ^^^ c ^^^ d, 0x6ed9eba1)
  else if round < 60 then ((b &&& c) ||| (b &&& d) ||| (c &&& d), 0x8f1bbcdc)
  else (b ^^^ c ^^^ d, 0xca62c1d6)

/-- One round. -/
def State.step (w : Array UInt32) (s : State) (round : Nat) : State :=
  let (f, k) := mix round s.b s.c s.d
  ⟨rotate s.a 5 + f + s.e + k + w.getD round 0, s.a, rotate s.b 30, s.c, s.d⟩

/-- Takes one block into the state. -/
def State.compress (s : State) (block : Array UInt32) : State :=
  let t := (List.range 80).foldl (State.step (schedule block)) s
  ⟨s.a + t.a, s.b + t.b, s.c + t.c, s.d + t.d, s.e + t.e⟩

/-- Takes a number of blocks into the state. -/
def State.compressBlocks : (blocks : Nat) → List UInt32 → State → State
  | 0, _, s => s
  | blocks + 1, ws, s => compressBlocks blocks (ws.drop 16) (s.compress (ws.take 16).toArray)

/-- The bytes of a state. -/
def State.bytes (s : State) : Bytes :=
  wordBytes s.a ++ wordBytes s.b ++ wordBytes s.c ++ wordBytes s.d ++ wordBytes s.e

/-- The digest of a message. -/
def digest (message : Bytes) : Bytes :=
  let ws := words (filled message)
  (State.compressBlocks (ws.length / 16) ws State.initial).bytes

@[simp] theorem digest_length (message : Bytes) : (digest message).length = 20 := by
  simp [digest, State.bytes, wordBytes]

end DexContainer.Sha1
