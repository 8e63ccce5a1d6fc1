import DexContainer.Decoding.Source
import DexContainer.Item.Places
import DexContainer.Text.Utf8

/-! The header: the first 0x70 bytes of a container. The lengths and offsets of the index tables
are written from the sections and passed over when read, for the map directory says the same. -/

namespace DexContainer

/-- A field of fixed width hashes like the array of its bytes. -/
instance hashableBytes (n : Nat) : Hashable (Vector UInt8 n) := ⟨fun v => hash v.toArray⟩

/-- The part of the header that the sections do not determine. -/
structure Header where
  /-- The letters `dex`, a line end, three digits of the version and a zero byte. -/
  magic : Vector UInt8 8 := #v[0x64, 0x65, 0x78, 0x0a, 0x30, 0x33, 0x35, 0x00]
  checksum : UInt32 := 0
  signature : Vector UInt8 20 := Vector.replicate 20 0
  fileSize : Nat := 0
  linkSize : Nat := 0
  linkOffset : Nat := 0
  mapOffset : Nat := 0
  dataSize : Nat := 0
  dataOffset : Nat := 0
deriving DecidableEq, Hashable

namespace Header

/-- The length of the header. -/
def length : Nat := 0x70

/-- The word that tells the order of the bytes. -/
def endianTag : Nat := 0x12345678

/-- The versions that are accepted. -/
def versions : List Bytes :=
  [[0x30, 0x33, 0x35], [0x30, 0x33, 0x36], [0x30, 0x33, 0x37], [0x30, 0x33, 0x38],
    [0x30, 0x33, 0x39]]

/-- The text of the version bytes of a magic number. -/
def versionOfMagic (magic : Bytes) : String := Utf8.lossy ((magic.drop 4).take 3)

/-- The frame of the magic number is looked at before the version in it. -/
def checkMagic (magic : Bytes) : Except Fault Unit :=
  if magic.take 4 ≠ [0x64, 0x65, 0x78, 0x0a] ∨ magic.drop 7 ≠ [0x00] then
    throw (.invalidMagic magic)
  else if (magic.drop 4).take 3 ∈ versions then pure ()
  else throw (.unsupportedVersion (versionOfMagic magic))

/-- The version, such as 035. -/
def version (h : Header) : String := versionOfMagic h.magic.toList

/-- The lengths and offsets of the index tables. -/
def tableWords (places : Places) : Bytes :=
  Kind.tables.flatMap fun k => Word.full (places.table k).1 ++ Word.full (places.table k).2

/-- The bytes of the header. -/
def write (places : Places) (h : Header) : Bytes :=
  h.magic.toList ++ Word.full h.checksum.toNat ++ h.signature.toList ++ Word.full h.fileSize ++
    Word.full length ++ Word.full endianTag ++ Word.full h.linkSize ++ Word.full h.linkOffset ++
    Word.full h.mapOffset ++ tableWords places ++ Word.full h.dataSize ++ Word.full h.dataOffset

/-- Reads a header; each check comes right after the field that it looks at. -/
def decode : Decoder Header := do
  let magic ← Decoder.vector 8
  Decoder.ofExcept (checkMagic magic.toList)
  let checksum ← Decoder.word
  let signature ← Decoder.vector 20
  let fileSize ← Decoder.word
  let headerSize ← Decoder.word
  if headerSize ≠ length then throw (.invalidHeaderSize headerSize)
  let tag ← Decoder.word
  if tag ≠ endianTag then throw (.invalidEndianTag tag)
  let linkSize ← Decoder.word
  let linkOffset ← Decoder.word
  let mapOffset ← Decoder.word
  let _ ← Decoder.bytes (8 * Kind.tables.length)
  let dataSize ← Decoder.word
  let dataOffset ← Decoder.word
  return {
    magic, checksum := UInt32.ofNat checksum, signature, fileSize, linkSize, linkOffset,
    mapOffset, dataSize, dataOffset }

end Header

end DexContainer
