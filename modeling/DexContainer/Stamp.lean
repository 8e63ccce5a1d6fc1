import DexContainer.Digest.Adler32
import DexContainer.Digest.Sha1
import DexContainer.Fault

/-! The two integrity fields of an image: the checksum in bytes 8 to 12 covers all that follows
it, the signature in bytes 12 to 32 all that follows that. The checksum covers the signature, so
stamping writes the signature first. -/

namespace DexContainer

/-- A complete file. -/
abbrev Image := Array UInt8

namespace Stamp

/-- Where the checksum starts. -/
def checksumStart : Nat := 8

/-- Where the checksum ends and the signature starts. -/
def checksumEnd : Nat := 12

/-- Where the signature ends. -/
def signatureEnd : Nat := 32

/-- The checksum that an image should carry. -/
def checksum (image : Image) : Except Fault UInt32 :=
  if image.size < checksumEnd then throw (.bufferTooSmall image.size)
  else pure (Adler32.checksum (image.toList.drop checksumEnd))

/-- The signature that an image should carry. -/
def signature (image : Image) : Except Fault Bytes :=
  if image.size < signatureEnd then throw (.bufferTooSmall image.size)
  else pure (Sha1.digest (image.toList.drop signatureEnd))

/-- Overwrites the bytes from `start` on; bytes past the end of the image are dropped. -/
def overwrite (image : Image) (start : Nat) (bs : Bytes) : Image :=
  ((image.toList.take start ++ bs ++ image.toList.drop (start + bs.length)).take image.size).toArray

/-- Writes the signature into its field. -/
def writeSignature (image : Image) : Except Fault Image := do
  return overwrite image checksumEnd (← signature image)

/-- Writes the checksum into its field. -/
def writeChecksum (image : Image) : Except Fault Image := do
  return overwrite image checksumStart (Word.full (← checksum image).toNat)

/-- Writes the signature and then the checksum. -/
def stamp (image : Image) : Except Fault Image := do
  writeChecksum (← writeSignature image)

/-- Work on a buffer where it stands: what was written before a failure stays written. -/
abbrev InPlace := EStateM Fault Image

/-- A step that has written nothing when it fails. -/
def inPlace (step : Image → Except Fault Image) : InPlace Unit := fun image =>
  match step image with
  | .ok out => .ok () out
  | .error e => .error e image

/-- Stamps a buffer where it stands. -/
def stampInPlace : InPlace Unit := do
  inPlace writeSignature
  inPlace writeChecksum

/-- The checksum that an image carries. -/
def storedChecksum (image : Image) : UInt32 :=
  UInt32.ofNat (Word.ofBytes (image.extract checksumStart checksumEnd).toList)

/-- The signature that an image carries. -/
def storedSignature (image : Image) : Bytes := (image.extract checksumEnd signatureEnd).toList

/-- Both fields hold what they should; the checksum is looked at first. -/
def verify (image : Image) : Except Fault Unit := do
  let computed ← checksum image
  let stored := storedChecksum image
  if computed ≠ stored then throw (.checksumMismatch stored computed)
  let computed ← signature image
  if computed ≠ storedSignature image then throw .signatureMismatch

end Stamp

end DexContainer
