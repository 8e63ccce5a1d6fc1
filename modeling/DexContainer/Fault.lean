import DexContainer.Kind
import DexContainer.Text.Hexadecimal

/-! The causes for which an image, a buffer or a set of options is refused, and their texts. -/

namespace DexContainer

/-- What is wrong with a value inside an item. -/
inductive Defect
  /-- Five bytes of an unsigned number all announce another byte. -/
  | overlongUnsigned
  /-- Five bytes of a signed number all announce another byte. -/
  | overlongSigned
  /-- The image ends before the zero byte that ends a string. -/
  | unterminatedString
  | stringLength (declared held : Nat)
  | nestedTooDeeply
  | valueWidth (valueType width : Nat)
  | unknownValueType (valueType : Nat)
  /-- No catch handler starts at the offset that a guarded range names. -/
  | noHandlerAt (offset : Nat)
deriving DecidableEq, Repr

namespace Defect

/-- What a message says about the defect. -/
def reason : Defect → String
  | .overlongUnsigned => "uleb128 longer than 5 bytes"
  | .overlongSigned => "sleb128 longer than 5 bytes"
  | .unterminatedString => "unterminated string data"
  | .stringLength declared held => s!"string declares {declared} utf-16 units but holds {held}"
  | .nestedTooDeeply => "encoded value nested too deeply"
  | .valueWidth valueType width =>
    s!"value type {Hexadecimal.markedPadded 2 valueType} with width {width}"
  | .unknownValueType valueType => s!"unknown value type {Hexadecimal.markedPadded 2 valueType}"
  | .noHandlerAt offset =>
    s!"try block points at no handler (offset {Hexadecimal.marked offset})"

end Defect

/-- Why something is refused. -/
inductive Fault
  | invalidMagic (magic : List UInt8)
  | unsupportedVersion (version : String)
  | invalidEndianTag (tag : Nat)
  | invalidHeaderSize (size : Nat)
  /-- The image ends before the `needed` bytes that are read from `offset` on. -/
  | unexpectedEnd (offset needed : Nat)
  | sectionOutOfBounds (kind : Kind) (offset length : Nat)
  | unknownKind (code : Nat)
  | duplicateMapEntry (kind : Kind)
  | missingSection (kind : Kind)
  | danglingIndex (kind : Kind) (index count : Nat)
  | danglingOffset (kind : Kind) (offset : Nat)
  | invalidValue (offset : Nat) (defect : Defect)
  | checksumMismatch (stored computed : UInt32)
  | signatureMismatch
  | bufferTooSmall (length : Nat)
  /-- A file cannot be read or written. -/
  | storage
  /-- The text of a configuration is malformed. -/
  | configuration
deriving DecidableEq, Repr

namespace Fault

/-- The text of a fault. -/
def message : Fault → String
  | .invalidMagic magic =>
    "Invalid magic number in header: [" ++ ", ".intercalate (magic.map Hexadecimal.byte) ++ "]"
  | .unsupportedVersion version => s!"Unsupported dex version: {version}"
  | .invalidEndianTag tag => s!"Invalid endian tag: {Hexadecimal.markedPadded 8 tag}"
  | .invalidHeaderSize size => s!"Invalid header size: {Hexadecimal.marked size}"
  | .unexpectedEnd offset needed =>
    s!"Unexpected end of input at offset {Hexadecimal.marked offset} ({needed} more bytes needed)"
  | .sectionOutOfBounds kind offset length =>
    s!"Section {kind.name} at offset {Hexadecimal.marked offset} lies outside the " ++
      s!"{length}-byte input"
  | .unknownKind code => s!"Unknown item type code in map: {Hexadecimal.markedPadded 4 code}"
  | .duplicateMapEntry kind => s!"Duplicate map entry for {kind.name}"
  | .missingSection kind => s!"Missing required section: {kind.name}"
  | .danglingIndex kind index count =>
    s!"Reference to {kind.name} #{index} but the section holds {count} items"
  | .danglingOffset kind offset =>
    s!"Reference to {kind.name} at offset {Hexadecimal.marked offset} " ++
      "does not match any decoded item"
  | .invalidValue offset defect =>
    s!"Invalid value at offset {Hexadecimal.marked offset}: {defect.reason}"
  | .checksumMismatch stored computed =>
    s!"Checksum verification failed: stored {Hexadecimal.markedPadded 8 stored.toNat}, " ++
      s!"computed {Hexadecimal.markedPadded 8 computed.toNat}"
  | .signatureMismatch => "Signature verification failed"
  | .bufferTooSmall length => s!"Buffer of {length} bytes is too small to hold a dex header"
  | .storage => "I/O error"
  | .configuration => "Configuration error"

end Fault

end DexContainer
