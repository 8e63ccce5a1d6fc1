import DexContainer.Item.Header
import DexContainer.Proofs.Reads.Primitives
import DexContainer.Proofs.Yields

/-! The header as it is written and read. Main statements: the header takes 0x70 bytes, a header
with an accepted magic number and fields that are words is read back as it was written, whatever
the tables say, and a header that was read is such a header. -/

namespace DexContainer.Header

variable {places : Places} {keeps : Bool} {given : Renaming → Prop} {p : Nat} {x : Header}

/-- The part of the header that layout leaves alone can be read back. -/
structure IsAccepted (x : Header) : Prop where
  magic : checkMagic x.magic.toList = .ok ()
  linkSize : x.linkSize < 2 ^ 32
  linkOffset : x.linkOffset < 2 ^ 32

/-- The header can be read back. -/
structure IsEncodable (x : Header) : Prop extends x.IsAccepted where
  fileSize : x.fileSize < 2 ^ 32
  mapOffset : x.mapOffset < 2 ^ 32
  dataSize : x.dataSize < 2 ^ 32
  dataOffset : x.dataOffset < 2 ^ 32

theorem isAccepted_default : ({} : Header).IsAccepted := by
  constructor <;> decide

/-- The bytes of the header behind the two integrity fields. -/
def rest (places : Places) (x : Header) : Bytes :=
  Word.full x.fileSize ++ Word.full length ++ Word.full endianTag ++ Word.full x.linkSize ++
    Word.full x.linkOffset ++ Word.full x.mapOffset ++ tableWords places ++ Word.full x.dataSize ++
    Word.full x.dataOffset

theorem write_eq (places : Places) (x : Header) : x.write places =
    x.magic.toList ++ Word.full x.checksum.toNat ++ x.signature.toList ++ x.rest places := by
  simp only [write, rest, List.append_assoc]

theorem length_tableWords (places : Places) :
    (tableWords places).length = 8 * Kind.tables.length := by
  simp [tableWords, Kind.tables]

theorem length_write (places : Places) (x : Header) : (x.write places).length = length := by
  simp only [write, List.length_append, Word.full_length, Vector.length_toList, length_tableWords]
  rfl

/-- Where the tables are listed. -/
theorem exists_write_eq (places : Places) (x : Header) : ∃ before after,
    x.write places = before ++ (tableWords places ++ after) ∧ before.length = 0x38 := by
  refine ⟨x.magic.toList ++ Word.full x.checksum.toNat ++ x.signature.toList ++
    Word.full x.fileSize ++ Word.full length ++ Word.full endianTag ++ Word.full x.linkSize ++
    Word.full x.linkOffset ++ Word.full x.mapOffset,
    Word.full x.dataSize ++ Word.full x.dataOffset, ?_, ?_⟩
  · simp only [write, List.append_assoc]
  · simp only [List.length_append, Word.full_length, Vector.length_toList]

/-- What reading makes of the fields does not depend on the bytes of the tables. -/
theorem reads (hx : x.IsEncodable) :
    Reads places keeps given p decode (x.write places) fun _ => x := by
  have htables : Decoder.bytes (8 * Kind.tables.length) =
      Decoder.bytes (tableWords places).length := by
    rw [length_tableWords]
  rw [decode, htables]
  simp only [write, List.append_assoc]
  rw [← List.append_nil (Word.full x.dataOffset)]
  refine (Reads.vector x.magic).bind_const ?_
  rw [hx.magic]
  refine Reads.bind_nil (Reads.pure fun _ _ => rfl) fun _ _ => ?_
  refine (Reads.word x.checksum.toNat_lt).bind_const ?_
  refine (Reads.vector x.signature).bind_const ?_
  refine (Reads.word hx.fileSize).bind_const ?_
  refine (Reads.word (by decide)).bind_const ?_
  refine (Reads.word (by decide)).bind_const ?_
  refine (Reads.word hx.linkSize).bind_const ?_
  refine (Reads.word hx.linkOffset).bind_const ?_
  refine (Reads.word hx.mapOffset).bind_const ?_
  refine (Reads.bytes _).bind_const ?_
  refine (Reads.word hx.dataSize).bind_const ?_
  refine (Reads.word hx.dataOffset).bind_const (Reads.pure fun ρ _ => ?_)
  rw [UInt32.ofNat_toNat]

theorem yields : Yields keeps (fun _ => True) 8 decode fun _ x => x.IsEncodable := by
  refine (Yields.vector 8).bind fun magic _ => ?_
  refine (Yields.ofExcept _).bind fun _ hmagic => ?_
  obtain ⟨-, -, hmagic⟩ := hmagic
  refine Yields.word.bind_tail fun checksum _ => ?_
  refine (Yields.vector 20).bind_tail fun signature _ => ?_
  refine Yields.word.bind_tail fun fileSize hfile => ?_
  refine Yields.word.bind_tail fun headerSize _ => ?_
  dsimp only
  split
  · exact Yields.throw_bind
  refine Yields.word.bind_tail fun tag _ => ?_
  split
  · exact Yields.throw_bind
  refine Yields.word.bind_tail fun linkSize hsize => ?_
  refine Yields.word.bind_tail fun linkOffset hoffset => ?_
  refine Yields.word.bind_tail fun mapOffset hmap => ?_
  refine (Yields.bytes _).bind_tail fun _ _ => ?_
  refine Yields.word.bind_tail fun dataSize hdata => ?_
  refine Yields.word.bind_tail fun dataOffset hdataOffset => ?_
  obtain ⟨-, -, hfile⟩ := hfile
  obtain ⟨-, -, hsize⟩ := hsize
  obtain ⟨-, -, hoffset⟩ := hoffset
  obtain ⟨-, -, hmap⟩ := hmap
  obtain ⟨-, -, hdata⟩ := hdata
  obtain ⟨-, -, hdataOffset⟩ := hdataOffset
  exact Yields.pure fun _ _ => ⟨⟨hmagic, hsize, hoffset⟩, hfile, hmap, hdata, hdataOffset⟩

end DexContainer.Header
