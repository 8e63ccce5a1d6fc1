import DexContainer.Item.StringData
import DexContainer.Proofs.Reads.Primitives
import DexContainer.Proofs.Yields

/-! Strings as they are written and read. A string holds no handle; its bytes end at the first
zero, and its length must be that of its text. -/

namespace DexContainer.StringData

variable {places : Places} {keeps : Bool} {p : Nat} {x : StringData}

/-- The length is that of the text, and no zero byte cuts the string short. -/
def IsEncodable (x : StringData) : Prop := x.utf16Length = x.units.length ∧ 0 ∉ x.data

theorem length_write (x : StringData) : x.write.length = x.size := by
  simp [write, size, Leb128.length_unsigned, Nat.add_assoc]

/-- The bytes up to the first zero are read when there is a zero within the limit. -/
theorem dataOnto_of_rest {failure : Fault} {limit : Nat} {data tail : Bytes} (read : Bytes)
    {s : Source} (hd : 0 ∉ data) (hl : data.length < limit) (hs : s.rest = data ++ 0 :: tail) :
    dataOnto failure limit read s = .ok (read.reverse ++ data) (s.advance (data.length + 1)) := by
  induction data generalizing s limit read with
  | nil =>
    obtain ⟨limit, rfl⟩ := Nat.exists_eq_add_one.2 hl
    rw [dataOnto, Decoder.bind_of_ok (Decoder.byte_of_rest hs), if_pos rfl]
    simp
  | cons b bs ih =>
    obtain ⟨limit, rfl⟩ := Nat.exists_eq_add_one.2 (Nat.zero_lt_of_lt hl)
    have hb : b ≠ 0 := fun h => hd (by simp [h])
    have hrest : (s.advance 1).rest = bs ++ 0 :: tail := by
      rw [Source.rest_advance, hs]
      rfl
    rw [dataOnto, Decoder.bind_of_ok (Decoder.byte_of_rest hs), if_neg hb,
      ih (b :: read) (fun h => hd (List.mem_cons_of_mem b h)) (by simpa using hl) hrest]
    simp [Nat.add_comm, Nat.add_left_comm]

theorem length_units_le (bs : Bytes) : (ModifiedUtf8.units bs).length ≤ bs.length := by
  fun_induction ModifiedUtf8.units bs <;> simp only [List.length_cons, List.length_nil] at * <;>
    omega

/-- The bytes of a string are read back, whatever follows them. -/
theorem decode_of_rest {s : Source} {tail : Bytes} (hx : x.IsEncodable)
    (hcount : x.utf16Length < 2 ^ 32) (hs : s.rest = x.write ++ tail) :
    decode s = .ok x (s.advance x.size) := by
  obtain ⟨hlen, hzero⟩ := hx
  rw [write, List.append_assoc, List.append_assoc] at hs
  have hunsigned := Decoder.unsigned_of_rest hcount hs
  have hrest := Source.rest_advance_of_append hs
  rw [Leb128.length_unsigned] at hrest
  have hlimit : x.data.length < (s.advance (Leb128.unsignedSize x.utf16Length)).remaining := by
    rw [← Source.length_rest, hrest]
    simp only [List.length_append, List.length_singleton]
    omega
  have hdata : dataOnto (.invalidValue s.position .unterminatedString)
      (s.advance (Leb128.unsignedSize x.utf16Length)).remaining []
      (s.advance (Leb128.unsignedSize x.utf16Length)) = .ok x.data (s.advance x.size) := by
    rw [dataOnto_of_rest [] hzero hlimit hrest]
    simp [size, Nat.add_assoc]
  have hposition : Decoder.position s = .ok s.position s := rfl
  have hremaining (t : Source) : Decoder.remaining t = .ok t.remaining t := rfl
  rw [decode, Decoder.bind_of_ok hposition, Decoder.bind_of_ok hunsigned,
    Decoder.bind_of_ok (hremaining _), Decoder.bind_of_ok hdata]
  rw [if_neg (by simp only [ne_eq, not_not]; exact hlen.symm)]
  rfl

theorem reads (hx : x.IsEncodable) (hb : x.write.length < 2 ^ 32) :
    Reads places keeps (fun _ => True) p decode x.write fun _ => x := by
  have hcount : x.utf16Length < 2 ^ 32 := by
    have := length_units_le x.data
    rw [length_write, size] at hb
    rw [hx.1, units]
    omega
  refine Reads.of_rest fun s tail _ hs => ?_
  rw [length_write, decode_of_rest hx hcount hs]

/-! ### Accepting -/

theorem yields_dataOnto {accepted : References → Prop} (failure : Fault) (limit : Nat)
    (read : Bytes) (hread : 0 ∉ read) :
    Yields keeps accepted 0 (dataOnto failure limit read) fun _ data => 0 ∉ data := by
  induction limit generalizing accepted read with
  | zero => exact Yields.throw
  | succ limit ih =>
    rw [dataOnto]
    refine Yields.byte.bind_tail fun b _ => ?_
    split
    · exact Yields.pure fun _ _ => by simpa using hread
    · rename_i hb
      exact ih (b :: read) (by simpa using ⟨Ne.symm hb, hread⟩)

theorem yields : Yields keeps (fun _ => True) 1 decode fun _ x => x.IsEncodable := by
  rw [← Nat.zero_add 1]
  refine Yields.position.bind_count fun start _ => ?_
  refine Yields.unsigned.bind fun length _ => ?_
  refine Yields.remaining.bind fun limit _ => ?_
  refine (yields_dataOnto _ limit [] (by simp)).bind fun data _ => ?_
  dsimp only
  split
  · exact Yields.throw_bind
  · rename_i hlength
    exact Yields.pure fun r hr => ⟨(not_not.1 hlength).symm, hr.2⟩

end DexContainer.StringData
