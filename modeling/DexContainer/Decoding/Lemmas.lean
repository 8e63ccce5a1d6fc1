import DexContainer.Bytes.Leb128.Groups
import DexContainer.Decoding.Source

/-! What the readers take from the bytes that are left. Main statements: a reader that meets what
was written gives the value back and moves past exactly the bytes of it, whatever follows; and a
number that was read stood there as a run of bytes of which only the last announces no other. -/

namespace DexContainer

namespace Source

@[simp] theorem advance_zero (s : Source) : s.advance 0 = s := rfl

@[simp] theorem advance_advance (s : Source) (m n : Nat) :
    (s.advance m).advance n = s.advance (m + n) := by
  simp [advance, Nat.add_assoc]

theorem rest_advance (s : Source) (n : Nat) : (s.advance n).rest = s.rest.drop n := by
  simp [rest, advance, List.drop_drop]

theorem rest_advance_of_append {s : Source} {bs tail : Bytes} (h : s.rest = bs ++ tail) :
    (s.advance bs.length).rest = tail := by
  rw [rest_advance, h, List.drop_left]

@[simp] theorem length_rest (s : Source) : s.rest.length = s.remaining := by
  simp [rest, remaining]

theorem position_lt_of_rest {s : Source} {b : UInt8} {bs : Bytes} (h : s.rest = b :: bs) :
    s.position < s.image.size := by
  have := s.length_rest
  rw [h, remaining, List.length_cons] at this
  omega

theorem getElem?_position (s : Source) : s.image[s.position]? = s.rest.head? := by
  simp [rest, List.head?_drop]

end Source

namespace Decoder

variable {s t : Source} {tail : Bytes}

/-! ### Sequences of readers -/

@[simp] theorem pure_apply (a : α) (s : Source) : (pure a : Decoder α) s = .ok a s := rfl

@[simp] theorem throw_apply (e : Fault) (s : Source) :
    (throw e : Decoder α) s = .error e s := rfl

theorem bind_of_ok {d : Decoder α} {f : α → Decoder β} {a : α} (h : d s = .ok a t) :
    (d >>= f) s = f a t := by
  simp [bind, EStateM.bind, h]

theorem bind_of_error {d : Decoder α} {f : α → Decoder β} {e : Fault} (h : d s = .error e t) :
    (d >>= f) s = .error e t := by
  simp [bind, EStateM.bind, h]

/-- What a decoder gives and where it stops can be evaluated together. -/
theorem exists_of_run' {d : Decoder α} {a : α} {n : Nat}
    (h : (d >>= fun a => (a, ·) <$> Decoder.position).run' s = some (a, n)) :
    ∃ t, d s = .ok a t ∧ t.position = n := by
  cases hd : d s with
  | error e t =>
    delta EStateM.run' EStateM.run at h
    rw [bind_of_error hd] at h
    cases h
  | ok b t =>
    delta EStateM.run' EStateM.run at h
    rw [bind_of_ok hd] at h
    cases h
    exact ⟨t, rfl, rfl⟩

theorem exists_of_bind {d : Decoder α} {f : α → Decoder β} {b : β}
    (h : (d >>= f) s = .ok b t) : ∃ a r, d s = .ok a r ∧ f a r = .ok b t := by
  simp only [bind, EStateM.bind] at h
  split at h
  · exact ⟨_, _, by assumption, h⟩
  · exact absurd h (by simp)

/-! ### Bytes and words -/

theorem byte_eq_ok_iff {b : UInt8} :
    byte s = .ok b t ↔ s.rest.head? = some b ∧ t = s.advance 1 := by
  rw [byte, Source.getElem?_position]
  cases s.rest.head? <;> simp [eq_comm]

theorem byte_of_rest {b : UInt8} (h : s.rest = b :: tail) : byte s = .ok b (s.advance 1) :=
  byte_eq_ok_iff.2 ⟨by simp [h], rfl⟩

theorem rest_of_byte {b : UInt8} (h : byte s = .ok b t) : s.rest = b :: t.rest := by
  obtain ⟨hb, rfl⟩ := byte_eq_ok_iff.1 h
  obtain ⟨bs, hbs⟩ := List.head?_eq_some_iff.1 hb
  rw [Source.rest_advance, hbs]
  rfl

theorem bytes_eq_ok_iff {bs : Bytes} {count : Nat} : bytes count s = .ok bs t ↔
    s.position + count ≤ s.image.size ∧ bs = s.rest.take count ∧ t = s.advance count := by
  have hrest : (s.image.extract s.position (s.position + count)).toList = s.rest.take count := by
    rw [Array.toList_extract, List.extract_eq_take_drop, Nat.add_sub_cancel_left, Source.rest]
  rw [bytes, hrest]
  split
  · rename_i hle
    simp [hle, eq_comm]
  · rename_i hgt
    simp [hgt]

theorem rest_of_bytes {bs : Bytes} {count : Nat} (h : bytes count s = .ok bs t) :
    s.rest = bs ++ t.rest ∧ bs.length = count ∧ t = s.advance bs.length := by
  obtain ⟨hle, rfl, rfl⟩ := bytes_eq_ok_iff.1 h
  have hlen : (s.rest.take count).length = count := by
    rw [List.length_take, Source.length_rest, Source.remaining]
    omega
  rw [hlen, Source.rest_advance, List.take_append_drop]
  exact ⟨rfl, rfl, rfl⟩

/-- At the end of the image no bytes can still be read, past it not even those. -/
theorem bytes_of_rest {bs : Bytes} (hs : s.position ≤ s.image.size) (h : s.rest = bs ++ tail) :
    bytes bs.length s = .ok bs (s.advance bs.length) := by
  have hl : bs.length ≤ s.image.size - s.position := by
    rw [← Source.remaining, ← Source.length_rest, h, List.length_append]
    omega
  exact bytes_eq_ok_iff.2 ⟨by omega, by rw [h, List.take_left], rfl⟩

theorem half_of_rest {n : Nat} (hn : n < 2 ^ 16) (h : s.rest = Word.half n ++ tail) :
    half s = .ok n (s.advance 2) := by
  have hs := Source.position_lt_of_rest h
  have hb := bytes_of_rest (Nat.le_of_lt hs) h
  rw [Word.half_length] at hb
  rw [half, bind_of_ok hb, pure_apply, Word.half, Word.ofBytes_bytes_of_lt (by omega)]

theorem word_of_rest {n : Nat} (hn : n < 2 ^ 32) (h : s.rest = Word.full n ++ tail) :
    word s = .ok n (s.advance 4) := by
  have hs := Source.position_lt_of_rest h
  have hb := bytes_of_rest (Nat.le_of_lt hs) h
  rw [Word.full_length] at hb
  rw [word, bind_of_ok hb, pure_apply, Word.full, Word.ofBytes_bytes_of_lt (by omega)]

/-! ### Numbers in seven-bit groups -/

theorem groupsWithin_of_rest {bs : Bytes} {limit : Nat} (failure : Fault)
    (hbs : Leb128.IsNumber bs) (hl : bs.length ≤ limit) (h : s.rest = bs ++ tail) :
    groupsWithin failure limit s = .ok (Leb128.groups bs) (s.advance bs.length) := by
  induction bs generalizing s limit with
  | nil => exact absurd hbs id
  | cons b bs ih =>
    obtain ⟨limit, rfl⟩ := Nat.exists_eq_add_one.2 (Nat.lt_of_lt_of_le (Nat.succ_pos _) hl)
    rw [groupsWithin, bind_of_ok (byte_of_rest h)]
    simp only [Leb128.IsNumber] at hbs
    split
    · rename_i hb
      rw [if_pos hb] at hbs
      have : b.toNat < 128 := UInt8.lt_iff_toNat_lt.1 hb
      simp [hbs, Leb128.groups, Nat.mod_eq_of_lt this]
    · rename_i hb
      rw [if_neg hb] at hbs
      have hr : (s.advance 1).rest = bs ++ tail := by rw [Source.rest_advance, h]; rfl
      rw [bind_of_ok (ih hbs (by simpa using hl) hr)]
      simp [Leb128.groups, Nat.add_comm]

theorem rest_of_groupsWithin {failure : Fault} {limit : Nat} {gs : List Nat}
    (h : groupsWithin failure limit s = .ok gs t) :
    ∃ bs, Leb128.IsNumber bs ∧ bs.length ≤ limit ∧ gs = Leb128.groups bs ∧
      s.rest = bs ++ t.rest ∧ t = s.advance bs.length := by
  induction limit generalizing s gs with
  | zero => exact absurd h (by simp [groupsWithin])
  | succ limit ih =>
    rw [groupsWithin] at h
    obtain ⟨b, r, hb, h⟩ := exists_of_bind h
    have hr := rest_of_byte hb
    obtain ⟨-, rfl⟩ := byte_eq_ok_iff.1 hb
    split at h
    · rename_i hlt
      have : b.toNat < 128 := UInt8.lt_iff_toNat_lt.1 hlt
      simp only [pure_apply, EStateM.Result.ok.injEq] at h
      obtain ⟨rfl, rfl⟩ := h
      exact ⟨[b], by simp [Leb128.IsNumber, hlt], by simp,
        by simp [Leb128.groups, Nat.mod_eq_of_lt this], hr, rfl⟩
    · rename_i hlt
      obtain ⟨gs', r, hg, h⟩ := exists_of_bind h
      simp only [pure_apply, EStateM.Result.ok.injEq] at h
      obtain ⟨rfl, rfl⟩ := h
      obtain ⟨bs, h1, h2, rfl, h4, rfl⟩ := ih hg
      refine ⟨b :: bs, ?_, by simpa using h2, rfl, ?_, by simp [Nat.add_comm]⟩
      · simpa [Leb128.IsNumber, hlt] using h1
      · rw [hr, h4]
        rfl

theorem groups_of_rest {bs : Bytes} (defect : Defect) (hbs : Leb128.IsNumber bs)
    (hl : bs.length ≤ Leb128.maxGroups) (h : s.rest = bs ++ tail) :
    groups defect s = .ok (Leb128.groups bs) (s.advance bs.length) :=
  groupsWithin_of_rest _ hbs hl h

theorem unsignedWithLength_of_rest {n : Nat} (hn : n < 2 ^ 32)
    (h : s.rest = Leb128.unsigned n ++ tail) :
    unsignedWithLength s =
      .ok (n, Leb128.unsignedSize n) (s.advance (Leb128.unsignedSize n)) := by
  have hl : (Leb128.unsigned n).length = Leb128.unsignedSize n := Leb128.length_unsigned n
  have hm : Leb128.unsignedSize n ≤ Leb128.maxGroups := Leb128.unsignedSize_le hn
  have hg := groups_of_rest .overlongUnsigned (Leb128.isNumber_unsigned n) (by rw [hl]; exact hm) h
  rw [hl] at hg
  rw [unsignedWithLength, bind_of_ok hg, pure_apply, Leb128.wordOfGroups_unsigned hn,
    Leb128.length_groups, hl]

theorem unsigned_of_rest {n : Nat} (hn : n < 2 ^ 32) (h : s.rest = Leb128.unsigned n ++ tail) :
    unsigned s = .ok n (s.advance (Leb128.unsignedSize n)) := by
  rw [unsigned, bind_of_ok (unsignedWithLength_of_rest hn h)]
  rfl

theorem plusOne_of_rest {m : Option Nat} (hm : ∀ n ∈ m, n + 1 < 2 ^ 32)
    (h : s.rest = Leb128.plusOne m ++ tail) :
    plusOne s = .ok m (s.advance (Leb128.plusOneSize m)) := by
  cases m with
  | none =>
    rw [plusOne, bind_of_ok (unsigned_of_rest (by decide) h),
      Leb128.unsignedSize_of_lt (by decide)]
    rfl
  | some n =>
    rw [plusOne, bind_of_ok (unsigned_of_rest (hm n rfl) h)]
    rfl

theorem signed_of_rest {v : Int} (hv : -2 ^ 31 ≤ v ∧ v < 2 ^ 31)
    (h : s.rest = Leb128.signed v ++ tail) :
    signed s = .ok v (s.advance (Leb128.signedSize v)) := by
  have hg := groups_of_rest .overlongSigned (Leb128.isNumber_signed v)
    (Leb128.length_signed_le hv) h
  rw [Leb128.length_signed] at hg
  rw [signed, bind_of_ok hg, Leb128.intOfGroups_signed hv]
  rfl

end Decoder

end DexContainer
