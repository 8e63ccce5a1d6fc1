import DexContainer.Proofs.Takes

/-! Numbers and their shortest forms. A reader that meets the form that a writer gives to a number
takes exactly the bytes of that form, whatever follows. It also accepts longer forms, and in five
groups it drops the bits that a word has no room for, but it never finds a number in fewer bytes
than the writer needs. Main statement: `isCodec_words`. -/

namespace DexContainer

variable {α : Type} {s t : Source}

/-- What is told of the bytes that a reader takes, whatever references it meets. -/
theorem Takes.exists_bytes {d : Decoder α} {P : α → Bytes → Prop} {x : α}
    (hd : ∀ ρ p, Takes ρ p d P) (h : d s = .ok x t) :
    ∃ bs, s.rest = bs ++ t.rest ∧ t.position = s.position + bs.length ∧ P x bs := by
  obtain ⟨-, bs, hrest, hposition, hP⟩ := hd t.references.handleOf s.position s x t h rfl
  exact ⟨bs, hrest, hposition, hP (References.names_handleOf _)⟩

namespace Leb128

/-- A writer of some values, the measure of what it writes, and a reader fit together: what was
written is read back up to its end and no further, and the reader accepts no shorter run of bytes as
the value. -/
structure IsCodec (write : α → Bytes) (size : α → Nat) (d : Decoder α) (holds : α → Prop) :
    Prop where
  length_write : ∀ x : α, (write x).length = size x
  read_write : ∀ (x : α) (s : Source) (tail : Bytes), holds x → s.rest = write x ++ tail →
    d s = .ok x (s.advance (write x).length)
  length_le : ∀ (x : α) (s t : Source), d s = .ok x t →
    ∃ bs, s.rest = bs ++ t.rest ∧ t.position = s.position + bs.length ∧
      (write x).length ≤ bs.length

theorem isCodec_unsigned : IsCodec unsigned unsignedSize Decoder.unsigned (· < 2 ^ 32) where
  length_write := length_unsigned
  read_write n s tail hn hs := by
    rw [length_unsigned]
    exact Decoder.unsigned_of_rest hn hs
  length_le n s t h := by
    obtain ⟨bs, hrest, hposition, -, hle⟩ := Takes.exists_bytes (fun _ _ => Takes.unsigned) h
    exact ⟨bs, hrest, hposition, length_unsigned n ▸ hle⟩

theorem isCodec_signed : IsCodec signed signedSize Decoder.signed fun v =>
    -2 ^ 31 ≤ v ∧ v < 2 ^ 31 where
  length_write := length_signed
  read_write v s tail hv hs := by
    rw [length_signed]
    exact Decoder.signed_of_rest hv hs
  length_le v s t h := by
    obtain ⟨bs, hrest, hposition, -, hle⟩ := Takes.exists_bytes (fun _ _ => Takes.signed) h
    exact ⟨bs, hrest, hposition, length_signed v ▸ hle⟩

theorem isCodec_plusOne : IsCodec plusOne plusOneSize Decoder.plusOne fun m =>
    ∀ n ∈ m, n + 1 < 2 ^ 32 where
  length_write := length_plusOne
  read_write m s tail hm hs := by
    rw [length_plusOne]
    exact Decoder.plusOne_of_rest hm hs
  length_le m s t h := by
    obtain ⟨bs, hrest, hposition, hle⟩ := Takes.exists_bytes (fun _ _ => Takes.plusOne) h
    exact ⟨bs, hrest, hposition, length_plusOne m ▸ hle⟩

/-- Every word is read back from its form and has no shorter one, and so have every signed word and
every optional number that leaves room for the absent one. The reader that counts tells the length
of the form for what was written, and never less for what it accepts. -/
theorem isCodec_words :
    (∀ (n : UInt32) (s : Source) (tail : Bytes), s.rest = unsigned n.toNat ++ tail →
      Decoder.unsignedWithLength s = .ok (n.toNat, unsignedSize n.toNat)
        (s.advance (unsigned n.toNat).length)) ∧
    (∀ (n length : Nat) (s t : Source), Decoder.unsignedWithLength s = .ok (n, length) t →
      t.position = s.position + length ∧ unsignedSize n ≤ length) ∧
    IsCodec unsigned unsignedSize Decoder.unsigned (· < 2 ^ 32) ∧
    IsCodec signed signedSize Decoder.signed (fun v => -2 ^ 31 ≤ v ∧ v < 2 ^ 31) ∧
    IsCodec plusOne plusOneSize Decoder.plusOne fun m => ∀ n ∈ m, n + 1 < 2 ^ 32 := by
  refine ⟨fun n s tail hs => ?_, fun n length s t h => ?_, isCodec_unsigned, isCodec_signed,
    isCodec_plusOne⟩
  · rw [length_unsigned]
    exact Decoder.unsignedWithLength_of_rest n.toNat_lt hs
  · obtain ⟨bs, -, hposition, -, hlength, hle⟩ :=
      Takes.exists_bytes (fun _ _ => Takes.unsignedWithLength) h
    obtain rfl : length = bs.length := hlength
    exact ⟨hposition, hle⟩

/-- The largest word is read up to the byte behind it, and it is accepted from five bytes that hold
bits above the word, too. The least signed word fills five groups, and the largest number that
leaves room for the absent one is written as the largest word. -/
theorem isCodec_words_extremes :
    Decoder.unsignedWithLength { image := #[0xff, 0xff, 0xff, 0xff, 0x0f, 0x2a] } =
      .ok (0xffffffff, 5) { image := #[0xff, 0xff, 0xff, 0xff, 0x0f, 0x2a], position := 5 } ∧
    (∃ t, Decoder.unsignedWithLength { image := #[0xff, 0xff, 0xff, 0xff, 0x7f] } =
      .ok (0xffffffff, 5) t ∧ t.position = 5 ∧ unsignedSize 0xffffffff ≤ 5) ∧
    Decoder.signed { image := #[0x80, 0x80, 0x80, 0x80, 0x78] } =
      .ok (-2 ^ 31) { image := #[0x80, 0x80, 0x80, 0x80, 0x78], position := 5 } ∧
    Decoder.plusOne { image := #[0xff, 0xff, 0xff, 0xff, 0x0f] } =
      .ok (some 0xfffffffe) { image := #[0xff, 0xff, 0xff, 0xff, 0x0f], position := 5 } := by
  have hmany : Decoder.unsignedWithLength { image := #[0xff, 0xff, 0xff, 0xff, 0x7f] } =
      .ok (0xffffffff, 5) { image := #[0xff, 0xff, 0xff, 0xff, 0x7f], position := 5 } := by
    cbv
  obtain ⟨hwritten, hlength, -, hsigned, hplusOne⟩ := isCodec_words
  have hword := hwritten 0xffffffff { image := #[0xff, 0xff, 0xff, 0xff, 0x0f, 0x2a] } [0x2a]
    (by cbv)
  have hform : signed (-2 ^ 31) = [0x80, 0x80, 0x80, 0x80, 0x78] := by simp [signed, fitsGroup]
  have hleast := hsigned.read_write (-2 ^ 31) { image := #[0x80, 0x80, 0x80, 0x80, 0x78] } []
    (by decide) (by rw [hform]; rfl)
  have hlargest := hplusOne.read_write (some 0xfffffffe)
    { image := #[0xff, 0xff, 0xff, 0xff, 0x0f] } [] (by simp) (by cbv)
  refine ⟨?_, ⟨_, hmany, hlength _ _ _ _ hmany⟩, ?_, ?_⟩
  · rw [hword]
    cbv
  · rw [hleast, hform]
    rfl
  · rw [hlargest]
    cbv

end Leb128

end DexContainer
