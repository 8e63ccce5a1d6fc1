import DexContainer.Proofs.Container.Rewriting

/-! The integrity of a buffer. Stamping a buffer that holds both fields succeeds, keeps what lies
outside them and gives a buffer that passes its check; a check tells whether stamping would change
anything. A shorter buffer is refused by both and stays as it was. Main statement:
`stamps_where_long`. -/

namespace DexContainer

namespace Container

/-- A complete file passes its check. -/
theorem verify_of_toImage {c d : Container} {image : Image} (h : c.toImage = .ok (d, image)) :
    Stamp.verify image = .ok () := by
  obtain ⟨e, fileSize, out, -, -, -, hstamp, -⟩ := toImage_eq_ok.1 h
  exact Stamp.verify_of_stamp hstamp

end Container

namespace Stamp

variable {image : Image}

/-- Stamping a buffer where it stands leaves it alone when it fails: the length that the signature
asks for, which comes first, is enough for the checksum. -/
theorem stampInPlace_eq (image : Image) : stampInPlace image =
    match stamp image with
    | .ok out => .ok () out
    | .error e => .error e image := by
  cases h : stamp image with
  | ok out =>
    obtain ⟨signed, hsigned, hout⟩ := bind_eq_ok.1 h
    simp only [stampInPlace, bind, EStateM.bind, inPlace, hsigned, hout]
  | error e =>
    have hshort : image.size < signatureEnd := by
      by_contra hle
      rw [stamp_eq (Nat.le_of_not_lt hle)] at h
      cases h
    rw [stamp_eq_error hshort] at h
    cases h
    have hsigned : writeSignature image = .error (.bufferTooSmall image.size) := by
      rw [writeSignature, signature_eq_error hshort]
      rfl
    simp only [stampInPlace, bind, EStateM.bind, inPlace, hsigned]

theorem stampInPlace_eq_ok {out : Image} :
    stampInPlace image = .ok () out ↔ stamp image = .ok out := by
  rw [stampInPlace_eq]
  cases stamp image <;> simp

/-- Stamping gives a buffer that passes its check where the buffer holds both fields, and a check
tells whether stamping changes it; a shorter buffer is refused and left alone. A complete file
passes its check. -/
theorem stamps_where_long (image : Image) :
    (signatureEnd ≤ image.size → ∃ out, stampInPlace image = .ok () out ∧ out.size = image.size ∧
      (∀ i, i < checksumStart ∨ signatureEnd ≤ i → out[i]? = image[i]?) ∧
      verify out = .ok () ∧ stampInPlace out = .ok () out ∧
      (verify image = .ok () ↔ out = image)) ∧
    (image.size < signatureEnd →
      stampInPlace image = .error (.bufferTooSmall image.size) image ∧ verify image ≠ .ok ()) ∧
    ∀ c d : Container, c.toImage = .ok (d, image) → verify image = .ok () := by
  refine ⟨fun hend => ?_, fun hshort => ⟨?_, fun hverify => ?_⟩, fun c d h => ?_⟩
  · have hstamp := stamp_eq hend
    have hverify := verify_of_stamp hstamp
    refine ⟨_, stampInPlace_eq_ok.2 hstamp, ?_, fun i hi => ?_, hverify,
      stampInPlace_eq_ok.2 (verify_eq_ok_iff_stamp.1 hverify), ?_⟩
    · rw [List.size_toArray, length_stamped hend, Array.length_toList]
    · rw [List.getElem?_toArray, getElem?_stamped hend hi, Array.getElem?_toList]
    · rw [verify_eq_ok_iff_stamp, hstamp, Except.ok.injEq]
  · rw [stampInPlace_eq, stamp_eq_error hshort]
  · exact Nat.not_lt.2 (signatureEnd_le_of_verify hverify) hshort
  · exact Container.verify_of_toImage h

/-- A buffer of 33 zeros is stamped, one of 20, which holds the checksum only, is not, and the
container with one method has a file that passes its check and is not changed when it is stamped
again. -/
theorem stamps_where_long_oneMethod :
    (∃ out, stampInPlace (Array.replicate 33 0) = .ok () out ∧ out[32]? = some 0 ∧
      verify out = .ok ()) ∧
    stampInPlace (Array.replicate 20 0) = .error (.bufferTooSmall 20) (Array.replicate 20 0) ∧
    ∃ c d image, Container.oneMethod = .ok c ∧ c.toImage = .ok (d, image) ∧ image.size = 284 ∧
      verify image = .ok () ∧ stampInPlace image = .ok () image := by
  refine ⟨?_, ?_, ?_⟩
  · obtain ⟨out, hout, -, hkept, hverify, -⟩ :=
      (stamps_where_long (Array.replicate 33 0)).1 (by decide)
    exact ⟨out, hout, hkept 32 (.inr (by decide)), hverify⟩
  · exact ((stamps_where_long (Array.replicate 20 0)).2.1 (by decide)).1
  · obtain ⟨c, d, image, hc, himage, hsize⟩ := Container.exists_toImage_oneMethod
    obtain ⟨hlong, -, hfile⟩ := stamps_where_long image
    obtain ⟨out, hout, -, -, -, -, hiff⟩ := hlong (by rw [hsize]; decide)
    have hverify := hfile c d himage
    exact ⟨c, d, image, hc, himage, hsize, hverify, hiff.1 hverify ▸ hout⟩

end Stamp

end DexContainer
