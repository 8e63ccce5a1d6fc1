import DexContainer.Stamp
import DexContainer.Proofs.Outcome

/-! What stamping makes of an image. Main statements: `stamp_eq`, stamping replaces the two
integrity fields and nothing else, by values that the rest of the image determines; and
`verify_eq_ok_iff_stamp`, an image passes its check exactly when stamping does not change it. -/

namespace DexContainer.Stamp

variable {image : Image} {xs ys : Bytes}

/-- The signature of an image with some bytes. -/
def signatureOf (xs : Bytes) : Bytes := Sha1.digest (xs.drop signatureEnd)

/-- The checksum of an image with some bytes, once it is signed. -/
def checksumOf (xs : Bytes) : UInt32 :=
  Adler32.checksum (signatureOf xs ++ xs.drop signatureEnd)

/-- The bytes of a stamped image. -/
def stamped (xs : Bytes) : Bytes :=
  xs.take checksumStart ++ Word.full (checksumOf xs).toNat ++ signatureOf xs ++ xs.drop signatureEnd

theorem toList_overwrite {bs : Bytes} {start : Nat} (h : start + bs.length ≤ image.size) :
    (overwrite image start bs).toList =
      image.toList.take start ++ bs ++ image.toList.drop (start + bs.length) := by
  rw [overwrite, List.take_of_length_le]
  simp only [List.length_append, List.length_take, List.length_drop, Array.length_toList]
  omega

theorem size_overwrite {bs : Bytes} {start : Nat} (h : start + bs.length ≤ image.size) :
    (overwrite image start bs).size = image.size := by
  rw [← Array.length_toList, toList_overwrite h]
  simp only [List.length_append, List.length_take, List.length_drop, Array.length_toList]
  omega

theorem checksum_eq_ok (h : signatureEnd ≤ image.size) :
    checksum image = .ok (Adler32.checksum (image.toList.drop checksumEnd)) :=
  if_neg (Nat.not_lt.2 (Nat.le_trans (by decide) h))

theorem signature_eq_ok (h : signatureEnd ≤ image.size) :
    signature image = .ok (signatureOf image.toList) := if_neg (Nat.not_lt.2 h)

theorem signature_eq_error (h : image.size < signatureEnd) :
    signature image = .error (.bufferTooSmall image.size) := if_pos h

/-- Stamping replaces the two fields. -/
theorem stamp_eq (h : signatureEnd ≤ image.size) :
    stamp image = .ok (stamped image.toList).toArray := by
  have hlength : (signatureOf image.toList).length = 20 := Sha1.digest_length _
  have hend : checksumEnd + (signatureOf image.toList).length ≤ image.size := by
    rw [hlength]
    exact h
  generalize hsigned : overwrite image checksumEnd (signatureOf image.toList) = signed
  have hsize : signed.size = image.size := by rw [← hsigned, size_overwrite hend]
  have hbytes : signed.toList = image.toList.take checksumEnd ++ signatureOf image.toList ++
      image.toList.drop signatureEnd := by
    rw [← hsigned, toList_overwrite hend, hlength]
    rfl
  have htake : (image.toList.take checksumEnd).length = checksumEnd := by
    rw [List.length_take, Array.length_toList]
    exact Nat.min_eq_left (Nat.le_trans (by decide) h)
  have hchecksum : checksum signed = .ok (checksumOf image.toList) := by
    rw [checksum_eq_ok (hsize ▸ h), hbytes, List.append_assoc, List.drop_left' htake]
    rfl
  have hword : (Word.full (checksumOf image.toList).toNat).length = 4 := Word.full_length _
  have hfield :
      checksumStart + (Word.full (checksumOf image.toList).toNat).length ≤ signed.size := by
    rw [hword, hsize]
    exact Nat.le_trans (by decide) h
  rw [stamp, writeSignature, signature_eq_ok h, ok_bind, pure_bind, writeChecksum, hsigned,
    hchecksum,
    ok_bind, pure_eq]
  congr 1
  apply Array.toList_inj.1
  rw [toList_overwrite hfield, hword, hbytes, stamped]
  have hhead : (image.toList.take checksumEnd ++ signatureOf image.toList ++
      image.toList.drop signatureEnd).take checksumStart = image.toList.take checksumStart := by
    rw [List.append_assoc, List.take_append_of_le_length (by rw [htake]; decide), List.take_take]
    rfl
  have htail : (image.toList.take checksumEnd ++ signatureOf image.toList ++
      image.toList.drop signatureEnd).drop (checksumStart + 4) =
        signatureOf image.toList ++ image.toList.drop signatureEnd := by
    rw [List.append_assoc]
    exact List.drop_left' htake
  rw [hhead, htail, List.append_assoc (image.toList.take checksumStart ++ _)]

theorem stamp_eq_error (h : image.size < signatureEnd) :
    stamp image = .error (.bufferTooSmall image.size) := by
  rw [stamp, writeSignature, signature_eq_error h]
  rfl

theorem stamp_eq_ok {out : Image} : stamp image = .ok out ↔
    signatureEnd ≤ image.size ∧ (stamped image.toList).toArray = out := by
  by_cases h : signatureEnd ≤ image.size
  · rw [stamp_eq h, Except.ok.injEq, and_iff_right h]
  · rw [stamp_eq_error (Nat.lt_of_not_le h)]
    constructor
    · intro heq
      cases heq
    · rintro ⟨hle, -⟩
      exact absurd hle h

theorem length_stamped (h : signatureEnd ≤ xs.length) : (stamped xs).length = xs.length := by
  have hlength : (signatureOf xs).length = 20 := Sha1.digest_length _
  have h8 : checksumStart = 8 := rfl
  have h32 : signatureEnd = 32 := rfl
  simp only [stamped, List.length_append, List.length_take, List.length_drop, Word.full_length,
    hlength]
  omega

/-- The fields themselves do not count. -/
theorem stamped_congr (hhead : xs.take checksumStart = ys.take checksumStart)
    (htail : xs.drop signatureEnd = ys.drop signatureEnd) : stamped xs = stamped ys := by
  simp only [stamped, checksumOf, signatureOf, hhead, htail]

theorem length_take_checksumStart (h : signatureEnd ≤ xs.length) :
    (xs.take checksumStart).length = checksumStart := by
  rw [List.length_take]
  exact Nat.min_eq_left (Nat.le_trans (by decide) h)

theorem drop_checksumEnd_stamped (h : signatureEnd ≤ xs.length) :
    (stamped xs).drop checksumEnd = signatureOf xs ++ xs.drop signatureEnd := by
  have hlength :
      (xs.take checksumStart ++ Word.full (checksumOf xs).toNat).length = checksumEnd := by
    rw [List.length_append, length_take_checksumStart h, Word.full_length]
    rfl
  rw [stamped, List.append_assoc (xs.take checksumStart ++ _)]
  exact List.drop_left' hlength

theorem drop_stamped (h : signatureEnd ≤ xs.length) :
    (stamped xs).drop signatureEnd = xs.drop signatureEnd := by
  have hlength : (signatureOf xs).length = 20 := Sha1.digest_length _
  have hdrop : (stamped xs).drop signatureEnd = ((stamped xs).drop checksumEnd).drop 20 := by
    rw [List.drop_drop]
    rfl
  rw [hdrop, drop_checksumEnd_stamped h]
  exact List.drop_left' hlength

/-- Stamping changes nothing outside the two fields. -/
theorem getElem?_stamped (h : signatureEnd ≤ xs.length) {i : Nat}
    (hi : i < checksumStart ∨ signatureEnd ≤ i) : (stamped xs)[i]? = xs[i]? := by
  rcases hi with hi | hi
  · have hhead : (stamped xs).take checksumStart = xs.take checksumStart := by
      rw [stamped, List.append_assoc, List.append_assoc]
      exact List.take_left' (length_take_checksumStart h)
    rw [← List.getElem?_take_of_lt hi, hhead, List.getElem?_take_of_lt hi]
  · obtain ⟨n, rfl⟩ := Nat.exists_eq_add_of_le hi
    rw [← List.getElem?_drop, drop_stamped h, List.getElem?_drop]

/-! ### Checking -/

/-- An image passes its check when both fields can be computed and hold what is computed. -/
theorem verify_eq_ok : verify image = .ok () ↔ checksum image = .ok (storedChecksum image) ∧
    signature image = .ok (storedSignature image) := by
  rw [verify]
  cases checksum image with
  | error e => simp [bind, Except.bind]
  | ok computed =>
    rw [ok_bind]
    by_cases hchecksum : computed = storedChecksum image
    · simp only [hchecksum, ne_eq, not_true, if_false]
      cases signature image with
      | error e => simp [bind, Except.bind]
      | ok computed =>
        by_cases hsignature : computed = storedSignature image
        · simp [hsignature]
        · simp [hsignature]
    · simp [hchecksum]

/-- A stamped image passes its check. -/
theorem verify_stamped (h : signatureEnd ≤ xs.length) : verify (stamped xs).toArray = .ok () := by
  have hsize : signatureEnd ≤ (stamped xs).toArray.size := by
    rwa [List.size_toArray, length_stamped h]
  have hlength : (signatureOf xs).length = 20 := Sha1.digest_length _
  have hchecksum : checksum (stamped xs).toArray = .ok (checksumOf xs) := by
    rw [checksum_eq_ok hsize, drop_checksumEnd_stamped h]
    rfl
  have hsignature : signature (stamped xs).toArray = .ok (signatureOf xs) := by
    rw [signature_eq_ok hsize, signatureOf, drop_stamped h]
    rfl
  have hstored : storedChecksum (stamped xs).toArray = checksumOf xs := by
    have hextract : ((stamped xs).toArray.extract checksumStart checksumEnd).toList =
        Word.full (checksumOf xs).toNat := by
      have hdrop : (stamped xs).drop checksumStart = Word.full (checksumOf xs).toNat ++
          (signatureOf xs ++ xs.drop signatureEnd) := by
        rw [stamped, List.append_assoc, List.append_assoc]
        exact List.drop_left' (length_take_checksumStart h)
      rw [Array.toList_extract, List.extract_eq_take_drop, hdrop]
      exact List.take_left' (Word.full_length _)
    rw [storedChecksum, hextract, Word.full, Word.ofBytes_bytes_of_lt (checksumOf xs).toNat_lt,
      UInt32.ofNat_toNat]
  have hsigned : storedSignature (stamped xs).toArray = signatureOf xs := by
    rw [storedSignature, Array.toList_extract, List.extract_eq_take_drop,
      drop_checksumEnd_stamped h]
    exact List.take_left' hlength
  exact verify_eq_ok.2 ⟨hstored ▸ hchecksum, hsigned ▸ hsignature⟩

theorem toList_extract_append (image : Image) {start stop : Nat} (h : start ≤ stop) :
    (image.extract start stop).toList ++ image.toList.drop stop = image.toList.drop start := by
  obtain ⟨n, rfl⟩ := Nat.exists_eq_add_of_le h
  rw [Array.toList_extract, List.extract_eq_take_drop, Nat.add_sub_cancel_left, ← List.drop_drop,
    List.take_append_drop]

/-- The checksum that an image carries is written as it stands there. -/
theorem full_storedChecksum (h : signatureEnd ≤ image.size) :
    Word.full (storedChecksum image).toNat = (image.extract checksumStart checksumEnd).toList := by
  have hlength : (image.extract checksumStart checksumEnd).toList.length = 4 := by
    have h32 : 32 ≤ image.size := h
    rw [Array.length_toList, Array.size_extract, checksumStart, checksumEnd]
    omega
  have hword := Word.ofBytes_lt (image.extract checksumStart checksumEnd).toList
  rw [hlength] at hword
  rw [storedChecksum, UInt32.toNat_ofNat_of_lt' hword, Word.full]
  exact hlength ▸ Word.bytes_ofBytes _

theorem verify_eq_ok_iff_stamped (h : signatureEnd ≤ image.size) :
    verify image = .ok () ↔ stamped image.toList = image.toList := by
  constructor
  · intro hverify
    obtain ⟨hchecksum, hsignature⟩ := verify_eq_ok.1 hverify
    rw [signature_eq_ok h] at hsignature
    rw [checksum_eq_ok h] at hchecksum
    have hsigned : signatureOf image.toList ++ image.toList.drop signatureEnd =
        image.toList.drop checksumEnd := by
      rw [Except.ok.inj hsignature]
      exact toList_extract_append image (by decide)
    have hsum : checksumOf image.toList = storedChecksum image := by
      rw [checksumOf, hsigned]
      exact Except.ok.inj hchecksum
    rw [stamped, hsum, full_storedChecksum h, List.append_assoc, hsigned, List.append_assoc,
      toList_extract_append image (by decide), List.take_append_drop]
  · intro hstamped
    have hverify : verify (stamped image.toList).toArray = .ok () := verify_stamped h
    rwa [hstamped] at hverify

/-- A short buffer does not pass its check, also where its checksum can be computed. -/
theorem signatureEnd_le_of_verify (h : verify image = .ok ()) : signatureEnd ≤ image.size := by
  by_contra hshort
  have hsignature := signature_eq_error (Nat.lt_of_not_le hshort)
  rw [(verify_eq_ok.1 h).2] at hsignature
  cases hsignature

/-- A buffer passes its check exactly when stamping leaves it as it is. -/
theorem verify_eq_ok_iff_stamp : verify image = .ok () ↔ stamp image = .ok image := by
  constructor
  · intro h
    have hend := signatureEnd_le_of_verify h
    rw [stamp_eq hend, (verify_eq_ok_iff_stamped hend).1 h]
  · intro h
    obtain ⟨hend, hout⟩ := stamp_eq_ok.1 h
    exact (verify_eq_ok_iff_stamped hend).2 (congrArg Array.toList hout)

theorem verify_of_stamp {out : Image} (h : stamp image = .ok out) : verify out = .ok () := by
  obtain ⟨hend, rfl⟩ := stamp_eq_ok.1 h
  exact verify_stamped hend

end DexContainer.Stamp
