import Mathlib.Algebra.BigOperators.Group.List.Basic
import DexContainer.Proofs.Container.Integrity

/-! Damage to one byte of a stamped image. The first running sum of the checksum changes with any
byte that it covers, by less than its modulus, and the stored checksum changes with any byte of its
own; from the end of the magic on there is no other byte. Main statement: `detects_damage`, the
check names the checksum as what is wrong, and a reader that asks for it decodes nothing. -/

namespace DexContainer

namespace Adler32

variable {bs : Bytes} {i : Nat} {b : UInt8}

/-- The first running sum is that of the bytes. -/
theorem bytes_foldl_add {s : Sums} (hs : s.bytes < modulus) (bs : Bytes) :
    (bs.foldl Sums.add s).bytes = (s.bytes + (bs.map UInt8.toNat).sum) % modulus := by
  induction bs generalizing s with
  | nil => exact (Nat.mod_eq_of_lt hs).symm
  | cons b bs ih =>
    have hstep : (s.add b).bytes = (s.bytes + b.toNat) % modulus := rfl
    rw [List.foldl_cons, ih (hstep ▸ Nat.mod_lt _ (by decide)), hstep, Nat.mod_add_mod,
      List.map_cons, List.sum_cons, Nat.add_assoc]

/-- The low half of the checksum is one more than the sum of the bytes. -/
theorem toNat_checksum_mod (bs : Bytes) :
    (checksum bs).toNat % 65536 = (1 + (bs.map UInt8.toNat).sum) % modulus := by
  have hbytes : (bs.foldl Sums.add {}).bytes = (1 + (bs.map UInt8.toNat).sum) % modulus :=
    bytes_foldl_add (by decide) bs
  have hlt : (1 + (bs.map UInt8.toNat).sum) % modulus < 65521 := Nat.mod_lt _ (by decide)
  rw [checksum, Sums.word, UInt32.toNat_ofNat', hbytes]
  omega

theorem sum_set (hi : i < bs.length) : ((bs.set i b).map UInt8.toNat).sum + bs[i].toNat =
    (bs.map UInt8.toNat).sum + b.toNat := by
  have hnew := List.sum_set (bs.map UInt8.toNat) i b.toNat
  have hold := List.sum_set (bs.map UInt8.toNat) i bs[i].toNat
  rw [← List.map_set] at hnew hold
  rw [List.set_getElem_self] at hold
  rw [if_pos (by rwa [List.length_map])] at hnew hold
  omega

/-- Another byte in one place gives another checksum. -/
theorem checksum_set_ne (hi : i < bs.length) (hb : b ≠ bs[i]) :
    checksum (bs.set i b) ≠ checksum bs := by
  intro heq
  have hnew := toNat_checksum_mod (bs.set i b)
  have hold := toNat_checksum_mod bs
  rw [heq, hold] at hnew
  have hsum := sum_set (b := b) hi
  -- two different bytes are less than the modulus apart
  have hbyte := b.toNat_lt
  have hbyte' := bs[i].toNat_lt
  have hne : b.toNat ≠ bs[i].toNat := fun h => hb (UInt8.toNat_inj.1 h)
  unfold modulus at hnew
  omega

end Adler32

namespace Container

variable {r : RowOrder} {image : Image} {o : Options} {e : Fault}

/-- Reading by any decoder behind the checks that precede decoding. -/
def ofImageBy (decoder : Options → Decoder Container) (image : Image) (o : Options) :
    Except Fault Container := do
  if image.size < Header.length then throw (.bufferTooSmall image.size)
  if o.verifyIntegrity then Stamp.verify image
  match decoder o { image, keepsSigned := o.preserveSignedRegisters } with
  | .ok c _ => return c
  | .error e _ => throw e

theorem ofImage_eq_ofImageBy : ofImage r image o = ofImageBy (decode r) image o := rfl

/-- Where the integrity is asked for and is not given, no decoder is called. -/
theorem ofImageBy_eq_error (hsize : Header.length ≤ image.size) (ho : o.verifyIntegrity = true)
    (h : Stamp.verify image = .error e) (decoder : Options → Decoder Container) :
    ofImageBy decoder image o = .error e := by
  rw [ofImageBy, if_neg (Nat.not_lt.2 hsize), if_pos ho, h]
  rfl

end Container

namespace Stamp

variable {image : Image} {i : Nat} {b : UInt8}

theorem toList_extract_eq (image : Image) (start stop : Nat) :
    (image.extract start stop).toList = (image.toList.take stop).drop start := by
  rw [Array.toList_extract, List.extract_eq_take_drop, List.drop_take]

/-! ### Damage within the field of the checksum -/

theorem checksum_set_of_lt (hend : signatureEnd ≤ image.size) (hi : i < image.size)
    (h : i < checksumEnd) : checksum (image.set i b) = checksum image := by
  rw [checksum_eq_ok (by rwa [Array.size_set]), checksum_eq_ok hend, Array.toList_set,
    List.drop_set_of_lt h]

theorem storedChecksum_set_ne (hend : signatureEnd ≤ image.size) (hi : i < image.size)
    (hstart : checksumStart ≤ i) (h : i < checksumEnd) (hb : b ≠ image[i]) :
    storedChecksum (image.set i b) ≠ storedChecksum image := by
  intro heq
  have hfield : ((image.set i b).extract checksumStart checksumEnd).toList =
      (image.extract checksumStart checksumEnd).toList := by
    rw [← full_storedChecksum (by rwa [Array.size_set]), heq, full_storedChecksum hend]
  rw [toList_extract_eq, toList_extract_eq, Array.toList_set] at hfield
  have hbyte := congrArg (·[i - checksumStart]?) hfield
  simp only [List.getElem?_drop, Nat.add_sub_cancel' hstart, List.getElem?_take_of_lt h] at hbyte
  rw [List.getElem?_set_self (by rwa [Array.length_toList]), Array.getElem?_toList,
    Array.getElem?_eq_getElem hi] at hbyte
  exact hb (Option.some.inj hbyte)

/-! ### Damage behind it -/

theorem storedChecksum_set_of_le (hi : i < image.size) (h : checksumEnd ≤ i) :
    storedChecksum (image.set i b) = storedChecksum image := by
  rw [storedChecksum, storedChecksum, toList_extract_eq, toList_extract_eq, Array.toList_set,
    List.take_set_of_le h]

theorem checksum_set_ne (hend : signatureEnd ≤ image.size) (hi : i < image.size)
    (h : checksumEnd ≤ i) (hb : b ≠ image[i]) : checksum (image.set i b) ≠ checksum image := by
  rw [checksum_eq_ok (by rwa [Array.size_set]), checksum_eq_ok hend, Array.toList_set,
    List.drop_set, if_neg (Nat.not_lt.2 h)]
  intro heq
  refine Adler32.checksum_set_ne ?_ ?_ (Except.ok.inj heq)
  · rw [List.length_drop, Array.length_toList]
    omega
  · rw [List.getElem_drop]
    simpa only [Nat.add_sub_cancel' h, Array.getElem_toList] using hb

/-! ### Checking -/

/-- The checksum is the first thing that a check looks at. -/
theorem verify_eq_checksumMismatch {computed : UInt32} (h : checksum image = .ok computed)
    (hne : computed ≠ storedChecksum image) :
    verify image = .error (.checksumMismatch (storedChecksum image) computed) := by
  rw [verify, h, ok_bind]
  exact if_pos hne

theorem exists_checksum_ne (hverify : verify image = .ok ()) (hi : i < image.size)
    (hstart : checksumStart ≤ i) (hb : b ≠ image[i]) : ∃ computed,
      checksum (image.set i b) = .ok computed ∧ computed ≠ storedChecksum (image.set i b) := by
  have hend := signatureEnd_le_of_verify hverify
  have hstored := (verify_eq_ok.1 hverify).1
  rcases Nat.lt_or_ge i checksumEnd with h | h
  · refine ⟨storedChecksum image, ?_, (storedChecksum_set_ne hend hi hstart h hb).symm⟩
    rw [checksum_set_of_lt hend hi h, hstored]
  · refine ⟨_, checksum_eq_ok (by rwa [Array.size_set]), fun heq => ?_⟩
    refine checksum_set_ne hend hi h hb ?_
    rw [checksum_eq_ok (by rwa [Array.size_set]), heq, storedChecksum_set_of_le hi h, hstored]

/-! ### Damage before it -/

theorem stamped_set_of_lt {xs : Bytes} (hi : i < xs.length) (h : i < checksumStart) :
    stamped (xs.set i b) = (stamped xs).set i b := by
  have hdrop : (xs.set i b).drop signatureEnd = xs.drop signatureEnd :=
    List.drop_set_of_lt (Nat.lt_trans h (by decide))
  simp only [stamped, checksumOf, signatureOf, hdrop, List.take_set, List.append_assoc]
  refine (List.set_append_left _ _ ?_).symm
  rw [List.length_take]
  exact Nat.lt_min.2 ⟨h, hi⟩

/-- The bytes of the magic are not covered. -/
theorem verify_set_of_lt (hverify : verify image = .ok ()) (hi : i < image.size)
    (h : i < checksumStart) : verify (image.set i b) = .ok () := by
  have hend := signatureEnd_le_of_verify hverify
  rw [verify_eq_ok_iff_stamped (by rwa [Array.size_set]), Array.toList_set,
    stamped_set_of_lt (by rwa [Array.length_toList]) h, (verify_eq_ok_iff_stamped hend).1 hverify]

/-- A stamped buffer in which one byte behind the magic is replaced by another does not pass its
check, which finds another checksum than the one that is stored. A reader that asks for the check
refuses the buffer for the same reason, whatever would decode it. A byte of the magic is not
checked. -/
theorem detects_damage (image : Image) (hend : signatureEnd ≤ image.size) :
    ∃ out, stampInPlace image = .ok () out ∧ out.size = image.size ∧
      ∀ (i : Nat) (hi : i < out.size) (b : UInt8), b ≠ out[i] →
        (checksumStart ≤ i → ∃ computed, checksum (out.set i b) = .ok computed ∧
          verify (out.set i b) =
            .error (.checksumMismatch (storedChecksum (out.set i b)) computed) ∧
          ∀ o : Options, o.verifyIntegrity = true → Header.length ≤ image.size →
            (∀ r, Container.ofImage r (out.set i b) o =
              .error (.checksumMismatch (storedChecksum (out.set i b)) computed)) ∧
            ∀ decoder, Container.ofImageBy decoder (out.set i b) o =
              .error (.checksumMismatch (storedChecksum (out.set i b)) computed)) ∧
        (i < checksumStart → verify (out.set i b) = .ok ()) := by
  have hstamp := stamp_eq hend
  have hverify := verify_of_stamp hstamp
  have hsize : (stamped image.toList).toArray.size = image.size := by
    rw [List.size_toArray, length_stamped hend, Array.length_toList]
  refine ⟨_, stampInPlace_eq_ok.2 hstamp, hsize, fun i hi b hb => ⟨fun hstart => ?_, fun h => ?_⟩⟩
  · obtain ⟨computed, hcomputed, hne⟩ := exists_checksum_ne hverify hi hstart hb
    have herror := verify_eq_checksumMismatch hcomputed hne
    refine ⟨computed, hcomputed, herror, fun o ho hheader => ?_⟩
    have hrefused := Container.ofImageBy_eq_error (by rwa [Array.size_set, hsize]) ho herror
    exact ⟨fun r => hrefused (Container.decode r), hrefused⟩
  · exact verify_set_of_lt hverify hi h

/-- A buffer as long as a header, stamped, is refused when the first byte of its checksum, a byte of
its signature or its last byte is replaced. -/
theorem detects_damage_zeros : ∃ (out : Image) (_ : out.size = 112),
    stampInPlace (Array.replicate 112 0) = .ok () out ∧
    (∃ stored computed, ∀ r, Container.ofImage r (out.set 8 (out[8] + 1))
      { verifyIntegrity := true } = .error (.checksumMismatch stored computed)) ∧
    (∃ stored computed, verify (out.set 12 (out[12] + 1)) =
      .error (.checksumMismatch stored computed)) ∧
    ∃ stored computed, ∀ r, Container.ofImage r (out.set 111 (out[111] + 1))
      { verifyIntegrity := true } = .error (.checksumMismatch stored computed) := by
  have hother (b : UInt8) : b + 1 ≠ b := by simp
  obtain ⟨out, hout, hsize, hdamage⟩ := detects_damage (Array.replicate 112 0) (by decide)
  rw [Array.size_replicate] at hsize
  obtain ⟨first, -, -, hfirst⟩ := (hdamage 8 (by omega) _ (hother _)).1 (by decide)
  obtain ⟨inner, -, hinner, -⟩ := (hdamage 12 (by omega) _ (hother _)).1 (by decide)
  obtain ⟨last, -, -, hlast⟩ := (hdamage 111 (by omega) _ (hother _)).1 (by decide)
  exact ⟨out, hsize, hout, ⟨_, first, (hfirst _ rfl (by decide)).1⟩, ⟨_, inner, hinner⟩,
    _, last, (hlast _ rfl (by decide)).1⟩

end Stamp

end DexContainer
