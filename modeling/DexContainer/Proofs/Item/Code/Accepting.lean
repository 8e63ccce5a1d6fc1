import DexContainer.Proofs.Item.Code.Reading
import DexContainer.Proofs.Takes

/-! Method bodies that a reader accepts can be written again. The image may hold longer forms of
numbers than a writer uses, so handlers can only move towards the front when they are written again.
Main statements: `Code.takes`, a body that was read is written in no more bytes, and no handler
further back than the image tells; and so the offsets that are written for its handlers fit into 16
bits, as the offsets in the image did. -/

namespace DexContainer

variable {places : Places} {keeps : Bool} {given : References → Prop} {ρ : Renaming} {p : Nat}

/-! ### Handlers -/

namespace CatchHandler

variable {x : CatchHandler}

/-- The length of a handler whose types are written as their numbers. -/
def leastSize (x : CatchHandler) : Nat :=
  Leb128.signedSize x.signedCount +
    (x.catches.map fun c => Leb128.unsignedSize c.1.id + Leb128.unsignedSize c.2.toNat).sum +
    (writeCatchAll x.catchAll).length

theorem eq_leastSize_of_size {n : Nat} (hx : Each places.Numbers x.handles)
    (h : x.size places = .ok n) : n = x.leastSize := by
  obtain ⟨m, hm, rfl⟩ : ∃ m, sizeOfAll (sizeOfCatch places) x.catches = .ok m ∧
      Leb128.signedSize x.signedCount + m + (writeCatchAll x.catchAll).length = n := by
    rw [size] at h
    cases hall : x.catchAll <;> simpa [hall, writeCatchAll, Leb128.length_unsigned] using h
  obtain ⟨ns, hns, rfl⟩ := sizeOfAll_eq_ok.1 hm
  have hcatches : ns = x.catches.map fun c =>
      Leb128.unsignedSize c.1.id + Leb128.unsignedSize c.2.toNat := by
    refine eq_map_of_mapM (mapM_eq_ok.2 hns) fun c hc size hsize => ?_
    simp only [sizeOfCatch, bind_eq_ok, pure_eq_ok] at hsize
    obtain ⟨n, hn, rfl⟩ := hsize
    rw [each_handles.1 hx c hc rfl n (Places.position_eq_ok.1 hn)]
  rw [leastSize, hcatches]

theorem takes_decodeCatch :
    Takes ρ p decodeCatch fun c bs => (sizeOfCatch .numbers c).FitsIn bs := by
  refine Takes.unsigned.bind fun n bs => ?_
  refine (Takes.index n).bind fun type cs => ?_
  refine Takes.unsigned.bind fun address ds => Takes.pure ?_
  rintro ⟨hlt, haddress⟩ ⟨rfl, rfl⟩ ⟨-, hn⟩
  refine ⟨_, rfl, ?_⟩
  rw [UInt32.toNat_ofNat_of_lt' hlt]
  simp only [List.length_append, List.length_nil]
  omega

theorem takes : Takes ρ p decode fun x bs => (x.size .numbers).FitsIn bs := by
  refine Takes.signed.bind fun count bs => ?_
  refine (Takes.times_sizeOfAll (fun _ => takes_decodeCatch) count.natAbs).bind fun catches cs => ?_
  split
  · rename_i hpos
    refine Takes.pure ?_
    rintro ⟨hlen, m, hm, hle⟩ ⟨-, hcount⟩
    have hsigned : (CatchHandler.mk catches none).signedCount = count := by
      simp only [signedCount, Option.isSome_none, Bool.false_eq_true, if_false]
      omega
    refine ⟨Leb128.signedSize count + m + 0, by rw [size, hsigned, hm]; rfl, ?_⟩
    simp only [List.length_append, List.length_nil]
    omega
  · rename_i hneg
    refine Takes.unsigned.bind fun address ds => Takes.pure ?_
    rintro ⟨hlt, haddress⟩ ⟨hlen, m, hm, hle⟩ ⟨-, hcount⟩
    have hsigned : (CatchHandler.mk catches (some (UInt32.ofNat address))).signedCount = count := by
      simp only [signedCount, Option.isSome_some, if_true]
      omega
    refine ⟨Leb128.signedSize count + m + Leb128.unsignedSize address, ?_, ?_⟩
    · simp only [size, hsigned, hm, ok_bind, UInt32.toNat_ofNat_of_lt' hlt]
      rfl
    · simp only [List.length_append, List.length_nil]
      omega

theorem size_numbers (x : CatchHandler) : x.size .numbers = .ok x.leastSize := by
  have hplaced : Each Places.numbers.IsMeasurable x.handles := fun h _ _ _ => ⟨h.2.id, rfl⟩
  obtain ⟨n, hn⟩ := exists_size hplaced
  rw [hn, eq_leastSize_of_size (fun _ _ _ _ hm => (Option.some.inj hm).symm) hn]

theorem yields : Yields keeps given 1 decode fun r x =>
    Each r.Holds x.handles ∧ (x.catches = [] → x.catchAll ≠ none) := by
  have hcatch : Yields keeps (fun _ => True) 0 decodeCatch fun r c => r.Holds _ c.1 := by
    refine Yields.unsigned.bind_tail fun n _ => (Yields.index rfl n).bind fun type _ => ?_
    exact Yields.unsigned.bind_tail fun _ _ => Yields.pure fun r hr => hr.1.2.2
  refine Yields.signed.bind fun count _ => ?_
  refine (Yields.times hcatch count.natAbs).bind fun catches hcatches => ?_
  obtain ⟨_, -, hlen, -⟩ := hcatches
  split
  · rename_i hpos
    refine Yields.pure fun r hr => ⟨each_handles.2 hr.2.2, fun hnil => ?_⟩
    have hnil : catches = [] := hnil
    rw [hnil, List.length_nil] at hlen
    omega
  · refine Yields.unsigned.bind_tail fun n _ => Yields.pure fun r hr => ?_
    exact ⟨each_handles.2 hr.1.2.2, fun _ => by simp⟩

end CatchHandler

namespace Code

variable {x : Code}

/-! ### Guarded ranges -/

/-- The offsets that are written for handlers whose types are written as their numbers. -/
def leastOffsets (handlers : List CatchHandler) : List Nat :=
  offsetsFrom (Leb128.unsignedSize handlers.length) (handlers.map CatchHandler.leastSize)

/-- The number of guarded ranges and the offsets of their handlers fit into 16 bits when types are
written as their numbers. -/
structure Fits (x : Code) : Prop where
  ranges : x.ranges.length < 2 ^ 16
  offsets : ∀ r ∈ x.ranges, ∀ offset,
    (leastOffsets x.handlers)[r.handler]? = some offset → offset < 2 ^ 16

theorem Fits.isEncodable (hx : x.Fits) (h : Each places.Numbers x.handles) :
    x.IsEncodable places := by
  refine ⟨hx.ranges, fun offsets hoffsets r hr => ?_⟩
  obtain ⟨sizes, hsizes, rfl⟩ := handlerOffsets_eq_ok.1 hoffsets
  have hleast : sizes = x.handlers.map CatchHandler.leastSize :=
    eq_map_of_mapM hsizes fun handler hmem n hn =>
      CatchHandler.eq_leastSize_of_size ((each_handles.1 h).2 handler hmem) hn
  rw [hleast]
  exact hx.offsets r hr

/-- Where the guarded ranges of a body stand, counted from where it starts. -/
def rangesStart (x : Code) : Nat := 16 + 2 * x.units.length + if x.needsPadding then 2 else 0

/-- The offset that the bytes of some guarded ranges hold for the handler of one of them. -/
def storedOffset (bs : Bytes) (i : Nat) : Nat := Word.ofBytes ((bs.drop (8 * i + 6)).take 2)

theorem storedOffset_lt (bs : Bytes) (i : Nat) : storedOffset bs i < 2 ^ 16 := by
  have hlt := Word.ofBytes_lt ((bs.drop (8 * i + 6)).take 2)
  exact Nat.lt_of_lt_of_le hlt (Nat.pow_le_pow_right (by decide) (List.length_take_le ..))

/-- The handler of every range is written no further back than the bytes of the ranges tell. -/
def OffsetsWithin (ranges : List GuardedRange) (handlers : List CatchHandler) (bs : Bytes) : Prop :=
  ∀ i r, ranges[i]? = some r →
    ∃ offset, (leastOffsets handlers)[r.handler]? = some offset ∧ offset ≤ storedOffset bs i

theorem storedOffset_append {bs : Bytes} {i : Nat} (h : 8 * i + 8 ≤ bs.length) (tail : Bytes) :
    storedOffset (bs ++ tail) i = storedOffset bs i := by
  rw [storedOffset, List.drop_append_of_le_length (by omega),
    List.take_append_of_le_length (by rw [List.length_drop]; omega), storedOffset]

theorem OffsetsWithin.append {ranges : List GuardedRange} {handlers : List CatchHandler}
    {bs : Bytes} (h : OffsetsWithin ranges handlers bs) (hlen : 8 * ranges.length ≤ bs.length)
    (tail : Bytes) : OffsetsWithin ranges handlers (bs ++ tail) := by
  intro i r hr
  have hlt := (List.getElem?_eq_some_iff.1 hr).1
  rw [storedOffset_append (by omega)]
  exact h i r hr

theorem takes_decodeRange : Takes ρ p decodeRange fun r bs =>
    bs.length = 8 ∧ r.handler = Word.ofBytes (bs.drop 6) := by
  refine Takes.word.bind fun start bs => ?_
  refine Takes.half.bind fun length cs => ?_
  refine Takes.half.bind fun offset ds => Takes.pure ?_
  rintro ⟨rfl, hds⟩ ⟨-, hcs⟩ ⟨-, hbs⟩
  refine ⟨by simp [hbs, hcs, hds], ?_⟩
  rw [List.append_nil, ← List.append_assoc, List.drop_left' (by simp [hbs, hcs])]

theorem storedOffset_flatten {raw : List GuardedRange} {bss : List Bytes}
    (h : List.Forall₂ (fun r bs => bs.length = 8 ∧ r.handler = Word.ofBytes (bs.drop 6)) raw bss)
    (tail : Bytes) {i : Nat} {r : GuardedRange} (hr : raw[i]? = some r) :
    storedOffset (bss.flatten ++ tail) i = r.handler := by
  induction h generalizing i with
  | nil => cases hr
  | @cons r' bs raw bss hx _ ih =>
    obtain ⟨hlen, hhandler⟩ := hx
    rw [List.flatten_cons, List.append_assoc, storedOffset]
    cases i with
    | zero =>
      cases hr
      rw [List.drop_append_of_le_length (by omega), List.take_left' (by simp [hlen]), hhandler]
    | succ i =>
      rw [← ih hr, storedOffset, show 8 * (i + 1) + 6 = bs.length + (8 * i + 6) by omega,
        List.drop_length_add_append]

theorem takes_decodeHandler (start : Nat) : Takes ρ p (decodeHandler start) fun x bs =>
    x.1 = p - start ∧ x.2.leastSize ≤ bs.length := by
  refine Takes.position.bind fun position bs => ?_
  refine CatchHandler.takes.bind fun handler cs => Takes.pure ?_
  rintro ⟨m, hm, hle⟩ ⟨rfl, rfl⟩
  cases handler.size_numbers.symm.trans hm
  exact ⟨rfl, by simpa using hle⟩

/-- A handler stands no closer to the front in the image than it is written. -/
theorem takes_handlers (start count base : Nat) (read : List (Nat × CatchHandler)) :
    Takes ρ p (Decoder.timesOnto (decodeHandler start) count read) fun xs bs =>
      start + base ≤ p → ∃ ys, xs = read.reverse ++ ys ∧ ys.length = count ∧
        List.Forall₂ (· ≤ ·) (offsetsFrom base (ys.map (·.2.leastSize))) (ys.map (·.1)) ∧
        (ys.map (·.2.leastSize)).sum ≤ bs.length := by
  induction count generalizing p base read with
  | zero => exact Takes.pure fun _ => ⟨[], by simp, rfl, .nil, Nat.le_refl 0⟩
  | succ count ih =>
    refine (takes_decodeHandler start).bind fun x bs => ?_
    refine (ih (base + x.2.leastSize) (x :: read)).mono fun xs cs hys ⟨hx, hle⟩ hp => ?_
    obtain ⟨ys, rfl, hlen, hoffsets, hsum⟩ := hys (by omega)
    refine ⟨x :: ys, by simp, by simp [hlen], .cons (show base ≤ x.1 by omega) hoffsets, ?_⟩
    simp only [List.map_cons, List.sum_cons, List.length_append]
    omega

theorem resolve_eq_ok {start : Nat} {offsets : List Nat} {r r' : GuardedRange} :
    resolve start offsets r = .ok r' ↔
      ∃ number, offsets.idxOf? r.handler = some number ∧ { r with handler := number } = r' := by
  rw [resolve]
  cases offsets.idxOf? r.handler <;> simp

theorem takes_lists (rangeCount : Nat) : Takes ρ p (decodeLists rangeCount) fun lists bs =>
    lists.1.length = rangeCount ∧ OffsetsWithin lists.1 lists.2 bs ∧
      8 * rangeCount + Leb128.unsignedSize lists.2.length +
        (lists.2.map CatchHandler.leastSize).sum ≤ bs.length := by
  refine (Takes.times (fun _ => takes_decodeRange) rangeCount).bind fun raw bs => ?_
  refine Takes.position.bind fun start cs => ?_
  refine Takes.unsigned.bind fun count ds => ?_
  refine (takes_handlers start count (Leb128.unsignedSize count) []).bind fun handlers es => ?_
  refine (Takes.ofExcept _).bind fun ranges fs => Takes.pure ?_
  rintro ⟨hranges, rfl⟩ hhandlers ⟨-, hcount⟩ ⟨rfl, rfl⟩ ⟨hraw, bss, rfl, hbss⟩
  obtain ⟨ys, hys, rfl, hoffsets, hsum⟩ := hhandlers (by simp; omega)
  obtain rfl : handlers = ys := hys
  refine ⟨(length_of_mapM hranges).trans hraw, fun i r hr => ?_, ?_⟩
  · obtain ⟨r', hr', hresolve⟩ := exists_getElem?_of_mapM hranges hr
    obtain ⟨number, hnumber, rfl⟩ := resolve_eq_ok.1 hresolve
    obtain ⟨hlt, hoffset, -⟩ := List.idxOf?_eq_some_iff.1 hnumber
    rw [storedOffset_flatten hbss _ hr', ← hoffset, leastOffsets, List.length_map, List.map_map]
    exact ⟨_, List.getElem?_eq_getElem (by simpa using hlt), hoffsets.get _ hlt⟩
  · have hbytes := length_flatten_of_width hbss fun _ _ h => h.1
    rw [hraw] at hbytes
    simp only [List.length_append, List.length_nil, List.length_map, List.map_map,
      Function.comp_def] at hsum ⊢
    omega

theorem takes_guarded (rangeCount unitCount : Nat)
    (body : List GuardedRange × List CatchHandler → Code) :
    Takes ρ p (decodeGuarded rangeCount unitCount body) fun x bs => ∃ lists cs ds,
      x = body lists ∧ bs = cs ++ ds ∧ lists.1.length = rangeCount ∧
      cs.length = (if lists.1.isEmpty = false ∧ unitCount % 2 = 1 then 2 else 0) ∧
      OffsetsWithin lists.1 lists.2 ds ∧
      (lists.1.isEmpty = false → 8 * rangeCount + Leb128.unsignedSize lists.2.length +
        (lists.2.map CatchHandler.leastSize).sum ≤ ds.length) := by
  have hnonempty {ranges : List GuardedRange} (h : ranges.length = rangeCount)
      (hzero : ¬rangeCount = 0) : ranges.isEmpty = false := by
    rw [List.isEmpty_eq_false_iff, ← List.length_pos_iff]
    omega
  rw [decodeGuarded]
  split
  · rename_i hzero
    exact Takes.pure ⟨([], []), [], [], rfl, rfl, hzero.symm, rfl,
      fun _ _ hr => absurd hr (by simp), fun h => absurd h (by simp)⟩
  · rename_i hzero
    split
    · rename_i hodd
      refine Takes.half.bind fun _ cs => Takes.map body ((takes_lists rangeCount).mono ?_)
      rintro lists bs ⟨hlen, hwithin, hle⟩ ⟨-, hcs⟩
      exact ⟨lists, cs, bs, rfl, rfl, hlen, by simp [hnonempty hlen hzero, hodd, hcs], hwithin,
        fun _ => hle⟩
    · rename_i heven
      refine Takes.map body ((takes_lists rangeCount).mono ?_)
      rintro lists bs ⟨hlen, hwithin, hle⟩
      exact ⟨lists, [], bs, rfl, rfl, hlen, by simp [heven], hwithin, fun _ => hle⟩

theorem length_unitsOfBytes : (bs : Bytes) → (unitsOfBytes bs).length = bs.length / 2
  | [] => rfl
  | [_] => by simp [unitsOfBytes]
  | _ :: _ :: bs => by
    simp only [unitsOfBytes, List.length_cons, length_unitsOfBytes bs]
    omega

theorem sizes_numbers (handlers : List CatchHandler) :
    handlers.mapM (CatchHandler.size .numbers) = .ok (handlers.map CatchHandler.leastSize) := by
  rw [mapM_congr fun handler _ => handler.size_numbers]
  exact List.mapM_pure ..

theorem handlerOffsets_numbers (x : Code) :
    x.handlerOffsets .numbers = .ok (leastOffsets x.handlers) :=
  handlerOffsets_eq_ok.2 ⟨_, sizes_numbers x.handlers, rfl⟩

theorem size_numbers (x : Code) : x.size .numbers = .ok (x.rangesStart +
    if x.ranges.isEmpty then 0
    else 8 * x.ranges.length + Leb128.unsignedSize x.handlers.length +
      (x.handlers.map CatchHandler.leastSize).sum) := by
  rw [size, rangesStart]
  split
  · rfl
  · rw [sizeOfAll, sizes_numbers, ok_bind, pure_eq, ok_bind]
    simp only [Nat.add_assoc]
    rfl

/-- A body that was read is written in no more bytes, and its handlers no further back. -/
theorem takes : Takes ρ p decode fun x bs => (x.size .numbers).FitsIn bs ∧
    OffsetsWithin x.ranges x.handlers (bs.drop x.rangesStart) := by
  rw [decode_eq]
  refine Takes.half.bind fun registers bs1 => ?_
  refine Takes.half.bind fun ins bs2 => ?_
  refine Takes.half.bind fun outs bs3 => ?_
  refine Takes.half.bind fun rangeCount bs4 => ?_
  refine Takes.word.bind fun offset bs5 => ?_
  refine (Takes.optionalOffset rfl offset).bind fun debugInfo bs6 => ?_
  refine Takes.word.bind fun unitCount bs7 => ?_
  refine (Takes.bytes _).bind fun units bs8 => ?_
  refine (takes_guarded rangeCount unitCount _).mono ?_
  rintro _ _ ⟨lists, cs, ds, rfl, rfl, hlen, hcs, hwithin, hle⟩ ⟨rfl, h8⟩ ⟨-, h7⟩ ⟨-, rfl⟩ ⟨-, h5⟩
    ⟨-, h4⟩ ⟨-, h3⟩ ⟨-, h2⟩ ⟨-, h1⟩
  have hunits : (unitsOfBytes bs8).length = unitCount := by
    rw [length_unitsOfBytes, h8, Nat.mul_div_cancel_left _ (by decide)]
  have hstart (registers ins outs : UInt16) : (Code.mk registers ins outs debugInfo
      (unitsOfBytes bs8) lists.1 lists.2).rangesStart = 16 + 2 * unitCount + cs.length := by
    rw [rangesStart, needsPadding, hunits, hcs]
    simp
  refine ⟨⟨_, size_numbers _, ?_⟩, ?_⟩
  · simp only [hstart, hlen, List.length_append, h1, h2, h3, h4, h5, h7, h8, List.length_nil]
    split
    · omega
    · rename_i hempty
      have := hle (by simpa using hempty)
      omega
  · simp only [hstart, ← List.append_assoc]
    rw [List.drop_left' (by simp only [List.length_append, h1, h2, h3, h4, h5, h7, h8]; rfl)]
    exact hwithin

/-- The handlers of a body that was read are written no further back than its ranges tell. -/
theorem offsetsWithin_of_decode {s t : Source} (h : decode s = .ok x t) :
    OffsetsWithin x.ranges x.handlers (s.rest.drop x.rangesStart) := by
  obtain ⟨-, bs, hrest, -, hbs⟩ := Code.takes s x t h rfl
  obtain ⟨⟨n, hn, hle⟩, hwithin⟩ := hbs (References.names_handleOf _)
  cases x.size_numbers.symm.trans hn
  rw [hrest, List.drop_append_of_le_length (by omega)]
  refine hwithin.append ?_ _
  rw [List.length_drop]
  split at hle
  · rename_i hempty
    rw [List.isEmpty_iff.1 hempty]
    exact Nat.zero_le _
  · omega

/-- The offset that a range names in the image fits into 16 bits, and the handler found there is
written no further back. -/
theorem yields_lists (rangeCount : Nat) :
    Yields keeps given 0 (decodeLists rangeCount) fun r lists =>
      lists.1.length = rangeCount ∧
      (∀ h ∈ lists.2, Each r.Holds h.handles ∧ (h.catches = [] → h.catchAll ≠ none)) ∧
      ∀ g ∈ lists.1, g.handler < lists.2.length ∧
        ∀ offset, (leastOffsets lists.2)[g.handler]? = some offset → offset < 2 ^ 16 := by
  have hrange : Yields keeps (fun _ => True) 0 decodeRange fun _ _ => True :=
    Yields.word.bind_tail fun _ _ => Yields.half.bind_tail fun _ _ =>
      Yields.half.bind_tail fun _ _ => Yields.pure fun _ _ => trivial
  have hhandler (start : Nat) : Yields keeps (fun _ => True) 0 (decodeHandler start) fun r x =>
      Each r.Holds x.2.handles ∧ (x.2.catches = [] → x.2.catchAll ≠ none) :=
    Yields.position.bind fun p _ => CatchHandler.yields.bind_tail fun x _ =>
      Yields.pure fun r hr => hr.2
  have hhandlers : Yields keeps given 0 (decodeLists rangeCount) fun r lists =>
      ∀ h ∈ lists.2, Each r.Holds h.handles ∧ (h.catches = [] → h.catchAll ≠ none) := by
    refine (Yields.times hrange rangeCount).bind fun raw _ => ?_
    refine Yields.position.bind fun start _ => ?_
    refine Yields.unsigned.bind_tail fun count _ => ?_
    refine (Yields.times (hhandler start) count).bind fun handlers _ => ?_
    refine (Yields.ofExcept _).bind fun ranges _ => Yields.pure fun r hr => ?_
    exact List.forall_mem_map.2 hr.1.2.2
  refine (hhandlers.of_takes fun ρ p => takes_lists rangeCount).mono (Nat.le_refl 0) ?_
  rintro r lists - ⟨hhandlers, bs, hlen, hwithin, -⟩
  refine ⟨hlen, hhandlers, fun g hg => ?_⟩
  obtain ⟨i, hi⟩ := List.mem_iff_getElem?.1 hg
  obtain ⟨offset, hoffset, hle⟩ := hwithin i g hi
  refine ⟨?_, fun offset' hoffset' => ?_⟩
  · obtain ⟨hlt, -⟩ := List.getElem?_eq_some_iff.1 hoffset
    simpa [leastOffsets] using hlt
  · cases hoffset.symm.trans hoffset'
    exact Nat.lt_of_le_of_lt hle (storedOffset_lt bs i)

theorem yields : Yields keeps (fun _ => True) 2 decode fun r x =>
    Each r.Holds x.handles ∧ x.check = .ok () ∧ x.asRead = x ∧ x.Fits := by
  rw [decode_eq]
  refine Yields.half.bind fun registers _ => ?_
  refine Yields.half.bind_tail fun ins _ => ?_
  refine Yields.half.bind_tail fun outs _ => ?_
  refine Yields.half.bind_tail fun rangeCount hrangeCount => ?_
  obtain ⟨-, -, hcount⟩ := hrangeCount
  refine Yields.word.bind_tail fun offset _ => ?_
  refine (Yields.optionalOffset rfl offset).bind fun debugInfo _ => ?_
  refine Yields.word.bind_tail fun unitCount _ => ?_
  refine (Yields.bytes _).bind_tail fun units _ => ?_
  rw [decodeGuarded]
  split
  · refine Yields.pure fun r hr => ⟨each_handles.2 ⟨hr.1.1.2, by simp⟩, ?_, rfl, ?_⟩
    · exact check_eq_ok.2 ⟨by simp, by simp⟩
    · exact ⟨by simp, by simp⟩
  · rename_i hzero
    have hlists (given : References → Prop) (hgiven : ∀ r, given r → ∀ h ∈ debugInfo, r.Holds _ h) :
        Yields keeps given 0 ((fun lists => Code.mk (UInt16.ofNat registers) (UInt16.ofNat ins)
          (UInt16.ofNat outs) debugInfo (unitsOfBytes units) lists.1 lists.2) <$>
            decodeLists rangeCount) fun r x =>
          Each r.Holds x.handles ∧ x.check = .ok () ∧ x.asRead = x ∧ x.Fits := by
      refine ((yields_lists rangeCount).mono (Nat.le_refl _) fun r lists hr hlists => ?_).map _
      obtain ⟨hlen, hhandlers, hranges⟩ := hlists
      have hempty : lists.1.isEmpty = false := by
        rw [List.isEmpty_eq_false_iff, ← List.length_pos_iff]
        omega
      refine ⟨each_handles.2 ⟨hgiven r hr, fun h hmem => (hhandlers h hmem).1⟩, ?_, ?_, ?_⟩
      · exact check_eq_ok.2 ⟨fun h hmem => (hhandlers h hmem).2, fun g hg => (hranges g hg).1⟩
      · simp [asRead, hempty]
      · exact ⟨hlen ▸ hcount, fun g hg => (hranges g hg).2⟩
    split
    · exact Yields.half.bind_tail fun _ _ => hlists _ fun r hr => hr.1.1.1.2
    · exact hlists _ fun r hr => hr.1.1.2

end Code

end DexContainer
