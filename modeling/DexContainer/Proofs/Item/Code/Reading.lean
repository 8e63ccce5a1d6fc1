import DexContainer.Proofs.Item.Code.Writing
import DexContainer.Proofs.Reads.Primitives
import DexContainer.Proofs.Yields

/-! How method bodies are read. A guarded range names its handler by the offset of the handler, and
the reader looks the offset up among those of the handlers that it has read. Main statements: the
offsets that are written are strictly increasing, so every range finds its own handler again; and
whatever is read can be written, because a handler takes no more bytes when it is written again. -/

namespace DexContainer

variable {places : Places} {keeps : Bool} {p : Nat} {bs : Bytes} {given : Renaming → Prop}

namespace CatchHandler

variable {x : CatchHandler}

theorem natAbs_signedCount (x : CatchHandler) : x.signedCount.natAbs = x.catches.length := by
  rw [signedCount]
  split <;> omega

theorem signedCount_pos_iff (hx : x.catches = [] → x.catchAll ≠ none) :
    0 < x.signedCount ↔ x.catchAll = none := by
  have hlen : x.catches ≠ [] ↔ 0 < x.catches.length := List.length_pos_iff.symm
  rw [signedCount]
  cases hall : x.catchAll with
  | none =>
    have := hlen.1 fun h => hx h hall
    simp [this]
  | some address => simp

theorem length_pos_of_write (h : x.write places = .ok bs) : 0 < bs.length := by
  obtain ⟨cs, -, rfl⟩ := write_eq_ok.1 h
  have := Leb128.length_signed_pos x.signedCount
  simp only [List.length_append]
  omega

theorem length_le_of_write (h : x.write places = .ok bs) : 2 * x.catches.length ≤ bs.length := by
  obtain ⟨cs, hcs, rfl⟩ := write_eq_ok.1 h
  have hle := mul_length_le_of_writeAll (n := 2) (fun c _ bs hb => by
    obtain ⟨n, -, rfl⟩ := writeCatch_eq_ok.1 hb
    have h1 := List.length_pos_iff.2 (Leb128.unsigned_ne_nil n)
    have h2 := List.length_pos_iff.2 (Leb128.unsigned_ne_nil c.2.toNat)
    rw [List.length_append]
    omega) hcs
  simp only [List.length_append]
  omega

theorem size_pos {n : Nat} (h : x.size places = .ok n) : 0 < n := by
  simp only [size, bind_eq_ok, pure_eq_ok] at h
  obtain ⟨m, -, rfl⟩ := h
  have := Leb128.length_signed_pos x.signedCount
  rw [Leb128.length_signed] at this
  omega

theorem reads (hp : Each places.FitsWord x.handles) (hx : x.catches = [] → x.catchAll ≠ none)
    (h : x.write places = .ok bs) (hlen : bs.length < 2 ^ 32) :
    Reads places keeps (fun _ => True) p decode bs fun ρ => x.rename ρ := by
  have hcount := length_le_of_write h
  have habs := natAbs_signedCount x
  obtain ⟨cs, hcs, rfl⟩ := write_eq_ok.1 h
  rw [List.append_assoc]
  refine (Reads.signed (by omega)).bind_const ?_
  rw [habs]
  refine (Reads.writeAll (a := fun c ρ => (ρ _ c.1, c.2)) hcs fun c hc ds hds _ p => ?_).bind
    fun catches _ => ?_
  · obtain ⟨n, hn, rfl⟩ := writeCatch_eq_ok.1 hds
    have hn := Places.position_eq_ok.1 hn
    rw [← List.append_nil (Leb128.unsigned c.2.toNat)]
    refine (Reads.unsigned (each_handles.1 hp c hc n hn)).bind_const ?_
    refine (Reads.index rfl hn).bind_nil fun type _ => ?_
    refine (Reads.unsigned c.2.toNat_lt).bind_const (Reads.pure fun ρ hρ => ?_)
    rw [hρ.2, UInt32.ofNat_toNat]
  · cases hall : x.catchAll with
    | none =>
      rw [if_pos ((signedCount_pos_iff hx).2 hall)]
      refine Reads.pure fun ρ hρ => ?_
      rw [rename, hρ.2, hall]
    | some address =>
      have hneg : ¬0 < x.signedCount := fun h => by
        rw [(signedCount_pos_iff hx).1 h] at hall
        exact absurd hall (by simp)
      rw [if_neg hneg, writeCatchAll, ← List.append_nil (Leb128.unsigned _)]
      refine (Reads.unsigned address.toNat_lt).bind_const (Reads.pure fun ρ hρ => ?_)
      rw [rename, hρ.2, hall, UInt32.ofNat_toNat]

end CatchHandler

namespace Code

variable {x : Code}

/-! ### Offsets -/

theorem lt_of_mem_offsetsFrom {start offset : Nat} {sizes : List Nat}
    (hs : ∀ size ∈ sizes, 0 < size) (h : offset ∈ offsetsFrom start sizes) : start ≤ offset := by
  induction sizes generalizing start with
  | nil => exact absurd h (by simp [offsetsFrom])
  | cons size sizes ih =>
    rcases List.mem_cons.1 h with rfl | h
    · exact Nat.le_refl _
    · have := ih (fun s hs' => hs s (List.mem_cons_of_mem _ hs')) h
      omega

theorem offsetsFrom_nodup {start : Nat} {sizes : List Nat} (hs : ∀ size ∈ sizes, 0 < size) :
    (offsetsFrom start sizes).Nodup := by
  induction sizes generalizing start with
  | nil => exact List.nodup_nil
  | cons size sizes ih =>
    have hs' : ∀ s ∈ sizes, 0 < s := fun s hmem => hs s (List.mem_cons_of_mem _ hmem)
    refine List.nodup_cons.2 ⟨fun h => ?_, ih hs'⟩
    have := lt_of_mem_offsetsFrom hs' h
    have := hs size (List.mem_cons_self ..)
    omega

theorem idxOf?_of_nodup {offsets : List Nat} {i offset : Nat} (hn : offsets.Nodup)
    (h : offsets[i]? = some offset) : offsets.idxOf? offset = some i := by
  obtain ⟨hi, rfl⟩ := List.getElem?_eq_some_iff.1 h
  refine List.idxOf?_eq_some_iff.2 ⟨hi, rfl, fun j hj heq => ?_⟩
  have := (List.getElem_inj hn).1 heq
  omega

/-! ### Reading back -/

theorem unitsOfBytes_flatMap (units : List UInt16) :
    unitsOfBytes (units.flatMap fun u => Word.half u.toNat) = units := by
  induction units with
  | nil => rfl
  | cons u us ih =>
    have hu : Word.half u.toNat =
        [UInt8.ofNat (u.toNat % 256), UInt8.ofNat (u.toNat / 256 % 256)] := rfl
    have hword : Word.ofBytes (Word.bytes 2 u.toNat) = u.toNat :=
      Word.ofBytes_bytes_of_lt u.toNat_lt
    rw [List.flatMap_cons, hu]
    simp only [List.cons_append, List.nil_append, unitsOfBytes, ih]
    rw [← hu, Word.half, hword, UInt16.ofNat_toNat]

theorem reads_decodeHandler {handler : CatchHandler} {start offset : Nat}
    (hp : Each places.FitsWord handler.handles)
    (hx : handler.catches = [] → handler.catchAll ≠ none) (h : handler.write places = .ok bs)
    (hlen : bs.length < 2 ^ 32) :
    Reads places keeps (fun _ => True) (start + offset) (decodeHandler start) bs
      fun ρ => (offset, handler.rename ρ) := by
  refine Reads.bind_position ?_
  rw [Nat.add_sub_cancel_left]
  exact (CatchHandler.reads hp hx h hlen).map (Prod.mk offset)

/-- Handlers are read back one after the other, each at its offset. -/
theorem reads_handlers {handlers : List CatchHandler} {start offset : Nat} {sizes : List Nat}
    (hp : ∀ h ∈ handlers, Each places.FitsWord h.handles)
    (hx : ∀ h ∈ handlers, h.catches = [] → h.catchAll ≠ none)
    (h : writeAll (CatchHandler.write places) handlers = .ok bs) (hlen : bs.length < 2 ^ 32)
    (hsizes : handlers.mapM (CatchHandler.size places) = .ok sizes) :
    Reads places keeps given (start + offset)
      (Decoder.times handlers.length (decodeHandler start)) bs
      fun ρ => (offsetsFrom offset sizes).zip (handlers.map (CatchHandler.rename ρ)) := by
  have hlen' : ∀ x ∈ handlers, ∀ cs, x.write places = .ok cs → cs.length < 2 ^ 32 :=
    fun x hmem cs hcs => Nat.lt_of_le_of_lt (length_le_of_mem_writeAll h hmem hcs) hlen
  obtain ⟨bss, hbss, rfl⟩ := writeAll_eq_ok.1 h
  replace hsizes := mapM_eq_ok.1 hsizes
  have hall : ∃ as, Reads.All places keeps (decodeHandler start) (start + offset) bss as ∧
      as.length = handlers.length ∧ ∀ ρ, as.map (· ρ) =
        (offsetsFrom offset sizes).zip (handlers.map (CatchHandler.rename ρ)) := by
    clear h hlen
    induction hbss generalizing offset sizes with
    | nil =>
      cases hsizes
      exact ⟨[], .nil, rfl, fun _ => rfl⟩
    | @cons x bs xs bss hb _ ih =>
      cases hsizes with
      | @cons _ size _ sizes hsize hsizes =>
      have hsize' := CatchHandler.size_of_write hb
      obtain rfl : bs.length = size := by
        rw [hsize] at hsize'
        cases hsize'
        rfl
      obtain ⟨as, has, hcount, hval⟩ := ih
        (fun y hy => hp y (List.mem_cons_of_mem _ hy))
        (fun y hy => hx y (List.mem_cons_of_mem _ hy))
        (fun y hy => hlen' y (List.mem_cons_of_mem _ hy)) hsizes
      refine ⟨(fun ρ => (offset, x.rename ρ)) :: as, .cons ?_ ?_, by simp [hcount], fun ρ => ?_⟩
      · exact reads_decodeHandler (hp x (List.mem_cons_self ..)) (hx x (List.mem_cons_self ..)) hb
          (hlen' x (List.mem_cons_self ..) _ hb)
      · rwa [Nat.add_assoc]
      · simp [offsetsFrom, hval ρ]
  obtain ⟨as, has, hcount, hval⟩ := hall
  rw [← hcount]
  exact (Reads.times has).value fun ρ _ => hval ρ

/-- The range as it stands in the file, where it names its handler by offset. -/
def rawRange (offsets : List Nat) (r : GuardedRange) : GuardedRange :=
  { r with handler := offsets[r.handler]?.getD 0 }

theorem reads_ranges {offsets : List Nat} {ranges : List GuardedRange}
    (h : writeAll (writeRange offsets) ranges = .ok bs)
    (hx : ∀ r ∈ ranges, ∀ offset, offsets[r.handler]? = some offset → offset < 2 ^ 16) :
    Reads places keeps given p (Decoder.times ranges.length decodeRange) bs
      fun _ => ranges.map (rawRange offsets) := by
  refine Reads.writeAll (a := fun r _ => rawRange offsets r) h fun r hr cs hcs _ p => ?_
  obtain ⟨offset, hoffset, rfl⟩ := writeRange_eq_ok.1 hcs
  rw [List.append_assoc, ← List.append_nil (Word.half offset)]
  refine (Reads.word r.start.toNat_lt).bind_const ?_
  refine (Reads.half r.length.toNat_lt).bind_const ?_
  refine (Reads.half (hx r hr offset hoffset)).bind_const (Reads.pure fun ρ _ => ?_)
  rw [rawRange, hoffset, UInt32.ofNat_toNat, UInt16.ofNat_toNat, Option.getD_some]

theorem mapM_resolve_rawRange {offsets : List Nat} {ranges : List GuardedRange} {start : Nat}
    (hn : offsets.Nodup) (hr : ∀ r ∈ ranges, r.handler < offsets.length) :
    (ranges.map (rawRange offsets)).mapM (resolve start offsets) = .ok ranges := by
  rw [mapM_map]
  refine mapM_eq_ok.2 (List.forall₂_same.2 fun r hmem => ?_)
  have hlt := hr r hmem
  have hoffset := List.getElem?_eq_getElem hlt
  have hraw : (rawRange offsets r).handler = offsets[r.handler] := by
    rw [rawRange, hoffset, Option.getD_some]
  rw [resolve, hraw, idxOf?_of_nodup hn hoffset]
  rfl

/-- Reads the guarded ranges and the handlers. -/
def decodeLists (rangeCount : Nat) : Decoder (List GuardedRange × List CatchHandler) := do
  let raw ← Decoder.times rangeCount decodeRange
  let start ← Decoder.position
  let handlerCount ← Decoder.unsigned
  let handlers ← Decoder.times handlerCount (decodeHandler start)
  let ranges ← Decoder.ofExcept (raw.mapM (resolve start (handlers.map (·.1))))
  return (ranges, handlers.map (·.2))

/-- Completes a body by its guarded ranges and handlers. -/
def decodeGuarded (rangeCount unitCount : Nat)
    (body : List GuardedRange × List CatchHandler → Code) : Decoder Code :=
  if rangeCount = 0 then pure (body ([], []))
  else if unitCount % 2 = 1 then do
    let _ ← Decoder.half
    body <$> decodeLists rangeCount
  else body <$> decodeLists rangeCount

theorem decode_eq : decode = (do
    let registers ← Decoder.half
    let ins ← Decoder.half
    let outs ← Decoder.half
    let rangeCount ← Decoder.half
    let debugInfo ← Decoder.optionalOffset .debugInfo (← Decoder.word)
    let unitCount ← Decoder.word
    let units ← Decoder.bytes (2 * unitCount)
    decodeGuarded rangeCount unitCount fun lists =>
      ⟨UInt16.ofNat registers, UInt16.ofNat ins, UInt16.ofNat outs, debugInfo, unitsOfBytes units,
        lists.1, lists.2⟩) := by
  unfold decode
  simp only [decodeGuarded, decodeLists, map_bind, map_pure]

theorem reads_lists {offsets : List Nat} {ranges handlers : Bytes}
    (hp : ∀ h ∈ x.handlers, Each places.FitsWord h.handles) (hc : x.check = .ok ())
    (hx : x.IsEncodable places)
    (hoffsets : x.handlerOffsets places = .ok offsets)
    (hranges : writeAll (writeRange offsets) x.ranges = .ok ranges)
    (hhandlers : writeAll (CatchHandler.write places) x.handlers = .ok handlers)
    (hlen : handlers.length < 2 ^ 32) :
    Reads places keeps given p (decodeLists x.ranges.length)
      (ranges ++ (Leb128.unsigned x.handlers.length ++ handlers))
      fun ρ => (x.ranges, x.handlers.map (CatchHandler.rename ρ)) := by
  obtain ⟨hcatch, hguarded⟩ := check_eq_ok.1 hc
  have hlength := length_of_handlerOffsets hoffsets
  have hcount := length_le_of_writeAll
    (fun h _ bs hb => CatchHandler.length_pos_of_write hb) hhandlers
  obtain ⟨sizes, hsizes, hfrom⟩ := handlerOffsets_eq_ok.1 hoffsets
  have hnodup : offsets.Nodup := by
    rw [← hfrom]
    refine offsetsFrom_nodup fun size hmem => ?_
    obtain ⟨_, -, hsize⟩ := exists_of_mem_mapM hsizes hmem
    exact CatchHandler.size_pos hsize
  rw [← Leb128.length_unsigned] at hfrom
  refine (reads_ranges hranges (hx.offsets _ hoffsets)).bind_const ?_
  refine Reads.bind_position ?_
  refine (Reads.unsigned (by omega)).bind_const ?_
  rw [← List.append_nil handlers]
  refine (reads_handlers hp hcatch hhandlers hlen hsizes).bind fun read hread => ?_
  obtain ⟨ρ, -, rfl⟩ := hread
  have hfst : ((offsetsFrom (Leb128.unsigned x.handlers.length).length sizes).zip
      (x.handlers.map (CatchHandler.rename ρ))).map (·.1) = offsets := by
    rw [hfrom, List.map_fst_zip]
    simp [hlength]
  rw [hfst, mapM_resolve_rawRange hnodup fun r hr => hlength ▸ hguarded r hr]
  refine Reads.pure fun ρ' hρ' => ?_
  rw [← hρ'.2, List.map_snd_zip]
  simp [hfrom, hlength]

theorem reads_body {debugInfo : Nat} {a : Renaming → Code}
    (hp : ∀ h ∈ x.debugInfo, places.FitsWord _ h)
    (hzero : ∀ h ∈ x.debugInfo, places.position? _ h ≠ some 0) (hx : x.IsEncodable places)
    (hdebug : places.optionalOffset x.debugInfo = .ok debugInfo)
    (hlen : (writeBody debugInfo x).length < 2 ^ 32)
    (hlists : ∀ o, Reads places keeps (fun ρ => x.debugInfo.map (ρ _) = o)
      (p + (writeBody debugInfo x).length)
      (decodeGuarded x.ranges.length x.units.length fun lists =>
        ⟨x.registers, x.ins, x.outs, o, x.units, lists.1, lists.2⟩) bs a) :
    Reads places keeps (fun _ => True) p decode (writeBody debugInfo x ++ bs) a := by
  have hunits : (x.units.flatMap fun u => Word.half u.toNat).length = 2 * x.units.length := by
    have := length_writeBody debugInfo x
    simp only [writeBody, List.length_append, Word.half_length, Word.full_length] at this
    omega
  have hlength := length_writeBody debugInfo x
  rw [decode_eq]
  rw [hlength] at hlen hlists
  simp only [writeBody, List.append_assoc]
  refine (Reads.half x.registers.toNat_lt).bind_const ?_
  refine (Reads.half x.ins.toNat_lt).bind_const ?_
  refine (Reads.half x.outs.toNat_lt).bind_const ?_
  refine (Reads.half hx.ranges).bind_const ?_
  refine (Reads.word (Places.optionalOffset_lt hp hdebug)).bind_const ?_
  refine (Reads.optionalOffset_of_ne_zero hzero rfl hdebug).bind_nil fun o _ => ?_
  refine (Reads.word (by omega)).bind_const ?_
  rw [← hunits]
  refine (Reads.bytes _).bind_const ?_
  rw [hunits, unitsOfBytes_flatMap]
  have hp' : p + 2 + 2 + 2 + 2 + 4 + 4 + 2 * x.units.length = p + (16 + 2 * x.units.length) := by
    omega
  simp only [UInt16.ofNat_toNat, Word.half_length, Word.full_length, hp']
  exact (hlists o).mono fun _ hρ => And.right hρ

theorem reads (hp : Each places.FitsWord x.handles)
    (hzero : ∀ h ∈ x.debugInfo, places.position? _ h ≠ some 0) (hc : x.check = .ok ())
    (hx : x.IsEncodable places) (h : x.write places = .ok bs) (hlen : bs.length < 2 ^ 32) :
    Reads places keeps (fun _ => True) p decode bs fun ρ => (x.rename ρ).asRead := by
  obtain ⟨hp, hp'⟩ := each_handles.1 hp
  obtain ⟨debugInfo, hdebug, ⟨hr, rfl⟩ | ⟨hr, cs, hcs, rfl⟩⟩ := write_eq_ok.1 h
  · rw [← List.append_nil (writeBody debugInfo x)]
    refine reads_body hp hzero hx hdebug hlen fun o => ?_
    rw [decodeGuarded, hr, List.length_nil, if_pos rfl]
    refine Reads.pure fun ρ hρ => ?_
    simp only [rename, asRead, hr, hρ, List.isEmpty_nil, if_true]
  · rw [List.length_append] at hlen
    refine reads_body hp hzero hx hdebug (by omega) fun o => ?_
    obtain ⟨offsets, hoffsets, ranges, hranges, handlers, hhandlers, rfl⟩ := writeRanges_eq_ok.1 hcs
    have hpos : x.ranges.length ≠ 0 := by simpa using hr
    have hempty : x.ranges.isEmpty = false := by simpa using hr
    have hlists (q : Nat) : Reads places keeps (fun ρ => x.debugInfo.map (ρ _) = o) q
        ((fun lists => Code.mk x.registers x.ins x.outs o x.units lists.1 lists.2) <$>
          decodeLists x.ranges.length)
        (ranges ++ (Leb128.unsigned x.handlers.length ++ handlers))
        fun ρ => (x.rename ρ).asRead := by
      refine ((reads_lists hp' hc hx hoffsets hranges hhandlers ?_).map _).value fun ρ hρ => ?_
      · simp only [List.length_append] at hlen
        omega
      · simp [rename, asRead, hempty, hρ]
    rw [decodeGuarded, if_neg hpos]
    by_cases hodd : x.units.length % 2 = 1
    · have hpad : x.needsPadding = true := by simp [needsPadding, hempty, hodd]
      rw [if_pos hodd, if_pos hpad, List.append_assoc, List.append_assoc]
      exact (Reads.half (by decide)).bind_const (hlists _)
    · have hpad : x.needsPadding = false := by simp [needsPadding, hodd]
      rw [if_neg hodd, hpad, List.append_assoc]
      exact hlists _

end Code

end DexContainer
