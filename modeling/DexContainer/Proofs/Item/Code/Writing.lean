import DexContainer.Item.Code
import DexContainer.Proofs.Renaming

/-! How method bodies are measured and written. Main statements: a body takes as many bytes as its
size says, also when it has no guarded ranges and so loses its handlers; and a body whose handles
are placed and whose handlers are all there can be written. -/

namespace DexContainer

variable {places places' : Places} {ρ : Renaming} {bs : Bytes}

namespace CatchHandler

variable {x : CatchHandler}

/-- The handles of the handler. -/
def handles (x : CatchHandler) : List AnyHandle := (x.catches.map Prod.fst).map Handle.any

/-- The handler with its handles renamed. -/
def rename (ρ : Renaming) (x : CatchHandler) : CatchHandler :=
  { x with catches := x.catches.map fun c => (ρ _ c.1, c.2) }

theorem rename_id (x : CatchHandler) : x.rename (fun _ h => h) = x := by
  simp [rename]

theorem each_handles {P : HandleProperty} : Each P x.handles ↔ ∀ c ∈ x.catches, P _ c.1 := by
  rw [handles, each_map, List.forall_mem_map]

theorem signedCount_rename (ρ : Renaming) (x : CatchHandler) :
    (x.rename ρ).signedCount = x.signedCount := by
  simp [signedCount, rename]

theorem writeCatch_eq_ok {c : Handle .typeId × UInt32} : writeCatch places c = .ok bs ↔
    ∃ n, places.position c.1 = .ok n ∧ Leb128.unsigned n ++ Leb128.unsigned c.2.toNat = bs := by
  simp [writeCatch]

theorem sizeOfCatch_of_write {c : Handle .typeId × UInt32} (h : writeCatch places c = .ok bs) :
    sizeOfCatch places c = .ok bs.length := by
  obtain ⟨n, hn, rfl⟩ := writeCatch_eq_ok.1 h
  simp [sizeOfCatch, hn, Leb128.length_unsigned, pure_eq]

/-- The bytes of the catch-all, if there is one. -/
def writeCatchAll : Option UInt32 → Bytes
  | none => []
  | some address => Leb128.unsigned address.toNat

theorem write_eq_ok : x.write places = .ok bs ↔
    ∃ cs, writeAll (writeCatch places) x.catches = .ok cs ∧
      Leb128.signed x.signedCount ++ cs ++ writeCatchAll x.catchAll = bs := by
  have hw : x.write places = (do
    let catches ← writeAll (writeCatch places) x.catches
    return Leb128.signed x.signedCount ++ catches ++ writeCatchAll x.catchAll) := rfl
  simp [hw]

theorem size_of_write (h : x.write places = .ok bs) : x.size places = .ok bs.length := by
  obtain ⟨cs, hcs, rfl⟩ := write_eq_ok.1 h
  have hsize := sizeOfAll_of_writeAll (fun c _ bs hb => sizeOfCatch_of_write hb) hcs
  cases hall : x.catchAll with
  | none => simp [size, hsize, hall, writeCatchAll, Leb128.length_signed, pure_eq]
  | some address =>
    simp [size, hsize, hall, writeCatchAll, Leb128.length_signed, Leb128.length_unsigned, pure_eq,
      Nat.add_assoc]

theorem exists_write (h : Each places.IsPlaced x.handles) : ∃ bs, x.write places = .ok bs := by
  obtain ⟨cs, hcs⟩ := exists_writeAll fun c hc => by
    obtain ⟨n, hn⟩ := (each_handles.1 h c hc).exists_position
    exact ⟨_, writeCatch_eq_ok.2 ⟨n, hn, rfl⟩⟩
  exact ⟨_, write_eq_ok.2 ⟨cs, hcs, rfl⟩⟩

theorem exists_size (h : Each places.IsMeasurable x.handles) : ∃ n, x.size places = .ok n := by
  have h := each_handles.1 h
  obtain ⟨bs, hbs⟩ := exists_write (each_handles.2 fun c hc => h c hc rfl (by decide))
  exact ⟨_, size_of_write hbs⟩

theorem write_rename (h : Each (places.Agrees places' ρ) x.handles) :
    (x.rename ρ).write places' = x.write places := by
  have hcs : writeAll (writeCatch places') (x.rename ρ).catches =
      writeAll (writeCatch places) x.catches :=
    writeAll_map _ fun c hc => by
      have hc : places'.position (ρ _ c.1) = places.position c.1 := each_handles.1 h c hc
      simp only [writeCatch, hc]
  have hall : (x.rename ρ).catchAll = x.catchAll := rfl
  simp only [write, signedCount_rename, hcs, hall]

theorem size_rename (h : Each (places.Measures places' ρ) x.handles) :
    (x.rename ρ).size places' = x.size places := by
  have hcs : sizeOfAll (sizeOfCatch places') (x.rename ρ).catches =
      sizeOfAll (sizeOfCatch places) x.catches :=
    sizeOfAll_map _ fun c hc => by
      have hc : places'.position (ρ _ c.1) = places.position c.1 := each_handles.1 h c hc rfl
      simp only [sizeOfCatch, hc]
  have hall : (x.rename ρ).catchAll = x.catchAll := rfl
  simp only [size, signedCount_rename, hcs, hall]

end CatchHandler

namespace Code

variable {x : Code}

/-- The handles of the body. -/
def handles (x : Code) : List AnyHandle :=
  x.debugInfo.toList.map Handle.any ++ x.handlers.flatMap CatchHandler.handles

/-- The body with its handles renamed. -/
def rename (ρ : Renaming) (x : Code) : Code :=
  { x with
    debugInfo := x.debugInfo.map (ρ _)
    handlers := x.handlers.map (CatchHandler.rename ρ) }

/-- The body that a reader sees: handlers without guarded ranges are not in the file. -/
def asRead (x : Code) : Code := { x with handlers := if x.ranges.isEmpty then [] else x.handlers }

/-- The number of guarded ranges and the offsets of their handlers fit into 16 bits. -/
structure IsEncodable (places : Places) (x : Code) : Prop where
  ranges : x.ranges.length < 2 ^ 16
  offsets : ∀ offsets, x.handlerOffsets places = .ok offsets →
    ∀ r ∈ x.ranges, ∀ offset, offsets[r.handler]? = some offset → offset < 2 ^ 16

theorem rename_id (x : Code) : x.rename (fun _ h => h) = x := by
  have hh : x.handlers.map (CatchHandler.rename fun _ h => h) = x.handlers :=
    (List.map_congr_left fun h _ => h.rename_id).trans (List.map_id' x.handlers)
  simp [rename, hh]

theorem each_handles {P : HandleProperty} : Each P x.handles ↔
    (∀ h ∈ x.debugInfo, P _ h) ∧ ∀ h ∈ x.handlers, Each P h.handles := by
  simp [handles]

theorem each_handles_asRead {P : HandleProperty} (h : Each P x.handles) :
    Each P x.asRead.handles := by
  obtain ⟨h1, h2⟩ := each_handles.1 h
  refine each_handles.2 ⟨h1, fun handler hmem => h2 handler ?_⟩
  rw [asRead] at hmem
  split at hmem
  · exact absurd hmem (by simp)
  · exact hmem

theorem check_eq_ok : x.check = .ok () ↔
    (∀ h ∈ x.handlers, h.catches = [] → h.catchAll ≠ none) ∧
      ∀ r ∈ x.ranges, r.handler < x.handlers.length := by
  have h1 : x.emptyHandler? = none ↔ ∀ h ∈ x.handlers, h.catches = [] → h.catchAll ≠ none := by
    simp [emptyHandler?, List.findIdx?_eq_none_iff, Option.isSome_iff_ne_none]
  have h2 : x.unguarded? = none ↔ ∀ r ∈ x.ranges, r.handler < x.handlers.length := by
    simp [unguarded?, List.find?_eq_none]
  rw [← h1, ← h2, check]
  cases x.emptyHandler? <;> cases x.unguarded? <;> simp

/-! ### Offsets of handlers -/

@[simp] theorem length_offsetsFrom (start : Nat) (sizes : List Nat) :
    (offsetsFrom start sizes).length = sizes.length := by
  induction sizes generalizing start with
  | nil => rfl
  | cons size sizes ih => simp [offsetsFrom, ih]

theorem handlerOffsets_eq_ok {offsets : List Nat} : x.handlerOffsets places = .ok offsets ↔
    ∃ sizes, x.handlers.mapM (CatchHandler.size places) = .ok sizes ∧
      offsetsFrom (Leb128.unsignedSize x.handlers.length) sizes = offsets := by
  simp [handlerOffsets]

theorem length_of_handlerOffsets {offsets : List Nat} (h : x.handlerOffsets places = .ok offsets) :
    offsets.length = x.handlers.length := by
  obtain ⟨sizes, hsizes, rfl⟩ := handlerOffsets_eq_ok.1 h
  rw [length_offsetsFrom, length_of_mapM hsizes]

/-! ### Writing -/

theorem writeRange_eq_ok {offsets : List Nat} {r : GuardedRange} :
    writeRange offsets r = .ok bs ↔ ∃ offset, offsets[r.handler]? = some offset ∧
      Word.full r.start.toNat ++ Word.half r.length.toNat ++ Word.half offset = bs := by
  rw [writeRange]
  cases offsets[r.handler]? <;> simp

theorem writeRanges_eq_ok : x.writeRanges places = .ok bs ↔
    ∃ offsets, x.handlerOffsets places = .ok offsets ∧
    ∃ ranges, writeAll (writeRange offsets) x.ranges = .ok ranges ∧
    ∃ handlers, writeAll (CatchHandler.write places) x.handlers = .ok handlers ∧
      (if x.needsPadding then Word.half 0 else []) ++ ranges ++
        Leb128.unsigned x.handlers.length ++ handlers = bs := by
  simp [writeRanges]

/-- The bytes before the guarded ranges. -/
def writeBody (debugInfo : Nat) (x : Code) : Bytes :=
  Word.half x.registers.toNat ++ Word.half x.ins.toNat ++ Word.half x.outs.toNat ++
    Word.half x.ranges.length ++ Word.full debugInfo ++ Word.full x.units.length ++
    x.units.flatMap fun u => Word.half u.toNat

theorem write_eq (places : Places) (x : Code) : x.write places = (do
    let debugInfo ← places.optionalOffset x.debugInfo
    if x.ranges.isEmpty then return writeBody debugInfo x
    else return writeBody debugInfo x ++ (← x.writeRanges places)) := rfl

theorem write_eq_ok : x.write places = .ok bs ↔
    ∃ debugInfo, places.optionalOffset x.debugInfo = .ok debugInfo ∧
      ((x.ranges = [] ∧ writeBody debugInfo x = bs) ∨
        (x.ranges ≠ [] ∧
          ∃ cs, x.writeRanges places = .ok cs ∧ writeBody debugInfo x ++ cs = bs)) := by
  rw [write_eq]
  cases hr : x.ranges with
  | nil => simp
  | cons r rs => simp

theorem length_writeBody (debugInfo : Nat) (x : Code) :
    (writeBody debugInfo x).length = 16 + 2 * x.units.length := by
  have hu (us : List UInt16) : (us.flatMap fun u => Word.half u.toNat).length = 2 * us.length := by
    induction us with
    | nil => rfl
    | cons u us ih =>
      rw [List.flatMap_cons, List.length_append, ih, Word.half_length, List.length_cons]
      omega
  simp only [writeBody, List.length_append, Word.half_length, Word.full_length, hu]

theorem size_of_write (h : x.write places = .ok bs) : x.size places = .ok bs.length := by
  obtain ⟨debugInfo, -, ⟨hr, rfl⟩ | ⟨hr, cs, hcs, rfl⟩⟩ := write_eq_ok.1 h
  · have hpad : x.needsPadding = false := by simp [needsPadding, hr]
    simp [size, hr, hpad, length_writeBody, pure_eq]
  · obtain ⟨offsets, -, ranges, hranges, handlers, hhandlers, rfl⟩ := writeRanges_eq_ok.1 hcs
    have hlen : ranges.length = 8 * x.ranges.length := by
      refine length_of_writeAll (fun r _ bs hb => ?_) hranges
      obtain ⟨offset, -, rfl⟩ := writeRange_eq_ok.1 hb
      simp
    have hsize := sizeOfAll_of_writeAll (fun h _ bs hb => CatchHandler.size_of_write hb) hhandlers
    have hpad : (if x.needsPadding then Word.half 0 else []).length =
        if x.needsPadding then 2 else 0 := by
      split <;> simp
    simp [size, hr, hsize, length_writeBody, hlen, hpad, Leb128.length_unsigned, pure_eq]
    omega

theorem exists_handlerOffsets (h : ∀ h ∈ x.handlers, ∃ n, h.size places = .ok n) :
    ∃ offsets, x.handlerOffsets places = .ok offsets := by
  obtain ⟨sizes, hsizes⟩ := exists_mapM_eq_ok h
  exact ⟨_, handlerOffsets_eq_ok.2 ⟨sizes, hsizes, rfl⟩⟩

theorem exists_write (hx : Each places.IsPlaced x.handles) (hc : x.check = .ok ()) :
    ∃ bs, x.write places = .ok bs := by
  obtain ⟨h1, h2⟩ := each_handles.1 hx
  have hguarded := (check_eq_ok.1 hc).2
  obtain ⟨debugInfo, hdebug⟩ := Places.exists_optionalOffset h1
  obtain ⟨handlers, hhandlers⟩ := exists_writeAll fun h hh => CatchHandler.exists_write (h2 h hh)
  obtain ⟨offsets, hoffsets⟩ := exists_handlerOffsets (x := x) fun h hh =>
    CatchHandler.exists_size ((h2 h hh).mono fun _ _ hp => hp.isMeasurable)
  obtain ⟨ranges, hranges⟩ := exists_writeAll (w := writeRange offsets) fun r hr => by
    have hlt : r.handler < offsets.length := by
      rw [length_of_handlerOffsets hoffsets]
      exact hguarded r hr
    exact ⟨_, writeRange_eq_ok.2 ⟨_, List.getElem?_eq_getElem hlt, rfl⟩⟩
  by_cases hr : x.ranges = []
  · exact ⟨_, write_eq_ok.2 ⟨debugInfo, hdebug, .inl ⟨hr, rfl⟩⟩⟩
  · have hcs := writeRanges_eq_ok.2
      ⟨offsets, hoffsets, ranges, hranges, handlers, hhandlers, rfl⟩
    exact ⟨_, write_eq_ok.2 ⟨debugInfo, hdebug, .inr ⟨hr, _, hcs, rfl⟩⟩⟩

theorem exists_size (hx : Each places.IsMeasurable x.handles) : ∃ n, x.size places = .ok n := by
  obtain ⟨m, hm⟩ :=
    exists_sizeOfAll fun h hh => CatchHandler.exists_size ((each_handles.1 hx).2 h hh)
  rw [size, hm]
  cases x.ranges.isEmpty with
  | true => exact ⟨_, rfl⟩
  | false => exact ⟨_, rfl⟩

/-! ### Renaming -/

theorem handlerOffsets_rename (h : ∀ h ∈ x.handlers, Each (places.Measures places' ρ) h.handles) :
    (x.rename ρ).handlerOffsets places' = x.handlerOffsets places := by
  have hsizes : (x.handlers.map (CatchHandler.rename ρ)).mapM (CatchHandler.size places') =
      x.handlers.mapM (CatchHandler.size places) := by
    rw [mapM_map]
    exact mapM_congr fun h' hh => CatchHandler.size_rename (h h' hh)
  simp only [handlerOffsets, rename, hsizes, List.length_map]

theorem write_rename (hx : Each (places.Agrees places' ρ) x.handles) :
    (x.rename ρ).write places' = x.write places := by
  obtain ⟨h1, h2⟩ := each_handles.1 hx
  have hhandlers : writeAll (CatchHandler.write places') (x.handlers.map (CatchHandler.rename ρ)) =
      writeAll (CatchHandler.write places) x.handlers :=
    writeAll_map _ fun h hh => CatchHandler.write_rename (h2 h hh)
  have hoffsets := handlerOffsets_rename (x := x) fun h hh =>
    (h2 h hh).mono fun _ _ ha => ha.measures
  have hranges : (x.rename ρ).writeRanges places' = x.writeRanges places := by
    rw [writeRanges, writeRanges, hoffsets]
    simp only [rename, hhandlers, List.length_map]
    rfl
  have hdebug : places'.optionalOffset (x.rename ρ).debugInfo =
    places.optionalOffset x.debugInfo := Places.optionalOffset_map h1
  rw [write_eq, write_eq, hranges, hdebug]
  rfl

theorem size_rename (hx : Each (places.Measures places' ρ) x.handles) :
    (x.rename ρ).size places' = x.size places := by
  have hhandlers : sizeOfAll (CatchHandler.size places') (x.handlers.map (CatchHandler.rename ρ)) =
      sizeOfAll (CatchHandler.size places) x.handlers :=
    sizeOfAll_map _ fun h hh => CatchHandler.size_rename ((each_handles.1 hx).2 h hh)
  simp only [size, rename, hhandlers, List.length_map]
  rfl

theorem write_asRead (x : Code) : x.asRead.write places = x.write places := by
  cases hr : x.ranges.isEmpty with
  | true => simp [write, asRead, hr]
  | false => simp [asRead, hr]

theorem size_asRead (x : Code) : x.asRead.size places = x.size places := by
  cases hr : x.ranges.isEmpty with
  | true => simp [size, asRead, hr, needsPadding]
  | false => simp [asRead, hr]

end Code

end DexContainer
