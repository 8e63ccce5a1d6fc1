import Mathlib.Data.Option.Basic
import DexContainer.Proofs.Item.Value.Nesting
import DexContainer.Proofs.Section.Standing

/-! What the file keeps of a method body. The check looks for handlers that catch nothing and for
guarded ranges without a handler. The file has more to ask: handlers stand in it only behind guarded
ranges, the number of these and the offsets of their handlers have 16 bits, and the offset zero
stands for no debug information. Main statement: `Container.reads_written_code`, by which a body
that passes its check is read back exactly if all of this holds. -/

namespace DexContainer

/-! ### Numbers in place of handles -/

namespace Places

variable {places : Places} {k : Kind} {h : Handle k}

theorem agrees_numbers (h' : places.IsPlaced k h) :
    places.Agrees numbers places.indices k h := by
  obtain ⟨n, hn⟩ := h'
  refine agrees_of_position? hn ?_
  rw [indices_of_position? hn]
  rfl

theorem indices_id_lt (hplaced : places.IsPlaced k h) (hword : places.FitsWord k h) :
    (places.indices k h).id < 2 ^ 32 := by
  obtain ⟨n, hn⟩ := hplaced
  rw [indices_of_position? hn]
  exact hword n hn

end Places

namespace Code

variable {places places' : Places} {ρ : Renaming} {x : Code} {bs tail : Bytes} {image : Image}
  {keeps : Bool} {start finish : Nat}

/-- The file has room for all of the body. -/
structure IsKept (places : Places) (x : Code) : Prop extends x.IsEncodable places where
  handlers : x.ranges = [] → x.handlers = []
  debugInfo : ∀ h ∈ x.debugInfo, places.position? _ h ≠ some 0

theorem each_handles_rename {P : HandleProperty} :
    Each P (x.rename ρ).handles ↔ Each (fun k h => P k (ρ k h)) x.handles := by
  simp only [each_handles, CatchHandler.each_handles, rename, CatchHandler.rename,
    Option.mem_map, List.forall_mem_map, forall_exists_index, and_imp, forall_apply_eq_imp_iff₂]

theorem asRead_rename (ρ : Renaming) (x : Code) : (x.rename ρ).asRead = x.asRead.rename ρ := by
  cases hr : x.ranges with
  | nil => simp [asRead, rename, hr]
  | cons r rs => simp [asRead, rename, hr]

theorem asRead_eq_self_iff : x.asRead = x ↔ (x.ranges = [] → x.handlers = []) := by
  constructor
  · intro h hr
    rw [← h, asRead, hr]
    rfl
  · intro h
    obtain ⟨_, _, _, _, _, ranges, handlers⟩ := x
    cases ranges with
    | nil =>
      obtain rfl : handlers = [] := h rfl
      rfl
    | cons r rs => rfl

theorem check_rename (ρ : Renaming) (x : Code) :
    (x.rename ρ).check = .ok () ↔ x.check = .ok () := by
  simp [check_eq_ok, rename, CatchHandler.rename]

theorem isKept_rename (h : Each (places.Agrees places' ρ) x.handles) :
    (x.rename ρ).IsKept places' ↔ x.IsKept places := by
  obtain ⟨hdebug, hhandlers⟩ := each_handles.1 h
  have hoffsets : (x.rename ρ).handlerOffsets places' = x.handlerOffsets places :=
    handlerOffsets_rename fun h' hh => (hhandlers h' hh).mono fun _ _ ha => ha.measures
  have hzero : (∀ d ∈ (x.rename ρ).debugInfo, places'.position? _ d ≠ some 0) ↔
      ∀ d ∈ x.debugInfo, places.position? _ d ≠ some 0 := by
    cases hd : x.debugInfo with
    | none => simp [rename, hd]
    | some d => simp [rename, hd, (hdebug d hd).position?]
  have hnil : ((x.rename ρ).ranges = [] → (x.rename ρ).handlers = []) ↔
      (x.ranges = [] → x.handlers = []) := by
    simp [rename]
  constructor
  · rintro ⟨⟨hranges, hx⟩, hempty, hd⟩
    exact ⟨⟨hranges, hoffsets ▸ hx⟩, hnil.1 hempty, hzero.1 hd⟩
  · rintro ⟨⟨hranges, hx⟩, hempty, hd⟩
    exact ⟨⟨hranges, hoffsets.symm ▸ hx⟩, hnil.2 hempty, hzero.2 hd⟩

theorem length_pos_of_write (h : x.write places = .ok bs) : 0 < bs.length := by
  obtain ⟨debugInfo, -, ⟨-, rfl⟩ | ⟨-, cs, -, rfl⟩⟩ := write_eq_ok.1 h
  · rw [length_writeBody]
    omega
  · rw [List.length_append, length_writeBody]
    omega

/-! ### Reading back -/

/-- A body whose handles are numbers stands in the image, but for handlers without ranges, if there
is room for the rest of it. -/
theorem standsAt_asRead_of_numbers (hword : Each Places.numbers.FitsWord x.handles)
    (hc : x.check = .ok ()) (hx : x.IsEncodable .numbers)
    (hzero : ∀ h ∈ x.debugInfo, Places.numbers.position? _ h ≠ some 0)
    (h : x.write .numbers = .ok bs) (hlen : bs.length < 2 ^ 32)
    (hrest : image.toList.drop start = bs ++ tail) :
    Content.StandsAt image keeps .code start (start + bs.length) x.asRead := by
  have hstart : start ≤ image.size := by
    have hpos := length_pos_of_write h
    have hlength := congrArg List.length hrest
    simp only [List.length_drop, List.length_append, Array.length_toList] at hlength
    omega
  refine Content.standsAt_of_reads ?_ hstart hrest
  exact (Code.reads hword hzero hc hx h hlen).value fun ρ _ => asRead_rename ρ x

/-- The ranges and handlers that stand in an image have room in it. -/
theorem isKept_of_standsAt (h : Content.StandsAt image keeps .code start finish x) :
    x.IsEncodable .numbers ∧ (x.ranges = [] → x.handlers = []) := by
  obtain ⟨r, r', hr, -, hread⟩ := h.exists_decode_self
  obtain ⟨-, hyields⟩ := Code.yields _ _ _ hread rfl hr fun _ _ => trivial
  obtain ⟨-, -, hasRead, hfits⟩ := hyields _ (References.extends_refl _)
  exact ⟨hfits.isEncodable fun _ _ _ _ hn => (Option.some.inj hn).symm,
    asRead_eq_self_iff.1 hasRead⟩

/-- The body without its debug information. -/
def bare (x : Code) : Code := { x with debugInfo := none }

theorem IsEncodable.bare (hx : x.IsEncodable places) : x.bare.IsEncodable places :=
  ⟨hx.ranges, hx.offsets⟩

theorem write_bare (h : ∀ d ∈ x.debugInfo, places.position? _ d = some 0) :
    x.bare.write places = x.write places := by
  have hoffset : places.optionalOffset x.debugInfo = .ok 0 := by
    cases hd : x.debugInfo with
    | none => rfl
    | some d => exact Places.position_eq_ok.2 (h d hd)
  rw [write_eq, write_eq, hoffset]
  rfl

/-- Types are named by index, so only debug information is read as something else than its
number. -/
theorem bare_rename_handleOf (r : References) (x : Code) : (x.rename r.handleOf).bare = x.bare := by
  have hhandler (h : CatchHandler) : h.rename r.handleOf = h := by
    simp [CatchHandler.rename, References.handleOf, Kind.isIndexed]
  simp [bare, rename, funext hhandler]

/-- A body whose handles are numbers has room if it is read back. -/
theorem isKept_of_decode {s t : Source} {r : References}
    (hword : Each Places.numbers.FitsWord x.handles) (hc : x.check = .ok ())
    (h : x.write .numbers = .ok bs) (hlen : bs.length < 2 ^ 32) (hs : s.rest = bs ++ tail)
    (hread : decode s = .ok (x.rename r.handleOf) t) : x.IsKept .numbers := by
  obtain ⟨y, hy, -, hxy⟩ := Content.exists_standsAt_of_decode (k := .code) hread
  have hbare : y.bare = x.bare := by
    rw [← bare_rename_handleOf r x, ← hxy]
    exact (bare_rename_handleOf _ y).symm
  obtain ⟨hx, hempty⟩ := isKept_of_standsAt hy
  replace hx : x.bare.IsEncodable .numbers := hbare ▸ hx.bare
  replace hempty : x.bare.ranges = [] → x.bare.handlers = [] := hbare ▸ hempty
  refine ⟨⟨hx.ranges, hx.offsets⟩, hempty, fun d hd hzero => ?_⟩
  -- debug information at the offset zero is not told from absent one
  have hwrite : x.bare.write .numbers = .ok bs := by
    rw [write_bare fun d' hd' => Option.mem_unique hd hd' ▸ hzero, h]
  have hhandlers := (each_handles.1 hword).2
  have hstands : Content.StandsAt s.image s.keepsSigned .code s.position _ x.bare.asRead :=
    standsAt_asRead_of_numbers (each_handles.2 ⟨by simp [bare], hhandlers⟩) hc hx
      (by simp [bare]) hwrite hlen hs
  obtain ⟨rfl, -⟩ := hy.unique hstands
  have hnone : none = (x.rename r.handleOf).debugInfo := congrArg debugInfo hxy
  rw [rename, Option.mem_def.1 hd] at hnone
  cases hnone

end Code

/-- A method body that passes its check, whose handles are placed at 32-bit positions of a container
and whose size is a 32-bit number, is written in as many bytes as its size says. Wherever these
bytes stand in an image, whatever follows them and whatever references were met before them, the
reader gives back the body, with the placed index or the slot of the placed offset in place of each
handle, and stops right behind them, exactly if the file has room for all of the body. -/
theorem Container.reads_written_code (c : Container) (x : Code) (hc : x.check = .ok ())
    (hplaced : Each c.places.IsPlaced x.handles) (hword : Each c.places.FitsWord x.handles)
    (hsize : ∀ n, x.size c.places = .ok n → n < 2 ^ 32) :
    ∃ bs, x.write c.places = .ok bs ∧ x.size c.places = .ok bs.length ∧
      ∀ (s : Source) (tail : Bytes), s.rest = bs ++ tail →
        ((∃ r, Each r.Met (x.rename c.places.indices).handles ∧ Code.decode s =
          .ok ((x.rename c.places.indices).rename r.handleOf)
            { s.advance bs.length with references := r }) ↔ x.IsKept c.places) := by
  obtain ⟨bs, h⟩ := Code.exists_write hplaced hc
  have hn := Code.size_of_write h
  have hlen := hsize _ hn
  have hagrees : Each (c.places.Agrees .numbers c.places.indices) x.handles :=
    hplaced.mono fun _ _ => Places.agrees_numbers
  have h' := (Code.write_rename hagrees).trans h
  have hc' := (Code.check_rename c.places.indices x).2 hc
  have hword' : Each Places.numbers.FitsWord (x.rename c.places.indices).handles := by
    refine Code.each_handles_rename.2 fun g hg n hn => ?_
    rw [← Option.some.inj hn]
    exact Places.indices_id_lt (hplaced g hg) (hword g hg)
  refine ⟨bs, h, hn, fun s tail hs => ?_⟩
  rw [← Code.isKept_rename hagrees]
  constructor
  · rintro ⟨r, -, hread⟩
    exact Code.isKept_of_decode hword' hc' h' hlen hs hread
  · intro hx
    have hstands : Content.StandsAt s.image s.keepsSigned .code s.position _
        (x.rename c.places.indices).asRead :=
      Code.standsAt_asRead_of_numbers hword' hc' hx.toIsEncodable hx.debugInfo h' hlen hs
    rw [Code.asRead_eq_self_iff.2 hx.handlers] at hstands
    obtain ⟨met, hperm, hok⟩ := hstands
    refine ⟨s.references.meetAll met, fun g hg => ?_, hok s.references _
      (References.names_handleOf _)⟩
    exact References.each_met s.references met g (hperm.mem_iff.2 hg)

/-- A code unit with a typed catch and a catch-all around it is kept. -/
theorem Container.reads_written_code_guarded :
    ∃ (c : Container) (x y : Code) (bs : Bytes) (t : Source),
    x = ⟨1, 0, 0, some ⟨0⟩, [0x000e], [⟨0, 1, 0⟩], [⟨[(⟨0⟩, 5)], some 1⟩]⟩ ∧
    x.write c.places = .ok bs ∧ Code.decode { image := bs.toArray } = .ok y t ∧ t.position = 33 ∧
    y.ranges = x.ranges ∧ y.handlers = x.handlers := by
  generalize hx : Code.mk 1 0 0 (some ⟨0⟩) [0x000e] [⟨0, 1, 0⟩] [⟨[(⟨0⟩, 5)], some 1⟩] = x
  have hplace : ((empty {}).internType "LE;" >>= fun b =>
      b.1.intern (k := .debugInfo) ⟨1, [], []⟩ >>= fun b =>
      (fun d => (d.1.places.position? .typeId ⟨0⟩, d.1.places.position? .debugInfo ⟨0⟩)) <$>
        b.1.place) = .ok (some 0, some 125) := by
    cbv
  obtain ⟨⟨b, type⟩, -, hplace⟩ := bind_eq_ok.1 hplace
  obtain ⟨⟨b, debugInfo⟩, -, hplace⟩ := bind_eq_ok.1 hplace
  obtain ⟨⟨c, fileSize⟩, -, heq⟩ := map_eq_ok.1 hplace
  simp only [Prod.mk.injEq] at heq
  obtain ⟨htype, hdebug⟩ := heq
  have hsize : x.size c.places = .ok 33 := by
    have hcount : Leb128.signedSize (-1) = 1 := by
      rw [Leb128.signedSize]
      rfl
    simp [← hx, Code.size, Code.needsPadding, CatchHandler.size, CatchHandler.sizeOfCatch,
      CatchHandler.signedCount, sizeOfAll_cons, sizeOfAll_nil, Places.position, htype, hcount,
      Leb128.unsignedSize_of_lt]
  have hhandles : x.handles = [⟨.debugInfo, ⟨0⟩⟩, ⟨.typeId, ⟨0⟩⟩] := by rw [← hx]; rfl
  have hword : Each c.places.FitsWord x.handles := by
    rw [hhandles]
    refine each_cons.2 ⟨fun n hn => ?_, each_cons.2 ⟨fun n hn => ?_, each_nil⟩⟩
    · cases hdebug.symm.trans hn
      decide
    · cases htype.symm.trans hn
      decide
  have hkept : x.IsKept c.places := by
    refine ⟨⟨by rw [← hx]; decide, fun offsets hoffsets r hr offset hoffset => ?_⟩,
      by simp [← hx], fun d hd => ?_⟩
    · obtain ⟨sizes, -, rfl⟩ := Code.handlerOffsets_eq_ok.1 hoffsets
      rw [← hx] at hr hoffset
      obtain rfl := List.mem_singleton.1 hr
      cases sizes with
      | nil => cases hoffset
      | cons size sizes =>
        rw [Leb128.unsignedSize_of_lt (by decide)] at hoffset
        obtain rfl : 1 = offset := Option.some.inj hoffset
        decide
    · rw [← hx] at hd
      cases hd
      rw [hdebug]
      decide
  obtain ⟨bs, hbs, hlen, hread⟩ := reads_written_code c x (by rw [← hx]; decide)
    (hhandles ▸ each_cons.2 ⟨⟨125, hdebug⟩, each_cons.2 ⟨⟨0, htype⟩, each_nil⟩⟩) hword
    (by rw [hsize]; rintro _ ⟨⟩; decide)
  have hlength : bs.length = 33 := by simpa [hsize, eq_comm] using hlen
  obtain ⟨r, -, hr⟩ := (hread { image := bs.toArray } [] (by simp [Source.rest])).2 hkept
  refine ⟨c, x, _, bs, _, rfl, hbs, hr, ?_, rfl, ?_⟩
  · simp [Source.advance, hlength]
  · simp [← hx, Code.rename, CatchHandler.rename, Places.indices_of_position? htype,
      References.handleOf, Kind.isIndexed]

/-- The check does not look for handlers without ranges, which the file has no room for. -/
theorem Container.exists_code_losing_handlers : ∃ (x y : Code) (bs : Bytes),
    x = ⟨1, 0, 0, none, [0x000e], [], [⟨[], some 1⟩]⟩ ∧ x.check = .ok () ∧ x.handles = [] ∧
    x.write (empty {}).places = .ok bs ∧ x.size (empty {}).places = .ok bs.length ∧
    Code.decode { image := bs.toArray } = .ok y { image := bs.toArray, position := bs.length } ∧
    y.handlers = [] ∧ y ≠ x := by
  refine ⟨_, ⟨1, 0, 0, none, [0x000e], [], []⟩,
    [1, 0, 0, 0, 0, 0, 0, 0, 0, 0, 0, 0, 1, 0, 0, 0, 14, 0], rfl, rfl, rfl, ?_, rfl, ?_, rfl,
    by decide⟩
  · decide
  · rfl

end DexContainer
