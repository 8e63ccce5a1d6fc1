import DexContainer.Proofs.Container.Arrangement
import DexContainer.Proofs.Container.Building
import DexContainer.Proofs.Container.Rounds

/-! A layout that takes too many rounds. Fourteen method bodies stand just behind the offset from
which on offsets take three bytes, and sixteen methods share each of them. Every round brings one
body in front of that offset, which saves the sixteen bytes that bring the next body there. Main
statement: `exists_unsettled`, such a container is refused, although one more round would do. -/

namespace DexContainer

namespace ClassData

/-- The length of methods that are all named by the first index. -/
theorem sizeOfMethods_of_first {places : Places} {ms : List EncodedMethod}
    (hfirst : places.position? .methodId ⟨0⟩ = some 0)
    (hms : ∀ m ∈ ms, m.method = ⟨0⟩ ∧ m.accessFlags = 0 ∧ m.code ≠ none) :
    sizeOfMethods places 0 ms = .ok (2 * ms.length + codeWidths places (codesOf ms)) := by
  induction ms with
  | nil => rfl
  | cons m ms ih =>
    obtain ⟨hmethod, hflags, hcode⟩ := hms m (List.mem_cons_self ..)
    obtain ⟨h, hcode⟩ := Option.ne_none_iff_exists'.1 hcode
    have hindex : places.position m.method = .ok 0 := by
      rw [hmethod, Places.position_eq_ok]
      exact hfirst
    have hone : Leb128.unsignedSize 0 = 1 := Leb128.unsignedSize_of_lt (by decide)
    simp only [sizeOfMethods, hindex, ok_bind, ih fun l hl => hms l (List.mem_cons_of_mem m hl),
      pure_eq, hflags, UInt32.toNat_zero, difference, codesOf, List.filterMap_cons, hcode,
      codeWidths, codeWidth, List.map_cons, List.sum_cons, List.length_cons, Nat.zero_mod,
      Nat.sub_zero, Nat.zero_add, Nat.mod_self, hone]
    congr 1
    omega

end ClassData

namespace Section

variable {k : Kind} {s : Section k} {places : Places}

/-- Items of one length. -/
theorem sizes_eq_replicate {sizes : List Nat} {width : Nat} (hs : s.WellFormed)
    (h : s.sizes places = .ok sizes)
    (hwidth : ∀ x ∈ s.items.toList, Content.size places k x = .ok width) :
    sizes = List.replicate s.items.size width := by
  refine List.eq_replicate_iff.2 ⟨(length_of_mapM h).trans hs.length_order, fun size hsize => ?_⟩
  obtain ⟨id, -, hid⟩ := exists_of_mem_mapM h hsize
  obtain ⟨x, hx, hsize⟩ := bind_eq_ok.1 hid
  rw [get_eq_ok, get?, ← Array.getElem?_toList] at hx
  rw [hwidth x (List.mem_of_getElem? hx)] at hsize
  exact (Except.ok.inj hsize).symm

theorem sizes_of_toList_eq {x : Content k} (hs : s.WellFormed) (h : s.items.toList = [x]) :
    s.sizes places = do return [← Content.size places k x] := by
  refine sizes_of_size_one hs (by rw [← Array.length_toList, h]; rfl) ?_
  rw [get?, ← Array.getElem?_toList, h]
  rfl

end Section

namespace Container

variable {c d e : Container} {start finish fileSize : Nat}

/-- The map is all that follows the data. -/
theorem fileSize_of_conclude (hwf : c.SectionsWellFormed) (hs : c.HasSingletons)
    (h : conclude start (c, finish) = .ok (d, fileSize)) : fileSize ≤ finish + 235 := by
  obtain ⟨⟨e, n⟩, he, h⟩ := bind_eq_ok.1 h
  simp only [pure_eq_ok, Prod.mk.injEq] at h
  obtain ⟨-, rfl⟩ := h
  generalize hm : MapList.mk (c.mapEntries (alignUp finish Kind.mapList.alignment)) = m at he
  obtain ⟨sizes, hsizes, -, hnext⟩ := placeSection_eq_ok.1 he
  rw [sectionOf_modifySection_self, Section.sizes_of_size_one ((hwf .mapList).replaceFirst m)
    ((size_replaceFirst m).trans hs.map) (Section.get?_replaceFirst m hs.map)] at hsizes
  cases hsizes
  have hrows : m.entries.length ≤ 19 := by
    rw [← hm]
    exact length_mapEntries_le c _
  have halign : alignUp finish Kind.mapList.alignment ≤ finish + 3 := by
    have := alignUp_four finish
    rw [show Kind.mapList.alignment = 4 from rfl]
    omega
  rw [Section.next_layoutOf, Section.finishFrom, Section.finishFrom, Section.alignUp_alignUp,
    MapList.size, show MapEntry.length = 12 from rfl] at hnext
  omega

/-! ### The container -/

/-- Every body is shared by sixteen methods. -/
def sharingMethods : List EncodedMethod :=
  (List.range 14).flatMap fun i => List.replicate 16 ⟨⟨0⟩, 0, some ⟨i⟩⟩

/-- A list that is as long as it takes to have the bodies stand where they are to stand. -/
def longList : TypeList := ⟨List.replicate 7548 ⟨0⟩⟩

/-- Bodies that many methods share, behind a long list. -/
def sharingItems : (k : Kind) → List (Content k)
  | .stringData => [⟨1, [0x56]⟩]
  | .stringId => [⟨⟨0⟩⟩]
  | .typeId => [⟨⟨0⟩⟩]
  | .protoId => [⟨⟨0⟩, ⟨0⟩, none⟩]
  | .methodId => [⟨⟨0⟩, ⟨0⟩, ⟨0⟩⟩]
  | .typeList => [longList]
  | .code => (List.range 14).map fun i => ⟨UInt16.ofNat i, 0, 0, none, [], [], []⟩
  | .classData => [⟨[], [], sharingMethods, []⟩]
  | _ => []

/-- The loop of the container. -/
def sharingLoop : CodeLoop where
  rest := 15696
  uses := (List.range 14).flatMap fun i => List.replicate 16 i
  sizes := List.replicate 14 16

theorem nodup_sharingItems (k : Kind) : (sharingItems k).Nodup := by
  cases k with
  | code => decide
  | _ => first | exact List.nodup_singleton _ | exact List.nodup_nil

theorem check_of_mem_sharingItems (k : Kind) :
    ∀ x ∈ sharingItems k, Content.check k x = .ok () := by
  cases k with
  | code =>
    intro x hx
    obtain ⟨i, -, rfl⟩ := List.mem_map.1 hx
    rfl
  | _ => exact fun _ _ => rfl

theorem method_of_mem_sharingMethods {m : EncodedMethod} (hm : m ∈ sharingMethods) :
    m.method = ⟨0⟩ ∧ m.accessFlags = 0 ∧ ∃ i < 14, m.code = some ⟨i⟩ := by
  obtain ⟨i, hi, hm⟩ := List.mem_flatMap.1 hm
  obtain rfl := List.eq_of_mem_replicate hm
  exact ⟨rfl, rfl, i, List.mem_range.1 hi, rfl⟩

theorem closed_sharingItems (k : Kind) : ∀ x ∈ sharingItems k,
    Each (fun j h => j.isSingleton = false ∧ h.id < (sharingItems j).length)
      (Content.handles k x) := by
  have hfirst (j : Kind) (hj : j.isSingleton = false) (hlength : 0 < (sharingItems j).length) :
      j.isSingleton = false ∧ (⟨0⟩ : Handle j).id < (sharingItems j).length := ⟨hj, hlength⟩
  intro x hx
  cases k with
  | stringId =>
    obtain rfl := List.mem_singleton.1 hx
    exact each_cons.2 ⟨hfirst .stringData rfl (by decide), each_nil⟩
  | typeId =>
    obtain rfl := List.mem_singleton.1 hx
    exact each_cons.2 ⟨hfirst .stringId rfl (by decide), each_nil⟩
  | protoId =>
    obtain rfl := List.mem_singleton.1 hx
    exact each_cons.2 ⟨hfirst .stringId rfl (by decide),
      each_cons.2 ⟨hfirst .typeId rfl (by decide), each_nil⟩⟩
  | methodId =>
    obtain rfl := List.mem_singleton.1 hx
    exact each_cons.2 ⟨hfirst .typeId rfl (by decide), each_cons.2
      ⟨hfirst .protoId rfl (by decide), each_cons.2 ⟨hfirst .stringId rfl (by decide), each_nil⟩⟩⟩
  | typeList =>
    obtain rfl := List.mem_singleton.1 hx
    refine each_map.2 fun t ht => ?_
    obtain rfl := List.eq_of_mem_replicate ht
    exact hfirst .typeId rfl (by decide)
  | code =>
    obtain ⟨i, -, rfl⟩ := List.mem_map.1 hx
    exact each_nil
  | classData =>
    obtain rfl := List.mem_singleton.1 hx
    refine ClassData.each_handles.2 ⟨by simp, by simp, fun m hm => ?_, by simp⟩
    obtain ⟨hmethod, -, i, hi, hcode⟩ := method_of_mem_sharingMethods hm
    rw [hmethod, hcode]
    refine ⟨hfirst .methodId rfl (by decide), fun h hh => ?_⟩
    obtain rfl := Option.some.inj hh
    exact ⟨rfl, hi⟩
  | stringData => exact each_nil
  | _ => exact absurd hx List.not_mem_nil

/-! ### Its layout -/

/-- What holds of the container when its data is to be laid out from an offset on. -/
structure IsPrepared (e : Container) (start : Nat) : Prop where
  wellFormed : e.SectionsWellFormed
  closed : e.Closed
  numbers : e.NumbersPlaced
  items : ∀ k, k.isSingleton = false → (e.sectionOf k).items.toList = sharingItems k
  start_eq : start = 140
  method : e.places.position? .methodId ⟨0⟩ = some 0
  classData : (e.sectionOf .classData).order.toList = [0]
  code : (e.sectionOf .code).order.toList = List.range 14
  unplaced : ∀ h : Handle .code, e.places.position? .code h = none

theorem isPrepared_of_prepare (hc : c.IsFresh) (hclosed : c.Closed)
    (hitems : ∀ k, k.isSingleton = false → (c.sectionOf k).items.toList = sharingItems k)
    (hprepare : c.prepare = .ok (e, start)) (hn : e.NumbersPlaced) : e.IsPrepared start := by
  have hcoherent := hc.reachable.coherent
  obtain ⟨hce, hfixed, htables, hframe⟩ := of_prepare hcoherent.wellFormed hprepare
  have hwf := hce.wellFormed hcoherent.wellFormed
  have hs := hce.items.singletons hcoherent.singletons
  have hitems' (k : Kind) (hk : k.isSingleton = false) :
      (e.sectionOf k).items.toList = sharingItems k := by
    rw [hce.items, hitems k hk]
  have hsize (k : Kind) (hk : k.isSingleton = false) :
      (e.sectionOf k).items.size = (sharingItems k).length := by
    rw [← hitems' k hk, Array.length_toList]
  have horder (k : Kind) (hk : k.isSingleton = false) (hfix : ¬Movable k) :
      (e.sectionOf k).order = Array.range (sharingItems k).length := by
    rw [hfixed k hfix, hc.order, ← Array.length_toList, hitems k hk]
  have htables := htables.of_header hwf hs
  refine ⟨hwf, hce.items.closed hclosed, hn, hitems', ?_, ?_, ?_, ?_, fun h => ?_⟩
  · rw [(tables_of_stacked hwf (by decide) (by decide) htables).1]
    simp only [Kind.tables, List.map_cons, List.map_nil, tableSize, Section.size]
    rw [hsize .stringId rfl, hsize .typeId rfl, hsize .protoId rfl, hsize .fieldId rfl,
      hsize .methodId rfl, hsize .classDef rfl]
    rfl
  · obtain ⟨_, _, -, hsizes, hstands, -⟩ := htables.stands (k := .methodId) (by decide)
    have hresolves : e.Resolves .methodId ⟨0⟩ := resolves_iff.2 (by
      rw [hsize .methodId rfl]
      decide)
    obtain ⟨n, hn⟩ := hn .methodId ⟨0⟩ rfl hresolves
    have hid := Section.positions_of_stands (hwf .methodId) rfl
      (by rw [horder .methodId rfl (not_movable_of_isNumbered rfl), hsize .methodId rfl]) hsizes
      hstands ⟨0⟩ n hn
    rwa [hid] at hn
  · rw [horder .classData rfl (by simp [Movable, Kind.isSortable])]
    rfl
  · rw [horder .code rfl (by simp [Movable, Kind.isSortable])]
    rfl
  · have hposition := position?_congr (h := h) (hframe .code (by decide) rfl)
    exact hposition.trans ((hc.cleared .code).1 h)

theorem codesOf_sharingMethods : ClassData.codesOf sharingMethods =
    (List.range 14).flatMap fun i => List.replicate 16 (⟨i⟩ : Handle .code) := by
  decide +kernel

section IsPrepared

variable (he : e.IsPrepared start)

include he

theorem IsPrepared.codes_eq : e.codes = ClassData.codesOf sharingMethods := by
  have hget : (e.sectionOf .classData).get? ⟨0⟩ = some ⟨[], [], sharingMethods, []⟩ := by
    rw [Section.get?, ← Array.getElem?_toList, he.items .classData rfl]
    rfl
  rw [codes, Section.codes, he.classData, List.flatMap_singleton, Section.codesAt, hget]
  exact List.append_nil _

theorem IsPrepared.codeWidths_eq :
    ClassData.codeWidths e.places (ClassData.codesOf sharingMethods) = 1120 := by
  have hwidth (h : Handle .code) : ClassData.codeWidth e.places h = 5 := by
    rw [ClassData.codeWidth, ClassData.codeSize, he.unplaced h]
    rfl
  rw [ClassData.codeWidths, codesOf_sharingMethods, funext hwidth]
  decide +kernel

theorem IsPrepared.uses_eq : e.codes.map e.rankOf = sharingLoop.uses := by
  have hrank : e.rankOf = fun h => (List.range 14).idxOf h.id := by
    funext h
    rw [rankOf, he.code]
  rw [he.codes_eq, codesOf_sharingMethods, hrank]
  decide +kernel

theorem IsPrepared.sizes_code {sizes : List Nat}
    (h : (e.sectionOf .code).sizes e.places = .ok sizes) : sizes = sharingLoop.sizes := by
  have hwidth : ∀ x ∈ (e.sectionOf .code).items.toList,
      Content.size e.places .code x = .ok 16 := by
    intro x hx
    rw [he.items .code rfl] at hx
    obtain ⟨i, -, rfl⟩ := List.mem_map.1 hx
    rfl
  rw [Section.sizes_eq_replicate (he.wellFormed .code) h hwidth, ← Array.length_toList,
    he.items .code rfl]
  rfl

theorem IsPrepared.sizes_classData :
    (e.sectionOf .classData).sizes e.places = .ok [1573] := by
  have hmembers : ∀ m ∈ sharingMethods, m.method = ⟨0⟩ ∧ m.accessFlags = 0 ∧ m.code ≠ none := by
    intro m hm
    obtain ⟨hmethod, hflags, i, -, hcode⟩ := method_of_mem_sharingMethods hm
    exact ⟨hmethod, hflags, by simp [hcode]⟩
  have hmethods := ClassData.sizeOfMethods_of_first he.method hmembers
  have hlength : sharingMethods.length = 224 := by decide +kernel
  have hone : Leb128.unsignedSize 0 = 1 := Leb128.unsignedSize_of_lt (by decide)
  have htwo : Leb128.unsignedSize 224 = 2 := by decide +kernel
  rw [he.codeWidths_eq, hlength] at hmethods
  rw [Section.sizes_of_toList_eq (he.wellFormed .classData) (he.items .classData rfl)]
  simp only [Content.size, ClassData.size, ClassData.sizeOfFields, ClassData.sizeOfMethods,
    hmethods, hlength, List.length_nil, hone, htwo, pure_eq, ok_bind]

/-- In front of code the first round lays out fifteen kilobytes of types and the class data. -/
theorem IsPrepared.spans : e.Spans Kind.beforeCode 140 16816 := by
  have hnil (k : Kind) (hk : k.isSingleton = false) (h : sharingItems k = []) :
      (e.sectionOf k).sizes e.places = .ok [] :=
    Section.sizes_of_items_eq_nil (he.wellFormed k) ((he.items k hk).trans h)
  have htypes : (e.sectionOf .typeList).sizes e.places = .ok [15100] := by
    rw [Section.sizes_of_toList_eq (he.wellFormed .typeList) (he.items .typeList rfl),
      Content.size, TypeList.size, longList, List.length_replicate]
    rfl
  have hstring : (e.sectionOf .stringData).sizes e.places = .ok [3] := by
    rw [Section.sizes_of_toList_eq (he.wellFormed .stringData) (he.items .stringData rfl),
      Content.size, StringData.size, Leb128.unsignedSize_of_lt (by decide)]
    rfl
  refine ⟨_, htypes, _, hnil .annotationSetRefList rfl rfl, _, hnil .annotationSet rfl rfl, _,
    hnil .annotationsDirectory rfl rfl, _, hstring, _, hnil .annotationItem rfl rfl, _,
    hnil .encodedArray rfl rfl, _, he.sizes_classData, _, hnil .debugInfo rfl rfl, ?_⟩
  rfl

theorem IsPrepared.follows : e.Follows 140 sharingLoop := by
  obtain ⟨x, hx⟩ := exists_follows he.wellFormed he.closed he.numbers 140
  suffices heq : x = sharingLoop from heq ▸ hx
  have hrest := spans_unique (hx.spans e (.refl he.wellFormed)) he.spans
  rw [codeWidths, he.codes_eq, he.codeWidths_eq] at hrest
  have huses := hx.uses.trans he.uses_eq
  have hsizes := he.sizes_code hx.sizes
  obtain ⟨rest, uses, sizes⟩ := x
  obtain rfl : rest = 15696 := Nat.add_right_cancel hrest
  rw [CodeLoop.mk.injEq]
  exact ⟨rfl, huses, hsizes⟩

/-- Sixteen rounds are too few, and one more is enough. -/
theorem IsPrepared.settle : (∀ r, Container.settle 140 16 e ≠ .ok r) ∧
    ∃ d finish, Container.settle 140 17 e = .ok (d, finish) ∧ finish ≤ 17082 := by
  have hx := he.follows
  obtain ⟨f, hf, hfrom⟩ := hx.exists_round (.refl he.wellFormed)
  rw [codeWidths, he.codes_eq, he.codeWidths_eq] at hf hfrom
  replace hfrom : e.CodeFrom f sharingLoop 16816 := hfrom
  have hmoved : f.codeOffsets ≠ e.codeOffsets := by
    intro heq
    have hmem : (none : Option Nat) ∈ e.codeOffsets := by
      rw [codeOffsets, Section.positionsInOrder_eq, he.code]
      exact List.mem_map.2 ⟨0, by decide, he.unplaced ⟨0⟩⟩
    rw [← heq, hfrom.offsets] at hmem
    simp at hmem
  have hfails : sharingLoop.settles 15 16816 = false := by decide +kernel
  have hends : sharingLoop.settles 16 16816 = true := by decide +kernel
  rw [settle_eq_ite hf, settle_eq_ite hf, if_neg hmoved, if_neg hmoved]
  refine ⟨fun r hr => ?_, ?_⟩
  · have := (hx.settle_iff hfrom).1 ⟨r, hr⟩
    rw [hfails] at this
    cases this
  · obtain ⟨⟨d, finish⟩, hd⟩ := (hx.settle_iff hfrom).2 hends
    obtain ⟨p, -, -, hfinish, -, hp⟩ := hx.exists_of_settle hfrom hd
    have hp := hp (by decide +kernel)
    have hle := Section.finishFrom_le (k := .code) p sharingLoop.sizes
    refine ⟨d, finish, hd, ?_⟩
    rw [hfinish, Section.next_layoutOf]
    exact Nat.le_trans hle (Nat.add_le_add_right hp 266)

end IsPrepared

/-- Sixteen rounds do not settle the code of every container: here one more round would do, and the
file would have no more than eighteen kilobytes. -/
theorem exists_unsettled : ∃ (c d : Container) (fileSize : Nat), c.Reachable ∧ c.Closed ∧
    c.place = .error (.unsettled maxRounds) ∧
    c.placeWithin (maxRounds + 1) = .ok (d, fileSize) ∧ fileSize < 18432 := by
  obtain ⟨c, hc, hitems⟩ := exists_isFresh sharingItems nodup_sharingItems check_of_mem_sharingItems
  have hclosed := closed_of_items hitems closed_sharingItems
  have hwf := hc.reachable.coherent.wellFormed
  obtain ⟨e, start, hprepare, hn⟩ := exists_prepare hwf hclosed
  have he := isPrepared_of_prepare hc hclosed hitems hprepare hn
  obtain rfl := he.start_eq
  obtain ⟨hfails, d, finish, hd, hfinish⟩ := he.settle
  have hplace (n : Nat) : c.placeWithin n = settle 140 n e >>= conclude 140 := by
    rw [placeWithin_eq, hprepare, ok_bind]
  have hrearranged := (stacked_of_settle he.wellFormed hd).1
  have hwf' := hrearranged.wellFormed he.wellFormed
  have hs := ((of_prepare hwf hprepare).1.trans hrearranged).items.singletons
    hc.reachable.coherent.singletons
  obtain ⟨f, fileSize, hf, -⟩ := exists_conclude hwf' 140 finish
  have hfileSize := fileSize_of_conclude hwf' hs hf
  refine ⟨c, f, fileSize, hc.reachable, hclosed, ?_, ?_, by omega⟩
  · refine (exists_or_unsettled hwf hclosed maxRounds).resolve_left fun ⟨g, n, hg⟩ => ?_
    rw [hplace] at hg
    obtain ⟨r, hr, -⟩ := bind_eq_ok.1 hg
    exact hfails r hr
  · rw [hplace]
    exact bind_eq_ok.2 ⟨(d, finish), hd, hf⟩

end Container

end DexContainer
