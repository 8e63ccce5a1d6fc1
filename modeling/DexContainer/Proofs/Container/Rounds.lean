import Mathlib.Data.Nat.Find
import DexContainer.Proofs.CodeLoop
import DexContainer.Proofs.Container.Interning
import DexContainer.Proofs.Container.Settling
import DexContainer.Proofs.Container.Writing
import DexContainer.Proofs.Item.CodeOffsets

/-! The rounds of a layout. All data in front of code is as long in every round, but for the code
offsets in class data, so the rounds follow a `CodeLoop`. Main statements: `settle_iff`, a round
moves no code exactly when the loop settles; and `exists_rounds`, a layout of a container in which
no handle leads nowhere ends within some number of rounds, which exceeds the number of code offsets
by two at most. -/

namespace DexContainer

/-- The data sections in front of code. -/
def Kind.beforeCode : List Kind :=
  [.typeList, .annotationSetRefList, .annotationSet, .annotationsDirectory, .stringData,
    .annotationItem, .encodedArray] ++ [.classData, .debugInfo]

namespace Section

variable {k : Kind} {places places' : Places} {start : Nat} {sizes : List Nat}

theorem toList_positions_layoutOf (hk : k.isIndexed = false) (start : Nat) (sizes : List Nat) :
    (layoutOf k start sizes).positions.toList = startsFrom k start sizes := by
  cases sizes with
  | nil => rfl
  | cons size sizes => simp [layoutOf, hk, startsFrom]

/-- Items that need no alignment leave no gap. -/
theorem next_layoutOf_of_alignment (hk : k.alignment = 1) (start : Nat) (sizes : List Nat) :
    (layoutOf k start sizes).next = start + sizes.sum := by
  rw [next_layoutOf]
  induction sizes generalizing start with
  | nil => rfl
  | cons size sizes ih => rw [finishFrom, ih, hk, alignUp_one, List.sum_cons, Nat.add_assoc]

theorem sizes_congr_of_ne_classData {s t : Section k} (hk : k ≠ .classData)
    (hitems : t.items = s.items) (horder : t.order = s.order) (h : places.NumbersAlike places') :
    t.sizes places' = s.sizes places :=
  sizes_congr_of_size hitems horder (Content.size_congr_of_ne_classData hk h)

/-- The method bodies that the item behind a number names. -/
def codesAt (s : Section .classData) (id : Nat) : List (Handle .code) :=
  ((s.get? ⟨id⟩).map ClassData.codes).getD []

/-- The method bodies that all class data names, in file order. -/
def codes (s : Section .classData) : List (Handle .code) := s.order.toList.flatMap s.codesAt

/-- The length of every class data is a fixed part and the lengths of the code offsets in it. -/
theorem exists_sizes_eq {s : Section .classData} (h : s.sizes places = .ok sizes) :
    ∃ rest : Nat → Nat, ∀ places', places.NumbersAlike places' → s.sizes places' =
      .ok (s.order.toList.map fun id => rest id + ClassData.codeWidths places' (s.codesAt id)) := by
  have hsize (id : Nat) (hid : id ∈ s.order.toList) : ∃ rest, ∀ places',
      places.NumbersAlike places' →
        s.sizeOf places' id = .ok (rest + ClassData.codeWidths places' (s.codesAt id)) := by
    obtain ⟨size, hsize⟩ := exists_of_mapM_eq_ok h hid
    obtain ⟨x, hx, hsize⟩ := bind_eq_ok.1 hsize
    obtain ⟨rest, hrest⟩ := ClassData.exists_size_eq hsize
    refine ⟨rest, fun places' hplaces => ?_⟩
    rw [sizeOf, hx, ok_bind, codesAt, get_eq_ok.1 hx]
    exact hrest places' hplaces
  choose! rest hrest using hsize
  refine ⟨rest, fun places' hplaces => ?_⟩
  obtain ⟨sizes', hsizes'⟩ := exists_mapM_eq_ok fun id hid => ⟨_, hrest id hid places' hplaces⟩
  rw [Section.sizes, hsizes', eq_map_of_mapM hsizes' fun id hid y hy =>
    Except.ok.inj (hy.symm.trans (hrest id hid places' hplaces))]

/-- The length of all class data is a fixed part and the lengths of the code offsets in it. -/
theorem exists_sum_sizes_eq {s : Section .classData} (h : s.sizes places = .ok sizes) :
    ∃ rest, ∀ places', places.NumbersAlike places' → ∃ sizes', s.sizes places' = .ok sizes' ∧
      sizes'.sum = rest + ClassData.codeWidths places' s.codes := by
  obtain ⟨rest, hrest⟩ := exists_sizes_eq h
  refine ⟨(s.order.toList.map rest).sum, fun places' hplaces => ⟨_, hrest places' hplaces, ?_⟩⟩
  rw [List.sum_map_add, codes, ClassData.codeWidths_flatMap]

end Section

namespace Container

variable {c d e : Container} {k : Kind} {ks ks' : List Kind} {start middle finish n rounds : Nat}
  {sizes : List Nat}

/-! ### The data in front of code -/

/-- Sections take the bytes between two offsets when they are laid out one after the other. -/
def Spans (c : Container) : List Kind → Nat → Nat → Prop
  | [], start, finish => start = finish
  | k :: ks, start, finish => ∃ sizes, (c.sectionOf k).sizes c.places = .ok sizes ∧
      c.Spans ks (Section.layoutOf k start sizes).next finish

theorem spans_append (h : c.Spans ks start middle) (h' : c.Spans ks' middle finish) :
    c.Spans (ks ++ ks') start finish := by
  induction ks generalizing start with
  | nil =>
    obtain rfl : start = middle := h
    exact h'
  | cons k ks ih =>
    obtain ⟨sizes, hsizes, h⟩ := h
    exact ⟨sizes, hsizes, ih h⟩

theorem exists_of_spans_append (h : c.Spans (ks ++ ks') start finish) :
    ∃ middle, c.Spans ks start middle ∧ c.Spans ks' middle finish := by
  induction ks generalizing start with
  | nil => exact ⟨start, rfl, h⟩
  | cons k ks ih =>
    obtain ⟨sizes, hsizes, h⟩ := h
    obtain ⟨middle, hks, hks'⟩ := ih h
    exact ⟨middle, ⟨sizes, hsizes, hks⟩, hks'⟩

theorem spans_unique {finish' : Nat} (h : c.Spans ks start finish) (h' : c.Spans ks start finish') :
    finish = finish' := by
  induction ks generalizing start with
  | nil => exact Eq.trans (Eq.symm h) h'
  | cons k ks ih =>
    obtain ⟨sizes, hsizes, h⟩ := h
    obtain ⟨sizes', hsizes', h'⟩ := h'
    obtain rfl := Except.ok.inj (hsizes.symm.trans hsizes')
    exact ih h h'

theorem exists_spans (hwf : c.SectionsWellFormed) (hc : c.Closed) (hn : c.NumbersPlaced)
    (ks : List Kind) (start : Nat) : ∃ finish, c.Spans ks start finish := by
  induction ks generalizing start with
  | nil => exact ⟨start, rfl⟩
  | cons k ks ih =>
    obtain ⟨sizes, hsizes⟩ := exists_sizes (k := k) hwf (.inr ⟨hc, hn⟩)
    obtain ⟨finish, h⟩ := ih (Section.layoutOf k start sizes).next
    exact ⟨finish, sizes, hsizes, h⟩

theorem spans_congr (h : c.Spans ks start finish)
    (hsizes : ∀ k ∈ ks, (d.sectionOf k).sizes d.places = (c.sectionOf k).sizes c.places) :
    d.Spans ks start finish := by
  induction ks generalizing start with
  | nil => exact h
  | cons k ks ih =>
    obtain ⟨sizes, hk, h⟩ := h
    exact ⟨sizes, (hsizes k (List.mem_cons_self ..)).trans hk,
      ih h fun j hj => hsizes j (List.mem_cons_of_mem _ hj)⟩

/-- A section that nothing is measured by does not change the lengths of the other ones. -/
theorem sizes_modifySection {j : Kind} (hk : k.isMeasured = false) (hj : j ≠ k)
    (l : Section.Layout) : ((c.modifySection k (·.applyLayout l)).sectionOf j).sizes
      (c.modifySection k (·.applyLayout l)).places = (c.sectionOf j).sizes c.places := by
  have hmeasures : c.places.MeasuresAlike (c.modifySection k (·.applyLayout l)).places := by
    intro i y hi
    refine position?_congr (sectionOf_modifySection_of_ne c _ ?_)
    rintro rfl
    rw [hk] at hi
    cases hi
  rw [sectionOf_modifySection_of_ne c _ hj]
  exact Section.sizes_congr rfl rfl hmeasures

/-- A layout of sections that nothing is measured by ends where the sections end. -/
theorem exists_placeSections_iff_spans (hn : ks.Nodup) (hks : ∀ k ∈ ks, k.isMeasured = false) :
    (∃ d, placeSections ks c start = .ok (d, finish)) ↔ c.Spans ks start finish := by
  induction ks generalizing c start with
  | nil =>
    rw [placeSections_nil, Spans]
    constructor
    · rintro ⟨d, h⟩
      cases h
      rfl
    · rintro rfl
      exact ⟨c, rfl⟩
  | cons k ks ih =>
    obtain ⟨hk, hn⟩ := List.nodup_cons.1 hn
    have hsizes (l : Section.Layout) (j : Kind) (hj : j ∈ ks) :=
      sizes_modifySection (c := c) (hks k (List.mem_cons_self ..)) (fun heq => hk (heq ▸ hj)) l
    replace ih (c : Container) (start : Nat) :
        (∃ d, placeSections ks c start = .ok (d, finish)) ↔ c.Spans ks start finish :=
      ih hn fun j hj => hks j (List.mem_cons_of_mem _ hj)
    constructor
    · rintro ⟨d, h⟩
      obtain ⟨sizes, hsizesk, h⟩ := placeSections_cons_eq_ok.1 h
      exact ⟨sizes, hsizesk, spans_congr ((ih _ _).1 ⟨d, h⟩) fun j hj => (hsizes _ j hj).symm⟩
    · rintro ⟨sizes, hsizesk, h⟩
      obtain ⟨d, hd⟩ := (ih _ _).2 (spans_congr h (hsizes _))
      exact ⟨d, placeSections_cons_eq_ok.2 ⟨sizes, hsizesk, hd⟩⟩

/-- Nothing but the places of data changes. -/
structure MovesData (c d : Container) : Prop where
  items : c.KeepsItems d
  order : ∀ k, (d.sectionOf k).order = (c.sectionOf k).order
  frame : ∀ k, k ∉ Kind.dataOrder → d.sectionOf k = c.sectionOf k
  wellFormed : d.SectionsWellFormed

theorem MovesData.refl (hwf : c.SectionsWellFormed) : c.MovesData c :=
  ⟨fun _ => rfl, fun _ => rfl, fun _ _ => rfl, hwf⟩

theorem MovesData.trans (h : c.MovesData d) (h' : d.MovesData e) : c.MovesData e :=
  ⟨fun k => (h'.items k).trans (h.items k), fun k => (h'.order k).trans (h.order k),
    fun k hk => (h'.frame k hk).trans (h.frame k hk), h'.wellFormed⟩

theorem movesData_of_placeData (hwf : c.SectionsWellFormed)
    (h : placeData c start = .ok (d, finish)) : c.MovesData d := by
  obtain ⟨hcd, horder, hframe⟩ := rearranges_placeSections h
  exact ⟨hcd.items, horder, hframe, hcd.wellFormed hwf⟩

theorem MovesData.numbersAlike (h : c.MovesData d) : c.places.NumbersAlike d.places := by
  intro k x hk
  refine position?_congr (h.frame k fun hmem => ?_)
  rw [isNumbered_of_mem_dataOrder hmem] at hk
  cases hk

theorem MovesData.sizes_eq (h : c.MovesData d) (hk : k ≠ .classData) :
    (d.sectionOf k).sizes d.places = (c.sectionOf k).sizes c.places :=
  Section.sizes_congr_of_ne_classData hk (h.items k) (h.order k) h.numbersAlike

/-- The method bodies that all class data names, in file order. -/
def codes (c : Container) : List (Handle .code) := (c.sectionOf .classData).codes

/-- The lengths of all code offsets in class data. -/
def codeWidths (c d : Container) : Nat := ClassData.codeWidths d.places c.codes

/-- Data in front of code is as long wherever the data stands, but for the code offsets in it. -/
theorem exists_rest_of_spans (h : c.Spans Kind.beforeCode start finish) :
    ∃ rest, ∀ d, c.MovesData d → d.Spans Kind.beforeCode start (rest + c.codeWidths d) := by
  obtain ⟨first, hfirst, classData, hclassData, debugInfo, hdebugInfo, -⟩ :=
    exists_of_spans_append h
  obtain ⟨rest, hrest⟩ := Section.exists_sum_sizes_eq hclassData
  refine ⟨first + rest + debugInfo.sum, fun d hd => ?_⟩
  refine spans_append (spans_congr hfirst fun k hk => hd.sizes_eq ?_) ?_
  · revert hk
    cases k <;> decide
  · obtain ⟨sizes, hsizes, hsum⟩ := hrest d.places hd.numbersAlike
    have hmoved : (d.sectionOf .classData).sizes d.places = .ok sizes := by
      rw [← hsizes]
      exact Section.sizes_congr_of_size (hd.items _) (hd.order _) fun _ => rfl
    refine ⟨sizes, hmoved, debugInfo, (hd.sizes_eq (by decide)).trans hdebugInfo, ?_⟩
    rw [Spans, Section.next_layoutOf_of_alignment rfl, Section.next_layoutOf_of_alignment rfl, hsum,
      codeWidths, codes]
    omega

/-! ### One round -/

theorem placeData_eq_ok : placeData c start = .ok (d, finish) ↔ ∃ e n,
    placeSections Kind.beforeCode c start = .ok (e, n) ∧
      placeSections [.code] e n = .ok (d, finish) := by
  rw [placeData, show Kind.dataOrder = Kind.beforeCode ++ [.code] from rfl, placeSections,
    List.foldlM_append, ← placeSections, bind_eq_ok, Prod.exists]
  rfl

/-- Data in front of code leaves the lengths of code as they are. -/
theorem sizes_code_of_placeSections (h : placeSections Kind.beforeCode c start = .ok (d, finish)) :
    c.places.MeasuresAlike d.places ∧
      (d.sectionOf .code).sizes d.places = (c.sectionOf .code).sizes c.places := by
  obtain ⟨-, -, hframe⟩ := rearranges_placeSections h
  have hmeasures : c.places.MeasuresAlike d.places := by
    intro k y hk
    refine position?_congr (hframe k ?_)
    revert hk
    cases k <;> decide
  rw [hframe .code (by decide)]
  exact ⟨hmeasures, Section.sizes_congr rfl rfl hmeasures⟩

/-- Code is laid out behind the data in front of it. -/
theorem placeData_of_spans (hwf : c.SectionsWellFormed) (h : c.Spans Kind.beforeCode start n)
    (hsizes : (c.sectionOf .code).sizes c.places = .ok sizes) :
    ∃ d, placeData c start = .ok (d, (Section.layoutOf .code n sizes).next) ∧
      d.codeOffsets = (Section.startsFrom .code n sizes).map some := by
  obtain ⟨e, he⟩ := (exists_placeSections_iff_spans (by decide) (by decide)).2 h
  have hcode := (sizes_code_of_placeSections he).2.trans hsizes
  refine ⟨_, placeData_eq_ok.2 ⟨e, n, he, placeSections_cons_eq_ok.2 ⟨sizes, hcode, rfl⟩⟩, ?_⟩
  have hstands := Section.stands_applyLayout (l := Section.layoutOf .code n sizes)
    ((rearranges_placeSections he).1.wellFormed hwf .code) (by
      rw [Section.size_layoutOf, length_of_mapM hcode, Array.length_toList])
  rw [codeOffsets, sectionOf_modifySection_self, hstands.positions,
    Section.toList_positions_layoutOf rfl]

/-! ### The loop -/

/-- The place of code in file order. -/
def rankOf (c : Container) (h : Handle .code) : Nat := (c.sectionOf .code).order.toList.idxOf h.id

/-- The rounds of a layout from an offset on follow the loop. -/
structure Follows (c : Container) (start : Nat) (x : CodeLoop) : Prop where
  wellFormed : c.SectionsWellFormed
  resolves : ∀ h ∈ c.codes, c.Resolves .code h
  spans : ∀ d, c.MovesData d → d.Spans Kind.beforeCode start (x.rest + c.codeWidths d)
  sizes : (c.sectionOf .code).sizes c.places = .ok x.sizes
  uses : x.uses = c.codes.map c.rankOf

/-- Only places of data have changed, and code was laid out from an offset on. -/
structure CodeFrom (c d : Container) (x : CodeLoop) (n : Nat) : Prop extends c.MovesData d where
  offsets : d.codeOffsets = (x.starts n).map some

variable {x : CodeLoop}

theorem resolves_of_mem_codes (hwf : c.SectionsWellFormed) (hc : c.Closed) {h : Handle .code}
    (hh : h ∈ c.codes) : c.Resolves .code h := by
  obtain ⟨id, hid, hh⟩ := List.mem_flatMap.1 hh
  obtain ⟨y, hy⟩ := resolves_iff.2 ((hwf .classData).mem_order.1 hid)
  rw [Section.codesAt, hy] at hh
  obtain ⟨-, -, hdirect, hvirtual⟩ := ClassData.each_handles.1 (hc .classData _ y hy)
  rcases List.mem_append.1 hh with hh | hh
  · obtain ⟨m, hm, hcode⟩ := List.mem_filterMap.1 hh
    exact (hdirect m hm).2 h hcode
  · obtain ⟨m, hm, hcode⟩ := List.mem_filterMap.1 hh
    exact (hvirtual m hm).2 h hcode

theorem exists_follows (hwf : c.SectionsWellFormed) (hc : c.Closed) (hn : c.NumbersPlaced)
    (start : Nat) : ∃ x, c.Follows start x := by
  obtain ⟨finish, hspans⟩ := exists_spans hwf hc hn Kind.beforeCode start
  obtain ⟨rest, hrest⟩ := exists_rest_of_spans hspans
  obtain ⟨sizes, hsizes⟩ := exists_sizes (k := .code) hwf (.inr ⟨hc, hn⟩)
  exact ⟨⟨rest, c.codes.map c.rankOf, sizes⟩, hwf, fun _ => resolves_of_mem_codes hwf hc, hrest,
    hsizes, rfl⟩

theorem Follows.length_uses (hx : c.Follows start x) : x.uses.length = c.codes.length := by
  rw [hx.uses, List.length_map]

/-- Where code stands that was laid out from an offset on. -/
theorem CodeFrom.position? (hwf : c.SectionsWellFormed) (hd : c.CodeFrom d x n) {h : Handle .code}
    (hh : c.Resolves .code h) : d.position? h = (x.starts n)[c.rankOf h]? := by
  have hmem := (hwf .code).mem_order.2 (resolves_iff.1 hh)
  have hlt : c.rankOf h < (c.sectionOf .code).order.toList.length := List.idxOf_lt_length_iff.2 hmem
  have hoffsets := congrArg (·[c.rankOf h]?) hd.offsets
  simp only [codeOffsets, Section.positionsInOrder_eq, hd.order, List.getElem?_map,
    List.getElem?_eq_getElem hlt, Option.map_some] at hoffsets
  have hid : (c.sectionOf .code).order.toList[c.rankOf h] = h.id := List.getElem_idxOf hlt
  rw [hid] at hoffsets
  cases hstart : (x.starts n)[c.rankOf h]? with
  | none =>
    rw [hstart] at hoffsets
    cases hoffsets
  | some start =>
    rw [hstart] at hoffsets
    exact Option.some.inj hoffsets

/-- The offset of code that was laid out is as long as the loop says. -/
theorem CodeFrom.codeWidth_eq (hwf : c.SectionsWellFormed) (hd : c.CodeFrom d x n)
    (hsizes : (c.sectionOf .code).sizes c.places = .ok x.sizes) {h : Handle .code}
    (hh : c.Resolves .code h) : ClassData.codeWidth d.places h = x.width n (c.rankOf h) := by
  have hposition : d.places.position? .code h = (x.starts n)[c.rankOf h]? := hd.position? hwf hh
  obtain ⟨start, hstart⟩ : ∃ start, (x.starts n)[c.rankOf h]? = some start := by
    have hlt : c.rankOf h < (x.starts n).length := by
      rw [CodeLoop.starts, Section.length_startsFrom, length_of_mapM hsizes]
      exact List.idxOf_lt_length_iff.2 ((hwf .code).mem_order.2 (resolves_iff.1 hh))
    exact ⟨_, List.getElem?_eq_getElem hlt⟩
  rw [ClassData.codeWidth, ClassData.codeSize, hposition, CodeLoop.width, hstart]
  rfl

/-- The next round lays code out from where the loop says. -/
theorem Follows.next_eq (hx : c.Follows start x) (hd : c.CodeFrom d x n) :
    x.rest + c.codeWidths d = x.next n := by
  rw [CodeLoop.next, hx.uses, List.map_map, codeWidths, ClassData.codeWidths]
  congr 2
  exact List.map_congr_left fun h hh =>
    hd.codeWidth_eq hx.wellFormed hx.sizes (hx.resolves h hh)

/-- A round lays code out behind the data in front of it. -/
theorem MovesData.exists_round (hd : c.MovesData d)
    (hsizes : (c.sectionOf .code).sizes c.places = .ok x.sizes)
    (hspans : d.Spans Kind.beforeCode start n) :
    ∃ e, placeData d start = .ok (e, (Section.layoutOf .code n x.sizes).next) ∧
      c.CodeFrom e x n := by
  obtain ⟨e, he, hoffsets⟩ := placeData_of_spans hd.wellFormed hspans
    ((hd.sizes_eq (k := .code) (by decide)).trans hsizes)
  exact ⟨e, he, hd.trans (movesData_of_placeData hd.wellFormed he), hoffsets⟩

theorem Follows.exists_round (hx : c.Follows start x) (hd : c.MovesData d) :
    ∃ e, placeData d start =
        .ok (e, (Section.layoutOf .code (x.rest + c.codeWidths d) x.sizes).next) ∧
      c.CodeFrom e x (x.rest + c.codeWidths d) :=
  hd.exists_round hx.sizes (hx.spans d hd)

theorem codeOffsets_eq_iff {m : Nat} (hd : c.CodeFrom d x m) (he : c.CodeFrom e x n) :
    e.codeOffsets = d.codeOffsets ↔ x.starts n = x.starts m := by
  rw [hd.offsets, he.offsets, (List.map_injective_iff.2 (Option.some_injective _)).eq_iff]

theorem settle_eq_ite (h : placeData c start = .ok (d, finish)) (rounds : Nat) :
    settle start (rounds + 1) c =
      if d.codeOffsets = c.codeOffsets then .ok (d, finish) else settle start rounds d := by
  rw [settle, h]
  rfl

/-- Code that was laid out stops moving exactly when the loop settles. -/
theorem Follows.settle_iff (hx : c.Follows start x) (hd : c.CodeFrom d x n) :
    (∃ r, settle start rounds d = .ok r) ↔ x.settles rounds n = true := by
  induction rounds generalizing d n with
  | zero => simp [settle, CodeLoop.settles]
  | succ rounds ih =>
    obtain ⟨e, he, hfrom⟩ := hx.exists_round hd.toMovesData
    rw [hx.next_eq hd] at hfrom
    rw [settle_eq_ite he, CodeLoop.settles, Bool.or_eq_true, beq_iff_eq,
      ← codeOffsets_eq_iff hd hfrom]
    split
    · rename_i hsame
      simp [hsame]
    · rename_i hmoved
      simp only [hmoved, false_or]
      exact ih hfrom

/-- In the end code stands where another round lays it out, and it stands on that side of where it
stood to which the first round moved it. -/
theorem Follows.exists_of_settle (hx : c.Follows start x) (hd : c.CodeFrom d x n)
    (h : settle start rounds d = .ok (e, finish)) :
    ∃ p, c.CodeFrom e x p ∧ x.next p = p ∧ finish = (Section.layoutOf .code p x.sizes).next ∧
      (n ≤ x.next n → n ≤ p) ∧ (x.next n ≤ n → p ≤ n) := by
  induction rounds generalizing d n with
  | zero => exact absurd h (by simp [settle])
  | succ rounds ih =>
    obtain ⟨f, hf, hfrom⟩ := hx.exists_round hd.toMovesData
    rw [hx.next_eq hd] at hf hfrom
    rw [settle_eq_ite hf] at h
    split at h
    · rename_i hsame
      cases h
      have hstarts := (codeOffsets_eq_iff hd hfrom).1 hsame
      exact ⟨x.next n, hfrom, CodeLoop.next_congr hstarts, rfl, id, id⟩
    · obtain ⟨p, hp, hfixed, hfinish, hrise, hfall⟩ := ih hfrom h
      exact ⟨p, hp, hfixed, hfinish,
        fun hn => Nat.le_trans hn (hrise (CodeLoop.next_mono hn)),
        fun hn => Nat.le_trans (hfall (CodeLoop.next_mono hn)) hn⟩

/-! ### All rounds -/

theorem settle_mono {rounds' : Nat} {r : Container × Nat} (hle : rounds ≤ rounds')
    (h : settle start rounds c = .ok r) : settle start rounds' c = .ok r := by
  induction rounds generalizing c rounds' with
  | zero => exact absurd h (by simp [settle])
  | succ rounds ih =>
    obtain ⟨rounds', rfl⟩ := Nat.exists_eq_add_one.2 (Nat.lt_of_lt_of_le rounds.succ_pos hle)
    obtain ⟨⟨d, finish⟩, hd, -⟩ := bind_eq_ok.1 h
    rw [settle_eq_ite hd] at h ⊢
    split
    · rename_i hsame
      rwa [if_pos hsame] at h
    · rename_i hmoved
      rw [if_neg hmoved] at h
      exact ih (Nat.le_of_succ_le_succ hle) h

/-- A layout ends. -/
theorem Follows.exists_settle (hx : c.Follows start x) :
    ∃ rounds r, settle start rounds c = .ok r := by
  obtain ⟨d, hd, hfrom⟩ := hx.exists_round (.refl hx.wellFormed)
  obtain ⟨rounds, hrounds⟩ := x.exists_settles (x.rest + c.codeWidths c)
  obtain ⟨r, hr⟩ := (hx.settle_iff hfrom).2 hrounds
  refine ⟨rounds + 1, ?_⟩
  rw [settle_eq_ite hd]
  split
  · exact ⟨_, rfl⟩
  · exact ⟨r, hr⟩

/-- The offsets of code are 32-bit words. -/
def CodeIsLow (c : Container) : Prop :=
  ∀ (h : Handle .code) (n : Nat), c.position? h = some n → n < 2 ^ 32

theorem CodeIsLow.codeWidth_le (hc : c.CodeIsLow) (h : Handle .code) :
    ClassData.codeWidth c.places h ≤ 5 := by
  rw [ClassData.codeWidth, ClassData.codeSize]
  split
  · exact Nat.le_refl 5
  · rename_i n hn
    exact Leb128.unsignedSize_le (hc h n hn)

theorem le_codeWidths (c d : Container) : c.codes.length ≤ c.codeWidths d := by
  have := List.length_le_sum_of_one_le (c.codes.map (ClassData.codeWidth d.places)) fun w hw => by
    obtain ⟨h, -, rfl⟩ := List.mem_map.1 hw
    rw [ClassData.codeWidth, ClassData.codeSize]
    split
    · decide
    · exact Leb128.unsignedSize_pos _
  rwa [List.length_map] at this

theorem CodeIsLow.codeWidths_le (hd : d.CodeIsLow) (c : Container) :
    c.codeWidths d ≤ c.codes.length * 5 := by
  have := List.sum_le_card_nsmul (c.codes.map (ClassData.codeWidth d.places)) 5 fun w hw => by
    obtain ⟨h, -, rfl⟩ := List.mem_map.1 hw
    exact hd.codeWidth_le h
  rwa [List.length_map] at this

/-- A layout that starts and ends with short code offsets takes few rounds. -/
theorem Follows.settle_of_codeIsLow (hx : c.Follows start x) (hc : c.CodeIsLow) (hd : d.CodeIsLow)
    (h : settle start rounds c = .ok (d, finish)) :
    settle start (c.codes.length + 2) c = .ok (d, finish) := by
  obtain ⟨e, he, hfrom⟩ := hx.exists_round (.refl hx.wellFormed)
  have hlow := le_codeWidths c c
  have hhigh := hc.codeWidths_le c
  have hlength := hx.length_uses
  generalize hn : x.rest + c.codeWidths c = n at he hfrom
  suffices hsettles : ∃ r, settle start (c.codes.length + 2) c = .ok r by
    obtain ⟨r, hr⟩ := hsettles
    rcases Nat.le_total rounds (c.codes.length + 2) with hle | hle
    · exact settle_mono hle h
    · rw [← h, settle_mono hle hr, hr]
  obtain ⟨rounds, rfl⟩ : ∃ n, rounds = n + 1 := by
    cases rounds with
    | zero => exact absurd h (by simp [settle])
    | succ n => exact ⟨n, rfl⟩
  rw [settle_eq_ite he] at h ⊢
  split
  · exact ⟨_, rfl⟩
  · rename_i hmoved
    rw [if_neg hmoved] at h
    obtain ⟨p, hp, hfixed, -, hle, -⟩ := hx.exists_of_settle hfrom h
    rw [hx.settle_iff hfrom, ← hlength]
    rcases Nat.le_total n (x.next n) with hrise | hfall
    · refine CodeLoop.settles_of_rising hrise (by omega) (hle hrise) hfixed fun i hi => ?_
      rw [hx.uses] at hi
      obtain ⟨y, hy, rfl⟩ := List.mem_map.1 hi
      have hposition := hp.position? hx.wellFormed (hx.resolves y hy)
      rw [CodeLoop.width]
      refine Leb128.unsignedSize_le ?_
      cases hstart : (x.starts p)[c.rankOf y]? with
      | none => decide
      | some offset => exact hd y offset (hposition.trans hstart)
    · refine CodeLoop.settles_of_falling hfall ?_
      rw [CodeLoop.base_eq, CodeLoop.base_eq]
      omega

/-- Without code a layout ends in its first round. -/
theorem exists_place_of_codeless (hwf : c.SectionsWellFormed) (hclosed : c.Closed)
    (hcode : (c.sectionOf .code).items.size = 0) : ∃ d fileSize, c.place = .ok (d, fileSize) := by
  have hnil {b : Container} (hb : b.SectionsWellFormed) (hcb : c.KeepsItems b) :
      b.codeOffsets = [] := by
    have horder := (hb .code).order
    rw [hcb, hcode] at horder
    rw [codeOffsets, Section.positionsInOrder_eq, List.perm_nil.1 horder, List.map_nil]
  obtain ⟨e, start, hprepare, hn⟩ := exists_prepare hwf hclosed
  obtain ⟨hce, -⟩ := of_prepare hwf hprepare
  have hwf' := hce.wellFormed hwf
  obtain ⟨d, finish, hd⟩ : ∃ d finish, placeSections Kind.dataOrder e start = .ok (d, finish) :=
    exists_placeSections hwf' (fun k => isNumbered_of_mem_dataOrder) (hce.items.closed hclosed) hn
      start
  have hed := (rearranges_placeSections hd).1
  have hsettle : settle start maxRounds e = .ok (d, finish) := by
    rw [maxRounds, settle_eq_ite hd, hnil hwf' hce.items,
      hnil (hed.wellFormed hwf') (hce.trans hed).items]
    rfl
  obtain ⟨f, fileSize, hf, -⟩ := exists_conclude (hed.wellFormed hwf') start finish
  exact ⟨f, fileSize, by rw [place, placeWithin_eq, hprepare, ok_bind, hsettle, ok_bind, hf]⟩

/-- A layout of a container in which no handle leads nowhere ends within some number of rounds: it
ends alike when it may take more, and it does not end when it may take fewer. When the offsets of
code before and after are words, the rounds are no more than two and one for every code offset. -/
theorem exists_rounds (hc : c.Reachable) (hclosed : c.Closed) : ∃ rounds d fileSize,
    (∀ n, rounds ≤ n → c.placeWithin n = .ok (d, fileSize)) ∧
    (∀ n, n < rounds → c.placeWithin n = .error (.unsettled maxRounds)) ∧
    (c.CodeIsLow → d.CodeIsLow → rounds ≤ c.codes.length + 2) := by
  have hwf := hc.coherent.wellFormed
  obtain ⟨e, start, hprepare, hn⟩ := exists_prepare hwf hclosed
  obtain ⟨hce, -, -, hframe⟩ := of_prepare hwf hprepare
  have hwf' := hce.wellFormed hwf
  obtain ⟨x, hx⟩ := exists_follows hwf' (hce.items.closed hclosed) hn start
  have hplace (n : Nat) : c.placeWithin n = settle start n e >>= conclude start := by
    rw [placeWithin_eq, hprepare, ok_bind]
  classical
  have hends := hx.exists_settle
  obtain ⟨⟨d, finish⟩, hd⟩ := Nat.find_spec hends
  obtain ⟨f, fileSize, hf, hsame⟩ :=
    exists_conclude ((stacked_of_settle hwf' hd).1.wellFormed hwf') start finish
  refine ⟨Nat.find hends, f, fileSize, fun n hle => ?_, fun n hlt => ?_, fun hlow hlow' => ?_⟩
  · rw [hplace, settle_mono hle hd, ok_bind, hf]
  · rcases exists_or_unsettled hwf hclosed n with ⟨g, m, hg⟩ | hunsettled
    · rw [hplace] at hg
      obtain ⟨r, hr, -⟩ := bind_eq_ok.1 hg
      exact absurd ⟨r, hr⟩ (Nat.find_min hends hlt)
    · exact hunsettled
  · have hcodes : e.codes = c.codes := congrArg Section.codes (hframe .classData (by decide) rfl)
    have helow : e.CodeIsLow := fun h n hn => hlow h n (by
      rwa [← position?_congr (hframe .code (by decide) rfl)])
    have hdlow : d.CodeIsLow := fun h n hn => hlow' h n (by
      rwa [position?_congr (hsame .code rfl)])
    rw [← hcodes]
    exact Nat.find_min' hends ⟨_, hx.settle_of_codeIsLow helow hdlow hd⟩

/-- A container with one method is laid out in time. -/
theorem exists_rounds_oneMethod : ∃ (c d : Container) (rounds : Nat), c.Reachable ∧ c.Closed ∧
    rounds ≤ maxRounds ∧ ∀ n, rounds ≤ n → c.placeWithin n = .ok (d, 284) := by
  obtain ⟨c, d, hc, hplace, -⟩ := exists_place_oneMethod
  have hreachable := reachable_of_oneMethod hc
  have hclosed := closed_of_oneMethod hc
  obtain ⟨rounds, e, fileSize, hends, hfails, -⟩ := exists_rounds hreachable hclosed
  have hle : rounds ≤ maxRounds := by
    by_contra hlt
    have hfail : c.place = .error (.unsettled maxRounds) := hfails maxRounds (Nat.lt_of_not_le hlt)
    rw [hplace] at hfail
    cases hfail
  have hsame : c.place = .ok (e, fileSize) := hends maxRounds hle
  rw [hplace] at hsame
  cases hsame
  exact ⟨c, d, rounds, hreachable, hclosed, hle, hends⟩

end Container

end DexContainer
