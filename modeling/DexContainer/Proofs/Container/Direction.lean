import Mathlib.Order.Iterate
import DexContainer.Proofs.Container.Rounds

/-! The direction of the rounds. The first round may start from any positions; from then on all code
moves together, by one distance a round, and always to the same side, so the rounds would end
without a bound on their number. Main statement: `moves_one_way`, for every container whose rounds
start at all. -/

namespace DexContainer

namespace CodeLoop

variable {x : CodeLoop} {m n : Nat}

/-- Some round moves no code. -/
theorem exists_starts_eq (x : CodeLoop) (n : Nat) :
    ∃ i, x.starts (x.next^[i + 1] n) = x.starts (x.next^[i] n) := by
  obtain ⟨rounds, h⟩ := x.exists_settles n
  induction rounds generalizing n with
  | zero => cases h
  | succ rounds ih =>
    rw [settles, Bool.or_eq_true, beq_iff_eq] at h
    rcases h with h | h
    · exact ⟨0, h⟩
    · obtain ⟨i, hi⟩ := ih (x.next n) h
      exact ⟨i + 1, hi⟩

/-- The distance by which code moves that is laid out from another offset on. -/
def shift (m n : Nat) : Int := base n - base m

theorem shift_nonneg (h : m ≤ n) : 0 ≤ shift m n := by
  have := Section.alignUp_mono .code h
  rw [shift, base, base]
  omega

theorem shift_nonpos (h : n ≤ m) : shift m n ≤ 0 := by
  have := Section.alignUp_mono .code h
  rw [shift, base, base]
  omega

theorem getElem?_starts_shift {i start : Nat} (h : (x.starts m)[i]? = some start) :
    ∃ start', (x.starts n)[i]? = some start' ∧ (start' : Int) = start + shift m n := by
  rw [starts_eq_map, List.getElem?_map, Option.map_eq_some_iff] at h
  obtain ⟨first, hfirst, rfl⟩ := h
  refine ⟨first + base n, by rw [starts_eq_map, List.getElem?_map, hfirst]; rfl, ?_⟩
  rw [shift]
  omega

theorem starts_eq_of_shift_eq_zero (h : shift m n = 0) : x.starts n = x.starts m :=
  starts_congr (by rw [shift] at h; omega)

end CodeLoop

namespace Container

variable {c d e : Container} {start finish rest last : Nat} {δ : Int} {x : CodeLoop}
  {r : Nat → Container}

/-- The states between the rounds of a layout when their number has no bound. -/
structure AreRounds (c : Container) (start : Nat) (r : Nat → Container) : Prop where
  zero : r 0 = c
  succ : ∀ n, ∃ finish, placeData (r n) start = .ok (r (n + 1), finish)

/-- All code has moved by one distance. -/
def ShiftsCode (c d : Container) (δ : Int) : Prop :=
  ∀ h : Handle .code, c.Resolves .code h →
    ∃ m n : Nat, c.position? h = some m ∧ d.position? h = some n ∧ (n : Int) = m + δ

/-- The lengths of class data as the next round measures them. -/
def classDataSizes (c : Container) : Except Violation (List Nat) :=
  (c.sectionOf .classData).sizes c.places

/-! ### What pushes code -/

/-- A round lays code out behind `rest` bytes and the code offsets in class data, and when code was
laid out already, that is where the loop says. Some of the code offsets may lead nowhere: these are
among the bytes that the loop does not push. -/
structure Pushes (c : Container) (start rest : Nat) (x : CodeLoop) : Prop where
  wellFormed : c.SectionsWellFormed
  sizes : (c.sectionOf .code).sizes c.places = .ok x.sizes
  spans : ∀ d, c.MovesData d → d.Spans Kind.beforeCode start (rest + c.codeWidths d)
  next : ∀ d n, c.CodeFrom d x n → rest + c.codeWidths d = x.next n

theorem position?_of_not_resolves {k : Kind} {h : Handle k} (hwf : c.SectionsWellFormed)
    (hh : ¬c.Resolves k h) : c.position? h = none :=
  (hwf k).position?_eq_none (Nat.le_of_not_lt fun hlt => hh (resolves_iff.2 hlt))

theorem MovesData.resolves_iff (h : c.MovesData d) {k : Kind} {y : Handle k} :
    d.Resolves k y ↔ c.Resolves k y := by
  rw [Resolves, Resolves, h.items.get?]

theorem codeWidth_of_position? {h : Handle .code} (hh : c.position? h = none) :
    ClassData.codeWidth c.places h = 5 := by
  have hplaces : c.places.position? .code h = none := hh
  rw [ClassData.codeWidth, ClassData.codeSize, hplaces]
  rfl

theorem exists_pushes (hwf : c.SectionsWellFormed) (h : placeData c start = .ok (d, finish)) :
    ∃ rest x, c.Pushes start rest x := by
  obtain ⟨e, n, he, hd⟩ := placeData_eq_ok.1 h
  obtain ⟨sizes, hsizes, -⟩ := placeSections_cons_eq_ok.1 hd
  rw [(sizes_code_of_placeSections he).2] at hsizes
  obtain ⟨rest, hrest⟩ := exists_rest_of_spans
    ((exists_placeSections_iff_spans (by decide) (by decide)).1 ⟨e, he⟩)
  classical
  let lost (h : Handle .code) : Nat := if c.Resolves .code h then 0 else 4
  refine ⟨rest, ⟨rest + (c.codes.map lost).sum, c.codes.map c.rankOf, sizes⟩, hwf, hsizes, hrest,
    fun d n hd => ?_⟩
  rw [CodeLoop.next, List.map_map, Nat.add_assoc, ← List.sum_map_add, codeWidths,
    ClassData.codeWidths]
  congr 2
  refine List.map_congr_left fun h _ => ?_
  by_cases hh : c.Resolves .code h
  · simp only [lost, hh, if_true, Function.comp, Nat.zero_add]
    exact hd.codeWidth_eq hwf hsizes hh
  · have hrank : sizes.length ≤ c.rankOf h := by
      rw [length_of_mapM hsizes]
      refine Nat.le_of_not_lt fun hlt => hh (resolves_iff.2 ((hwf .code).mem_order.1 ?_))
      exact List.idxOf_lt_length_iff.1 hlt
    have hnone := position?_of_not_resolves hd.wellFormed fun hd' => hh (hd.resolves_iff.1 hd')
    simp only [lost, hh, if_false, Function.comp, codeWidth_of_position? hnone, CodeLoop.width,
      CodeLoop.starts]
    rw [List.getElem?_eq_none (by rwa [Section.length_startsFrom])]
    simp [Leb128.unsignedSize]

/-- Where the next round lays code out. -/
theorem Pushes.exists_round (hx : c.Pushes start rest x) (hd : c.MovesData d) :
    ∃ e finish, placeData d start = .ok (e, finish) ∧
      c.CodeFrom e x (rest + c.codeWidths d) := by
  obtain ⟨e, he, hfrom⟩ := hd.exists_round hx.sizes (hx.spans d hd)
  exact ⟨e, _, he, hfrom⟩

theorem Pushes.exists_areRounds (hx : c.Pushes start rest x) : ∃ r, c.AreRounds start r := by
  choose f finish hf hfrom using fun (d : Container) (hd : c.MovesData d) => hx.exists_round hd
  let step (d : { d // c.MovesData d }) : { d // c.MovesData d } :=
    ⟨f d.1 d.2, (hfrom d.1 d.2).toMovesData⟩
  let states (n : Nat) := step^[n] ⟨c, .refl hx.wellFormed⟩
  refine ⟨fun n => (states n).1, rfl, fun n => ⟨finish (states n).1 (states n).2, ?_⟩⟩
  simp only [states, Function.iterate_succ_apply']
  exact hf _ _

/-! ### What a round keeps -/

/-- The offsets of code in file order determine those of all code. -/
theorem position?_of_codeOffsets (hd : c.MovesData d) (he : c.MovesData e)
    (h : e.codeOffsets = d.codeOffsets) (y : Handle .code) : e.position? y = d.position? y :=
  Section.position?_congr (he.wellFormed .code) (hd.wellFormed .code)
    (by rw [he.items, hd.items]) (by rw [he.order, hd.order]) h y

theorem codeWidths_congr (h : ∀ y ∈ c.codes, e.position? y = d.position? y) :
    c.codeWidths e = c.codeWidths d := by
  rw [codeWidths, codeWidths, ClassData.codeWidths, ClassData.codeWidths]
  refine congrArg List.sum (List.map_congr_left fun y hy => ?_)
  have hplaces : e.places.position? .code y = d.places.position? .code y := h y hy
  rw [ClassData.codeWidth, ClassData.codeWidth, ClassData.codeSize, ClassData.codeSize, hplaces]

/-- Code that does not move away from the start keeps the length of its offset at least. -/
theorem ShiftsCode.codeWidth_le (h : d.ShiftsCode e δ) (hδ : δ ≤ 0) (hd : c.MovesData d)
    (he : c.MovesData e) (y : Handle .code) :
    ClassData.codeWidth e.places y ≤ ClassData.codeWidth d.places y := by
  by_cases hy : c.Resolves .code y
  · obtain ⟨m, n, hm, hn, hshift⟩ := h y (hd.resolves_iff.2 hy)
    replace hm : d.places.position? .code y = some m := hm
    replace hn : e.places.position? .code y = some n := hn
    simp only [ClassData.codeWidth, ClassData.codeSize, hm, hn]
    exact Leb128.unsignedSize_mono (by omega)
  · rw [codeWidth_of_position? (position?_of_not_resolves hd.wellFormed (mt hd.resolves_iff.1 hy)),
      codeWidth_of_position? (position?_of_not_resolves he.wellFormed (mt he.resolves_iff.1 hy))]

/-- The lengths of class data follow those of the code offsets. -/
theorem exists_classDataSizes_eq {sizes : List Nat} (h : c.classDataSizes = .ok sizes) :
    ∃ f : Container → List Nat, (∀ d, c.MovesData d → d.classDataSizes = .ok (f d)) ∧
      ∀ d e, (∀ y, ClassData.codeWidth e.places y ≤ ClassData.codeWidth d.places y) →
        List.Forall₂ (· ≤ ·) (f e) (f d) := by
  obtain ⟨rest, hrest⟩ := Section.exists_sizes_eq h
  let s := c.sectionOf .classData
  refine ⟨fun d => s.order.toList.map fun id => rest id + ClassData.codeWidths d.places
    (s.codesAt id), fun d hd => ?_, fun d e hle => ?_⟩
  · rw [← hrest d.places hd.numbersAlike]
    exact Section.sizes_congr_of_size (hd.items _) (hd.order _) fun _ => rfl
  · rw [List.forall₂_map_left_iff, List.forall₂_map_right_iff, List.forall₂_same]
    exact fun id _ => Nat.add_le_add_left (List.sum_le_sum fun y _ => hle y) _

/-- Class data stands with the lengths that it had before the round. -/
theorem exists_stands_of_placeData (hwf : c.SectionsWellFormed)
    (h : placeData c start = .ok (d, finish)) : ∃ first sizes, c.classDataSizes = .ok sizes ∧
      (d.sectionOf .classData).Stands (Section.layoutOf .classData first sizes) := by
  obtain ⟨e, n, he, hd⟩ := placeData_eq_ok.1 h
  have hmeasures := (sizes_code_of_placeSections he).1
  have hstacked := stacked_of_placeSections (by decide) hwf he (.inr hmeasures)
  obtain ⟨hce, horder, -⟩ := rearranges_placeSections he
  obtain ⟨first, sizes, -, hsizes, hstands, -⟩ := hstacked.stands (k := .classData) (by decide)
  rw [(rearranges_placeSections hd).2.2 .classData (by decide)]
  refine ⟨first, sizes, ?_, hstands⟩
  rw [← hsizes]
  exact (Section.sizes_congr (hce.items _) (horder _) hmeasures).symm

/-! ### All rounds -/

/-- The distance by which code moves from one round to the next one. -/
def distance (c : Container) (rest : Nat) (r : Nat → Container) (n : Nat) : Int :=
  CodeLoop.shift (rest + c.codeWidths (r n)) (rest + c.codeWidths (r (n + 1)))

section Rounds

variable (hx : c.Pushes start rest x) (hr : c.AreRounds start r)
include hx hr

theorem AreRounds.movesData (n : Nat) : c.MovesData (r n) := by
  induction n with
  | zero => exact hr.zero.symm ▸ .refl hx.wellFormed
  | succ n ih =>
    obtain ⟨finish, h⟩ := hr.succ n
    exact ih.trans (movesData_of_placeData ih.wellFormed h)

/-- Every round has laid code out behind the code offsets of the round before. -/
theorem AreRounds.codeFrom (n : Nat) :
    c.CodeFrom (r (n + 1)) x (rest + c.codeWidths (r n)) := by
  obtain ⟨finish, h⟩ := hr.succ n
  obtain ⟨d, finish', hd, hfrom⟩ := hx.exists_round (hr.movesData hx n)
  rw [h] at hd
  cases hd
  exact hfrom

theorem AreRounds.eq_iterate (n : Nat) :
    rest + c.codeWidths (r n) = x.next^[n] (rest + c.codeWidths c) := by
  induction n with
  | zero => rw [hr.zero, Function.iterate_zero, id]
  | succ n ih => rw [hx.next _ _ (hr.codeFrom hx n), ih, Function.iterate_succ_apply']

theorem AreRounds.shiftsCode (n : Nat) :
    (r (n + 1)).ShiftsCode (r (n + 2)) (c.distance rest r n) := by
  intro h hh
  have hd := hr.codeFrom hx n
  replace hh := hd.resolves_iff.1 hh
  have hposition := hd.position? hx.wellFormed hh
  have hmem := (hx.wellFormed .code).mem_order.2 (resolves_iff.1 hh)
  have hlt : c.rankOf h < (x.starts (rest + c.codeWidths (r n))).length := by
    rw [CodeLoop.starts, Section.length_startsFrom, length_of_mapM hx.sizes]
    exact List.idxOf_lt_length_iff.2 hmem
  obtain ⟨n', hn', hshift⟩ := CodeLoop.getElem?_starts_shift
    (n := rest + c.codeWidths (r (n + 1))) (List.getElem?_eq_getElem hlt)
  refine ⟨_, n', hposition.trans (List.getElem?_eq_getElem hlt), ?_, hshift⟩
  rw [(hr.codeFrom hx (n + 1)).position? hx.wellFormed hh, hn']

/-- When class data is as long in two rounds, both lay code out alike. -/
theorem AreRounds.codeOffsets_succ {m n : Nat} (h : c.codeWidths (r m) = c.codeWidths (r n)) :
    (r (m + 1)).codeOffsets = (r (n + 1)).codeOffsets := by
  rw [(hr.codeFrom hx m).offsets, (hr.codeFrom hx n).offsets, h]

theorem AreRounds.codeOffsets_succ_of_codeOffsets {m n : Nat}
    (h : (r m).codeOffsets = (r n).codeOffsets) :
    (r (m + 1)).codeOffsets = (r (n + 1)).codeOffsets :=
  hr.codeOffsets_succ hx (codeWidths_congr fun y _ =>
    position?_of_codeOffsets (hr.movesData hx n) (hr.movesData hx m) h y)

/-- Some round moves no code. -/
theorem AreRounds.exists_codeOffsets_eq : ∃ n, (r (n + 1)).codeOffsets = (r n).codeOffsets := by
  obtain ⟨i, hi⟩ := x.exists_starts_eq (rest + c.codeWidths c)
  refine ⟨i + 1, ?_⟩
  rw [(hr.codeFrom hx (i + 1)).offsets, (hr.codeFrom hx i).offsets, hr.eq_iterate hx,
    hr.eq_iterate hx, hi]

theorem AreRounds.codeOffsets_of_le (hlast : (r (last + 1)).codeOffsets = (r last).codeOffsets)
    {n : Nat} (hn : last ≤ n) : (r n).codeOffsets = (r last).codeOffsets := by
  induction n, hn using Nat.le_induction with
  | base => rfl
  | succ n hn ih => rw [hr.codeOffsets_succ_of_codeOffsets hx ih, hlast]

/-- The first round decides to which side all later ones move code. -/
theorem AreRounds.distance_nonpos_or_nonneg :
    ((∀ n, c.distance rest r n ≤ 0) ∨ ∀ n, 0 ≤ c.distance rest r n) ∧
    (c.codeWidths (r 1) ≤ c.codeWidths c → ∀ n, c.distance rest r n ≤ 0) := by
  simp only [distance, hr.eq_iterate hx]
  have hmono : Monotone x.next := fun _ _ => CodeLoop.next_mono
  refine ⟨?_, fun hle n => CodeLoop.shift_nonpos ?_⟩
  · rcases Nat.le_total (rest + c.codeWidths c) (x.next (rest + c.codeWidths c)) with hrise | hfall
    · exact .inr fun n =>
        CodeLoop.shift_nonneg (hmono.monotone_iterate_of_le_map hrise n.le_succ)
    · exact .inl fun n =>
        CodeLoop.shift_nonpos (hmono.antitone_iterate_of_map_le hfall n.le_succ)
  · refine hmono.antitone_iterate_of_map_le ?_ n.le_succ
    have := hr.eq_iterate hx 1
    rw [Function.iterate_one] at this
    omega

section Last

variable (hlast : (r (last + 1)).codeOffsets = (r last).codeOffsets)
  (hbefore : ∀ n < last, (r (n + 1)).codeOffsets ≠ (r n).codeOffsets)
include hlast hbefore

/-- Code stands where it stays from the last round but one on, and not before. -/
theorem AreRounds.le_iff_codeOffsets_eq (n : Nat) :
    last ≤ n ↔ (r n).codeOffsets = (r (last + 1)).codeOffsets := by
  refine ⟨fun hn => (hr.codeOffsets_of_le hx hlast hn).trans hlast.symm, fun h => ?_⟩
  by_contra hlt
  refine hbefore n (Nat.lt_of_not_le hlt) ?_
  rw [hr.codeOffsets_succ_of_codeOffsets hx (h.trans hlast), h]

/-- After the first round it is enough to look at the code that class data names: the rest of the
code moves with it. -/
theorem AreRounds.le_succ_iff_position?_eq (n : Nat) : last ≤ n + 1 ↔
    ∀ y ∈ c.codes, (r (n + 1)).position? y = (r (last + 1)).position? y := by
  have hmoves := hr.movesData hx
  rw [hr.le_iff_codeOffsets_eq hx hlast hbefore]
  refine ⟨fun h y _ => position?_of_codeOffsets (hmoves _) (hmoves _) h y, fun h => ?_⟩
  have hnext : (r (n + 2)).codeOffsets = (r (last + 1)).codeOffsets := by
    rw [hr.codeOffsets_succ hx (codeWidths_congr h),
      hr.codeOffsets_of_le hx hlast (show last ≤ last + 1 + 1 by omega), hlast]
  rw [← hnext]
  by_cases hcodes : ∃ y ∈ c.codes, c.Resolves .code y
  · -- one code offset that stays holds all code where it is
    obtain ⟨y, hy, hresolves⟩ := hcodes
    obtain ⟨i, j, hi, hj, hshift⟩ := hr.shiftsCode hx n y ((hmoves _).resolves_iff.2 hresolves)
    have hstays := position?_of_codeOffsets (hmoves _) (hmoves _) hnext y
    rw [← h y hy, hi, hj, Option.some.injEq] at hstays
    have hzero : c.distance rest r n = 0 := by omega
    rw [(hr.codeFrom hx n).offsets, (hr.codeFrom hx (n + 1)).offsets,
      CodeLoop.starts_eq_of_shift_eq_zero hzero]
  · -- code offsets that lead nowhere are as long in all rounds
    have hnone (m : Nat) : ∀ y ∈ c.codes, (r m).position? y = none := fun y hy =>
      position?_of_not_resolves (hmoves m).wellFormed fun hm =>
        hcodes ⟨y, hy, (hmoves m).resolves_iff.1 hm⟩
    refine hr.codeOffsets_succ hx (codeWidths_congr fun y hy => ?_)
    rw [hnone n y hy, hnone (n + 1) y hy]

end Last

end Rounds

/-- The rounds are counted up to the first one that moves no code. -/
theorem AreRounds.exists_settle_eq (hr : c.AreRounds start r)
    (hlast : (r (last + 1)).codeOffsets = (r last).codeOffsets)
    (hbefore : ∀ n < last, (r (n + 1)).codeOffsets ≠ (r n).codeOffsets) : ∃ finish, ∀ n,
      settle start n c =
        if last < n then .ok (r (last + 1), finish) else .error (.unsettled maxRounds) := by
  obtain ⟨finish, hfinish⟩ := hr.succ last
  have hfrom (n m : Nat) (hm : m ≤ last) : settle start n (r m) =
      if last < m + n then .ok (r (last + 1), finish) else .error (.unsettled maxRounds) := by
    induction n generalizing m with
    | zero =>
      rw [if_neg (by omega)]
      rfl
    | succ n ih =>
      rcases Nat.lt_or_eq_of_le hm with hlt | rfl
      · obtain ⟨_, hround⟩ := hr.succ m
        rw [settle_eq_ite hround, if_neg (hbefore m hlt), ih (m + 1) hlt, Nat.add_right_comm,
          Nat.add_assoc]
      · rw [settle_eq_ite hfinish, if_pos hlast, if_pos (by omega)]
  refine ⟨finish, fun n => ?_⟩
  have := hfrom n 0 (Nat.zero_le _)
  rwa [hr.zero, Nat.zero_add] at this

/-- The rounds of a layout when their number has no bound. Unless the first one fails, which takes a
handle that leads nowhere, no round fails; all code moves by one distance after the first round, and
always to the same side; and when no code had a position before and offsets are words, code moves
towards the start only and no class data grows. So there is a last round, the first one that moves
no code, which is the first one that measures class data by the code offsets in the end. -/
theorem moves_one_way (hwf : c.SectionsWellFormed) (hprepare : c.prepare = .ok (e, start)) :
    (¬c.Closed ∧ ∃ v, placeData e start = .error v ∧ ∀ n, c.placeWithin (n + 1) = .error v) ∨
    ∃ (r : Nat → Container) (δ : Nat → Int) (sizes : Nat → List Nat) (last finish : Nat),
      e.AreRounds start r ∧
      (∀ n, (r (n + 1)).ShiftsCode (r (n + 2)) (δ n)) ∧ ((∀ n, δ n ≤ 0) ∨ ∀ n, 0 ≤ δ n) ∧
      (∀ n, (r n).classDataSizes = .ok (sizes n) ∧ ∃ first,
        ((r (n + 1)).sectionOf .classData).Stands (Section.layoutOf .classData first (sizes n))) ∧
      ((∀ h : Handle .code, c.position? h = none) → (r 1).CodeIsLow →
        ∀ n, δ n ≤ 0 ∧ List.Forall₂ (· ≤ ·) (sizes (n + 1)) (sizes n)) ∧
      (∀ n, c.placeWithin n =
        if last < n then conclude start (r (last + 1), finish)
        else .error (.unsettled maxRounds)) ∧
      (∀ n, last ≤ n ↔ (r n).codeOffsets = (r (last + 1)).codeOffsets) ∧
      ∀ n, last ≤ n + 1 ↔
        ∀ h ∈ e.codes, (r (n + 1)).position? h = (r (last + 1)).position? h := by
  obtain ⟨hce, -, -, hframe⟩ := of_prepare hwf hprepare
  have hwf' := hce.wellFormed hwf
  have hplace (n : Nat) : c.placeWithin n = settle start n e >>= conclude start := by
    rw [placeWithin_eq, hprepare, ok_bind]
  cases hfirst : placeData e start with
  | error v =>
    refine .inl ⟨fun hclosed => ?_, v, rfl, fun n => by rw [hplace, settle, hfirst]; rfl⟩
    obtain ⟨_, _, hprepare', hn⟩ := exists_prepare hwf hclosed
    rw [hprepare] at hprepare'
    cases hprepare'
    obtain ⟨d, finish, hd⟩ : ∃ d finish, placeSections Kind.dataOrder e start = .ok (d, finish) :=
      exists_placeSections hwf' (fun k => isNumbered_of_mem_dataOrder) (hce.items.closed hclosed)
        hn start
    rw [placeData, hd] at hfirst
    cases hfirst
  | ok d =>
    obtain ⟨rest, x, hx⟩ := exists_pushes hwf' hfirst
    obtain ⟨r, hr⟩ := hx.exists_areRounds
    obtain ⟨_, _, hsizes, -⟩ := exists_stands_of_placeData hwf' hfirst
    obtain ⟨sizes, heq, hle⟩ := exists_classDataSizes_eq hsizes
    classical
    have hstops := hr.exists_codeOffsets_eq hx
    have hlast := Nat.find_spec hstops
    have hbefore (n : Nat) (hn : n < Nat.find hstops) := Nat.find_min hstops hn
    obtain ⟨finish, hsettle⟩ := hr.exists_settle_eq hlast hbefore
    obtain ⟨hside, hdown⟩ := hr.distance_nonpos_or_nonneg hx
    refine .inr ⟨r, _, fun n => sizes (r n), Nat.find hstops, finish, hr, hr.shiftsCode hx, hside,
      fun n => ?_, fun hnone hlow => ?_, fun n => ?_, hr.le_iff_codeOffsets_eq hx hlast hbefore,
      hr.le_succ_iff_position?_eq hx hlast hbefore⟩
    · obtain ⟨finish', hround⟩ := hr.succ n
      obtain ⟨first, _, hmeasured, hstands⟩ :=
        exists_stands_of_placeData (hr.movesData hx n).wellFormed hround
      cases (heq _ (hr.movesData hx n)).symm.trans hmeasured
      exact ⟨hmeasured, first, hstands⟩
    · -- the first round gives way to offsets that are no longer than those without position
      have hfirst (y : Handle .code) :
          ClassData.codeWidth (r 1).places y ≤ ClassData.codeWidth (r 0).places y := by
        have hnone' : (r 0).position? y = none := by
          rw [hr.zero, position?_congr (hframe .code (by decide) rfl), hnone y]
        rw [codeWidth_of_position? hnone']
        exact hlow.codeWidth_le y
      have hall := hdown (by
        rw [← hr.zero]
        exact List.sum_le_sum fun y _ => hfirst y)
      intro n
      refine ⟨hall n, hle _ _ fun y => ?_⟩
      cases n with
      | zero => exact hfirst y
      | succ n =>
        exact (hr.shiftsCode hx n).codeWidth_le (hall n) (hr.movesData hx _) (hr.movesData hx _) y
    · rw [hplace, hsettle]
      split <;> rfl

/-- In a container with one method there is a last round. -/
theorem moves_one_way_oneMethod : ∃ (c e : Container) (r : Nat → Container)
    (start last finish : Nat), c.Closed ∧ c.prepare = .ok (e, start) ∧ e.AreRounds start r ∧
    last < maxRounds ∧ c.place = conclude start (r (last + 1), finish) ∧
    ∀ n, last ≤ n ↔ (r n).codeOffsets = (r (last + 1)).codeOffsets := by
  obtain ⟨c, d, hc, hplace, -⟩ := exists_place_oneMethod
  have hwf := (reachable_of_oneMethod hc).coherent.wellFormed
  have hclosed := closed_of_oneMethod hc
  obtain ⟨e, start, hprepare, -⟩ := exists_prepare hwf hclosed
  obtain ⟨hopen, -⟩ | ⟨r, -, -, last, finish, hr, -, -, -, -, hall, hstays, -⟩ :=
    moves_one_way hwf hprepare
  · exact absurd hclosed hopen
  · have hends := hall maxRounds
    have hlast : last < maxRounds := by
      by_contra hge
      rw [if_neg hge, ← place, hplace] at hends
      cases hends
    rw [if_pos hlast] at hends
    exact ⟨c, e, r, start, last, finish, hclosed, hprepare, hr, hlast, hends, hstays⟩

end Container

end DexContainer
