import Mathlib.Data.String.Basic
import DexContainer.Proofs.Container.Replacing

/-! What canonical sorting means. Items whose handles lead to items compare as their keys do, so the
comparison is a total preorder: strings by their code units, type lists by their descriptors, and
annotations by visibility and then by descriptor. Main statement: `sorted_of_place`, a layout leaves
every sortable section stably sorted when the policy says so, and every other order as it was. -/

namespace DexContainer

/-- One list is the stable sort of another one: it has the same members in a rising order, and
members that may stand in either order stand as before. -/
structure IsStableSort {α : Type} (r : α → α → Prop) (before after : List α) : Prop where
  perm : after.Perm before
  sorted : after.Pairwise r
  stable : ∀ a b, r a b → r b a → [a, b].Sublist before → [a, b].Sublist after

theorem isStableSort_mergeSort {α : Type} {r : α → α → Bool}
    (htrans : ∀ a b c, r a b = true → r b c = true → r a c = true)
    (htotal : ∀ a b, (r a b || r b a) = true) (xs : List α) :
    IsStableSort (fun a b => r a b = true) xs (xs.mergeSort r) :=
  ⟨List.mergeSort_perm xs r, List.pairwise_mergeSort htrans htotal xs,
    fun _ _ hab _ h => List.pair_sublist_mergeSort htrans htotal hab h⟩

/-- A function that keeps the order of the members keeps a stable sort of them. -/
theorem IsStableSort.map {α β : Type} {r : α → α → Prop} {r' : β → β → Prop} {before after : List α}
    (h : IsStableSort r before after) {f : α → β}
    (hf : ∀ a ∈ before, ∀ b ∈ before, r' (f a) (f b) ↔ r a b) :
    IsStableSort r' (before.map f) (after.map f) := by
  refine ⟨h.perm.map f, ?_, fun a' b' hab hba hbefore => ?_⟩
  · rw [List.pairwise_map]
    exact h.sorted.imp_of_mem fun ha hb hr =>
      (hf _ (h.perm.mem_iff.1 ha) _ (h.perm.mem_iff.1 hb)).2 hr
  · obtain ⟨pair, hpair, heq⟩ := List.sublist_map_iff.1 hbefore
    obtain ⟨a, b, rfl⟩ : ∃ a b, pair = [a, b] := by
      have hlength := congrArg List.length heq
      rw [List.length_map] at hlength
      exact List.length_eq_two.1 hlength.symm
    cases heq
    have ha : a ∈ before := hpair.subset (by simp)
    have hb : b ∈ before := hpair.subset (by simp)
    exact (h.stable a b ((hf a ha b hb).1 hab) ((hf b hb a ha).1 hba) hpair).map f

namespace Canonical

variable {α ε : Type}

/-! ### Texts -/

/-- The first entries that differ decide, and a list stands before those that it begins. -/
theorem compareLex_eq_lt_iff {cmp : α → α → Ordering} {r : α → α → Prop}
    (hlt : ∀ a b, cmp a b = .lt ↔ r a b) (heq : ∀ a b, cmp a b = .eq ↔ a = b) (as bs : List α) :
    List.compareLex cmp as bs = .lt ↔ List.Lex r as bs := by
  induction as generalizing bs with
  | nil => cases bs <;> simp [List.compareLex_nil_nil, List.compareLex_nil_cons]
  | cons a as ih =>
    cases bs with
    | nil => simp [List.compareLex_cons_nil]
    | cons b bs =>
      rw [List.compareLex_cons_cons, Ordering.then_eq_lt, List.cons_lex_cons_iff, hlt, heq, ih]

theorem compareLex_eq_eq_iff {cmp : α → α → Ordering} (heq : ∀ a b, cmp a b = .eq ↔ a = b)
    (as bs : List α) : List.compareLex cmp as bs = .eq ↔ as = bs := by
  induction as generalizing bs with
  | nil => cases bs <;> simp [List.compareLex_nil_nil, List.compareLex_nil_cons]
  | cons a as ih =>
    cases bs with
    | nil => simp [List.compareLex_cons_nil]
    | cons b bs =>
      rw [List.compareLex_cons_cons, Ordering.then_eq_eq, heq, ih, List.cons.injEq]

theorem compareLex_map {β : Type} (cmp : β → β → Ordering) (f : α → β) (as bs : List α) :
    List.compareLex cmp (as.map f) (bs.map f) =
      List.compareLex (fun a b => cmp (f a) (f b)) as bs := by
  induction as generalizing bs with
  | nil => cases bs <;> rfl
  | cons a as ih =>
    cases bs with
    | nil => rfl
    | cons b bs =>
      rw [List.map_cons, List.map_cons, List.compareLex_cons_cons, List.compareLex_cons_cons, ih]

theorem compareText_eq_lt_iff (s t : String) :
    compareText (codePoints s) (codePoints t) = .lt ↔ s < t := by
  rw [compareText, codePoints, codePoints, compareLex_map, String.lt_iff_toList_lt, ← List.lex_lt]
  exact compareLex_eq_lt_iff (fun _ _ => Nat.compare_eq_lt)
    (fun _ _ => Nat.compare_eq_eq.trans Char.toNat_inj) _ _

theorem compareText_eq_eq_iff (s t : String) :
    compareText (codePoints s) (codePoints t) = .eq ↔ s = t := by
  rw [compareText, codePoints, codePoints, compareLex_map, ← String.toList_inj]
  exact compareLex_eq_eq_iff (fun _ _ => Nat.compare_eq_eq.trans Char.toNat_inj) _ _

/-- When all entries can be computed, nothing is left of the order in which they are. -/
theorem compareLists_eq {entry : α → Except ε CodePoints} {xs ys : List α} {as bs : List CodePoints}
    (hx : xs.mapM entry = .ok as) (hy : ys.mapM entry = .ok bs) :
    compareLists entry xs ys = .ok (List.compareLex compareText as bs) := by
  replace hx := mapM_eq_ok.1 hx
  replace hy := mapM_eq_ok.1 hy
  induction hx generalizing ys bs with
  | nil =>
    cases hy with
    | nil => rfl
    | cons hb _ => rw [compareLists, hb]; rfl
  | @cons _ a _ _ ha _ ih =>
    cases hy with
    | nil => rw [compareLists, ha]; rfl
    | @cons _ b _ _ hb hbs =>
      rw [compareLists, ha, hb, ok_bind, ok_bind, List.compareLex_cons_cons]
      cases compareText a b with
      | eq => exact ih hbs
      | _ => rfl

end Canonical

namespace Container

variable {c d : Container} {k : Kind} {x y z : Content k} {a b : Canonical.Key} {o : Ordering}

/-! ### The comparison -/

/-- Items compare as their keys do. -/
theorem compareContents_eq (hk : k.isSortable = true) (hx : c.canonicalKey k x = .ok a)
    (hy : c.canonicalKey k y = .ok b) :
    c.compareContents k x y = .ok (Canonical.Key.compare a b) := by
  cases k <;> try exact absurd hk (by decide)
  case stringData =>
    cases hx
    cases hy
    simp [compareContents, Canonical.Key.compare, Canonical.compareText, Utf16.compareUnits,
      List.compareLex_cons_cons, List.compareLex_nil_nil, pure_eq]
  case typeList =>
    obtain ⟨as, has, hx⟩ := bind_eq_ok.1 hx
    obtain ⟨bs, hbs, hy⟩ := bind_eq_ok.1 hy
    cases hx
    cases hy
    rw [compareContents, Canonical.compareLists_eq has hbs]
    simp [Canonical.Key.compare]
  case annotationItem =>
    obtain ⟨s, hs, hx⟩ := bind_eq_ok.1 hx
    obtain ⟨t, ht, hy⟩ := bind_eq_ok.1 hy
    cases hx
    cases hy
    have hvisibility : compare (AnnotationItem.visibility x) (AnnotationItem.visibility y) =
        compare (AnnotationItem.visibility x).toNat (AnnotationItem.visibility y).toNat := by
      simp only [compare, compareOfLessAndEq, UInt8.lt_iff_toNat_lt, ← UInt8.toNat_inj]
    rw [compareContents, hvisibility, hs, ht, Canonical.Key.compare]
    cases compare (AnnotationItem.visibility x).toNat (AnnotationItem.visibility y).toNat with
    | eq => simp [List.compareLex_cons_cons, List.compareLex_nil_nil, pure_eq]
    | _ => rfl

/-- The first item is not behind the second one in the canonical order. -/
def MayPrecede (c : Container) (k : Kind) (x y : Content k) : Prop :=
  ∃ o, c.compareContents k x y = .ok o ∧ o ≠ .gt

theorem mayPrecede_iff (hk : k.isSortable = true) (hx : c.canonicalKey k x = .ok a)
    (hy : c.canonicalKey k y = .ok b) :
    c.MayPrecede k x y ↔ (Canonical.Key.compare a b).isLE = true := by
  rw [MayPrecede, compareContents_eq hk hx hy, Ordering.isLE_iff_ne_gt]
  simp

/-- Items whose handles lead to items can be compared, and they can be put in a row. -/
structure IsTotallyPreordered (c : Container) (k : Kind) : Prop where
  refl : ∀ x, Each c.Resolves (Content.handles k x) → c.compareContents k x x = .ok .eq
  swap : ∀ x y, Each c.Resolves (Content.handles k x) → Each c.Resolves (Content.handles k y) →
    ∃ o, c.compareContents k x y = .ok o ∧ c.compareContents k y x = .ok o.swap
  total : ∀ x y, Each c.Resolves (Content.handles k x) → Each c.Resolves (Content.handles k y) →
    c.MayPrecede k x y ∨ c.MayPrecede k y x
  trans : ∀ x y z, Each c.Resolves (Content.handles k x) → Each c.Resolves (Content.handles k y) →
    Each c.Resolves (Content.handles k z) → c.MayPrecede k x y → c.MayPrecede k y z →
    c.MayPrecede k x z

theorem Closed.isTotallyPreordered (hc : c.Closed) (hk : k.isSortable = true) :
    c.IsTotallyPreordered k := by
  refine ⟨fun x hx => ?_, fun x y hx hy => ?_, fun x y hx hy => ?_, fun x y z hx hy hz => ?_⟩
  · obtain ⟨a, ha⟩ := exists_canonicalKey hc hx
    have hself : Canonical.Key.compare a a = .eq := Std.ReflCmp.compare_self
    rw [compareContents_eq hk ha ha, hself]
  · obtain ⟨a, ha⟩ := exists_canonicalKey hc hx
    obtain ⟨b, hb⟩ := exists_canonicalKey hc hy
    exact ⟨_, compareContents_eq hk ha hb, compareContents_swap (compareContents_eq hk ha hb)⟩
  · obtain ⟨a, ha⟩ := exists_canonicalKey hc hx
    obtain ⟨b, hb⟩ := exists_canonicalKey hc hy
    rw [mayPrecede_iff hk ha hb, mayPrecede_iff hk hb ha, ← Bool.or_eq_true]
    exact Canonical.precedes_total (0, a) (0, b)
  · obtain ⟨a, ha⟩ := exists_canonicalKey hc hx
    obtain ⟨b, hb⟩ := exists_canonicalKey hc hy
    obtain ⟨e, he⟩ := exists_canonicalKey hc hz
    rw [mayPrecede_iff hk ha hb, mayPrecede_iff hk hb he, mayPrecede_iff hk ha he]
    exact Std.TransCmp.isLE_trans

/-- Strings are ordered by their code units. -/
theorem compareContents_stringData {x y : StringData}
    (h : c.compareContents .stringData x y = .ok o) :
    (o = .lt ↔ x.units < y.units) ∧ (o = .eq ↔ x.units = y.units) := by
  cases h
  rw [← List.lex_lt]
  exact ⟨Canonical.compareLex_eq_lt_iff (fun _ _ => Nat.compare_eq_lt)
    (fun _ _ => Nat.compare_eq_eq) _ _, Canonical.compareLex_eq_eq_iff
    (fun _ _ => Nat.compare_eq_eq) _ _⟩

/-- Type lists are ordered by their descriptors. -/
theorem compareContents_typeList {x y : TypeList} {ss ts : List String}
    (hx : x.types.mapM c.descriptor = .ok ss) (hy : y.types.mapM c.descriptor = .ok ts)
    (h : c.compareContents .typeList x y = .ok o) : (o = .lt ↔ ss < ts) ∧ (o = .eq ↔ ss = ts) := by
  have hkeys {hs : List (Handle .typeId)} {ss : List String} (h : hs.mapM c.descriptor = .ok ss) :
      hs.mapM c.descriptorKey = .ok (ss.map Canonical.codePoints) := by
    have hmap : List.map Canonical.codePoints <$> hs.mapM c.descriptor =
        hs.mapM c.descriptorKey := map_mapM _
    rw [← hmap, h]
    rfl
  rw [compareContents, Canonical.compareLists_eq (hkeys hx) (hkeys hy),
    Canonical.compareLex_map] at h
  cases h
  rw [← List.lex_lt]
  exact ⟨Canonical.compareLex_eq_lt_iff Canonical.compareText_eq_lt_iff
    Canonical.compareText_eq_eq_iff _ _,
    Canonical.compareLex_eq_eq_iff Canonical.compareText_eq_eq_iff _ _⟩

/-- Annotations are ordered by visibility, and then by the descriptors of their types. -/
theorem compareContents_annotationItem {x y : AnnotationItem} {s t : String}
    (hx : c.descriptor x.body.type = .ok s) (hy : c.descriptor y.body.type = .ok t)
    (h : c.compareContents .annotationItem x y = .ok o) :
    (o = .lt ↔ x.visibility < y.visibility ∨ x.visibility = y.visibility ∧ s < t) ∧
      (o = .eq ↔ x.visibility = y.visibility ∧ s = t) := by
  have hkey {i : Handle .typeId} {s : String} (h : c.descriptor i = .ok s) :
      c.descriptorKey i = .ok (Canonical.codePoints s) := by
    rw [descriptorKey, h, ok_map]
  rw [compareContents, hkey hx, hkey hy] at h
  have hlt : compare x.visibility y.visibility = .lt ↔ x.visibility < y.visibility :=
    Std.compare_eq_lt
  have heq : compare x.visibility y.visibility = .eq ↔ x.visibility = y.visibility :=
    Std.LawfulEqCmp.compare_eq_iff_eq
  rw [← hlt, ← heq]
  cases hxy : compare x.visibility y.visibility with
  | eq =>
    rw [hxy] at h
    cases h
    simp [Canonical.compareText_eq_lt_iff, Canonical.compareText_eq_eq_iff]
  | lt =>
    rw [hxy] at h
    cases h
    simp
  | gt =>
    rw [hxy] at h
    cases h
    simp

/-! ### Sorting -/

/-- The item behind the first number is not behind that of the second one in the canonical order. -/
def MayPrecedeAt (c : Container) (k : Kind) (i j : Nat) : Prop :=
  ∃ x y : Content k, c.get ⟨i⟩ = .ok x ∧ c.get ⟨j⟩ = .ok y ∧ c.MayPrecede k x y

theorem mayPrecedeAt_congr (h : c.KeepsContent d) (hk : k.isSortable = true) :
    d.MayPrecedeAt k = c.MayPrecedeAt k := by
  funext i j
  simp only [MayPrecedeAt, MayPrecede, compareContents_congr h,
    h.get (isSingleton_of_isSortable hk)]

/-- The section is sorted stably. -/
theorem isStableSort_of_sortSection (hwf : c.SectionsWellFormed) (hc : c.Closed)
    (hk : k.isSortable = true) (h : c.sortSection k = .ok d) :
    IsStableSort (c.MayPrecedeAt k) (c.sectionOf k).order.toList (d.sectionOf k).order.toList := by
  obtain ⟨items, hitems⟩ := exists_keyed hwf hc k
  rw [sortSection, if_pos hk, canonicalOrder_of_keyed hitems, ok_bind] at h
  cases h
  rw [sectionOf_modifySection_self, ← map_fst_of_keyed hitems]
  refine (isStableSort_mergeSort Canonical.precedes_trans Canonical.precedes_total items).map
    fun i hi j hj => ?_
  obtain ⟨_, -, hi⟩ := exists_of_mem_mapM hitems hi
  obtain ⟨_, -, hj⟩ := exists_of_mem_mapM hitems hj
  obtain ⟨x, hx, hxkey, rfl⟩ := keyed_eq_ok.1 hi
  obtain ⟨y, hy, hykey, rfl⟩ := keyed_eq_ok.1 hj
  rw [Canonical.precedes, ← mayPrecede_iff hk hxkey hykey, MayPrecedeAt, get_eq_ok.2 hx,
    get_eq_ok.2 hy]
  simp

theorem isStableSort_of_sortData (hwf : c.SectionsWellFormed) (hc : c.Closed)
    (hsorts : c.policy.sorts = true) (h : c.sortData = .ok d) (hk : k.isSortable = true) :
    IsStableSort (c.MayPrecedeAt k) (c.sectionOf k).order.toList (d.sectionOf k).order.toList := by
  -- until its turn comes, the section stands as it stood
  have hkeeps {e f : Container} {j : Kind}
      (he : c.Rearranges e ∧ (e.sectionOf k).order = (c.sectionOf k).order) (hj : j ≠ k)
      (h : e.sortSection j = .ok f) :
      c.Rearranges f ∧ (f.sectionOf k).order = (c.sectionOf k).order :=
    ⟨he.1.trans (rearranges_sortSection h).1, by rw [sectionOf_sortSection_of_ne h hj.symm, he.2]⟩
  have hself {e f : Container}
      (he : c.Rearranges e ∧ (e.sectionOf k).order = (c.sectionOf k).order)
      (h : e.sortSection k = .ok f) : IsStableSort (c.MayPrecedeAt k)
        (c.sectionOf k).order.toList (f.sectionOf k).order.toList := by
    have hsorted := isStableSort_of_sortSection (he.1.wellFormed hwf) (he.1.items.closed hc) hk h
    rwa [mayPrecedeAt_congr he.1.items.keepsContent hk, he.2] at hsorted
  refine of_sortData hk hsorts hkeeps hself (fun he hj h => ?_) ⟨.refl c, rfl⟩ h
  rwa [sectionOf_sortSection_of_ne h hj.symm]

/-- A layout sorts the sortable sections stably, if the policy says so. -/
theorem isStableSort_of_placeWithin {rounds fileSize : Nat} (hwf : c.SectionsWellFormed)
    (hc : c.Closed) (hsorts : c.policy.sorts = true)
    (h : c.placeWithin rounds = .ok (d, fileSize)) (hk : k.isSortable = true) :
    IsStableSort (c.MayPrecedeAt k) (c.sectionOf k).order.toList (d.sectionOf k).order.toList := by
  obtain ⟨c1, c2, c3, c4, r1, h2, r3, h4, -, -, horder, -, -, horder3⟩ :=
    exists_orders_of_placeWithin hwf h
  have r := (r1.trans (rearranges_orderClasses h2).1).trans r3
  have hclass : k ≠ .classDef := by
    rintro rfl
    cases hk
  have hsorted := isStableSort_of_sortData (r.wellFormed hwf) (r.items.closed hc)
    (r.policy.symm ▸ hsorts) h4 hk
  rwa [mayPrecedeAt_congr r.items.keepsContent hk, horder3 k hclass,
    ← horder k (isSingleton_of_isSortable hk)] at hsorted

/-- The orders are settled before anything is laid out among the data, and no item was touched. -/
theorem exists_prepare_of_placeWithin {rounds fileSize : Nat} (hwf : c.SectionsWellFormed)
    (h : c.placeWithin rounds = .ok (d, fileSize)) : ∃ e start, c.prepare = .ok (e, start) ∧
      c.KeepsItems e ∧
      ∀ k, k.isSingleton = false → (d.sectionOf k).order = (e.sectionOf k).order := by
  rw [placeWithin_eq] at h
  obtain ⟨⟨e, start⟩, hprepare, h⟩ := bind_eq_ok.1 h
  obtain ⟨⟨f, finish⟩, hsettle, h⟩ := bind_eq_ok.1 h
  obtain ⟨hce, -⟩ := of_prepare hwf hprepare
  obtain ⟨hef, horder, -⟩ := stacked_of_settle (hce.wellFormed hwf) hsettle
  obtain ⟨g, _, hg, hsame⟩ := exists_conclude (hef.wellFormed (hce.wellFormed hwf)) start finish
  cases hg.symm.trans h
  exact ⟨e, start, hprepare, hce.items, fun k hk => by rw [hsame k hk, horder]⟩

/-- A layout that does not sort keeps the order of the data. -/
theorem order_of_placeWithin {rounds fileSize : Nat} (hwf : c.SectionsWellFormed)
    (hsorts : c.policy.sorts = false) (h : c.placeWithin rounds = .ok (d, fileSize))
    (hk : k ∈ Kind.dataOrder) : (d.sectionOf k).order = (c.sectionOf k).order := by
  obtain ⟨c1, c2, c3, c4, r1, h2, r3, h4, -, -, horder, -, -, horder3⟩ :=
    exists_orders_of_placeWithin hwf h
  have r := (r1.trans (rearranges_orderClasses h2).1).trans r3
  obtain ⟨hclass, hsingleton⟩ : k ≠ .classDef ∧ k.isSingleton = false := by
    revert hk
    cases k <;> decide
  rw [sortData, r.policy, hsorts] at h4
  cases h4
  rw [horder k hsingleton, horder3 k hclass]

/-- When the policy is to sort, and not to keep orders, a layout sorts strings, type lists and
annotations stably; the other data sections, and all of them under any other policy, keep their
order, and so do the class definitions when orders are kept. All orders are settled without touching
an item, and no handle leads to another item in the end, but for the header and the map, into which
the layout itself is written. What the sections are sorted by can compare all items whose handles
lead to items, and is a total preorder on them: strings by their code units, type lists by their
descriptors one after the other, and annotations by visibility and then by descriptor. -/
theorem sorted_of_place {fileSize : Nat} (hwf : c.SectionsWellFormed) (hs : c.HasSingletons)
    (hc : c.Closed) (h : c.place = .ok (d, fileSize)) :
    (c.policy.sortAllItems = true → c.policy.inPlace = false →
      ∀ k ∈ [Kind.stringData, .typeList, .annotationItem],
        IsStableSort (c.MayPrecedeAt k) (c.sectionOf k).order.toList
          (d.sectionOf k).order.toList) ∧
    (∀ k ∈ Kind.dataOrder, (k ∈ [Kind.stringData, .typeList, .annotationItem] →
        c.policy.sortAllItems = false ∨ c.policy.inPlace = true) →
      (d.sectionOf k).order = (c.sectionOf k).order) ∧
    (c.policy.inPlace = true → (d.sectionOf .classDef).order = (c.sectionOf .classDef).order) ∧
    (∃ e start, c.prepare = .ok (e, start) ∧ c.KeepsItems e ∧
      ∀ k, k.isSingleton = false → (d.sectionOf k).order = (e.sectionOf k).order) ∧
    (∀ (k : Kind) (h : Handle k), k.isSingleton = false → d.get h = c.get h) ∧
    (∀ k ∈ [Kind.stringData, .typeList, .annotationItem], c.IsTotallyPreordered k) ∧
    (∀ (x y : StringData) (o : Ordering), c.compareContents .stringData x y = .ok o →
      (o = .lt ↔ x.units < y.units) ∧ (o = .eq ↔ x.units = y.units)) ∧
    (∀ (x y : TypeList) (ss ts : List String) (o : Ordering), x.types.mapM c.descriptor = .ok ss →
      y.types.mapM c.descriptor = .ok ts → c.compareContents .typeList x y = .ok o →
      (o = .lt ↔ ss < ts) ∧ (o = .eq ↔ ss = ts)) ∧
    ∀ (x y : AnnotationItem) (s t : String) (o : Ordering), c.descriptor x.body.type = .ok s →
      c.descriptor y.body.type = .ok t → c.compareContents .annotationItem x y = .ok o →
      (o = .lt ↔ x.visibility < y.visibility ∨ x.visibility = y.visibility ∧ s < t) ∧
        (o = .eq ↔ x.visibility = y.visibility ∧ s = t) := by
  have hsortable {k : Kind} : k ∈ [Kind.stringData, .typeList, .annotationItem] ↔
      k.isSortable = true := by
    cases k <;> decide
  obtain ⟨hlays, -, -⟩ := laidOut_of_placeWithin hwf hs h
  refine ⟨fun hsort hin k hk => ?_, fun k hk hkeeps => ?_, fun hin => ?_,
    exists_prepare_of_placeWithin hwf h, fun k y hk => hlays.items.get hk y,
    fun k hk => hc.isTotallyPreordered (hsortable.1 hk), fun x y o => compareContents_stringData,
    fun x y ss ts o hx hy => compareContents_typeList hx hy,
    fun x y s t o hx hy => compareContents_annotationItem hx hy⟩
  · refine isStableSort_of_placeWithin hwf hc ?_ h (hsortable.1 hk)
    rw [Policy.sorts, hsort, hin]
    rfl
  · rw [hsortable] at hkeeps
    cases hsort : k.isSortable with
    | true =>
      refine order_of_placeWithin hwf ?_ h hk
      rw [Policy.sorts]
      rcases hkeeps hsort with hoff | hin
      · rw [hoff, Bool.false_and]
      · rw [hin, Bool.not_true, Bool.and_false]
    | false =>
      refine hlays.fixed k ?_
      rintro (rfl | hmovable)
      · exact absurd hk (by decide)
      · rw [hsort] at hmovable
        cases hmovable
  · exact (orders_of_placeWithin hwf h).2.1 (by rw [Policy.reordersClasses, hin]; rfl)

/-- Two strings are added and laid out in their canonical order. -/
theorem sorted_of_place_strings : ∃ (c d : Container) (fileSize : Nat), c.Reachable ∧ c.Closed ∧
    c.place = .ok (d, fileSize) ∧ (c.sectionOf .stringData).order = #[0, 1] ∧
    (d.sectionOf .stringData).order = #[1, 0] ∧
    IsStableSort (c.MayPrecedeAt .stringData) [0, 1] [1, 0] ∧
    d.get (⟨0⟩ : Handle .stringData) = c.get ⟨0⟩ := by
  have hplace : ((empty { sortAllItems := true }).internString "W" >>= fun b =>
      b.1.internString "V" >>= fun c =>
        (fun d => ((c.1.sectionOf .stringData).order, (d.1.sectionOf .stringData).order,
          c.1.policy.sortAllItems, c.1.policy.inPlace)) <$> c.1.place) =
      .ok (#[0, 1], #[1, 0], true, false) := by
    cbv
  obtain ⟨⟨b, w⟩, hb, hplace⟩ := bind_eq_ok.1 hplace
  obtain ⟨⟨c, v⟩, hc, hplace⟩ := bind_eq_ok.1 hplace
  obtain ⟨⟨d, fileSize⟩, hd, heq⟩ := map_eq_ok.1 hplace
  simp only [Prod.mk.injEq] at heq
  obtain ⟨horder, horder', hsort, hin⟩ := heq
  have hb' := (Reachable.empty { sortAllItems := true }).internString hb
  have hreachable := hb'.internString hc
  have hclosed := ((closed_empty _).internString (.empty _) hb).1.internString hb' hc |>.1
  have hcoherent := hreachable.coherent
  obtain ⟨hsorted, -, -, -, hget, -⟩ :=
    sorted_of_place hcoherent.wellFormed hcoherent.singletons hclosed hd
  have hstable := hsorted hsort hin .stringData (by decide)
  rw [horder, horder'] at hstable
  exact ⟨c, d, fileSize, hreachable, hclosed, hd, horder, horder', hstable, hget _ _ rfl⟩

end Container

end DexContainer
