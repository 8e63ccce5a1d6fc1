import DexContainer.Proofs.Item.Blind
import DexContainer.Proofs.Section.Reading
import DexContainer.Stamp

/-! The items that stand in an image, and the section that is read from them. An item that stands
in an image has numbers for handles; others refer to it by its own number, which is its place in an
index table, and the offset at which it starts in a data section. Main statement:
`outcome`, a section is read in the order of the file, every item with the handle that its
number is given; or an offset was met at which none of the items starts. -/

namespace DexContainer

variable {k : Kind} {image : Image} {keeps : Bool} {s : Source}

/-- The item with the numbers that stand in the image for its handles. Whatever references were met
before, it is read with the handles that its numbers are given. -/
def Content.StandsAt (image : Image) (keeps : Bool) (k : Kind) (start finish : Nat)
    (x : Content k) : Prop :=
  ∃ met, List.Perm met (handles k x) ∧ ∀ (r : References) (ρ : Renaming),
    (r.meetAll met).Names ρ → decode k ⟨image, start, r, keeps⟩ =
      .ok (rename ρ k x) ⟨image, finish, r.meetAll met, keeps⟩

theorem Content.StandsAt.lt {start finish : Nat} {x : Content k}
    (h : StandsAt image keeps k start finish x) : start < finish := by
  obtain ⟨met, -, h⟩ := h
  have hx := h {} _ (References.names_handleOf _)
  exact (Content.yields keeps k _ _ _ hx rfl References.sound_empty fun _ _ => trivial).1.position

/-- There are references under which the item is read with its numbers for handles. -/
theorem Content.StandsAt.exists_decode_self {start finish : Nat} {x : Content k}
    (h : StandsAt image keeps k start finish x) : ∃ r r' : References, r.Sound ∧
      r'.Names (fun _ h => h) ∧
      decode k ⟨image, start, r, keeps⟩ = .ok x ⟨image, finish, r', keeps⟩ := by
  obtain ⟨met, -, h⟩ := h
  obtain ⟨r, hr, hself⟩ := References.exists_names_self met
  have hself := hself met (List.Subset.refl met)
  refine ⟨r, r.meetAll met, hr, hself, ?_⟩
  rw [h r _ hself, rename_id]

/-- An image determines the item that stands at an offset, and where it ends. -/
theorem Content.StandsAt.unique {start finish finish' : Nat} {x x' : Content k}
    (h : StandsAt image keeps k start finish x) (h' : StandsAt image keeps k start finish' x') :
    x = x' ∧ finish = finish' := by
  obtain ⟨met, -, h⟩ := h
  obtain ⟨met', -, h'⟩ := h'
  obtain ⟨r, -, hr⟩ := References.exists_names_self (met ++ met')
  have hx := h r _ (hr met (List.subset_append_left ..))
  have hx' := h' r _ (hr met' (List.subset_append_right ..))
  rw [rename_id] at hx hx'
  obtain ⟨hcontent, hsource⟩ := EStateM.Result.ok.inj (hx.symm.trans hx')
  exact ⟨hcontent, (Source.mk.inj hsource).2.1⟩

theorem Content.rename_of_isSingleton (hk : k.isSingleton = true) (ρ : Renaming)
    (x : Content k) : rename ρ k x = x := by
  cases k <;> first | rfl | cases hk

theorem Content.blindAt (k : Kind) (s : Source) :
    BlindAt s (fun _ => decode k) fun n a hs => ∃ x,
      StandsAt s.image s.keepsSigned k s.position n x ∧
        (a, hs) = (fun ρ => rename ρ k x, handles k x) := by
  rcases Content.blind k s with ⟨n, a, _, met, ⟨x, ha, rfl⟩, hperm, hok⟩ | herror
  · obtain rfl := funext ha
    exact .inl ⟨n, _, _, met, ⟨x, ⟨met, hperm, hok⟩, rfl⟩, hperm, hok⟩
  · exact .inr herror

/-- Whatever is read stands in the image with its numbers, all of which were met. -/
theorem Content.exists_standsAt_of_decode {t : Source} {x : Content k} (h : decode k s = .ok x t) :
    ∃ y, StandsAt s.image s.keepsSigned k s.position t.position y ∧
      Each t.references.Met (handles k y) ∧ rename t.references.handleOf k y = x := by
  rcases Content.blindAt k s with ⟨_, _, _, _, ⟨y, hy, -⟩, -⟩ | ⟨e, met, -, herror⟩
  · obtain ⟨met, hperm, hok⟩ := id hy
    obtain ⟨rfl, rfl⟩ := EStateM.Result.ok.inj
      (h.symm.trans (hok s.references _ (References.names_handleOf _)))
    refine ⟨y, hy, fun g hg => ?_, rfl⟩
    exact References.each_met s.references met g (hperm.mem_iff.2 hg)
  · obtain ⟨u, hu⟩ := herror s.references _ (References.names_handleOf _)
    cases h.symm.trans hu

/-- What is read back from a table of numbers stands in the image. -/
theorem Content.standsAt_of_reads {start : Nat} {bs tail : Bytes} {x : Content k}
    (h : Reads Places.numbers keeps (fun _ => True) start (decode k) bs fun ρ => rename ρ k x)
    (hstart : start ≤ image.size) (hrest : image.toList.drop start = bs ++ tail) :
    StandsAt image keeps k start (start + bs.length) x := by
  have hread (r : References) (hr : r.Sound) : ∃ y r', decode k ⟨image, start, r, keeps⟩ =
      .ok y ⟨image, start + bs.length, r', keeps⟩ ∧ ∀ ρ, r'.Names ρ → rename ρ k x = y := by
    obtain ⟨y, r', hy, -, -, hρ⟩ := h ⟨image, start, r, keeps⟩ tail rfl hstart hrest rfl
      ⟨hr, fun _ o _ _ => ⟨⟨o⟩, rfl⟩, fun _ m _ => ⟨⟨m⟩, rfl⟩⟩ fun _ _ => trivial
    exact ⟨y, r', hy, fun ρ hnames => hρ ρ fun k x n hn => Option.some.inj hn ▸ hnames k x⟩
  obtain ⟨z, r, hz, -⟩ := hread {} References.sound_empty
  obtain ⟨y, hy, -⟩ := exists_standsAt_of_decode hz
  obtain ⟨r, r', hr, hself, hdecode⟩ := hy.exists_decode_self
  obtain ⟨z, _, hz, hρ⟩ := hread r hr
  obtain ⟨rfl, hsource⟩ := EStateM.Result.ok.inj (hz.symm.trans hdecode)
  obtain ⟨-, -, rfl, -⟩ := Source.mk.inj hsource
  have hx := hρ _ hself
  rw [rename_id] at hx
  exact hx ▸ hy

namespace Section

/-- An item that stands in an image, and the number by which others refer to it. -/
structure Standing (k : Kind) where
  number : Nat
  content : Content k

/-- The item starts at the cursor or, in a data section, at the next aligned offset, which is its
number. -/
def Standing.Follows (image : Image) (keeps : Bool) (cursor finish : Nat) (x : Standing k) : Prop :=
  if k.isIndexed then Content.StandsAt image keeps k cursor finish x.content
  else x.number = alignUp cursor k.alignment ∧
    Content.StandsAt image keeps k x.number finish x.content

theorem Standing.Follows.unique {cursor finish finish' : Nat} {x x' : Standing k}
    (h : x.Follows image keeps cursor finish) (h' : x'.Follows image keeps cursor finish')
    (hnumber : k.isIndexed = true → x.number = x'.number) : x = x' ∧ finish = finish' := by
  obtain ⟨n, x⟩ := x
  obtain ⟨n', x'⟩ := x'
  rw [Follows] at h h'
  split at h
  · rename_i hk
    rw [if_pos hk] at h'
    obtain ⟨rfl, rfl⟩ := h.unique h'
    obtain rfl := hnumber hk
    exact ⟨rfl, rfl⟩
  · rename_i hk
    rw [if_neg hk] at h'
    obtain ⟨hn, h⟩ := h
    obtain ⟨hn', h'⟩ := h'
    obtain rfl : n = n' := hn.trans hn'.symm
    obtain ⟨rfl, rfl⟩ := h.unique h'
    exact ⟨rfl, rfl⟩

/-- As many items stand one after the other from an offset on; those of a table have their places
for numbers. -/
structure StandFrom (image : Image) (keeps : Bool) (offset count : Nat) (xs : List (Standing k)) :
    Prop where
  length : xs.length = count
  numbers : k.isIndexed = true → xs.map (·.number) = List.range count
  chain : ∃ finish, Chain (Standing.Follows image keeps) offset xs finish

/-- The section holds these items in this order, each with the handle that its number is given. -/
structure Lists (y : Section k) (ρ : Renaming) (xs : List (Standing k)) : Prop where
  size : y.size = xs.length
  handles : y.handles = xs.map fun x => ρ k ⟨x.number⟩
  get? : ∀ x ∈ xs, y.get? (ρ k ⟨x.number⟩) = some (Content.rename ρ k x.content)
  position? : ∀ x ∈ xs, y.position? (ρ k ⟨x.number⟩) = some x.number

/-- What reading an item meets: its handles and, in a data section, its own offset. -/
def Standing.met (x : Standing k) : List AnyHandle :=
  Content.handles k x.content ++ if k.isIndexed then [] else [⟨k, ⟨x.number⟩⟩]

/-- The only item of a section that holds one. -/
theorem Lists.exists_of_isSingleton {offset : Nat} {y : Section k} {ρ : Renaming}
    {xs : List (Standing k)} (hy : y.Lists ρ xs) (hρ : ∀ h : Handle k, ρ k h = h)
    (hk : k.isSingleton = true) (h : StandFrom image keeps offset 1 xs) :
    ∃ x finish, Content.StandsAt image keeps k offset finish x ∧ y.get? ⟨0⟩ = some x := by
  have hindexed := Kind.isIndexed_of_isSingleton hk
  obtain ⟨x, rfl⟩ := List.length_eq_one_iff.1 h.length
  obtain ⟨finish, next, hx, -⟩ := h.chain
  rw [Standing.Follows, if_pos hindexed] at hx
  have hnumber : x.number = 0 := List.head_eq_of_cons_eq (h.numbers hindexed)
  have hget := hy.get? x (List.mem_cons_self ..)
  rw [Content.rename_of_isSingleton hk, hρ, hnumber] at hget
  exact ⟨x.content, next, hx, hget⟩

/-! ### Numbers -/

theorem le_of_chain {cursor finish : Nat} {xs : List (Standing k)} (hk : k.isIndexed = false)
    (h : Chain (Standing.Follows image keeps) cursor xs finish) :
    (xs.map (·.number)).Pairwise (· < ·) ∧
      ∀ x ∈ xs, cursor ≤ x.number ∧ k.alignment ∣ x.number := by
  induction xs generalizing cursor with
  | nil => exact ⟨.nil, fun _ hx => absurd hx List.not_mem_nil⟩
  | cons x xs ih =>
    obtain ⟨next, hx, hxs⟩ := h
    rw [Standing.Follows, if_neg (by simp [hk])] at hx
    obtain ⟨hnumber, hstand⟩ := hx
    obtain ⟨hpairwise, hall⟩ := ih hxs
    have hle := le_alignUp k cursor
    have hlt := hstand.lt
    refine ⟨List.pairwise_cons.2 ⟨List.forall_mem_map.2 fun y hy => ?_, hpairwise⟩, ?_⟩
    · have := (hall y hy).1
      exact (by omega : x.number < y.number)
    · refine List.forall_mem_cons.2 ⟨⟨by omega, hnumber ▸ dvd_alignUp k cursor⟩, fun y hy => ?_⟩
      exact ⟨by have := (hall y hy).1; omega, (hall y hy).2⟩

/-- Numbers increase in the order of the file. -/
theorem StandFrom.pairwise {offset count : Nat} {xs : List (Standing k)}
    (h : StandFrom image keeps offset count xs) : (xs.map (·.number)).Pairwise (· < ·) := by
  cases hk : k.isIndexed with
  | true => exact h.numbers hk ▸ List.pairwise_lt_range
  | false =>
    obtain ⟨finish, hchain⟩ := h.chain
    exact (le_of_chain hk hchain).1

/-- An image determines the items that stand one after the other. -/
theorem StandFrom.unique {offset count : Nat} {xs xs' : List (Standing k)}
    (h : StandFrom image keeps offset count xs) (h' : StandFrom image keeps offset count xs') :
    xs = xs' := by
  have hnumbers : k.isIndexed = true → xs.map (·.number) = xs'.map (·.number) := fun hk =>
    (h.numbers hk).trans (h'.numbers hk).symm
  have hlen : xs.length = xs'.length := h.length.trans h'.length.symm
  obtain ⟨finish, hchain⟩ := h.chain
  obtain ⟨finish', hchain'⟩ := h'.chain
  clear h h'
  induction xs generalizing xs' offset with
  | nil => exact (List.length_eq_zero_iff.1 hlen.symm).symm
  | cons x xs ih =>
    obtain ⟨x', xs', rfl⟩ := List.exists_cons_of_length_eq_add_one hlen.symm
    obtain ⟨next, hx, hxs⟩ := hchain
    obtain ⟨next', hx', hxs'⟩ := hchain'
    obtain ⟨rfl, rfl⟩ : x = x' ∧ next = next' := by
      refine hx.unique hx' fun hk => ?_
      exact List.head_eq_of_cons_eq (hnumbers hk)
    rw [ih (fun hk => List.tail_eq_of_cons_eq (hnumbers hk)) (Nat.succ.inj hlen) hxs hxs']

/-! ### Tables -/

theorem exists_standing_of_chain {offset finish : Nat} {xs : List (Content k)}
    (hk : k.isIndexed = true) (base : Nat)
    (h : Chain (Content.StandsAt image keeps k) offset xs finish) :
    ∃ ys : List (Standing k), Chain (Standing.Follows image keeps) offset ys finish ∧
      ys.map (·.number) = List.range' base xs.length ∧ ys.map (·.content) = xs := by
  induction xs generalizing offset base with
  | nil => exact ⟨[], h, rfl, rfl⟩
  | cons x xs ih =>
    obtain ⟨next, hx, hxs⟩ := h
    obtain ⟨ys, hys, hnumbers, hcontents⟩ := ih (base + 1) hxs
    refine ⟨⟨base, x⟩ :: ys, ⟨next, ?_, hys⟩, ?_, ?_⟩
    · rwa [Standing.Follows, if_pos hk]
    · rw [List.map_cons, hnumbers, List.length_cons, List.range'_succ]
    · rw [List.map_cons, hcontents]

theorem StandFrom.getElem? {offset count : Nat} {xs : List (Standing k)} {x : Standing k}
    (h : StandFrom image keeps offset count xs) (hk : k.isIndexed = true) (hx : x ∈ xs) :
    xs[x.number]? = some x := by
  obtain ⟨i, hi⟩ := List.mem_iff_getElem?.1 hx
  have hnumber : (List.range count)[i]? = some x.number := by
    rw [← h.numbers hk, List.getElem?_map, hi]
    rfl
  obtain ⟨hlt, hnumber⟩ := List.getElem?_eq_some_iff.1 hnumber
  rwa [← hnumber, List.getElem_range]

theorem blind_decodeIndexed (hk : k.isIndexed = true) (count : Nat) (s : Source) :
    BlindAt s (fun _ => decodeIndexed k count) fun _ a hs => ∃ xs : List (Standing k),
      StandFrom s.image s.keepsSigned s.position count xs ∧ hs = xs.flatMap Standing.met ∧
        ∀ ρ, (∀ h : Handle k, ρ k h = h) → (a ρ).Lists ρ xs := by
  refine (BlindAt.position s).bind fun n a hs ⟨hn, ha⟩ => ?_
  cases ha
  subst hn
  refine (BlindAt.timesOnto (P := fun n m x => ∃ c, Content.StandsAt s.image s.keepsSigned k n m c ∧
    x = (fun ρ => Content.rename ρ k c, Content.handles k c)) (fun n => Content.blindAt k _) count
      fun _ => []).bind fun m a hs ⟨cs, hlen, hchain, ha, hhs⟩ => ?_
  obtain ⟨cs, hcs, rfl⟩ := hchain.exists_map fun _ _ _ h => h
  obtain ⟨xs, hxs, hnumbers, rfl⟩ := exists_standing_of_chain hk 0 hcs
  have hcount : xs.length = count := by simpa using hlen
  rw [List.length_map, hcount, ← List.range_eq_range'] at hnumbers
  have hstand : StandFrom s.image s.keepsSigned s.position count xs :=
    ⟨hcount, fun _ => hnumbers, m, hxs⟩
  refine (BlindAt.position _).bind fun finish b hs' ⟨hfinish, hb⟩ => .pure ⟨xs, hstand, ?_, ?_⟩
  · cases hb
    have hmet : Standing.met (k := k) = fun x => Content.handles k x.content := by
      funext x
      rw [Standing.met, if_pos hk, List.append_nil]
    simp [hhs, hmet, List.flatMap_map]
  · intro ρ hρ
    cases hb
    have hnumber : ∀ x ∈ xs, x.number < count := fun x hx => by
      rw [← hcount]
      exact (List.getElem?_eq_some_iff.1 (hstand.getElem? hk hx)).1
    refine ⟨by simp [size, ha], ?_, fun x hx => ?_, fun x hx => ?_⟩
    · rw [handles, Array.toList_range, ← hnumbers, List.map_map]
      exact List.map_congr_left fun x _ => (hρ _).symm
    · have hitem : (a ρ).toArray[x.number]? = some (Content.rename ρ k x.content) := by
        simp [ha, hstand.getElem? hk hx]
      rwa [hρ]
    · simp [hρ, Section.position?, hnumber x hx]

/-! ### Data sections -/

/-- The item as it is found, in the slot of its offset. -/
def Standing.found (ρ : Renaming) (x : Standing k) : Found k :=
  ⟨(ρ k ⟨x.number⟩).id, x.number, Content.rename ρ k x.content⟩

theorem blind_align (k : Kind) (s : Source) : BlindAt s (fun _ => Decoder.align k.alignment)
    fun n a hs => n = alignUp s.position k.alignment ∧ (a, hs) = (fun _ => (), []) := by
  by_cases h : alignUp s.position k.alignment ≤ s.image.size
  · exact .inl ⟨_, _, [], [], ⟨rfl, rfl⟩, .nil, fun r _ _ => if_pos h⟩
  · refine .inr ⟨.unexpectedEnd (alignUp s.position k.alignment)
      (alignUp s.position k.alignment - s.image.size), [], id, fun r _ _ => ⟨_, if_neg h⟩⟩

theorem blind_decodeFound (hk : k.isIndexed = false) (s : Source) :
    BlindAt s (fun _ => decodeFound k) fun n a hs => ∃ x : Standing k,
      x.Follows s.image s.keepsSigned s.position n ∧
        (a, hs) = (fun ρ => x.found ρ, x.met) := by
  refine (blind_align k s).bind fun n a hs ⟨hstart, ha⟩ => ?_
  cases ha
  refine (BlindAt.position _).bind fun start a hs ⟨hn, ha⟩ => ?_
  cases ha
  subst hn
  refine (Content.blindAt k _).bind fun m a hs ⟨x, hx, ha⟩ => ?_
  cases ha
  refine (BlindAt.offset hk start _).bind fun n a hs ⟨hn, ha⟩ => .pure ⟨⟨start, x⟩, ?_, ?_⟩
  · cases ha
    subst hn
    rw [Standing.Follows, if_neg (by simp [hk])]
    exact ⟨hstart, hx⟩
  · cases ha
    simp [Standing.found, Standing.met, hk]

theorem blind_times_decodeFound (hk : k.isIndexed = false) (count : Nat) (s : Source) :
    BlindAt s (fun _ => Decoder.times count (decodeFound k)) fun _ a hs =>
      ∃ xs : List (Standing k), StandFrom s.image s.keepsSigned s.position count xs ∧
        (a, hs) = (fun ρ => xs.map (·.found ρ), xs.flatMap Standing.met) := by
  refine (BlindAt.timesOnto (P := fun n m y => ∃ x : Standing k,
    x.Follows s.image s.keepsSigned n m ∧ y = (fun ρ => x.found ρ, x.met))
      (fun n => blind_decodeFound hk _) count fun _ => []).mono ?_
  rintro n a _ ⟨ys, hlen, hchain, ha, rfl⟩
  obtain ⟨xs, hxs, rfl⟩ := hchain.exists_map fun _ _ _ h => h
  refine ⟨_, .refl _, xs, ⟨by simpa using hlen, fun hk' => ?_, n, hxs⟩, ?_⟩
  · rw [hk] at hk'
    cases hk'
  · obtain rfl := funext ha
    simp [List.flatMap_map, Function.comp_def]

theorem lists_sectionOf {xs : List (Standing k)} {ρ : Renaming} {placed : List (Found k)}
    (hplaced : ∀ x ∈ xs, placed[(x.found ρ).slot]? = some (x.found ρ))
    (hlen : placed.length = xs.length) (finish : Nat) :
    (sectionOf (xs.map (·.found ρ)) placed finish).Lists ρ xs := by
  refine ⟨by simp [sectionOf, size, hlen], ?_, fun x hx => ?_, fun x hx => ?_⟩
  · simp [sectionOf, handles, Standing.found]
  · have hx := hplaced x hx
    rw [get?, sectionOf, Array.getElem?_map, List.getElem?_toArray]
    exact congrArg (Option.map Found.content) hx
  · have hx := hplaced x hx
    rw [position?, sectionOf, Array.getElem?_map, List.getElem?_toArray]
    exact congrArg (fun o => (o.map fun y : Found k => some y.offset).getD none) hx

/-! ### Reading -/

/-- What reading `count` items comes to that stand from the position of the source on: the section
of these items, or the offset of a reference at which none of them starts. -/
inductive Outcome (s : Source) (k : Kind) (count : Nat) : Prop
  | failed (e : Fault) (t : Source) (not_isDangling : ¬e.IsDangling)
      (decode : decode k count s = .error e t)
  | read (xs : List (Standing k)) (y : Section k) (finish : Nat) (met : List AnyHandle)
      (stand : StandFrom s.image s.keepsSigned s.position count xs)
      (perm : met.Perm (xs.flatMap Standing.met))
      (decode : decode k count s =
        .ok y ⟨s.image, finish, s.references.meetAll met, s.keepsSigned⟩)
      (lists : ∀ ρ, (s.references.meetAll met).Names ρ → y.Lists ρ xs)
  | dangling (xs : List (Standing k)) (n : Nat) (met : List AnyHandle) (t : Source)
      (stand : StandFrom s.image s.keepsSigned s.position count xs)
      (perm : met.Perm (xs.flatMap Standing.met))
      (decode : decode k count s = .error (.danglingOffset k n) t)
      (slot : ∃ i, (s.references.meetAll met).slots[(k, n)]? = some i)
      (absent : ∀ x ∈ xs, x.number ≠ n)

theorem outcome_of_isIndexed (hk : k.isIndexed = true) (count : Nat) : Outcome s k count := by
  have hdecode : decode k count = decodeIndexed k count := if_pos hk
  rcases blind_decodeIndexed hk count s with
    ⟨n, y, _, met, ⟨xs, hxs, rfl, hlists⟩, hperm, hok⟩ | ⟨e, met, he, herror⟩
  · have hread := hok s.references _ (References.names_handleOf _)
    refine .read xs _ n met hxs hperm (hdecode ▸ hread) fun ρ hρ => ?_
    obtain ⟨hy, -⟩ := (EStateM.Result.ok.inj (hread.symm.trans (hok s.references ρ hρ)))
    rw [hy]
    exact hlists ρ (hρ.index hk)
  · obtain ⟨t, ht⟩ := herror s.references _ (References.names_handleOf _)
    exact .failed e t he (hdecode ▸ ht)

theorem decodeData_of_times {count : Nat} {found placed : List (Found k)} {t : Source}
    (h : Decoder.times count (decodeFound k) s = .ok found t)
    (hplaced : requireAll t.references (bySlot (t.references.slotCount k) found) = .ok placed) :
    decodeData k count s = .ok (sectionOf found placed t.position) t := by
  rw [decodeData, Decoder.bind_of_ok h]
  simp only [bind, EStateM.bind, Decoder.position, Decoder.references, hplaced, Decoder.ofExcept]
  rfl

theorem decodeData_of_times_error {count : Nat} {found : List (Found k)} {t : Source} {e : Fault}
    (h : Decoder.times count (decodeFound k) s = .ok found t)
    (herror : requireAll t.references (bySlot (t.references.slotCount k) found) = .error e) :
    decodeData k count s = .error e t := by
  rw [decodeData, Decoder.bind_of_ok h]
  simp only [bind, EStateM.bind, Decoder.position, Decoder.references, herror, Decoder.ofExcept]
  rfl

/-- An item that starts at an offset that was met takes its slot, so a slot without an item is that
of an offset at which none starts. -/
theorem outcome_of_times {count finish : Nat} {xs : List (Standing k)} {met : List AnyHandle}
    (hk : k.isIndexed = false) (hs : s.references.Sound)
    (hxs : StandFrom s.image s.keepsSigned s.position count xs)
    (hperm : met.Perm (xs.flatMap Standing.met))
    (hok : ∀ ρ, (s.references.meetAll met).Names ρ → Decoder.times count (decodeFound k) s =
      .ok (xs.map (·.found ρ)) ⟨s.image, finish, s.references.meetAll met, s.keepsSigned⟩) :
    Outcome s k count := by
  have hdecode : decode k count = decodeData k count := if_neg (by simp [hk])
  have hsound := hs.meetAll met
  obtain ⟨ρ, hρ⟩ : ∃ ρ, (s.references.meetAll met).Names ρ := ⟨_, References.names_handleOf _⟩
  have hrun := hok ρ hρ
  cases hplaced : requireAll (s.references.meetAll met)
      (bySlot ((s.references.meetAll met).slotCount k) (xs.map (·.found ρ))) with
  | ok placed =>
    refine .read xs _ finish met hxs hperm (hdecode ▸ decodeData_of_times hrun hplaced) ?_
    intro ρ' hρ'
    have hfound : xs.map (·.found ρ) = xs.map (·.found ρ') :=
      (EStateM.Result.ok.inj (hrun.symm.trans (hok ρ' hρ'))).1
    have hslots := perm_slot_of_times hk hrun hs hplaced
    obtain ⟨placed', hplaced', hlen, hget⟩ :=
      @requireAll_bySlot _ (s.references.meetAll met) _ _ hslots
    obtain rfl : placed = placed' := Except.ok.inj (hplaced.symm.trans hplaced')
    rw [hfound] at hget hslots ⊢
    refine lists_sectionOf (fun x hx => hget _ (List.mem_map_of_mem hx)) ?_ finish
    rw [hlen, ← List.length_range (n := (s.references.meetAll met).slotCount k),
      ← hslots.length_eq, List.length_map, List.length_map]
  | error e =>
    obtain ⟨i, hi, rfl, hfree⟩ :=
      exists_of_requireAll_bySlot (nodup_slot_of_times hk hrun hs) hplaced
    have hslot := (hsound.slot_iff k _ i).2 ⟨hi, rfl⟩
    refine .dangling xs _ met _ hxs hperm (hdecode ▸ decodeData_of_times_error hrun hplaced) ?_ ?_
    · exact ⟨i, hslot⟩
    · intro x hx hnumber
      have hmem : x.found ρ ∈ xs.map (·.found ρ) := List.mem_map_of_mem hx
      have htaken := (hsound.slot_iff k _ _).2 (slot_of_times hk hrun hs _ hmem)
      rw [show (x.found ρ).offset = _ from hnumber, hslot] at htaken
      exact hfree _ hmem (Option.some.inj htaken).symm

theorem outcome_of_data (hk : k.isIndexed = false) (hs : s.references.Sound) (count : Nat) :
    Outcome s k count := by
  rcases blind_times_decodeFound hk count s with
    ⟨finish, _, _, met, ⟨xs, hxs, ha⟩, hperm, hok⟩ | ⟨e, met, he, herror⟩
  · cases ha
    exact outcome_of_times hk hs hxs hperm fun ρ hρ => hok s.references ρ hρ
  · obtain ⟨t, ht⟩ := herror s.references _ (References.names_handleOf _)
    have hdecode : decode k count = decodeData k count := if_neg (by simp [hk])
    exact .failed e t he (hdecode ▸ Decoder.bind_of_error ht)

theorem outcome (hs : s.references.Sound) (k : Kind) (count : Nat) : Outcome s k count := by
  cases hk : k.isIndexed with
  | true => exact outcome_of_isIndexed hk count
  | false => exact outcome_of_data hk hs count

end Section

end DexContainer
