import DexContainer.Proofs.Reads.Primitives
import DexContainer.Proofs.Section.Accepting
import DexContainer.Proofs.Section.Writing

/-! Reading a section back. The items are found in file order at the offsets that they were written
at, and the numbers that they are given rename the handles that were written. Main statement:
`decode_of_contents`, a section that stands in an image as it was laid out is read as a copy of
itself. -/

namespace DexContainer

variable {k : Kind} {places : Places} {keeps : Bool} {given : Renaming → Prop} {p : Nat}
  {bs : Bytes} {ρ : Renaming}

theorem Reads.align (k : Kind) :
    Reads places keeps given p (Decoder.align k.alignment)
      (List.replicate (padding p k.alignment) 0) fun _ => () := by
  intro s tail hp hs hb _ hr _
  have hle := Section.le_alignUp k p
  have hlen : padding p k.alignment ≤ s.remaining := by
    rw [← Source.length_rest, hb, List.length_append, List.length_replicate]
    omega
  refine ⟨(), s.references, ?_, by rfl, hr, fun _ _ => rfl⟩
  refine Section.seek_eq_ok.2 ⟨?_, ?_⟩
  · rw [Source.remaining, padding] at hlen
    rw [hp]
    omega
  · have hposition : s.position + padding p k.alignment = alignUp s.position k.alignment := by
      rw [hp, padding]
      omega
    rw [List.length_replicate, Source.advance, hposition]

namespace Section

variable {s t : Section k}

/-- One section is a copy of another one: it holds what a reader sees of the items of the other,
with their handles renamed, in the same file order and at the same positions. -/
structure Copies (ρ : Renaming) (keeps : Bool) (s t : Section k) : Prop where
  order : t.order.toList = s.order.toList.map fun id => (ρ k ⟨id⟩).id
  items : ∀ id ∈ s.order.toList, t.get? (ρ k ⟨id⟩) =
    (s.get? ⟨id⟩).map fun x => Content.asRead keeps k (Content.rename ρ k x)
  positions : ∀ id ∈ s.order.toList, t.position? (ρ k ⟨id⟩) = s.position? ⟨id⟩
  size : t.items.size = s.items.size
  offset? : t.offset? = s.offset?
  byteSize : t.byteSize = s.byteSize

/-- What a copy holds of an item. -/
def CopyOf (ρ : Renaming) (keeps : Bool) (s : Section k) (id : Nat) (y : Content k) : Prop :=
  ∃ x, s.get? ⟨id⟩ = some x ∧ Content.asRead keeps k (Content.rename ρ k x) = y

/-- The items of a section can be written and read back. -/
def IsReadable (places : Places) (s : Section k) : Prop :=
  ∀ (h : Handle k) (x : Content k), s.get? h = some x →
    Content.IsEncodable k x ∧ Content.check k x = .ok () ∧ Each places.Numbers (Content.handles k x)

theorem reads_content {id : Nat} (hp : places.Bounded) (hs : s.IsReadable places)
    (h : s.bytesOf places id = .ok bs) (hlen : bs.length < 2 ^ 32) :
    ∃ x, s.get? ⟨id⟩ = some x ∧ Reads places keeps (fun _ => True) p (Content.decode k) bs
      fun ρ => Content.asRead keeps k (Content.rename ρ k x) := by
  obtain ⟨x, hx, hbs⟩ := bind_eq_ok.1 h
  have hx : s.get? ⟨id⟩ = some x := get_eq_ok.1 hx
  obtain ⟨hencodable, hcheck, hnumbers⟩ := hs _ x hx
  exact ⟨x, hx, Content.reads hp hencodable hcheck hnumbers hbs hlen⟩

theorem reads_decodeFound {id : Nat} (hk : k.isIndexed = false) (hp : places.Bounded)
    (hs : s.IsReadable places) (h : s.bytesOf places id = .ok bs) (hlen : bs.length < 2 ^ 32)
    (hposition : places.position? k ⟨id⟩ = some (alignUp p k.alignment)) :
    ∃ x, s.get? ⟨id⟩ = some x ∧ Reads places keeps (fun _ => True) p (decodeFound k)
      (List.replicate (padding p k.alignment) 0 ++ bs) fun ρ =>
        ⟨(ρ k ⟨id⟩).id, alignUp p k.alignment, Content.asRead keeps k (Content.rename ρ k x)⟩ := by
  obtain ⟨x, hx, hreads⟩ := reads_content (p := alignUp p k.alignment) hp hs h hlen
  have hle := le_alignUp k p
  have hstart : p + (List.replicate (padding p k.alignment) (0 : UInt8)).length =
      alignUp p k.alignment := by
    rw [List.length_replicate, padding]
    omega
  refine ⟨x, hx, (Reads.align k).bind_const ?_⟩
  rw [hstart]
  refine Reads.bind_position ?_
  rw [← List.append_nil bs]
  refine (hreads.mono fun _ _ => trivial).bind fun content hcontent => ?_
  refine (Reads.offset hk hposition).bind_nil fun slot _ => Reads.pure fun ρ hρ => ?_
  rw [hρ.1.2, hρ.2]

/-- What is found for an item: its slot, its offset and a copy of what it holds. -/
structure IsFound (places : Places) (ρ : Renaming) (keeps : Bool) (s : Section k) (id : Nat)
    (x : Found k) : Prop where
  slot : x.slot = (ρ k ⟨id⟩).id
  position : places.position? k ⟨id⟩ = some x.offset
  content : s.CopyOf ρ keeps id x.content

theorem all_decodeFound {ids : List Nat} {bss : List Bytes} (hk : k.isIndexed = false)
    (hp : places.Bounded) (hs : s.IsReadable places)
    (h : List.Forall₂ (fun id bs => s.bytesOf places id = .ok bs) ids bss)
    (hlen : ∀ bs ∈ bss, bs.length < 2 ^ 32)
    (hpositions : ids.map (fun id => places.position? k ⟨id⟩) =
      (startsFrom k p (bss.map List.length)).map some) :
    ∃ pieces as, Reads.All places keeps (decodeFound k) p pieces as ∧
      pieces.flatten = spanOf k p bss ∧ as.length = ids.length ∧
      ∀ ρ, List.Forall₂ (s.IsFound places ρ keeps) ids (as.map (· ρ)) := by
  induction h generalizing p with
  | nil => exact ⟨[], [], .nil, rfl, rfl, fun _ => .nil⟩
  | @cons id bs ids bss hbs _ ih =>
    rw [List.map_cons, List.map_cons, startsFrom, List.map_cons, List.cons_eq_cons] at hpositions
    obtain ⟨hposition, hpositions⟩ := hpositions
    obtain ⟨x, hx, hreads⟩ := reads_decodeFound hk hp hs hbs
      (hlen bs (List.mem_cons_self ..)) hposition
    obtain ⟨pieces, as, hall, hpieces, hcount, hfound⟩ :=
      ih (fun cs hcs => hlen cs (List.mem_cons_of_mem _ hcs)) hpositions
    have hle := le_alignUp k p
    have hnext : p + (List.replicate (padding p k.alignment) 0 ++ bs).length =
        alignUp p k.alignment + bs.length := by
      rw [List.length_append, List.length_replicate, padding]
      omega
    refine ⟨_ :: pieces, _ :: as, .cons hreads (hnext ▸ hall), ?_, by simp [hcount], fun ρ => ?_⟩
    · rw [List.flatten_cons, hpieces, spanOf]
    · exact .cons ⟨rfl, hposition, x, hx, rfl⟩ (hfound ρ)

/-- The section stands from an offset on as it was laid out, and its items can be read back from
their bytes. -/
structure IsWritten (places : Places) (p : Nat) (s : Section k) (bss : List Bytes) : Prop where
  wellFormed : s.WellFormed
  aligned : k.alignment ∣ p
  contents : s.contents places = .ok bss
  stands : s.Stands (layoutOf k p (bss.map List.length))
  readable : s.IsReadable places
  short : ∀ bs ∈ bss, bs.length < 2 ^ 32
  positions : ∀ h : Handle k, places.position? k h = s.position? h

section IsWritten

variable {bss : List Bytes} {src : Source} {tail : Bytes}

theorem IsWritten.length (h : s.IsWritten places p bss) : bss.length = s.items.size := by
  rw [length_of_mapM h.contents, h.wellFormed.length_order]

theorem IsWritten.positionsInOrder (h : s.IsWritten places p bss) (hk : k.isIndexed = false) :
    s.order.toList.map (fun id => places.position? k ⟨id⟩) =
      (startsFrom k p (bss.map List.length)).map some := by
  have hstands := h.stands.positions
  simp only [h.positions, ← positionsInOrder_eq, hstands, layoutOf, hk]
  cases bss with
  | nil => rfl
  | cons bs bss => simp [startsFrom_alignUp]

theorem IsWritten.mem_order (h : s.IsWritten places p bss) {x : Handle k} {n : Nat}
    (hx : places.position? k x = some n) : x.id ∈ s.order.toList := by
  rw [h.positions] at hx
  exact h.wellFormed.mem_order.2 (h.wellFormed.lt_of_position? hx)

/-- Every item has its slot, so the slots are the numbers of the items. -/
theorem IsWritten.perm_slots (h : s.IsWritten places p bss) {r : References}
    {found : List (Found k)} (hr : r.Tracks places)
    (hfound : List.Forall₂ (s.IsFound places ρ keeps) s.order.toList found)
    (hslots : ∀ x ∈ found, r.slots[(k, x.offset)]? = some x.slot)
    (hpairwise : (found.map (·.offset)).Pairwise (· < ·)) :
    r.Covers places k ∧ (found.map (·.slot)).Perm (List.range (r.slotCount k)) := by
  have hmem : ∀ (x : Handle k) (o : Nat), places.position? k x = some o →
      ∃ y ∈ found, y.offset = o := by
    intro x o hx
    obtain ⟨i, hi, hid⟩ := List.getElem_of_mem (h.mem_order hx)
    have hlt : i < found.length := hfound.length_eq ▸ hi
    have hy := (hfound.get hi hlt).position
    simp only [List.get_eq_getElem, hid] at hy
    exact ⟨found[i], List.getElem_mem hlt, Option.some.inj (hy.symm.trans hx)⟩
  constructor
  · intro x o hx
    obtain ⟨y, hy, rfl⟩ := hmem x o hx
    exact ⟨_, hslots y hy⟩
  · let pairs := found.map fun x => (x.offset, x.slot)
    have := @References.perm_slots _ k pairs hr.sound
    simp only [pairs, List.map_map, Function.comp_def, List.forall_mem_map] at this
    refine this hslots (fun o i hoi => ?_) (hpairwise.imp Nat.ne_of_lt)
    obtain ⟨x, hx⟩ := hr.exists_of_slot k o i hoi
    obtain ⟨y, hy, rfl⟩ := hmem x o hx
    exact List.mem_map_of_mem hy

/-- The first item starts where the section does. -/
theorem IsWritten.head_found (h : s.IsWritten places p bss) (hk : k.isIndexed = false)
    {found : List (Found k)}
    (hfound : List.Forall₂ (s.IsFound places ρ keeps) s.order.toList found) :
    bss = [] ∧ found = [] ∨ bss ≠ [] ∧ ∃ x, found.head? = some x ∧ x.offset = p := by
  have hlength := h.length
  have hpositions := h.positionsInOrder hk
  rw [← h.wellFormed.length_order] at hlength
  revert hfound hpositions hlength
  generalize s.order.toList = ids
  intro hfound hlength hpositions
  cases hfound with
  | nil => exact .inl ⟨List.eq_nil_of_length_eq_zero hlength, rfl⟩
  | @cons id x ids found hx _ =>
    cases bss with
    | nil => cases hlength
    | cons bs bss =>
      rw [List.map_cons, List.map_cons, startsFrom, List.map_cons, List.cons_eq_cons] at hpositions
      have hoffset := hx.position.symm.trans hpositions.1
      rw [alignUp_of_dvd h.aligned] at hoffset
      exact .inr ⟨List.cons_ne_nil _ _, x, rfl, Option.some.inj hoffset⟩

/-- The section of the items that were found, whose reader stands at `finish`. -/
def sectionOf (found placed : List (Found k)) (finish : Nat) : Section k :=
  let items := placed.toArray.map (·.content)
  { items, order := (found.map (·.slot)).toArray
    positions := placed.toArray.map fun x => some x.offset
    index := indexOf items, offset? := found.head?.map (·.offset)
    byteSize :=
      match found.head? with
      | none => 0
      | some x => finish - x.offset }

theorem IsWritten.copies (h : s.IsWritten places p bss) (hk : k.isIndexed = false)
    {found placed : List (Found k)}
    (hfound : List.Forall₂ (s.IsFound places ρ keeps) s.order.toList found)
    (hplaced : ∀ x ∈ found, placed[x.slot]? = some x) (hlen : placed.length = found.length) :
    s.Copies ρ keeps (sectionOf found placed (finishFrom k p (bss.map List.length))) := by
  have hfind : ∀ id ∈ s.order.toList, ∃ x ∈ found, s.IsFound places ρ keeps id x := by
    intro id hid
    obtain ⟨i, hi, rfl⟩ := List.getElem_of_mem hid
    have hlt : i < found.length := hfound.length_eq ▸ hi
    exact ⟨found[i], List.getElem_mem hlt, by simpa using hfound.get hi hlt⟩
  constructor
  · have hslots : List.Forall₂ (· = ·) (found.map (·.slot))
        (s.order.toList.map fun id => (ρ k ⟨id⟩).id) := by
      rw [List.forall₂_map_left_iff, List.forall₂_map_right_iff]
      exact List.Forall₂.flip (hfound.imp fun _ _ h => h.slot)
    rwa [List.forall₂_eq_eq_eq] at hslots
  · intro id hid
    obtain ⟨x, hx, hslot, -, y, hy, hcopy⟩ := hfind id hid
    rw [get?, sectionOf, Array.getElem?_map, List.getElem?_toArray, ← hslot, hplaced x hx, hy]
    exact congrArg some hcopy.symm
  · intro id hid
    obtain ⟨x, hx, hslot, hposition, -⟩ := hfind id hid
    rw [← h.positions, hposition]
    rw [position?, sectionOf, Array.getElem?_map, List.getElem?_toArray, ← hslot, hplaced x hx]
    rfl
  · simp only [sectionOf, Array.size_map, List.size_toArray, hlen, ← hfound.length_eq]
    exact h.wellFormed.length_order
  · rw [h.stands.offset?]
    rcases h.head_found hk hfound with ⟨rfl, rfl⟩ | ⟨hne, x, hx, hoffset⟩
    · rfl
    · simp [sectionOf, hx, hoffset, layoutOf, hne, alignUp_of_dvd h.aligned]
  · rw [h.stands.byteSize]
    rcases h.head_found hk hfound with ⟨rfl, rfl⟩ | ⟨hne, x, hx, hoffset⟩
    · rfl
    · simp [sectionOf, hx, hoffset, layoutOf, hne, alignUp_of_dvd h.aligned]

theorem decodeData_of_contents (h : s.IsWritten places p bss) (hk : k.isIndexed = false)
    (hp : places.Bounded) (hposition : src.position = p) (hle : p ≤ src.image.size)
    (hrest : src.rest = spanOf k p bss ++ tail) (hr : src.references.Tracks places) :
    ∃ t q r, decodeData k s.items.size src = .ok t { src with position := q, references := r } ∧
      src.references ≤ r ∧ r.Tracks places ∧ r.Covers places k ∧
      ∀ ρ, r.Gives places ρ → s.Copies ρ src.keepsSigned t := by
  obtain ⟨pieces, as, hall, hpieces, hcount, hfound⟩ := all_decodeFound
    hk hp h.readable (mapM_eq_ok.1 h.contents) h.short (h.positionsInOrder hk)
  rw [h.wellFormed.length_order] at hcount
  obtain ⟨found, r, hrun, hle', hr', hgives⟩ := Reads.times hall src tail
    hposition (hposition ▸ hle) (hpieces ▸ hrest) rfl hr fun _ _ => trivial
  rw [hcount, hpieces] at hrun
  have hslots := ((Yields.times (yields_decodeFound hk) _ src found _ hrun rfl hr.sound
    fun _ _ => trivial).2 r (by rfl)).2
  have hfound : ∀ ρ, r.Gives places ρ →
      List.Forall₂ (s.IsFound places ρ src.keepsSigned) s.order.toList found :=
    fun ρ hρ => hgives ρ hρ ▸ hfound ρ
  obtain ⟨hcovers, hperm⟩ := h.perm_slots hr' (hfound _ (r.gives_handlesRead places))
    (fun x hx => (hslots x hx).1)
    (pairwise_offset_of_times hk hrun hr.sound)
  obtain ⟨placed, hrequire, hlen, hplaced⟩ := @requireAll_bySlot _ r _ _ hperm
  have hlen : placed.length = found.length := by
    have := hperm.length_eq
    rw [List.length_map, List.length_range] at this
    rw [hlen, this]
  have hfinish : src.position + (spanOf k p bss).length = finishFrom k p (bss.map List.length) := by
    rw [hposition, length_spanOf]
  refine ⟨sectionOf found placed (finishFrom k p (bss.map List.length)),
    src.position + (spanOf k p bss).length, r, ?_, hle', hr', hcovers,
    fun ρ hρ => h.copies hk (hfound ρ hρ) hplaced hlen⟩
  rw [decodeData, Decoder.bind_of_ok hrun, ← hfinish]
  simp only [bind, EStateM.bind, Decoder.position, Decoder.references, hrequire, Decoder.ofExcept]
  rfl

/-! ### Indexed sections -/

theorem all_content {ids : List Nat} (hp : places.Bounded) (hs : s.IsReadable places)
    (h : List.Forall₂ (fun id bs => s.bytesOf places id = .ok bs) ids bss)
    (hlen : ∀ bs ∈ bss, bs.length < 2 ^ 32) :
    ∃ as, Reads.All places keeps (Content.decode k) p bss as ∧ as.length = ids.length ∧
      ∀ ρ, List.Forall₂ (s.CopyOf ρ keeps) ids (as.map (· ρ)) := by
  induction h generalizing p with
  | nil => exact ⟨[], .nil, rfl, fun _ => .nil⟩
  | @cons id bs ids bss hbs _ ih =>
    obtain ⟨x, hx, hreads⟩ := reads_content (p := p) hp hs hbs
      (hlen bs (List.mem_cons_self ..))
    obtain ⟨as, hall, hcount, hcopies⟩ := ih (p := p + bs.length)
      fun cs hcs => hlen cs (List.mem_cons_of_mem _ hcs)
    exact ⟨_ :: as, .cons hreads hall, by simp [hcount], fun ρ => .cons ⟨x, hx, rfl⟩ (hcopies ρ)⟩

theorem IsWritten.position?_of_isIndexed (h : s.IsWritten places p bss) (hk : k.isIndexed = true)
    {i : Nat} (hi : i < s.order.toList.length) :
    places.position? k ⟨s.order.toList[i]⟩ = some i := by
  rw [h.positions]
  refine h.stands.position?_of_isIndexed hk ?_ hi
  rw [List.length_map, h.length, ← h.wellFormed.length_order, Array.length_toList]

/-- The section of the items that were read one after the other. -/
def indexedSection (items : List (Content k)) (count start finish : Nat) : Section k :=
  { items := items.toArray, order := Array.range count
    positions := (Array.range count).map some, index := indexOf items.toArray
    offset? := if count = 0 then none else some start
    byteSize := if count = 0 then 0 else finish - start }

theorem IsWritten.copies_indexed (h : s.IsWritten places p bss) (hk : k.isIndexed = true)
    {items : List (Content k)} {r : References}
    (hitems : List.Forall₂ (s.CopyOf ρ keeps) s.order.toList items) (hρ : r.Gives places ρ) :
    s.Copies ρ keeps
      (indexedSection items s.items.size p (finishFrom k p (bss.map List.length))) := by
  have hlength := h.length
  have hcount := h.wellFormed.length_order
  have hnumber : ∀ (i : Nat) (hi : i < s.order.toList.length), ρ k ⟨s.order.toList[i]⟩ = ⟨i⟩ := by
    intro i hi
    have := hρ k _ i (h.position?_of_isIndexed hk hi)
    rwa [if_pos hk] at this
  constructor
  · apply List.ext_getElem
    · simp [indexedSection, ← hcount]
    · intro i hi hi'
      have hi' : i < s.order.toList.length := by simpa using hi'
      simp only [indexedSection, List.getElem_map, hnumber i hi']
      simp
  · intro id hid
    obtain ⟨i, hi, rfl⟩ := List.getElem_of_mem hid
    have hlt : i < items.length := hitems.length_eq ▸ hi
    obtain ⟨x, hx, hcopy⟩ := hitems.get hi hlt
    simp only [List.get_eq_getElem] at hx hcopy
    rw [hnumber i hi, hx, Option.map_some, hcopy, get?, indexedSection, List.getElem?_toArray,
      List.getElem?_eq_getElem hlt]
  · intro id hid
    obtain ⟨i, hi, rfl⟩ := List.getElem_of_mem hid
    rw [hnumber i hi, ← h.positions, h.position?_of_isIndexed hk hi]
    have hlt : i < s.order.size := by simpa using hi
    simp [position?, indexedSection, ← hcount, hlt]
  · simp [indexedSection, ← hcount, hitems.length_eq]
  · rw [h.stands.offset?, indexedSection, layoutOf, ← hlength]
    cases bss with
    | nil => rfl
    | cons bs bss => simp [alignUp_of_dvd h.aligned]
  · rw [h.stands.byteSize, indexedSection, layoutOf, ← hlength]
    cases bss with
    | nil => rfl
    | cons bs bss => simp [alignUp_of_dvd h.aligned]

theorem decodeIndexed_of_contents (h : s.IsWritten places p bss) (hk : k.isIndexed = true)
    (hp : places.Bounded) (hposition : src.position = p) (hle : p ≤ src.image.size)
    (hrest : src.rest = bss.flatten ++ tail) (hr : src.references.Tracks places)
    (hspan : spanOf k p bss = bss.flatten) :
    ∃ t q r, decodeIndexed k s.items.size src = .ok t { src with position := q, references := r } ∧
      src.references ≤ r ∧ r.Tracks places ∧
      ∀ ρ, r.Gives places ρ → s.Copies ρ src.keepsSigned t := by
  obtain ⟨as, hall, hcount, hcopies⟩ := all_content (p := p) hp
    h.readable (mapM_eq_ok.1 h.contents) h.short
  rw [h.wellFormed.length_order] at hcount
  obtain ⟨items, r, hrun, hle', hr', hgives⟩ := Reads.times hall src tail
    hposition (hposition ▸ hle) hrest rfl hr fun _ _ => trivial
  rw [hcount] at hrun
  have hcopies : ∀ ρ, r.Gives places ρ →
      List.Forall₂ (s.CopyOf ρ src.keepsSigned) s.order.toList items :=
    fun ρ hρ => hgives ρ hρ ▸ hcopies ρ
  have hfinish : src.position + bss.flatten.length = finishFrom k p (bss.map List.length) := by
    rw [hposition, ← hspan, length_spanOf]
  refine ⟨indexedSection items s.items.size p (finishFrom k p (bss.map List.length)),
    src.position + bss.flatten.length, r, ?_, hle', hr', fun ρ hρ => ?_⟩
  · have hstart : Decoder.position src = .ok p src := by rw [Decoder.position, hposition]
    rw [decodeIndexed, Decoder.bind_of_ok hstart, Decoder.bind_of_ok hrun, ← hfinish]
    rfl
  · exact h.copies_indexed hk (hcopies ρ hρ) hρ

/-- The header and the map are alone, and the entries of a table end at aligned offsets. -/
theorem IsWritten.spanOf_eq_flatten (h : s.IsWritten places p bss) (hk : k.isIndexed = true)
    (hsingle : k.isSingleton = true → s.items.size = 1) : spanOf k p bss = bss.flatten := by
  rcases Kind.isSingleton_or_entrySize? hk with hsingleton | ⟨n, hn, hdvd⟩
  · have hlength := h.length
    rw [hsingle hsingleton] at hlength
    obtain ⟨bs, rfl⟩ := List.length_eq_one_iff.1 hlength
    simp [spanOf, padding, alignUp_of_dvd h.aligned]
  · refine Section.spanOf_eq_flatten h.aligned fun bs hbs => ?_
    obtain ⟨id, -, hid⟩ := exists_of_mem_mapM h.contents hbs
    obtain ⟨x, -, hx⟩ := bind_eq_ok.1 hid
    have hsize := Content.size_of_write hx
    rw [Content.size_of_entrySize? hn] at hsize
    cases hsize
    exact hdvd

/-- A section that stands in an image as it was laid out is read as a copy of itself. -/
theorem IsWritten.decode_of_contents (h : s.IsWritten places p bss) (hp : places.Bounded)
    (hsingle : k.isSingleton = true → s.items.size = 1) (hposition : src.position = p)
    (hle : p ≤ src.image.size) (hrest : src.rest = spanOf k p bss ++ tail)
    (hr : src.references.Tracks places) :
    ∃ t q r, decode k s.items.size src = .ok t { src with position := q, references := r } ∧
      src.references ≤ r ∧ r.Tracks places ∧ (k.isIndexed = false → r.Covers places k) ∧
      ∀ ρ, r.Gives places ρ → s.Copies ρ src.keepsSigned t := by
  rw [decode]
  split
  · rename_i hk
    have hspan := h.spanOf_eq_flatten hk hsingle
    obtain ⟨t, q, r, hrun, hle', hr', hcopies⟩ :=
      decodeIndexed_of_contents h hk hp hposition hle (hspan ▸ hrest) hr hspan
    refine ⟨t, q, r, hrun, hle', hr', fun hk' => ?_, hcopies⟩
    rw [hk] at hk'
    cases hk'
  · rename_i hk
    rw [Bool.not_eq_true] at hk
    obtain ⟨t, q, r, hrun, hle', hr', hcovers, hcopies⟩ :=
      decodeData_of_contents h hk hp hposition hle hrest hr
    exact ⟨t, q, r, hrun, hle', hr', fun _ => hcovers, hcopies⟩

end IsWritten

end Section

end DexContainer
