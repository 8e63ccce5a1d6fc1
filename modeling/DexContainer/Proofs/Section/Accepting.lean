import DexContainer.Proofs.Section.Slots
import DexContainer.Proofs.Yields

/-! What a section that was read is like. Every item takes at least one byte, so no two items of a
data section start at one offset and share a slot. Main statement: `yields_decode`, the file order
of a section that was read lists every item once, and its items refer only to what was met. -/

namespace DexContainer

variable {k : Kind} {keeps : Bool} {given : References → Prop} {s t : Source}

namespace Section

/-- The section holds together and so do its items; the items of an indexed section stand in the
order of their numbers. -/
structure IsAccepted (keeps : Bool) (r : References) (s : Section k) : Prop where
  wellFormed : s.WellFormed
  items : ∀ (h : Handle k) (x : Content k), s.get? h = some x → Content.IsAccepted keeps r k x
  order : k.isIndexed = true → s.order = Array.range s.items.size
  positions : k.isIndexed = true → ∀ (h : Handle k) (n : Nat), s.position? h = some n → n = h.id
  index : k.isSingleton = false → s.index = indexOf s.items

theorem isAccepted_empty (r : References) : ({} : Section k).IsAccepted keeps r := by
  refine ⟨wellFormed_empty, fun h x hx => ?_, fun _ => rfl, fun _ h n hn => ?_, fun _ => rfl⟩
  · exact absurd hx (by simp [get?])
  · exact absurd hn (by simp [position?])

theorem seek_eq_ok {position : Nat} {u : Unit} :
    Decoder.seek position s = .ok u t ↔
      position ≤ s.image.size ∧ t = { s with position := position } := by
  rw [Decoder.seek]
  split
  · rename_i h
    simp [h, eq_comm]
  · rename_i h
    simp [h]

theorem yields_align (k : Kind) :
    Yields keeps given 0 (Decoder.align k.alignment) fun _ _ => True := by
  intro s u t h _ hs _
  obtain ⟨-, rfl⟩ := seek_eq_ok.1 (h : Decoder.seek _ s = _)
  exact ⟨⟨rfl, rfl, le_alignUp k s.position, by rfl, hs⟩, fun _ _ => trivial⟩

theorem yields_decodeFound (hk : k.isIndexed = false) :
    Yields keeps (fun _ => True) 0 (decodeFound k) fun r x =>
      r.slots[(k, x.offset)]? = some x.slot ∧ Content.IsAccepted keeps r k x.content := by
  refine (yields_align k).bind fun _ _ => ?_
  refine Yields.position.bind fun offset _ => ?_
  refine ((Content.yields keeps k).given_of fun _ _ => trivial).bind_tail fun content _ => ?_
  exact (Yields.slot hk offset).bind fun h _ => Yields.pure fun r hr => ⟨hr.2, hr.1.2⟩

theorem offset_of_decodeFound {x : Found k} (h : decodeFound k s = .ok x t)
    (hk : s.keepsSigned = keeps) (hs : s.references.Sound) :
    s.position ≤ x.offset ∧ x.offset < t.position := by
  obtain ⟨u, s1, halign, h⟩ := Decoder.exists_of_bind h
  obtain ⟨offset, s2, hoffset, h⟩ := Decoder.exists_of_bind h
  obtain ⟨content, s3, hcontent, h⟩ := Decoder.exists_of_bind h
  obtain ⟨slot, s4, hslot, h⟩ := Decoder.exists_of_bind h
  cases h
  cases hslot
  cases hoffset
  obtain ⟨lead, -⟩ := yields_align k s u s1 halign hk hs fun _ _ => trivial
  obtain ⟨lead', -⟩ := Content.yields keeps k s1 content s3 hcontent (lead.keepsSigned.trans hk)
    lead.sound fun _ _ => trivial
  exact ⟨lead.position, lead'.position⟩

/-- Items that are read one after the other start at increasing offsets. -/
theorem pairwise_offset_of_times {count : Nat} {found : List (Found k)} (hk : k.isIndexed = false)
    (h : Decoder.times count (decodeFound k) s = .ok found t) (hs : s.references.Sound) :
    (found.map (·.offset)).Pairwise (· < ·) := by
  suffices honto : ∀ read, Decoder.timesOnto (decodeFound k) count read s = .ok found t →
      ∃ xs, found = read.reverse ++ xs ∧ (xs.map (·.offset)).Pairwise (· < ·) ∧
        ∀ x ∈ xs, s.position ≤ x.offset by
    obtain ⟨xs, rfl, hxs, -⟩ := honto [] h
    simpa using hxs
  clear h
  induction count generalizing s with
  | zero =>
    intro read h
    cases h
    exact ⟨[], by simp⟩
  | succ count ih =>
    intro read h
    obtain ⟨x, s1, hx, h⟩ := Decoder.exists_of_bind h
    obtain ⟨hle, hlt⟩ := offset_of_decodeFound hx rfl hs
    obtain ⟨lead, -⟩ := yields_decodeFound hk s x s1 hx rfl hs fun _ _ => trivial
    obtain ⟨xs, rfl, hpairwise, hxs⟩ := ih lead.sound (x :: read) h
    refine ⟨x :: xs, by simp, ?_, ?_⟩
    · refine .cons (fun offset hoffset => ?_) hpairwise
      obtain ⟨y, hy, rfl⟩ := List.mem_map.1 hoffset
      exact Nat.lt_of_lt_of_le hlt (hxs y hy)
    · intro y hy
      rcases List.mem_cons.1 hy with rfl | hy
      · exact hle
      · have := hxs y hy
        omega

theorem yields_decodeIndexed (count : Nat) :
    Yields keeps given 0 (decodeIndexed k count) fun r s =>
      s.IsAccepted keeps r ∧ s.items.size = count := by
  refine Yields.position.bind fun start _ => ?_
  refine (Yields.times (Content.yields keeps k) count).bind fun items hitems => ?_
  obtain ⟨_, -, hlen, -⟩ := hitems
  refine Yields.position.bind fun finish _ => Yields.pure fun r hr => ?_
  have hsize : items.toArray.size = count := by simpa using hlen
  refine ⟨⟨⟨?_, ?_⟩, fun h x hx => ?_, fun _ => ?_, fun _ h n hn => ?_, fun _ => rfl⟩, hsize⟩
  · simp [hlen]
  · simp [hlen]
  · have hmem := List.mem_of_getElem? ((List.getElem?_toArray ..).symm.trans hx)
    exact hr.1.2.2 x hmem
  · simp [hlen]
  · rw [position?_eq_some_iff, Array.getElem?_map] at hn
    obtain ⟨m, hm, hmn⟩ := Option.map_eq_some_iff.1 hn
    obtain ⟨hlt, hid⟩ := Array.getElem?_eq_some_iff.1 hm
    rw [Array.getElem_range] at hid
    rw [← Option.some.inj hmn, hid]

/-- The slot of an item stands for its offset. -/
theorem slot_of_times {count : Nat} {found : List (Found k)} (hk : k.isIndexed = false)
    (h : Decoder.times count (decodeFound k) s = .ok found t) (hs : s.references.Sound) :
    ∀ x ∈ found, x.slot < t.references.slotCount k ∧
      t.references.slotOffset k x.slot = x.offset := by
  obtain ⟨lead, hfound⟩ := Yields.times (yields_decodeFound hk) count s found t h rfl hs
    fun _ _ => trivial
  have hslots := (hfound t.references (by rfl)).2
  exact fun x hx => (lead.sound.slot_iff k x.offset x.slot).1 (hslots x hx).1

/-- No two items share a slot. -/
theorem nodup_slot_of_times {count : Nat} {found : List (Found k)} (hk : k.isIndexed = false)
    (h : Decoder.times count (decodeFound k) s = .ok found t) (hs : s.references.Sound) :
    (found.map (·.slot)).Nodup := by
  have hmap : (found.map (·.slot)).map (t.references.slotOffset k) = found.map (·.offset) := by
    rw [List.map_map]
    exact List.map_congr_left fun x hx => (slot_of_times hk h hs x hx).2
  apply List.Nodup.of_map (t.references.slotOffset k)
  rw [hmap]
  exact (pairwise_offset_of_times hk h hs).imp Nat.ne_of_lt

/-- No two items share a slot, and every slot met so far has its item. -/
theorem perm_slot_of_times {count : Nat} {found placed : List (Found k)} (hk : k.isIndexed = false)
    (h : Decoder.times count (decodeFound k) s = .ok found t) (hs : s.references.Sound)
    (hplaced : requireAll t.references (bySlot (t.references.slotCount k) found) = .ok placed) :
    (found.map (·.slot)).Perm (List.range (t.references.slotCount k)) := by
  obtain ⟨hlen, hget⟩ := of_requireAll_bySlot hplaced
  apply perm_range_of_nodup (nodup_slot_of_times hk h hs)
  intro i
  constructor
  · intro hi
    obtain ⟨x, hx, rfl⟩ := List.mem_map.1 hi
    exact (slot_of_times hk h hs x hx).1
  · intro hi
    have hlt : i < placed.length := by omega
    obtain ⟨hmem, hi⟩ := hget i _ (List.getElem?_eq_getElem hlt)
    exact List.mem_map.2 ⟨_, hmem, hi⟩

theorem yields_decodeData (hk : k.isIndexed = false) (count : Nat) :
    Yields keeps given 0 (decodeData k count) fun r s => s.IsAccepted keeps r := by
  intro s x t h hkeeps hs hg
  obtain ⟨found, s1, hfound, h⟩ := Decoder.exists_of_bind h
  obtain ⟨finish, s2, hfinish, h⟩ := Decoder.exists_of_bind h
  obtain ⟨references, s3, hreferences, h⟩ := Decoder.exists_of_bind h
  obtain ⟨placed, s4, hplaced, h⟩ := Decoder.exists_of_bind h
  cases h
  cases hreferences
  cases hfinish
  obtain ⟨lead, hyields⟩ := Yields.times (yields_decodeFound hk) count s found s1 hfound hkeeps hs
    fun _ _ => trivial
  obtain ⟨lead', hplaced⟩ := Yields.ofExcept _ s1 placed t hplaced (lead.keepsSigned.trans hkeeps)
    lead.sound fun _ _ => trivial
  replace hplaced := hplaced t.references (by rfl)
  have hperm := perm_slot_of_times hk hfound hs hplaced
  obtain ⟨hlen, hget⟩ := of_requireAll_bySlot hplaced
  refine ⟨lead.trans lead', fun r hr => ⟨⟨?_, by simp⟩, fun h x hx => ?_, ?_, ?_, fun _ => rfl⟩⟩
  · simpa [hlen] using hperm
  · rw [get?, Array.getElem?_map, List.getElem?_toArray] at hx
    obtain ⟨y, hy, rfl⟩ := Option.map_eq_some_iff.1 hx
    exact ((hyields r (References.extends_trans lead'.references hr)).2 y (hget _ y hy).1).2
  · intro hk'
    rw [hk] at hk'
    cases hk'
  · intro hk'
    rw [hk] at hk'
    cases hk'

theorem yields_decode (k : Kind) (count : Nat) :
    Yields keeps given 0 (decode k count) fun r s =>
      s.IsAccepted keeps r ∧ (k.isIndexed = true → s.items.size = count) := by
  rw [decode]
  split
  · exact (yields_decodeIndexed count).mono (Nat.le_refl _) fun _ _ _ h => ⟨h.1, fun _ => h.2⟩
  · rename_i hk
    rw [Bool.not_eq_true] at hk
    refine (yields_decodeData hk count).mono (Nat.le_refl _) fun _ _ _ h => ⟨h, fun hk' => ?_⟩
    rw [hk] at hk'
    cases hk'

end Section

end DexContainer
