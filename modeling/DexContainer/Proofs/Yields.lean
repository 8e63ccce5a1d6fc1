import DexContainer.Decoding.Lemmas
import DexContainer.Proofs.References

/-! What a reader accepts from any image. A reader changes nothing of its source but the position,
which only grows, and the references, which only grow as well. A property of what was read has to
hold for all references met later, so that it stays true until the whole image has been read. -/

namespace DexContainer

variable {α β : Type}

/-- What reading at least `count` bytes does to a source. -/
structure Source.Leads (count : Nat) (s t : Source) : Prop where
  image : t.image = s.image
  keepsSigned : t.keepsSigned = s.keepsSigned
  position : s.position + count ≤ t.position
  references : s.references ≤ t.references
  sound : t.references.Sound

theorem Source.Leads.refl {s : Source} (hs : s.references.Sound) : s.Leads 0 s :=
  ⟨rfl, rfl, Nat.le_refl _, by rfl, hs⟩

theorem Source.Leads.trans {m n : Nat} {s t u : Source} (h : s.Leads m t) (h' : t.Leads n u) :
    s.Leads (m + n) u :=
  ⟨h'.image.trans h.image, h'.keepsSigned.trans h.keepsSigned,
    by have := h.position; have := h'.position; omega,
    References.extends_trans h.references h'.references, h'.sound⟩

theorem Source.Leads.weaken {m n : Nat} {s t : Source} (h : s.Leads m t) (hn : n ≤ m) :
    s.Leads n t :=
  ⟨h.image, h.keepsSigned, Nat.le_trans (Nat.add_le_add_left hn _) h.position, h.references,
    h.sound⟩

/-- Whatever the reader accepts takes at least `count` bytes and has a property from then on. -/
def Yields (keeps : Bool) (given : References → Prop) (count : Nat) (d : Decoder α)
    (P : References → α → Prop) : Prop :=
  ∀ (s : Source) (x : α) (t : Source), d s = .ok x t → s.keepsSigned = keeps →
    s.references.Sound → (∀ r, s.references ≤ r → given r) →
    s.Leads count t ∧ ∀ r, t.references ≤ r → P r x

namespace Yields

variable {keeps : Bool} {given : References → Prop} {m n : Nat} {d : Decoder α}
  {f : α → Decoder β} {P P' : References → α → Prop} {Q : References → β → Prop} {k : Kind}

/-! ### Rules -/

theorem pure {x : α} (h : ∀ r, given r → P r x) : Yields keeps given 0 (pure x) P := by
  intro s y t hy _ hs hg
  cases hy
  exact ⟨.refl hs, fun r hr => h r (hg r hr)⟩

theorem throw {e : Fault} : Yields keeps given n (throw e : Decoder α) P := by
  intro s y t hy
  exact absurd hy (by simp)

theorem throw_bind {e : Fault} : Yields keeps given n (MonadExcept.throw e >>= f) Q := by
  intro s y t hy
  obtain ⟨x, u, hx, -⟩ := Decoder.exists_of_bind hy
  exact absurd hx (by simp)

theorem bind_count (hd : Yields keeps given m d P)
    (hf : ∀ x, (∃ r, given r ∧ P r x) → Yields keeps (fun r => given r ∧ P r x) n (f x) Q) :
    Yields keeps given (m + n) (d >>= f) Q := by
  intro s y t hy hk hs hg
  obtain ⟨x, u, hx, hy⟩ := Decoder.exists_of_bind hy
  obtain ⟨hsu, hP⟩ := hd s x u hx hk hs hg
  have hgiven : ∀ r, u.references ≤ r → given r ∧ P r x := fun r hr =>
    ⟨hg r (References.extends_trans hsu.references hr), hP r hr⟩
  obtain ⟨hut, hQ⟩ := hf x ⟨_, hgiven u.references (by rfl)⟩ u y t hy
    (hsu.keepsSigned.trans hk) hsu.sound hgiven
  exact ⟨hsu.trans hut, hQ⟩

theorem mono (hd : Yields keeps given m d P) (hn : n ≤ m)
    (h : ∀ r x, given r → P r x → P' r x) : Yields keeps given n d P' := by
  intro s x t hx hk hs hg
  obtain ⟨hst, hP⟩ := hd s x t hx hk hs hg
  refine ⟨hst.weaken hn, fun r hr => ?_⟩
  exact h r x (hg r (References.extends_trans hst.references hr)) (hP r hr)

/-- The bytes that the first reader takes are enough for the count. -/
theorem bind_le (hd : Yields keeps given m d P) (hn : n ≤ m)
    (hf : ∀ x, (∃ r, given r ∧ P r x) → Yields keeps (fun r => given r ∧ P r x) 0 (f x) Q) :
    Yields keeps given n (d >>= f) Q :=
  (hd.bind_count hf).mono hn fun _ _ _ h => h

theorem bind (hd : Yields keeps given n d P)
    (hf : ∀ x, (∃ r, given r ∧ P r x) → Yields keeps (fun r => given r ∧ P r x) 0 (f x) Q) :
    Yields keeps given n (d >>= f) Q :=
  hd.bind_count hf

/-- A reader that is not the first one need not be counted. -/
theorem bind_tail (hd : Yields keeps given m d P)
    (hf : ∀ x, (∃ r, given r ∧ P r x) → Yields keeps (fun r => given r ∧ P r x) 0 (f x) Q) :
    Yields keeps given 0 (d >>= f) Q :=
  hd.bind_le (Nat.zero_le m) hf

theorem given_of {given' : References → Prop} (hd : Yields keeps given n d P)
    (hg : ∀ r, given' r → given r) : Yields keeps given' n d P :=
  fun s x t hx hk hs hg' => hd s x t hx hk hs fun r hr => hg r (hg' r hr)

theorem map (g : α → β) (hd : Yields keeps given n d fun r x => Q r (g x)) :
    Yields keeps given n (g <$> d) Q := by
  rw [map_eq_pure_bind]
  exact hd.bind fun x _ => pure fun r hr => hr.2

/-- A reader that moves past some bytes and leaves the references alone. -/
theorem of_advance (h : ∀ s x t, d s = .ok x t →
    (∃ l, n ≤ l ∧ t = s.advance l) ∧ ∀ r, P r x) : Yields keeps given n d P := by
  intro s x t hx _ hs _
  obtain ⟨⟨l, hl, rfl⟩, hP⟩ := h s x t hx
  exact ⟨⟨rfl, rfl, Nat.add_le_add_left hl _, by rfl, hs⟩, fun r _ => hP r⟩

theorem ofExcept (e : Except Fault α) :
    Yields keeps given 0 (Decoder.ofExcept e) fun _ x => e = .ok x := by
  cases e with
  | ok a => exact pure fun _ _ => rfl
  | error e => exact throw

/-! ### Numbers -/

theorem position : Yields keeps given 0 Decoder.position fun _ _ => True :=
  of_advance fun _ _ _ h => by cases h; exact ⟨⟨0, by omega, rfl⟩, fun _ => trivial⟩

theorem remaining : Yields keeps given 0 Decoder.remaining fun _ _ => True :=
  of_advance fun _ _ _ h => by cases h; exact ⟨⟨0, by omega, rfl⟩, fun _ => trivial⟩

theorem keepsSigned : Yields keeps given 0 Decoder.keepsSigned fun _ b => b = keeps := by
  intro s x t hx hk hs _
  cases hx
  exact ⟨.refl hs, fun _ _ => hk⟩

theorem byte : Yields keeps given 1 Decoder.byte fun _ _ => True :=
  of_advance fun _ _ _ h =>
    ⟨⟨1, Nat.le_refl 1, (Decoder.byte_eq_ok_iff.1 h).2⟩, fun _ => trivial⟩

theorem bytes (count : Nat) :
    Yields keeps given count (Decoder.bytes count) fun _ bs => bs.length = count := by
  refine of_advance fun s bs t h => ?_
  obtain ⟨-, hlen, rfl⟩ := Decoder.rest_of_bytes h
  exact ⟨⟨bs.length, Nat.le_of_eq hlen.symm, rfl⟩, fun _ => hlen⟩

theorem vector (count : Nat) :
    Yields keeps given count (Decoder.vector count) fun _ _ => True := by
  refine of_advance fun s bs t h => ?_
  rw [Decoder.vector] at h
  split at h
  · cases h
    exact ⟨⟨count, Nat.le_refl _, rfl⟩, fun _ => trivial⟩
  · cases h

theorem half : Yields keeps given 2 Decoder.half fun _ n => n < 2 ^ 16 := by
  refine (bytes 2).bind fun bs hbs => pure fun _ _ => ?_
  obtain ⟨_, _, hbs⟩ := hbs
  have := Word.ofBytes_lt bs
  rw [hbs] at this
  omega

theorem word : Yields keeps given 4 Decoder.word fun _ n => n < 2 ^ 32 := by
  refine (bytes 4).bind fun bs hbs => pure fun _ _ => ?_
  obtain ⟨_, _, hbs⟩ := hbs
  have := Word.ofBytes_lt bs
  rw [hbs] at this
  omega

theorem groups (defect : Defect) :
    Yields keeps given 1 (Decoder.groups defect) fun _ gs =>
      gs.length ≤ Leb128.maxGroups ∧ ∃ bs, Leb128.IsNumber bs ∧ gs = Leb128.groups bs := by
  refine of_advance fun s gs t h => ?_
  obtain ⟨bs, hbs, hle, rfl, -, rfl⟩ :=
    Decoder.rest_of_groupsWithin (h : Decoder.groupsWithin _ _ s = _)
  exact ⟨⟨bs.length, Leb128.length_pos_of_isNumber hbs, rfl⟩, fun _ =>
    ⟨by simpa using hle, bs, hbs, rfl⟩⟩

theorem unsignedWithLength : Yields keeps given 1 Decoder.unsignedWithLength
    fun _ x => x.1 < 2 ^ 32 ∧ x.2 ≤ Leb128.maxGroups := by
  refine (groups .overlongUnsigned).bind fun gs _ => pure fun _ hr => ⟨?_, hr.2.1⟩
  exact Nat.mod_lt (Leb128.groupsToNat gs) (Nat.two_pow_pos 32)

theorem unsigned : Yields keeps given 1 Decoder.unsigned fun _ n => n < 2 ^ 32 :=
  unsignedWithLength.bind fun _ _ => pure fun _ hr => hr.2.1

theorem signed :
    Yields keeps given 1 Decoder.signed fun _ v => -2 ^ 31 ≤ v ∧ v < 2 ^ 31 :=
  (groups _).bind fun gs _ => pure fun _ _ => Leb128.intOfGroups_range gs

/-! ### References -/

theorem index (hk : k.isIndexed = true) (n : Nat) :
    Yields keeps given 0 (Decoder.index k n) fun r h => h.id = n ∧ r.Holds k h := by
  intro s h t hh _ hs _
  cases hh
  refine ⟨⟨rfl, rfl, Nat.le_refl _, References.extends_note .., hs.note hk n⟩, fun r hr => ?_⟩
  exact ⟨rfl, (References.holds_note hk n).mono hr⟩

theorem offset (hk : k.isIndexed = false) (n : Nat) :
    Yields keeps given 0 (Decoder.offset k n) fun r h => r.Holds k h := by
  intro s h t hh _ hs _
  cases hh
  refine ⟨⟨rfl, rfl, Nat.le_refl _, References.extends_reserve .., hs.reserve hk n⟩, fun r hr => ?_⟩
  exact (References.holds_reserve hs hk n).mono hr

/-- An offset that was met keeps its slot. -/
theorem slot (hk : k.isIndexed = false) (n : Nat) :
    Yields keeps given 0 (Decoder.offset k n) fun r h => r.slots[(k, n)]? = some h.id := by
  intro s h t hh _ hs _
  cases hh
  refine ⟨⟨rfl, rfl, Nat.le_refl _, References.extends_reserve .., hs.reserve hk n⟩, fun r hr => ?_⟩
  exact hr.slots k n _ (References.slot_reserve ..)

theorem optionalIndex (hk : k.isIndexed = true) (n : Nat) :
    Yields keeps given 0 (Decoder.optionalIndex k n) fun r o => ∀ h ∈ o, r.Holds k h := by
  rw [Decoder.optionalIndex]
  split
  · exact pure fun _ _ => by simp
  · exact ((index hk n).mono (Nat.le_refl _) fun r h _ hh => by simpa using hh.2).map some

theorem optionalOffset (hk : k.isIndexed = false) (n : Nat) :
    Yields keeps given 0 (Decoder.optionalOffset k n) fun r o => ∀ h ∈ o, r.Holds k h := by
  rw [Decoder.optionalOffset]
  split
  · exact pure fun _ _ => by simp
  · exact ((offset hk n).mono (Nat.le_refl _) fun r h _ hh => by simpa using hh).map some

theorem indexOfOption (hk : k.isIndexed = true) (m : Option Nat) :
    Yields keeps given 0 (Decoder.indexOfOption k m) fun r o => ∀ h ∈ o, r.Holds k h := by
  cases m with
  | none => exact pure fun _ _ => by simp
  | some n => exact ((index hk n).mono (Nat.le_refl _) fun r h _ hh => by simpa using hh.2).map some

/-! ### Lists -/

theorem timesOnto (hd : Yields keeps (fun _ => True) m d P) (count : Nat) (read : List α) :
    Yields keeps given 0 (Decoder.timesOnto d count read) fun r xs =>
      ∃ ys, xs = read.reverse ++ ys ∧ ys.length = count ∧ ∀ y ∈ ys, P r y := by
  induction count generalizing given read with
  | zero => exact pure fun _ _ => ⟨[], by simp⟩
  | succ count ih =>
    refine (hd.given_of fun _ _ => trivial).bind_tail fun x _ => ?_
    refine (ih (x :: read)).mono (Nat.le_refl _) ?_
    rintro r _ ⟨-, hx⟩ ⟨ys, rfl, hlen, hys⟩
    refine ⟨x :: ys, by simp, by simp [hlen], ?_⟩
    intro y hy
    rcases List.mem_cons.1 hy with rfl | hy
    · exact hx
    · exact hys y hy

theorem times (hd : Yields keeps (fun _ => True) m d P) (count : Nat) :
    Yields keeps given 0 (Decoder.times count d) fun r xs =>
      xs.length = count ∧ ∀ x ∈ xs, P r x := by
  refine (timesOnto hd count []).mono (Nat.le_refl _) ?_
  rintro r _ _ ⟨ys, rfl, h⟩
  simpa using h

end Yields

end DexContainer
