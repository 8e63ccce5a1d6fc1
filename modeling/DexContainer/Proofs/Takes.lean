import DexContainer.Proofs.Blind

/-! The bytes that a reader takes. A value does not determine the bytes that it was read from, for
an image may hold longer forms than a writer uses; it does tell how few they can be. The rules
follow the readers step by step, as those of `Reads` and `Yields` do, and relate the value to the
bytes that were taken; for an offset the value is what the number of the image is renamed to. -/

namespace DexContainer

variable {α β : Type}

/-- What a measure tells is no more than there are bytes. -/
def Size.FitsIn (size : Size) (bs : Bytes) : Prop := ∃ n, size = .ok n ∧ n ≤ bs.length

theorem fitsIn_of_length {bs : Bytes} {n : Nat} (h : bs.length = n) : Size.FitsIn (.ok n) bs :=
  ⟨n, rfl, Nat.le_of_eq h.symm⟩

theorem fitsIn_sizeOfAll {size : α → Size} {xs : List α} {bss : List Bytes}
    (h : List.Forall₂ (fun x bs => (size x).FitsIn bs) xs bss) :
    (sizeOfAll size xs).FitsIn bss.flatten := by
  induction h with
  | nil => exact ⟨0, rfl, Nat.le_refl 0⟩
  | cons hx _ ih =>
    obtain ⟨m, hm, hle⟩ := hx
    obtain ⟨n, hn, hle'⟩ := ih
    refine ⟨m + n, by rw [sizeOfAll_cons, hm, hn]; rfl, ?_⟩
    rw [List.flatten_cons, List.length_append]
    exact Nat.add_le_add hle hle'

theorem length_flatten_of_width {P : α → Bytes → Prop} {width : Nat} {xs : List α}
    {bss : List Bytes} (h : List.Forall₂ P xs bss) (hP : ∀ x bs, P x bs → bs.length = width) :
    bss.flatten.length = width * xs.length := by
  induction h with
  | nil => rfl
  | cons hx _ ih =>
    rw [List.flatten_cons, List.length_append, hP _ _ hx, ih, List.length_cons, Nat.mul_succ]
    exact Nat.add_comm ..

/-- Whatever the reader accepts at a position stands there as a run of bytes that has a property
together with the value, when the numbers of the image are renamed to the handles that were met. -/
def Takes (ρ : Renaming) (p : Nat) (d : Decoder α) (P : α → Bytes → Prop) : Prop :=
  ∀ (s : Source) (x : α) (t : Source), d s = .ok x t → s.position = p →
    s.references ≤ t.references ∧ ∃ bs, s.rest = bs ++ t.rest ∧ t.position = p + bs.length ∧
      (t.references.Names ρ → P x bs)

namespace Takes

variable {ρ : Renaming} {p : Nat} {d : Decoder α} {f : α → Decoder β} {P P' : α → Bytes → Prop}
  {Q : β → Bytes → Prop} {k : Kind}

/-! ### Rules -/

theorem pure {x : α} (h : P x []) : Takes ρ p (pure x) P := by
  rintro s _ _ ⟨⟩ hp
  exact ⟨References.extends_refl _, [], rfl, hp, fun _ => h⟩

theorem throw {e : Fault} : Takes ρ p (throw e : Decoder α) P := by
  intro s x t hx
  exact absurd hx (by simp)

/-- What the first value and its bytes are known to fulfil is a condition on the second ones. -/
theorem bind (hd : Takes ρ p d P)
    (hf : ∀ x bs, Takes ρ (p + bs.length) (f x) fun y cs => P x bs → Q y (bs ++ cs)) :
    Takes ρ p (d >>= f) Q := by
  intro s y t hy hp
  obtain ⟨x, u, hx, hy⟩ := Decoder.exists_of_bind hy
  obtain ⟨hsu, bs, hbs, hpos, hP⟩ := hd s x u hx hp
  obtain ⟨hut, cs, hcs, hpos', hQ⟩ := hf x bs u y t hy hpos
  refine ⟨References.extends_trans hsu hut, bs ++ cs, ?_, ?_, fun hρ => hQ hρ (hP (hρ.anti hut))⟩
  · rw [hbs, hcs, List.append_assoc]
  · rw [hpos', List.length_append, Nat.add_assoc]

theorem throw_bind {e : Fault} : Takes ρ p (MonadExcept.throw e >>= f) Q := by
  intro s y t hy
  obtain ⟨x, u, hx, -⟩ := Decoder.exists_of_bind hy
  exact absurd hx (by simp)

theorem mono (hd : Takes ρ p d P) (h : ∀ x bs, P x bs → P' x bs) : Takes ρ p d P' := by
  intro s x t hx hp
  obtain ⟨hst, bs, hbs, hpos, hP⟩ := hd s x t hx hp
  exact ⟨hst, bs, hbs, hpos, fun hρ => h x bs (hP hρ)⟩

theorem map (g : α → β) (hd : Takes ρ p d fun x bs => Q (g x) bs) : Takes ρ p (g <$> d) Q := by
  rw [map_eq_pure_bind]
  exact hd.bind fun x bs => pure fun h => by rwa [List.append_nil]

/-- A reader that leaves the references alone. -/
theorem of_rest (h : ∀ s x t, d s = .ok x t →
    ∃ bs, s.rest = bs ++ t.rest ∧ t = s.advance bs.length ∧ P x bs) : Takes ρ p d P := by
  rintro s x t hx rfl
  obtain ⟨bs, hbs, rfl, hP⟩ := h s x t hx
  exact ⟨References.extends_refl _, bs, hbs, rfl, fun _ => hP⟩

theorem ofExcept (e : Except Fault α) :
    Takes ρ p (Decoder.ofExcept e) fun x bs => e = .ok x ∧ bs = [] := by
  cases e with
  | ok a => exact pure ⟨rfl, rfl⟩
  | error e => exact throw

/-! ### Numbers -/

theorem position : Takes ρ p Decoder.position fun n bs => n = p ∧ bs = [] := by
  rintro s _ _ ⟨⟩ hp
  exact ⟨References.extends_refl _, [], rfl, hp, fun _ => ⟨hp, rfl⟩⟩

theorem remaining : Takes ρ p Decoder.remaining fun _ bs => bs = [] :=
  of_rest fun s _ _ h => by cases h; exact ⟨[], rfl, rfl, rfl⟩

theorem keepsSigned : Takes ρ p Decoder.keepsSigned fun _ bs => bs = [] :=
  of_rest fun s _ _ h => by cases h; exact ⟨[], rfl, rfl, rfl⟩

theorem byte : Takes ρ p Decoder.byte fun b bs => bs = [b] :=
  of_rest fun _ b _ h => ⟨[b], Decoder.rest_of_byte h, (Decoder.byte_eq_ok_iff.1 h).2, rfl⟩

theorem bytes (count : Nat) :
    Takes ρ p (Decoder.bytes count) fun x bs => bs = x ∧ bs.length = count :=
  of_rest fun s x t h => by
    obtain ⟨hrest, hlen, ht⟩ := Decoder.rest_of_bytes h
    exact ⟨x, hrest, ht, rfl, hlen⟩

theorem vector (count : Nat) :
    Takes ρ p (Decoder.vector count) fun x bs => bs = x.toList ∧ bs.length = count :=
  of_rest fun s x t h => by
    have hbytes : Decoder.bytes count s = .ok x.toList t := by
      rw [Decoder.vector] at h
      rw [Decoder.bytes]
      split at h
      · rename_i hle
        cases h
        rw [if_pos hle]
        rfl
      · cases h
    obtain ⟨hrest, hlen, ht⟩ := Decoder.rest_of_bytes hbytes
    exact ⟨x.toList, hrest, ht, rfl, hlen⟩

theorem half : Takes ρ p Decoder.half fun n bs => n = Word.ofBytes bs ∧ bs.length = 2 :=
  (bytes 2).bind fun x bs => pure fun h => by
    obtain ⟨rfl, hlen⟩ := h
    exact ⟨by rw [List.append_nil], by rw [List.append_nil, hlen]⟩

theorem word : Takes ρ p Decoder.word fun n bs => n = Word.ofBytes bs ∧ bs.length = 4 :=
  (bytes 4).bind fun x bs => pure fun h => by
    obtain ⟨rfl, hlen⟩ := h
    exact ⟨by rw [List.append_nil], by rw [List.append_nil, hlen]⟩

theorem groups (defect : Defect) : Takes ρ p (Decoder.groups defect) fun gs bs =>
    Leb128.IsNumber bs ∧ bs.length ≤ Leb128.maxGroups ∧ gs = Leb128.groups bs :=
  of_rest fun s gs t h => by
    obtain ⟨bs, hbs, hle, rfl, hrest, rfl⟩ :=
      Decoder.rest_of_groupsWithin (h : Decoder.groupsWithin _ _ s = _)
    exact ⟨bs, hrest, rfl, hbs, hle, rfl⟩

theorem unsignedWithLength : Takes ρ p Decoder.unsignedWithLength fun x bs =>
    x.1 < 2 ^ 32 ∧ x.2 = bs.length ∧ Leb128.unsignedSize x.1 ≤ bs.length :=
  (groups .overlongUnsigned).bind fun gs bs => pure fun h => by
    obtain ⟨hbs, -, rfl⟩ := h
    rw [List.append_nil]
    exact ⟨Nat.mod_lt _ (by decide), Leb128.length_groups bs,
      Leb128.unsignedSize_wordOfGroups_le (Leb128.length_pos_of_isNumber hbs)⟩

theorem unsigned : Takes ρ p Decoder.unsigned fun n bs =>
    n < 2 ^ 32 ∧ Leb128.unsignedSize n ≤ bs.length :=
  unsignedWithLength.bind fun x bs => pure fun h => by
    rw [List.append_nil]
    exact ⟨h.1, h.2.2⟩

theorem signed : Takes ρ p Decoder.signed fun v bs =>
    (-2 ^ 31 ≤ v ∧ v < 2 ^ 31) ∧ Leb128.signedSize v ≤ bs.length :=
  (groups .overlongSigned).bind fun gs bs => pure fun h => by
    obtain ⟨hbs, hle, rfl⟩ := h
    rw [List.append_nil]
    exact ⟨Leb128.intOfGroups_range _,
      Leb128.signedSize_intOfGroups_le (Leb128.length_pos_of_isNumber hbs) hle⟩

theorem plusOne : Takes ρ p Decoder.plusOne fun o bs => Leb128.plusOneSize o ≤ bs.length :=
  unsigned.bind fun n bs => pure fun h => by
    rw [List.append_nil]
    split
    · rename_i hn
      rw [hn, Leb128.unsignedSize_of_lt (by decide)] at h
      exact h.2
    · rename_i hn
      rw [Leb128.plusOneSize, Nat.sub_add_cancel (Nat.pos_of_ne_zero hn)]
      exact h.2

/-! ### References -/

theorem index (n : Nat) : Takes ρ p (Decoder.index k n) fun h bs => h = ⟨n⟩ ∧ bs = [] := by
  rintro s _ _ ⟨⟩ hp
  exact ⟨References.extends_note .., [], rfl, hp, fun _ => ⟨rfl, rfl⟩⟩

theorem offset (hk : k.isIndexed = false) (n : Nat) :
    Takes ρ p (Decoder.offset k n) fun h bs => h = ρ k ⟨n⟩ ∧ bs = [] := by
  rintro s _ _ ⟨⟩ hp
  refine ⟨References.extends_reserve .., [], rfl, hp, fun hρ => ⟨?_, rfl⟩⟩
  exact (hρ.offset hk (References.slot_reserve ..)).symm

theorem optionalIndex (n : Nat) : Takes ρ p (Decoder.optionalIndex k n) fun _ bs => bs = [] := by
  rw [Decoder.optionalIndex]
  split
  · exact pure rfl
  · exact ((index n).mono fun _ _ h => h.2).map some

theorem optionalOffset (hk : k.isIndexed = false) (n : Nat) :
    Takes ρ p (Decoder.optionalOffset k n) fun o bs =>
      o = (if n = 0 then none else some (ρ k ⟨n⟩)) ∧ bs = [] := by
  rw [Decoder.optionalOffset]
  split
  · exact pure ⟨rfl, rfl⟩
  · exact ((offset hk n).mono fun _ _ h => ⟨congrArg some h.1, h.2⟩).map some

theorem indexOfOption (m : Option Nat) :
    Takes ρ p (Decoder.indexOfOption k m) fun o bs => o = m.map Handle.mk ∧ bs = [] := by
  cases m with
  | none => exact pure ⟨rfl, rfl⟩
  | some n => exact ((index n).mono fun _ _ h => ⟨congrArg some h.1, h.2⟩).map some

/-! ### Lists -/

theorem timesOnto (hd : ∀ p, Takes ρ p d P) (count : Nat) (read : List α) :
    Takes ρ p (Decoder.timesOnto d count read) fun xs bs => ∃ ys bss,
      xs = read.reverse ++ ys ∧ bss.flatten = bs ∧ ys.length = count ∧ List.Forall₂ P ys bss := by
  induction count generalizing p read with
  | zero => exact pure ⟨[], [], (List.append_nil _).symm, rfl, rfl, .nil⟩
  | succ count ih =>
    refine (hd p).bind fun x bs => (ih (x :: read)).mono ?_
    rintro _ _ ⟨ys, bss, rfl, rfl, hlen, hys⟩ hx
    exact ⟨x :: ys, bs :: bss, by simp, rfl, by simp [hlen], .cons hx hys⟩

theorem times (hd : ∀ p, Takes ρ p d P) (count : Nat) :
    Takes ρ p (Decoder.times count d) fun xs bs =>
      xs.length = count ∧ ∃ bss, bss.flatten = bs ∧ List.Forall₂ P xs bss := by
  refine (timesOnto hd count []).mono ?_
  rintro _ _ ⟨ys, bss, rfl, rfl, hlen, hys⟩
  exact ⟨hlen, bss, rfl, hys⟩

/-- As many values take at least the sum of their lengths. -/
theorem times_sizeOfAll {size : α → Size} (hd : ∀ p, Takes ρ p d fun x bs => (size x).FitsIn bs)
    (count : Nat) : Takes ρ p (Decoder.times count d) fun xs bs =>
      xs.length = count ∧ (sizeOfAll size xs).FitsIn bs := by
  refine (times hd count).mono ?_
  rintro xs _ ⟨hlen, bss, rfl, hxs⟩
  exact ⟨hlen, fitsIn_sizeOfAll hxs⟩

/-- As many values of a fixed width. -/
theorem times_width {width : Nat} (hd : ∀ p, Takes ρ p d fun _ bs => bs.length = width)
    (count : Nat) : Takes ρ p (Decoder.times count d) fun xs bs =>
      xs.length = count ∧ bs.length = width * count := by
  refine (times hd count).mono ?_
  rintro xs _ ⟨rfl, bss, rfl, hxs⟩
  exact ⟨rfl, length_flatten_of_width hxs fun _ _ h => h⟩

end Takes

/-- What is told by the bytes that were taken holds besides what else was read. -/
theorem Yields.of_takes {keeps : Bool} {given : References → Prop} {n : Nat} {d : Decoder α}
    {P : References → α → Prop} {Q : α → Bytes → Prop} (hd : Yields keeps given n d P)
    (ht : ∀ ρ p, Takes ρ p d Q) : Yields keeps given n d fun r x => P r x ∧ ∃ bs, Q x bs := by
  intro s x t hx hk hs hg
  obtain ⟨hst, hP⟩ := hd s x t hx hk hs hg
  obtain ⟨-, bs, -, -, hQ⟩ := ht t.references.handleOf s.position s x t hx rfl
  exact ⟨hst, fun r hr => ⟨hP r hr, bs, hQ (References.names_handleOf _)⟩⟩

end DexContainer
