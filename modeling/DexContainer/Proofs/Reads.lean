import DexContainer.Decoding.Lemmas
import DexContainer.Proofs.References

/-! Reading back what was written. A reader that stands before the bytes that were written from a
table of positions takes exactly these bytes, meets only offsets and indices of the table, and gives
the value that was written with its handles renamed. The new handles are known in full only after
everything has been read: a slot is given out when its offset is first met. The rules below follow
the readers step by step, and what earlier steps gave is carried along as a condition on the
renaming. -/

namespace DexContainer

namespace References

variable {r r' : References} {places : Places} {ρ : Renaming} {k : Kind}

/-- Nothing but positions of the table was met. -/
structure Tracks (places : Places) (r : References) : Prop where
  sound : r.Sound
  exists_of_slot : ∀ (k : Kind) (o i : Nat),
    r.slots[(k, o)]? = some i → ∃ h, places.position? k h = some o
  exists_of_highest : ∀ (k : Kind) (m : Nat),
    r.highest[k]? = some m → ∃ h, places.position? k h = some m

theorem tracks_empty : ({} : References).Tracks places := by
  refine ⟨sound_empty, fun k o i h => ?_, fun k m h => ?_⟩
  · exact absurd h (by simp)
  · exact absurd h (by simp)

/-- The renaming takes every handle to what is read for it: the number of its item, or the slot of
its offset. -/
def Gives (places : Places) (r : References) (ρ : Renaming) : Prop :=
  ∀ (k : Kind) (h : Handle k) (n : Nat), places.position? k h = some n →
    if k.isIndexed then ρ k h = ⟨n⟩ else ∀ i, r.slots[(k, n)]? = some i → ρ k h = ⟨i⟩

/-- The handles that are read. -/
def handlesRead (places : Places) (r : References) : Renaming := fun k h =>
  match places.position? k h with
  | none => h
  | some n => ⟨if k.isIndexed then n else r.slots[(k, n)]?.getD 0⟩

theorem gives_handlesRead (places : Places) (r : References) :
    r.Gives places (r.handlesRead places) := by
  intro k h n hn
  simp only [handlesRead, hn]
  split
  · rfl
  · intro i hi
    simp [hi]

theorem Gives.anti (hr : r ≤ r') (h : r'.Gives places ρ) : r.Gives places ρ := by
  intro k x n hn
  have hx := h k x n hn
  split
  · rename_i hk
    rwa [if_pos hk] at hx
  · rename_i hk
    rw [if_neg hk] at hx
    exact fun i hi => hx i (hr.slots k n i hi)

theorem Tracks.reserve {h : Handle k} {n : Nat} (hr : r.Tracks places) (hk : k.isIndexed = false)
    (hn : places.position? k h = some n) : (r.reserve k n).2.Tracks places := by
  refine ⟨hr.sound.reserve hk n, fun j o i hi => ?_, fun j m hm => ?_⟩
  · cases hs : r.slots[(k, n)]? with
    | some _ =>
      rw [reserve_of_slot hs] at hi
      exact hr.exists_of_slot j o i hi
    | none =>
      simp only [reserve_of_none hs, Std.HashMap.getElem?_insert, beq_iff_eq] at hi
      split at hi
      · rename_i he
        cases he
        exact ⟨h, hn⟩
      · exact hr.exists_of_slot j o i hi
  · rw [highest_reserve] at hm
    exact hr.exists_of_highest j m hm

theorem Tracks.note {h : Handle k} {n : Nat} (hr : r.Tracks places) (hk : k.isIndexed = true)
    (hn : places.position? k h = some n) : (r.note k n).Tracks places := by
  refine ⟨hr.sound.note hk n, hr.exists_of_slot, fun j m hm => ?_⟩
  by_cases hj : k = j
  · subst hj
    rcases (highest_note_of_le hm).2 with rfl | hm
    · exact ⟨h, hn⟩
    · exact hr.exists_of_highest k m hm
  · rw [highest_note, if_neg hj] at hm
    exact hr.exists_of_highest j m hm

end References

/-- No position reaches the index that stands for an absent one, and no offset is zero. -/
structure Places.Bounded (places : Places) : Prop where
  lt : ∀ (k : Kind) (h : Handle k) (n : Nat), places.position? k h = some n → n < Places.noIndex
  ne_zero : ∀ (k : Kind) (h : Handle k) (n : Nat),
    places.position? k h = some n → k.isIndexed = false → n ≠ 0

namespace Places

variable {places : Places} {k : Kind} {h : Handle k} {o : Option (Handle k)} {n : Nat}

theorem Bounded.lt_word (hp : places.Bounded) (hn : places.position? k h = some n) :
    n < 2 ^ 32 := by
  have := hp.lt k h n hn
  rw [noIndex] at this
  omega

theorem Bounded.each_fitsWord (hp : places.Bounded) (hs : List AnyHandle) :
    Each places.FitsWord hs := fun _ _ _ => hp.lt_word

theorem optionalOffset_lt (hp : ∀ h ∈ o, places.FitsWord k h)
    (ho : places.optionalOffset o = .ok n) : n < 2 ^ 32 := by
  cases o with
  | none =>
    obtain rfl : 0 = n := pure_eq_ok.1 ho
    decide
  | some h => exact hp h rfl n (position_eq_ok.1 ho)

theorem Bounded.optionalOffset_lt (hp : places.Bounded) (ho : places.optionalOffset o = .ok n) :
    n < 2 ^ 32 := Places.optionalOffset_lt (fun _ _ _ => hp.lt_word) ho

theorem Bounded.optionalIndex_lt (hp : places.Bounded) (ho : places.optionalIndex o = .ok n) :
    n < 2 ^ 32 := by
  cases o with
  | none =>
    obtain rfl : noIndex = n := pure_eq_ok.1 ho
    decide
  | some h => exact hp.lt_word (position_eq_ok.1 ho)

theorem Bounded.optionalPosition_lt {m : Option Nat} (hp : places.Bounded)
    (ho : places.optionalPosition o = .ok m) : ∀ n ∈ m, n < noIndex := by
  cases o with
  | none =>
    obtain rfl : none = m := pure_eq_ok.1 ho
    simp
  | some h =>
    obtain ⟨n, hn, rfl⟩ := map_eq_ok.1 ho
    simpa using hp.lt k h n (position_eq_ok.1 hn)

end Places

/-- Wherever the bytes stand at the position, the reader takes exactly these bytes, meets only
positions of the table, and gives the value of every renaming that the references met allow. -/
def Reads (places : Places) (keeps : Bool) (given : Renaming → Prop) (position : Nat)
    (d : Decoder α) (bs : Bytes) (a : Renaming → α) : Prop :=
  ∀ (s : Source) (tail : Bytes), s.position = position → s.position ≤ s.image.size →
    s.rest = bs ++ tail → s.keepsSigned = keeps → s.references.Tracks places →
    (∀ ρ, s.references.Gives places ρ → given ρ) →
    ∃ x r, d s = .ok x { s.advance bs.length with references := r } ∧ s.references ≤ r ∧
      r.Tracks places ∧ ∀ ρ, r.Gives places ρ → a ρ = x

namespace Reads

variable {places : Places} {keeps : Bool} {given : Renaming → Prop} {p : Nat} {d : Decoder α}
  {f : α → Decoder β} {bs cs : Bytes} {a : Renaming → α} {b : Renaming → β}

/-! ### Rules -/

theorem pure {x : α} (h : ∀ ρ, given ρ → a ρ = x) :
    Reads places keeps given p (pure x) [] a := by
  intro s tail _ _ _ _ hr hg
  exact ⟨x, s.references, rfl, by rfl, hr, fun ρ hρ => h ρ (hg ρ hρ)⟩

/-- What the first reader gives is known for every renaming that the references allow. -/
theorem bind (hd : Reads places keeps given p d bs a)
    (hf : ∀ x, (∃ ρ, given ρ ∧ a ρ = x) →
      Reads places keeps (fun ρ => given ρ ∧ a ρ = x) (p + bs.length) (f x) cs b) :
    Reads places keeps given p (d >>= f) (bs ++ cs) b := by
  intro s tail hp hs hb hk hr hg
  rw [List.append_assoc] at hb
  obtain ⟨x, r, hx, hle, hr', ha⟩ := hd s (cs ++ tail) hp hs hb hk hr hg
  have hlen : s.position + bs.length ≤ s.image.size := by
    have := s.length_rest
    simp only [hb, List.length_append, Source.remaining] at this
    omega
  have hrest : (s.advance bs.length).rest = cs ++ tail := Source.rest_advance_of_append hb
  have hgiven : ∀ ρ, r.Gives places ρ → given ρ ∧ a ρ = x :=
    fun ρ hρ => ⟨hg ρ (hρ.anti hle), ha ρ hρ⟩
  obtain ⟨y, r'', hy, hle', hr'', hb'⟩ :=
    hf x ⟨_, hgiven _ (r.gives_handlesRead places)⟩
      { s.advance bs.length with references := r } tail
      (by simp [Source.advance, hp]) (by simpa [Source.advance] using hlen) hrest hk hr' hgiven
  refine ⟨y, r'', ?_, References.extends_trans hle hle', hr'', hb'⟩
  rw [Decoder.bind_of_ok hx, hy, List.length_append]
  simp [Source.advance, Nat.add_assoc]

/-- A first reader whose value holds no handle gives that value. -/
theorem bind_const {x : α} (hd : Reads places keeps given p d bs fun _ => x)
    (hf : Reads places keeps given (p + bs.length) (f x) cs b) :
    Reads places keeps given p (d >>= f) (bs ++ cs) b := by
  refine bind hd fun y hy => ?_
  obtain ⟨_, _, rfl⟩ := hy
  intro s tail hp hs hb hk hr hg
  exact hf s tail hp hs hb hk hr fun ρ hρ => (hg ρ hρ).1

/-- A first reader that takes no bytes. -/
theorem bind_nil (hd : Reads places keeps given p d [] a)
    (hf : ∀ x, (∃ ρ, given ρ ∧ a ρ = x) →
      Reads places keeps (fun ρ => given ρ ∧ a ρ = x) p (f x) bs b) :
    Reads places keeps given p (d >>= f) bs b :=
  bind hd hf

theorem value {a' : Renaming → α} (h : Reads places keeps given p d bs a)
    (ha : ∀ ρ, given ρ → a ρ = a' ρ) : Reads places keeps given p d bs a' := by
  intro s tail hp hs hb hk hr hg
  obtain ⟨x, r, hx, hle, hr', hval⟩ := h s tail hp hs hb hk hr hg
  refine ⟨x, r, hx, hle, hr', fun ρ hρ => ?_⟩
  rw [← ha ρ (hg ρ (hρ.anti hle)), hval ρ hρ]

theorem mono {given' : Renaming → Prop} (h : Reads places keeps given p d bs a)
    (hg : ∀ ρ, given' ρ → given ρ) : Reads places keeps given' p d bs a :=
  fun s tail hp hs hb hk hr hg' => h s tail hp hs hb hk hr fun ρ hρ => hg ρ (hg' ρ hρ)

/-- The position is known. -/
theorem bind_position {f : Nat → Decoder β} (hf : Reads places keeps given p (f p) bs b) :
    Reads places keeps given p (Decoder.position >>= f) bs b := by
  intro s tail hp hs hb hk hr hg
  obtain ⟨x, r, hx, h⟩ := hf s tail hp hs hb hk hr hg
  refine ⟨x, r, ?_, h⟩
  have hd : Decoder.position s = .ok p s := by rw [Decoder.position, hp]
  rw [Decoder.bind_of_ok hd, hx]

/-- The number of bytes left is at least that of the bytes that are read. -/
theorem bind_remaining {f : Nat → Decoder β}
    (hf : ∀ n, bs.length ≤ n → Reads places keeps given p (f n) bs b) :
    Reads places keeps given p (Decoder.remaining >>= f) bs b := by
  intro s tail hp hs hb hk hr hg
  have hn : bs.length ≤ s.remaining := by
    rw [← Source.length_rest, hb, List.length_append]
    omega
  obtain ⟨x, r, hx, h⟩ := hf s.remaining hn s tail hp hs hb hk hr hg
  refine ⟨x, r, ?_, h⟩
  have hd : Decoder.remaining s = .ok s.remaining s := rfl
  rw [Decoder.bind_of_ok hd, hx]

/-- Whether the signed form is kept is known. -/
theorem bind_keepsSigned {f : Bool → Decoder β} (hf : Reads places keeps given p (f keeps) bs b) :
    Reads places keeps given p (Decoder.keepsSigned >>= f) bs b := by
  intro s tail hp hs hb hk hr hg
  obtain ⟨x, r, hx, h⟩ := hf s tail hp hs hb hk hr hg
  refine ⟨x, r, ?_, h⟩
  have hd : Decoder.keepsSigned s = .ok keeps s := by rw [Decoder.keepsSigned, hk]
  rw [Decoder.bind_of_ok hd, hx]

end Reads

end DexContainer
