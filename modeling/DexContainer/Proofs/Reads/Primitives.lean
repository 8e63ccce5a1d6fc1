import DexContainer.Proofs.Reads

/-! The readers of numbers, references and lists read back what was written. A reference is read
in two steps: its number, which the table determines, and then the handle for this number. -/

namespace DexContainer.Reads

variable {α β γ : Type} {places : Places} {keeps : Bool} {given : Renaming → Prop} {p : Nat}
  {k : Kind}

/-! ### Numbers -/

/-- A reader that leaves the references alone. -/
theorem of_rest {d : Decoder α} {bs : Bytes} {x : α}
    (h : ∀ (s : Source) (tail : Bytes), s.position ≤ s.image.size → s.rest = bs ++ tail →
      d s = .ok x (s.advance bs.length)) :
    Reads places keeps given p d bs fun _ => x := by
  intro s tail _ hs hb _ hr _
  exact ⟨x, s.references, h s tail hs hb, by rfl, hr, fun _ _ => rfl⟩

theorem byte (b : UInt8) : Reads places keeps given p Decoder.byte [b] fun _ => b :=
  of_rest fun _ _ _ hb => Decoder.byte_of_rest hb

theorem bytes (bs : Bytes) :
    Reads places keeps given p (Decoder.bytes bs.length) bs fun _ => bs :=
  of_rest fun _ _ hs hb => Decoder.bytes_of_rest hs hb

theorem vector {n : Nat} (v : Vector UInt8 n) :
    Reads places keeps given p (Decoder.vector n) v.toList fun _ => v := by
  refine of_rest fun s tail hs hb => ?_
  have hbytes := Decoder.bytes_of_rest hs hb
  rw [Decoder.bytes, Vector.length_toList] at hbytes
  rw [Decoder.vector, Vector.length_toList]
  split at hbytes
  · rename_i hle
    simp only [EStateM.Result.ok.injEq, and_true] at hbytes
    rw [dif_pos hle]
    congr 1
    exact Vector.toArray_inj.1 (Array.toList_inj.1 hbytes)
  · cases hbytes

theorem half {n : Nat} (hn : n < 2 ^ 16) :
    Reads places keeps given p Decoder.half (Word.half n) fun _ => n :=
  of_rest fun _ _ _ hb => Word.half_length n ▸ Decoder.half_of_rest hn hb

theorem word {n : Nat} (hn : n < 2 ^ 32) :
    Reads places keeps given p Decoder.word (Word.full n) fun _ => n :=
  of_rest fun _ _ _ hb => Word.full_length n ▸ Decoder.word_of_rest hn hb

theorem unsignedWithLength {n : Nat} (hn : n < 2 ^ 32) :
    Reads places keeps given p Decoder.unsignedWithLength (Leb128.unsigned n)
      fun _ => (n, Leb128.unsignedSize n) :=
  of_rest fun _ _ _ hb => Leb128.length_unsigned n ▸ Decoder.unsignedWithLength_of_rest hn hb

theorem unsigned {n : Nat} (hn : n < 2 ^ 32) :
    Reads places keeps given p Decoder.unsigned (Leb128.unsigned n) fun _ => n :=
  of_rest fun _ _ _ hb => Leb128.length_unsigned n ▸ Decoder.unsigned_of_rest hn hb

theorem signed {v : Int} (hv : -2 ^ 31 ≤ v ∧ v < 2 ^ 31) :
    Reads places keeps given p Decoder.signed (Leb128.signed v) fun _ => v :=
  of_rest fun _ _ _ hb => Leb128.length_signed v ▸ Decoder.signed_of_rest hv hb

theorem plusOne {m : Option Nat} (hm : ∀ n ∈ m, n < Places.noIndex) :
    Reads places keeps given p Decoder.plusOne (Leb128.plusOne m) fun _ => m := by
  refine of_rest fun _ _ _ hb => ?_
  rw [Leb128.length_plusOne]
  refine Decoder.plusOne_of_rest (fun n hn => ?_) hb
  have : n < 0xffffffff := hm n hn
  omega

/-! ### References -/

theorem index {h : Handle k} {n : Nat} (hk : k.isIndexed = true)
    (hn : places.position? k h = some n) :
    Reads places keeps given p (Decoder.index k n) [] fun ρ => ρ k h := by
  intro s tail _ _ _ _ hr _
  refine ⟨⟨n⟩, s.references.note k n, rfl, References.extends_note .., hr.note hk hn, ?_⟩
  intro ρ hρ
  have := hρ k h n hn
  rwa [if_pos hk] at this

theorem offset {h : Handle k} {n : Nat} (hk : k.isIndexed = false)
    (hn : places.position? k h = some n) :
    Reads places keeps given p (Decoder.offset k n) [] fun ρ => ρ k h := by
  intro s tail _ _ _ _ hr _
  refine ⟨_, (s.references.reserve k n).2, rfl, References.extends_reserve .., hr.reserve hk hn, ?_⟩
  intro ρ hρ
  have := hρ k h n hn
  rw [if_neg (by simp [hk])] at this
  exact this _ (References.slot_reserve ..)

/-- A reader of handles under a constructor. -/
theorem map {d : Decoder α} {bs : Bytes} {a : Renaming → α} (g : α → β)
    (hd : Reads places keeps given p d bs a) :
    Reads places keeps given p (g <$> d) bs fun ρ => g (a ρ) := by
  rw [map_eq_pure_bind, ← List.append_nil bs]
  exact hd.bind fun x _ => Reads.pure fun ρ hρ => by rw [hρ.2]

theorem optionalIndex {o : Option (Handle k)} {n : Nat} (hp : places.Bounded)
    (hk : k.isIndexed = true) (ho : places.optionalIndex o = .ok n) :
    Reads places keeps given p (Decoder.optionalIndex k n) [] fun ρ => o.map (ρ k) := by
  cases o with
  | none =>
    have hn : n = Decoder.noIndex := (pure_eq_ok.1 ho).symm
    rw [Decoder.optionalIndex, if_pos hn]
    exact Reads.pure fun _ _ => rfl
  | some h =>
    have hh := Places.position_eq_ok.1 ho
    have hn : n ≠ Decoder.noIndex := Nat.ne_of_lt (hp.lt k h n hh)
    rw [Decoder.optionalIndex, if_neg hn]
    exact (index hk hh).map some

theorem optionalOffset_of_ne_zero {o : Option (Handle k)} {n : Nat}
    (hzero : ∀ h ∈ o, places.position? k h ≠ some 0) (hk : k.isIndexed = false)
    (ho : places.optionalOffset o = .ok n) :
    Reads places keeps given p (Decoder.optionalOffset k n) [] fun ρ => o.map (ρ k) := by
  cases o with
  | none =>
    have hn : n = 0 := (pure_eq_ok.1 ho).symm
    rw [Decoder.optionalOffset, if_pos hn]
    exact Reads.pure fun _ _ => rfl
  | some h =>
    have hh := Places.position_eq_ok.1 ho
    have hn : n ≠ 0 := by
      rintro rfl
      exact hzero h rfl hh
    rw [Decoder.optionalOffset, if_neg hn]
    exact (offset hk hh).map some

theorem optionalOffset {o : Option (Handle k)} {n : Nat} (hp : places.Bounded)
    (hk : k.isIndexed = false) (ho : places.optionalOffset o = .ok n) :
    Reads places keeps given p (Decoder.optionalOffset k n) [] fun ρ => o.map (ρ k) :=
  optionalOffset_of_ne_zero (fun h _ hh => hp.ne_zero k h 0 hh hk rfl) hk ho

theorem indexOfOption {o : Option (Handle k)} {m : Option Nat} (hk : k.isIndexed = true)
    (ho : places.optionalPosition o = .ok m) :
    Reads places keeps given p (Decoder.indexOfOption k m) [] fun ρ => o.map (ρ k) := by
  cases o with
  | none =>
    obtain rfl : m = none := (pure_eq_ok.1 ho).symm
    exact Reads.pure fun _ _ => rfl
  | some h =>
    obtain ⟨n, hn, rfl⟩ := map_eq_ok.1 ho
    exact (index hk (Places.position_eq_ok.1 hn)).map some

/-! ### Lists -/

/-- Readings of one reader, one after the other. -/
inductive All (places : Places) (keeps : Bool) (d : Decoder α) :
    Nat → List Bytes → List (Renaming → α) → Prop
  | nil {p : Nat} : All places keeps d p [] []
  | cons {p : Nat} {bs : Bytes} {bss : List Bytes} {a : Renaming → α} {as : List (Renaming → α)} :
    Reads places keeps (fun _ => True) p d bs a → All places keeps d (p + bs.length) bss as →
      All places keeps d p (bs :: bss) (a :: as)

theorem timesOnto {d : Decoder α} {bss : List Bytes} {as : List (Renaming → α)}
    (h : All places keeps d p bss as) (read : List α) (b : Renaming → List α)
    (hb : ∀ ρ, given ρ → b ρ = read.reverse ++ as.map (· ρ)) :
    Reads places keeps given p (Decoder.timesOnto d as.length read) bss.flatten b := by
  induction h generalizing given read with
  | nil => exact Reads.pure fun ρ hρ => by simpa using hb ρ hρ
  | cons ha _ ih =>
    refine (ha.mono fun _ _ => trivial).bind fun x _ => ih (x :: read) fun ρ hρ => ?_
    obtain ⟨hρ, rfl⟩ := hρ
    simp [hb ρ hρ]

theorem times {d : Decoder α} {bss : List Bytes} {as : List (Renaming → α)}
    (h : All places keeps d p bss as) :
    Reads places keeps given p (Decoder.times as.length d) bss.flatten fun ρ => as.map (· ρ) :=
  timesOnto h [] _ fun _ _ => by simp

/-- Members that are read alike wherever they stand. -/
theorem All.of_forall₂ {d : Decoder α} {a : γ → Renaming → α} {xs : List γ} {bss : List Bytes}
    (h : List.Forall₂ (fun x bs => ∀ p, Reads places keeps (fun _ => True) p d bs (a x)) xs bss) :
    All places keeps d p bss (xs.map a) := by
  induction h generalizing p with
  | nil => exact .nil
  | cons hx _ ih => exact .cons (hx p) ih

/-- A list whose members are written one after the other. -/
theorem writeAll {d : Decoder α} {write : γ → Written} {a : γ → Renaming → α} {xs : List γ}
    {bs : Bytes} (h : DexContainer.writeAll write xs = .ok bs)
    (hx : ∀ x ∈ xs, ∀ cs, write x = .ok cs → cs.length ≤ bs.length →
      ∀ p, Reads places keeps (fun _ => True) p d cs (a x)) :
    Reads places keeps given p (Decoder.times xs.length d) bs fun ρ => xs.map (a · ρ) := by
  replace hx : ∀ x ∈ xs, ∀ cs, write x = .ok cs →
      ∀ p, Reads places keeps (fun _ => True) p d cs (a x) :=
    fun x hmem cs hcs => hx x hmem cs hcs (length_le_of_mem_writeAll h hmem hcs)
  obtain ⟨bss, hbss, rfl⟩ := writeAll_eq_ok.1 h
  clear h
  have hall : List.Forall₂
      (fun x bs => ∀ p, Reads places keeps (fun _ => True) p d bs (a x)) xs bss := by
    induction hbss with
    | nil => exact .nil
    | cons hb _ ih =>
      exact .cons (hx _ (List.mem_cons_self ..) _ hb)
        (ih fun y hy => hx y (List.mem_cons_of_mem _ hy))
  have hall := All.of_forall₂ (p := p) hall
  have : Reads places keeps given p _ _ _ := times hall
  simpa [List.map_map, Function.comp_def] using this

end DexContainer.Reads
