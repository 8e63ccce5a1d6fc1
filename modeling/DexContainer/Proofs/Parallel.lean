import DexContainer.Decoding.Lemmas
import DexContainer.Proofs.Outcome

/-! Two runs of a reader, one on a source that keeps the signed form of registers and one on the
source that drops it. Most readers are deaf: they do not ask what the source keeps, so both runs
give the same value and move alike, or fail with the same fault. Main statements: the rules of
`Parallel`, by which readers run in parallel when their parts do, and the instances of `Deaf`, which
follow how a reader is built. -/

namespace DexContainer

variable {α β γ δ : Type}

/-- The source, dropping the signed form of registers. -/
def Source.dropping (s : Source) : Source := { s with keepsSigned := false }

/-- Where the first reader, keeping the signed form, gives a value, the second one, dropping it,
gives that value changed by `f` and moves alike; where the first one fails, so does the second, with
the same fault. -/
def Parallel (f : α → β) (d : Decoder α) (d' : Decoder β) : Prop :=
  ∀ s : Source, s.keepsSigned = true →
    (∃ a t, t.keepsSigned = true ∧ d s = .ok a t ∧ d' s.dropping = .ok (f a) t.dropping) ∨
    ∃ e t t', d s = .error e t ∧ d' s.dropping = .error e t'

/-! ### Rules -/

namespace Parallel

variable {f : α → β} {g : γ → δ} {d : Decoder α} {d' : Decoder β} {k : α → Decoder γ}
  {k' : β → Decoder δ}

theorem pure (a : α) : Parallel f (pure a) (pure (f a)) :=
  fun s hs => .inl ⟨a, s, hs, rfl, rfl⟩

theorem throw (e : Fault) : Parallel f (throw e) (throw e) :=
  fun s _ => .inr ⟨e, s, s.dropping, rfl, rfl⟩

theorem bind (hd : Parallel f d d') (hk : ∀ a, Parallel g (k a) (k' (f a))) :
    Parallel g (d >>= k) (d' >>= k') := by
  intro s hs
  rcases hd s hs with ⟨a, t, ht, hok, hok'⟩ | ⟨e, t, t', herror, herror'⟩
  · rw [Decoder.bind_of_ok hok, Decoder.bind_of_ok hok']
    exact hk a t ht
  · exact .inr ⟨e, t, t', Decoder.bind_of_error herror, Decoder.bind_of_error herror'⟩

theorem throw_bind (e : Fault) (k : α → Decoder γ) (k' : β → Decoder δ) :
    Parallel g (MonadExcept.throw e >>= k) (MonadExcept.throw e >>= k') :=
  fun s _ => .inr ⟨e, s, s.dropping, rfl, rfl⟩

theorem ofExcept {x : Except Fault α} {y : Except Fault β} (h : y = f <$> x) :
    Parallel f (Decoder.ofExcept x) (Decoder.ofExcept y) := by
  subst h
  cases x with
  | ok a => exact pure a
  | error e => exact throw e

theorem timesOnto (hd : Parallel f d d') (count : Nat) (read : List α) :
    Parallel (List.map f) (Decoder.timesOnto d count read)
      (Decoder.timesOnto d' count (read.map f)) := by
  induction count generalizing read with
  | zero =>
    rw [Decoder.timesOnto, Decoder.timesOnto, ← List.map_reverse]
    exact pure _
  | succ count ih => exact hd.bind fun a => ih (a :: read)

/-- Reads as many values one after the other. -/
theorem times (hd : Parallel f d d') (count : Nat) :
    Parallel (List.map f) (Decoder.times count d) (Decoder.times count d') :=
  hd.timesOnto count []

theorem foldlM {step : α → γ → Decoder α} {step' : β → γ → Decoder β} (xs : List γ)
    (h : ∀ a x, Parallel f (step a x) (step' (f a) x)) (a : α) :
    Parallel f (xs.foldlM step a) (xs.foldlM step' (f a)) := by
  induction xs generalizing a with
  | nil => exact pure a
  | cons x xs ih => exact (h a x).bind ih

theorem forM {step step' : γ → Decoder Unit} (xs : List γ)
    (h : ∀ x, Parallel id (step x) (step' x)) : Parallel id (xs.forM step) (xs.forM step') := by
  induction xs with
  | nil => exact pure ()
  | cons x xs ih => exact (h x).bind fun _ => ih

end Parallel

/-- What the source keeps is all that the two runs differ in. -/
theorem Parallel.keepsSigned :
    Parallel (fun _ => false) Decoder.keepsSigned Decoder.keepsSigned :=
  fun s hs => .inl ⟨s.keepsSigned, s, hs, rfl, rfl⟩

/-! ### Deaf readers -/

/-- A reader that does not ask what the source keeps. -/
class Deaf (d : Decoder α) : Prop where
  parallel : Parallel id d d

namespace Deaf

variable {d : Decoder α} {f : α → Decoder β} {k : Kind}

instance pure (a : α) : Deaf (Pure.pure a) := ⟨.pure a⟩

instance throw (e : Fault) : Deaf (MonadExcept.throw e : Decoder α) := ⟨.throw e⟩

instance bind [hd : Deaf d] [hf : ∀ a, Deaf (f a)] : Deaf (d >>= f) :=
  ⟨hd.parallel.bind fun a => (hf a).parallel⟩

/-- A long sequence of readers is taken apart from its front. -/
theorem step [Deaf d] (hf : ∀ a, Deaf (f a)) : Deaf (d >>= f) := bind

theorem bind_parallel {g : β → γ} {f' : α → Decoder γ} [hd : Deaf d]
    (hf : ∀ a, Parallel g (f a) (f' a)) : Parallel g (d >>= f) (d >>= f') :=
  hd.parallel.bind hf

instance map {f : α → β} [Deaf d] : Deaf (f <$> d) := by
  rw [map_eq_pure_bind]
  infer_instance

instance ite {p : Prop} [Decidable p] {d d' : Decoder α} [hd : Deaf d] [hd' : Deaf d'] :
    Deaf (if p then d else d') := by
  split
  · exact hd
  · exact hd'

instance times [hd : Deaf d] (count : Nat) : Deaf (Decoder.times count d) :=
  ⟨List.map_id_fun (α := α) ▸ hd.parallel.times count⟩

instance ofExcept (x : Except Fault α) : Deaf (Decoder.ofExcept x) :=
  ⟨.ofExcept (id_map x).symm⟩

/-- A reader that moves the source or fails, but does not ask what the source keeps. -/
theorem of_moves (h : ∀ s : Source, (∃ a t, t.keepsSigned = s.keepsSigned ∧ d s = .ok a t ∧
      d s.dropping = .ok a t.dropping) ∨
    ∃ e t, d s = .error e s ∧ d s.dropping = .error e t) : Deaf d := by
  refine ⟨fun s hs => ?_⟩
  rcases h s with ⟨a, t, ht, hok, hok'⟩ | ⟨e, t, herror, herror'⟩
  · exact .inl ⟨a, t, ht.trans hs, hok, hok'⟩
  · exact .inr ⟨e, s, t, herror, herror'⟩

instance position : Deaf Decoder.position := of_moves fun s => .inl ⟨_, s, rfl, rfl, rfl⟩

instance remaining : Deaf Decoder.remaining := of_moves fun s => .inl ⟨_, s, rfl, rfl, rfl⟩

instance references : Deaf Decoder.references := of_moves fun s => .inl ⟨_, s, rfl, rfl, rfl⟩

instance seek (n : Nat) : Deaf (Decoder.seek n) := by
  refine of_moves fun s => ?_
  by_cases h : n ≤ s.image.size
  · exact .inl ⟨(), { s with position := n }, rfl, if_pos h, if_pos h⟩
  · exact .inr ⟨_, s.dropping, if_neg h, if_neg h⟩

instance align (alignment : Nat) : Deaf (Decoder.align alignment) :=
  ⟨fun s => (seek (alignUp s.position alignment)).parallel s⟩

instance bytes (n : Nat) : Deaf (Decoder.bytes n) := by
  refine of_moves fun s => ?_
  by_cases h : s.position + n ≤ s.image.size
  · exact .inl ⟨_, s.advance n, rfl, if_pos h, if_pos h⟩
  · exact .inr ⟨_, s.dropping, if_neg h, if_neg h⟩

instance vector (n : Nat) : Deaf (Decoder.vector n) := by
  refine of_moves fun s => ?_
  by_cases h : s.position + n ≤ s.image.size
  · exact .inl ⟨_, s.advance n, rfl, dif_pos h, dif_pos h⟩
  · exact .inr ⟨_, s.dropping, dif_neg h, dif_neg h⟩

instance byte : Deaf Decoder.byte := by
  refine of_moves fun s => ?_
  cases h : s.image[s.position]? with
  | some b => exact .inl ⟨b, s.advance 1, rfl, by simp [Decoder.byte, h],
      by simp [Decoder.byte, Source.dropping, h]; rfl⟩
  | none => exact .inr ⟨_, s.dropping, by simp [Decoder.byte, h]; rfl,
      by simp [Decoder.byte, Source.dropping, h]⟩

instance index (n : Nat) : Deaf (Decoder.index k n) :=
  of_moves fun s => .inl ⟨⟨n⟩, { s with references := s.references.note k n }, rfl, rfl, rfl⟩

instance offset (n : Nat) : Deaf (Decoder.offset k n) :=
  of_moves fun s => .inl ⟨⟨(s.references.reserve k n).1⟩,
    { s with references := (s.references.reserve k n).2 }, rfl, rfl, rfl⟩

instance half : Deaf Decoder.half := by
  rw [Decoder.half]
  infer_instance

instance word : Deaf Decoder.word := by
  rw [Decoder.word]
  infer_instance

instance groupsWithin (failure : Fault) (limit : Nat) :
    Deaf (Decoder.groupsWithin failure limit) := by
  induction limit with
  | zero => exact throw failure
  | succ limit ih =>
    rw [Decoder.groupsWithin]
    infer_instance

instance groups (defect : Defect) : Deaf (Decoder.groups defect) := by
  rw [Decoder.groups]
  infer_instance

instance unsignedWithLength : Deaf Decoder.unsignedWithLength := by
  rw [Decoder.unsignedWithLength]
  infer_instance

instance unsigned : Deaf Decoder.unsigned := by
  rw [Decoder.unsigned]
  infer_instance

instance signed : Deaf Decoder.signed := by
  rw [Decoder.signed]
  infer_instance

instance plusOne : Deaf Decoder.plusOne := by
  rw [Decoder.plusOne]
  infer_instance

instance optionalIndex (n : Nat) : Deaf (Decoder.optionalIndex k n) := by
  rw [Decoder.optionalIndex]
  infer_instance

instance optionalOffset (n : Nat) : Deaf (Decoder.optionalOffset k n) := by
  rw [Decoder.optionalOffset]
  infer_instance

instance indexOfOption (n : Option Nat) : Deaf (Decoder.indexOfOption k n) := by
  cases n with
  | none => exact pure none
  | some n =>
    rw [Decoder.indexOfOption]
    infer_instance

end Deaf

end DexContainer
