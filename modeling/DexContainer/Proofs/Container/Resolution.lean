import DexContainer.Proofs.Container.Accepting
import DexContainer.Proofs.Section.Standing

/-! Where the references of an image lead. An image has a header and a directory, and from where
these say on the items of every kind stand one after the other. Main statement:
`resolved_of_ofImage`, a container that was read holds these items, and every number of theirs
became the one handle whose item has that number; an image is refused for a reference only if an
item that stands in it has a number that no item has. -/

namespace DexContainer

variable {α β : Type} {s t : Source} {k : Kind} {image : Image} {keeps : Bool} {o : Options}

/-! ### Readers that give or blame -/

/-- The reader gives a value with a property, or its fault has one. -/
def Ends (d : Decoder α) (s : Source) (P : α → Source → Prop) (E : Fault → Prop) : Prop :=
  match d s with
  | .ok a t => P a t
  | .error e _ => E e

namespace Ends

variable {d : Decoder α} {f : α → Decoder β} {P P' : α → Source → Prop} {Q : β → Source → Prop}
  {E : Fault → Prop}

theorem of_ok {a : α} (h : d s = .ok a t) (hP : P a t) : Ends d s P E := by
  rw [Ends, h]
  exact hP

theorem of_error {e : Fault} (h : d s = .error e t) (hE : E e) : Ends d s P E := by
  rw [Ends, h]
  exact hE

theorem pure {a : α} (h : P a s) : Ends (pure a) s P E := h

theorem throw {e : Fault} (h : E e) : Ends (throw e : Decoder α) s P E := h

theorem bind (hd : Ends d s P E) (hf : ∀ a t, P a t → Ends (f a) t Q E) :
    Ends (d >>= f) s Q E := by
  rw [Ends] at hd
  cases h : d s with
  | ok a t =>
    rw [h] at hd
    rw [Ends, Decoder.bind_of_ok h]
    exact hf a t hd
  | error e t =>
    rw [h] at hd
    exact of_error (Decoder.bind_of_error h) hd

theorem throw_bind {e : Fault} (h : E e) : Ends (MonadExcept.throw e >>= f) s Q E :=
  (throw (P := fun _ _ => False) h).bind fun _ _ h => h.elim

theorem mono (hd : Ends d s P E) (hP : ∀ a t, P a t → P' a t) : Ends d s P' E := by
  rw [Ends] at *
  cases h : d s with
  | ok a t =>
    rw [h] at hd
    exact hP a t hd
  | error e t =>
    rw [h] at hd
    exact hd

theorem ofExcept {e : Except Fault α} (hE : ∀ fault, e = .error fault → E fault) :
    Ends (Decoder.ofExcept e) s (fun a t => e = .ok a ∧ t = s) E := by
  cases e with
  | ok a => exact pure ⟨rfl, rfl⟩
  | error fault => exact throw (hE fault rfl)

/-- A check of every member of a list. -/
theorem forM {f : α → Except Fault Unit} {xs : List α}
    (hE : ∀ x ∈ xs, ∀ fault, f x = .error fault → E fault) :
    Ends (xs.forM fun x => Decoder.ofExcept (f x)) s
      (fun _ t => (∀ x ∈ xs, f x = .ok ()) ∧ t = s) E := by
  induction xs with
  | nil => exact pure ⟨fun _ hx => absurd hx List.not_mem_nil, rfl⟩
  | cons x xs ih =>
    refine (ofExcept (hE x (List.mem_cons_self ..))).bind fun _ t ⟨hx, ht⟩ => ?_
    subst ht
    refine (ih fun y hy => hE y (List.mem_cons_of_mem x hy)).mono fun _ t ⟨hxs, ht⟩ => ?_
    exact ⟨List.forall_mem_cons.2 ⟨hx, hxs⟩, ht⟩

/-- What every step keeps, given the steps that are still to do, holds at the end. -/
theorem foldlM {step : α → β → Decoder α} {I : List β → α → Source → Prop} {xs : List β} {a : α}
    (hstep : ∀ x xs a s, I (x :: xs) a s → Ends (step a x) s (I xs) E) (h : I xs a s) :
    Ends (xs.foldlM step a) s (I []) E := by
  induction xs generalizing a s with
  | nil => exact pure h
  | cons x xs ih =>
    rw [List.foldlM_cons]
    exact (hstep x xs a s h).bind fun b t hb => ih hb

end Ends

/-! ### What stands in an image -/

/-- The header and the directory that stand in an image. -/
structure Outline (image : Image) (keeps : Bool) where
  header : Header
  map : MapList
  header_stands : ∃ finish, Content.StandsAt image keeps .header 0 finish header
  map_stands : ∃ finish, Content.StandsAt image keeps .mapList header.mapOffset finish map

namespace Outline

variable {l : Outline image keeps}

/-- The items of a kind: as many as the row of the kind says, from its offset on, or none when there
is no row. -/
def Announces (l : Outline image keeps) (k : Kind) (xs : List (Section.Standing k)) : Prop :=
  match Container.rowOf l.map.entries l.header.mapOffset k with
  | none => xs = []
  | some (offset, count) => Section.StandFrom image keeps offset count xs

/-- An item refers to this number. -/
def Cites (l : Outline image keeps) (h : AnyHandle) : Prop :=
  ∃ (k : Kind) (xs : List (Section.Standing k)), l.Announces k xs ∧
    ∃ x ∈ xs, h ∈ Content.handles k x.content

/-- The number was met when an item was read. -/
def Shows (l : Outline image keeps) (h : AnyHandle) : Prop :=
  ∃ (k : Kind) (xs : List (Section.Standing k)), l.Announces k xs ∧ ∃ x ∈ xs, h ∈ x.met

theorem Announces.unique {xs xs' : List (Section.Standing k)} (h : l.Announces k xs)
    (h' : l.Announces k xs') : xs = xs' := by
  rw [Announces] at h h'
  cases hrow : Container.rowOf l.map.entries l.header.mapOffset k with
  | none =>
    rw [hrow] at h h'
    rw [h, h']
  | some row =>
    rw [hrow] at h h'
    exact Section.StandFrom.unique h h'

end Outline

/-- What the fault says of a reference holds of what stands in the image: a number was read that is
not below the number of items of its table, or an offset at which no item of its kind starts. -/
def Fault.IsFounded (image : Image) (keeps : Bool) : Fault → Prop
  | .danglingIndex k n count => ∃ (l : Outline image keeps) (xs : List (Section.Standing k)),
      l.Announces k xs ∧ xs.length = count ∧ count ≤ n ∧ l.Cites ⟨k, ⟨n⟩⟩
  | .danglingOffset k n => ∃ (l : Outline image keeps) (xs : List (Section.Standing k)),
      l.Announces k xs ∧ (∀ x ∈ xs, x.number ≠ n) ∧ l.Cites ⟨k, ⟨n⟩⟩
  | _ => True

theorem Fault.isFounded_of_not_isDangling {e : Fault} (h : ¬e.IsDangling) :
    e.IsFounded image keeps := by
  cases e <;> first | trivial | exact absurd trivial h

namespace Container

variable {c d : Container} {offset count : Nat} {l : Outline image keeps}

/-! ### Reading sections -/

/-- The items of a section as it was read. -/
structure IsReadFrom (c : Container) (k : Kind) (r : References) (xs : List (Section.Standing k)) :
    Prop where
  lists : ∀ ρ, r.Names ρ → (c.sectionOf k).Lists ρ xs
  met : ∀ x ∈ xs, Each r.Met x.met

theorem IsReadFrom.mono {r r' : References} {xs : List (Section.Standing k)} (hr : r ≤ r')
    (h : c.IsReadFrom k r xs) (hd : d.sectionOf k = c.sectionOf k) : d.IsReadFrom k r' xs := by
  refine ⟨fun ρ hρ => hd ▸ h.lists ρ (hρ.anti hr), fun x hx => ?_⟩
  exact (h.met x hx).mono fun _ _ hmet => hmet.mono hr

theorem ends_decodeSection (hs : s.references.Sound) {E : Fault → Prop}
    (hE : ∀ e, ¬e.IsDangling → E e)
    (hdangling : ∀ (xs : List (Section.Standing k)) (n : Nat) (met : List AnyHandle),
      Section.StandFrom s.image s.keepsSigned offset count xs →
      met.Perm (xs.flatMap Section.Standing.met) →
      (∃ i, (s.references.meetAll met).slots[(k, n)]? = some i) → (∀ x ∈ xs, x.number ≠ n) →
      E (.danglingOffset k n)) :
    Ends (c.decodeSection k offset count) s (fun d t => ∃ (xs : List (Section.Standing k))
      (met : List AnyHandle), Section.StandFrom s.image s.keepsSigned offset count xs ∧
      met.Perm (xs.flatMap Section.Standing.met) ∧
      t.image = s.image ∧ t.keepsSigned = s.keepsSigned ∧ t.references = s.references.meetAll met ∧
      (∀ j ≠ k, d.sectionOf j = c.sectionOf j) ∧ d.IsReadFrom k t.references xs) E := by
  have hseek : Ends (Decoder.seek offset) s (fun _ t => t = { s with position := offset }) E := by
    by_cases h : offset ≤ s.image.size
    · exact .of_ok (if_pos h) rfl
    · exact .of_error (if_neg h) (hE _ id)
  refine hseek.bind fun _ t ht => ?_
  subst ht
  cases Section.outcome (s := { s with position := offset }) hs k count with
  | failed e t he h => exact .of_error (Decoder.bind_of_error h) (hE e he)
  | dangling xs n met t hxs hperm h hslot habsent =>
    exact .of_error (Decoder.bind_of_error h) (hdangling xs n met hxs hperm hslot habsent)
  | read xs y finish met hxs hperm h hlists =>
    refine .of_ok (Decoder.bind_of_ok h) ⟨xs, met, hxs, hperm, rfl, rfl, rfl, ?_, ?_⟩
    · exact fun j hj => sectionOf_modifySection_of_ne c _ hj
    · refine ⟨fun ρ hρ => ?_, fun x hx => ?_⟩
      · rw [sectionOf_modifySection_self]
        exact hlists ρ hρ
      · intro h hmem
        refine References.each_met _ _ h (hperm.mem_iff.2 ?_)
        exact List.mem_flatMap_of_mem hx hmem

/-- The sections of all kinds but those that are still to be read hold the items that the outline
announces, and nothing but the numbers of these was met. -/
structure IsTraced (l : Outline image keeps) (todo : List Kind) (c : Container) (s : Source) :
    Prop where
  image_eq : s.image = image
  keeps_eq : s.keepsSigned = keeps
  nodup : todo.Nodup
  shows : ∃ met, s.references = ({} : References).meetAll met ∧ ∀ h ∈ met, l.Shows h
  done : ∀ k ∉ todo, ∃ xs, l.Announces k xs ∧ c.IsReadFrom k s.references xs
  todo : ∀ k ∈ todo, k.isSingleton = false → c.sectionOf k = {}

theorem IsTraced.sound {todo : List Kind} (h : IsTraced l todo c s) : s.references.Sound := by
  obtain ⟨met, hmet, -⟩ := h.shows
  rw [hmet]
  exact References.sound_empty.meetAll met

/-- The header and the map are read before anything was met, and meet nothing. -/
theorem ends_decodeSingleton (hk : k.isSingleton = true) (hs : s.references = {}) :
    Ends (c.decodeSection k offset 1) s (fun d t => t.image = s.image ∧
      t.keepsSigned = s.keepsSigned ∧ t.references = {} ∧
      (∀ j ≠ k, d.sectionOf j = c.sectionOf j) ∧
      ∃ x finish, Content.StandsAt s.image s.keepsSigned k offset finish x ∧
        (d.sectionOf k).get? (first k) = some x) (Fault.IsFounded image keeps) := by
  have hindexed := Kind.isIndexed_of_isSingleton hk
  have hmet : ∀ {xs : List (Section.Standing k)} {met : List AnyHandle},
      met.Perm (xs.flatMap Section.Standing.met) → met = [] := by
    intro xs met hperm
    have hnone : ∀ x : Section.Standing k, x.met = [] := by
      intro x
      rw [Section.Standing.met, if_pos hindexed, List.append_nil]
      cases k <;> first | rfl | cases hk
    rw [List.flatMap_eq_nil_iff.2 fun x _ => hnone x] at hperm
    exact hperm.eq_nil
  have hsound : s.references.Sound := hs ▸ References.sound_empty
  refine (ends_decodeSection hsound (fun _ => Fault.isFounded_of_not_isDangling) ?_).mono ?_
  · rintro xs n met - hperm ⟨i, hi⟩ -
    rw [hmet hperm, References.meetAll, List.foldl_nil, hs] at hi
    exact absurd hi (by simp)
  · rintro d t ⟨xs, met, hxs, hperm, himage, hkeeps, hreferences, hother, hread⟩
    have hlists := hread.lists _ t.references.names_handleOf
    refine ⟨himage, hkeeps, ?_, hother, hlists.exists_of_isSingleton
      (t.references.names_handleOf.index hindexed) hk hxs⟩
    rw [hreferences, hmet hperm, References.meetAll, List.foldl_nil, hs]

end Container

end DexContainer
