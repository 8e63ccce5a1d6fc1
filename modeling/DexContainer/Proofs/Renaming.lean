import DexContainer.Proofs.Outcome

/-! Handles inside items. An item is seen through the handles that it holds, and a renaming
replaces each of them. Main statements: two tables of positions that agree on a handle and on what
it is renamed to give the same numbers for it, and a handle that has a position gives a number. -/

namespace DexContainer

/-- A handle of any kind. -/
abbrev AnyHandle := (k : Kind) × Handle k

/-- A property of handles. -/
abbrev HandleProperty := (k : Kind) → Handle k → Prop

/-- A replacement for every handle. -/
abbrev Renaming := (k : Kind) → Handle k → Handle k

/-- The handle, whatever its kind. -/
def Handle.any {k : Kind} (h : Handle k) : AnyHandle := ⟨k, h⟩

/-- Every handle of a list has a property. -/
def Each (P : HandleProperty) (hs : List AnyHandle) : Prop := ∀ h ∈ hs, P h.1 h.2

section Each

variable {P Q : HandleProperty} {k : Kind}

theorem Each.mono (hPQ : ∀ k h, P k h → Q k h) {hs : List AnyHandle} (h : Each P hs) : Each Q hs :=
  fun x hx => hPQ _ _ (h x hx)

@[simp] theorem each_nil : Each P [] := by simp [Each]

@[simp] theorem each_cons {h : Handle k} {hs : List AnyHandle} :
    Each P (h.any :: hs) ↔ P k h ∧ Each P hs := by
  simp [Each, Handle.any]

@[simp] theorem each_append {hs hs' : List AnyHandle} :
    Each P (hs ++ hs') ↔ Each P hs ∧ Each P hs' := by
  simp [Each, or_imp, forall_and]

@[simp] theorem each_map {hs : List (Handle k)} :
    Each P (hs.map Handle.any) ↔ ∀ h ∈ hs, P k h := by
  simp [Each, Handle.any]

@[simp] theorem each_flatMap {α : Type} {f : α → List AnyHandle} {xs : List α} :
    Each P (xs.flatMap f) ↔ ∀ x ∈ xs, Each P (f x) := by
  simp only [Each, List.mem_flatMap]
  constructor
  · intro h x hx y hy
    exact h y ⟨x, hx, hy⟩
  · rintro h y ⟨x, hx, hy⟩
    exact h x hx y hy

end Each

namespace Kind

/-- The kinds whose positions some item is measured by. -/
def isMeasured : Kind → Bool
  | .stringId | .typeId | .protoId | .fieldId | .methodId | .code => true
  | _ => false

/-- The kinds whose sections keep the order in which their items were added. -/
def isNumbered : Kind → Bool
  | .stringId | .typeId | .protoId | .fieldId | .methodId => true
  | _ => false

end Kind

namespace Places

/-- An item has a position. -/
def IsPlaced (places : Places) : HandleProperty := fun k h => ∃ n, places.position? k h = some n

/-- An item and what it is renamed to are looked up alike. -/
def Agrees (places places' : Places) (ρ : Renaming) : HandleProperty := fun k h =>
  places'.position (ρ k h) = places.position h

/-- The items that others are measured by and what they are renamed to are looked up alike. -/
def Measures (places places' : Places) (ρ : Renaming) : HandleProperty := fun k h =>
  k.isMeasured = true → places.Agrees places' ρ k h

/-- An item has a position if others are measured by it; code need not have one. -/
def IsMeasurable (places : Places) : HandleProperty := fun k h =>
  k.isMeasured = true → k ≠ .code → places.IsPlaced k h

/-- The position of an item fits into 16 bits. -/
def FitsHalf (places : Places) : HandleProperty := fun k h =>
  ∀ n, places.position? k h = some n → n < 2 ^ 16

/-- The position of an item fits into 32 bits. -/
def FitsWord (places : Places) : HandleProperty := fun k h =>
  ∀ n, places.position? k h = some n → n < 2 ^ 32

/-- The position of an item that keeps its number is that number. -/
def Numbers (places : Places) : HandleProperty := fun k h =>
  k.isNumbered = true → ∀ n, places.position? k h = some n → n = h.id

/-- The table in which the position of an item is the number of its handle. -/
def numbers : Places := ⟨fun _ h => some h.id, fun _ => (0, 0)⟩

theorem position_numbers {k : Kind} (h : Handle k) : numbers.position h = .ok h.id := rfl

variable {places places' : Places} {ρ : Renaming} {k : Kind}

theorem position_eq_ok {h : Handle k} {n : Nat} :
    places.position h = .ok n ↔ places.position? k h = some n := by
  rw [position]
  cases places.position? k h <;> simp

theorem Agrees.position? {h : Handle k} (hh : places.Agrees places' ρ k h) :
    places'.position? k (ρ k h) = places.position? k h := by
  apply Option.ext
  intro n
  rw [← position_eq_ok, ← position_eq_ok, hh]

theorem agrees_of_position? {h : Handle k} {n : Nat} (hn : places.position? k h = some n)
    (hn' : places'.position? k (ρ k h) = some n) : places.Agrees places' ρ k h := by
  rw [Agrees, position_eq_ok.2 hn, position_eq_ok.2 hn']

theorem Agrees.measures {h : Handle k} (hh : places.Agrees places' ρ k h) :
    places.Measures places' ρ k h := fun _ => hh

theorem IsPlaced.isMeasurable {h : Handle k} (hh : places.IsPlaced k h) :
    places.IsMeasurable k h := fun _ _ => hh

theorem IsPlaced.exists_position {h : Handle k} (hh : places.IsPlaced k h) :
    ∃ n, places.position h = .ok n := by
  obtain ⟨n, hn⟩ := hh
  exact ⟨n, position_eq_ok.2 hn⟩

theorem Numbers.fitsHalf {h : Handle k} (hk : k.isNumbered = true) (hn : places.Numbers k h)
    (hh : h.id < 2 ^ 16) : places.FitsHalf k h := by
  intro n hpos
  rwa [hn hk n hpos]

/-! ### References that may be absent -/

section Optional

variable {o : Option (Handle k)}

theorem optionalIndex_map (ho : ∀ h ∈ o, places.Agrees places' ρ k h) :
    places'.optionalIndex (o.map (ρ k)) = places.optionalIndex o := by
  cases o with
  | none => rfl
  | some h => exact ho h rfl

theorem optionalOffset_map (ho : ∀ h ∈ o, places.Agrees places' ρ k h) :
    places'.optionalOffset (o.map (ρ k)) = places.optionalOffset o := by
  cases o with
  | none => rfl
  | some h => exact ho h rfl

theorem optionalPosition_map (ho : ∀ h ∈ o, places.Agrees places' ρ k h) :
    places'.optionalPosition (o.map (ρ k)) = places.optionalPosition o := by
  cases o with
  | none => rfl
  | some h =>
    have hh : places'.position (ρ k h) = places.position h := ho h rfl
    simp only [Option.map_some, optionalPosition, hh]

theorem exists_optionalIndex (ho : ∀ h ∈ o, places.IsPlaced k h) :
    ∃ n, places.optionalIndex o = .ok n := by
  cases o with
  | none => exact ⟨_, rfl⟩
  | some h => exact (ho h rfl).exists_position

theorem exists_optionalOffset (ho : ∀ h ∈ o, places.IsPlaced k h) :
    ∃ n, places.optionalOffset o = .ok n := by
  cases o with
  | none => exact ⟨_, rfl⟩
  | some h => exact (ho h rfl).exists_position

theorem exists_optionalPosition (ho : ∀ h ∈ o, places.IsPlaced k h) :
    ∃ n, places.optionalPosition o = .ok n := by
  cases o with
  | none => exact ⟨_, rfl⟩
  | some h =>
    obtain ⟨n, hn⟩ := (ho h rfl).exists_position
    exact ⟨some n, by simp [optionalPosition, hn]⟩

end Optional

end Places

end DexContainer
