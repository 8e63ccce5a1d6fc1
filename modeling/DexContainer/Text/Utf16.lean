/-! UTF-16: a character is one code unit, or a high and a low surrogate when it lies outside the
basic plane. `lossy` reads any list of code units and puts the replacement character for a
surrogate that has no partner. Main statement: `lossy` gives back the text whose units it reads. -/

namespace DexContainer.Utf16

/-- The first half of a surrogate pair. -/
def isHigh (u : Nat) : Bool := decide (0xd800 ≤ u ∧ u < 0xdc00)

/-- The second half of a surrogate pair. -/
def isLow (u : Nat) : Bool := decide (0xdc00 ≤ u ∧ u < 0xe000)

/-- The code units of a character. -/
def unitsOfChar (c : Char) : List Nat :=
  if c.toNat < 0x10000 then [c.toNat]
  else [0xd800 + (c.toNat - 0x10000) / 0x400, 0xdc00 + (c.toNat - 0x10000) % 0x400]

/-- The code units of a text. -/
def units (text : String) : List Nat := text.toList.flatMap unitsOfChar

/-- The character of a surrogate pair. -/
def pair (high low : Nat) : Char :=
  Char.ofNat (0x10000 + (high - 0xd800) * 0x400 + (low - 0xdc00))

/-- What stands for a unit that is no character. -/
def replacement : Char := Char.ofNat 0xfffd

/-- The character of a unit that is not the first half of a pair. -/
def single (u : Nat) : Char := if isHigh u || isLow u then replacement else Char.ofNat u

/-- The characters of a list of code units. -/
def chars : List Nat → List Char
  | [] => []
  | [u] => [single u]
  | u :: v :: us =>
    if isHigh u && isLow v then pair u v :: chars us else single u :: chars (v :: us)

/-- The text of a list of code units. -/
def lossy (us : List Nat) : String := String.ofList (chars us)

/-- The order of texts by code units. -/
def compareUnits (us vs : List Nat) : Ordering := List.compareLex compare us vs

/-! ### Reading what was written -/

theorem not_surrogate (c : Char) : ¬(0xd800 ≤ c.toNat ∧ c.toNat < 0xe000) := by
  have := c.valid
  simp only [UInt32.isValidChar, Nat.isValidChar] at this
  simp only [Char.toNat] at *
  omega

theorem toNat_lt (c : Char) : c.toNat < 0x110000 := by
  have := c.valid
  simp only [UInt32.isValidChar, Nat.isValidChar] at this
  simp only [Char.toNat] at *
  omega

theorem lt_of_mem_units {text : String} {u : Nat} (h : u ∈ units text) : u < 0x10000 := by
  obtain ⟨c, -, hc⟩ := List.mem_flatMap.1 h
  have hlt := toNat_lt c
  rw [unitsOfChar] at hc
  split at hc
  · rw [List.mem_singleton] at hc
    omega
  · simp only [List.mem_cons, List.not_mem_nil, or_false] at hc
    omega

theorem single_toNat (c : Char) : single c.toNat = c := by
  have := not_surrogate c
  have h : ¬(isHigh c.toNat || isLow c.toNat) = true := by
    simp only [isHigh, isLow, Bool.or_eq_true, decide_eq_true_eq]
    omega
  rw [single, if_neg h, Char.ofNat_toNat]

theorem chars_cons (u : Nat) (us : List Nat) (h : isHigh u = false) :
    chars (u :: us) = single u :: chars us := by
  cases us with
  | nil => rfl
  | cons v us => simp [chars, h]

theorem chars_units_append (c : Char) (us : List Nat) :
    chars (unitsOfChar c ++ us) = c :: chars us := by
  have hs := not_surrogate c
  have hl := toNat_lt c
  unfold unitsOfChar
  split
  · have hh : isHigh c.toNat = false := by
      simp only [isHigh, decide_eq_false_iff_not]; omega
    rw [List.singleton_append, chars_cons _ _ hh, single_toNat]
  · have h1 : isHigh (0xd800 + (c.toNat - 0x10000) / 0x400) = true := by
      simp only [isHigh, decide_eq_true_eq]; omega
    have h2 : isLow (0xdc00 + (c.toNat - 0x10000) % 0x400) = true := by
      simp only [isLow, decide_eq_true_eq]; omega
    have h3 : pair (0xd800 + (c.toNat - 0x10000) / 0x400)
        (0xdc00 + (c.toNat - 0x10000) % 0x400) = c := by
      rw [pair, show 0x10000 + (0xd800 + (c.toNat - 0x10000) / 0x400 - 0xd800) * 0x400 +
        (0xdc00 + (c.toNat - 0x10000) % 0x400 - 0xdc00) = c.toNat by omega, Char.ofNat_toNat]
    simp only [List.cons_append, List.nil_append, chars, h1, h2, h3, Bool.and_self, if_true]

theorem lossy_units (text : String) : lossy (units text) = text := by
  have h : ∀ cs : List Char, chars (cs.flatMap unitsOfChar) = cs := by
    intro cs
    induction cs with
    | nil => rfl
    | cons c cs ih => rw [List.flatMap_cons, chars_units_append, ih]
  rw [lossy, units, h, String.ofList_toList]

end DexContainer.Utf16
