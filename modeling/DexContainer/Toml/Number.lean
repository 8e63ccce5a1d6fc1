import DexContainer.Bytes.Word
import DexContainer.Toml.Text

/-! The numbers, dates and times of TOML. Only their form and range matter here, so each reader
passes over what it accepts. -/

namespace DexContainer.Toml

/-- The digits of a run in a base, in which single underscores may stand between digits; the
digits read stand in reverse. -/
def digitsOnto (base : Nat) : List Nat → List Char → Option (List Nat × List Char)
  | read, '_' :: c :: cs =>
    match digitValue c with
    | some d => if d < base then digitsOnto base (d :: read) cs else none
    | none => none
  | read, c :: cs =>
    match digitValue c with
    | some d => if d < base then digitsOnto base (d :: read) cs else some (read.reverse, c :: cs)
    | none => some (read.reverse, c :: cs)
  | read, [] => some (read.reverse, [])

/-- The digits of a run that has at least one. -/
def digits (base : Nat) : List Char → Option (List Nat × List Char)
  | c :: cs => do
    let d ← digitValue c
    if d < base then digitsOnto base [d] cs else none
  | [] => none

/-- The digits of a decimal number: no other digit follows a leading zero. -/
def decimal : List Char → Option (List Nat × List Char)
  | '0' :: cs => some ([0], cs)
  | cs => digits 10 cs

/-- The number that digits denote. -/
def numberOf (base : Nat) (ds : List Nat) : Nat := ds.foldl (fun n d => base * n + d) 0

/-- A sign, and whether it is negative. -/
def sign : List Char → Bool × List Char
  | '-' :: cs => (true, cs)
  | '+' :: cs => (false, cs)
  | cs => (false, cs)

/-- Passes over an integer, which fits a signed word of 64 bits. -/
def integer (cs : List Char) : Option (List Char) :=
  let based (base : Nat) (cs : List Char) : Option (List Char) := do
    let (ds, cs) ← digits base cs
    if numberOf base ds < 2 ^ 63 then some cs else none
  match cs with
  | '0' :: 'x' :: cs => based 16 cs
  | '0' :: 'o' :: cs => based 8 cs
  | '0' :: 'b' :: cs => based 2 cs
  | cs => do
    let (negative, cs) := sign cs
    let (ds, cs) ← decimal cs
    let n := numberOf 10 ds
    if n < 2 ^ 63 ∨ (negative ∧ n = 2 ^ 63) then some cs else none

/-- An exponent, if one is next. -/
def exponent : List Char → Option (Int × List Char)
  | c :: cs =>
    if c = 'e' ∨ c = 'E' then do
      let (negative, cs) := sign cs
      let (ds, cs) ← digits 10 cs
      let n : Int := numberOf 10 ds
      some (if negative then -n else n, cs)
    else some (0, c :: cs)
  | [] => some (0, [])

/-- A decimal number is too large for a floating-point number of 64 bits when it is nearer to the
next power of two than to the greatest such number, or half way between. -/
def overflows (ds : List Nat) (exponent : Int) : Bool :=
  let n := numberOf 10 ds
  if n = 0 then false
  else
    let order : Int := ds.length + exponent
    if 310 + ds.length < order then true
    else if order < 300 then false
    else
      let bound := 2 ^ 1024 - 2 ^ 970
      if 0 ≤ exponent then decide (bound ≤ n * 10 ^ exponent.toNat)
      else decide (bound * 10 ^ (-exponent).toNat ≤ n)

/-- Passes over a floating-point number with a fraction or an exponent. A positive one must not be
too large. -/
def decimalFloat (cs : List Char) : Option (List Char) := do
  let (negative, cs) := sign cs
  let (whole, afterWhole) ← decimal cs
  let (fraction, afterFraction) ←
    match afterWhole with
    | '.' :: cs => digits 10 cs
    | cs => some ([], cs)
  let (e, cs) ← exponent afterFraction
  if cs.length = afterWhole.length then none
  else if !negative && overflows (whole ++ fraction) (e - fraction.length) then none
  else some cs

/-- Passes over a word. -/
def word (expected : List Char) (cs : List Char) : Option (List Char) :=
  if expected.isPrefixOf cs then some (cs.drop expected.length) else none

/-- Passes over a floating-point number that is no decimal number. -/
def specialFloat (cs : List Char) : Option (List Char) :=
  let (_, cs) := sign cs
  word ['i', 'n', 'f'] cs <|> word ['n', 'a', 'n'] cs

/-! ### Dates and times -/

/-- The number of two digits. -/
def twoDigits (a b : Char) : Option Nat :=
  if a.isDigit ∧ b.isDigit then some ((a.toNat - 48) * 10 + (b.toNat - 48)) else none

/-- The number of days of a month. -/
def daysOfMonth (year month : Nat) : Nat :=
  if month = 2 then
    if year % 4 = 0 ∧ (year % 100 ≠ 0 ∨ year % 400 = 0) then 29 else 28
  else if month = 4 ∨ month = 6 ∨ month = 9 ∨ month = 11 then 30
  else 31

/-- Passes over a date. -/
def date : List Char → Option (List Char)
  | a :: b :: c :: d :: '-' :: e :: f :: '-' :: g :: h :: cs => do
    let year := 100 * (← twoDigits a b) + (← twoDigits c d)
    let month ← twoDigits e f
    let day ← twoDigits g h
    if 1 ≤ month ∧ month ≤ 12 ∧ 1 ≤ day ∧ day ≤ daysOfMonth year month then some cs else none
  | _ => none

/-- Passes over the fraction of a second, if one is next. -/
def secondFraction : List Char → List Char
  | '.' :: c :: cs => if c.isDigit then cs.dropWhile Char.isDigit else '.' :: c :: cs
  | cs => cs

/-- Passes over a time of day; a leap second is allowed. -/
def time : List Char → Option (List Char)
  | a :: b :: ':' :: c :: d :: ':' :: e :: f :: cs => do
    let hour ← twoDigits a b
    let minute ← twoDigits c d
    let second ← twoDigits e f
    if hour ≤ 23 ∧ minute ≤ 59 ∧ second ≤ 60 then some (secondFraction cs) else none
  | _ => none

/-- Passes over a distance from universal time, if one is next. -/
def timeOffset : List Char → List Char
  | 'Z' :: cs => cs
  | 'z' :: cs => cs
  | s :: a :: b :: ':' :: c :: d :: cs =>
    match twoDigits a b, twoDigits c d with
    | some hour, some minute =>
      if (s = '+' ∨ s = '-') ∧ hour ≤ 23 ∧ minute ≤ 59 then cs
      else s :: a :: b :: ':' :: c :: d :: cs
    | _, _ => s :: a :: b :: ':' :: c :: d :: cs
  | cs => cs

/-- Passes over a date with or without a time. -/
def dateTime (cs : List Char) : Option (List Char) := do
  let afterDate ← date cs
  match afterDate with
  | c :: cs =>
    if c = 'T' ∨ c = 't' ∨ c = ' ' then
      match time cs with
      | some cs => some (timeOffset cs)
      | none => some afterDate
    else some afterDate
  | [] => some []

/-- Passes over a number, a date or a time. -/
def skipNumber (cs : List Char) : Option (List Char) :=
  dateTime cs <|> time cs <|> decimalFloat cs <|> specialFloat cs <|> integer cs

end DexContainer.Toml
