/-! The characters and strings of TOML. A reader takes a part of the text from the front and gives
the rest, or nothing when the text is malformed. -/

namespace DexContainer.Toml

/-- A reader of a part of a text. -/
abbrev Reader := StateT (List Char) Option

/-- Gives up. -/
def fail : Reader α := fun _ => none

/-- The rest of the text. -/
def rest : Reader (List Char) := fun cs => some (cs, cs)

/-- Takes over the rest that a function leaves. -/
def advance (f : List Char → Option (List Char)) : Reader Unit := fun cs => do
  return ((), ← f cs)

/-- The next character must be this one. -/
def expect (c : Char) : Reader Unit := advance fun
  | d :: cs => if c = d then some cs else none
  | [] => none

/-- Characters that part words of a line. -/
def isBlank (c : Char) : Bool := c == ' ' || c == '\t'

/-- Characters that a line may hold: no control character other than the tabulator. -/
def isPlain (c : Char) : Bool := c == '\t' || (decide (0x20 ≤ c.toNat) && c.toNat != 0x7f)

/-- Passes over blanks. -/
def blanks : Reader Unit := advance fun cs => some (cs.dropWhile isBlank)

/-- Passes over a line end, if one is next. -/
def lineBreak? : List Char → Option (List Char)
  | '\n' :: cs => some cs
  | '\r' :: '\n' :: cs => some cs
  | _ => none

/-- Passes over a comment, if one is next; it extends to the end of the line. -/
def comment : Reader Unit := advance fun
  | '#' :: cs => some (cs.dropWhile isPlain)
  | cs => some cs

/-- Passes over the rest of a line, which may hold only a comment. -/
def lineEnd : Reader Unit := do
  blanks
  comment
  advance fun
    | [] => some []
    | cs => lineBreak? cs

/-- Passes over blanks, comments and line ends; at most `limit` lines. -/
def gap : (limit : Nat) → Reader Unit
  | 0 => pure ()
  | limit + 1 => do
    blanks
    comment
    match lineBreak? (← rest) with
    | some cs => do set cs; gap limit
    | none => pure ()

/-! ### Strings -/

/-- The character that a letter after a backslash stands for. -/
def escape : Char → Option Char
  | 'b' => some (Char.ofNat 0x08)
  | 't' => some '\t'
  | 'n' => some '\n'
  | 'f' => some (Char.ofNat 0x0c)
  | 'r' => some '\r'
  | '"' => some '"'
  | '\\' => some '\\'
  | _ => none

/-- The value of a digit, up to base sixteen. -/
def digitValue (c : Char) : Option Nat :=
  if '0' ≤ c ∧ c ≤ '9' then some (c.toNat - '0'.toNat)
  else if 'a' ≤ c ∧ c ≤ 'f' then some (c.toNat - 'a'.toNat + 10)
  else if 'A' ≤ c ∧ c ≤ 'F' then some (c.toNat - 'A'.toNat + 10)
  else none

/-- The character with a code point in hexadecimal digits. -/
def codePoint (digits : List Char) : Option Char := do
  let n ← digits.foldlM (fun n c => do return 16 * n + (← digitValue c)) 0
  if n < 0xd800 ∨ (0xdfff < n ∧ n < 0x110000) then some (Char.ofNat n) else none

/-- Takes the rest of a string between double quotes; the characters read stand in reverse. -/
def quotedOnto : List Char → List Char → Option (String × List Char)
  | read, '"' :: cs => some (String.ofList read.reverse, cs)
  | read, '\\' :: 'u' :: a :: b :: c :: d :: cs => do
    quotedOnto ((← codePoint [a, b, c, d]) :: read) cs
  | read, '\\' :: 'U' :: a :: b :: c :: d :: e :: f :: g :: h :: cs => do
    quotedOnto ((← codePoint [a, b, c, d, e, f, g, h]) :: read) cs
  | read, '\\' :: c :: cs => do quotedOnto ((← escape c) :: read) cs
  | read, c :: cs => if isPlain c && c != '\\' then quotedOnto (c :: read) cs else none
  | _, [] => none

/-- Takes the rest of a string between single quotes, which has no escapes. -/
def literalOnto : List Char → List Char → Option (String × List Char)
  | read, '\'' :: cs => some (String.ofList read.reverse, cs)
  | read, c :: cs => if isPlain c then literalOnto (c :: read) cs else none
  | _, [] => none

/-- Up to two quotes after the three that end a string of several lines belong to the string. -/
def dropQuotes (quote : Char) : List Char → List Char
  | a :: b :: cs =>
    if a = quote then if b = quote then cs else b :: cs else a :: b :: cs
  | [a] => if a = quote then [] else [a]
  | [] => []

/-- Where a string of several lines stands. -/
inductive Line
  | inside
  /-- Behind a backslash at the end of a line, before the line ends. -/
  | trailing
  /-- Behind such a line end, where blanks and line ends are passed over. -/
  | leading
deriving DecidableEq

/-- Passes over the rest of a string of several lines between double quotes. -/
def skipQuoted : Line → List Char → Option (List Char)
  | _, [] => none
  | .trailing, '\n' :: cs => skipQuoted .leading cs
  | .trailing, '\r' :: '\n' :: cs => skipQuoted .leading cs
  | .trailing, c :: cs => if isBlank c then skipQuoted .trailing cs else none
  | _, '"' :: '"' :: '"' :: cs => some (dropQuotes '"' cs)
  | _, '\\' :: '\n' :: cs => skipQuoted .leading cs
  | _, '\\' :: '\r' :: '\n' :: cs => skipQuoted .leading cs
  | _, '\\' :: 'u' :: a :: b :: c :: d :: cs => do
    let _ ← codePoint [a, b, c, d]
    skipQuoted .inside cs
  | _, '\\' :: 'U' :: a :: b :: c :: d :: e :: f :: g :: h :: cs => do
    let _ ← codePoint [a, b, c, d, e, f, g, h]
    skipQuoted .inside cs
  | _, '\\' :: c :: cs =>
    if isBlank c then skipQuoted .trailing cs
    else do
      let _ ← escape c
      skipQuoted .inside cs
  | line, '\n' :: cs => skipQuoted line cs
  | line, '\r' :: '\n' :: cs => skipQuoted line cs
  | line, c :: cs =>
    if line = .leading && isBlank c then skipQuoted .leading cs
    else if isPlain c && c != '\\' then skipQuoted .inside cs
    else none

/-- Passes over the rest of a string of several lines between single quotes. -/
def skipLiteral : List Char → Option (List Char)
  | [] => none
  | '\'' :: '\'' :: '\'' :: cs => some (dropQuotes '\'' cs)
  | '\n' :: cs => skipLiteral cs
  | '\r' :: '\n' :: cs => skipLiteral cs
  | c :: cs => if isPlain c then skipLiteral cs else none

/-- Passes over a string of any form, whose first character is a quote. -/
def skipString : List Char → Option (List Char)
  | '"' :: '"' :: '"' :: cs => skipQuoted .inside cs
  | '\'' :: '\'' :: '\'' :: cs => skipLiteral cs
  | '"' :: cs => (quotedOnto [] cs).map (·.2)
  | '\'' :: cs => (literalOnto [] cs).map (·.2)
  | _ => none

/-! ### Keys -/

/-- Characters of a key without quotes. -/
def isBare (c : Char) : Bool := c.isAlphanum || c == '-' || c == '_'

/-- Takes a part of a key. -/
def keyPart : Reader String := fun
  | '"' :: cs => quotedOnto [] cs
  | '\'' :: cs => literalOnto [] cs
  | cs =>
    match cs.span isBare with
    | ([], _) => none
    | (name, cs) => some (String.ofList name, cs)

/-- Takes the parts of a key that points part from one another; at most `limit` parts. -/
def keyParts : (limit : Nat) → Reader (List String)
  | 0 => fail
  | limit + 1 => do
    let part ← keyPart
    let after ← rest
    blanks
    match ← rest with
    | '.' :: cs => do
      set cs
      blanks
      return part :: (← keyParts limit)
    | _ => do
      set after
      return [part]

/-- A key has fewer parts than this, and values are nested less deeply. -/
def nestingLimit : Nat := 80

/-- Takes a key. -/
def key : Reader (List String) := keyParts (nestingLimit - 1)

end DexContainer.Toml
