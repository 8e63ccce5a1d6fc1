import DexContainer.Toml.Number

/-! TOML documents. Of the values only the truth values are kept; all others are checked and stand
as `other`. A table is defined once: by a header, by dotted keys, or by the headers of tables
inside it, and only a table of the last sort can still be given a header of its own. -/

namespace DexContainer.Toml

/-- A value. -/
inductive Value
  | boolean (value : Bool)
  | other
deriving DecidableEq, Repr

mutual

/-- What a key stands for. -/
inductive Node
  | value (value : Value)
  | table (table : Table)
  /-- An array of tables, of which only the last can still change. -/
  | tables (last : Table)

/-- A table. -/
structure Table where
  /-- The table has no header of its own. -/
  isImplicit : Bool
  /-- The table was made by a dotted key. -/
  isDotted : Bool
  entries : List (String × Node)

end

namespace Table

/-- A table with a header, or the whole document. -/
def empty : Table := ⟨false, false, []⟩

/-- What a key stands for. -/
def find? (t : Table) (k : String) : Option Node := t.entries.lookup k

/-- Makes a key stand for something. -/
def insert (t : Table) (k : String) (n : Node) : Table :=
  { t with entries := (k, n) :: t.entries.filter (·.1 ≠ k) }

/-- Changes the table at a path. Tables that are missing on the way are made; an array of tables
leads to its last table; a value leads nowhere, and a dotted key does not lead into a table that
has a header. -/
def changeAt (dotted : Bool) (f : Table → Option Table) : List String → Table → Option Table
  | [], t => f t
  | k :: ks, t =>
    match t.find? k with
    | none => do return t.insert k (.table (← changeAt dotted f ks ⟨true, dotted, []⟩))
    | some (.value _) => none
    | some (.tables last) => do return t.insert k (.tables (← changeAt dotted f ks last))
    | some (.table child) =>
      if dotted && !child.isImplicit then none
      else do return t.insert k (.table (← changeAt dotted f ks child))

/-- Adds a value under a new key. A table takes values by dotted keys only if it was made by one. -/
def addValue (dotted : Bool) (k : String) (v : Value) (t : Table) : Option Table :=
  if t.isDotted != dotted || (t.find? k).isSome then none else some (t.insert k (.value v))

/-- Adds a value under a dotted key. -/
def assign (path : List String) (v : Value) (t : Table) : Option Table := do
  let k ← path.getLast?
  let parents := path.dropLast
  changeAt true (addValue (!parents.isEmpty) k v) parents t

/-- Gives a table its header. -/
def addHeader (k : String) (t : Table) : Option Table :=
  match t.find? k with
  | none => some (t.insert k (.table empty))
  | some (.table child) =>
    if child.isImplicit && !child.isDotted then
      some (t.insert k (.table { child with isImplicit := false }))
    else none
  | some _ => none

/-- Adds a table to an array of tables. -/
def addMember (k : String) (t : Table) : Option Table :=
  match t.find? k with
  | none => some (t.insert k (.tables empty))
  | some (.tables _) => some (t.insert k (.tables empty))
  | some _ => none

end Table

/-! ### Values -/

/-- Takes over the outcome of a change. -/
def ofOption : Option α → Reader α
  | some a => pure a
  | none => fail

/-- Passes over the rest of an array, given how its values are read; at most `limit` values. -/
def arrayRest (value : Reader Value) : (limit : Nat) → Reader Unit
  | 0 => fail
  | limit + 1 => do
    gap (← rest).length
    match ← rest with
    | ']' :: cs => set cs
    | _ => do
      let _ ← value
      gap (← rest).length
      match ← rest with
      | ',' :: cs => do
        set cs
        arrayRest value limit
      | ']' :: cs => set cs
      | _ => fail

/-- Takes a key and its value. -/
def keyValue (value : Reader Value) : Reader (List String × Value) := do
  let path ← key
  blanks
  expect '='
  blanks
  return (path, ← value)

/-- Passes over the entries of a table in one line, which form a table of their own; at most
`limit` entries. -/
def inlineRest (value : Reader Value) : (limit : Nat) → Table → Reader Unit
  | 0, _ => fail
  | limit + 1, t => do
    blanks
    let (path, v) ← keyValue value
    let t ← ofOption (t.assign path v)
    blanks
    match ← rest with
    | ',' :: cs => do
      set cs
      inlineRest value limit t
    | cs => do
      set cs
      expect '\x7d'

/-- Passes over a table in one line behind its opening brace. -/
def inlineTable (value : Reader Value) : Reader Unit := do
  blanks
  match ← rest with
  | '\x7d' :: cs => set cs
  | cs => inlineRest value (cs.length + 1) .empty

/-- Takes a value that is nested at most this deeply. -/
def valueWithin : (levels : Nat) → Reader Value
  | 0 => fail
  | levels + 1 => do
    match ← rest with
    | 't' :: _ => do
      advance (word ['t', 'r', 'u', 'e'])
      return .boolean true
    | 'f' :: _ => do
      advance (word ['f', 'a', 'l', 's', 'e'])
      return .boolean false
    | '"' :: _ | '\'' :: _ => do
      advance skipString
      return .other
    | '[' :: cs => do
      if levels = 0 then fail
      set cs
      arrayRest (valueWithin levels) (cs.length + 1)
      return .other
    | '\x7b' :: cs => do
      if levels = 0 then fail
      set cs
      inlineTable (valueWithin levels)
      return .other
    | _ => do
      advance skipNumber
      return .other

/-- Takes a value. -/
def value : Reader Value := valueWithin nestingLimit

/-! ### Documents -/

/-- The tables read so far and the path of the table that takes the next values. -/
structure Document where
  root : Table := .empty
  current : List String := []

namespace Document

/-- Starts a table. -/
def startTable (d : Document) (path : List String) : Option Document := do
  let k ← path.getLast?
  return ⟨← d.root.changeAt false (Table.addHeader k) path.dropLast, path⟩

/-- Starts a member of an array of tables. -/
def startMember (d : Document) (path : List String) : Option Document := do
  let k ← path.getLast?
  return ⟨← d.root.changeAt false (Table.addMember k) path.dropLast, path⟩

/-- Adds a value to the current table. -/
def assign (d : Document) (path : List String) (v : Value) : Option Document := do
  return { d with root := ← d.root.changeAt false (Table.assign path v) d.current }

end Document

/-- Takes one line. -/
def line (d : Document) : Reader Document := do
  blanks
  match ← rest with
  | '[' :: '[' :: cs => do
    set cs
    blanks
    let path ← key
    blanks
    expect ']'
    expect ']'
    lineEnd
    ofOption (d.startMember path)
  | '[' :: cs => do
    set cs
    blanks
    let path ← key
    blanks
    expect ']'
    lineEnd
    ofOption (d.startTable path)
  | cs =>
    if cs.isEmpty || cs.head? == some '#' || (lineBreak? cs).isSome then do
      lineEnd
      return d
    else do
      let (path, v) ← keyValue value
      lineEnd
      ofOption (d.assign path v)

/-- Takes the lines of a document; at most `limit` lines. -/
def lines : (limit : Nat) → Document → Reader Document
  | 0, d => pure d
  | limit + 1, d => do
    match ← rest with
    | [] => return d
    | _ => lines limit (← line d)

/-- The table that a document holds, without the mark that may stand before a text. -/
def parse (text : String) : Option Table := do
  let cs := text.toList
  let cs := if cs.head? == some (Char.ofNat 0xfeff) then cs.tail else cs
  let (d, _) ← lines (cs.length + 1) {} cs
  return d.root

end DexContainer.Toml
