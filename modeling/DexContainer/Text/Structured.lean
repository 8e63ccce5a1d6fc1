/-! Structured text: objects, arrays, numbers and plain texts in JSON, one member to a line and
two blanks for each level. The texts that occur hold no character that needs an escape. -/

namespace DexContainer.Structured

/-- A structured value. -/
inductive Tree
  | text (value : String)
  | number (value : Nat)
  | absent
  | array (members : List Tree)
  | object (members : List (String × Tree))

/-- A text between quotes. -/
def quoted (text : String) : String := "\"" ++ text ++ "\""

/-- The blanks of a level. -/
def indentation (level : Nat) : String := String.ofList (List.replicate (2 * level) ' ')

/-- Members between an opening and a closing mark, each on a line of its own. -/
def enclosed (opening closing : String) (level : Nat) (members : List String) : String :=
  if members.isEmpty then opening ++ closing
  else
    let lines := members.map fun m => "\n" ++ indentation (level + 1) ++ m
    opening ++ ",".intercalate lines ++ "\n" ++ indentation level ++ closing

mutual

/-- The text of a value at a level. -/
def render (level : Nat) : Tree → String
  | .text value => quoted value
  | .number value => toString value
  | .absent => "null"
  | .array members => enclosed "[" "]" level (renderAll (level + 1) members)
  | .object members => enclosed "\x7b" "\x7d" level (renderMembers (level + 1) members)

/-- The texts of some values. -/
def renderAll (level : Nat) : List Tree → List String
  | [] => []
  | t :: ts => render level t :: renderAll level ts

/-- The texts of some named values. -/
def renderMembers (level : Nat) : List (String × Tree) → List String
  | [] => []
  | (name, t) :: ts => (quoted name ++ ": " ++ render level t) :: renderMembers level ts

end

end DexContainer.Structured
