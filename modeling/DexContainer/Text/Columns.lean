/-! Text in columns: a text is filled up with blanks to the width of its column and never cut. -/

namespace DexContainer.Columns

/-- The blanks that a text lacks to a width. -/
def fill (width : Nat) (text : String) : String :=
  String.ofList (List.replicate (width - text.length) ' ')

/-- A text at the left of its column. -/
def left (width : Nat) (text : String) : String := text ++ fill width text

/-- A text at the right of its column. -/
def right (width : Nat) (text : String) : String := fill width text ++ text

end DexContainer.Columns
