/-!
# Runs of one character and padded columns
-/
namespace TapeMachine.Text

def replicate (n : Nat) (c : Char) : String :=
  String.ofList (List.replicate n c)

def blanks (n : Nat) : String :=
  replicate n ' '

/-- Fills a text up with blanks on its right to the width of a column. A longer text stays whole. -/
def padRight (width : Nat) (text : String) : String :=
  text ++ blanks (width - text.length)

end TapeMachine.Text
