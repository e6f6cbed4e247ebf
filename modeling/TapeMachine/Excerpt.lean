import TapeMachine.Text.Layout

/-!
# Excerpts

A place in a source text is shown by the text around it, on one line, with a caret under the place.
Places are counted in characters.
-/
namespace TapeMachine

/-- How many characters are shown on either side of the place. -/
def excerptReach : Nat := 32

structure Excerpt where
  header : String
  slice : String
  underline : String

/-- Line ends and tabs would tear the caret from its place. -/
def flattened (c : Char) : Char :=
  if c = '\n' ∨ c = '\t' then ' ' else c

/-- The place may lie beyond the end of the source; then the caret stands beyond the slice too. -/
def Excerpt.around (title : String) (source : List Char) (position : Nat) : Excerpt :=
  let start := position - excerptReach
  let stop := min (position + excerptReach + 1) source.length
  { header := title ++ " at position " ++ toString position
    slice := String.ofList (((source.drop start).take (stop - start)).map flattened)
    underline := Text.blanks (position - start) ++ "^" }

def Excerpt.text (e : Excerpt) : String :=
  e.header ++ "\n  " ++ e.slice ++ "\n  " ++ e.underline ++ "\n"

end TapeMachine
