/-!
# Letters

Texts compared without regard to the case of their letters. Only the letters of ASCII have a case
here.
-/
namespace TapeMachine.Text

/-- A text in small letters. -/
def asciiLower (text : String) : String :=
  String.ofList (text.toList.map Char.toLower)

end TapeMachine.Text
