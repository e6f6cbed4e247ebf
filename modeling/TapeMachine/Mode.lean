import TapeMachine.Text.Blank
import TapeMachine.Text.Letters

/-!
# Session modes

A session either runs standard input once or edits lines on a terminal. A flag decides between the
two, else the environment, else whether standard input is a terminal; an editor needs one.
-/
namespace TapeMachine

inductive Mode where
  | bare
  | editor
  deriving DecidableEq

def Mode.name : Mode → String
  | bare => "Bare"
  | editor => "Editor"

/-- The flag that asks for the mode. -/
def Mode.flag : Mode → String
  | bare => "--bare"
  | editor => "--editor"

inductive ModeError where
  | flagNeedsTerminal
  | variableNeedsTerminal
  | unknownValue (value : String)
  deriving DecidableEq

def ModeError.message : ModeError → String
  | flagNeedsTerminal =>
    "cannot start editor: stdin is not a TTY (use --bare or BF_REPL_MODE=bare)"
  | variableNeedsTerminal => "cannot start editor: stdin is not a TTY (use BF_REPL_MODE=bare)"
  | unknownValue value =>
    "invalid BF_REPL_MODE value: " ++ value ++ ", must be 'bare' or 'editor'"

/-- The mode that the flags ask for. -/
def flaggedMode (bare editor : Bool) : Option Mode :=
  if bare then some .bare else if editor then some .editor else none

def resolveMode (flag? : Option Mode) (value? : Option String) (terminal : Bool) :
    Except ModeError Mode :=
  match flag?, value? with
  | some .bare, _ => .ok .bare
  | some .editor, _ => if terminal then .ok .editor else .error .flagNeedsTerminal
  | none, some value =>
    match Text.asciiLower (Text.trim value) with
    | "bare" => .ok .bare
    | "editor" => if terminal then .ok .editor else .error .variableNeedsTerminal
    | _ => .error (.unknownValue value)
  | none, none => .ok (if terminal then .editor else .bare)

end TapeMachine
