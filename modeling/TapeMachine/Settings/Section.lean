import TapeMachine.Settings.Basic

/-!
# The interpreter section of a settings file

A settings file has sections under headers in square brackets, and in them entries, a key and a
value around an equals sign. Only the entries under an interpreter header count; a section may be
left and entered again, and of two entries for one key the later one holds.
-/
namespace TapeMachine

/-- What a line of a settings file is, blanks at its ends left out. -/
inductive SettingsLine where
  | header (name : List Char)
  | entry (key value : List Char)
  | other

/-- Splits at the first equals sign. -/
def splitAtEquals? : List Char → Option (List Char × List Char)
  | [] => none
  | c :: rest =>
    if c = '=' then some ([], rest)
    else (splitAtEquals? rest).map fun parts => (c :: parts.1, parts.2)

/-- Removes the quotes of a value that has one at each end. -/
def unquote (value : List Char) : List Char :=
  match value with
  | '"' :: rest => if rest.getLast? = some '"' then rest.dropLast else value
  | _ => value

def isHeader (line : List Char) : Bool :=
  line.head? == some '[' && line.getLast? == some ']'

def SettingsLine.ofChars (raw : List Char) : SettingsLine :=
  let line := Text.trimChars raw
  if line.head? = some '#' then .other
  else if isHeader line then .header (Text.trimChars line.tail.dropLast)
  else match splitAtEquals? line with
    | some (key, value) => .entry (Text.trimChars key) (unquote (Text.trimChars value))
    | none => .other

/-- The lines of a text, without their line feeds. -/
def linesOf : List Char → List (List Char)
  | [] => [[]]
  | c :: rest =>
    if c = '\n' then [] :: linesOf rest
    else match linesOf rest with
      | [] => [[c]]
      | line :: lines => (c :: line) :: lines

/-- The name of the section that is read. -/
def sectionName : List Char := "interpreter".toList

/-- The entries of a file in their order, from a place that is inside the section or not. -/
def sectionEntries (inside : Bool) : List SettingsLine → List (String × String)
  | [] => []
  | .header name :: rest => sectionEntries (name == sectionName) rest
  | .entry key value :: rest =>
    if inside then (String.ofList key, String.ofList value) :: sectionEntries inside rest
    else sectionEntries inside rest
  | .other :: rest => sectionEntries inside rest

def readSection (content : String) : List (String × String) :=
  sectionEntries false ((linesOf content.toList).map SettingsLine.ofChars)

/-- The value that holds for a key. -/
def lastValue? (entries : List (String × String)) (key : String) : Option String :=
  entries.reverse.lookup key

def sectionLayer (entries : List (String × String)) : Layer :=
  fun key => lastValue? entries key.name

end TapeMachine
