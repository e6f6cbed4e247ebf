/-!
# Visible text

What a terminal shows of a text. Of the control characters only those that lay out lines are shown,
and the sequences that an escape character opens are obeyed and not shown.

A layout character inside a sequence is shown and interrupts it: what follows is plain text until
another control character takes the sequence up again. Inside a message to the terminal nothing is
shown at all.
-/
namespace TapeMachine.Text

/-- Tab, line feed, form feed and carriage return. -/
def isLayout (c : Char) : Bool :=
  c == '\t' || c == '\n' || c == '\x0c' || c == '\r'

/-- The characters of ASCII that have no shape. -/
def isControl (c : Char) : Bool :=
  c < ' ' || c == '\x7f'

def isAscii (c : Char) : Bool :=
  c ≤ '\x7f'

/-- Whether a byte of the character is that of the string terminator. -/
def holdsTerminator (c : Char) : Bool :=
  (String.utf8EncodeChar c).contains 0x9c

/-- The sequences that end with a letter. -/
inductive Sequence where
  /-- Nothing but the escape character so far. -/
  | escape
  /-- An escape sequence of three characters or more. -/
  | long
  /-- A control sequence, with its parameters. -/
  | control
  deriving DecidableEq

/-- Where a terminal stands in a text. -/
inductive Display where
  | plain
  | within (s : Sequence)
  | interrupted (s : Sequence)
  /-- At the start of a message to the device. -/
  | deviceStart
  /-- Among the parameters of such a message. -/
  | deviceParameters
  /-- Behind its parameters. -/
  | deviceMarks
  /-- In the text of a message, up to the string terminator. -/
  | message
  /-- In a command to the system that the terminal runs on, up to a bell. -/
  | command
  deriving DecidableEq

/-- Whether the character is shown outside of all sequences. -/
def isShown (c : Char) : Bool :=
  !isControl c || isLayout c

namespace Display

/-- Whether the character is shown at this place. -/
def shows (d : Display) (c : Char) : Bool :=
  match d with
  | plain | interrupted _ => isShown c
  | within _ => isLayout c
  | _ => false

/-- What the character behind an escape character opens. -/
def opened (c : Char) : Display :=
  if c < ' ' || '~' < c then within .escape
  else if c < '0' then within .long
  else if c == '[' then within .control
  else if c == ']' then command
  else if c == 'P' then deviceStart
  else if c == 'X' || c == '^' || c == '_' then message
  else plain

/-- The place behind a character that does not interrupt the sequence. -/
def inside (s : Sequence) (c : Char) : Display :=
  match s with
  | .escape => opened c
  | .long => if '0' ≤ c && c ≤ '~' then plain else within .long
  | .control => if '@' ≤ c && c ≤ '~' then plain else within .control

/-- The place behind the character. Cancel and substitute end every sequence. -/
def next (d : Display) (c : Char) : Display :=
  if c == '\x1b' then within .escape
  else if c == '\x18' || c == '\x1a' then plain
  else match d with
    | plain => plain
    | within s => if isLayout c then interrupted s else inside s c
    | interrupted s =>
      if !isAscii c then plain else if isShown c then interrupted s else within s
    | deviceStart =>
      if c < ' ' || '~' < c then deviceStart
      else if c < '0' then deviceMarks
      else if c < '@' then deviceParameters
      else message
    | deviceParameters =>
      if c < ' ' || '~' < c then deviceParameters
      else if c < '0' then deviceMarks
      else if c < '<' then deviceParameters
      else message
    | deviceMarks => if '0' ≤ c && c ≤ '~' then message else deviceMarks
    | message => if holdsTerminator c then plain else message
    | command => if c == '\x07' then plain else command

end Display

def visibleFrom (d : Display) : List Char → List Char
  | [] => []
  | c :: rest =>
    if d.shows c then c :: visibleFrom (d.next c) rest else visibleFrom (d.next c) rest

def visible (text : String) : String :=
  String.ofList (visibleFrom .plain text.toList)

end TapeMachine.Text
