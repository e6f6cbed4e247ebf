import TapeMachine.Instruction

/-!
# Programs

A program is the list of instructions of a source text together with the place each one came from.
Reading a text pairs its brackets in one pass: an opening bracket waits on a stack until its partner
is read, and then both learn where their jumps lead.
-/
namespace TapeMachine

/-- A bracket without a partner, with its place in the source counted in characters. -/
inductive BracketError where
  | unmatchedClose (offset : Nat)
  | unmatchedOpen (offset : Nat)
  deriving DecidableEq

namespace BracketError

def offset : BracketError → Nat
  | unmatchedClose n => n
  | unmatchedOpen n => n

def bracket : BracketError → Char
  | unmatchedClose _ => ']'
  | unmatchedOpen _ => '['

def message (e : BracketError) : String :=
  "Unmatched bracket '" ++ e.bracket.toString ++ "' at offset " ++ toString e.offset

end BracketError

structure Program where
  code : Array Instruction
  /-- The place in the source of each instruction. -/
  offsets : Array Nat

/-- What is known after a part of the source has been read. -/
structure Scan where
  code : Array Instruction := #[]
  offsets : Array Nat := #[]
  /-- The indices of the opening brackets that still wait for their partner, the innermost first. -/
  pending : List Nat := []
  /-- How many characters have been read. -/
  position : Nat := 0

namespace Scan

/-- Passes over one character. -/
def skip (s : Scan) : Scan :=
  { s with position := s.position + 1 }

/-- Adds the instruction that the present character spells. -/
def emit (s : Scan) (i : Instruction) : Scan :=
  { s with
    code := s.code.push i
    offsets := s.offsets.push s.position
    position := s.position + 1 }

/-- Adds an opening bracket, which waits for its partner. -/
def openLoop (s : Scan) : Scan :=
  { s with pending := s.code.size :: s.pending }.emit (.loopStart 0)

/-- Adds the partner of the bracket at index `start`. Each of the two jumps to the place after the
other. -/
def closeLoop (s : Scan) (start : Nat) (rest : List Nat) : Scan :=
  { s with
    code := s.code.setIfInBounds start (.loopStart (s.code.size + 1))
    pending := rest }.emit (.loopEnd (start + 1))

def read (s : Scan) (c : Char) : Except BracketError Scan :=
  match Instruction.ofChar? c with
  | none => .ok s.skip
  | some (.loopStart _) => .ok s.openLoop
  | some (.loopEnd _) =>
    match s.pending with
    | [] => .error (.unmatchedClose s.position)
    | start :: rest => .ok (s.closeLoop start rest)
  | some i => .ok (s.emit i)

def readAll (s : Scan) : List Char → Except BracketError Scan
  | [] => .ok s
  | c :: rest =>
    match s.read c with
    | .ok s' => s'.readAll rest
    | .error e => .error e

/-- The innermost opening bracket that never met its partner is at fault. -/
def finish (s : Scan) : Except BracketError Program :=
  match s.pending with
  | [] => .ok ⟨s.code, s.offsets⟩
  | start :: _ => .error (.unmatchedOpen (s.offsets.getD start 0))

end Scan

namespace Program

def parseChars (source : List Char) : Except BracketError Program :=
  match Scan.readAll {} source with
  | .ok s => s.finish
  | .error e => .error e

def parse (source : String) : Except BracketError Program :=
  parseChars source.toList

/-- Whether some instruction reads input. -/
def readsInput (p : Program) : Bool :=
  p.code.contains .input

end Program

end TapeMachine
