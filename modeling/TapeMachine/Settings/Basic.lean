import TapeMachine.Settings.MemorySize
import TapeMachine.Text.Blank

/-!
# Settings

The limits of a run. They start from defaults, and each layer laid over them replaces the fields for
which it has a valid text. A text that is not valid leaves its field as it was and is warned about.
-/
namespace TapeMachine

structure Settings where
  memorySize : Nat := 256
  maxSteps : Option Nat := none
  timeoutMs : Nat := 2000
  deriving DecidableEq

/-- The name of a field. -/
inductive Key where
  | memorySize
  | timeoutMs
  | maxSteps
  deriving DecidableEq

namespace Key

/-- The order in which a layer is laid over the settings. -/
def all : List Key := [.memorySize, .timeoutMs, .maxSteps]

def name : Key → String
  | memorySize => "memory_size"
  | timeoutMs => "timeout_ms"
  | maxSteps => "max_steps"

/-- The environment variable for the field. -/
def envName : Key → String
  | memorySize => "BF_MEMORY_SIZE"
  | timeoutMs => "BF_TIMEOUT_MS"
  | maxSteps => "BF_MAX_STEPS"

end Key

/-- The texts that one source of settings gives for the fields. -/
def Layer := Key → Option String

/-- A text that was passed over. Only a memory size comes with the reason. -/
structure Warning where
  key : Key
  value : String
  reason? : Option String := none

namespace Settings

def assign (s : Settings) (key : Key) (text : String) : Except Warning Settings :=
  match key with
  | .memorySize =>
    match readMemorySize text with
    | .ok n => .ok { s with memorySize := n }
    | .error e => .error { key := key, value := text, reason? := some e.message }
  | .timeoutMs =>
    match Text.readNumeral text.toList with
    | .ok n => .ok { s with timeoutMs := n }
    | .error _ => .error { key := key, value := text }
  | .maxSteps =>
    match Text.readNumeral text.toList with
    | .ok n => .ok { s with maxSteps := some n }
    | .error _ => .error { key := key, value := text }

/-- Lays over one field, and adds to the warnings given so far. -/
def overlayKey (layer : Layer) (sofar : Settings × List Warning) (key : Key) :
    Settings × List Warning :=
  match layer key with
  | none => sofar
  | some text =>
    match sofar.1.assign key text with
    | .ok s => (s, sofar.2)
    | .error w => (sofar.1, sofar.2 ++ [w])

def overlay (s : Settings) (layer : Layer) : Settings × List Warning :=
  Key.all.foldl (overlayKey layer) (s, [])

end Settings

/-- The layer of an environment. Blanks around a value do not count. -/
def environmentLayer (lookup : String → Option String) : Layer :=
  fun key => (lookup key.envName).map Text.trim

end TapeMachine
