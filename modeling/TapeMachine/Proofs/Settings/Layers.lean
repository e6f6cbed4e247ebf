import Mathlib.Algebra.Group.Nat.Defs
import TapeMachine.CommandLine.Plan
import TapeMachine.Proofs.Text.Decimal
import TapeMachine.Proofs.Text.Trim

/-!
# Layers of settings

Each field of the settings is decided on its own. Whatever is laid over them, and in whatever order,
a field holds the number of the last layer with a valid text for it, or its default if there is none.
-/
namespace TapeMachine

/-- The field may be set to `n` by this text. -/
structure Key.Admits (key : Key) (text : List Char) (n : Nat) : Prop where
  spells : Text.Spells text n
  fits : n < 2 ^ 64
  limit : key = .memorySize → n ≤ 2 ^ 24

/-- What can be laid over settings: the entries of a file, or an environment. -/
inductive Overlay where
  | entries (given : List (String × String))
  | environment (lookup : String → Option String)

namespace Overlay

def layer : Overlay → Layer
  | entries given => sectionLayer given
  | environment lookup => environmentLayer lookup

/-- The text that is present for a field. In an environment blanks around it do not count. -/
def Offers (o : Overlay) (key : Key) (text : List Char) : Prop :=
  match o with
  | entries given => ∃ value, lastValue? given key.name = some value ∧ value.toList = text
  | environment lookup => ∃ raw, lookup key.envName = some raw ∧ Text.Trimmed raw.toList text

/-- A text is present for the field, and it is valid. -/
def Gives (o : Overlay) (key : Key) (n : Nat) : Prop :=
  ∃ text, o.Offers key text ∧ key.Admits text n

/-- The last overlay with a valid text for the field gives `n`. -/
def LastGives (overlays : List Overlay) (key : Key) (n : Nat) : Prop :=
  ∃ earlier o later, overlays = earlier ++ o :: later ∧ o.Gives key n ∧
    ∀ o' ∈ later, ∀ k, ¬ o'.Gives key k

end Overlay

/-- A layer without its text for one field. -/
def Layer.without (layer : Layer) (key : Key) : Layer :=
  fun k => if k = key then none else layer k

namespace Settings

/-- The number that a field holds, if it holds one. -/
def field (s : Settings) : Key → Option Nat
  | .memorySize => some s.memorySize
  | .timeoutMs => some s.timeoutMs
  | .maxSteps => s.maxSteps

/-- The settings once all of these have been laid over them, one after the other. -/
def overlayAll (s : Settings) (overlays : List Overlay) : Settings :=
  overlays.foldl (fun s o => (s.overlay o.layer).1) s

end Settings

/-- What the program lays over its defaults: the settings file, if there is one, and its
environment. -/
def CommandLine.World.overlays (w : World) : List Overlay :=
  (w.settingsFile?.map fun file => Overlay.entries (readSection file.2)).toList ++
    [.environment w.environment]

/-! ### Valid texts -/

/-- The number that a text gives to a field, if it is valid. -/
def Key.value? (key : Key) (text : String) : Option Nat :=
  match key with
  | .memorySize => (readMemorySize text).toOption
  | .timeoutMs => (Text.readNumeral text.toList).toOption
  | .maxSteps => (Text.readNumeral text.toList).toOption

theorem toOption_eq_some_iff {ε α : Type} {r : Except ε α} {a : α} :
    r.toOption = some a ↔ r = .ok a := by
  cases r <;> simp [Except.toOption]

theorem readMemorySize_eq_ok_iff (text : String) (n : Nat) :
    readMemorySize text = .ok n ↔ Text.readNumeral text.toList = .ok n ∧ n ≤ 2 ^ 24 := by
  have hlimit : memoryLimit = 2 ^ 24 := rfl
  rw [readMemorySize, ← hlimit]
  cases Text.readNumeral text.toList with
  | error e => simp
  | ok k =>
    simp only [checkMemorySize, Except.ok.injEq]
    by_cases hk : k ≤ memoryLimit
    · rw [if_pos hk, Except.ok.injEq]
      constructor
      · rintro rfl
        exact ⟨rfl, hk⟩
      · rintro ⟨h, -⟩
        exact h
    · rw [if_neg hk]
      constructor
      · intro h
        contradiction
      · rintro ⟨rfl, hn⟩
        exact absurd hn hk

theorem Key.admits_iff {key : Key} {text : List Char} {n : Nat} : key.Admits text n ↔
    Text.readNumeral text = .ok n ∧ (key = .memorySize → n ≤ 2 ^ 24) := by
  have hbound : Text.numeralBound = 2 ^ 64 := rfl
  rw [Text.readNumeral_eq_ok_iff, hbound]
  constructor
  · rintro ⟨hspells, hfits, hlimit⟩
    exact ⟨⟨hspells, hfits⟩, hlimit⟩
  · rintro ⟨⟨hspells, hfits⟩, hlimit⟩
    exact ⟨hspells, hfits, hlimit⟩

theorem Key.value?_eq_some_iff (key : Key) (text : String) (n : Nat) :
    key.value? text = some n ↔ key.Admits text.toList n := by
  rw [admits_iff]
  cases key with
  | memorySize => simp [value?, toOption_eq_some_iff, readMemorySize_eq_ok_iff]
  | timeoutMs => simp [value?, toOption_eq_some_iff]
  | maxSteps => simp [value?, toOption_eq_some_iff]

/-- The number that a layer gives to a field. -/
def Layer.value? (layer : Layer) (key : Key) : Option Nat :=
  (layer key).bind key.value?

namespace Overlay

variable {o : Overlay} {key : Key}

theorem offers_iff (text : List Char) :
    o.Offers key text ↔ ∃ value, o.layer key = some value ∧ value.toList = text := by
  cases o with
  | entries given => rfl
  | environment lookup =>
    simp only [Offers, layer, environmentLayer, Option.map_eq_some_iff, Text.trimmed_iff]
    constructor
    · rintro ⟨raw, hraw, htext⟩
      exact ⟨Text.trim raw, ⟨raw, hraw, rfl⟩, by rw [Text.trim, String.toList_ofList, htext]⟩
    · rintro ⟨value, ⟨raw, hraw, rfl⟩, htext⟩
      rw [Text.trim, String.toList_ofList] at htext
      exact ⟨raw, hraw, htext⟩

theorem value?_layer_eq_some_iff (n : Nat) : o.layer.value? key = some n ↔ o.Gives key n := by
  simp only [Layer.value?, Option.bind_eq_some_iff, Key.value?_eq_some_iff, Gives, offers_iff]
  constructor
  · rintro ⟨value, hvalue, hadmits⟩
    exact ⟨value.toList, ⟨value, hvalue, rfl⟩, hadmits⟩
  · rintro ⟨text, ⟨value, hvalue, rfl⟩, hadmits⟩
    exact ⟨value, hvalue, hadmits⟩

theorem value?_layer_eq_none_iff : o.layer.value? key = none ↔ ∀ n, ¬ o.Gives key n := by
  simp only [Option.eq_none_iff_forall_ne_some, ne_eq, value?_layer_eq_some_iff]

/-- The last overlay that gives a number is the first one from behind. -/
theorem findSome?_reverse_eq_some_iff (overlays : List Overlay) (n : Nat) :
    (overlays.reverse.findSome? fun o => o.layer.value? key) = some n ↔
      LastGives overlays key n := by
  rw [List.findSome?_eq_some_iff]
  constructor
  · rintro ⟨later, o, earlier, hsplit, hvalue, hnone⟩
    refine ⟨earlier.reverse, o, later.reverse, ?_, (value?_layer_eq_some_iff n).mp hvalue, ?_⟩
    · simpa using congrArg List.reverse hsplit
    · intro o' ho'
      exact value?_layer_eq_none_iff.mp (hnone o' (List.mem_reverse.mp ho'))
  · rintro ⟨earlier, o, later, rfl, hgives, hnone⟩
    refine ⟨later.reverse, o, earlier.reverse, by simp, (value?_layer_eq_some_iff n).mpr hgives, ?_⟩
    intro o' ho'
    exact value?_layer_eq_none_iff.mpr (hnone o' (List.mem_reverse.mp ho'))

theorem findSome?_reverse_eq_none_iff (overlays : List Overlay) :
    (overlays.reverse.findSome? fun o => o.layer.value? key) = none ↔
      ∀ o ∈ overlays, ∀ n, ¬ o.Gives key n := by
  simp [List.findSome?_eq_none_iff, value?_layer_eq_none_iff]

end Overlay

/-! ### Fields -/

namespace Settings

theorem ext_field {s t : Settings} (h : ∀ key, s.field key = t.field key) : s = t := by
  have hmemory : s.memorySize = t.memorySize := Option.some.inj (h .memorySize)
  have htimeout : s.timeoutMs = t.timeoutMs := Option.some.inj (h .timeoutMs)
  have hsteps : s.maxSteps = t.maxSteps := h .maxSteps
  cases s
  cases t
  simp_all

/-- One field takes the number of the layer, if there is one, and the others stay. -/
theorem field_overlayKey (layer : Layer) (sofar : Settings × List Warning) (key k : Key) :
    (overlayKey layer sofar key).1.field k =
      if k = key then (layer.value? key).or (sofar.1.field key) else sofar.1.field k := by
  rw [overlayKey, Layer.value?]
  cases layer key with
  | none =>
    by_cases h : k = key
    · rw [if_pos h, h]
      rfl
    · rw [if_neg h]
  | some text =>
    cases key with
    | memorySize =>
      simp only [assign, Option.bind_some, Key.value?]
      cases readMemorySize text <;> cases k <;> rfl
    | timeoutMs =>
      simp only [assign, Option.bind_some, Key.value?]
      cases Text.readNumeral text.toList <;> cases k <;> rfl
    | maxSteps =>
      simp only [assign, Option.bind_some, Key.value?]
      cases Text.readNumeral text.toList <;> cases k <;> rfl

theorem field_overlay (s : Settings) (layer : Layer) (key : Key) :
    (s.overlay layer).1.field key = (layer.value? key).or (s.field key) := by
  cases key <;> simp [overlay, Key.all, field_overlayKey]

/-- A field asks the overlays from the last to the first one. -/
theorem field_overlayAll (s : Settings) (overlays : List Overlay) (key : Key) :
    (s.overlayAll overlays).field key =
      (overlays.reverse.findSome? fun o => o.layer.value? key).or (s.field key) := by
  induction overlays generalizing s with
  | nil => rfl
  | cons o rest ih =>
    have hfirst : s.overlayAll (o :: rest) = (s.overlay o.layer).1.overlayAll rest := rfl
    rw [hfirst, ih, field_overlay, List.reverse_cons, List.findSome?_append, Option.or_assoc]
    simp

theorem overlayAll_append (s : Settings) (earlier later : List Overlay) :
    s.overlayAll (earlier ++ later) = (s.overlayAll earlier).overlayAll later :=
  List.foldl_append

/-- A layer without a valid text for a field might as well have none. -/
theorem overlay_without (s : Settings) {layer : Layer} {key : Key} (h : layer.value? key = none) :
    (s.overlay layer).1 = (s.overlay (layer.without key)).1 := by
  apply ext_field
  intro k
  have hvalue : (layer.without key).value? k = layer.value? k := by
    by_cases hk : k = key
    · rw [hk, h, Layer.value?, Layer.without, if_pos rfl]
      rfl
    · rw [Layer.value?, Layer.without, if_neg hk]
      rfl
  rw [field_overlay, field_overlay, hvalue]

theorem field_overlayAll_eq_some_iff (s : Settings) (overlays : List Overlay) (key : Key) (n : Nat) :
    (s.overlayAll overlays).field key = some n ↔ Overlay.LastGives overlays key n ∨
      (∀ o ∈ overlays, ∀ k, ¬ o.Gives key k) ∧ s.field key = some n := by
  rw [field_overlayAll, Option.or_eq_some_iff, Overlay.findSome?_reverse_eq_some_iff,
    Overlay.findSome?_reverse_eq_none_iff]

/-- No overlay takes a number away again. -/
theorem field_overlayAll_ne_none {s : Settings} {key : Key} (overlays : List Overlay)
    (h : s.field key ≠ none) : (s.overlayAll overlays).field key ≠ none := by
  rw [field_overlayAll, ne_eq, Option.or_eq_none_iff]
  rintro ⟨-, hnone⟩
  exact h hnone

theorem memorySize_overlayAll_le (overlays : List Overlay) :
    (({} : Settings).overlayAll overlays).memorySize ≤ 2 ^ 24 := by
  have hfield := (field_overlayAll_eq_some_iff {} overlays .memorySize _).mp rfl
  rcases hfield with ⟨earlier, o, later, -, ⟨text, -, hadmits⟩, -⟩ | ⟨-, hdefault⟩
  · exact hadmits.limit rfl
  · rw [← Option.some.inj hdefault]
    decide

end Settings

theorem CommandLine.World.settings_eq_overlayAll (w : World) :
    w.settings.1 = ({} : Settings).overlayAll w.overlays := by
  rw [settings, overlays]
  cases w.settingsFile? with
  | none => rfl
  | some file => rfl

/-- After any overlays each field holds the number of the last one with a valid text for it, or its
default if none has one. A text that is not valid is as good as none, for its own field and for all
others. So the memory size stays within its limit, and a step limit that is set stays set. The
program itself goes through such overlays. -/
theorem last_valid_text_decides_each_field (overlays : List Overlay) :
    let s := ({} : Settings).overlayAll overlays
    (∀ key n, s.field key = some n ↔ Overlay.LastGives overlays key n ∨
      (∀ o ∈ overlays, ∀ k, ¬ o.Gives key k) ∧ ({} : Settings).field key = some n) ∧
    (∀ (t : Settings) (o : Overlay) (key : Key), (∀ n, ¬ o.Gives key n) →
      (t.overlay o.layer).1.field key = t.field key ∧
        (t.overlay o.layer).1 = (t.overlay (o.layer.without key)).1) ∧
    s.memorySize ≤ 2 ^ 24 ∧
    (∀ earlier later, overlays = earlier ++ later →
      (({} : Settings).overlayAll earlier).maxSteps ≠ none → s.maxSteps ≠ none) ∧
    ∀ w : CommandLine.World, w.settings.1 = ({} : Settings).overlayAll w.overlays := by
  intro s
  refine ⟨Settings.field_overlayAll_eq_some_iff {} overlays, ?_,
    Settings.memorySize_overlayAll_le overlays, ?_,
    CommandLine.World.settings_eq_overlayAll⟩
  · intro t o key hnone
    have hvalue := Overlay.value?_layer_eq_none_iff.mpr hnone
    constructor
    · rw [Settings.field_overlay, hvalue, Option.none_or]
    · exact t.overlay_without hvalue
  · rintro earlier later hsplit hset
    have hs : s = (({} : Settings).overlayAll earlier).overlayAll later := by
      rw [← Settings.overlayAll_append, ← hsplit]
    have hfield : (({} : Settings).overlayAll earlier).field .maxSteps ≠ none := hset
    rw [hs]
    exact Settings.field_overlayAll_ne_none later hfield

/-- The file sets a step limit and the environment replaces its time limit. Neither has a valid memory
size: the one is no numeral, and the other is too large by one. -/
theorem last_valid_text_decides_each_field_past_invalid_texts :
    let file : Overlay := .entries
      (readSection "[interpreter]\nmemory_size = lots\nmax_steps = \"+7\"\ntimeout_ms = 100\n")
    let environment : Overlay := .environment fun name =>
      if name = "BF_TIMEOUT_MS" then some "\t900 "
      else if name = "BF_MEMORY_SIZE" then some "16777217"
      else none
    let s := ({} : Settings).overlayAll [file, environment]
    s = { memorySize := 256, maxSteps := some 7, timeoutMs := 900 } ∧
      Overlay.LastGives [file, environment] .timeoutMs 900 ∧
      (∀ n, ¬ environment.Gives .memorySize n) ∧
      (s.overlay environment.layer).1 = (s.overlay (environment.layer.without .memorySize)).1 ∧
      (({} : Settings).overlayAll [file]).maxSteps = some 7 ∧ s.maxSteps ≠ none := by
  intro file environment s
  obtain ⟨hfield, hinvalid, -, hset, -⟩ := last_valid_text_decides_each_field [file, environment]
  have hlarge : ∀ n, ¬ environment.Gives .memorySize n :=
    Overlay.value?_layer_eq_none_iff.mp (by rfl)
  have hlast : Overlay.LastGives [file, environment] .timeoutMs 900 := by
    rcases (hfield .timeoutMs 900).mp (by rfl) with hgives | ⟨-, hdefault⟩
    · exact hgives
    · exact absurd hdefault (by decide)
  have hfirst : (({} : Settings).overlayAll [file]).maxSteps = some 7 := by rfl
  have hkept : s.maxSteps ≠ none := hset [file] [environment] rfl (by rw [hfirst]; simp)
  exact ⟨by rfl, hlast, hlarge, (hinvalid s environment .memorySize hlarge).2, hfirst, hkept⟩

end TapeMachine
