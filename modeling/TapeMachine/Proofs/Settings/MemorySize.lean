import TapeMachine.Proofs.Settings.Layers

/-!
# One reading of memory sizes

A memory size may come from an option, from a settings file or from the environment. The same texts
are sizes everywhere, and an option that is refused is told why: the size is above the limit, or the
text is no numeral that fits.
-/
namespace TapeMachine

/-- The text is a numeral for a size within the limit. -/
structure SizeText (text : List Char) (n : Nat) : Prop where
  spells : Text.Spells text n
  limit : n ≤ 2 ^ 24

/-- What is said of a text that is no size. -/
inductive SizeComplaint (text : List Char) : String → Prop where
  | aboveLimit {n : Nat} (hspells : Text.Spells text n) (hlimit : 2 ^ 24 < n) (hfits : n < 2 ^ 64) :
    SizeComplaint text "memory size must be at most 16777216 cells"
  | empty (h : Text.Refused text .empty) :
    SizeComplaint text "cannot parse integer from empty string"
  | badDigit (h : Text.Refused text .badDigit) : SizeComplaint text "invalid digit found in string"
  | tooLarge (h : Text.Refused text .tooLarge) :
    SizeComplaint text "number too large to fit in target type"

/-- The settings with the size that the text stands for, or unchanged if it stands for none. -/
inductive Settings.Resized (s : Settings) (text : List Char) : Settings → Prop where
  | taken {n : Nat} (h : SizeText text n) : Resized s text { s with memorySize := n }
  | unchanged (h : ∀ n, ¬ SizeText text n) : Resized s text s

variable {raw : String} {n : Nat}

/-! ### Reading -/

theorem readMemorySize_eq_ok_iff_sizeText :
    readMemorySize raw = .ok n ↔ SizeText raw.toList n := by
  have hbound : Text.numeralBound = 2 ^ 64 := rfl
  rw [readMemorySize_eq_ok_iff, Text.readNumeral_eq_ok_iff, hbound]
  constructor
  · rintro ⟨⟨hspells, -⟩, hlimit⟩
    exact ⟨hspells, hlimit⟩
  · rintro ⟨hspells, hlimit⟩
    exact ⟨⟨hspells, by omega⟩, hlimit⟩

theorem readMemorySize_eq_numeral_iff {e : Text.NumeralError} :
    readMemorySize raw = .error (.numeral e) ↔ Text.Refused raw.toList e := by
  rw [← Text.readNumeral_eq_error_iff, readMemorySize]
  cases Text.readNumeral raw.toList with
  | error e' => simp
  | ok k =>
    simp only [checkMemorySize]
    split <;> simp

theorem readMemorySize_eq_aboveLimit_iff : readMemorySize raw = .error .aboveLimit ↔
    ∃ n, Text.Spells raw.toList n ∧ 2 ^ 24 < n ∧ n < 2 ^ 64 := by
  have hread (n : Nat) : Text.readNumeral raw.toList = .ok n ↔
      Text.Spells raw.toList n ∧ n < 2 ^ 64 := Text.readNumeral_eq_ok_iff raw.toList n
  rw [readMemorySize]
  cases hnumeral : Text.readNumeral raw.toList with
  | error e =>
    simp only [Except.error.injEq, reduceCtorEq, false_iff]
    rintro ⟨n, hspells, -, hfits⟩
    rw [(hread n).mpr ⟨hspells, hfits⟩] at hnumeral
    contradiction
  | ok k =>
    obtain ⟨hspells, hfits⟩ := (hread k).mp hnumeral
    have hlimit : memoryLimit = 2 ^ 24 := rfl
    simp only [checkMemorySize]
    constructor
    · intro h
      by_cases hk : k ≤ memoryLimit
      · rw [if_pos hk] at h
        contradiction
      · exact ⟨k, hspells, by omega, hfits⟩
    · rintro ⟨n, hspells', hlarge, hfits'⟩
      obtain rfl : k = n := Except.ok.inj (hnumeral.symm.trans ((hread n).mpr ⟨hspells', hfits'⟩))
      exact if_neg (by omega)

/-- The four complaints are told apart by their words. -/
theorem exists_message_iff (message : String) :
    (∃ e, readMemorySize raw = .error e ∧ e.message = message) ↔
      SizeComplaint raw.toList message := by
  constructor
  · rintro ⟨e, he, rfl⟩
    cases e with
    | aboveLimit =>
      obtain ⟨n, hspells, hlimit, hfits⟩ := readMemorySize_eq_aboveLimit_iff.mp he
      exact .aboveLimit hspells hlimit hfits
    | numeral e =>
      have hrefused := readMemorySize_eq_numeral_iff.mp he
      cases e with
      | empty => exact .empty hrefused
      | badDigit => exact .badDigit hrefused
      | tooLarge => exact .tooLarge hrefused
  · intro h
    cases h with
    | aboveLimit hspells hlimit hfits =>
      exact ⟨_, readMemorySize_eq_aboveLimit_iff.mpr ⟨_, hspells, hlimit, hfits⟩, rfl⟩
    | empty h => exact ⟨_, readMemorySize_eq_numeral_iff.mpr h, rfl⟩
    | badDigit h => exact ⟨_, readMemorySize_eq_numeral_iff.mpr h, rfl⟩
    | tooLarge h => exact ⟨_, readMemorySize_eq_numeral_iff.mpr h, rfl⟩

theorem sizeComplaint_aboveLimit_iff {text : List Char} :
    SizeComplaint text "memory size must be at most 16777216 cells" ↔
      ∃ n, Text.Spells text n ∧ 2 ^ 24 < n ∧ n < 2 ^ 64 := by
  constructor
  · intro h
    generalize hmessage : "memory size must be at most 16777216 cells" = message at h
    cases h with
    | aboveLimit hspells hlimit hfits => exact ⟨_, hspells, hlimit, hfits⟩
    | empty => simp at hmessage
    | badDigit => simp at hmessage
    | tooLarge => simp at hmessage
  · rintro ⟨n, hspells, hlimit, hfits⟩
    exact .aboveLimit hspells hlimit hfits

/-! ### The three sources -/

namespace CommandLine.RunOptions

variable {o : RunOptions}

theorem store_memorySize_eq_ok_iff :
    o.store raw .memorySize = .ok { o with memorySize? := some n } ↔ SizeText raw.toList n := by
  rw [← readMemorySize_eq_ok_iff_sizeText, store]
  cases readMemorySize raw <;> simp

theorem store_memorySize_eq_error_iff (message : String) :
    o.store raw .memorySize = .error message ↔ SizeComplaint raw.toList message := by
  rw [← exists_message_iff, store]
  cases readMemorySize raw <;> simp

end CommandLine.RunOptions

/-- A layer without other texts decides about the memory size and nothing else. -/
theorem Settings.overlay_eq_of_memorySize (s : Settings) {layer : Layer}
    (hsize : layer .memorySize = some raw) (htimeout : layer .timeoutMs = none)
    (hsteps : layer .maxSteps = none) :
    (s.overlay layer).1 =
      { s with memorySize := (readMemorySize raw).toOption.getD s.memorySize } := by
  apply ext_field
  intro key
  rw [field_overlay, Layer.value?]
  cases key with
  | memorySize =>
    rw [hsize, Option.bind_some, Key.value?]
    cases readMemorySize raw <;> rfl
  | timeoutMs =>
    rw [htimeout]
    rfl
  | maxSteps =>
    rw [hsteps]
    rfl

theorem Settings.resized_overlay (s : Settings) {layer : Layer}
    (hsize : layer .memorySize = some raw) (htimeout : layer .timeoutMs = none)
    (hsteps : layer .maxSteps = none) :
    s.Resized raw.toList (s.overlay layer).1 := by
  rw [s.overlay_eq_of_memorySize hsize htimeout hsteps]
  cases hread : readMemorySize raw with
  | ok n => exact .taken (readMemorySize_eq_ok_iff_sizeText.mp hread)
  | error e =>
    refine .unchanged fun n hn => ?_
    rw [readMemorySize_eq_ok_iff_sizeText.mpr hn] at hread
    contradiction

/-- An option, a file and the environment take the same texts for sizes: numerals of at most `2 ^ 24`,
behind a plus sign or without one, with as many leading zeros as there may be. In the environment the
blanks around a text do not count. A text that is no size changes nothing, and an option is refused
with the reason: the size is above the limit but fits into 64 bits, or else the text is no numeral
that fits, and its first character that cannot be read decides what is wrong. -/
theorem memory_sizes_are_read_alike (raw : String) :
    (∀ n, readMemorySize raw = .ok n ↔ SizeText raw.toList n) ∧
    (∀ message, (∃ e, readMemorySize raw = .error e ∧ e.message = message) ↔
      SizeComplaint raw.toList message) ∧
    (SizeComplaint raw.toList "memory size must be at most 16777216 cells" ↔
      ∃ n, Text.Spells raw.toList n ∧ 2 ^ 24 < n ∧ n < 2 ^ 64) ∧
    (∀ o : CommandLine.RunOptions,
      (∀ n, o.store raw .memorySize = .ok { o with memorySize? := some n } ↔
        SizeText raw.toList n) ∧
      ∀ message, o.store raw .memorySize = .error message ↔ SizeComplaint raw.toList message) ∧
    ∀ s : Settings,
      s.Resized raw.toList (s.overlay (sectionLayer [("memory_size", raw)])).1 ∧
      ∀ core, Text.Trimmed raw.toList core →
        s.Resized core (s.overlay (environmentLayer fun name =>
          if name = "BF_MEMORY_SIZE" then some raw else none)).1 := by
  refine ⟨fun n => readMemorySize_eq_ok_iff_sizeText, exists_message_iff,
    sizeComplaint_aboveLimit_iff, ?option, fun s => ⟨?file, fun core hcore => ?environment⟩⟩
  case option =>
    intro o
    exact ⟨fun n => CommandLine.RunOptions.store_memorySize_eq_ok_iff,
      CommandLine.RunOptions.store_memorySize_eq_error_iff⟩
  case file =>
    exact s.resized_overlay rfl rfl rfl
  case environment =>
    have htrim : (Text.trim raw).toList = core := by
      rw [Text.trim_eq_of_trimmed hcore, String.toList_ofList]
    rw [← htrim]
    exact s.resized_overlay rfl rfl rfl

/-- The environment takes the limit itself, behind a sign and zeros. The blank in front keeps it from
being read anywhere else. -/
theorem memory_sizes_are_read_alike_but_for_blanks :
    Text.Trimmed "\t+0016777216".toList "+0016777216".toList ∧
      readMemorySize "\t+0016777216" = .error (.numeral .badDigit) ∧
      SizeComplaint "\t+0016777216".toList "invalid digit found in string" ∧
      (({} : Settings).overlay (sectionLayer [("memory_size", "\t+0016777216")])).1 = {} ∧
      ({} : Settings).Resized "+0016777216".toList { memorySize := 2 ^ 24 } := by
  have htrimmed : Text.Trimmed "\t+0016777216".toList "+0016777216".toList :=
    Text.trimmed_iff.mpr (by decide)
  have hrefused : readMemorySize "\t+0016777216" = .error (.numeral .badDigit) := by decide
  have hfile : (({} : Settings).overlay
      (sectionLayer [("memory_size", "\t+0016777216")])).1 = {} := by decide
  have henvironment : (({} : Settings).overlay (environmentLayer fun name =>
      if name = "BF_MEMORY_SIZE" then some "\t+0016777216" else none)).1 =
        { memorySize := 2 ^ 24 } := by decide
  obtain ⟨-, hmessage, -, -, hsettings⟩ := memory_sizes_are_read_alike "\t+0016777216"
  have hresized := (hsettings {}).2 _ htrimmed
  rw [henvironment] at hresized
  exact ⟨htrimmed, hrefused, (hmessage _).mp ⟨_, hrefused, rfl⟩, hfile, hresized⟩

end TapeMachine
