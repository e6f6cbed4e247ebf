import Mathlib.Algebra.Group.Nat.Defs
import TapeMachine.Text.Numeral

/-!
# Decimal numerals

Which texts are numerals and what they are worth, told by their digits as a whole. Reading looks at
one digit after the other and gives up as soon as the value is too large; it gives up on no numeral
that fits, because the value of the digits read so far never goes down. What is wrong with a text
that is refused is decided by its first character that cannot be read.
-/
namespace TapeMachine.Text

/-- Digits of ASCII, at least one, that are worth `n`. -/
structure Digits (digits : List Char) (n : Nat) : Prop where
  ne_nil : digits ≠ []
  all : ∀ c ∈ digits, c.isDigit = true
  value : Nat.ofDigitChars 10 digits 0 = n

/-- Digits that are worth `n`, behind a plus sign or without one. -/
def Spells (text : List Char) (n : Nat) : Prop :=
  ∃ digits : List Char, (text = digits ∨ text = '+' :: digits) ∧ Digits digits n

theorem digits_iff {digits : List Char} {n : Nat} : Digits digits n ↔
    digits ≠ [] ∧ (∀ c ∈ digits, c.isDigit = true) ∧ Nat.ofDigitChars 10 digits 0 = n := by
  constructor
  · rintro ⟨hne, hall, hvalue⟩
    exact ⟨hne, hall, hvalue⟩
  · rintro ⟨hne, hall, hvalue⟩
    exact ⟨hne, hall, hvalue⟩

theorem spells_plus_iff {digits : List Char} {n : Nat} :
    Spells ('+' :: digits) n ↔ Digits digits n := by
  constructor
  · rintro ⟨shown, hshape | hshape, hdigits⟩
    · have hplus := hdigits.all '+' (by simp [← hshape])
      contradiction
    · rwa [(List.cons.inj hshape).2]
  · intro h
    exact ⟨digits, .inr rfl, h⟩

theorem spells_iff_of_ne_plus {text : List Char} {n : Nat} (h : ∀ rest, text ≠ '+' :: rest) :
    Spells text n ↔ Digits text n := by
  constructor
  · rintro ⟨digits, hshape | hshape, hdigits⟩
    · rwa [hshape]
    · exact absurd hshape (h digits)
  · intro hdigits
    exact ⟨text, .inl rfl, hdigits⟩

/-- The digits that a number is written with are worth the number. -/
theorem spells_toString (n : Nat) : Spells (toString n).toList n := by
  have hdigits : (toString n).toList = Nat.toDigits 10 n := by simp
  rw [hdigits]
  refine ⟨_, .inl rfl, Nat.toDigits_ne_nil, ?_, Nat.ofDigitChars_ten_toDigits⟩
  intro c hc
  exact Nat.isDigit_of_mem_toDigits (by decide) (by decide) hc

theorem digit?_eq_some_iff {c : Char} {d : Nat} :
    digit? c = some d ↔ c.isDigit = true ∧ c.toNat - '0'.toNat = d := by
  have hrange : ('0' ≤ c ∧ c ≤ '9') ↔ c.isDigit = true := by
    simp [Char.isDigit, Char.le_def]
  by_cases h : c.isDigit = true
  · rw [digit?, if_pos (hrange.mpr h)]
    simp [h]
  · rw [digit?, if_neg (mt hrange.mp h)]
    simp [h]

/-- Digits never make the value in front of them smaller. -/
theorem le_ofDigitChars (digits : List Char) (value : Nat) :
    value ≤ Nat.ofDigitChars 10 digits value := by
  have hpower : 1 ≤ 10 ^ digits.length := Nat.one_le_pow _ _ (by decide)
  rw [Nat.ofDigitChars_eq_ofDigitChars_zero]
  calc value = 1 * value := (Nat.one_mul value).symm
    _ ≤ 10 ^ digits.length * value := Nat.mul_le_mul_right value hpower
    _ ≤ _ := Nat.le_add_right _ _

theorem readDigits_of_not_digit {c : Char} (hc : c.isDigit = false) (value : Nat)
    (rest : List Char) : readDigits value (c :: rest) = .error .badDigit := by
  rw [readDigits]
  cases hd : digit? c with
  | none => rfl
  | some d => simp [(digit?_eq_some_iff.mp hd).1] at hc

theorem readDigits_of_digit {c : Char} (hc : c.isDigit = true) (value : Nat) (rest : List Char) :
    readDigits value (c :: rest) =
      if Nat.ofDigitChars 10 [c] value < numeralBound then
        readDigits (Nat.ofDigitChars 10 [c] value) rest
      else .error .tooLarge := by
  have hvalue : Nat.ofDigitChars 10 [c] value = value * 10 + (c.toNat - '0'.toNat) := by
    rw [Nat.ofDigitChars_cons, Nat.ofDigitChars_nil, Nat.mul_comm]
  rw [readDigits, digit?_eq_some_iff.mpr ⟨hc, rfl⟩, hvalue]

theorem readDigits_eq_ok_iff {value : Nat} (hvalue : value < numeralBound) (cs : List Char)
    (n : Nat) : readDigits value cs = .ok n ↔
      (∀ c ∈ cs, c.isDigit = true) ∧ Nat.ofDigitChars 10 cs value = n ∧ n < numeralBound := by
  induction cs generalizing value with
  | nil =>
    simp only [readDigits, Except.ok.injEq, Nat.ofDigitChars_nil, List.not_mem_nil, false_imp_iff,
      implies_true, true_and]
    constructor
    · rintro rfl
      exact ⟨rfl, hvalue⟩
    · rintro ⟨h, -⟩
      exact h
  | cons c rest ih =>
    cases hdigit : c.isDigit with
    | false =>
      rw [readDigits_of_not_digit hdigit]
      simp [hdigit]
    | true =>
      have hcons : Nat.ofDigitChars 10 (c :: rest) value =
          Nat.ofDigitChars 10 rest (Nat.ofDigitChars 10 [c] value) :=
        Nat.ofDigitChars_append (l := [c]) value
      rw [readDigits_of_digit hdigit, hcons]
      simp only [List.mem_cons, forall_eq_or_imp, hdigit, true_and]
      by_cases hfits : Nat.ofDigitChars 10 [c] value < numeralBound
      · rw [if_pos hfits, ih hfits]
      · rw [if_neg hfits]
        have hle := le_ofDigitChars rest (Nat.ofDigitChars 10 [c] value)
        constructor
        · intro h
          contradiction
        · rintro ⟨-, rfl, hlt⟩
          omega

theorem readDigits_zero_eq_ok_iff {digits : List Char} (hne : digits ≠ []) (n : Nat) :
    readDigits 0 digits = .ok n ↔ Digits digits n ∧ n < numeralBound := by
  rw [readDigits_eq_ok_iff (by decide), digits_iff, and_assoc, and_assoc]
  exact (and_iff_right hne).symm

/-- Exactly the numerals that fit are read, and as what they are worth. -/
theorem readNumeral_eq_ok_iff (text : List Char) (n : Nat) :
    readNumeral text = .ok n ↔ Spells text n ∧ n < numeralBound := by
  unfold readNumeral
  split
  · have hempty : ¬ Spells [] n := fun h => ((spells_iff_of_ne_plus (by simp)).mp h).ne_nil rfl
    simp [hempty]
  · have hsign : ¬ Spells ['+'] n := fun h => (spells_plus_iff.mp h).ne_nil rfl
    simp [hsign]
  · rename_i digits hsome
    rw [spells_plus_iff, readDigits_zero_eq_ok_iff hsome]
  · rename_i hempty _ hplus
    rw [spells_iff_of_ne_plus hplus, readDigits_zero_eq_ok_iff hempty]

/-! ### Refusals -/

/-- One of these characters cannot be read behind digits worth `value`, and it is the first one: all
before it are digits, and their value fits. -/
inductive Stopped (value : Nat) (cs : List Char) : NumeralError → Prop where
  | badDigit {front rest : List Char} {c : Char} (h : cs = front ++ c :: rest)
    (hfront : ∀ d ∈ front, d.isDigit = true) (hfits : Nat.ofDigitChars 10 front value < 2 ^ 64)
    (hc : c.isDigit = false) : Stopped value cs .badDigit
  | tooLarge {front rest : List Char} {c : Char} (h : cs = front ++ c :: rest)
    (hfront : ∀ d ∈ front, d.isDigit = true) (hfits : Nat.ofDigitChars 10 front value < 2 ^ 64)
    (hc : c.isDigit = true) (hlarge : 2 ^ 64 ≤ Nat.ofDigitChars 10 (front ++ [c]) value) :
    Stopped value cs .tooLarge

/-- A text without the plus sign that it may begin with. -/
def unsigned : List Char → List Char
  | '+' :: digits => digits
  | text => text

/-- What is wrong with a text that is no numeral, or none that fits. -/
inductive Refused (text : List Char) : NumeralError → Prop where
  | empty (h : text = []) : Refused text .empty
  | loneSign (h : text = ['+']) : Refused text .badDigit
  | stopped {e : NumeralError} (h : Stopped 0 (unsigned text) e) : Refused text e

variable {value : Nat} {c : Char} {front rest cs text : List Char} {e : NumeralError}

theorem Stopped.ne_nil (h : Stopped value cs e) : cs ≠ [] := by
  cases h with
  | badDigit hsplit => simp [hsplit]
  | tooLarge hsplit => simp [hsplit]

/-- A digit in front does not matter but for its value. -/
theorem Stopped.behind (h : Stopped (Nat.ofDigitChars 10 [c] value) rest e)
    (hc : c.isDigit = true) : Stopped value (c :: rest) e := by
  have hmore {front : List Char} (hfront : ∀ d ∈ front, d.isDigit = true) :
      ∀ d ∈ c :: front, d.isDigit = true := List.forall_mem_cons.mpr ⟨hc, hfront⟩
  cases h with
  | badDigit hsplit hfront hfits hbad =>
    exact .badDigit (congrArg (c :: ·) hsplit) (hmore hfront) hfits hbad
  | tooLarge hsplit hfront hfits hdigit hlarge =>
    exact .tooLarge (congrArg (c :: ·) hsplit) (hmore hfront) hfits hdigit hlarge

/-- Digits whose value fits are read. -/
theorem readDigits_append (hfront : ∀ d ∈ front, d.isDigit = true)
    (hfits : Nat.ofDigitChars 10 front value < numeralBound) (cs : List Char) :
    readDigits value (front ++ cs) = readDigits (Nat.ofDigitChars 10 front value) cs := by
  induction front generalizing value with
  | nil => rfl
  | cons c front ih =>
    obtain ⟨hc, hfront⟩ := List.forall_mem_cons.mp hfront
    have hcons : Nat.ofDigitChars 10 (c :: front) value =
        Nat.ofDigitChars 10 front (Nat.ofDigitChars 10 [c] value) :=
      Nat.ofDigitChars_append (l := [c]) value
    rw [hcons] at hfits ⊢
    have hfirst : Nat.ofDigitChars 10 [c] value < numeralBound :=
      Nat.lt_of_le_of_lt (le_ofDigitChars front _) hfits
    rw [List.cons_append, readDigits_of_digit hc, if_pos hfirst, ih hfront hfits]

theorem stopped_of_readDigits (hvalue : value < numeralBound)
    (h : readDigits value cs = .error e) : Stopped value cs e := by
  induction cs generalizing value with
  | nil => simp [readDigits] at h
  | cons c rest ih =>
    cases hc : c.isDigit with
    | false =>
      rw [readDigits_of_not_digit hc] at h
      obtain rfl := Except.error.inj h
      exact .badDigit (List.nil_append _).symm (by simp) hvalue hc
    | true =>
      rw [readDigits_of_digit hc] at h
      by_cases hfits : Nat.ofDigitChars 10 [c] value < numeralBound
      · rw [if_pos hfits] at h
        exact (ih hfits h).behind hc
      · rw [if_neg hfits] at h
        obtain rfl := Except.error.inj h
        exact .tooLarge (List.nil_append _).symm (by simp) hvalue hc (Nat.le_of_not_lt hfits)

theorem Stopped.readDigits (h : Stopped value cs e) : Text.readDigits value cs = .error e := by
  cases h with
  | badDigit hsplit hfront hfits hc =>
    rw [hsplit, readDigits_append hfront hfits, readDigits_of_not_digit hc]
  | tooLarge hsplit hfront hfits hc hlarge =>
    rw [Nat.ofDigitChars_append] at hlarge
    rw [hsplit, readDigits_append hfront hfits, readDigits_of_digit hc]
    exact if_neg (Nat.not_lt_of_le hlarge)

theorem readDigits_eq_error_iff (hvalue : value < numeralBound) :
    readDigits value cs = .error e ↔ Stopped value cs e :=
  ⟨stopped_of_readDigits hvalue, Stopped.readDigits⟩

theorem unsigned_of_ne_plus (h : ∀ digits, text ≠ '+' :: digits) : unsigned text = text := by
  unfold unsigned
  split
  · exact absurd rfl (h _)
  · rfl

/-- Behind the cases without a digit it is the first character that cannot be read. -/
theorem refused_iff_stopped (hempty : text ≠ []) (hsign : text ≠ ['+']) :
    Refused text e ↔ Stopped 0 (unsigned text) e := by
  constructor
  · intro h
    cases h with
    | empty h => exact absurd h hempty
    | loneSign h => exact absurd h hsign
    | stopped h => exact h
  · exact .stopped

/-- Every text that is not read is refused for what is wrong with it, and for nothing else. -/
theorem readNumeral_eq_error_iff (text : List Char) (e : NumeralError) :
    readNumeral text = .error e ↔ Refused text e := by
  unfold readNumeral
  split
  · constructor
    · intro h
      obtain rfl := Except.error.inj h
      exact .empty rfl
    · intro h
      cases h with
      | empty => rfl
      | loneSign h => simp at h
      | stopped h => exact absurd rfl h.ne_nil
  · constructor
    · intro h
      obtain rfl := Except.error.inj h
      exact .loneSign rfl
    · intro h
      cases h with
      | empty h => simp at h
      | loneSign => rfl
      | stopped h => exact absurd rfl h.ne_nil
  · rename_i digits hsome
    rw [readDigits_eq_error_iff (by decide), refused_iff_stopped (by simp) (by simpa using hsome)]
    rfl
  · rename_i hempty hsign hplus
    rw [readDigits_eq_error_iff (by decide), refused_iff_stopped hempty hsign,
      unsigned_of_ne_plus hplus]

end TapeMachine.Text
