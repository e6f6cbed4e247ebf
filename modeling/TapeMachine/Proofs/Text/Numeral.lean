import TapeMachine.Proofs.Text.Trim
import TapeMachine.Text.Quoted

/-!
# The characters of shown values

A shown number consists of digits, and a shown byte never breaks a line.
-/
namespace TapeMachine.Text

theorem not_mem_toDigits {c : Char} (hc : c.isDigit = false) (n : Nat) :
    c ∉ Nat.toDigits 10 n := by
  intro h
  rw [Nat.isDigit_of_mem_toDigits (by decide) (by decide) h] at hc
  contradiction

@[simp] theorem newline_not_mem_toDigits (n : Nat) : '\n' ∉ Nat.toDigits 10 n :=
  not_mem_toDigits rfl n

@[simp] theorem bar_not_mem_toDigits (n : Nat) : '|' ∉ Nat.toDigits 10 n :=
  not_mem_toDigits rfl n

theorem isBlank_of_isDigit {c : Char} (h : c.isDigit = true) : isBlank c = false := by
  have hc : 48 ≤ c.toNat ∧ c.toNat ≤ 57 := by
    simpa [Char.isDigit, UInt32.le_iff_toNat_le] using h
  simp [isBlank]
  omega

theorem isBlank_of_mem_toDigits {c : Char} {n : Nat} (h : c ∈ Nat.toDigits 10 n) :
    isBlank c = false :=
  isBlank_of_isDigit (Nat.isDigit_of_mem_toDigits (by decide) (by decide) h)

theorem solid_nat (n : Nat) : Solid (toString n) where
  opens := by
    have hne : Nat.toDigits 10 n ≠ [] := Nat.toDigits_ne_nil
    refine opens_iff.mpr ⟨_, ?_, isBlank_of_mem_toDigits (List.head_mem hne)⟩
    simp [List.head?_eq_some_head hne]
  closes := by
    have hne : Nat.toDigits 10 n ≠ [] := Nat.toDigits_ne_nil
    refine closes_iff.mpr ⟨_, ?_, isBlank_of_mem_toDigits (List.getLast_mem hne)⟩
    simp [List.getLast?_eq_some_getLast hne]

theorem solid_byte (b : UInt8) : Solid (toString b) :=
  solid_nat b.toNat

theorem toString_byte (b : UInt8) : toString b = toString b.toNat := rfl

theorem newline_not_mem_int (i : Int) : '\n' ∉ i.repr.toList := by
  rw [Int.repr_eq_if]
  split <;> simp

theorem newline_not_mem_hexadecimal (n : Nat) : '\n' ∉ (hexadecimal n).toList := by
  rw [hexadecimal, String.toList_ofList]
  induction n using Nat.strongRecOn with
  | ind n ih =>
    rw [Nat.toDigits_eq_if (by decide)]
    split
    · simp
    · simp [ih (n / 16) (by omega)]

theorem newline_not_mem_escaped (b : UInt8) : '\n' ∉ (escaped b).toList := by
  have hb : b.toNat < 256 := b.toNat_lt
  have hvalid : (Char.ofNat b.toNat).toNat = b.toNat := by
    rw [Char.ofNat, dif_pos (.inl (by omega))]
    rfl
  by_cases h10 : b.toNat = 10
  · simp [escaped, h10]
  · have hchar : '\n' ≠ Char.ofNat b.toNat := by
      intro h
      rw [← h] at hvalid
      exact h10 hvalid.symm
    unfold escaped
    simp only
    repeat' split
    all_goals simp [newline_not_mem_hexadecimal, hchar]

theorem newline_not_mem_quoted (b : UInt8) : '\n' ∉ (quoted b).toList := by
  simp [quoted, newline_not_mem_escaped]

end TapeMachine.Text
