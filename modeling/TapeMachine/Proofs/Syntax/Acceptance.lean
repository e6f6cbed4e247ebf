import TapeMachine.Proofs.Syntax.Reading

/-!
# Which texts are programs

A text is read as a program exactly when its brackets balance by counting. Otherwise the bracket
that is reported is the first closing one in excess or, if there is none, the innermost opening one
that stays open.
-/
namespace TapeMachine

variable {text : List Char}

theorem Reading.balanced {p : Program} (h : Reading text (.ok p)) : Balanced text := by
  cases h with
  | whole b hb =>
    refine balanced_of_instructionChars ?_
    rw [← hb]
    exact b.balanced_chars

theorem Reading.firstExcess {offset : Nat} (h : Reading text (.error (.unmatchedClose offset))) :
    FirstExcess text offset := by
  cases h with
  | unopened before after b hsplit hb =>
    rw [hsplit]
    refine Balanced.firstExcess (balanced_of_instructionChars ?_) after
    rw [← hb]
    exact b.balanced_chars

/-- The text before an open bracket has no excess and the text behind it is balanced. -/
theorem Reading.open_split {offset : Nat} (h : Reading text (.error (.unmatchedOpen offset))) :
    ∃ before after, text = before ++ '[' :: after ∧ before.length = offset ∧
      NoExcess before ∧ Balanced after := by
  cases h with
  | unclosed before after n b hsplit hn hb =>
    refine ⟨before, after, hsplit, rfl, noExcess_of_instructionChars ?_,
      balanced_of_instructionChars ?_⟩
    · rw [← hn]
      exact n.noExcess_chars
    · rw [← hb]
      exact b.balanced_chars

theorem Reading.unclosed_offset {offset : Nat} (h : Reading text (.error (.unmatchedOpen offset))) :
    Unclosed text offset := by
  obtain ⟨before, after, rfl, rfl, _, hafter⟩ := h.open_split
  exact ⟨by simp, by simpa using hafter⟩

theorem Reading.noExcess_of_open {offset : Nat}
    (h : Reading text (.error (.unmatchedOpen offset))) :
    NoExcess text ∧ text.count ']' < text.count '[' := by
  obtain ⟨before, after, rfl, -, hbefore, hafter⟩ := h.open_split
  refine ⟨hbefore.append hafter.noExcess.cons_open, ?_⟩
  have hcount := hbefore.count_le
  have hsettled := hafter.settled
  rw [List.count_append, List.count_append, List.count_cons_self, List.count_cons_of_ne (by decide)]
  omega

/-- What is known of the text in each of the three cases; no two of them go together. -/
theorem parse_cases (source : String) :
    (∃ p, Program.parse source = .ok p ∧ Balanced source.toList) ∨
      (∃ offset, Program.parse source = .error (.unmatchedClose offset) ∧
        FirstExcess source.toList offset) ∨
      ∃ offset, Program.parse source = .error (.unmatchedOpen offset) ∧
        (NoExcess source.toList ∧ source.toList.count ']' < source.toList.count '[') ∧
        Unclosed source.toList offset := by
  have h := reading_parse source
  rcases hparse : Program.parse source with (offset | offset) | p
  all_goals rw [hparse] at h
  · exact .inr (.inl ⟨offset, rfl, h.firstExcess⟩)
  · exact .inr (.inr ⟨offset, rfl, h.noExcess_of_open, h.unclosed_offset⟩)
  · exact .inl ⟨p, rfl, h.balanced⟩

theorem exists_parse_iff (source : String) :
    (∃ p, Program.parse source = .ok p) ↔ Balanced source.toList := by
  constructor
  · rintro ⟨p, hp⟩
    have h := reading_parse source
    rw [hp] at h
    exact h.balanced
  · intro hb
    rcases parse_cases source with ⟨p, hp, _⟩ | ⟨_, _, hf⟩ | ⟨_, _, ⟨_, hlt⟩, _⟩
    · exact ⟨p, hp⟩
    · exact absurd hb.noExcess hf.not_noExcess
    · exact absurd hb.settled (Nat.ne_of_lt hlt)

theorem parse_unmatchedClose_iff (source : String) (offset : Nat) :
    Program.parse source = .error (.unmatchedClose offset) ↔ FirstExcess source.toList offset := by
  constructor
  · intro hp
    have h := reading_parse source
    rw [hp] at h
    exact h.firstExcess
  · intro hf
    rcases parse_cases source with ⟨_, _, hb⟩ | ⟨other, hp, ho⟩ | ⟨_, _, ⟨hno, _⟩, _⟩
    · exact absurd hb.noExcess hf.not_noExcess
    · rw [hp, ho.unique hf]
    · exact absurd hno hf.not_noExcess

theorem exists_parse_unmatchedClose_iff (source : String) :
    (∃ offset, Program.parse source = .error (.unmatchedClose offset)) ↔
      ∃ n, (source.toList.take n).count '[' < (source.toList.take n).count ']' := by
  constructor
  · rintro ⟨offset, hp⟩
    exact ⟨offset + 1, ((parse_unmatchedClose_iff source offset).mp hp).excess⟩
  · rintro ⟨n, hn⟩
    rcases parse_cases source with ⟨_, _, hb⟩ | ⟨offset, hp, _⟩ | ⟨_, _, ⟨hno, _⟩, _⟩
    · exact absurd (hb.noExcess n) (Nat.not_le_of_lt hn)
    · exact ⟨offset, hp⟩
    · exact absurd (hno n) (Nat.not_le_of_lt hn)

theorem parse_unmatchedOpen_iff (source : String) (offset : Nat) :
    Program.parse source = .error (.unmatchedOpen offset) ↔
      (NoExcess source.toList ∧ source.toList.count ']' < source.toList.count '[') ∧
        Unclosed source.toList offset := by
  constructor
  · intro hp
    have h := reading_parse source
    rw [hp] at h
    exact ⟨h.noExcess_of_open, h.unclosed_offset⟩
  · rintro ⟨⟨hno, hlt⟩, hu⟩
    rcases parse_cases source with ⟨_, _, hb⟩ | ⟨_, _, hf⟩ | ⟨other, hp, _, ho⟩
    · exact absurd hb.settled (Nat.ne_of_lt hlt)
    · exact absurd hno hf.not_noExcess
    · rw [hp, ho.unique hu]

/-- A text has only one reading. -/
theorem Reading.parse_eq {source : String} {r : Except BracketError Program}
    (h : Reading source.toList r) : Program.parse source = r := by
  cases h with
  | whole b hb =>
    have hbalanced : Balanced source.toList := Reading.balanced (.whole b hb)
    obtain ⟨p, hp⟩ := (exists_parse_iff source).mpr hbalanced
    have hreading := reading_parse source
    rw [hp] at hreading
    cases hreading with
    | whole c hc =>
      obtain rfl : b = c := Block.chars_injective (hb.trans hc.symm)
      exact hp
  | unopened before after b hsplit hb =>
    apply (parse_unmatchedClose_iff source _).mpr
    exact Reading.firstExcess (.unopened before after b hsplit hb)
  | unclosed before after n b hsplit hn hb =>
    have hreading : Reading source.toList (.error (.unmatchedOpen before.length)) :=
      .unclosed before after n b hsplit hn hb
    apply (parse_unmatchedOpen_iff source _).mpr
    exact ⟨hreading.noExcess_of_open, hreading.unclosed_offset⟩

theorem exists_parse_unmatchedOpen_iff (source : String) :
    (∃ offset, Program.parse source = .error (.unmatchedOpen offset)) ↔
      NoExcess source.toList ∧ source.toList.count ']' < source.toList.count '[' := by
  constructor
  · rintro ⟨offset, hp⟩
    exact ((parse_unmatchedOpen_iff source offset).mp hp).1
  · rintro ⟨hno, hlt⟩
    rcases parse_cases source with ⟨_, _, hb⟩ | ⟨_, _, hf⟩ | ⟨offset, hp, _⟩
    · exact absurd hb.settled (Nat.ne_of_lt hlt)
    · exact absurd hno hf.not_noExcess
    · exact ⟨offset, hp⟩

/-- Acceptance and both complaints, told by counting the brackets among all characters of the
source. A closing bracket is blamed when it ends the shortest prefix with an excess, and an opening
one when the text behind it, and behind no other opening bracket, is balanced. -/
theorem parse_by_counting (source : String) :
    ((∃ p, Program.parse source = .ok p) ↔ Balanced source.toList) ∧
      ((∃ offset, Program.parse source = .error (.unmatchedClose offset)) ↔
        ∃ n, (source.toList.take n).count '[' < (source.toList.take n).count ']') ∧
      (∀ offset, Program.parse source = .error (.unmatchedClose offset) ↔
        FirstExcess source.toList offset) ∧
      ((∃ offset, Program.parse source = .error (.unmatchedOpen offset)) ↔
        NoExcess source.toList ∧ source.toList.count ']' < source.toList.count '[') ∧
      ∀ offset, Program.parse source = .error (.unmatchedOpen offset) →
        Unclosed source.toList offset ∧ ∀ other, Unclosed source.toList other → other = offset := by
  refine ⟨exists_parse_iff source, exists_parse_unmatchedClose_iff source,
    parse_unmatchedClose_iff source, exists_parse_unmatchedOpen_iff source, ?_⟩
  intro offset hp
  have hu := ((parse_unmatchedOpen_iff source offset).mp hp).2
  exact ⟨hu, fun other ho => ho.unique hu⟩

end TapeMachine
