import Mathlib.Data.List.TakeWhile
import TapeMachine.Text.Blank

/-!
# Trimming

Trimming takes away blank padding and nothing of a text that has no blanks at its ends. So a trimmed
text is what is left between the two runs of blanks.
-/
namespace TapeMachine.Text

/-- The text begins with a character that is not blank. -/
def Opens (text : String) : Prop :=
  (text.toList.head?.any fun c => !isBlank c) = true

/-- The text ends with a character that is not blank. -/
def Closes (text : String) : Prop :=
  (text.toList.getLast?.any fun c => !isBlank c) = true

instance (text : String) : Decidable (Opens text) :=
  inferInstanceAs (Decidable (_ = true))

instance (text : String) : Decidable (Closes text) :=
  inferInstanceAs (Decidable (_ = true))

theorem opens_iff {text : String} :
    Opens text ↔ ∃ c, text.toList.head? = some c ∧ isBlank c = false := by
  simp [Opens, Option.any_eq_true]

theorem closes_iff {text : String} :
    Closes text ↔ ∃ c, text.toList.getLast? = some c ∧ isBlank c = false := by
  simp [Closes, Option.any_eq_true]

theorem Opens.append {front : String} (h : Opens front) (back : String) :
    Opens (front ++ back) := by
  obtain ⟨c, hc, hblank⟩ := opens_iff.mp h
  exact opens_iff.mpr ⟨c, by simp [hc], hblank⟩

theorem Closes.append {back : String} (h : Closes back) (front : String) :
    Closes (front ++ back) := by
  obtain ⟨c, hc, hblank⟩ := closes_iff.mp h
  exact closes_iff.mpr ⟨c, by simp [hc], hblank⟩

/-- A text without blanks at its ends. -/
structure Solid (text : String) : Prop where
  opens : Opens text
  closes : Closes text

theorem solid_singleton {c : Char} (h : isBlank c = false) : Solid (String.singleton c) where
  opens := opens_iff.mpr ⟨c, by simp, h⟩
  closes := closes_iff.mpr ⟨c, by simp, h⟩

theorem dropWhile_blanks {front cs : List Char} (hfront : ∀ c ∈ front, isBlank c = true)
    (h : ∃ c, cs.head? = some c ∧ isBlank c = false) : (front ++ cs).dropWhile isBlank = cs := by
  obtain ⟨c, hc, hblank⟩ := h
  rw [List.dropWhile_append_of_pos hfront]
  cases cs with
  | nil => simp at hc
  | cons d rest =>
    obtain rfl : d = c := Option.some.inj hc
    simp [hblank]

/-- `core` is what is left of `raw` without the blanks at its ends. -/
def Trimmed (raw core : List Char) : Prop :=
  ∃ front back : List Char, raw = front ++ (core ++ back) ∧
    (∀ c ∈ front, isBlank c = true) ∧ (∀ c ∈ back, isBlank c = true) ∧
      (∀ c ∈ core.head?, isBlank c = false) ∧ ∀ c ∈ core.getLast?, isBlank c = false

theorem trimmed_trimChars (raw : List Char) : Trimmed raw (trimChars raw) := by
  have hfront : raw.takeWhile isBlank ++ raw.dropWhile isBlank = raw :=
    List.takeWhile_append_dropWhile
  have hback : trimChars raw ++ ((raw.dropWhile isBlank).reverse.takeWhile isBlank).reverse =
      raw.dropWhile isBlank := by
    rw [trimChars, ← List.reverse_append, List.takeWhile_append_dropWhile, List.reverse_reverse]
  refine ⟨raw.takeWhile isBlank, _, by rw [hback, hfront], ?_, ?_, ?_, ?_⟩
  · intro c hc
    exact List.mem_takeWhile_imp hc
  · intro c hc
    exact List.mem_takeWhile_imp (List.mem_reverse.mp hc)
  · intro c hc
    -- The first character that is left is also the first one behind the blanks in front.
    have hhead : (raw.dropWhile isBlank).head? = some c := by
      rw [← hback, List.head?_append, hc]
      rfl
    have hnot := List.head?_dropWhile_not isBlank raw
    rw [hhead] at hnot
    simpa using hnot
  · intro c hc
    rw [trimChars, List.getLast?_reverse] at hc
    have hnot := List.head?_dropWhile_not isBlank (raw.dropWhile isBlank).reverse
    rw [hc] at hnot
    simpa using hnot

theorem trimmed_iff {raw core : List Char} : Trimmed raw core ↔ trimChars raw = core := by
  constructor
  · rintro ⟨front, back, rfl, hfront, hback, hhead, hlast⟩
    cases core with
    | nil =>
      have hall : (front ++ ([] ++ back)).dropWhile isBlank = [] := by
        apply List.dropWhile_eq_nil_iff.mpr
        simp only [List.nil_append, List.mem_append]
        rintro c (hc | hc)
        · exact hfront c hc
        · exact hback c hc
      rw [trimChars, hall]
      rfl
    | cons a rest =>
      have hfirst : ∃ c, (a :: rest ++ back).head? = some c ∧ isBlank c = false :=
        ⟨a, rfl, hhead a rfl⟩
      have hfinal : ∃ c, (a :: rest).reverse.head? = some c ∧ isBlank c = false := by
        rw [List.head?_reverse, List.getLast?_eq_some_getLast (List.cons_ne_nil a rest)]
        exact ⟨_, rfl, hlast _ (List.getLast?_eq_some_getLast _)⟩
      have hturned : ∀ c ∈ back.reverse, isBlank c = true := by
        intro c hc
        exact hback c (List.mem_reverse.mp hc)
      rw [trimChars, dropWhile_blanks hfront hfirst, List.reverse_append,
        dropWhile_blanks hturned hfinal, List.reverse_reverse]
  · rintro rfl
    exact trimmed_trimChars raw

theorem trim_eq_of_trimmed {raw : String} {core : List Char} (h : Trimmed raw.toList core) :
    trim raw = String.ofList core := by
  rw [trim, trimmed_iff.mp h]

theorem no_blanks : ∀ c ∈ ([] : List Char), isBlank c = true := by
  simp

/-- Blanks in front of a text and behind it are trimmed with its own. -/
theorem trimChars_surrounded {front back : List Char} (hfront : ∀ c ∈ front, isBlank c = true)
    (hback : ∀ c ∈ back, isBlank c = true) (raw : List Char) :
    trimChars (front ++ (raw ++ back)) = trimChars raw := by
  obtain ⟨front', back', hraw, hfront', hback', hhead, hlast⟩ := trimmed_trimChars raw
  apply trimmed_iff.mp
  refine ⟨front ++ front', back' ++ back, ?_, ?_, ?_, hhead, hlast⟩
  · calc front ++ (raw ++ back) = front ++ (front' ++ (trimChars raw ++ back') ++ back) := by
          rw [← hraw]
      _ = front ++ front' ++ (trimChars raw ++ (back' ++ back)) := by simp
  · exact List.forall_mem_append.mpr ⟨hfront, hfront'⟩
  · exact List.forall_mem_append.mpr ⟨hback', hback⟩

theorem trimChars_dropWhile (raw : List Char) :
    trimChars (raw.dropWhile isBlank) = trimChars raw := by
  have hfront : ∀ c ∈ raw.takeWhile isBlank, isBlank c = true := fun _ => List.mem_takeWhile_imp
  have hsame := trimChars_surrounded hfront no_blanks (raw.dropWhile isBlank)
  rw [List.append_nil, List.takeWhile_append_dropWhile] at hsame
  exact hsame.symm

theorem trimChars_append_blank (raw : List Char) {c : Char} (hc : isBlank c = true) :
    trimChars (raw ++ [c]) = trimChars raw :=
  trimChars_surrounded no_blanks (List.forall_mem_singleton.mpr hc) raw

/-- A text in which nothing is blank is what is left of it between blanks. -/
theorem trimmed_of_no_blanks {front core back : List Char}
    (hfront : ∀ c ∈ front, isBlank c = true) (hcore : ∀ c ∈ core, isBlank c = false)
    (hback : ∀ c ∈ back, isBlank c = true) : Trimmed (front ++ (core ++ back)) core := by
  refine ⟨front, back, rfl, hfront, hback, ?_, ?_⟩
  · intro c hc
    exact hcore c (List.mem_of_mem_head? hc)
  · intro c hc
    exact hcore c (List.mem_of_mem_getLast? hc)

theorem isBlank_head?_dropWhile {c : Char} (hc : isBlank c = false) (cs rest : List Char) :
    ∀ d ∈ (cs.dropWhile isBlank ++ c :: rest).head?, isBlank d = false := by
  intro d hd
  have hnot := List.head?_dropWhile_not isBlank cs
  cases hfirst : cs.dropWhile isBlank with
  | nil =>
    rw [hfirst] at hd
    obtain rfl : c = d := Option.some.inj hd
    exact hc
  | cons a more =>
    rw [hfirst] at hd hnot
    obtain rfl : a = d := Option.some.inj hd
    simpa using hnot

/-- Around a character that is not blank, the two ends of a text are trimmed apart. -/
theorem trimmed_around {c : Char} (hc : isBlank c = false) (before after : List Char) :
    Trimmed (before ++ c :: after)
      (before.dropWhile isBlank ++ c :: (after.reverse.dropWhile isBlank).reverse) := by
  have hbefore : before.takeWhile isBlank ++ before.dropWhile isBlank = before :=
    List.takeWhile_append_dropWhile
  have hafter : (after.reverse.dropWhile isBlank).reverse ++
      (after.reverse.takeWhile isBlank).reverse = after := by
    rw [← List.reverse_append, List.takeWhile_append_dropWhile, List.reverse_reverse]
  refine ⟨before.takeWhile isBlank, (after.reverse.takeWhile isBlank).reverse, ?_, ?_, ?_, ?_, ?_⟩
  · calc before ++ c :: after = (before.takeWhile isBlank ++ before.dropWhile isBlank) ++
          c :: ((after.reverse.dropWhile isBlank).reverse ++
            (after.reverse.takeWhile isBlank).reverse) := by rw [hbefore, hafter]
      _ = _ := by simp only [List.append_assoc, List.cons_append]
  · intro d hd
    exact List.mem_takeWhile_imp hd
  · intro d hd
    exact List.mem_takeWhile_imp (List.mem_reverse.mp hd)
  · exact isBlank_head?_dropWhile hc before _
  · rw [← List.head?_reverse]
    simpa using isBlank_head?_dropWhile hc after.reverse (before.dropWhile isBlank).reverse

/-- A text with so many blanks before it and behind it. -/
def between (front : Nat) (text : String) (back : Nat) : List Char :=
  List.replicate front ' ' ++ (text.toList ++ List.replicate back ' ')

theorem trim_between {text : String} (h : Solid text) (front back : Nat) :
    trim (String.ofList (between front text back)) = text := by
  have hpad (n : Nat) : ∀ c ∈ List.replicate n ' ', isBlank c = true := by
    intro c hc
    obtain rfl := List.eq_of_mem_replicate hc
    rfl
  have hfirst : ∃ c, (text.toList ++ List.replicate back ' ').head? = some c ∧
      isBlank c = false := by
    obtain ⟨c, hc, hblank⟩ := opens_iff.mp h.opens
    exact ⟨c, by simp [hc], hblank⟩
  have hlast : ∃ c, text.toList.reverse.head? = some c ∧ isBlank c = false := by
    rw [List.head?_reverse]
    exact closes_iff.mp h.closes
  rw [trim, trimChars, String.toList_ofList, between, dropWhile_blanks (hpad front) hfirst,
    List.reverse_append, List.reverse_replicate, dropWhile_blanks (hpad back) hlast,
    List.reverse_reverse, String.ofList_toList]

end TapeMachine.Text
