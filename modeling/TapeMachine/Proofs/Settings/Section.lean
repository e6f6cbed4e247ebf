import TapeMachine.Proofs.Text.Trim
import TapeMachine.Settings.Section

/-!
# Reading the interpreter section

What a settings file says about a key, told by its lines alone: the last entry for the key whose
nearest header is that of the section. The scan keeps no more than whether it is inside the section,
and that is known from the nearest header before each line.
-/
namespace TapeMachine

/-! ### Lines -/

/-- A line without the carriage return that belongs to its line feed. -/
def withoutReturn (piece : List Char) : List Char :=
  if piece.getLast? = some '\r' then piece.dropLast else piece

/-- What line `i` of a text says, counted from zero, blanks at its ends left out. -/
def LineAt (content : String) (i : Nat) (line : List Char) : Prop :=
  ∃ piece, (content.toList.splitOn '\n')[i]? = some piece ∧ Text.Trimmed (withoutReturn piece) line

/-- The line is the header of the section with this name. -/
def Heads (line name : List Char) : Prop :=
  ∃ inner, line = '[' :: (inner ++ [']']) ∧ Text.Trimmed inner name

/-- The value loses its quotes if it has one at each end; a lone quote stays. -/
def Unquoted (bare value : List Char) : Prop :=
  bare = '"' :: (value ++ ['"']) ∨ bare = value ∧ ∀ inner, bare ≠ '"' :: (inner ++ ['"'])

/-- The line is an entry that gives this value for the key. -/
structure Enters (line key value : List Char) : Prop where
  ne_nil : line ≠ []
  no_comment : line.head? ≠ some '#'
  no_header : ∀ name, ¬ Heads line name
  parts : ∃ before after bare, line = before ++ '=' :: after ∧ '=' ∉ before ∧
    Text.Trimmed before key ∧ Text.Trimmed after bare ∧ Unquoted bare value

/-- The nearest header before line `i` is that of the interpreter section. -/
def Inside (content : String) (i : Nat) : Prop :=
  ∃ h < i, (∃ line, LineAt content h line ∧ Heads line "interpreter".toList) ∧
    ∀ j, h < j → j < i → ∀ line name, LineAt content j line → ¬ Heads line name

/-- Line `i` is an entry of the section, with this key and value. -/
def Binds (content key : String) (i : Nat) (value : String) : Prop :=
  Inside content i ∧ ∃ line, LineAt content i line ∧ Enters line key.toList value.toList

/-- The carriage return at the end of a line is blank. -/
theorem trimmed_withoutReturn_iff {piece line : List Char} :
    Text.Trimmed (withoutReturn piece) line ↔ Text.Trimmed piece line := by
  rw [withoutReturn]
  by_cases hlast : piece.getLast? = some '\r'
  · obtain ⟨front, rfl⟩ := List.getLast?_eq_some_iff.mp hlast
    rw [if_pos hlast, List.dropLast_concat, Text.trimmed_iff, Text.trimmed_iff,
      Text.trimChars_append_blank front rfl]
  · rw [if_neg hlast]

theorem linesOf_eq_splitOn (cs : List Char) : linesOf cs = cs.splitOn '\n' := by
  induction cs with
  | nil => rfl
  | cons c rest ih =>
    rw [List.splitOn_cons_eq_if_modifyHead, linesOf, ih]
    by_cases hc : c = '\n'
    · simp [hc]
    · simp only [hc, if_false, beq_iff_eq]
      cases hsplit : rest.splitOn '\n' with
      | nil => exact absurd hsplit (List.splitOn_ne_nil _ _)
      | cons line lines => rfl

theorem isHeader_iff {line : List Char} :
    isHeader line = true ↔ ∃ inner, line = '[' :: (inner ++ [']']) := by
  simp only [isHeader, Bool.and_eq_true, beq_iff_eq, List.head?_eq_some_iff,
    List.getLast?_eq_some_iff]
  constructor
  · rintro ⟨⟨rest, rfl⟩, inner, hinner⟩
    cases inner with
    | nil => simp at hinner
    | cons c inner => exact ⟨inner, by rw [hinner, (List.cons.inj hinner).1]; rfl⟩
  · rintro ⟨inner, rfl⟩
    exact ⟨⟨_, rfl⟩, '[' :: inner, rfl⟩

theorem unquote_eq_iff {bare value : List Char} : unquote bare = value ↔ Unquoted bare value := by
  by_cases hquoted : ∃ inner, bare = '"' :: (inner ++ ['"'])
  · obtain ⟨inner, rfl⟩ := hquoted
    have hinner : unquote ('"' :: (inner ++ ['"'])) = inner := by simp [unquote]
    rw [hinner]
    constructor
    · rintro rfl
      exact .inl rfl
    · rintro (h | ⟨-, h⟩)
      · simpa using h
      · exact absurd rfl (h inner)
  · have hnone : ∀ inner, bare ≠ '"' :: (inner ++ ['"']) := fun inner h => hquoted ⟨inner, h⟩
    have hbare : unquote bare = bare := by
      unfold unquote
      split
      · rename_i rest
        by_cases hlast : rest.getLast? = some '"'
        · obtain ⟨inner, rfl⟩ := List.getLast?_eq_some_iff.mp hlast
          exact absurd rfl (hnone inner)
        · rw [if_neg hlast]
      · rfl
    rw [hbare]
    constructor
    · intro h
      exact .inr ⟨h, hnone⟩
    · rintro (h | ⟨h, -⟩)
      · exact absurd h (hnone value)
      · exact h

theorem splitAtEquals?_eq_some_iff {line before after : List Char} :
    splitAtEquals? line = some (before, after) ↔ line = before ++ '=' :: after ∧ '=' ∉ before := by
  induction line generalizing before with
  | nil => simp [splitAtEquals?]
  | cons c rest ih =>
    rw [splitAtEquals?]
    by_cases hc : c = '='
    · rw [if_pos hc, hc]
      cases before with
      | nil => simp
      | cons d before =>
        constructor
        · intro h
          simp at h
        · rintro ⟨h, hnot⟩
          obtain rfl : '=' = d := (List.cons.inj h).1
          simp at hnot
    · rw [if_neg hc]
      cases before with
      | nil => simp [hc]
      | cons d before =>
        simp only [Option.map_eq_some_iff, Prod.exists, Prod.mk.injEq, List.cons.injEq,
          List.cons_append, List.mem_cons, not_or]
        constructor
        · rintro ⟨front, back, hsplit, ⟨rfl, rfl⟩, rfl⟩
          obtain ⟨rfl, hnot⟩ := ih.mp hsplit
          exact ⟨⟨rfl, rfl⟩, Ne.symm hc, hnot⟩
        · rintro ⟨⟨rfl, hrest⟩, -, hnot⟩
          exact ⟨before, after, ih.mpr ⟨hrest, hnot⟩, ⟨rfl, rfl⟩, rfl⟩

theorem exists_heads_iff {line : List Char} : (∃ name, Heads line name) ↔ isHeader line = true := by
  rw [isHeader_iff]
  constructor
  · rintro ⟨name, inner, hline, -⟩
    exact ⟨inner, hline⟩
  · rintro ⟨inner, hline⟩
    exact ⟨Text.trimChars inner, inner, hline, Text.trimmed_trimChars inner⟩

namespace SettingsLine

variable {raw line name key value : List Char}

theorem ofChars_eq_header_iff (h : Text.Trimmed raw line) :
    ofChars raw = .header name ↔ Heads line name := by
  rw [ofChars, Text.trimmed_iff.mp h]
  by_cases hcomment : line.head? = some '#'
  · have hnot : ¬ Heads line name := by
      rintro ⟨inner, rfl, -⟩
      simp at hcomment
    simp [hcomment, hnot]
  · rw [if_neg hcomment]
    by_cases hheader : isHeader line = true
    · obtain ⟨inner, rfl⟩ := isHeader_iff.mp hheader
      simp [hheader, Heads, Text.trimmed_iff]
    · have hnot : ¬ Heads line name := fun hheads => hheader (exists_heads_iff.mp ⟨name, hheads⟩)
      rw [if_neg hheader]
      cases splitAtEquals? line <;> simp [hnot]

theorem ofChars_eq_entry_iff (h : Text.Trimmed raw line) :
    ofChars raw = .entry key value ↔ Enters line key value := by
  rw [ofChars, Text.trimmed_iff.mp h]
  by_cases hcomment : line.head? = some '#'
  · have hnot : ¬ Enters line key value := fun henters => henters.no_comment hcomment
    simp [hcomment, hnot]
  · rw [if_neg hcomment]
    by_cases hheader : isHeader line = true
    · have hnot : ¬ Enters line key value := by
        obtain ⟨name, hheads⟩ := exists_heads_iff.mpr hheader
        exact fun henters => henters.no_header name hheads
      simp [hheader, hnot]
    · rw [if_neg hheader]
      constructor
      · intro hentry
        cases hsplit : splitAtEquals? line with
        | none => simp [hsplit] at hentry
        | some parts =>
          obtain ⟨before, after⟩ := parts
          obtain ⟨hline, hnot⟩ := splitAtEquals?_eq_some_iff.mp hsplit
          simp only [hsplit, entry.injEq] at hentry
          obtain ⟨hkey, hvalue⟩ := hentry
          exact
            { ne_nil := by simp [hline]
              no_comment := hcomment
              no_header := fun name hheads => hheader (exists_heads_iff.mp ⟨name, hheads⟩)
              parts := ⟨before, after, Text.trimChars after, hline, hnot, Text.trimmed_iff.mpr hkey,
                Text.trimmed_trimChars after, unquote_eq_iff.mp hvalue⟩ }
      · intro henters
        obtain ⟨before, after, bare, hline, hnot, hkey, hbare, hvalue⟩ := henters.parts
        rw [splitAtEquals?_eq_some_iff.mpr ⟨hline, hnot⟩]
        simp only [Text.trimmed_iff.mp hkey, Text.trimmed_iff.mp hbare, unquote_eq_iff.mpr hvalue]

/-- Whether the place behind the line is inside the section. -/
def leaves (inside : Bool) : SettingsLine → Bool
  | header name => name == sectionName
  | entry _ _ => inside
  | other => inside

/-- The entry that a line adds to the section. -/
def adds (inside : Bool) : SettingsLine → List (String × String)
  | entry key value => if inside then [(String.ofList key, String.ofList value)] else []
  | header _ => []
  | other => []

end SettingsLine

/-! ### The scan -/

theorem sectionEntries_cons (inside : Bool) (kind : SettingsLine) (rest : List SettingsLine) :
    sectionEntries inside (kind :: rest) =
      kind.adds inside ++ sectionEntries (kind.leaves inside) rest := by
  cases kind with
  | header name => rfl
  | other => rfl
  | entry key value => cases inside <;> rfl

theorem lastValue?_append (front back : List (String × String)) (key : String) :
    lastValue? (front ++ back) key = (lastValue? back key).or (lastValue? front key) := by
  rw [lastValue?, List.reverse_append, List.lookup_append]
  rfl

/-- Whether line `i` is inside the section, if the first one is or is not. -/
def insideAt (inside : Bool) (kinds : List SettingsLine) : Nat → Bool
  | 0 => inside
  | i + 1 =>
    match kinds[i]? with
    | some kind => kind.leaves (insideAt inside kinds i)
    | none => insideAt inside kinds i

theorem insideAt_cons (inside : Bool) (kind : SettingsLine) (rest : List SettingsLine) (i : Nat) :
    insideAt inside (kind :: rest) (i + 1) = insideAt (kind.leaves inside) rest i := by
  induction i with
  | zero => rfl
  | succ i ih =>
    rw [insideAt, ih, List.getElem?_cons_succ, insideAt]

/-- Line `i` is an entry for the key and counts. -/
def Counts (inside : Bool) (kinds : List SettingsLine) (key : String) (i : Nat) (value : String) :
    Prop :=
  insideAt inside kinds i = true ∧ kinds[i]? = some (.entry key.toList value.toList)

theorem Counts.value_unique {inside : Bool} {kinds : List SettingsLine} {key value value' : String}
    {i : Nat} (h : Counts inside kinds key i value) (h' : Counts inside kinds key i value') :
    value = value' := by
  have hsame := h.2.symm.trans h'.2
  simpa [String.toList_inj] using hsame

theorem counts_cons (inside : Bool) (kind : SettingsLine) (rest : List SettingsLine) (key : String)
    (i : Nat) (value : String) : Counts inside (kind :: rest) key (i + 1) value ↔
      Counts (kind.leaves inside) rest key i value := by
  rw [Counts, Counts, insideAt_cons, List.getElem?_cons_succ]

/-- What the first line gives for the key. -/
theorem lastValue?_adds_eq_some_iff (inside : Bool) (kind : SettingsLine)
    (rest : List SettingsLine) (key value : String) :
    lastValue? (kind.adds inside) key = some value ↔ Counts inside (kind :: rest) key 0 value := by
  cases kind with
  | header name => simp [SettingsLine.adds, lastValue?, Counts]
  | other => simp [SettingsLine.adds, lastValue?, Counts]
  | entry k v =>
    cases inside with
    | false => simp [SettingsLine.adds, lastValue?, Counts, insideAt]
    | true =>
      have hshown (cs : List Char) (text : String) : String.ofList cs = text ↔ cs = text.toList := by
        rw [← String.toList_inj, String.toList_ofList]
      simp [SettingsLine.adds, lastValue?, Counts, insideAt, hshown, @eq_comm _ key]

/-- `LastOf P r` says that `r` is the value at the last index that has one. -/
inductive LastOf (P : Nat → String → Prop) : Option String → Prop where
  | absent (h : ∀ i value, ¬ P i value) : LastOf P none
  | found {i : Nat} {value : String} (h : P i value) (hlater : ∀ j v, i < j → ¬ P j v) :
    LastOf P (some value)

/-- The value at index zero holds unless there is a later one. -/
theorem LastOf.cons {P : Nat → String → Prop} {r first? : Option String}
    (h : LastOf (fun i value => P (i + 1) value) r)
    (hfirst : ∀ value, first? = some value ↔ P 0 value) : LastOf P (r.or first?) := by
  cases h with
  | absent hnone =>
    have hlater (j : Nat) (v : String) (hj : 0 < j) : ¬ P j v := by
      obtain ⟨k, rfl⟩ := Nat.exists_eq_add_of_lt hj
      rw [Nat.zero_add]
      exact hnone k v
    cases hr : first? with
    | none =>
      refine .absent ?_
      intro i value hi
      rcases Nat.eq_zero_or_pos i with rfl | hpos
      · rw [(hfirst value).mpr hi] at hr
        contradiction
      · exact hlater i value hpos hi
    | some value => exact .found ((hfirst value).mp hr) hlater
  | @found i value hi hlater =>
    refine .found hi ?_
    intro j v hj
    obtain ⟨k, rfl⟩ := Nat.exists_eq_add_of_lt (Nat.lt_of_le_of_lt (Nat.zero_le _) hj)
    rw [Nat.zero_add] at hj ⊢
    exact hlater k v (Nat.lt_of_succ_lt_succ hj)

/-- If no index has two values, the last one is the value without a later one. -/
theorem LastOf.eq_some_iff {P : Nat → String → Prop} {r : Option String} (h : LastOf P r)
    (hunique : ∀ i value value', P i value → P i value' → value = value') (value : String) :
    r = some value ↔ ∃ i, P i value ∧ ∀ j v, i < j → ¬ P j v := by
  cases h with
  | absent hnone =>
    constructor
    · intro hsome
      contradiction
    · rintro ⟨i, hi, -⟩
      exact absurd hi (hnone i value)
  | @found i last hi hlater =>
    constructor
    · intro hsome
      obtain rfl := Option.some.inj hsome
      exact ⟨i, hi, hlater⟩
    · rintro ⟨j, hj, hlater'⟩
      rcases Nat.lt_trichotomy i j with hlt | rfl | hgt
      · exact absurd hj (hlater j value hlt)
      · rw [hunique i last value hi hj]
      · exact absurd hi (hlater' i last hgt)

/-- By induction on the lines, of which the later ones have the last word. -/
theorem lastOf_sectionEntries (inside : Bool) (kinds : List SettingsLine) (key : String) :
    LastOf (Counts inside kinds key) (lastValue? (sectionEntries inside kinds) key) := by
  induction kinds generalizing inside with
  | nil =>
    refine .absent ?_
    rintro i value ⟨-, hi⟩
    simp at hi
  | cons kind rest ih =>
    rw [sectionEntries_cons, lastValue?_append]
    apply LastOf.cons
    · simp only [counts_cons]
      exact ih (kind.leaves inside)
    · intro value
      exact lastValue?_adds_eq_some_iff inside kind rest key value

/-! ### The nearest header -/

/-- Every line of the text, by what it is. -/
def kindsOf (content : String) : List SettingsLine :=
  (linesOf content.toList).map SettingsLine.ofChars

theorem getElem?_kindsOf_iff {content : String} {i : Nat} {kind : SettingsLine}
    {reads : List Char → Prop} (hreads : ∀ raw line : List Char, Text.Trimmed raw line →
      (SettingsLine.ofChars raw = kind ↔ reads line)) :
    (kindsOf content)[i]? = some kind ↔ ∃ line, LineAt content i line ∧ reads line := by
  simp only [kindsOf, linesOf_eq_splitOn, List.getElem?_map, Option.map_eq_some_iff, LineAt,
    trimmed_withoutReturn_iff]
  constructor
  · rintro ⟨piece, hpiece, hkind⟩
    have htrimmed := Text.trimmed_trimChars piece
    exact ⟨_, ⟨piece, hpiece, htrimmed⟩, (hreads piece _ htrimmed).mp hkind⟩
  · rintro ⟨line, ⟨piece, hpiece, htrimmed⟩, hline⟩
    exact ⟨piece, hpiece, (hreads piece line htrimmed).mpr hline⟩

theorem getElem?_kindsOf_eq_header_iff {content : String} {i : Nat} {name : List Char} :
    (kindsOf content)[i]? = some (.header name) ↔
      ∃ line, LineAt content i line ∧ Heads line name :=
  getElem?_kindsOf_iff fun _ _ => SettingsLine.ofChars_eq_header_iff

theorem getElem?_kindsOf_eq_entry_iff {content : String} {i : Nat} {key value : List Char} :
    (kindsOf content)[i]? = some (.entry key value) ↔
      ∃ line, LineAt content i line ∧ Enters line key value :=
  getElem?_kindsOf_iff fun _ _ => SettingsLine.ofChars_eq_entry_iff

/-- The nearest header before line `i` is that of the section, told by what the lines are. -/
def Nearest (kinds : List SettingsLine) (i : Nat) : Prop :=
  ∃ h < i, kinds[h]? = some (.header sectionName) ∧
    ∀ j, h < j → j < i → ∀ name, kinds[j]? ≠ some (.header name)

theorem nearest_succ_iff {kinds : List SettingsLine} {i : Nat} : Nearest kinds (i + 1) ↔
    kinds[i]? = some (.header sectionName) ∨
      (∀ name, kinds[i]? ≠ some (.header name)) ∧ Nearest kinds i := by
  constructor
  · rintro ⟨h, hlt, hheader, hnone⟩
    rcases Nat.lt_succ_iff_lt_or_eq.mp hlt with hbefore | rfl
    · right
      refine ⟨hnone i hbefore (Nat.lt_succ_self i), h, hbefore, hheader, ?_⟩
      intro j hj hji
      exact hnone j hj (Nat.lt_succ_of_lt hji)
    · exact .inl hheader
  · rintro (hheader | ⟨hother, h, hlt, hheader, hnone⟩)
    · refine ⟨i, Nat.lt_succ_self i, hheader, ?_⟩
      intro j hj hji
      omega
    · refine ⟨h, Nat.lt_succ_of_lt hlt, hheader, ?_⟩
      intro j hj hji
      rcases Nat.lt_succ_iff_lt_or_eq.mp hji with hbefore | rfl
      · exact hnone j hj hbefore
      · exact hother

theorem insideAt_iff_nearest (kinds : List SettingsLine) (i : Nat) :
    insideAt false kinds i = true ↔ Nearest kinds i := by
  induction i with
  | zero =>
    simp [insideAt, Nearest]
  | succ i ih =>
    rw [nearest_succ_iff, insideAt, ← ih]
    cases kinds[i]? with
    | none => simp
    | some kind => cases kind <;> simp [SettingsLine.leaves]

theorem inside_iff_nearest (content : String) (i : Nat) :
    Inside content i ↔ Nearest (kindsOf content) i := by
  constructor
  · rintro ⟨h, hlt, hheads, hnone⟩
    refine ⟨h, hlt, getElem?_kindsOf_eq_header_iff.mpr hheads, ?_⟩
    intro j hj hji name hname
    obtain ⟨line, hline, hother⟩ := getElem?_kindsOf_eq_header_iff.mp hname
    exact hnone j hj hji line name hline hother
  · rintro ⟨h, hlt, hheader, hnone⟩
    refine ⟨h, hlt, getElem?_kindsOf_eq_header_iff.mp hheader, ?_⟩
    intro j hj hji line name hline hheads
    exact hnone j hj hji name (getElem?_kindsOf_eq_header_iff.mpr ⟨line, hline, hheads⟩)

theorem binds_iff_counts (content key : String) (i : Nat) (value : String) :
    Binds content key i value ↔ Counts false (kindsOf content) key i value := by
  rw [Binds, Counts, inside_iff_nearest, insideAt_iff_nearest, getElem?_kindsOf_eq_entry_iff]

/-- A settings file gives a value for a key exactly if its last entry for the key under an
interpreter header gives it. Entries before all headers or under other headers do not count, and
those of the section count together, however often it is left and entered again. -/
theorem section_holds_last_entry (content key value : String) :
    lastValue? (readSection content) key = some value ↔
      ∃ i, Binds content key i value ∧ ∀ j v, i < j → ¬ Binds content key j v := by
  simp only [binds_iff_counts]
  apply (lastOf_sectionEntries false (kindsOf content) key).eq_some_iff
  intro i v v' h h'
  exact h.value_unique h'

end TapeMachine
