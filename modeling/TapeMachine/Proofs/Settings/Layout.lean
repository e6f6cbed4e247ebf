import TapeMachine.Proofs.Settings.Layers
import TapeMachine.Proofs.Settings.Section
import TapeMachine.Proofs.Text.Numeral

/-!
# Settings that are written down

However a settings file is laid out, the settings that are written down in its interpreter section are
the settings in force. The lines of that section are either assignments or idle, and what stands in
other sections has no say.
-/
namespace TapeMachine

/-! ### Lines -/

/-- The line, blanks at its ends left out, is the header of the section with this name. -/
def Titles (raw name : List Char) : Prop :=
  ∃ line, Text.Trimmed raw line ∧ Heads line name

/-- The digits of a number, bare or between quotes. -/
inductive Writes (n : Nat) : List Char → Prop where
  | bare : Writes n (toString n).toList
  | quoted : Writes n ('"' :: ((toString n).toList ++ ['"']))

/-- The line assigns the number to the field, with blanks around the key, the equals sign and the
value. -/
inductive Assigns (key : Key) (n : Nat) : List Char → Prop where
  | line {front left right back value : List Char} (hfront : ∀ c ∈ front, Text.isBlank c = true)
    (hleft : ∀ c ∈ left, Text.isBlank c = true) (hright : ∀ c ∈ right, Text.isBlank c = true)
    (hback : ∀ c ∈ back, Text.isBlank c = true) (hvalue : Writes n value) :
    Assigns key n (front ++ (key.name.toList ++ left ++ '=' :: (right ++ value) ++ back))

/-- The line assigns nothing to a field: it is blank, a comment, or an entry for another key. -/
inductive Idle : List Char → Prop where
  | blank {line : List Char} (h : ∀ c ∈ line, Text.isBlank c = true) : Idle line
  | comment {front : List Char} (h : ∀ c ∈ front, Text.isBlank c = true) (text : List Char) :
    Idle (front ++ '#' :: text)
  | entry {before name : List Char} (after : List Char) (hfree : '=' ∉ before)
    (hname : Text.Trimmed before name) (hother : ∀ key : Key, name ≠ key.name.toList)
    (hentry : ∀ title, ¬ Titles (before ++ '=' :: after) title) : Idle (before ++ '=' :: after)

/-- Among these lines each of the keys is assigned its value once, and all else is idle. -/
inductive AssignsEach (value : Key → Nat) : List Key → List (List Char) → Prop where
  | nil : AssignsEach value [] []
  | idle {keys : List Key} {line : List Char} {lines : List (List Char)} (h : Idle line)
    (rest : AssignsEach value keys lines) : AssignsEach value keys (line :: lines)
  | assign {key : Key} {keys : List Key} {line : List Char} {lines : List (List Char)}
    (h : Assigns key (value key) line) (hnew : key ∉ keys) (rest : AssignsEach value keys lines) :
    AssignsEach value (key :: keys) (line :: lines)

/-- The lines of a settings file in which an interpreter section assigns each field once. All other
sections have other names. -/
structure Layout (value : Key → Nat) where
  before : List (List Char)
  header : List Char
  keys : List Key
  body : List (List Char)
  after : List (List Char)
  elsewhere : ∀ line ∈ before, ¬ Titles line "interpreter".toList
  entered : Titles header "interpreter".toList
  assigned : AssignsEach value keys body
  complete : ∀ key, key ∈ keys
  /-- The section lasts until the next header. -/
  left : ∀ line ∈ after.head?, ∃ name, Titles line name
  closed : ∀ line ∈ after, ¬ Titles line "interpreter".toList

def Layout.lines {value : Key → Nat} (layout : Layout value) : List (List Char) :=
  layout.before ++ layout.header :: (layout.body ++ layout.after)

/-! ### What a line is -/

namespace SettingsLine

variable {raw : List Char}

theorem ofChars_eq_header_iff_titles {name : List Char} :
    ofChars raw = .header name ↔ Titles raw name := by
  constructor
  · intro h
    have htrimmed := Text.trimmed_trimChars raw
    exact ⟨_, htrimmed, (ofChars_eq_header_iff htrimmed).mp h⟩
  · rintro ⟨line, htrimmed, hheads⟩
    exact (ofChars_eq_header_iff htrimmed).mpr hheads

/-- Only a header leads into a section or out of it. -/
theorem leaves_of_no_header {kind : SettingsLine} (h : ∀ name, kind ≠ .header name)
    (inside : Bool) : kind.leaves inside = inside := by
  cases kind with
  | header name => exact absurd rfl (h name)
  | entry => rfl
  | other => rfl

end SettingsLine

/-- Nothing in the name of a field could be taken for something else. -/
theorem Key.plain_of_mem_name {key : Key} {c : Char} (h : c ∈ key.name.toList) :
    Text.isBlank c = false ∧ c ≠ '=' ∧ c ≠ '#' ∧ c ≠ '[' := by
  have hall : (key.name.toList.all fun c => !Text.isBlank c && c != '=' && c != '#' && c != '[') =
      true := by
    cases key <;> decide
  simpa [and_assoc] using List.all_eq_true.mp hall c h

theorem Key.plain_of_head? {key : Key} {rest : List Char} {c : Char}
    (h : (key.name.toList ++ rest).head? = some c) :
    Text.isBlank c = false ∧ c ≠ '=' ∧ c ≠ '#' ∧ c ≠ '[' := by
  have hne : key.name.toList ≠ [] := by cases key <;> decide
  rw [List.head?_append, List.head?_eq_some_head hne, Option.some_or] at h
  obtain rfl := Option.some.inj h
  exact plain_of_mem_name (List.head_mem hne)

theorem Key.name_injective {key key' : Key} (h : key.name = key'.name) : key = key' := by
  revert h
  cases key <;> cases key' <;> decide

namespace Writes

variable {n : Nat} {value : List Char}

theorem not_blank (h : Writes n value) : ∀ c ∈ value, Text.isBlank c = false := by
  have hdigit : ∀ c ∈ (toString n).toList, Text.isBlank c = false := by
    intro c hc
    exact Text.isBlank_of_mem_toDigits (n := n) (by simpa using hc)
  cases h with
  | bare => exact hdigit
  | quoted =>
    intro c hc
    rcases List.mem_cons.mp hc with rfl | hc
    · rfl
    · rcases List.mem_append.mp hc with hc | hc
      · exact hdigit c hc
      · obtain rfl := List.mem_singleton.mp hc
        rfl

theorem not_blank_of_getLast? (h : Writes n value) {front : List Char} {c : Char}
    (hc : (front ++ value).getLast? = some c) : Text.isBlank c = false := by
  have hne : value ≠ [] := by
    cases h with
    | bare => simp [Nat.toDigits_ne_nil]
    | quoted => simp
  rw [List.getLast?_append, List.getLast?_eq_some_getLast hne, Option.some_or] at hc
  obtain rfl := Option.some.inj hc
  exact h.not_blank _ (List.getLast_mem hne)

theorem unquoted (h : Writes n value) : Unquoted value (toString n).toList := by
  cases h with
  | quoted => exact .inl rfl
  | bare =>
    refine .inr ⟨rfl, ?_⟩
    intro inner hinner
    have hnot : '"' ∉ (toString n).toList := by simp [Text.not_mem_toDigits]
    rw [hinner] at hnot
    simp at hnot

end Writes

theorem Assigns.ofChars {key : Key} {n : Nat} {raw : List Char} (h : Assigns key n raw) :
    SettingsLine.ofChars raw = .entry key.name.toList (toString n).toList := by
  obtain @⟨front, left, right, back, value, hfront, hleft, hright, hback, hvalue⟩ := h
  have hfirst {c : Char} (hc : (key.name.toList ++ left ++ '=' :: (right ++ value)).head? = some c) :
      Text.isBlank c = false ∧ c ≠ '=' ∧ c ≠ '#' ∧ c ≠ '[' := by
    rw [List.append_assoc] at hc
    exact Key.plain_of_head? hc
  have hlast : ∀ c ∈ (key.name.toList ++ left ++ '=' :: (right ++ value)).getLast?,
      Text.isBlank c = false := by
    intro c hc
    have hend : (key.name.toList ++ left ++ '=' :: right ++ value).getLast? = some c := by
      simpa using hc
    exact hvalue.not_blank_of_getLast? hend
  apply (SettingsLine.ofChars_eq_entry_iff
    ⟨front, back, by simp, hfront, hback, fun c hc => (hfirst hc).1, hlast⟩).mpr
  have hfree : '=' ∉ key.name.toList ++ left := by
    rintro hmem
    rcases List.mem_append.mp hmem with hc | hc
    · exact (Key.plain_of_mem_name hc).2.1 rfl
    · exact absurd (hleft _ hc) (by decide)
  have hname : Text.Trimmed (key.name.toList ++ left) key.name.toList :=
    Text.trimmed_of_no_blanks Text.no_blanks (fun c hc => (Key.plain_of_mem_name hc).1) hleft
  have htext : Text.Trimmed (right ++ value) value := by
    simpa using Text.trimmed_of_no_blanks hright hvalue.not_blank Text.no_blanks
  exact
    { ne_nil := by simp
      no_comment := fun hc => (hfirst hc).2.2.1 rfl
      no_header := by
        rintro name ⟨inner, hline, -⟩
        exact (hfirst (congrArg List.head? hline)).2.2.2 rfl
      parts := ⟨_, _, value, rfl, hfree, hname, htext, hvalue.unquoted⟩ }

/-- An idle line begins no section and gives no field a value. -/
theorem Idle.ofChars {raw : List Char} (h : Idle raw) : SettingsLine.ofChars raw = .other ∨
    ∃ name value, SettingsLine.ofChars raw = .entry name value ∧
      ∀ key : Key, name ≠ key.name.toList := by
  cases h with
  | blank hblank =>
    left
    have htrim : Text.trimChars raw = [] := Text.trimmed_iff.mp
      ⟨raw, [], by simp, hblank, by simp, by simp, by simp⟩
    rw [SettingsLine.ofChars, htrim]
    rfl
  | @comment front hfront text =>
    left
    have htrim := Text.trimmed_iff.mp (Text.trimmed_around (c := '#') (by decide) front text)
    rw [List.dropWhile_eq_nil_iff.mpr hfront] at htrim
    rw [SettingsLine.ofChars, htrim]
    rfl
  | @entry before name after hfree hname hother hentry =>
    cases hkind : SettingsLine.ofChars (before ++ '=' :: after) with
    | other => exact .inl rfl
    | header title => exact absurd (SettingsLine.ofChars_eq_header_iff_titles.mp hkind) (hentry title)
    | entry key value =>
      have htrimmed := Text.trimmed_around (c := '=') (by decide) before after
      obtain ⟨before', after', bare, hline, hfree', hkey, -⟩ :=
        ((SettingsLine.ofChars_eq_entry_iff htrimmed).mp hkind).parts
      have hrest : '=' ∉ before.dropWhile Text.isBlank :=
        fun hmem => hfree ((List.dropWhile_sublist _).mem hmem)
      -- Both are what stands before the first equals sign.
      have hsplit := splitAtEquals?_eq_some_iff.mpr ⟨hline, hfree'⟩
      rw [splitAtEquals?_eq_some_iff.mpr ⟨rfl, hrest⟩] at hsplit
      have hbefore : before' = before.dropWhile Text.isBlank :=
        congrArg Prod.fst (Option.some.inj hsplit).symm
      have hsame : key = name := by
        rw [← Text.trimmed_iff.mp hkey, ← Text.trimmed_iff.mp hname, hbefore,
          Text.trimChars_dropWhile]
      exact .inr ⟨key, value, rfl, hsame ▸ hother⟩

theorem Idle.no_header {raw : List Char} (h : Idle raw) (name : List Char) :
    SettingsLine.ofChars raw ≠ .header name := by
  rcases h.ofChars with hother | ⟨key, value, hentry, -⟩
  · rw [hother]
    exact SettingsLine.noConfusion
  · rw [hentry]
    exact SettingsLine.noConfusion

theorem lastValue?_singleton (name text key : String) :
    lastValue? [(name, text)] key = if key = name then some text else none := by
  by_cases h : key = name
  · simp [lastValue?, h]
  · simp [lastValue?, h]

theorem Idle.lastValue?_adds {raw : List Char} (h : Idle raw) (key : Key) :
    lastValue? ((SettingsLine.ofChars raw).adds true) key.name = none := by
  rcases h.ofChars with hother | ⟨name, value, hentry, hname⟩
  · rw [hother]
    rfl
  · rw [hentry, SettingsLine.adds, if_pos rfl, lastValue?_singleton, if_neg]
    intro he
    exact hname key (by rw [he, String.toList_ofList])

theorem Assigns.lastValue?_adds {assigned : Key} {n : Nat} {raw : List Char}
    (h : Assigns assigned n raw) (key : Key) :
    lastValue? ((SettingsLine.ofChars raw).adds true) key.name =
      if key = assigned then some (toString n) else none := by
  rw [h.ofChars, SettingsLine.adds, if_pos rfl, lastValue?_singleton, String.ofList_toList,
    String.ofList_toList]
  by_cases hkey : key = assigned
  · rw [if_pos hkey, if_pos (congrArg Key.name hkey)]
  · rw [if_neg hkey, if_neg fun hname => hkey (Key.name_injective hname)]

theorem Assigns.no_header {key : Key} {n : Nat} {raw : List Char} (h : Assigns key n raw)
    (name : List Char) : SettingsLine.ofChars raw ≠ .header name := by
  rw [h.ofChars]
  exact SettingsLine.noConfusion

namespace AssignsEach

variable {value : Key → Nat} {keys : List Key} {lines : List (List Char)}

theorem no_header (h : AssignsEach value keys lines) :
    ∀ line ∈ lines, ∀ name, SettingsLine.ofChars line ≠ .header name := by
  induction h with
  | nil => simp
  | idle h _ ih => exact List.forall_mem_cons.mpr ⟨h.no_header, ih⟩
  | assign h _ _ ih => exact List.forall_mem_cons.mpr ⟨h.no_header, ih⟩

/-- The lines give its value to each field that they assign, and nothing to the others. -/
theorem lastValue?_sectionEntries (h : AssignsEach value keys lines) (key : Key) :
    lastValue? (sectionEntries true (lines.map SettingsLine.ofChars)) key.name =
      if key ∈ keys then some (toString (value key)) else none := by
  induction h with
  | nil => rfl
  | idle h _ ih =>
    rw [List.map_cons, sectionEntries_cons, SettingsLine.leaves_of_no_header h.no_header,
      lastValue?_append, h.lastValue?_adds, Option.or_none, ih]
  | @assign assigned keys line lines h hnew _ ih =>
    rw [List.map_cons, sectionEntries_cons, SettingsLine.leaves_of_no_header h.no_header,
      lastValue?_append, h.lastValue?_adds, ih]
    by_cases hkey : key = assigned
    · subst hkey
      simp [hnew]
    · simp [hkey]

end AssignsEach

/-! ### The file -/

/-- Nothing counts before the section is entered. -/
theorem sectionEntries_outside {front : List SettingsLine}
    (h : ∀ kind ∈ front, kind ≠ .header sectionName) (rest : List SettingsLine) :
    sectionEntries false (front ++ rest) = sectionEntries false rest := by
  induction front with
  | nil => rfl
  | cons kind front ih =>
    obtain ⟨hkind, hfront⟩ := List.forall_mem_cons.mp h
    have hadds : kind.adds false = [] := by cases kind <;> rfl
    have hleaves : kind.leaves false = false := by
      cases kind with
      | header name => exact beq_false_of_ne fun he => hkind (congrArg _ he)
      | entry => rfl
      | other => rfl
    rw [List.cons_append, sectionEntries_cons, hadds, hleaves, List.nil_append, ih hfront]

/-- Without a header the section goes on. -/
theorem sectionEntries_inside {front : List SettingsLine}
    (h : ∀ kind ∈ front, ∀ name, kind ≠ .header name) (rest : List SettingsLine) :
    sectionEntries true (front ++ rest) = sectionEntries true front ++ sectionEntries true rest := by
  induction front with
  | nil => rfl
  | cons kind front ih =>
    obtain ⟨hkind, hfront⟩ := List.forall_mem_cons.mp h
    rw [List.cons_append, sectionEntries_cons, sectionEntries_cons,
      SettingsLine.leaves_of_no_header hkind, ih hfront, List.append_assoc]

namespace Layout

variable {value : Key → Nat} {content : String}

theorem readSection_eq (layout : Layout value) (h : content.toList.splitOn '\n' = layout.lines) :
    readSection content = sectionEntries true (layout.body.map SettingsLine.ofChars) := by
  have houtside {lines : List (List Char)}
      (hlines : ∀ line ∈ lines, ¬ Titles line "interpreter".toList) :
      ∀ kind ∈ lines.map SettingsLine.ofChars, kind ≠ .header sectionName := by
    refine List.forall_mem_map.mpr fun line hline hkind => ?_
    exact hlines line hline (SettingsLine.ofChars_eq_header_iff_titles.mp hkind)
  have hbody : ∀ kind ∈ layout.body.map SettingsLine.ofChars, ∀ name, kind ≠ .header name :=
    List.forall_mem_map.mpr layout.assigned.no_header
  have hheader : SettingsLine.ofChars layout.header = .header sectionName :=
    SettingsLine.ofChars_eq_header_iff_titles.mpr layout.entered
  have hafter : sectionEntries true (layout.after.map SettingsLine.ofChars) = [] := by
    have hleft := layout.left
    have hclosed := houtside layout.closed
    cases hlines : layout.after with
    | nil => rfl
    | cons first rest =>
      rw [hlines] at hleft hclosed
      obtain ⟨name, hname⟩ := hleft first rfl
      -- Seen from outside, the next section adds as little as from inside: its header adds nothing.
      have houtside := sectionEntries_outside hclosed []
      have hfirst := SettingsLine.ofChars_eq_header_iff_titles.mpr hname
      rw [List.append_nil, List.map_cons, hfirst] at houtside
      rw [List.map_cons, hfirst]
      exact houtside
  rw [readSection, linesOf_eq_splitOn, h, lines, List.map_append, List.map_cons, List.map_append,
    sectionEntries_outside (houtside layout.elsewhere), hheader]
  calc sectionEntries false (.header sectionName :: (layout.body.map SettingsLine.ofChars ++
        layout.after.map SettingsLine.ofChars))
      = sectionEntries true (layout.body.map SettingsLine.ofChars ++
        layout.after.map SettingsLine.ofChars) := by
        rw [sectionEntries_cons, SettingsLine.leaves, beq_self_eq_true]
        rfl
    _ = sectionEntries true (layout.body.map SettingsLine.ofChars) := by
        rw [sectionEntries_inside hbody, hafter, List.append_nil]

theorem value?_sectionLayer (layout : Layout value)
    (h : content.toList.splitOn '\n' = layout.lines) {key : Key} (hfits : value key < 2 ^ 64)
    (hlimit : key = .memorySize → value key ≤ 2 ^ 24) :
    (sectionLayer (readSection content)).value? key = some (value key) := by
  have htext : sectionLayer (readSection content) key = some (toString (value key)) := by
    rw [sectionLayer, layout.readSection_eq h, layout.assigned.lastValue?_sectionEntries,
      if_pos (layout.complete key)]
  rw [Layer.value?, htext]
  exact (key.value?_eq_some_iff _ _).mpr ⟨Text.spells_toString (value key), hfits, hlimit⟩

end Layout

/-- Settings that are written into a file are the settings in force, whatever was in force before and
however the file is laid out: if an interpreter section assigns each field once, in any order, with
its digits bare or in quotes and with blanks wherever there may be some, then neither blank lines and
comments nor entries for other keys nor other sections before and behind it change what is read. -/
theorem written_settings_are_in_force {content : String} {value : Key → Nat}
    (layout : Layout value) (hlines : content.toList.splitOn '\n' = layout.lines)
    (hsize : value .memorySize ≤ 2 ^ 24) (hsteps : value .maxSteps < 2 ^ 64)
    (htimeout : value .timeoutMs < 2 ^ 64) (s : Settings) :
    (s.overlay (sectionLayer (readSection content))).1 =
      { memorySize := value .memorySize
        maxSteps := some (value .maxSteps)
        timeoutMs := value .timeoutMs } := by
  have hfits (key : Key) : value key < 2 ^ 64 := by
    cases key with
    | memorySize => omega
    | timeoutMs => exact htimeout
    | maxSteps => exact hsteps
  have hvalue (key : Key) : (sectionLayer (readSection content)).value? key = some (value key) := by
    apply layout.value?_sectionLayer hlines (hfits key)
    rintro rfl
    exact hsize
  apply Settings.ext_field
  intro key
  rw [Settings.field_overlay, hvalue key]
  cases key <;> rfl

/-- The largest numbers that fit, and the smallest one. A step limit before all headers and a memory
size behind another header do not count. -/
theorem written_settings_are_in_force_between_other_sections :
    let value : Key → Nat
      | .memorySize => 2 ^ 24
      | .maxSteps => 2 ^ 64 - 1
      | .timeoutMs => 0
    let content := "max_steps=1\n[ interpreter ]\r\n\ttimeout_ms=\"0\"\n#memory_size\n" ++
      "max_steps =\u00a018446744073709551615\r\n\nname=[x]\nmemory_size= 16777216\n" ++
      "[x]\nmemory_size=1"
    ∃ layout : Layout value, content.toList.splitOn '\n' = layout.lines ∧
      ∀ s : Settings, (s.overlay (sectionLayer (readSection content))).1 =
        { memorySize := 2 ^ 24, maxSteps := some (2 ^ 64 - 1), timeoutMs := 0 } := by
  intro value content
  have hblank : ∀ c ∈ [' '], Text.isBlank c = true :=
    List.forall_mem_singleton.mpr rfl
  have htab : ∀ c ∈ ['\t'], Text.isBlank c = true :=
    List.forall_mem_singleton.mpr rfl
  have hreturn : ∀ c ∈ ['\r'], Text.isBlank c = true :=
    List.forall_mem_singleton.mpr rfl
  have hhard : ∀ c ∈ ['\u00a0'], Text.isBlank c = true :=
    List.forall_mem_singleton.mpr rfl
  have htimeout : Assigns .timeoutMs 0 "\ttimeout_ms=\"0\"".toList :=
    .line htab Text.no_blanks Text.no_blanks Text.no_blanks .quoted
  have hsteps : Assigns .maxSteps (2 ^ 64 - 1)
      "max_steps =\u00a018446744073709551615\r".toList := by
    have hline : "max_steps =\u00a018446744073709551615\r".toList =
        [] ++ (Key.maxSteps.name.toList ++ [' '] ++
          '=' :: (['\u00a0'] ++ (toString (2 ^ 64 - 1)).toList) ++ ['\r']) := by
      decide +kernel
    rw [hline]
    exact .line Text.no_blanks hblank hhard hreturn .bare
  have hsize : Assigns .memorySize (2 ^ 24) "memory_size= 16777216".toList := by
    have hline : "memory_size= 16777216".toList =
        [] ++ (Key.memorySize.name.toList ++ [] ++
          '=' :: ([' '] ++ (toString (2 ^ 24)).toList) ++ []) := by
      decide +kernel
    rw [hline]
    exact .line Text.no_blanks Text.no_blanks hblank Text.no_blanks .bare
  have hother {raw : List Char} {kind : SettingsLine} (hraw : SettingsLine.ofChars raw = kind)
      (name : List Char) (hkind : kind ≠ .header name) : ¬ Titles raw name := by
    intro htitles
    exact hkind (hraw.symm.trans (SettingsLine.ofChars_eq_header_iff_titles.mpr htitles))
  have hname : Idle "name=[x]".toList := by
    have hfree : '=' ∉ "name".toList := by decide
    have htrimmed : Text.Trimmed "name".toList "name".toList := Text.trimmed_iff.mpr (by decide)
    have hkind : SettingsLine.ofChars "name=[x]".toList = .entry "name".toList "[x]".toList := by rfl
    refine .entry "[x]".toList hfree htrimmed ?_ fun title => hother hkind title nofun
    intro key
    cases key <;> decide
  have hbefore : SettingsLine.ofChars "max_steps=1".toList = .entry "max_steps".toList ['1'] := by rfl
  have hheader : SettingsLine.ofChars "[ interpreter ]\r".toList = .header sectionName := by rfl
  have hnext : SettingsLine.ofChars "[x]".toList = .header ['x'] := by rfl
  have hafter : SettingsLine.ofChars "memory_size=1".toList = .entry "memory_size".toList ['1'] := by
    rfl
  have hlines : content.toList.splitOn '\n' =
      ["max_steps=1".toList, "[ interpreter ]\r".toList, "\ttimeout_ms=\"0\"".toList,
        "#memory_size".toList, "max_steps =\u00a018446744073709551615\r".toList, [],
        "name=[x]".toList, "memory_size= 16777216".toList, "[x]".toList,
        "memory_size=1".toList] := by
    decide +kernel
  let layout : Layout value :=
    { before := ["max_steps=1".toList]
      header := "[ interpreter ]\r".toList
      keys := [.timeoutMs, .maxSteps, .memorySize]
      body := ["\ttimeout_ms=\"0\"".toList, "#memory_size".toList,
        "max_steps =\u00a018446744073709551615\r".toList, [], "name=[x]".toList,
        "memory_size= 16777216".toList]
      after := ["[x]".toList, "memory_size=1".toList]
      elsewhere := List.forall_mem_singleton.mpr (hother hbefore _ nofun)
      entered := SettingsLine.ofChars_eq_header_iff_titles.mp hheader
      assigned := .assign htimeout (by decide) (.idle (.comment Text.no_blanks _)
        (.assign hsteps (by decide) (.idle (.blank Text.no_blanks) (.idle hname
          (.assign hsize (by decide) .nil)))))
      complete := by
        intro key
        cases key <;> decide
      left := by
        intro line hline
        obtain rfl := Option.some.inj hline
        exact ⟨['x'], SettingsLine.ofChars_eq_header_iff_titles.mp hnext⟩
      closed := List.forall_mem_cons.mpr ⟨hother hnext _ (by simp),
        List.forall_mem_singleton.mpr (hother hafter _ nofun)⟩ }
  exact ⟨layout, hlines,
    written_settings_are_in_force layout hlines (by decide) (by decide) (by decide)⟩

end TapeMachine
