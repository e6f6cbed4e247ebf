import TapeMachine.Proofs.Syntax.Composition
import TapeMachine.Proofs.Syntax.Pairing

/-!
# Comments

A program keeps the place of each instruction, and that is all that the comments of its source
decide. Two sources with the same instruction characters are read alike: as the same code, or the
same one of these characters is at fault.
-/
namespace TapeMachine

theorem Instruction.isSome_ofChar?_iff (c : Char) :
    (ofChar? c).isSome ↔ c ∈ "><+-.,[]".toList := by
  unfold ofChar?
  split <;> simp_all

theorem mem_places_iff {text : List Char} {i : Nat} :
    i ∈ places text ↔ ∃ c ∈ "><+-.,[]".toList, text[i]? = some c := by
  rw [places, List.mem_findIdxs_iff_exists_getElem_pos]
  constructor
  · rintro ⟨hi, hc⟩
    exact ⟨text[i], (Instruction.isSome_ofChar?_iff _).mp hc, List.getElem?_eq_getElem hi⟩
  · rintro ⟨c, hc, hi⟩
    obtain ⟨hlt, rfl⟩ := List.getElem?_eq_some_iff.mp hi
    exact ⟨hlt, (Instruction.isSome_ofChar?_iff _).mpr hc⟩

theorem pairwise_places (text : List Char) : (places text).Pairwise (· < ·) :=
  List.pairwise_findIdxs

/-- An instruction character of one text has a partner of the same rank in every other text with the
same instruction characters. -/
theorem exists_split_of_same_chars {before after text' : List Char} {c : Char}
    (hc : (Instruction.ofChar? c).isSome)
    (h : instructionChars (before ++ c :: after) = instructionChars text') :
    ∃ before' after', text' = before' ++ c :: after' ∧
      instructionChars before = instructionChars before' ∧
      instructionChars after = instructionChars after' ∧
      (places text')[(instructionChars before).length]? = some before'.length := by
  have hcons : instructionChars (c :: after) = c :: instructionChars after :=
    List.filter_cons_of_pos hc
  rw [instructionChars_append, hcons] at h
  obtain ⟨before', after', hsplit, hbefore, hafter, hplace⟩ :=
    exists_split_of_instructionChars h.symm
  exact ⟨before', after', hsplit, hbefore.symm, hafter.symm, hplace⟩

/-- What reading makes of two texts with the same instruction characters. -/
inductive ReadAlike (text text' : List Char) :
    Except BracketError Program → Except BracketError Program → Prop where
  | whole {p p' : Program} (code : p.code = p'.code) : ReadAlike text text' (.ok p) (.ok p')
  /-- The same bracket is at fault, instruction character number `k` in both texts. -/
  | unmatched {e e' : BracketError} (k : Nat) (bracket : e.bracket = e'.bracket)
    (place : (places text)[k]? = some e.offset) (place' : (places text')[k]? = some e'.offset) :
    ReadAlike text text' (.error e) (.error e')

theorem readAlike_parse {source source' : String}
    (h : instructionChars source.toList = instructionChars source'.toList) :
    ReadAlike source.toList source'.toList (Program.parse source) (Program.parse source') := by
  have hreading := reading_parse source
  generalize Program.parse source = r at hreading
  cases hreading with
  | whole b hb =>
    have hparse := (Reading.whole b (hb.trans h)).parse_eq
    rw [hparse]
    exact .whole rfl
  | unopened before after b hsplit hb =>
    rw [hsplit] at h ⊢
    obtain ⟨before', after', hsplit', hbefore, -, hplace⟩ := exists_split_of_same_chars rfl h
    have hparse := (Reading.unopened before' after' b hsplit' (hb.trans hbefore)).parse_eq
    rw [hparse]
    exact .unmatched _ rfl (getElem?_places rfl) hplace
  | unclosed before after n b hsplit hn hb =>
    rw [hsplit] at h ⊢
    obtain ⟨before', after', hsplit', hbefore, hafter, hplace⟩ := exists_split_of_same_chars rfl h
    have hparse := (Reading.unclosed before' after' n b hsplit' (hn.trans hbefore)
      (hb.trans hafter)).parse_eq
    rw [hparse]
    exact .unmatched _ rfl (getElem?_places rfl) hplace

variable {source : String} {p : Program}

theorem toList_offsets_of_parse (h : Program.parse source = .ok p) :
    p.offsets.toList = places source.toList := by
  obtain ⟨b, -, rfl⟩ := parse_eq_ok_iff.mp h
  rfl

theorem spelling_of_parse (h : Program.parse source = .ok p) :
    spelling p.code = instructionChars source.toList := by
  obtain ⟨b, hb, rfl⟩ := parse_eq_ok_iff.mp h
  rw [spelling, ← hb, Block.map_toChar_code]

theorem size_offsets_of_parse (h : Program.parse source = .ok p) :
    p.offsets.size = p.code.size := by
  rw [← Array.length_toList, toList_offsets_of_parse h, length_places, ← spelling_of_parse h,
    spelling, List.length_map, Array.length_toList]

end TapeMachine
