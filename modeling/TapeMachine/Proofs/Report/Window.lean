import TapeMachine.Proofs.Report.Caret

/-!
# The window of an excerpt

An excerpt shows a window of the source, 32 characters to either side of the place as far as the
source goes. The caret stands in the column of the place, also where the place is too near to the
start of the source for a full window, or lies beyond its end.
-/
namespace TapeMachine

/-- A line end or a tab is shown as a blank, and every other character as it is. -/
inductive ShownAs : Char → Char → Prop where
  | lineEnd : ShownAs '\n' ' '
  | tab : ShownAs '\t' ' '
  | same {c : Char} (hend : c ≠ '\n') (htab : c ≠ '\t') : ShownAs c c

theorem shownAs_flattened (c : Char) : ShownAs c (flattened c) := by
  by_cases hend : c = '\n'
  · subst hend
    exact .lineEnd
  · by_cases htab : c = '\t'
    · subst htab
      exact .tab
    · rw [flattened, if_neg (not_or.mpr ⟨hend, htab⟩)]
      exact .same hend htab

namespace Excerpt

variable (title : String) (source : List Char) (position : Nat)

theorem length_slice : (around title source position).slice.length =
    min (position + excerptReach + 1) source.length - (position - excerptReach) := by
  rw [around, String.length_ofList, List.length_map, List.length_take, List.length_drop]
  omega

theorem toList_underline : (around title source position).underline.toList =
    List.replicate (position - (position - excerptReach)) ' ' ++ ['^'] := by
  simp [around, Text.blanks, Text.replicate]

end Excerpt

/-- The slice of an excerpt is what stands in the source from 32 characters before the place, or from
its start, to 32 characters behind the place, or to its end; line ends and tabs are shown as blanks,
and all else as it is. So it has at most 65 characters, and none if the place lies far beyond the end.
The caret stands behind as many blanks as there are characters of the window before the place: under
the character at the place, or beyond the slice if there is no such character. -/
theorem excerpt_shows_window_around_place (title : String) (source : List Char) (position : Nat) :
    let e := Excerpt.around title source position
    let start := position - 32
    let stop := min (position + 33) source.length
    (e.slice.length = stop - start ∧ ∀ i < stop - start, ∃ c d, source[start + i]? = some c ∧
      e.slice.toList[i]? = some d ∧ ShownAs c d) ∧
    e.slice.length ≤ 65 ∧
    e.underline.toList = List.replicate (min position 32) ' ' ++ ['^'] ∧
    (∀ h : position < source.length, ∃ d, e.slice.toList[e.caret]? = some d ∧
      ShownAs source[position] d) ∧
    (source.length ≤ position → e.slice.length ≤ e.caret) := by
  intro e start stop
  have hlength : e.slice.length = stop - start := Excerpt.length_slice title source position
  have hcolumn : position - (position - excerptReach) = min position 32 := by
    have hreach : excerptReach = 32 := rfl
    omega
  have hcaret : e.caret = min position 32 := by
    rw [← hcolumn]
    exact Excerpt.caret_around title source position
  refine ⟨⟨hlength, fun i hi => ?window⟩, by omega, ?underline, fun h => ?inside, fun h => ?beyond⟩
  case window =>
    have hplace : start + i < source.length := by omega
    have hshown := Excerpt.getElem?_slice title source hi
    rw [List.getElem?_eq_getElem (show position - excerptReach + i < source.length from hplace)]
      at hshown
    exact ⟨source[start + i], _, List.getElem?_eq_getElem hplace, hshown, shownAs_flattened _⟩
  case underline =>
    rw [← hcolumn]
    exact Excerpt.toList_underline title source position
  case inside =>
    exact ⟨_, Excerpt.getElem?_slice_caret title (List.getElem?_eq_getElem h), shownAs_flattened _⟩
  case beyond =>
    omega

/-- A tab at the end of a source is shown as a blank, with 32 characters before it. Seen from 33
places further on, nothing of the source is in the window. -/
theorem excerpt_shows_window_around_place_at_the_end :
    let source := List.replicate 33 '+' ++ ['\t']
    let e := Excerpt.around "" source 33
    let beyond := Excerpt.around "" source 66
    (e.slice.length = 33 ∧ e.underline.toList = List.replicate 32 ' ' ++ ['^']) ∧
      (∃ c d, source[1]? = some c ∧ e.slice.toList[0]? = some d ∧ ShownAs c d) ∧
      (∃ d, e.slice.toList[e.caret]? = some d ∧ ShownAs '\t' d) ∧
      beyond.slice.length = 0 ∧ beyond.slice.length ≤ beyond.caret := by
  intro source e beyond
  obtain ⟨⟨hlength, hwindow⟩, -, hunderline, hinside, -⟩ :=
    excerpt_shows_window_around_place "" source 33
  obtain ⟨⟨hnothing, -⟩, -, -, -, hbeyond⟩ := excerpt_shows_window_around_place "" source 66
  exact ⟨⟨hlength, hunderline⟩, hwindow 0 (by decide), hinside (by decide), hnothing,
    hbeyond (by decide)⟩

end TapeMachine
