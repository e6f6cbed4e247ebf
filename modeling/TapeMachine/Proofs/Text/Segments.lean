import Mathlib.Data.List.SplitBy
import TapeMachine.Highlight

/-!
# The segments of a line

The segments of a highlighted line are its longest runs of one style: together they are the line,
none of them is empty, and neighbours differ in style. A line has no other segments of this kind. Read
from left to right, a character makes the last segment longer or starts a segment of its own, and so
the highlighter holds the segments of what it has read, with the last of them in its buffer.
-/
namespace TapeMachine

namespace CharKind

/-- The characters of each kind, told one by one. All others are comments. -/
def Covers : CharKind → Char → Prop
  | movement, c => c = '>' ∨ c = '<'
  | data, c => c = '+' ∨ c = '-'
  | exchange, c => c = '.' ∨ c = ','
  | flow, c => c = '[' ∨ c = ']'
  | comment, c => c ∉ ['>', '<', '+', '-', '.', ',', '[', ']']

theorem ofChar_of_covers_comment {c : Char} (h : comment.Covers c) : ofChar c = comment := by
  have hnone : Instruction.ofChar? c = none := by
    unfold Instruction.ofChar?
    split <;> simp_all [Covers]
  rw [ofChar, hnone]

/-- A character is of exactly one kind. -/
theorem covers_iff {k : CharKind} {c : Char} : k.Covers c ↔ ofChar c = k := by
  constructor
  · intro h
    cases k with
    | comment => exact ofChar_of_covers_comment h
    | _ => rcases h with rfl | rfl <;> rfl
  · rintro rfl
    by_cases h : comment.Covers c
    · rwa [ofChar_of_covers_comment h]
    · simp only [Covers, List.mem_cons, List.not_mem_nil, or_false, not_not] at h
      rcases h with rfl | rfl | rfl | rfl | rfl | rfl | rfl | rfl
      all_goals simp [ofChar, Instruction.ofChar?, Covers]

theorem style_injective : Function.Injective style := by
  intro k k' h
  cases k <;> cases k' <;> first | rfl | exact absurd h (by decide)

end CharKind

/-- The segments part the line into its longest runs of one style. -/
structure Parts (line : List Char) (segments : List Segment) : Prop where
  whole : (segments.map Segment.text).flatten = line
  nonempty : ∀ s ∈ segments, s.text ≠ []
  uniform : ∀ s ∈ segments, ∀ c ∈ s.text, ∃ k : CharKind, k.Covers c ∧ s.style = k.style
  apart : segments.IsChain fun s t => s.style ≠ t.style

def Segment.ofRun (chars : List Char) : Segment where
  style := .ofChar (chars.headD ' ')
  text := chars

/-- The longest runs of characters of one kind. -/
def runs (line : List Char) : List Segment :=
  (line.splitBy fun a b => CharKind.ofChar a == CharKind.ofChar b).map Segment.ofRun

namespace Parts

variable {line : List Char} {segments segments' front : List Segment} {s : Segment} {c : Char}

theorem style_of_mem (h : Parts line segments) (hs : s ∈ segments) (hc : c ∈ s.text) :
    s.style = .ofChar c := by
  obtain ⟨k, hk, hstyle⟩ := h.uniform s hs c hc
  rw [hstyle, Style.ofChar, CharKind.covers_iff.mp hk]

theorem nil : Parts [] [] :=
  ⟨rfl, by simp, by simp, .nil⟩

/-- One segment more, of another style than the last one. -/
theorem concat (h : Parts line segments) (hs : s.text ≠ [])
    (huniform : ∀ c ∈ s.text, s.style = .ofChar c)
    (hlast : ∀ t ∈ segments.getLast?, t.style ≠ s.style) :
    Parts (line ++ s.text) (segments ++ [s]) where
  whole := by simp [h.whole]
  nonempty := by
    intro t ht
    rcases List.mem_append.mp ht with hfront | hnew
    · exact h.nonempty t hfront
    · obtain rfl := List.mem_singleton.mp hnew
      exact hs
  uniform := by
    intro t ht c hc
    rcases List.mem_append.mp ht with hfront | hnew
    · exact h.uniform t hfront c hc
    · obtain rfl := List.mem_singleton.mp hnew
      exact ⟨_, CharKind.covers_iff.mpr rfl, huniform c hc⟩
  apart := by
    rw [List.isChain_append]
    refine ⟨h.apart, .singleton _, fun t ht t' ht' => ?_⟩
    obtain rfl : s = t' := by simpa using ht'
    exact hlast t ht

/-- The segments before the last one part what stands before its text. -/
theorem exists_front (h : Parts line (front ++ [s])) : ∃ before, line = before ++ s.text ∧
    Parts before front ∧ ∀ t ∈ front.getLast?, t.style ≠ s.style := by
  obtain ⟨hfront, -, hlast⟩ := List.isChain_append.mp h.apart
  have hmem {t : Segment} (ht : t ∈ front) : t ∈ front ++ [s] := List.mem_append_left _ ht
  refine ⟨(front.map Segment.text).flatten, ?_, ?_, fun t ht => hlast t ht s (by simp)⟩
  · simp [← h.whole]
  · exact ⟨rfl, fun t ht => h.nonempty t (hmem ht), fun t ht => h.uniform t (hmem ht), hfront⟩

/-! ### One character more -/

/-- A character of the style of the last segment makes it longer. -/
theorem grow (h : Parts line (front ++ [s])) (hc : s.style = .ofChar c) :
    Parts (line ++ [c]) (front ++ [{ s with text := s.text ++ [c] }]) := by
  obtain ⟨before, rfl, hfront, hlast⟩ := h.exists_front
  rw [List.append_assoc]
  apply hfront.concat (s := { s with text := s.text ++ [c] })
  · simp
  · intro a ha
    rcases List.mem_append.mp ha with hold | hnew
    · have hstyle : s.style = .ofChar a := h.style_of_mem (by simp) hold
      exact hstyle
    · obtain rfl := List.mem_singleton.mp hnew
      exact hc
  · exact hlast

/-- A character of another style starts a segment. -/
theorem start (h : Parts line segments) (hc : ∀ s ∈ segments.getLast?, s.style ≠ .ofChar c) :
    Parts (line ++ [c]) (segments ++ [⟨.ofChar c, [c]⟩]) := by
  apply h.concat (s := ⟨.ofChar c, [c]⟩)
  · simp
  · simp
  · exact hc

/-! ### A line has one list of segments -/

theorem ofRun_text (h : Parts line segments) (hs : s ∈ segments) : Segment.ofRun s.text = s := by
  rcases s with ⟨style, text⟩
  cases text with
  | nil => exact absurd rfl (h.nonempty _ hs)
  | cons c text =>
    have hstyle : style = .ofChar c := h.style_of_mem hs List.mem_cons_self
    rw [hstyle]
    rfl

theorem isChain_text (h : Parts line segments) (hs : s ∈ segments) :
    s.text.IsChain fun a b => (CharKind.ofChar a == CharKind.ofChar b) = true := by
  refine (List.pairwise_of_forall_mem_list fun a ha b hb => ?_).isChain
  rw [beq_iff_eq]
  apply CharKind.style_injective
  exact (h.style_of_mem hs ha).symm.trans (h.style_of_mem hs hb)

/-- Where one segment ends and the next begins, the kinds of characters differ. -/
theorem isChain_ends (h : Parts line segments) : (segments.map Segment.text).IsChain fun a b =>
    ∃ ha hb, (CharKind.ofChar (a.getLast ha) == CharKind.ofChar (b.head hb)) = false := by
  rw [List.isChain_map]
  refine h.apart.imp_of_mem_imp fun s t hs ht hne => ?_
  refine ⟨h.nonempty s hs, h.nonempty t ht, beq_eq_false_iff_ne.mpr fun hkind => hne ?_⟩
  rw [h.style_of_mem hs (List.getLast_mem (h.nonempty s hs)),
    h.style_of_mem ht (List.head_mem (h.nonempty t ht)), Style.ofChar, hkind, Style.ofChar]

theorem eq_runs (h : Parts line segments) : segments = runs line := by
  have hruns : line.splitBy (fun a b => CharKind.ofChar a == CharKind.ofChar b) =
      segments.map Segment.text := by
    rw [← h.whole]
    refine List.splitBy_flatten ?_ ?_ h.isChain_ends
    · intro hmem
      obtain ⟨s, hs, hempty⟩ := List.mem_map.mp hmem
      exact h.nonempty s hs hempty
    · intro text hmem
      obtain ⟨s, hs, rfl⟩ := List.mem_map.mp hmem
      exact h.isChain_text hs
  have hsame : segments.map (Segment.ofRun ∘ Segment.text) = segments.map id :=
    List.map_congr_left fun s hs => h.ofRun_text hs
  rw [runs, hruns, List.map_map, hsame, List.map_id]

theorem unique (h : Parts line segments) (h' : Parts line segments') : segments = segments' :=
  h.eq_runs.trans h'.eq_runs.symm

end Parts

/-! ### What the highlighter holds -/

namespace Highlighter

/-- What is held once a line has been read: nothing if it was empty, and else its segments, with the
text of the last one in the buffer. -/
inductive Holds : List Char → Highlighter → Prop where
  | nothing : Holds [] {}
  | segments {line : List Char} {out : Array Segment} {style : Style} {buffer : Array Char}
    (parts : Parts line (out.toList ++ [⟨style, buffer.toList⟩])) :
    Holds line { out, style? := some style, buffer }

variable {line : List Char} {h : Highlighter}

variable {out : Array Segment} {style : Style} {buffer : Array Char} {c : Char}

theorem read_empty (c : Char) :
    read {} c = { out := #[], style? := some (.ofChar c), buffer := #[c] } := rfl

theorem read_of_eq (hc : style = .ofChar c) : read { out, style? := some style, buffer } c =
    { out, style? := some style, buffer := buffer.push c } := by
  simp [read, turn, hc]

theorem read_of_ne (hc : style ≠ .ofChar c) : read { out, style? := some style, buffer } c =
    { out := out.push ⟨style, buffer.toList⟩, style? := some (.ofChar c), buffer := #[c] } := by
  simp [read, turn, hc]

theorem Holds.read (held : Holds line h) (c : Char) : Holds (line ++ [c]) (h.read c) := by
  cases held with
  | nothing =>
    rw [read_empty]
    exact .segments (Parts.nil.start (by simp))
  | @segments _ out style buffer parts =>
    by_cases hc : style = .ofChar c
    · rw [read_of_eq hc]
      apply Holds.segments
      rw [Array.toList_push]
      exact parts.grow hc
    · rw [read_of_ne hc]
      apply Holds.segments
      rw [Array.toList_push]
      exact parts.start (by simpa using hc)

/-- By induction on what is read. -/
theorem Holds.foldl_read (held : Holds line h) (rest : List Char) :
    Holds (line ++ rest) (rest.foldl Highlighter.read h) := by
  induction rest generalizing line h with
  | nil =>
    rw [List.append_nil]
    exact held
  | cons c rest ih =>
    rw [List.foldl_cons, List.append_cons]
    exact ih (held.read c)

/-- A segment is never empty, and so the buffer always goes out. -/
theorem Holds.finish (held : Holds line h) : Parts line h.finish := by
  cases held with
  | nothing => exact Parts.nil
  | @segments _ out style buffer parts =>
    have hbuffer : buffer.toList ≠ [] := parts.nonempty ⟨style, buffer.toList⟩ (by simp)
    have hfinish : Highlighter.finish { out, style? := some style, buffer } =
        out.toList ++ [⟨style, buffer.toList⟩] := by
      simpa [Highlighter.finish] using hbuffer
    rwa [hfinish]

end Highlighter

theorem parts_highlight (line : List Char) : Parts line (highlight line) :=
  (Highlighter.Holds.nothing.foldl_read line).finish

theorem highlight_eq_runs (line : List Char) : highlight line = runs line :=
  (parts_highlight line).eq_runs

/-- What one more character at the end of a line does to its segments. -/
theorem highlight_concat (line : List Char) (c : Char) :
    (∀ front s, highlight line = front ++ [s] → s.style = .ofChar c →
      highlight (line ++ [c]) = front ++ [{ s with text := s.text ++ [c] }]) ∧
    ((∀ s ∈ (highlight line).getLast?, s.style ≠ .ofChar c) →
      highlight (line ++ [c]) = highlight line ++ [⟨.ofChar c, [c]⟩]) := by
  have h := parts_highlight line
  have hnext := parts_highlight (line ++ [c])
  constructor
  · intro front s hlast hstyle
    rw [hlast] at h
    exact hnext.unique (h.grow hstyle)
  · intro hstyle
    exact hnext.unique (h.start hstyle)

/-- A highlighted line is cut into its longest runs of one style. The segments put together are the
line, none of them is empty, each of their characters is of a kind that has the style of its
segment, and neighbours differ in style. No other segments are like that, and an empty line has
none. -/
theorem highlight_cuts_longest_runs (line : List Char) :
    Parts line (highlight line) ∧
      (∀ segments, Parts line segments → segments = highlight line) ∧ highlight [] = [] :=
  ⟨parts_highlight line, fun _ h => h.unique (parts_highlight line), rfl⟩

example : (highlight "++-[x".toList).map Segment.text = [['+', '+', '-'], ['['], ['x']] := by
  rfl

end TapeMachine
