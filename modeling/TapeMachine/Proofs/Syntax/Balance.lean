import TapeMachine.Instruction

/-!
# Bracket balance by counting

A text is balanced when each of its prefixes closes at most as many brackets as it opens and the
whole of it closes all that it opens. Only the brackets of the text matter for this, so its comments
may be dropped.
-/
namespace TapeMachine

/-- No prefix of the text closes more brackets than it opens. -/
def NoExcess (text : List Char) : Prop :=
  ∀ n, (text.take n).count ']' ≤ (text.take n).count '['

structure Balanced (text : List Char) : Prop where
  noExcess : NoExcess text
  settled : text.count ']' = text.count '['

theorem NoExcess.count_le {text : List Char} (h : NoExcess text) :
    text.count ']' ≤ text.count '[' := by
  have hall := h text.length
  rwa [List.take_length] at hall

theorem NoExcess.append {a b : List Char} (ha : NoExcess a) (hb : NoExcess b) :
    NoExcess (a ++ b) := by
  intro n
  have hleft := ha n
  have hright := hb (n - a.length)
  rw [List.take_append, List.count_append, List.count_append]
  omega

/-- An opening bracket may stand before any text without an excess. -/
theorem NoExcess.cons_open {a : List Char} (h : NoExcess a) : NoExcess ('[' :: a) := by
  intro n
  cases n with
  | zero => simp
  | succ n =>
    have hn := h n
    rw [List.take_succ_cons, List.count_cons_self, List.count_cons_of_ne (by decide)]
    omega

theorem balanced_nil : Balanced [] where
  noExcess n := by simp
  settled := by simp

theorem Balanced.append {a b : List Char} (ha : Balanced a) (hb : Balanced b) :
    Balanced (a ++ b) where
  noExcess := ha.noExcess.append hb.noExcess
  settled := by rw [List.count_append, List.count_append, ha.settled, hb.settled]

theorem Balanced.enclosed {a : List Char} (h : Balanced a) : Balanced ('[' :: (a ++ [']'])) where
  noExcess n := by
    cases n with
    | zero => simp
    | succ n =>
      have hn := h.noExcess n
      have hlast : ([']'].take (n - a.length)).count ']' ≤ 1 :=
        Nat.le_trans List.count_le_length (List.length_take_le' _ _)
      rw [List.take_succ_cons, List.take_append, List.count_cons_of_ne (by decide),
        List.count_cons_self, List.count_append, List.count_append]
      omega
  settled := by simp [List.count_append, h.settled]

theorem balanced_singleton {c : Char} (ho : c ≠ '[') (hc : c ≠ ']') : Balanced [c] where
  noExcess n := by
    cases n with
    | zero => simp
    | succ n => simp [List.count_cons_of_ne, ho, hc]
  settled := by simp [List.count_cons_of_ne, ho, hc]

/-- The character at this place is the first that closes more than has been opened. -/
structure FirstExcess (text : List Char) (offset : Nat) : Prop where
  excess : (text.take (offset + 1)).count '[' < (text.take (offset + 1)).count ']'
  before : ∀ n ≤ offset, (text.take n).count ']' ≤ (text.take n).count '['

theorem FirstExcess.not_noExcess {text : List Char} {i : Nat} (h : FirstExcess text i) :
    ¬ NoExcess text :=
  fun hno => absurd (hno (i + 1)) (Nat.not_le_of_lt h.excess)

theorem FirstExcess.unique {text : List Char} {i j : Nat} (hi : FirstExcess text i)
    (hj : FirstExcess text j) : i = j := by
  have hij : i ≤ j := Nat.le_of_not_lt fun h => Nat.not_le_of_lt hj.excess (hi.before _ h)
  have hji : j ≤ i := Nat.le_of_not_lt fun h => Nat.not_le_of_lt hi.excess (hj.before _ h)
  exact Nat.le_antisymm hij hji

/-- A closing bracket behind a balanced text is in excess. -/
theorem Balanced.firstExcess {a : List Char} (h : Balanced a) (b : List Char) :
    FirstExcess (a ++ ']' :: b) a.length where
  excess := by
    have hsettled := h.settled
    rw [List.take_append, List.take_of_length_le (by omega), Nat.add_sub_cancel_left,
      List.take_succ_cons, List.take_zero, List.count_append, List.count_append,
      List.count_cons_self, List.count_cons_of_ne (by decide), List.count_nil]
    omega
  before n hn := by
    rw [List.take_append_of_le_length hn]
    exact h.noExcess n

theorem count_open_instructionChars (text : List Char) :
    (instructionChars text).count '[' = text.count '[' :=
  List.count_filter rfl

theorem count_close_instructionChars (text : List Char) :
    (instructionChars text).count ']' = text.count ']' :=
  List.count_filter rfl

theorem noExcess_of_instructionChars {text : List Char} (h : NoExcess (instructionChars text)) :
    NoExcess text := by
  intro n
  have hprefix : instructionChars (text.take n) <+: instructionChars text :=
    (List.take_prefix n text).filter _
  rw [← count_open_instructionChars, ← count_close_instructionChars,
    List.prefix_iff_eq_take.mp hprefix]
  exact h _

theorem balanced_of_instructionChars {text : List Char} (h : Balanced (instructionChars text)) :
    Balanced text where
  noExcess := noExcess_of_instructionChars h.noExcess
  settled := by
    rw [← count_open_instructionChars, ← count_close_instructionChars]
    exact h.settled

/-- An opening bracket at this place of the text waits in vain: all that stands behind it is
balanced. -/
structure Unclosed (text : List Char) (offset : Nat) : Prop where
  bracket : text[offset]? = some '['
  rest : Balanced (text.drop (offset + 1))

theorem Unclosed.le {text : List Char} {i j : Nat} (hi : Unclosed text i) (hj : Unclosed text j) :
    j ≤ i := by
  refine Nat.le_of_not_lt fun hlt => ?_
  obtain ⟨hbound, hchar⟩ := List.getElem?_eq_some_iff.mp hj.bracket
  have hsplit := List.take_append_drop (j - (i + 1)) (text.drop (i + 1))
  rw [List.drop_drop, show i + 1 + (j - (i + 1)) = j by omega,
    List.drop_eq_getElem_cons hbound, hchar] at hsplit
  -- the text between two such brackets would close one more than it opens
  have hbetween := hi.rest.noExcess (j - (i + 1))
  have hopens := congrArg (List.count '[') hsplit
  have hcloses := congrArg (List.count ']') hsplit
  rw [List.count_append, List.count_cons_self] at hopens
  rw [List.count_append, List.count_cons_of_ne (by decide)] at hcloses
  have hwhole := hi.rest.settled
  have hrest := hj.rest.settled
  omega

/-- At most one opening bracket is the innermost one that stays open. -/
theorem Unclosed.unique {text : List Char} {i j : Nat} (hi : Unclosed text i)
    (hj : Unclosed text j) : i = j :=
  Nat.le_antisymm (hj.le hi) (hi.le hj)

end TapeMachine
