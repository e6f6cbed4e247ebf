import TapeMachine.Tape

/-!
# The operations of the tape

What each operation does to the row of cells, read as a list, and to the head.
-/
namespace TapeMachine.Tape

variable (t : Tape) (v : UInt8)

@[simp] theorem reach_head : t.reach.head = t.head := by
  unfold reach
  split <;> rfl

/-- The row is filled up with zeros until the head stands on it. -/
theorem toList_reach : t.reach.cells.toList = t.cells.toList.rightpad (t.head + 1) 0 := by
  unfold reach
  split
  · rename_i hlt
    rw [List.rightpad, Array.length_toList, show t.head + 1 - t.cells.size = 0 by omega]
    simp
  · simp [List.rightpad]

theorem size_reach : t.reach.cells.size = max (t.head + 1) t.cells.size := by
  rw [← Array.length_toList, toList_reach, List.length_rightpad, Array.length_toList]

@[simp] theorem write_head : (t.write v).head = t.head :=
  t.reach_head

theorem toList_write :
    (t.write v).cells.toList = (t.cells.toList.rightpad (t.head + 1) 0).set t.head v := by
  simp only [write, Array.toList_setIfInBounds, toList_reach, reach_head]

theorem size_write : (t.write v).cells.size = max (t.head + 1) t.cells.size := by
  rw [← Array.length_toList, toList_write, List.length_set, List.length_rightpad,
    Array.length_toList]

@[simp] theorem moveRight_head : t.moveRight.head = t.head + 1 :=
  reach_head _

theorem toList_moveRight :
    t.moveRight.cells.toList = t.cells.toList.rightpad (t.head + 2) 0 :=
  toList_reach _

theorem size_moveRight : t.moveRight.cells.size = max (t.head + 2) t.cells.size :=
  size_reach _

/-- The head stands on the cell that it has written. -/
theorem write_head_lt : (t.write v).head < (t.write v).cells.size := by
  rw [write_head, size_write]
  omega

/-- The head moves to the right onto a cell. -/
theorem moveRight_head_lt : t.moveRight.head < t.moveRight.cells.size := by
  rw [moveRight_head, size_moveRight]
  omega

theorem moveLeft?_eq_none_iff : t.moveLeft? = none ↔ t.head = 0 := by
  unfold moveLeft?
  cases t.head <;> simp

theorem moveLeft?_eq_some {t t' : Tape} (h : t.moveLeft? = some t') :
    t'.cells = t.cells ∧ t.head = t'.head + 1 := by
  unfold moveLeft? at h
  split at h
  · simp at h
  · rename_i n hn
    obtain rfl := Option.some.inj h
    exact ⟨rfl, hn⟩

theorem cell?_eq_getElem? : t.cell? = t.cells.toList[t.head]? :=
  Array.getElem?_toList.symm

/-- There is a cell under the head, unless the head is beyond the end. -/
theorem cell?_eq_none_iff : t.cell? = none ↔ t.cells.size ≤ t.head :=
  Array.getElem?_eq_none_iff

/-- A cell that holds something is there. -/
theorem head_lt_of_value_ne_zero {t : Tape} (h : t.value ≠ 0) : t.head < t.cells.size := by
  apply Nat.lt_of_not_le
  intro hle
  rw [value, t.cell?_eq_none_iff.mpr hle] at h
  exact h rfl

theorem cell?_eq_some_value {t : Tape} (h : t.head < t.cells.size) : t.cell? = some t.value := by
  rw [value, cell?, Array.getElem?_eq_getElem h]
  rfl

/-! ### Bytes by index -/

/-- The byte at an index of the row. Beyond its end it is zero. -/
def byteAt (i : Nat) : UInt8 :=
  t.cells.getD i 0

variable (i : Nat)

theorem byteAt_eq : t.byteAt i = t.cells.toList[i]?.getD 0 := by
  rw [byteAt, Array.getD_eq_getD_getElem?, Array.getElem?_toList]

theorem value_eq_byteAt : t.value = t.byteAt t.head := by
  rw [byteAt_eq, value, cell?_eq_getElem?]

/-- Zeros behind a row do not show. -/
theorem getD_append_zeros (l : List UInt8) (n : Nat) :
    (l ++ List.replicate n 0)[i]?.getD 0 = l[i]?.getD 0 := by
  rw [List.getElem?_append]
  split
  · rfl
  · rename_i h
    rw [List.getElem?_replicate, List.getElem?_eq_none (Nat.le_of_not_lt h)]
    split <;> rfl

theorem byteAt_reach : t.reach.byteAt i = t.byteAt i := by
  rw [byteAt_eq, byteAt_eq, toList_reach, List.rightpad, getD_append_zeros]

theorem byteAt_moveRight : t.moveRight.byteAt i = t.byteAt i :=
  byteAt_reach _ i

theorem byteAt_write : (t.write v).byteAt i = if i = t.head then v else t.byteAt i := by
  rw [byteAt_eq, byteAt_eq, toList_write, List.getElem?_set]
  by_cases h : i = t.head
  · have hlt : t.head < (t.cells.toList.rightpad (t.head + 1) 0).length := by
      rw [List.length_rightpad]
      omega
    rw [if_pos h.symm, if_pos hlt, if_pos h]
    rfl
  · rw [if_neg (Ne.symm h), if_neg h, List.rightpad, getD_append_zeros]

@[simp] theorem value_write : (t.write v).value = v := by
  rw [value_eq_byteAt, byteAt_write, write_head, if_pos rfl]

end TapeMachine.Tape
