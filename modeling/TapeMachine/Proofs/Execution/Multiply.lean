import Mathlib.Data.Int.ModEq
import Mathlib.Tactic.Ring
import TapeMachine.Proofs.Execution.Straight
import TapeMachine.Proofs.Syntax.Pairing

/-!
# Multiply loops

A loop whose body comes back to the cell where it starts and lowers it by one is run as many times as
that cell says. So it clears the cell and adds multiples of it to others, and the number of its steps
is known. Clearing a cell and adding it to another one are the simplest cases.
-/
namespace TapeMachine

/-- The strokes bring the head back and lower the cell there by one, as far as a byte can tell. -/
structure CountsDown (body : List Stroke) : Prop where
  returns : displacement body = 0
  lowers : delta body 0 ≡ -1 [ZMOD 256]

variable {body : List Stroke} {t : Tape} {n : Nat}

theorem ne_zero_of_toNat_eq_succ {v : UInt8} (h : v.toNat = n + 1) : v ≠ 0 := by
  rintro rfl
  exact Nat.succ_ne_zero n h.symm

/-- Clearing a cell, and adding it to the one on its right. -/
example : CountsDown [.minus] ∧ CountsDown [.minus, .right, .plus, .left] ∧
    delta [.minus, .right, .plus, .left] 1 = 1 :=
  ⟨⟨rfl, rfl⟩, ⟨rfl, rfl⟩, rfl⟩

/-! ### The tape after some turns -/

theorem CountsDown.head_play (h : CountsDown body) (hstay : Stays t.head body) :
    (play body t).head = t.head := by
  have hhead := TapeMachine.head_play hstay
  rw [h.returns] at hhead
  omega

theorem CountsDown.head_iterate (h : CountsDown body) (hstay : Stays t.head body) (n : Nat) :
    ((play body)^[n] t).head = t.head := by
  induction n with
  | zero => rfl
  | succ n ih => rw [Function.iterate_succ_apply', h.head_play (ih ▸ hstay), ih]

theorem CountsDown.byteAt_iterate (h : CountsDown body) (hstay : Stays t.head body) (n k : Nat) :
    ((((play body)^[n] t).byteAt k).toNat : Int) =
      ((t.byteAt k).toNat + n * delta body (k - t.head)) % 256 := by
  induction n with
  | zero =>
    have hbyte := (t.byteAt k).toNat_lt
    rw [Function.iterate_zero_apply, Nat.cast_zero, Int.zero_mul]
    omega
  | succ n ih =>
    have hhead := h.head_iterate hstay n
    rw [Function.iterate_succ_apply', byteAt_play (hhead ▸ hstay), ih, Int.emod_add_emod, hhead]
    congr 1
    push_cast
    ring

/-- After as many turns as the cell under the head says, that cell is zero. -/
theorem CountsDown.byteAt_head_iterate (h : CountsDown body) (hstay : Stays t.head body) :
    ((play body)^[t.value.toNat] t).byteAt t.head = 0 := by
  have hbyte := h.byteAt_iterate hstay t.value.toNat t.head
  have hlowers := (h.lowers.mul_left (t.value.toNat : Int)).add_left (t.value.toNat : Int)
  rw [Int.mul_neg_one, Int.add_right_neg] at hlowers
  rw [Int.sub_self, ← Tape.value_eq_byteAt, hlowers] at hbyte
  apply UInt8.toNat_inj.mp
  exact Int.ofNat_inj.mp hbyte

/-- The row grows in the first turn and not in the later ones. -/
theorem CountsDown.size_iterate (h : CountsDown body) (hseat : t.head < t.cells.size)
    (hstay : Stays t.head body) (n : Nat) : (((play body)^[n + 1] t).cells.size : Int) =
      max (t.cells.size : Int) (t.head + peak body + 1) := by
  induction n generalizing t with
  | zero => exact size_play hseat hstay
  | succ n ih =>
    have hsize := size_play hseat hstay
    have hhead := h.head_play hstay
    rw [Function.iterate_succ_apply, ih (by omega) (hhead ▸ hstay), hhead, hsize]
    omega

theorem CountsDown.value_play (h : CountsDown body) (hstay : Stays t.head body)
    (hvalue : t.value.toNat = n + 1) : (play body t).value.toNat = n := by
  have hbyte := byteAt_play hstay t.head
  have hlowers : delta body 0 % 256 = -1 % 256 := h.lowers
  have hlt := (t.byteAt t.head).toNat_lt
  rw [Tape.value_eq_byteAt] at hvalue
  rw [Int.sub_self, hvalue] at hbyte
  rw [Tape.value_eq_byteAt, h.head_play hstay]
  omega

/-! ### The loop in the code -/

/-- A loop with this body stands in the code from index `start` on, right before index `stop`. -/
structure LoopAt (code : Array Instruction) (start stop : Nat) (body : List Stroke) : Prop where
  opening : code[start]? = some (.loopStart stop)
  written : Written code (start + 1) body
  closing : code[start + 1 + body.length]? = some (.loopEnd (start + 1))
  behind : stop = start + 1 + body.length + 1

theorem LoopAt.stop_le {code : Array Instruction} {start stop : Nat}
    (h : LoopAt code start stop body) : stop ≤ code.size := by
  have hlt := (Array.getElem?_eq_some_iff.mp h.closing).1
  have hbehind := h.behind
  omega

/-- In a program the body of a loop is what stands between its brackets. -/
theorem loopAt_of_parse {source : String} {p : Program} (h : Program.parse source = .ok p)
    {start stop : Nat} (hopen : p.code[start]? = some (.loopStart stop))
    (hbody : (p.code.extract (start + 1) (stop - 1)).toList = body.map Stroke.instruction) :
    LoopAt p.code start stop body := by
  obtain ⟨b, -, hcode⟩ := exists_block_of_parse h
  rw [hcode] at hopen
  obtain ⟨x, hx, hstop⟩ := Block.exists_hasLoop_of_loopStart hopen
  have hbrackets := hx.brackets
  rw [← hcode] at hbrackets hopen
  have hclosing := (Array.getElem?_eq_some_iff.mp hbrackets.2).1
  have hlength : x.size = body.length := by
    have hlengths := congrArg List.length hbody
    rw [Array.length_toList, Array.size_extract, List.length_map] at hlengths
    omega
  refine ⟨hopen, fun k s hs => ?_, hlength ▸ hbrackets.2, by omega⟩
  have hk := (List.getElem?_eq_some_iff.mp hs).1
  have hread : (p.code.extract (start + 1) (stop - 1))[k]? = some s.instruction := by
    rw [← Array.getElem?_toList, hbody, List.getElem?_map, hs]
    rfl
  rwa [Array.getElem?_extract, if_pos (by omega)] at hread

namespace Machine

variable {m : Machine} {start stop : Nat}

/-- One turn, from behind the opening bracket. The closing bracket decides whether there is another
one. -/
theorem walks_turn (hloop : LoopAt m.code start stop body) (hip : m.ip = start + 1)
    (hstay : Stays m.tape.head body) : Walks stop (body.length + 1) m
      (m.further (body.length + 1) (if (play body m.tape).value = 0 then stop else start + 1)
        (play body m.tape)) := by
  have hstop := hloop.behind
  have hbody : Walks stop body.length m
      (m.further body.length (start + 1 + body.length) (play body m.tape)) :=
    hip ▸ walks_play (hip ▸ hloop.written) hstay (by omega)
  refine hbody.trans ?_
  have hi : (m.further body.length (start + 1 + body.length) (play body m.tape)).code[
      (m.further body.length (start + 1 + body.length) (play body m.tape)).ip]? =
        some (.loopEnd (start + 1)) := hloop.closing
  rw [← further_further m body.length 1 (start + 1 + body.length)]
  refine .of_step (halted_of_current hi) ?_ (by rw [further_ip]; omega)
  by_cases hv : (play body m.tape).value = 0
  · rw [step_loopEnd_of_zero hi hv, if_pos hv, hstop]
    rfl
  · have hle : start + 1 ≤ m.code.size := by
      have hstop' := hloop.stop_le
      omega
    rw [step_loopEnd_of_ne hi hv, if_neg hv]
    exact jump_of_le hle

/-- By induction on the cell that counts the turns. -/
theorem walks_turns (hloop : LoopAt m.code start stop body) (hip : m.ip = start + 1)
    (hcounts : CountsDown body) (hstay : Stays m.tape.head body)
    (hvalue : m.tape.value.toNat = n + 1) : Walks stop ((n + 1) * (body.length + 1)) m
      (m.further ((n + 1) * (body.length + 1)) stop ((play body)^[n + 1] m.tape)) := by
  have hturn := walks_turn hloop hip hstay
  have hnext := hcounts.value_play hstay hvalue
  induction n generalizing m with
  | zero =>
    have hzero : (play body m.tape).value = 0 := UInt8.toNat_inj.mp hnext
    rw [if_pos hzero] at hturn
    rwa [Nat.zero_add, Nat.one_mul]
  | succ n ih =>
    rw [if_neg (ne_zero_of_toNat_eq_succ hnext)] at hturn
    have hstay' : Stays (play body m.tape).head body := (hcounts.head_play hstay).symm ▸ hstay
    have hrest := ih (m := m.further (body.length + 1) (start + 1) (play body m.tape)) hloop rfl
      hstay' hnext (walks_turn hloop rfl hstay') (hcounts.value_play hstay' hnext)
    have hall := hturn.trans hrest
    rw [further_further, further_tape, ← Function.iterate_succ_apply] at hall
    rwa [Nat.succ_mul (n + 1), Nat.add_comm ((n + 1) * _)]

/-- The whole loop. A cell that is zero at the start lets it be passed over. -/
theorem walks_loop (hloop : LoopAt m.code m.ip stop body) (hcounts : CountsDown body)
    (hstay : Stays m.tape.head body) :
    Walks stop (1 + m.tape.value.toNat * (body.length + 1)) m
      (m.further (1 + m.tape.value.toNat * (body.length + 1)) stop
        ((play body)^[m.tape.value.toNat] m.tape)) := by
  have hi := hloop.opening
  have hrest := halted_of_current hi
  have hbound : m.ip < stop := by
    have hbehind := hloop.behind
    omega
  cases hvalue : m.tape.value.toNat with
  | zero =>
    have hzero : m.tape.value = 0 := UInt8.toNat_inj.mp hvalue
    rw [Nat.zero_mul, Nat.add_zero, Function.iterate_zero_apply]
    refine .of_step hrest ?_ hbound
    rw [step_loopStart_of_zero hi hzero]
    exact jump_of_le hloop.stop_le
  | succ n =>
    have hne : m.tape.value ≠ 0 := ne_zero_of_toNat_eq_succ hvalue
    have henter : Walks stop 1 m (m.further 1 (m.ip + 1) m.tape) :=
      .of_step hrest (step_loopStart_of_ne hi hne) hbound
    have hturns := walks_turns (m := m.further 1 (m.ip + 1) m.tape) hloop rfl hcounts hstay hvalue
    have hall := henter.trans hturns
    rwa [further_further] at hall

end Machine

/-- Multiply loops compute what they should. Wherever a machine on the code of a program stands at a
loop whose body only moves the head and changes cells, comes back to the cell where it starts and
lowers it by one modulo 256: if the head has room for the body, the machine passes the loop for the
first time after one step and, for each unit of the cell under the head, one step for each
instruction of the body and one for the closing bracket. None of them fails. The head is where it
was, the cell under it is zero, each other cell is raised by the cell times what the body adds to it
in one turn, modulo 256, a cell that the body does not visit is unchanged, and so is all that is not
on the tape. The row grows only if the body is run, and then as far as the body leads the head. -/
theorem multiply_loops_multiply {source : String} {p : Program}
    (h : Program.parse source = .ok p) {m : Machine} (hcode : m.code = p.code) {j : Nat}
    {body : List Stroke} (hopen : p.code[m.ip]? = some (.loopStart j))
    (hbody : (p.code.extract (m.ip + 1) (j - 1)).toList = body.map Stroke.instruction)
    (hreturns : displacement body = 0) (hlowers : delta body 0 ≡ -1 [ZMOD 256])
    (hroom : ∀ k ≤ body.length, 0 ≤ (m.tape.head : Int) + displacement (body.take k)) :
    let c := m.tape.value.toNat
    let n := 1 + c * (body.length + 1)
    (m.LiveFor n ∧ (∀ k < n, (m.after k).ip < j) ∧ (m.after n).ip = j) ∧
      (m.after n).tape.head = m.tape.head ∧ (m.after n).tape.byteAt m.tape.head = 0 ∧
      (∀ k ≠ m.tape.head, (((m.after n).tape.byteAt k).toNat : Int) =
        ((m.tape.byteAt k).toNat + c * delta body (k - m.tape.head)) % 256) ∧
      (∀ k : Nat, (∀ i < body.length, m.tape.head + displacement (body.take i) ≠ k) →
        (m.after n).tape.byteAt k = m.tape.byteAt k) ∧
      ((m.after n).tape.cells.size : Int) = (if c = 0 then (m.tape.cells.size : Int)
        else max (m.tape.cells.size : Int) (m.tape.head + peak body + 1)) ∧
      (m.after n).output = m.output ∧ (m.after n).input = m.input ∧ (m.after n).code = m.code ∧
      (m.after n).steps = m.steps + n := by
  intro c n
  have hcounts : CountsDown body := ⟨hreturns, hlowers⟩
  have hwalk : Machine.Walks j n m (m.further n j ((play body)^[c] m.tape)) :=
    Machine.walks_loop (hcode ▸ loopAt_of_parse h hopen hbody) hcounts hroom
  have hbyte (k : Nat) := hcounts.byteAt_iterate hroom c k
  rw [hwalk.arrives]
  refine ⟨⟨hwalk.live, hwalk.inside, rfl⟩, hcounts.head_iterate hroom c,
    hcounts.byteAt_head_iterate hroom, fun k _ => hbyte k, ?unvisited, ?size, rfl, rfl, rfl, rfl⟩
  case unvisited =>
    intro k hk
    have hdelta : delta body (k - m.tape.head) = 0 := delta_eq_zero fun i hi => by
      have hi' := hk i hi
      omega
    have hlt := (m.tape.byteAt k).toNat_lt
    have hsame := hbyte k
    rw [hdelta, Int.mul_zero] at hsame
    apply UInt8.toNat_inj.mp
    rw [Machine.further_tape]
    omega
  case size =>
    rw [Machine.further_tape]
    cases hc : c with
    | zero => rfl
    | succ turns =>
      have hseat := Tape.head_lt_of_value_ne_zero (ne_zero_of_toNat_eq_succ hc)
      rw [if_neg (Nat.succ_ne_zero turns)]
      exact hcounts.size_iterate hseat hroom turns

/-- The loop takes two from the first cell, past zero, and makes room for six on the third one. -/
theorem multiply_loops_multiply_on_both_sides :
    let code : Array Instruction := #[.moveRight, .loopStart 12, .moveRight, .increment, .increment,
      .increment, .moveLeft, .decrement, .moveLeft, .decrement, .moveRight, .loopEnd 2]
    let body : List Stroke := [.right, .plus, .plus, .plus, .left, .minus, .left, .minus, .right]
    let m := (Machine.load code { cells := #[1, 2] } "").after 1
    (Program.parse ">[>+++<-<->]" = .ok ⟨code, #[0, 1, 2, 3, 4, 5, 6, 7, 8, 9, 10, 11]⟩ ∧
      code[m.ip]? = some (.loopStart 12) ∧
      (code.extract (m.ip + 1) (12 - 1)).toList = body.map Stroke.instruction ∧
      displacement body = 0 ∧ delta body 0 ≡ -1 [ZMOD 256] ∧
      ∀ k ≤ body.length, 0 ≤ (m.tape.head : Int) + displacement (body.take k)) ∧
    m.LiveFor 21 ∧ (m.after 21).ip = 12 ∧ (m.after 21).tape.head = 1 ∧
      (((m.after 21).tape.byteAt 0).toNat : Int) = 255 ∧ (m.after 21).tape.byteAt 1 = 0 ∧
      (((m.after 21).tape.byteAt 2).toNat : Int) = 6 ∧
      ((m.after 21).tape.cells.size : Int) = 3 := by
  intro code body m
  have h : Program.parse ">[>+++<-<->]" =
      .ok ⟨code, #[0, 1, 2, 3, 4, 5, 6, 7, 8, 9, 10, 11]⟩ := by rfl
  have hbody : (code.extract (m.ip + 1) (12 - 1)).toList = body.map Stroke.instruction := by rfl
  have hroom : ∀ k ≤ body.length, 0 ≤ (m.tape.head : Int) + displacement (body.take k) := by decide
  have hturns : m.tape.value.toNat = 2 := by rfl
  have hsteps : 1 + 2 * (body.length + 1) = 21 := by rfl
  have hhead : m.tape.head = 1 := by rfl
  have hresult := multiply_loops_multiply h (m := m) rfl rfl hbody rfl rfl hroom
  simp only [hturns, hsteps, hhead] at hresult
  obtain ⟨⟨hlive, -, hip⟩, hstays, hzero, hbyte, -, hsize, -⟩ := hresult
  exact ⟨⟨h, rfl, hbody, rfl, rfl, hroom⟩, hlive, hip, hstays, hbyte 0 (by decide), hzero,
    hbyte 2 (by decide), hsize⟩

end TapeMachine
