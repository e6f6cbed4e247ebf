import TapeMachine.Proofs.Syntax.Reading

/-!
# What every scan keeps

After each character of a source, the brackets that have met their partner lead behind each other,
the others wait on the stack, and no pair stands around one that waits. So a closing bracket only
ever fills in the target of an opening bracket that has none yet, and what is filled in is never
written again.
-/
namespace TapeMachine

theorem Op.instruction_ne_loopStart (o : Op) (target : Nat) :
    o.instruction ≠ .loopStart target := by
  cases o <;> simp [instruction]

theorem Op.instruction_ne_loopEnd (o : Op) (target : Nat) : o.instruction ≠ .loopEnd target := by
  cases o <;> simp [instruction]

/-- Two brackets that lead behind each other. -/
structure Paired (code : Array Instruction) (i j : Nat) : Prop where
  lt : i < j
  opening : code[i]? = some (.loopStart (j + 1))
  closing : code[j]? = some (.loopEnd (i + 1))

namespace Scan

/-- Each instruction has its place among the characters that have been read. -/
structure Ordered (s : Scan) : Prop where
  aligned : s.code.size = s.offsets.size
  increasing : s.offsets.toList.Pairwise (· < ·)
  scanned : ∀ offset ∈ s.offsets, offset < s.position

/-- The brackets without a target are those on the stack, the innermost first, and all others are
paired, with none of those on the stack between the two of a pair. -/
structure Sound (s : Scan) : Prop extends Ordered s where
  stacked : s.pending.Pairwise (· > ·)
  waiting : ∀ i, i ∈ s.pending ↔ s.code[i]? = some (.loopStart 0)
  opened : ∀ i target, s.code[i]? = some (.loopStart target) → i ∉ s.pending →
    ∃ j, Paired s.code i j
  closed : ∀ j target, s.code[j]? = some (.loopEnd target) → ∃ i, Paired s.code i j
  apart : ∀ i j, Paired s.code i j → ∀ k ∈ s.pending, ¬ (i < k ∧ k < j)

/-- What reading one character can make of a scan. -/
inductive Reads (s : Scan) : Scan → Prop where
  | comment : Reads s s.skip
  | plain (o : Op) : Reads s (s.emit o.instruction)
  | opening : Reads s s.openLoop
  | closing {start : Nat} {rest : List Nat} (h : s.pending = start :: rest) :
    Reads s (s.closeLoop start rest)

variable {s s' : Scan} {c : Char} {x : Instruction} {i j start : Nat} {rest : List Nat}

theorem reads_of_read (h : s.read c = .ok s') : s.Reads s' := by
  rcases Instruction.ofChar?_cases c with hc | ⟨o, rfl, hc⟩ | rfl | rfl
  · have hread : s.read c = .ok s.skip := by rw [Scan.read, hc]
    obtain rfl := Except.ok.inj (hread.symm.trans h)
    exact .comment
  · have hread : s.read o.char = .ok (s.emit o.instruction) := by cases o <;> rfl
    obtain rfl := Except.ok.inj (hread.symm.trans h)
    exact .plain o
  · have hread : s.read '[' = .ok s.openLoop := rfl
    obtain rfl := Except.ok.inj (hread.symm.trans h)
    exact .opening
  · cases hp : s.pending with
    | nil =>
      rw [read_close_of_nil hp] at h
      contradiction
    | cons start rest =>
      rw [read_close_of_cons hp] at h
      obtain rfl := Except.ok.inj h
      exact .closing hp

/-! ### Places -/

/-- The stack and what the instructions are do not matter. -/
theorem Ordered.congr (h : s.Ordered) (hsize : s'.code.size = s.code.size)
    (hoffsets : s'.offsets = s.offsets) (hposition : s'.position = s.position) : s'.Ordered where
  aligned := by rw [hsize, hoffsets, h.aligned]
  increasing := hoffsets ▸ h.increasing
  scanned := by
    rw [hoffsets, hposition]
    exact h.scanned

theorem Ordered.emit (h : s.Ordered) (x : Instruction) : (s.emit x).Ordered where
  aligned := by simp [Scan.emit, h.aligned]
  increasing := by
    have hlast : ∀ offset ∈ s.offsets.toList, offset < s.position := by simpa using h.scanned
    simpa [Scan.emit, List.pairwise_append, h.increasing] using hlast
  scanned := by
    intro offset hmem
    rcases Array.mem_push.mp hmem with hold | rfl
    · exact Nat.lt_succ_of_lt (h.scanned offset hold)
    · exact Nat.lt_succ_self _

/-! ### Code -/

theorem getElem?_emit (s : Scan) (x : Instruction) (k : Nat) :
    (s.emit x).code[k]? = if k = s.code.size then some x else s.code[k]? :=
  Array.getElem?_push

theorem getElem?_closeLoop (hstart : start < s.code.size) (rest : List Nat) (k : Nat) :
    (s.closeLoop start rest).code[k]? =
      if k = s.code.size then some (.loopEnd (start + 1))
      else if k = start then some (.loopStart (s.code.size + 1)) else s.code[k]? := by
  rw [closeLoop, getElem?_emit]
  simp only [Array.size_setIfInBounds, Array.getElem?_setIfInBounds, hstart, if_true,
    eq_comm (a := start)]

theorem lt_size_of_getElem? (h : s.code[i]? = some x) : i < s.code.size :=
  (Array.getElem?_eq_some_iff.mp h).1

/-- What is not an opening bracket without a target stays as it is. -/
def Keeps (s s' : Scan) : Prop :=
  ∀ (i : Nat) (x : Instruction), s.code[i]? = some x → x ≠ .loopStart 0 → s'.code[i]? = some x

theorem Keeps.trans {s'' : Scan} (h : s.Keeps s') (h' : s'.Keeps s'') : s.Keeps s'' :=
  fun i x hi hx => h' i x (h i x hi hx) hx

theorem Keeps.paired (h : s.Keeps s') (hp : Paired s.code i j) : Paired s'.code i j where
  lt := hp.lt
  opening := h i _ hp.opening (by simp)
  closing := h j _ hp.closing (by simp)

theorem keeps_emit (s : Scan) (x : Instruction) : s.Keeps (s.emit x) := by
  intro k y hk _
  rwa [getElem?_emit, if_neg (Nat.ne_of_lt (lt_size_of_getElem? hk))]

/-- The slot that a closing bracket fills in had no target. -/
theorem keeps_closeLoop (hstart : s.code[start]? = some (.loopStart 0)) (rest : List Nat) :
    s.Keeps (s.closeLoop start rest) := by
  intro k y hk hy
  have hne : k ≠ start := by
    rintro rfl
    exact hy (Option.some.inj (hk.symm.trans hstart))
  rwa [getElem?_closeLoop (lt_size_of_getElem? hstart),
    if_neg (Nat.ne_of_lt (lt_size_of_getElem? hk)), if_neg hne]

/-- Only a closing bracket makes a pair. -/
theorem paired_emit_iff (hx : ∀ target, x ≠ .loopEnd target) :
    Paired (s.emit x).code i j ↔ Paired s.code i j := by
  constructor
  · rintro ⟨hlt, hopen, hclose⟩
    rw [getElem?_emit] at hopen hclose
    have hj : j ≠ s.code.size := by
      rintro rfl
      rw [if_pos rfl] at hclose
      exact hx _ (Option.some.inj hclose)
    rw [if_neg hj] at hclose
    have hi : i ≠ s.code.size := by
      have hlast := lt_size_of_getElem? hclose
      omega
    rw [if_neg hi] at hopen
    exact ⟨hlt, hopen, hclose⟩
  · exact (s.keeps_emit x).paired

theorem paired_closeLoop_iff (hstart : s.code[start]? = some (.loopStart 0)) (rest : List Nat) :
    Paired (s.closeLoop start rest).code i j ↔
      Paired s.code i j ∨ i = start ∧ j = s.code.size := by
  have hlt := lt_size_of_getElem? hstart
  constructor
  · rintro ⟨hij, hopen, hclose⟩
    rw [getElem?_closeLoop hlt] at hopen hclose
    by_cases hj : j = s.code.size
    · rw [if_pos hj] at hclose
      simp only [Option.some.injEq, Instruction.loopEnd.injEq] at hclose
      exact .inr ⟨by omega, hj⟩
    · have hj' : j ≠ start := by
        rintro rfl
        simp [hj] at hclose
      rw [if_neg hj, if_neg hj'] at hclose
      have hlast := lt_size_of_getElem? hclose
      have hi : i ≠ start := by
        rintro rfl
        rw [if_neg (by omega), if_pos rfl] at hopen
        simp only [Option.some.injEq, Instruction.loopStart.injEq] at hopen
        omega
      rw [if_neg (by omega), if_neg hi] at hopen
      exact .inl ⟨hij, hopen, hclose⟩
  · rintro (hold | ⟨rfl, rfl⟩)
    · exact (keeps_closeLoop hstart rest).paired hold
    · refine ⟨hlt, ?_, ?_⟩
      · rw [getElem?_closeLoop hlt, if_neg (Nat.ne_of_lt hlt), if_pos rfl]
      · rw [getElem?_closeLoop hlt, if_pos rfl]

/-! ### One character -/

theorem Sound.lt_size (h : s.Sound) (hi : i ∈ s.pending) : i < s.code.size :=
  lt_size_of_getElem? ((h.waiting i).mp hi)

theorem sound_start : Sound {} where
  aligned := rfl
  increasing := .nil
  scanned := by simp
  stacked := .nil
  waiting := by simp
  opened := by simp
  closed := by simp
  apart := by simp

theorem Sound.skip (h : s.Sound) : s.skip.Sound :=
  { h with scanned := fun offset hmem => Nat.lt_succ_of_lt (h.scanned offset hmem) }

/-- An instruction that closes no loop leaves the pairs of closing brackets as they are. -/
theorem Sound.closed_emit (h : s.Sound) (hx : ∀ target, x ≠ .loopEnd target) (j target : Nat)
    (hj : (s.emit x).code[j]? = some (.loopEnd target)) : ∃ i, Paired (s.emit x).code i j := by
  rw [getElem?_emit] at hj
  split at hj
  · exact absurd (Option.some.inj hj) (hx target)
  · obtain ⟨i, hpair⟩ := h.closed j target hj
    exact ⟨i, (s.keeps_emit x).paired hpair⟩

theorem Sound.emit (h : s.Sound) (o : Op) : (s.emit o.instruction).Sound where
  toOrdered := h.toOrdered.emit o.instruction
  stacked := h.stacked
  waiting k := by
    rw [getElem?_emit]
    split
    · rename_i hk
      have hlast : k ∉ s.pending := fun hmem => absurd (h.lt_size hmem) (by omega)
      simp [Scan.emit, hlast, o.instruction_ne_loopStart]
    · exact h.waiting k
  opened k target hk hmem := by
    rw [getElem?_emit] at hk
    split at hk
    · exact absurd (Option.some.inj hk) (o.instruction_ne_loopStart target)
    · obtain ⟨j, hpair⟩ := h.opened k target hk hmem
      exact ⟨j, (s.keeps_emit _).paired hpair⟩
  closed := h.closed_emit o.instruction_ne_loopEnd
  apart i j hpair := h.apart i j ((paired_emit_iff o.instruction_ne_loopEnd).mp hpair)

theorem Sound.openLoop (h : s.Sound) : s.openLoop.Sound where
  toOrdered := by
    refine Ordered.emit ?_ (.loopStart 0)
    exact h.toOrdered.congr rfl rfl rfl
  stacked := List.pairwise_cons.mpr ⟨fun k hk => h.lt_size hk, h.stacked⟩
  waiting k := by
    have hpending : k ∈ s.openLoop.pending ↔ k = s.code.size ∨ k ∈ s.pending := List.mem_cons
    rw [hpending, Scan.openLoop, getElem?_emit]
    split
    · rename_i hk
      simp [hk]
    · rename_i hk
      rw [h.waiting k]
      simp [hk]
  opened k target hk hmem := by
    obtain ⟨hlast, hold⟩ := not_or.mp (List.mem_cons.not.mp hmem)
    rw [Scan.openLoop, getElem?_emit, if_neg hlast] at hk
    obtain ⟨j, hpair⟩ := h.opened k target hk hold
    exact ⟨j, (s.keeps_emit _).paired hpair⟩
  closed := h.closed_emit (by simp)
  apart i j hpair k hk hbetween := by
    have hold : Paired s.code i j := (paired_emit_iff (by simp)).mp hpair
    rcases List.mem_cons.mp hk with rfl | hk
    · have hlast := lt_size_of_getElem? hold.closing
      omega
    · exact h.apart i j hold k hk hbetween

theorem Sound.closeLoop (h : s.Sound) (hp : s.pending = start :: rest) :
    (s.closeLoop start rest).Sound := by
  have hstart : s.code[start]? = some (.loopStart 0) := (h.waiting start).mp (by simp [hp])
  have hlt := lt_size_of_getElem? hstart
  have hkeeps := keeps_closeLoop hstart rest
  obtain ⟨hbelow, hstacked⟩ := List.pairwise_cons.mp (hp ▸ h.stacked)
  have hrest {k : Nat} (hk : k ∈ rest) : k ∈ s.pending := by
    rw [hp]
    exact List.mem_cons_of_mem start hk
  have hpair : Paired (s.closeLoop start rest).code start s.code.size :=
    (paired_closeLoop_iff hstart rest).mpr (.inr ⟨rfl, rfl⟩)
  refine ⟨?ordered, hstacked, ?waiting, ?opened, ?closed, ?apart⟩
  case ordered =>
    refine Ordered.emit ?_ (.loopEnd (start + 1))
    exact h.toOrdered.congr (by simp) rfl rfl
  case waiting =>
    intro k
    have hpending : k ∈ (s.closeLoop start rest).pending ↔ k ∈ rest := Iff.rfl
    rw [hpending, getElem?_closeLoop hlt]
    split
    · rename_i hk
      have hlast : k ∉ rest := fun hmem => absurd (h.lt_size (hrest hmem)) (by omega)
      simp [hlast]
    · split
      · rename_i hk
        have hgone : k ∉ rest := fun hmem => absurd (hbelow k hmem) (by omega)
        simp [hgone]
      · rename_i hk
        rw [← h.waiting k, hp]
        simp [hk]
  case opened =>
    intro k target hk hmem
    rw [getElem?_closeLoop hlt] at hk
    split at hk
    · simp at hk
    · split at hk
      · rename_i heq
        exact ⟨s.code.size, heq ▸ hpair⟩
      · rename_i hne
        have hopen : k ∉ s.pending := by
          rw [hp]
          exact List.not_mem_cons_of_ne_of_not_mem hne hmem
        obtain ⟨j, hold⟩ := h.opened k target hk hopen
        exact ⟨j, hkeeps.paired hold⟩
  case closed =>
    intro k target hk
    rw [getElem?_closeLoop hlt] at hk
    split at hk
    · rename_i heq
      exact ⟨start, heq ▸ hpair⟩
    · split at hk
      · simp at hk
      · obtain ⟨i, hold⟩ := h.closed k target hk
        exact ⟨i, hkeeps.paired hold⟩
  case apart =>
    intro i j hpair k hk hbetween
    rcases (paired_closeLoop_iff hstart rest).mp hpair with hold | ⟨rfl, -⟩
    · exact h.apart i j hold k (hrest hk) hbetween
    · exact Nat.lt_asymm hbetween.1 (hbelow k hk)

theorem Reads.sound (hr : s.Reads s') (h : s.Sound) : s'.Sound := by
  cases hr with
  | comment => exact h.skip
  | plain o => exact h.emit o
  | opening => exact h.openLoop
  | closing hp => exact h.closeLoop hp

theorem Reads.keeps (hr : s.Reads s') (h : s.Sound) : s.Keeps s' := by
  cases hr with
  | comment => exact fun _ _ hi _ => hi
  | plain o => exact s.keeps_emit _
  | opening => exact s.keeps_emit (.loopStart 0)
  | @closing start rest hp =>
    exact keeps_closeLoop ((h.waiting start).mp (by simp [hp])) rest

/-! ### All characters -/

variable {text : List Char}

/-- By induction on what is read. -/
theorem Sound.readAll (h : s.Sound) (hread : s.readAll text = .ok s') : s'.Sound ∧ s.Keeps s' := by
  induction text generalizing s with
  | nil =>
    obtain rfl := Except.ok.inj hread
    exact ⟨h, fun _ _ hi _ => hi⟩
  | cons c text ih =>
    rw [Scan.readAll] at hread
    split at hread
    · rename_i next hnext
      have hr := reads_of_read hnext
      obtain ⟨hsound, hkeeps⟩ := ih (hr.sound h) hread
      exact ⟨hsound, (hr.keeps h).trans hkeeps⟩
    · contradiction

theorem readAll_append (s : Scan) (before after : List Char) :
    s.readAll (before ++ after) = (s.readAll before).bind (·.readAll after) := by
  induction before generalizing s with
  | nil => rfl
  | cons c before ih =>
    rw [List.cons_append, Scan.readAll, Scan.readAll]
    split
    · exact ih _
    · rfl

theorem exists_holds_of_readAll (h : Scan.readAll {} text = .ok s) : ∃ n, s.Holds text n := by
  rcases holds_start.readAll text with ⟨s', n, hall, hn⟩ | ⟨before, after, b, -, -, hall⟩
  · rw [hall] at h
    obtain rfl := Except.ok.inj h
    exact ⟨n, hn⟩
  · rw [hall] at h
    contradiction

/-- The slot that a closing bracket would fill in is in range and has no target yet, and so is the
place that would be reported if the text ended here. -/
theorem Sound.innermost (h : s.Sound) (hp : s.pending = start :: rest) :
    ∃ (hcode : start < s.code.size) (hoffset : start < s.offsets.size),
      s.code[start] = .loopStart 0 ∧
      (s.read ']').map Scan.code = .ok
        ((s.code.set start (.loopStart (s.code.size + 1))).push (.loopEnd (start + 1))) ∧
      s.finish = .error (.unmatchedOpen s.offsets[start]) := by
  have hstart := (h.waiting start).mp (by simp [hp])
  obtain ⟨hcode, hopen⟩ := Array.getElem?_eq_some_iff.mp hstart
  have hoffset : start < s.offsets.size := h.aligned ▸ hcode
  refine ⟨hcode, hoffset, hopen, ?_, ?_⟩
  · rw [read_close_of_cons hp]
    simp [Except.map, Scan.closeLoop, Scan.emit, Array.setIfInBounds, hcode]
  · rw [Scan.finish, hp]
    simp [Array.getD, hoffset]

end Scan

theorem Program.parseChars_eq_bind (text : List Char) :
    parseChars text = (Scan.readAll {} text).bind Scan.finish := by
  rw [parseChars]
  cases Scan.readAll {} text <;> rfl

/-- Whatever the source, each of its characters that is read before a bracket without a partner
leaves a sound scan, from which reading goes on to the same end. As many characters have been read
as the scan says. The innermost bracket that waits is in range and has no target: a closing bracket
fills it in, and the end of the text reports its place. What has a target keeps it in every later
scan. -/
theorem scans_stay_sound {source : String} {n : Nat} {s : Scan}
    (h : Scan.readAll {} (source.toList.take n) = .ok s) :
    Program.parse source = (s.readAll (source.toList.drop n)).bind Scan.finish ∧
      s.position = (source.toList.take n).length ∧ s.Sound ∧ (∀ i ∈ s.pending, i < s.code.size) ∧
      (∀ start rest, s.pending = start :: rest →
        ∃ (hcode : start < s.code.size) (hoffset : start < s.offsets.size),
          s.code[start] = .loopStart 0 ∧
          (s.read ']').map Scan.code = .ok
            ((s.code.set start (.loopStart (s.code.size + 1))).push (.loopEnd (start + 1))) ∧
          s.finish = .error (.unmatchedOpen s.offsets[start])) ∧
      ∀ (rest : List Char) (s' : Scan), s.readAll rest = .ok s' → s.Keeps s' := by
  obtain ⟨hsound, -⟩ := Scan.sound_start.readAll h
  obtain ⟨nest, hholds⟩ := Scan.exists_holds_of_readAll h
  have hparse : Program.parse source = (s.readAll (source.toList.drop n)).bind Scan.finish := by
    have hwhole := Scan.readAll_append {} (source.toList.take n) (source.toList.drop n)
    rw [List.take_append_drop, h] at hwhole
    rw [Program.parse, Program.parseChars_eq_bind, hwhole]
    rfl
  exact ⟨hparse, hholds.position, hsound, fun i hi => hsound.lt_size hi,
    fun start rest hp => hsound.innermost hp, fun rest s' hread => (hsound.readAll hread).2⟩

/-- Behind a comment, with a loop inside that is closed, and two brackets that wait. -/
theorem scans_stay_sound_in_the_middle : ∃ s : Scan,
    Scan.readAll {} ("é[+[-]>[.]]".toList.take 8) = .ok s ∧
      s.pending = [6, 0] ∧ Paired s.code 2 4 ∧ s.Sound ∧ s.position = 8 ∧
      s.finish = .error (.unmatchedOpen 7) := by
  have h : Scan.readAll {} ("é[+[-]>[.]]".toList.take 8) = .ok
      { code := #[.loopStart 0, .increment, .loopStart 5, .decrement, .loopEnd 3, .moveRight,
          .loopStart 0]
        offsets := #[1, 2, 3, 4, 5, 6, 7], pending := [6, 0], position := 8 } := by rfl
  obtain ⟨-, hposition, hsound, -, hinnermost, -⟩ := scans_stay_sound h
  obtain ⟨_, _, -, -, hfinish⟩ := hinnermost 6 [0] rfl
  exact ⟨_, h, rfl, ⟨by decide, rfl, rfl⟩, hsound, hposition, hfinish⟩

end TapeMachine
