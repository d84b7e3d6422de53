import OsyProg.SchedulerLoop

/-!
How long `gt_delay` lasts. While a thread waits for its ticks, its slot holds the
context of the call and one number that only the timers lower (`Waits`); no other
operation, of whatever thread, touches the slot or selects it (`perform_waits`,
`sigHandle_waits`). So the slot is made ready by the timer that brings the number
to zero, and by nothing else (`delay_exact`).
-/
namespace OsyProg.Delays
open OsyProg.Cyclic OsyProg.Gthreads OsyProg.Runs OsyProg.ThreadRuns
open OsyProg.SchedulerLoop (isSignal)

section
variable {n : ℕ}

/-- Slot `c`, which had the given context before `gt_delay`, is blocked with some
    ticks left, is not the current one, and its thread goes on in `gt_delay`. -/
structure Waits (context : Context) (c : Fin n) (ticks : ℤ) (s : Threads n) : Prop where
  away : s.gtcur ≠ c
  slot : s.gttbl c = { context with threadState := .Blocked, delayTicks := ticks }
  frame : s.frame c = .delay

/-- The number of runs of the timer handler among the operations. -/
def handlerRuns (ops : List (Op n)) : ℕ := ops.countP isSignal

theorem handlerRuns_cons (op : Op n) (rest : List (Op n)) :
    handlerRuns (op :: rest) = (if isSignal op then 1 else 0) + handlerRuns rest := by
  rw [handlerRuns, List.countP_cons, Nat.add_comm]
  rfl

theorem Waits.blocked {context : Context} {c : Fin n} {ticks : ℤ} {s : Threads n} (waits : Waits context c ticks s) :
    s.stateOf c = .Blocked := by rw [Table.stateOf, waits.slot]

/-- A switch leaves a slot alone that is neither the new one nor the old one. -/
theorem switchTo_gttbl (s : Table n) {p i : Fin n} (new : i ≠ p) (old : i ≠ s.gtcur) :
    (switchTo s p).gttbl i = s.gttbl i := by
  show ((if s.stateOf s.gtcur = .Running then s.setState s.gtcur .Ready else s).setState p .Running).gttbl i = _
  rw [Table.setState, Table.set_gttbl, if_neg new]
  split
  · rw [Table.setState, Table.set_gttbl, if_neg old]
  · rfl

end

section
variable {n : ℕ} [NeZero n]

/-- What a call of `gt_yield` finds in a slot other than the current one: what was
    there, after the timers when the handler makes the call. -/
theorem calls_gttbl {s m : Table n} {op : Op n} {here : Frame} (made : calls s op = some (here, m)) {i : Fin n}
    (other : i ≠ s.gtcur) : m.gttbl i = if isSignal op then tick (s.gttbl i) else s.gttbl i := by
  rcases calls_cases made with ⟨rfl, -, rfl⟩ | ⟨rfl, -, -, rfl⟩ | ⟨rfl, -, rfl⟩ | ⟨tMs, rfl, -, -, rfl⟩ | ⟨rfl, -, rfl⟩
  · rfl
  · rw [Table.setState, Table.set_gttbl, if_neg other]
    rfl
  · rw [Table.setState, Table.set_gttbl, if_neg other]
    rfl
  · unfold block
    rw [Table.set_gttbl, if_neg other]
    rfl
  · exact gtManageTimers_gttbl s i

/-- A slot that is blocked when `gt_yield` is called is not selected and stays as it is. -/
theorem yields_waits {s : Threads n} {m : Table n} (op : Op n) {here : Frame} {context : Context} {c : Fin n} {ticks : ℤ}
    (made : calls s.toTable op = some (here, m)) (away : s.gtcur ≠ c) (frame : s.frame c = .delay)
    (slot : m.gttbl c = { context with threadState := .Blocked, delayTicks := ticks }) :
    Waits context c ticks (perform s op).1 := by
  have cur := (calls_other made).1
  rw [perform_calls made]
  rcases gtYield_cases m with ⟨p, first, yields⟩ | ⟨-, yields⟩
  · have other : c ≠ p := by
      rintro rfl
      have ready : (m.gttbl c).threadState = .Ready := first.1
      rw [slot] at ready
      cases ready
    rw [yields, goOn_switched]
    refine ⟨Ne.symm other, ?_, ?_⟩
    · rw [← slot]
      exact switchTo_gttbl m other (by rw [cur]; exact Ne.symm away)
    · show Function.update s.frame s.gtcur here c = .delay
      rw [Function.update_of_ne (Ne.symm away), frame]
  · rw [yields, goOn_stayed _ _ _ (by simp only; omega)]
    exact ⟨cur ▸ away, slot, frame⟩

/-- No operation but the timer signal shortens, lengthens or ends a delay. -/
theorem perform_waits {s : Threads n} {op : Op n} {context : Context} {c : Fin n} {ticks : ℤ}
    (waits : Waits context c ticks s) (quiet : isSignal op = false) : Waits context c ticks (perform s op).1 := by
  have blocked := waits.blocked
  cases made : calls s.toTable op with
  | some call =>
    obtain ⟨here, m⟩ := call
    refine yields_waits _ made waits.away waits.frame ?_
    rw [calls_gttbl made (Ne.symm waits.away), quiet]
    exact waits.slot
  | none =>
    rcases perform_cases s op with ⟨-, table, frame, -, -⟩ | ⟨tName, p, unused, same⟩ | ⟨tId, -, same⟩ |
      ⟨_, _, _, calls, -⟩ | ⟨_, _, calls, -⟩
    · exact ⟨table ▸ waits.away, by rw [table]; exact waits.slot, frame ▸ waits.frame⟩
    · have other : c ≠ p := by
        rintro rfl
        rw [blocked] at unused
        cases unused
      rw [same]
      refine ⟨waits.away, ?_, ?_⟩
      · rw [Table.set_gttbl, if_neg other]
        exact waits.slot
      · show Function.update s.frame p .entry c = .delay
        rw [Function.update_of_ne other]
        exact waits.frame
    · rw [same]
      refine ⟨?_, ?_, waits.frame⟩
      · simp only [gtResume_gtcur]
        exact waits.away
      · unfold gtResume
        split
        next suspended =>
          -- The slot resumed is suspended, so it is another one.
          have other : c ≠ tId := by
            rintro rfl
            rw [blocked] at suspended
            cases suspended
          rw [Table.setState, Table.set_gttbl, if_neg other]
          exact waits.slot
        next => exact waits.slot
    · rw [calls] at made
      cases made
    · rw [calls] at made
      cases made

omit [NeZero n] in
/-- The timers take one tick, and make the slot ready with the last one. -/
theorem gtManageTimers_waits {s : Threads n} {context : Context} {c : Fin n} {ticks : ℤ} (waits : Waits context c ticks s)
    (positive : 0 < ticks) :
    (gtManageTimers s.toTable).gttbl c =
      if ticks = 1 then { context with threadState := .Ready, delayTicks := 0 }
      else { context with threadState := .Blocked, delayTicks := ticks - 1 } := by
  rw [gtManageTimers_gttbl, waits.slot, tick_counts rfl positive]

theorem sigHandle_waits {s : Threads n} {context : Context} {c : Fin n} {ticks : ℤ} (waits : Waits context c ticks s)
    (more : 1 < ticks) : Waits context c (ticks - 1) (perform s .sigHandle).1 := by
  refine yields_waits .sigHandle rfl waits.away waits.frame ?_
  rw [gtManageTimers_waits waits (by omega), if_neg (by omega)]

/-- While fewer handler runs have taken place than there were ticks, the slot waits
    for the rest of them. -/
theorem waits_run {during : List (Op n)} {s t : Threads n} {context : Context} {c : Fin n} {ticks : ℤ}
    (waits : Waits context c ticks s) (run : exec step s during = some t) (early : (handlerRuns during : ℤ) < ticks) :
    Waits context c (ticks - handlerRuns during) t := by
  induction during generalizing s ticks with
  | nil =>
    cases run
    simpa [handlerRuns] using waits
  | cons op rest ih =>
    obtain ⟨u, taken, onward⟩ := exec_cons_iff.mp run
    have performed := (step_cases taken).2
    rw [handlerRuns_cons] at early ⊢
    cases signal : isSignal op with
    | false =>
      rw [signal] at early
      have still := perform_waits waits signal
      rw [performed] at still
      simpa using ih still onward (by simpa using early)
    | true =>
      rw [signal] at early
      have handler : op = .sigHandle := by cases op <;> simp [isSignal] at signal ⊢
      subst handler
      simp only [if_true, Int.natCast_add, Int.natCast_one] at early ⊢
      have still := sigHandle_waits waits (by omega)
      rw [performed] at still
      have later := ih still onward (by omega)
      have left : ticks - (1 + (handlerRuns rest : ℤ)) = ticks - 1 - handlerRuns rest := by omega
      rw [left]
      exact later

omit [NeZero n] in
theorem delayOf_eq {tMs : ℤ} (positive : 0 < tMs) : delayOf tMs = max 1 (tMs / TimePeriod) := by
  unfold delayOf
  rw [Int.tdiv_eq_ediv_of_nonneg (by omega)]
  by_cases short : tMs / TimePeriod ≤ 0
  · simp only [short, if_true]
    omega
  · simp only [short, if_false]
    omega

/-- `gt_delay` of a thread other than thread 0 switches, since slot 0 is ready, and
    leaves its slot waiting. -/
theorem delay_waits {s : Threads n} {tMs : ℤ} (inv : Invariant s) (free : MainNeverBlocks s (.delay tMs))
    (positive : 0 < tMs) : Waits (s.gttbl s.gtcur) s.gtcur (delayOf tMs) (perform s (.delay tMs)).1 := by
  have main : s.gtcur ≠ 0 := by
    intro zero
    simpa [Op.blocking] using free zero
  have made : calls s.toTable (.delay tMs) = some (.delay, block s.toTable (delayOf tMs)) := if_neg (by omega)
  have slot : (block s.toTable (delayOf tMs)).gttbl s.gtcur =
      { s.gttbl s.gtcur with threadState := .Blocked, delayTicks := delayOf tMs } := by
    unfold block
    rw [Table.set_gttbl, if_pos rfl]
  have ready : (block s.toTable (delayOf tMs)).stateOf 0 = .Ready := by
    rw [block_stateOf, if_neg (Ne.symm main)]
    exact inv.table.main_ready main
  rw [perform_calls made]
  rcases gtYield_cases (block s.toTable (delayOf tMs)) with ⟨p, first, yields⟩ | ⟨none, -⟩
  · have other : s.gtcur ≠ p := by
      intro same
      have selected : (block s.toTable (delayOf tMs)).stateOf p = .Ready := first.1
      rw [block_stateOf, if_pos same.symm] at selected
      cases selected
    rw [yields, goOn_switched]
    refine ⟨Ne.symm other, ?_, Function.update_self ..⟩
    rw [← slot]
    show (switchTo _ p).gttbl s.gtcur = _
    -- The old slot is blocked, so the switch does not make it ready.
    have asleep : ¬ (block s.toTable (delayOf tMs)).stateOf (block s.toTable (delayOf tMs)).gtcur = .Running := by
      rw [block_stateOf, block_gtcur, if_pos rfl]
      simp
    unfold switchTo
    simp only [if_neg asleep]
    rw [Table.setState, Table.set_gttbl, if_neg other]
  · exact absurd ready (none 0)

/-- In every run in which thread 0 does not block itself: a thread that calls
    `gt_delay` with a positive time has its slot blocked, with its own context, and
    is not selected, whatever the threads and the timer do, until as many runs of
    `gt_manage_timers` have followed as the time has periods, at least one; and the
    last of these makes the slot ready. -/
theorem delay_exact {ops during : List (Op n)} {s u v : Threads n} {tMs : ℤ}
    (free : AllSteps step MainNeverBlocks (start n) (ops ++ [.delay tMs])) (run : exec step (start n) ops = some s)
    (positive : 0 < tMs) (taken : step s (.delay tMs) = some u) (onward : exec step u during = some v) :
    ((handlerRuns during : ℤ) < max 1 (tMs / TimePeriod) →
      v.gtcur ≠ s.gtcur ∧ v.frame s.gtcur = .delay ∧
        v.gttbl s.gtcur = { s.gttbl s.gtcur with threadState := .Blocked,
                                                 delayTicks := max 1 (tMs / TimePeriod) - handlerRuns during }) ∧
      ((handlerRuns during : ℤ) + 1 = max 1 (tMs / TimePeriod) →
        (gtManageTimers v.toTable).gttbl s.gtcur =
          { s.gttbl s.gtcur with threadState := .Ready, delayTicks := 0 }) := by
  obtain ⟨before, own⟩ := allSteps_append.mp free
  have inv := run_invariant before run
  have waits := delay_waits inv (own s run).1 positive
  rw [(step_cases taken).2, delayOf_eq positive] at waits
  constructor
  · intro early
    have still := waits_run waits onward early
    exact ⟨still.away, still.frame, still.slot⟩
  · intro last
    have still := waits_run waits onward (by omega)
    have one : max 1 (tMs / TimePeriod) - (handlerRuns during : ℤ) = 1 := by omega
    rw [gtManageTimers_waits still (by omega), if_pos one]

/-- With five slots, thread 1 delays itself by two periods; a resume of its own id and
    one handler run leave it blocked for one more. -/
theorem delay_exact_sample :
    ∃ v : Threads 5, exec step (start 5) [.go none true, .yield, .delay 25, .resume 1, .sigHandle, .yield] = some v ∧
      v.stateOf 1 = .Blocked ∧ (gtManageTimers v.toTable).stateOf 1 = .Ready := by
  have free : AllSteps step MainNeverBlocks (start 5) ([.go none true, .yield] ++ [.delay 25]) := by decide
  have first : (exec step (start 5) [.go none true, .yield]).map (fun s => s.gtcur) = some 1 := by decide
  obtain ⟨s, run, here⟩ := Option.map_eq_some_iff.mp first
  have whole : (exec step (start 5) [.go none true, .yield, .delay 25, .resume 1, .sigHandle, .yield]).isSome := by decide
  obtain ⟨v, all⟩ := Option.isSome_iff_exists.mp whole
  obtain ⟨s', run', more⟩ := exec_append_iff.mp
    (show exec step (start 5) ([.go none true, .yield] ++ [.delay 25, .resume 1, .sigHandle, .yield]) = some v from all)
  obtain rfl := Option.some.inj (run.symm.trans run')
  obtain ⟨u, taken, onward⟩ := exec_cons_iff.mp more
  have exact := delay_exact free run (by decide) taken onward
  rw [here] at exact
  have counted : (handlerRuns [Op.resume (1 : Fin 5), .sigHandle, .yield] : ℤ) = 1 := by decide
  rw [counted] at exact
  obtain ⟨-, -, slot⟩ := exact.1 (by decide)
  refine ⟨v, all, ?_, ?_⟩
  · rw [Table.stateOf, slot]
  · rw [Table.stateOf, exact.2 (by decide)]

end

end OsyProg.Delays
