import OsyProg.Blocking
import OsyProg.SchedulerLoop

/-!
`gt_delay` in the cooperative build. Only `gt_sig_handle` calls `gt_manage_timers`,
and without the timer nothing does, so a slot that `gt_delay` has blocked and
switched out stays blocked (`Lost`, `step_lost`). It can become ready again only
when its thread has gone on, because no other slot was ready, and then suspends and
resumes itself (`can_wake`). The same question is settled for threads that call
`gt_manage_timers`, which `gthr.h` declares, themselves (`calls_wake`): they help
unless only the loop of `gt_start_scheduler` is left.
-/
namespace OsyProg.Cooperative
open OsyProg.Cyclic OsyProg.Gthreads OsyProg.Runs
open OsyProg.ThreadRuns hiding step start step_cases
open OsyProg.SchedulerLoop

/-- A step of the cooperative build, or a call of `gt_manage_timers` by the running
    thread. -/
inductive Call (n : ℕ)
  | base (a : Action n)
  | manageTimers

section
variable {n : ℕ} [NeZero n]

/-- The steps of the cooperative build together with direct calls of `gt_manage_timers`. -/
def callStep (s : Scheduler n) : Call n → Option (Scheduler n)
  | .base a => step .cooperative s a
  | .manageTimers =>
    if s.aborted || (s.gtcur = 0 && s.inScheduler) then none
    else some { s with toTable := gtManageTimers s.toTable }

/-- Thread 0 is current and in the loop of `gt_start_scheduler`. -/
def InLoop (s : Scheduler n) : Prop := s.gtcur = 0 ∧ s.inScheduler = true

/-- The thread of a blocked slot goes on itself, outside of the loop of
    `gt_start_scheduler`; and if it can only hand over to that loop, which cannot
    resume it, it can stop and leave the loop with nothing to wait for. -/
def CanWake (s : Scheduler n) (i : Fin n) : Prop :=
  i = s.gtcur ∧ ¬ (s.inScheduler = true ∧
    (i = 0 ∨ (s.stateOf 0 = .Ready ∧ (∀ j, j ≠ 0 → j ≠ i → s.stateOf j = .Blocked) ∧ ∃ j, j ≠ 0 ∧ j ≠ i)))

/-- Only the loop of `gt_start_scheduler` is left to run. -/
def LoopAlone (s : Scheduler n) : Prop := InLoop s ∧ ∀ r, r ≠ 0 → s.stateOf r ≠ .Ready

/-! ### What holds in every state -/

/-- Only the current slot may be running, the others have not stopped unless they
    are unused, the assertion in `gt_stop` ends a thread whose slot is unused, and a
    blocked slot has ticks to wait. Thread 0 may block itself. -/
structure Sound (s : Threads n) : Prop where
  running : ∀ j, s.stateOf j = .Running → j = s.gtcur
  stopped : ∀ j, j ≠ s.gtcur → s.frame j = .stop → s.stateOf j = .Unused
  ended : s.aborted = true → s.stateOf s.gtcur = .Unused
  delayed : ∀ j, s.stateOf j = .Blocked → 0 < (s.gttbl j).delayTicks

omit [NeZero n] in
theorem gtManageTimers_delayed {s : Table n} {j : Fin n} (delayed : s.stateOf j = .Blocked → 0 < (s.gttbl j).delayTicks)
    (blocked : (gtManageTimers s).stateOf j = .Blocked) : 0 < ((gtManageTimers s).gttbl j).delayTicks := by
  rw [Table.stateOf] at blocked
  rw [gtManageTimers_gttbl] at blocked ⊢
  rcases tick_cases (s.gttbl j) with same | ⟨-, more, same⟩ | ⟨-, -, same⟩
  · rw [same] at blocked ⊢
    exact delayed blocked
  · rw [same]
    simp only
    omega
  · rw [same] at blocked
    cases blocked

/-- A current slot that is not ready is not ready when `gt_yield` is called, unless the
    timers have woken it. -/
theorem calls_current {s m : Table n} {op : Op n} {here : Frame} (made : calls s op = some (here, m))
    (waits : s.stateOf s.gtcur ≠ .Ready) (untimed : isSignal op = false) : m.stateOf s.gtcur ≠ .Ready := by
  rcases calls_cases made with ⟨-, -, rfl⟩ | ⟨-, -, -, rfl⟩ | ⟨-, -, rfl⟩ | ⟨tMs, -, -, -, rfl⟩ | ⟨rfl, -, -⟩
  · exact waits
  · rw [Table.setState_stateOf, if_pos rfl]
    simp
  · rw [Table.setState_stateOf, if_pos rfl]
    simp
  · rw [block_stateOf, if_pos rfl]
    simp
  · cases untimed

theorem calls_delayed {s m : Table n} {op : Op n} {here : Frame} (made : calls s op = some (here, m)) {j : Fin n}
    (delayed : s.stateOf j = .Blocked → 0 < (s.gttbl j).delayTicks) (blocked : m.stateOf j = .Blocked) :
    0 < (m.gttbl j).delayTicks := by
  rcases calls_cases made with ⟨-, -, rfl⟩ | ⟨-, -, -, rfl⟩ | ⟨-, -, rfl⟩ | ⟨tMs, -, -, -, rfl⟩ | ⟨-, -, rfl⟩
  · exact delayed blocked
  · rw [Table.setState_stateOf] at blocked
    split at blocked
    next => cases blocked
    next => rw [Table.setState_delayTicks]; exact delayed blocked
  · rw [Table.setState_stateOf] at blocked
    split at blocked
    next => cases blocked
    next => rw [Table.setState_delayTicks]; exact delayed blocked
  · by_cases own : j = s.gtcur
    · unfold block
      rw [Table.set_gttbl, if_pos own]
      exact delayOf_pos tMs
    · rw [block_stateOf, if_neg own] at blocked
      unfold block
      rw [Table.set_gttbl, if_neg own]
      exact delayed blocked
  · exact gtManageTimers_delayed delayed blocked

theorem calls_stop {s m : Table n} {op : Op n} {here : Frame} (made : calls s op = some (here, m)) (stops : here = .stop) :
    m.stateOf s.gtcur = .Unused := by
  rcases calls_cases made with ⟨-, rfl, -⟩ | ⟨-, -, -, rfl⟩ | ⟨-, rfl, -⟩ | ⟨tMs, -, rfl, -, -⟩ | ⟨-, rfl, -⟩
  · cases stops
  · rw [Table.setState_stateOf, if_pos rfl]
  · cases stops
  · cases stops
  · cases stops

omit [NeZero n] in
/-- `gt_go` puts a new thread into an unused slot. -/
theorem fill_sound {s : Threads n} {p : Fin n} {context : Context} (sound : Sound s) (alive : s.aborted = false)
    (ready : context.threadState = .Ready) :
    Sound { s with toTable := s.set p context, frame := Function.update s.frame p .entry } := by
  constructor
  · intro j
    rw [Table.stateOf, Table.set_gttbl]
    split
    next => rw [ready]; exact fun runs => by cases runs
    next => exact sound.running j
  · intro j away stops
    by_cases new : j = p
    · simp [new] at stops
    · rw [Table.stateOf, Table.set_gttbl, if_neg new]
      exact sound.stopped j away (by simpa [new] using stops)
  · intro ended
    rw [alive] at ended
    cases ended
  · intro j
    rw [Table.stateOf, Table.set_gttbl]
    split
    next => rw [ready]; exact fun blocked => by cases blocked
    next => exact sound.delayed j

omit [NeZero n] in
theorem gtResume_sound {s : Threads n} (tId : Fin n) (sound : Sound s) (alive : s.aborted = false) :
    Sound { s with toTable := gtResume s.toTable tId } := by
  constructor
  · intro j
    rw [gtResume_stateOf, gtResume_gtcur]
    split
    next => exact fun runs => by cases runs
    next => exact sound.running j
  · intro j away stops
    have unused := sound.stopped j (by simpa using away) stops
    rw [gtResume_stateOf, if_neg fun both => by simp [unused] at both]
    exact unused
  · intro ended
    rw [alive] at ended
    cases ended
  · intro j blocked
    have ticks : ((gtResume s.toTable tId).gttbl j).delayTicks = (s.gttbl j).delayTicks := by
      unfold gtResume
      split <;> simp
    rw [gtResume_stateOf] at blocked
    rw [ticks]
    split at blocked
    next => cases blocked
    next => exact sound.delayed j blocked

/-- A call of `gt_yield` that switches. -/
theorem switch_sound {s : Threads n} {op : Op n} {here : Frame} {m : Table n} {p : Fin n} (sound : Sound s)
    (made : calls s.toTable op = some (here, m)) (ready : m.stateOf p = .Ready) :
    Sound { toTable := switchTo m p, frame := Function.update s.frame s.gtcur here,
            aborted := Function.update s.frame s.gtcur here p = .stop } := by
  have only := Blocking.calls_running sound.running made
  have cur := (calls_other made).1
  -- A slot that has stopped is unused when the scan looks at it.
  have stopped : ∀ j, Function.update s.frame s.gtcur here j = .stop → m.stateOf j = .Unused := by
    intro j stops
    by_cases own : j = s.gtcur
    · subst own
      exact calls_stop made (by simpa using stops)
    · have unused := sound.stopped j own (by simpa [own] using stops)
      rw [calls_keeps made own (by simp [unused]), unused]
  constructor
  · intro j runs
    exact Blocking.switchTo_awake (by rw [cur]; exact only) p j runs
  · intro j away stops
    rw [switchTo_gtcur] at away
    rw [switchTo_stateOf, if_neg away, if_neg fun both => by simp [stopped j stops] at both]
    exact stopped j stops
  · intro ended
    have stops : Function.update s.frame s.gtcur here p = .stop := by simpa using ended
    rw [stopped p stops] at ready
    cases ready
  · intro j blocked
    rw [switchTo_delayTicks]
    apply calls_delayed made (sound.delayed j)
    rw [switchTo_stateOf] at blocked
    split at blocked
    next => cases blocked
    next =>
      split at blocked
      next => cases blocked
      next => exact blocked

/-- A call of `gt_yield` that returns at once. -/
theorem stay_sound {s : Threads n} {op : Op n} {here : Frame} {m : Table n} (sound : Sound s)
    (made : calls s.toTable op = some (here, m)) : Sound { s with toTable := m, aborted := here = .stop } := by
  have only := Blocking.calls_running sound.running made
  have cur := (calls_other made).1
  constructor
  · rw [cur]; exact only
  · intro j away stops
    rw [cur] at away
    have unused := sound.stopped j away stops
    rw [calls_keeps made away (by simp [unused]), unused]
  · intro ended
    rw [cur]
    exact calls_stop made (by simpa using ended)
  · intro j
    exact calls_delayed made (sound.delayed j)

theorem perform_sound {s : Threads n} (op : Op n) (sound : Sound s) (alive : s.aborted = false) :
    Sound (perform s op).1 := by
  rcases perform_cases s op with ⟨-, table, frame, aborted, -⟩ | ⟨tName, p, unused, same⟩ | ⟨tId, -, same⟩ |
    ⟨here, m, p, made, first, same⟩ | ⟨here, m, made, -, same⟩
  · constructor
    · rw [table]; exact sound.running
    · rw [table, frame]; exact sound.stopped
    · rw [table, aborted]; exact sound.ended
    · rw [table]; exact sound.delayed
  · rw [same]
    exact fill_sound sound alive rfl
  · rw [same]
    exact gtResume_sound tId sound alive
  · rw [same]
    exact switch_sound sound made first.1
  · rw [same]
    exact stay_sound sound made

/-! ### The steps of the build -/

/-- What a step of the cooperative build does: an operation of the running thread, the
    entry of `gt_start_scheduler`, or a `gt_yield` of its loop. -/
theorem step_cases {s t : Scheduler n} {a : Action n} (taken : step .cooperative s a = some t) :
    s.aborted = false ∧
      ((∃ op, isSignal op = false ∧ ¬ InLoop s ∧ t.toThreads = (perform s.toThreads op).1 ∧
          t.inScheduler = s.inScheduler) ∨
        (s.gtcur = 0 ∧ s.inScheduler = false ∧ t = { s with inScheduler := true }) ∨
        (InLoop s ∧ t.toThreads = (perform s.toThreads .yield).1 ∧
          (t.inScheduler = true ↔ (perform s.toThreads .yield).2.map Prod.snd ≠ some 0))) := by
  cases a with
  | api op =>
    obtain ⟨alive, may, rfl⟩ := api_some taken
    refine ⟨alive, .inl ⟨op, ?_, ?_, rfl, rfl⟩⟩
    · by_contra signal
      simp [enabled, signal] at may
    · rintro ⟨main, inside⟩
      cases op <;> simp [enabled, isSignal, main, inside] at may
  | startScheduler =>
    simp only [step] at taken
    split at taken
    next => cases taken
    next may =>
      cases taken
      simp only [Bool.or_eq_true, decide_eq_true_eq, not_or, not_not, Bool.not_eq_true] at may
      exact ⟨may.1.1, .inr (.inl ⟨may.2, may.1.2, rfl⟩)⟩
  | loop =>
    simp only [step] at taken
    split at taken
    next => cases taken
    next may =>
      cases taken
      simp only [Bool.or_eq_true, Bool.not_eq_true', decide_eq_true_eq, not_or, not_not, Bool.not_eq_true,
        Bool.not_eq_false] at may
      exact ⟨may.1.1, .inr (.inr ⟨⟨may.2, may.1.2⟩, rfl, by simp⟩)⟩

theorem step_sound (s : Scheduler n) (a : Action n) (t : Scheduler n) (sound : Sound s.toThreads)
    (taken : step .cooperative s a = some t) : Sound t.toThreads := by
  obtain ⟨alive, ⟨op, -, -, same, -⟩ | ⟨-, -, rfl⟩ | ⟨-, same, -⟩⟩ := step_cases taken
  · rw [same]
    exact perform_sound _ sound alive
  · exact sound
  · rw [same]
    exact perform_sound _ sound alive

theorem callStep_sound (s : Scheduler n) (c : Call n) (t : Scheduler n) (sound : Sound s.toThreads)
    (taken : callStep s c = some t) : Sound t.toThreads := by
  cases c with
  | base a => exact step_sound s a t sound taken
  | manageTimers =>
    simp only [callStep] at taken
    split at taken
    next => cases taken
    next may =>
      cases taken
      have states := fun j => gtManageTimers_stateOf s.toTable j
      constructor
      · intro j runs
        rw [gtManageTimers_gtcur]
        rcases states j with same | ⟨-, -, ready⟩
        · exact sound.running j (same ▸ runs)
        · rw [ready] at runs
          cases runs
      · intro j away stops
        have unused := sound.stopped j (by simpa using away) stops
        rw [gtManageTimers_stateOf_eq s.toTable j (by simp [unused])]
        exact unused
      · intro ended
        simp [show s.aborted = true from ended] at may
      · exact fun j => gtManageTimers_delayed (sound.delayed j)

theorem start_sound : Sound (start n).toThreads := by
  have inv := start_invariant (n := n)
  refine ⟨inv.table.running, inv.stopped, ?_, fun j => (inv.table.delayed j).mp⟩
  intro ended
  exact absurd ended (by simp [start, ThreadRuns.start])

/-! ### Slots that are never ready again -/

/-- The four ways in which a slot is lost: its thread was switched out; the loop of
    `gt_start_scheduler` waits for sleeping slots; thread 0 is in the loop with its own
    slot blocked; or the thread goes on and can hand over to the loop alone, which then
    waits for other slots. -/
inductive Lost (s : Scheduler n) (i : Fin n) : Prop
  | switchedOut (away : i ≠ s.gtcur) (blocked : s.stateOf i = .Blocked)
  | loopWaits (inLoop : InLoop s) (none : ∀ r, s.stateOf r ≠ .Ready) (some : ∃ w, Waiting s.toTable w)
  | mainBlocked (inLoop : InLoop s) (main : i = 0) (blocked : s.stateOf i = .Blocked)
  | handsOver (here : i = s.gtcur) (inside : s.inScheduler = true) (other : i ≠ 0) (blocked : s.stateOf i = .Blocked)
      (ready : s.stateOf 0 = .Ready) (others : ∀ j, j ≠ 0 → j ≠ i → s.stateOf j = .Blocked) (some : ∃ j, j ≠ 0 ∧ j ≠ i)

theorem Lost.not_ready {s : Scheduler n} {i : Fin n} (lost : Lost s i) : s.stateOf i ≠ .Ready := by
  cases lost with
  | loopWaits _ none _ => exact none i
  | switchedOut _ blocked | mainBlocked _ _ blocked | handsOver _ _ _ blocked => rw [blocked]; simp

/-- Without the timers a blocked slot that is not current stays so. -/
theorem perform_blocked {s : Threads n} (op : Op n) {c : Fin n} (alive : s.aborted = false) (untimed : isSignal op = false)
    (away : c ≠ s.gtcur) (blocked : s.stateOf c = .Blocked) :
    c ≠ (perform s op).1.gtcur ∧ (perform s op).1.stateOf c = .Blocked := by
  have taken : ThreadRuns.step s op = some (perform s op).1 := by simp [ThreadRuns.step, alive]
  have notWoken : ¬ (False ∨ Blocking.Wakes s op c .delayed) := by
    rintro (none | ⟨rfl, -⟩)
    · exact none
    · cases untimed
  have asleep : s.stateOf c = Blocking.Sleep.delayed.state ∨ (s.stateOf c = .Ready ∧ False) := .inl blocked
  rcases Blocking.sleep_step (Ne.symm away) asleep taken with ⟨still, sleeps | ⟨-, woken⟩⟩ | ⟨-, -, woken⟩
  · exact ⟨Ne.symm still, sleeps⟩
  · exact absurd woken notWoken
  · exact absurd woken notWoken

/-- The `gt_yield` of the loop: it switches and goes on, or finds no ready slot and
    goes on as long as a slot waits. -/
theorem loop_yield {s t : Scheduler n} (same : t.toThreads = (perform s.toThreads .yield).1)
    (goesOn : t.inScheduler = true ↔ (perform s.toThreads .yield).2.map Prod.snd ≠ some 0) :
    (∃ p, First (fun r => s.stateOf r = .Ready) s.gtcur p ∧ t.toTable = switchTo s.toTable p ∧ t.inScheduler = true) ∨
      ((∀ r, s.stateOf r ≠ .Ready) ∧ t.toTable = s.toTable ∧ t.aborted = false ∧
        (t.inScheduler = true ↔ ∃ w, Waiting s.toTable w)) := by
  have made : calls s.toTable .yield = some (.yield, s.toTable) := rfl
  rw [perform_calls made] at same goesOn
  rcases gtYield_cases s.toTable with ⟨p, first, yields⟩ | ⟨none, yields⟩
  · rw [yields, goOn_switched] at same goesOn
    exact .inl ⟨p, first, congrArg Threads.toTable same, goesOn.mpr (by simp)⟩
  · rw [yields, goOn_stayed _ _ _ (by simp only; omega)] at same goesOn
    have table : t.toThreads.toTable = s.toTable := by rw [same]
    have aborted : t.toThreads.aborted = false := by rw [same]; rfl
    refine .inr ⟨none, table, aborted, ?_⟩
    have some : 0 < (Finset.univ.filter (Waiting s.toTable)).card ↔ ∃ w, Waiting s.toTable w := by
      simp [Finset.card_pos, Finset.filter_nonempty_iff]
    rw [goesOn, ← some, Option.map_some, ne_eq, Option.some.injEq]
    omega

/-- When all slots but slot 0 are blocked, a call that switches goes to slot 0, whose
    thread goes on in the loop and finds no ready slot. -/
theorem handsOver_switches {s t : Scheduler n} {op : Op n} {m : Table n} {here : Frame} {p : Fin n}
    (made : calls s.toTable op = some (here, m)) (untimed : isSignal op = false)
    (first : First (fun r => m.stateOf r = .Ready) m.gtcur p) (table : t.toTable = switchTo m p)
    (inside : t.inScheduler = true) (other : s.gtcur ≠ 0) (each : ∀ r, r ≠ 0 → s.stateOf r = .Blocked)
    (some : ∃ j, j ≠ 0 ∧ j ≠ s.gtcur) : Lost t s.gtcur := by
  have cur := (calls_other made).1
  have blocked := each _ other
  have elsewhere : ∀ j, j ≠ s.gtcur → m.stateOf j = s.stateOf j := fun j away =>
    ((calls_other made).2 j away).resolve_right fun wakes => by simp [wakes.1, isSignal] at untimed
  have own := calls_current made (by rw [blocked]; simp) untimed
  have zero : p = 0 := by
    by_contra main
    have readyP : m.stateOf p = .Ready := first.1
    by_cases here : p = s.gtcur
    · exact own (here ▸ readyP)
    · rw [elsewhere p here, each p main] at readyP
      cases readyP
  refine .loopWaits ⟨by rw [table]; exact zero, inside⟩ ?_ ?_
  · intro r
    rw [table, switchTo_stateOf]
    by_cases main : r = p
    · simp [main]
    · rw [if_neg main]
      by_cases here : r = s.gtcur
      · have notRunning : ¬ (r = m.gtcur ∧ m.stateOf r = .Running) := by
          rintro ⟨-, runs⟩
          rcases calls_cases made with ⟨-, -, rfl⟩ | ⟨-, -, -, rfl⟩ | ⟨-, -, rfl⟩ | ⟨_, -, -, -, rfl⟩ | ⟨rfl, -, -⟩
          · rw [here, blocked] at runs; cases runs
          · rw [Table.setState_stateOf, if_pos here] at runs; cases runs
          · rw [Table.setState_stateOf, if_pos here] at runs; cases runs
          · rw [block_stateOf, if_pos here] at runs; cases runs
          · cases untimed
        rw [if_neg notRunning, here]
        exact own
      · rw [if_neg fun both => here (both.1.trans cur), elsewhere r here, each r (zero ▸ main)]
        simp
  · obtain ⟨j, main, away⟩ := some
    refine ⟨j, .inl ?_⟩
    rw [table, switchTo_stateOf, if_neg (zero ▸ main), if_neg fun both => away (both.1.trans cur), elsewhere j away]
    exact each j main

/-- So the current thread can only go on as it is, or hand over to the loop. -/
theorem handsOver_op {s t : Scheduler n} {op : Op n} (untimed : isSignal op = false)
    (same : t.toThreads = (perform s.toThreads op).1) (inside : t.inScheduler = true)
    (other : s.gtcur ≠ 0) (ready : s.stateOf 0 = .Ready) (each : ∀ r, r ≠ 0 → s.stateOf r = .Blocked)
    (some : ∃ j, j ≠ 0 ∧ j ≠ s.gtcur) : Lost t s.gtcur := by
  have unchanged : t.toTable = s.toTable → Lost t s.gtcur := by
    intro table
    refine .handsOver (by rw [table]) inside other ?_ ?_ ?_ some
    · rw [table]; exact each _ other
    · rw [table]; exact ready
    · rw [table]; exact fun j main _ => each j main
  rcases perform_cases s.toThreads op with ⟨-, table, -⟩ | ⟨_, p, unused, -⟩ | ⟨tId, -, resumed⟩ |
    ⟨_, m, p, made, first, switched⟩ | ⟨_, m, made, none, -⟩
  · exact unchanged ((congrArg Threads.toTable same).trans table)
  · -- No slot is unused.
    by_cases main : p = 0
    · rw [main, ready] at unused; cases unused
    · rw [each p main] at unused; cases unused
  · -- No slot is suspended.
    have awake : s.stateOf tId ≠ .Suspended := by
      by_cases main : tId = 0
      · rw [main, ready]; simp
      · rw [each tId main]; simp
    apply unchanged
    rw [congrArg Threads.toTable same, resumed]
    exact if_neg awake
  · have table : t.toTable = switchTo m p := by rw [congrArg Threads.toTable same, switched]
    exact handsOver_switches made untimed first table inside other each some
  · exact absurd (((calls_other made).2 0 (Ne.symm other)).elim (fun keeps => keeps.trans ready) fun wakes => wakes.2.2.2)
      (none 0)

theorem step_lost (s : Scheduler n) (a : Action n) (t : Scheduler n) {i : Fin n} (lost : Lost s i)
    (taken : step .cooperative s a = some t) : Lost t i := by
  obtain ⟨alive, ⟨op, untimed, free, same, inside'⟩ | ⟨main, outside, rfl⟩ | ⟨inLoop, same, goesOn⟩⟩ := step_cases taken
  · -- The running thread calls an operation.
    cases lost with
    | switchedOut away blocked =>
      obtain ⟨still, sleeps⟩ := perform_blocked op alive untimed away blocked
      rw [← same] at still sleeps
      exact .switchedOut still sleeps
    | loopWaits inLoop | mainBlocked inLoop => exact absurd inLoop free
    | handsOver here inside other blocked ready others some =>
      subst here
      refine handsOver_op untimed same (inside'.trans inside) other ready (fun r main => ?_) some
      by_cases own : r = s.gtcur
      · rw [own, blocked]
      · exact others r main own
  · -- Thread 0 enters `gt_start_scheduler`.
    cases lost with
    | switchedOut away blocked => exact .switchedOut away blocked
    | loopWaits inLoop | mainBlocked inLoop => rw [inLoop.2] at outside; cases outside
    | handsOver here _ other => exact absurd (here.trans main) other
  · -- A round of the loop.
    have goes := loop_yield same goesOn
    cases lost with
    | switchedOut away blocked =>
      obtain ⟨still, sleeps⟩ := perform_blocked .yield alive rfl away blocked
      rw [← same] at still sleeps
      exact .switchedOut still sleeps
    | loopWaits _ none some =>
      rcases goes with ⟨p, first, -⟩ | ⟨-, table, -, still⟩
      · exact absurd first.1 (none p)
      · exact .loopWaits ⟨by rw [table]; exact inLoop.1, still.mpr some⟩ (by rw [table]; exact none) (by rw [table]; exact some)
    | mainBlocked _ main blocked =>
      subst main
      rcases goes with ⟨p, first, table, -⟩ | ⟨-, table, -, still⟩
      · have ready : s.stateOf p = .Ready := first.1
        have away : (0 : Fin n) ≠ p := by
          rintro rfl
          rw [blocked] at ready
          cases ready
        refine .switchedOut (by rw [table]; exact away) ?_
        rw [table, switchTo_stateOf, if_neg away, if_neg fun both => by simp [blocked] at both]
        exact blocked
      · exact .mainBlocked ⟨by rw [table]; exact inLoop.1, still.mpr ⟨0, .inl blocked⟩⟩ rfl (by rw [table]; exact blocked)
    | handsOver here _ other => exact absurd (here.trans inLoop.1) other

/-! ### Slots that can be made ready -/

/-- The running thread can call any operation, unless it is in the loop. -/
theorem api_step {s : Scheduler n} (op : Op n) (alive : s.aborted = false) (untimed : isSignal op = false)
    (free : ¬ InLoop s) :
    ∃ t, step .cooperative s (.api op) = some t ∧ t.toThreads = (perform s.toThreads op).1 ∧
      t.inScheduler = s.inScheduler := by
  have may : enabled .cooperative s op = true := by
    by_cases main : s.gtcur = 0
    · have outside : s.inScheduler = false := by
        by_contra inside
        exact free ⟨main, by simpa using inside⟩
      simp [enabled, untimed, outside]
    · simp [enabled, untimed, main]
  refine ⟨{ s with toThreads := (perform s.toThreads op).1,
                   yieldStatus := statusAfter s.yieldStatus (perform s.toThreads op).2 }, ?_, rfl, rfl⟩
  simp only [step, alive, may, Bool.not_true, Bool.or_self, Bool.false_eq_true, if_false]

theorem loop_step {s : Scheduler n} (alive : s.aborted = false) (inLoop : InLoop s) :
    ∃ t, step .cooperative s .loop = some t ∧ t.toThreads = (perform s.toThreads .yield).1 ∧
      (t.inScheduler = true ↔ (perform s.toThreads .yield).2.map Prod.snd ≠ some 0) := by
  refine ⟨{ s with toThreads := (perform s.toThreads .yield).1,
                   inScheduler := ((perform s.toThreads .yield).2.map Prod.snd) ≠ some 0 }, ?_, rfl, ?_⟩
  · simp only [step, alive, inLoop.1, inLoop.2, Bool.not_true, Bool.or_self, ne_eq, not_true_eq_false, decide_false,
      Bool.false_eq_true, if_false]
  · simp

/-- Any thread that can call an operation wakes a suspended slot. -/
theorem resume_wakes {s : Scheduler n} {i : Fin n} (alive : s.aborted = false) (free : ¬ InLoop s)
    (suspended : s.stateOf i = .Suspended) : ∃ t, Reachable (step .cooperative) s t ∧ t.stateOf i = .Ready := by
  obtain ⟨t, taken, same, -⟩ := api_step (.resume i) alive rfl free
  refine ⟨t, ⟨[.api (.resume i)], exec_cons_iff.mpr ⟨t, taken, rfl⟩⟩, ?_⟩
  rw [congrArg Threads.toTable same]
  show (gtResume s.toTable i).stateOf i = .Ready
  rw [gtResume_stateOf, if_pos ⟨rfl, suspended⟩]

/-- `gt_suspend` leaves its slot suspended, and switches to a slot that was ready, or
    goes on when no other is. -/
theorem suspend_cases {s : Threads n} (sound : Sound s) (alive : s.aborted = false) :
    (perform s .suspend).1.stateOf s.gtcur = .Suspended ∧ (perform s .suspend).1.aborted = false ∧
      ((perform s .suspend).1.gtcur = s.gtcur ∨
        ((perform s .suspend).1.gtcur ≠ s.gtcur ∧ s.stateOf (perform s .suspend).1.gtcur = .Ready)) ∧
      (perform s .suspend).1.stateOf (perform s .suspend).1.gtcur ≠ .Ready ∧
      ∀ r, r ≠ s.gtcur → r ≠ (perform s .suspend).1.gtcur → (perform s .suspend).1.stateOf r = s.stateOf r := by
  have after := perform_sound .suspend sound alive
  have made : calls s.toTable .suspend = some (.suspend, s.setState s.gtcur .Suspended) := rfl
  have own : (s.setState s.gtcur .Suspended).stateOf s.gtcur = .Suspended := by rw [Table.setState_stateOf, if_pos rfl]
  have elsewhere : ∀ r, r ≠ s.gtcur → (s.setState s.gtcur .Suspended).stateOf r = s.stateOf r :=
    fun r other => by rw [Table.setState_stateOf, if_neg other]
  have alive' : ∀ state, (perform s .suspend).1.stateOf (perform s .suspend).1.gtcur = state → state ≠ .Unused →
      (perform s .suspend).1.aborted = false := by
    intro state current used
    by_contra ended
    exact used (current.symm.trans (after.ended (by simpa using ended)))
  rcases gtYield_cases (s.setState s.gtcur .Suspended) with ⟨p, first, yields⟩ | ⟨none, yields⟩
  · have ready : (s.setState s.gtcur .Suspended).stateOf p = .Ready := first.1
    have other : p ≠ s.gtcur := by
      rintro rfl
      rw [own] at ready
      cases ready
    have same : (perform s .suspend).1.toTable = switchTo (s.setState s.gtcur .Suspended) p := by
      rw [perform_calls made, yields, goOn_switched]
    have runs : (perform s .suspend).1.stateOf (perform s .suspend).1.gtcur = .Running := by
      rw [same, switchTo_gtcur, switchTo_stateOf, if_pos rfl]
    refine ⟨?_, alive' _ runs (by simp), .inr ?_, by rw [runs]; simp, ?_⟩
    · rw [same, switchTo_stateOf, if_neg (Ne.symm other), if_neg fun both => by simp [own] at both]
      exact own
    · rw [same, switchTo_gtcur]
      exact ⟨other, (elsewhere p other).symm.trans ready⟩
    · intro r away new
      rw [same, switchTo_gtcur] at new
      rw [same, switchTo_stateOf, if_neg new, if_neg fun both => away both.1]
      exact elsewhere r away
  · have same : (perform s .suspend).1.toTable = s.setState s.gtcur .Suspended := by
      rw [perform_calls made, yields, goOn_stayed _ _ _ (by simp only; omega)]
    have sleeps : (perform s .suspend).1.stateOf (perform s .suspend).1.gtcur = .Suspended := by rw [same]; exact own
    refine ⟨by rw [same]; exact own, alive' _ sleeps (by simp), .inl (by rw [same]; rfl), by rw [sleeps]; simp, ?_⟩
    intro r away _
    rw [same]
    exact elsewhere r away

/-- When a slot other than 0 is ready, the loop of `gt_start_scheduler` hands over to
    its thread, and leaves sleeping slots as they are. -/
theorem loop_hands_over {s : Scheduler n} (sound : Sound s.toThreads) (alive : s.aborted = false) (inLoop : InLoop s)
    (away : s.stateOf 0 ≠ .Ready) {q : Fin n} (ready : s.stateOf q = .Ready) :
    ∃ t, step .cooperative s .loop = some t ∧ t.aborted = false ∧ ¬ InLoop t ∧
      ∀ i, Waiting s.toTable i → t.stateOf i = s.stateOf i := by
  obtain ⟨t, taken, same, goesOn⟩ := loop_step alive inLoop
  have after := step_sound s .loop t sound taken
  rcases loop_yield same goesOn with ⟨p, first, table, -⟩ | ⟨none, -⟩
  · have readyP : s.stateOf p = .Ready := first.1
    have main : p ≠ 0 := by
      rintro rfl
      exact away readyP
    refine ⟨t, taken, ?_, ?_, ?_⟩
    · by_contra ended
      have unused := after.ended (by simpa using ended)
      rw [table, switchTo_gtcur, switchTo_stateOf, if_pos rfl] at unused
      cases unused
    · rintro ⟨zero, -⟩
      rw [table] at zero
      exact main zero
    · intro i waits
      rw [table, switchTo_stateOf, if_neg, if_neg]
      · rintro ⟨-, runs⟩
        rcases waits with h | h <;> rw [h] at runs <;> cases runs
      · rintro rfl
        rcases waits with h | h <;> rw [h] at readyP <;> cases readyP
  · exact absurd ready (none q)

/-- The thread of a blocked slot suspends itself, and another thread resumes it: the
    one that is switched to, or, when that is the loop, one that the loop finds ready. -/
theorem wake_by_helper {s : Scheduler n} {i : Fin n} (sound : Sound s.toThreads) (alive : s.aborted = false)
    (here : i = s.gtcur) (free : ¬ InLoop s)
    (helper : s.inScheduler = true → s.stateOf 0 = .Ready → ∃ q, q ≠ 0 ∧ q ≠ i ∧ s.stateOf q = .Ready) :
    ∃ t, Reachable (step .cooperative) s t ∧ t.stateOf i = .Ready := by
  obtain ⟨suspended, alive', goes, notReady, elsewhere⟩ := suspend_cases sound alive
  obtain ⟨t, taken, same, inside⟩ := api_step .suspend alive rfl free
  rw [← same, ← here] at suspended
  rw [← same] at alive' goes notReady elsewhere
  have reached : Reachable (step .cooperative) s t := ⟨[.api .suspend], exec_cons_iff.mpr ⟨t, taken, rfl⟩⟩
  by_cases inLoop : InLoop t
  · -- Slot 0 was ready, and its thread is in the loop.
    have main : t.gtcur = 0 := inLoop.1
    have other : i ≠ 0 := by
      rintro rfl
      exact free ⟨here.symm, inside.symm.trans inLoop.2⟩
    have readyMain : s.stateOf 0 = .Ready := by
      rcases goes with back | ⟨-, ready⟩
      · exact absurd (here.trans (back.symm.trans main)) other
      · rw [main] at ready
        exact ready
    obtain ⟨q, qMain, qOwn, readyQ⟩ := helper (inside.symm.trans inLoop.2) readyMain
    have stillReady : t.stateOf q = .Ready := by
      rw [elsewhere q (here ▸ qOwn) (by rw [main]; exact qMain)]
      exact readyQ
    rw [main] at notReady
    obtain ⟨u, looped, aliveU, freeU, keeps⟩ :=
      loop_hands_over (step_sound s _ t sound taken) alive' inLoop notReady stillReady
    obtain ⟨v, woken, ready⟩ := resume_wakes aliveU freeU ((keeps i (.inr suspended)).trans suspended)
    exact ⟨v, (reached.next looped).trans woken, ready⟩
  · obtain ⟨v, woken, ready⟩ := resume_wakes alive' inLoop suspended
    exact ⟨v, reached.trans woken, ready⟩

omit [NeZero n] in
/-- `gt_go` with a stack fills an unused slot when there is one. -/
theorem gtGo_fills {s : Table n} {j : Fin n} (unused : s.stateOf j = .Unused) :
    ∃ p, s.stateOf p = .Unused ∧ (gtGo s none true).1.stateOf p = .Ready ∧ (gtGo s none true).1.gtcur = s.gtcur ∧
      ∀ r, r ≠ p → (gtGo s none true).1.stateOf r = s.stateOf r := by
  obtain ⟨p, found⟩ : ∃ p, findUnused s = some p := by
    apply Option.isSome_iff_exists.mp
    rw [findUnused, List.find?_isSome]
    exact ⟨j, List.mem_finRange j, by simpa using unused⟩
  have free : s.stateOf p = .Unused := by simpa using List.find?_some found
  refine ⟨p, free, ?_⟩
  simp only [gtGo, found, if_true, Table.set_gtcur, true_and]
  refine ⟨?_, ?_⟩
  · rw [Table.stateOf, Table.set_gttbl, if_pos rfl]
  · intro r other
    rw [Table.stateOf, Table.set_gttbl, if_neg other]
    rfl

/-- The thread of slot `i` and the loop are alone: the thread stops, the loop ends, and
    thread 0 fills the slot again. -/
theorem wake_by_stopping {s : Scheduler n} {i : Fin n} (sound : Sound s.toThreads) (alive : s.aborted = false)
    (here : i = s.gtcur) (other : i ≠ 0) (inside : s.inScheduler = true) (ready : s.stateOf 0 = .Ready)
    (only : ∀ j, j = 0 ∨ j = i) : ∃ t, Reachable (step .cooperative) s t ∧ t.stateOf i = .Ready := by
  have away : s.gtcur ≠ 0 := here ▸ other
  obtain ⟨t, taken, same, insideT⟩ := api_step .stop alive rfl (fun inLoop => away inLoop.1)
  have soundT := step_sound s _ t sound taken
  -- The only slot that can be switched to is slot 0.
  have switched : t.toTable = switchTo (s.setState s.gtcur .Unused) 0 := by
    have made : calls s.toTable .stop = some (.stop, s.setState s.gtcur .Unused) := if_pos away
    have main : (s.setState s.gtcur .Unused).stateOf 0 = .Ready := by
      rw [Table.setState_stateOf, if_neg (Ne.symm away)]
      exact ready
    rcases gtYield_cases (s.setState s.gtcur .Unused) with ⟨p, first, yields⟩ | ⟨none, -⟩
    · have readyP : (s.setState s.gtcur .Unused).stateOf p = .Ready := first.1
      rcases only p with rfl | rfl
      · rw [congrArg Threads.toTable same, perform_calls made, yields, goOn_switched]
      · rw [Table.setState_stateOf, if_pos here] at readyP
        cases readyP
    · exact absurd main (none 0)
  have runsMain : t.stateOf 0 = .Running := by rw [switched, switchTo_stateOf, if_pos rfl]
  have unused : t.stateOf i = .Unused := by
    have gone : (s.setState s.gtcur .Unused).stateOf i = .Unused := by rw [Table.setState_stateOf, if_pos here]
    rw [switched, switchTo_stateOf, if_neg other, if_neg fun both => by simp [gone] at both]
    exact gone
  have main : t.gtcur = 0 := by rw [switched]; rfl
  have aliveT : t.aborted = false := by
    by_contra ended
    have gone := soundT.ended (by simpa using ended)
    rw [main, runsMain] at gone
    cases gone
  obtain ⟨u, looped, sameU, goesOn⟩ := loop_step aliveT ⟨main, insideT.trans inside⟩
  rcases loop_yield sameU goesOn with ⟨p, first, -⟩ | ⟨-, table, aliveU, still⟩
  · have readyP : t.stateOf p = .Ready := first.1
    rcases only p with rfl | rfl
    · rw [runsMain] at readyP; cases readyP
    · rw [unused] at readyP; cases readyP
  · have left : ¬ InLoop u := by
      rintro ⟨-, insideU⟩
      obtain ⟨w, waits⟩ := still.mp insideU
      rcases only w with rfl | rfl
      · rcases waits with h | h <;> rw [runsMain] at h <;> cases h
      · rcases waits with h | h <;> rw [unused] at h <;> cases h
    have unusedU : u.stateOf i = .Unused := by rw [table]; exact unused
    obtain ⟨v, filled, sameV, -⟩ := api_step (.go none true) aliveU rfl left
    obtain ⟨p, free, readyP, -⟩ := gtGo_fills unusedU
    have slot : p = i := by
      refine (only p).resolve_left ?_
      rintro rfl
      rw [table, runsMain] at free
      cases free
    refine ⟨v, ⟨[.api .stop, .loop, .api (.go none true)], ?_⟩, ?_⟩
    · exact exec_cons_iff.mpr ⟨t, taken, exec_cons_iff.mpr ⟨u, looped, exec_cons_iff.mpr ⟨v, filled, rfl⟩⟩⟩
    · rw [congrArg Threads.toTable sameV, ← slot]
      exact readyP

theorem can_wake {s : Scheduler n} {i : Fin n} (sound : Sound s.toThreads) (blocked : s.stateOf i = .Blocked)
    (can : CanWake s i) : ∃ t, Reachable (step .cooperative) s t ∧ t.stateOf i = .Ready := by
  obtain ⟨here, able⟩ := can
  have alive : s.aborted = false := by
    by_contra ended
    have unused := sound.ended (by simpa using ended)
    rw [← here, blocked] at unused
    cases unused
  have free : ¬ InLoop s := fun inLoop => able ⟨inLoop.2, .inl (here.trans inLoop.1)⟩
  by_cases helper : s.inScheduler = true → s.stateOf 0 = .Ready → ∃ q, q ≠ 0 ∧ q ≠ i ∧ s.stateOf q = .Ready
  · exact wake_by_helper sound alive here free helper
  · -- The loop would find nothing ready, so the thread first makes some slot ready, or stops.
    push Not at helper
    obtain ⟨inside, ready, noHelper⟩ := helper
    have other : i ≠ 0 := fun main => able ⟨inside, .inl main⟩
    -- An operation that makes another slot ready gives a helper.
    have after : ∀ (op : Op n) (q : Fin n), isSignal op = false → q ≠ 0 → q ≠ i →
        (perform s.toThreads op).1.gtcur = s.gtcur → (perform s.toThreads op).1.aborted = false →
        (perform s.toThreads op).1.stateOf q = .Ready →
        ∃ t, Reachable (step .cooperative) s t ∧ t.stateOf i = .Ready := by
      intro op q untimed main own cur aliveT readyQ
      obtain ⟨t, taken, same, -⟩ := api_step _ alive untimed free
      rw [← same] at cur aliveT readyQ
      have freeT : ¬ InLoop t := fun inLoop => other ((here.trans cur.symm).trans inLoop.1)
      obtain ⟨u, onward, woken⟩ := wake_by_helper (step_sound s _ t sound taken) aliveT (here.trans cur.symm) freeT
        fun _ _ => ⟨q, main, own, readyQ⟩
      exact ⟨u, (Reachable.next ⟨[], rfl⟩ taken).trans onward, woken⟩
    by_cases alone : ∀ j, j = 0 ∨ j = i
    · exact wake_by_stopping sound alive here other inside ready alone
    · push Not at alone
      have notAll : ¬ ∀ j, j ≠ 0 → j ≠ i → s.stateOf j = .Blocked :=
        fun others => able ⟨inside, .inr ⟨ready, others, alone⟩⟩
      push Not at notAll
      obtain ⟨j, main, own, awake⟩ := notAll
      cases state : s.stateOf j with
      | Blocked => exact absurd state awake
      | Ready => exact absurd state (noHelper j main own)
      | Running => exact absurd ((sound.running j state).trans here.symm) own
      | Suspended =>
        refine after (.resume j) j rfl main own (gtResume_gtcur ..) alive ?_
        show (gtResume s.toTable j).stateOf j = .Ready
        rw [gtResume_stateOf, if_pos ⟨rfl, state⟩]
      | Unused =>
        obtain ⟨p, unused, readyP, cur, -⟩ := gtGo_fills state
        refine after (.go none true) p rfl ?_ ?_ cur alive readyP
        · rintro rfl
          rw [ready] at unused
          cases unused
        · rintro rfl
          rw [blocked] at unused
          cases unused

/-! ### Threads that call gt_manage_timers -/

theorem callStep_alone (s : Scheduler n) (c : Call n) (t : Scheduler n) {i : Fin n} (alone : LoopAlone s)
    (blocked : s.stateOf i = .Blocked) (taken : callStep s c = some t) : LoopAlone t ∧ t.stateOf i = .Blocked := by
  obtain ⟨inLoop, none⟩ := alone
  cases c with
  | manageTimers => simp [callStep, inLoop.1, inLoop.2] at taken
  | base a =>
    obtain ⟨-, ⟨op, -, free, -, -⟩ | ⟨-, outside, -⟩ | ⟨-, same, goesOn⟩⟩ := step_cases taken
    · exact absurd inLoop free
    · rw [inLoop.2] at outside
      cases outside
    · rcases loop_yield same goesOn with ⟨p, first, table, inside⟩ | ⟨-, table, -, still⟩
      · -- The loop can only switch to thread 0 itself.
        have ready : s.stateOf p = .Ready := first.1
        have main : p = 0 := by
          by_contra other
          exact none p other ready
        subst main
        have own : i ≠ 0 := by
          rintro rfl
          rw [blocked] at ready
          cases ready
        refine ⟨⟨⟨by rw [table]; rfl, inside⟩, ?_⟩, ?_⟩
        · intro r other
          rw [table, switchTo_stateOf, if_neg other, if_neg fun both => other (both.1.trans inLoop.1)]
          exact none r other
        · rw [table, switchTo_stateOf, if_neg own, if_neg fun both => own (both.1.trans inLoop.1)]
          exact blocked
      · rw [LoopAlone, InLoop, table]
        exact ⟨⟨⟨inLoop.1, still.mpr ⟨i, .inl blocked⟩⟩, none⟩, blocked⟩

theorem manageTimers_step {s : Scheduler n} {i : Fin n} (alive : s.aborted = false) (free : ¬ InLoop s)
    (blocked : s.stateOf i = .Blocked) (positive : 0 < (s.gttbl i).delayTicks) :
    ∃ t, callStep s .manageTimers = some t ∧ t.aborted = false ∧ ¬ InLoop t ∧
      t.gttbl i = if (s.gttbl i).delayTicks = 1 then { s.gttbl i with delayTicks := 0, threadState := .Ready }
        else { s.gttbl i with delayTicks := (s.gttbl i).delayTicks - 1 } := by
  have may : ¬ (s.aborted || (s.gtcur = 0 && s.inScheduler)) = true := by
    simpa [alive] using fun main inside => free ⟨main, inside⟩
  refine ⟨{ s with toTable := gtManageTimers s.toTable }, if_neg may, alive, ?_, ?_⟩
  · rintro ⟨main, inside⟩
    exact free ⟨by simpa using main, inside⟩
  · show (gtManageTimers s.toTable).gttbl i = _
    rw [gtManageTimers_gttbl, tick_counts blocked positive]

/-- A thread that can call `gt_manage_timers` calls it until the ticks have passed. -/
theorem timers_wake (ticks : ℕ) {s : Scheduler n} {i : Fin n} (alive : s.aborted = false) (free : ¬ InLoop s)
    (blocked : s.stateOf i = .Blocked) (left : (s.gttbl i).delayTicks = ticks + 1) :
    ∃ t, Reachable callStep s t ∧ t.stateOf i = .Ready := by
  obtain ⟨t, taken, aliveT, freeT, slot⟩ := manageTimers_step alive free blocked (by omega)
  have reached : Reachable callStep s t := Reachable.next ⟨[], rfl⟩ taken
  induction ticks generalizing s t with
  | zero =>
    refine ⟨t, reached, ?_⟩
    rw [Table.stateOf, slot, if_pos (by omega)]
  | succ ticks ih =>
    rw [if_neg (by omega)] at slot
    have blockedT : t.stateOf i = .Blocked := by
      rw [Table.stateOf, slot]
      exact blocked
    have leftT : (t.gttbl i).delayTicks = ticks + 1 := by
      rw [slot]
      simp only
      omega
    obtain ⟨u, next, aliveU, freeU, slotU⟩ := manageTimers_step aliveT freeT blockedT (by omega)
    obtain ⟨v, onward, ready⟩ := ih aliveT freeT blockedT leftT u next aliveU freeU slotU (Reachable.next ⟨[], rfl⟩ next)
    exact ⟨v, reached.trans onward, ready⟩

/-- Every step of the build is one with `gt_manage_timers` allowed. -/
theorem reachable_calls {s t : Scheduler n} (reached : Reachable (step .cooperative) s t) : Reachable callStep s t :=
  reachable_kept (fun _ a _ before taken => before.next (a := .base a) taken) ⟨[], rfl⟩ reached

theorem calls_wake {s : Scheduler n} {i : Fin n} (sound : Sound s.toThreads) (blocked : s.stateOf i = .Blocked)
    (alive : s.aborted = false) (helped : ¬ LoopAlone s) : ∃ t, Reachable callStep s t ∧ t.stateOf i = .Ready := by
  -- It is enough to reach a state in which a thread outside of the loop goes on.
  have enough : ∀ u, Reachable callStep s u → Sound u.toThreads → u.aborted = false → ¬ InLoop u →
      u.stateOf i = .Blocked → ∃ t, Reachable callStep s t ∧ t.stateOf i = .Ready := by
    intro u reached soundU aliveU freeU blockedU
    have positive := soundU.delayed i blockedU
    obtain ⟨t, onward, ready⟩ := timers_wake ((u.gttbl i).delayTicks - 1).toNat aliveU freeU blockedU (by omega)
    exact ⟨t, reached.trans onward, ready⟩
  by_cases inLoop : InLoop s
  · obtain ⟨q, main, ready⟩ : ∃ q, q ≠ 0 ∧ s.stateOf q = .Ready := by
      by_contra none
      push Not at none
      exact helped ⟨inLoop, none⟩
    by_cases own : s.stateOf 0 = .Ready
    · -- The first round of the loop selects thread 0 itself, the second one another thread.
      obtain ⟨t, taken, same, goesOn⟩ := loop_step alive inLoop
      have soundT := step_sound s .loop t sound taken
      rcases loop_yield same goesOn with ⟨p, first, table, inside⟩ | ⟨none, -⟩
      · have zero : p = 0 := by
          have least := first.2 0 own
          rw [inLoop.1, gap_self] at least
          exact gap_eq_zero.mp (by omega)
        subst zero
        have runs : t.stateOf 0 = .Running := by rw [table, switchTo_stateOf, if_pos rfl]
        have cur : t.gtcur = 0 := by rw [table]; rfl
        have others : ∀ r, r ≠ 0 → t.stateOf r = s.stateOf r := by
          intro r other
          rw [table, switchTo_stateOf, if_neg other, if_neg fun both => other (both.1.trans inLoop.1)]
        have aliveT : t.aborted = false := by
          by_contra ended
          have gone := soundT.ended (by simpa using ended)
          rw [cur, runs] at gone
          cases gone
        have away : i ≠ 0 := by
          rintro rfl
          rw [blocked] at own
          cases own
        obtain ⟨u, next, aliveU, freeU, keeps⟩ := loop_hands_over soundT aliveT ⟨cur, inside⟩ (by rw [runs]; simp)
          ((others q main).trans ready)
        have stays : t.stateOf i = .Blocked := (others i away).trans blocked
        refine enough u ?_ (step_sound t .loop u soundT next) aliveU freeU ((keeps i (.inl stays)).trans stays)
        exact reachable_calls ⟨[.loop, .loop], exec_cons_iff.mpr ⟨t, taken, exec_cons_iff.mpr ⟨u, next, rfl⟩⟩⟩
      · exact absurd own (none 0)
    · obtain ⟨u, next, aliveU, freeU, keeps⟩ := loop_hands_over sound alive inLoop own ready
      refine enough u ?_ (step_sound s .loop u sound next) aliveU freeU ((keeps i (.inl blocked)).trans blocked)
      exact reachable_calls ⟨[.loop], exec_cons_iff.mpr ⟨u, next, rfl⟩⟩
  · exact enough s ⟨[], rfl⟩ sound alive inLoop blocked

/-- When a slot that is blocked can be made ready again in the cooperative build. From
    a state that is reachable from `gt_init`: only if its thread has gone on, as
    `CanWake` says, and so never for a thread that was switched out. When the threads
    may call `gt_manage_timers` themselves: unless the program has ended or only the
    loop of `gt_start_scheduler` is left. -/
theorem delayed_ready_again (i : Fin n) :
    (∀ s, Reachable (step .cooperative) (start n) s → s.stateOf i = .Blocked →
        ((∃ t, Reachable (step .cooperative) s t ∧ t.stateOf i = .Ready) ↔ CanWake s i)) ∧
      (∀ s, Reachable callStep (start n) s → s.stateOf i = .Blocked →
        ((∃ t, Reachable callStep s t ∧ t.stateOf i = .Ready) ↔ s.aborted = false ∧ ¬ LoopAlone s)) := by
  constructor
  · intro s reached blocked
    have sound : Sound s.toThreads := reachable_kept step_sound start_sound reached
    refine ⟨?_, can_wake sound blocked⟩
    rintro ⟨t, onward, ready⟩
    by_contra unable
    have lost : Lost s i := by
      by_cases here : i = s.gtcur
      · have inside : s.inScheduler = true ∧ (i = 0 ∨ (s.stateOf 0 = .Ready ∧
            (∀ j, j ≠ 0 → j ≠ i → s.stateOf j = .Blocked) ∧ ∃ j, j ≠ 0 ∧ j ≠ i)) := by
          by_contra able
          exact unable ⟨here, able⟩
        by_cases main : i = 0
        · exact .mainBlocked ⟨here.symm.trans main, inside.1⟩ main blocked
        · obtain ⟨readyMain, others, some⟩ := inside.2.resolve_left main
          exact .handsOver here inside.1 main blocked readyMain others some
      · exact .switchedOut here blocked
    have still : Lost t i := reachable_kept (fun s a t => step_lost s a t) lost onward
    exact still.not_ready ready
  · intro s reached blocked
    have sound : Sound s.toThreads := reachable_kept callStep_sound start_sound reached
    refine ⟨?_, fun able => calls_wake sound blocked able.1 able.2⟩
    rintro ⟨t, ⟨calls, run⟩, ready⟩
    constructor
    · -- After the assertion has failed there is no step, and the slot is blocked.
      by_contra ended
      cases calls with
      | nil =>
        cases run
        rw [blocked] at ready
        cases ready
      | cons c rest =>
        obtain ⟨u, taken, -⟩ := exec_cons_iff.mp run
        cases c with
        | base a => exact ended (step_cases taken).1
        | manageTimers => simp [callStep, ended] at taken
    · intro alone
      have still : LoopAlone t ∧ t.stateOf i = .Blocked := exec_kept
        (fun s c t both => callStep_alone s c t both.1 both.2) ⟨alone, blocked⟩ run
      rw [still.2] at ready
      cases ready

/-- Thread 0 delays itself before any other thread exists, and goes on. -/
theorem delayed_ready_again_sample :
    ∃ s : Scheduler 5, exec (step .cooperative) (start 5) [.api (.delay 10)] = some s ∧ s.stateOf 0 = .Blocked ∧
      ∃ t, Reachable (step .cooperative) s t ∧ t.stateOf 0 = .Ready := by
  have ends : (exec (step .cooperative) (start 5) [.api (.delay 10)]).map (fun s => (s.gtcur, s.inScheduler, s.stateOf 0)) =
      some (0, false, .Blocked) := by decide
  obtain ⟨s, run, seen⟩ := Option.map_eq_some_iff.mp ends
  obtain ⟨cur, inside, blocked⟩ : s.gtcur = 0 ∧ s.inScheduler = false ∧ s.stateOf 0 = .Blocked := by simpa using seen
  have able : CanWake s 0 := ⟨cur.symm, fun both => by rw [inside] at both; cases both.1⟩
  exact ⟨s, run, blocked, ((delayed_ready_again 0).1 s ⟨_, run⟩ blocked).mpr able⟩

/-- Thread 1 is created and delays itself while thread 0 is in the loop: whatever
    follows, the slot is not ready again, also when `gt_manage_timers` may be called. -/
theorem delayed_lost :
    ∃ s : Scheduler 5, exec (step .cooperative) (start 5)
        [.api (.go none true), .startScheduler, .loop, .api (.delay 10)] = some s ∧
      s.stateOf 1 = .Blocked ∧ (s.gttbl 1).delayTicks = 1 ∧
      (∀ t, Reachable (step .cooperative) s t → t.stateOf 1 ≠ .Ready) ∧
      ∀ t, Reachable callStep s t → t.stateOf 1 ≠ .Ready := by
  have ends : (exec (step .cooperative) (start 5)
      [.api (.go none true), .startScheduler, .loop, .api (.delay 10)]).map (fun s => (s.gtcur, s.inScheduler,
        List.ofFn s.stateOf, (s.gttbl 1).delayTicks)) =
      some (0, true, [.Running, .Blocked, .Unused, .Unused, .Unused], 1) := by decide
  obtain ⟨s, run, seen⟩ := Option.map_eq_some_iff.mp ends
  simp only [Prod.mk.injEq, List.ofFn_succ, List.ofFn_zero, List.cons.injEq, and_true] at seen
  obtain ⟨cur, inside, ⟨running, blocked, second, third, fourth⟩, ticks⟩ := seen
  have blocked : s.stateOf 1 = .Blocked := blocked
  have alone : LoopAlone s := by
    refine ⟨⟨cur, inside⟩, ?_⟩
    intro r other
    have each : ∀ r : Fin 5, r ≠ 0 → r = 1 ∨ r = 2 ∨ r = 3 ∨ r = 4 := by decide
    rcases each r other with rfl | rfl | rfl | rfl
    · rw [blocked]; simp
    · rw [show s.stateOf 2 = .Unused from second]; simp
    · rw [show s.stateOf 3 = .Unused from third]; simp
    · rw [show s.stateOf 4 = .Unused from fourth]; simp
  have lost : Lost s 1 := .switchedOut (by rw [cur]; decide) blocked
  refine ⟨s, run, blocked, ticks, ?_, ?_⟩
  · intro t onward
    have still : Lost t 1 := reachable_kept (fun s a t => step_lost s a t) lost onward
    exact still.not_ready
  · intro t onward ready
    have still : LoopAlone t ∧ t.stateOf 1 = .Blocked := reachable_kept
      (fun s c t both => callStep_alone s c t both.1 both.2) ⟨alone, blocked⟩ onward
    rw [still.2] at ready
    cases ready

end

end OsyProg.Cooperative
