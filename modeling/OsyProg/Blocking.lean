import OsyProg.ThreadRuns

/-!
The blocking calls `gt_suspend` and `gt_delay`, made by any thread. Both ignore
the result of `gt_yield`, so a call made when no other slot is ready returns at
once while its slot is suspended or blocked (`suspend_returns_alone`,
`blocks_iff`). When every such call is made while some other slot is ready, no
thread goes on while it sleeps, and a call returns only after its slot was woken
(`blocking_calls`).
-/
namespace OsyProg.Blocking
open OsyProg.Cyclic OsyProg.Gthreads OsyProg.Runs OsyProg.ThreadRuns

/-- The two ways in which a thread puts itself to sleep. -/
inductive Sleep
  | suspended | delayed
  deriving DecidableEq

/-- The state of a slot that sleeps. -/
def Sleep.state : Sleep → ThreadState
  | .suspended => .Suspended
  | .delayed => .Blocked

/-- How an operation puts the current thread to sleep. -/
def sleepOf {n : ℕ} : Op n → Option Sleep
  | .suspend => some .suspended
  | .delay tMs => if tMs ≤ 0 then none else some .delayed
  | _ => none

section
variable {n : ℕ} [NeZero n]

/-- A thread puts itself to sleep only while another slot is ready. -/
def OtherReady (s : Threads n) (op : Op n) : Prop :=
  (sleepOf op).isSome → ∃ j, j ≠ s.gtcur ∧ s.stateOf j = .Ready

instance (s : Threads n) (op : Op n) : Decidable (OtherReady s op) := inferInstanceAs (Decidable (_ → _))

/-- The operation wakes slot `c`: `gt_resume` a suspended one, the timers one whose
    delay has its last tick left. -/
def Wakes (u : Threads n) (op : Op n) (c : Fin n) : Sleep → Prop
  | .suspended => op = .resume c ∧ u.stateOf c = .Suspended
  | .delayed => op = .sigHandle ∧ u.stateOf c = .Blocked ∧ (u.gttbl c).delayTicks = 1

/-- One of the operations, in the state in which it is taken, wakes slot `c`. -/
def WokenDuring (u : Threads n) (during : List (Op n)) (c : Fin n) (sleep : Sleep) : Prop :=
  ∃ before op after v, during = before ++ op :: after ∧ exec step u before = some v ∧ Wakes v op c sleep

/-- The call that put slot `c` to sleep and left `u` returns at the end of the
    given operations: slot `c` is current then, for the first time. -/
def ReturnsAfter (u : Threads n) (during : List (Op n)) (t : Threads n) (c : Fin n) : Prop :=
  exec step u during = some t ∧ t.gtcur = c ∧
    ∀ before after v, during = before ++ after → after ≠ [] → exec step u before = some v → v.gtcur ≠ c

/-! ### The current thread is awake -/

/-- Only the current slot is running, and it is, unless the assertion in `gt_stop`
    has ended the program. -/
structure Awake (s : Threads n) : Prop where
  running : ∀ i, s.stateOf i = .Running → i = s.gtcur
  current : s.stateOf s.gtcur = .Running ∨ (s.aborted = true ∧ s.stateOf s.gtcur = .Unused)

omit [NeZero n] in
theorem switchTo_awake {s : Table n} (running : ∀ i, s.stateOf i = .Running → i = s.gtcur) (p i : Fin n)
    (runs : (switchTo s p).stateOf i = .Running) : i = p := by
  rw [switchTo_stateOf] at runs
  by_contra other
  rw [if_neg other] at runs
  by_cases old : i = s.gtcur ∧ s.stateOf i = .Running
  · rw [if_pos old] at runs; cases runs
  · rw [if_neg old] at runs
    exact old ⟨running i runs, runs⟩

/-- Before its `gt_yield` no operation makes another slot run. -/
theorem calls_running {s : Threads n} {m : Table n} {op : Op n} {here : Frame}
    (running : ∀ i, s.stateOf i = .Running → i = s.gtcur) (made : calls s.toTable op = some (here, m)) (i : Fin n)
    (runs : m.stateOf i = .Running) : i = s.gtcur := by
  by_contra other
  rcases (calls_other made).2 i other with same | ⟨-, -, -, ready⟩
  · exact other (running i (same ▸ runs))
  · rw [ready] at runs; cases runs

/-- In the table that `gt_yield` finds, the current slot sleeps only when the operation
    put it to sleep. -/
theorem calls_awake {s : Threads n} {m : Table n} {op : Op n} {here : Frame}
    (current : s.stateOf s.gtcur = .Running) (made : calls s.toTable op = some (here, m)) :
    m.stateOf s.gtcur = .Running ∨ (here = .stop ∧ m.stateOf s.gtcur = .Unused) ∨ (sleepOf op).isSome := by
  rcases calls_cases made with ⟨-, -, rfl⟩ | ⟨-, rfl, -, rfl⟩ | ⟨rfl, -, -⟩ | ⟨tMs, rfl, -, long, -⟩ | ⟨-, -, rfl⟩
  · exact .inl current
  · exact .inr (.inl ⟨rfl, by rw [Table.setState_stateOf, if_pos rfl]⟩)
  · exact .inr (.inr rfl)
  · have long : ¬ tMs ≤ 0 := by omega
    exact .inr (.inr (by simp [sleepOf, long]))
  · exact .inl ((gtManageTimers_stateOf_eq s.toTable _ (by simp [current])).trans current)

theorem step_awake (s : Threads n) (op : Op n) (t : Threads n) (awake : Awake s) (ready : OtherReady s op)
    (taken : step s op = some t) : Awake t := by
  obtain ⟨running, current⟩ := awake
  obtain ⟨alive, rfl⟩ := step_cases taken
  have runs : s.stateOf s.gtcur = .Running := current.resolve_right fun ended => by simp [alive] at ended
  rcases perform_cases s op with ⟨-, table, -, aborted, -⟩ | ⟨tName, p, unused, same⟩ | ⟨tId, -, same⟩ |
    ⟨here, m, p, made, first, same⟩ | ⟨here, m, made, none, same⟩
  · exact ⟨table ▸ running, table ▸ .inl runs⟩
  · rw [same]
    have elsewhere : s.gtcur ≠ p := fun here => by rw [here, unused] at runs; cases runs
    refine ⟨?_, .inl ?_⟩
    · intro i
      rw [Table.stateOf, Table.set_gttbl]
      split
      next => exact fun h => by cases h
      next => exact running i
    · rw [Table.stateOf, Table.set_gttbl, Table.set_gtcur, if_neg elsewhere]
      exact runs
  · rw [same]
    refine ⟨?_, .inl ?_⟩
    · intro i
      rw [gtResume_stateOf, gtResume_gtcur]
      split
      next => exact fun h => by cases h
      next => exact running i
    · rw [gtResume_stateOf, gtResume_gtcur, if_neg fun both => by simp [runs] at both]
      exact runs
  · have only := calls_running running made
    rw [same]
    refine ⟨switchTo_awake (by rw [(calls_other made).1]; exact only) p, .inl ?_⟩
    rw [switchTo_stateOf, switchTo_gtcur, if_pos rfl]
  · have only := calls_running running made
    have states := calls_awake runs made
    have curM := (calls_other made).1
    rw [same]
    refine ⟨by rw [curM]; exact only, ?_⟩
    rw [curM]
    rcases states with still | ⟨stops, unused⟩ | sleeps
    · exact .inl still
    · exact .inr ⟨by simp [stops], unused⟩
    · -- The other slot that is ready is seen by the scan.
      obtain ⟨j, other, readyJ⟩ := ready sleeps
      exact absurd ((calls_keeps made other (by simp [readyJ])).trans readyJ) (none j)

theorem start_awake : Awake (start n) :=
  ⟨start_invariant.table.running, .inl start_invariant.current⟩

/-! ### The sleeping slot -/

/-- A slot that sleeps while another is current stays asleep until it is woken, and
    then ready until it is selected. -/
theorem sleep_step {u v : Threads n} {op : Op n} {c : Fin n} {sleep : Sleep} {woken : Prop}
    (other : u.gtcur ≠ c) (sleeps : u.stateOf c = sleep.state ∨ (u.stateOf c = .Ready ∧ woken))
    (taken : step u op = some v) :
    (v.gtcur ≠ c ∧ (v.stateOf c = sleep.state ∨ (v.stateOf c = .Ready ∧ (woken ∨ Wakes u op c sleep)))) ∨
      (v.gtcur = c ∧ v.stateOf c = .Running ∧ (woken ∨ Wakes u op c sleep)) := by
  obtain ⟨-, rfl⟩ := step_cases taken
  have stays : u.stateOf c = sleep.state ∨ (u.stateOf c = .Ready ∧ (woken ∨ Wakes u op c sleep)) :=
    sleeps.imp_right fun ready => ⟨ready.1, .inl ready.2⟩
  have used : u.stateOf c ≠ .Unused := by
    rcases sleeps with h | h
    · rw [h]; cases sleep <;> simp [Sleep.state]
    · rw [h.1]; simp
  -- What the call of `gt_yield` finds in slot `c`.
  have found : ∀ here m, calls u.toTable op = some (here, m) →
      m.stateOf c = sleep.state ∨ (m.stateOf c = .Ready ∧ (woken ∨ Wakes u op c sleep)) := by
    intro here m made
    rcases (calls_other made).2 c (Ne.symm other) with same | ⟨signal, blocked, last, ready⟩
    · rw [same]; exact stays
    · refine .inr ⟨ready, ?_⟩
      rcases sleeps with h | h
      · rw [blocked] at h
        cases sleep with
        | suspended => cases h
        | delayed => exact .inr ⟨signal, blocked, last⟩
      · exact .inl h.2
  rcases perform_cases u op with ⟨-, table, -⟩ | ⟨tName, p, unused, same⟩ | ⟨tId, resumes, same⟩ |
    ⟨here, m, p, made, first, same⟩ | ⟨here, m, made, -, same⟩
  · exact .inl ⟨table ▸ other, table ▸ stays⟩
  · have elsewhere : c ≠ p := fun here => used (here ▸ unused)
    rw [same, Table.stateOf, Table.set_gttbl, if_neg elsewhere]
    exact .inl ⟨other, stays⟩
  · rw [same, gtResume_stateOf]
    refine .inl ⟨by simpa using other, ?_⟩
    split
    next wakes =>
      refine .inr ⟨rfl, ?_⟩
      rcases sleeps with h | h
      · rw [wakes.2] at h
        cases sleep with
        | suspended => exact .inr ⟨by rw [resumes, wakes.1], wakes.2⟩
        | delayed => cases h
      · exact .inl h.2
    next => exact stays
  · rw [same, switchTo_gtcur, switchTo_stateOf]
    by_cases selected : p = c
    · subst selected
      refine .inr ⟨rfl, if_pos rfl, ?_⟩
      rcases found here m made with h | h
      · have ready : m.stateOf p = .Ready := first.1
        rw [ready] at h
        cases sleep <;> cases h
      · exact h.2
    · have away : ¬ (c = m.gtcur ∧ m.stateOf c = .Running) := fun both => other ((calls_other made).1.symm.trans both.1.symm)
      rw [if_neg (Ne.symm selected), if_neg away]
      exact .inl ⟨selected, found here m made⟩
  · rw [same, (calls_other made).1]
    exact .inl ⟨other, found here m made⟩

/-- A sleeping slot is selected again only after it was woken. -/
theorem sleep_run {during : List (Op n)} {u t : Threads n} {c : Fin n} {sleep : Sleep} {woken : Prop}
    (other : u.gtcur ≠ c) (sleeps : u.stateOf c = sleep.state ∨ (u.stateOf c = .Ready ∧ woken))
    (returns : ReturnsAfter u during t c) : t.stateOf c = .Running ∧ (woken ∨ WokenDuring u during c sleep) := by
  obtain ⟨run, back, earlier⟩ := returns
  induction during generalizing u woken with
  | nil => cases run; exact absurd back other
  | cons op rest ih =>
    obtain ⟨v, taken, onward⟩ := exec_cons_iff.mp run
    -- A waking later in the run, or by this operation, is one during the whole run.
    have later : WokenDuring v rest c sleep → WokenDuring u (op :: rest) c sleep := by
      rintro ⟨before, wake, after, w, rfl, reached, wakes⟩
      exact ⟨op :: before, wake, after, w, rfl, exec_cons_iff.mpr ⟨v, taken, reached⟩, wakes⟩
    have now : Wakes u op c sleep → WokenDuring u (op :: rest) c sleep := fun wakes => ⟨[], op, rest, u, rfl, rfl, wakes⟩
    rcases sleep_step other sleeps taken with ⟨away, still⟩ | ⟨here, runs, wakes⟩
    · obtain ⟨runs, wakes⟩ := ih away still onward fun before after w split nonempty reached =>
        earlier (op :: before) after w (by rw [split]; rfl) nonempty (exec_cons_iff.mpr ⟨v, taken, reached⟩)
      exact ⟨runs, wakes.elim (fun h => h.imp_right now) fun h => .inr (later h)⟩
    · cases rest with
      | nil => cases onward; exact ⟨runs, wakes.imp_right now⟩
      | cons next more =>
        exact absurd here (earlier [op] (next :: more) v rfl (by simp) (exec_cons_iff.mpr ⟨v, taken, rfl⟩))

/-- A call that puts the current thread to sleep leaves its slot asleep and switches
    when another slot is ready, and goes on at once when none is. -/
theorem perform_sleep {s : Threads n} {op : Op n} {sleep : Sleep} (puts : sleepOf op = some sleep) :
    (perform s op).1.stateOf s.gtcur = sleep.state ∧
      ((perform s op).1.gtcur ≠ s.gtcur ↔ ∃ j, j ≠ s.gtcur ∧ s.stateOf j = .Ready) := by
  obtain ⟨here, m, made, asleep⟩ : ∃ here m, calls s.toTable op = some (here, m) ∧ m.stateOf s.gtcur = sleep.state := by
    cases op with
    | suspend => cases puts; exact ⟨_, _, rfl, by rw [Table.setState_stateOf, if_pos rfl]; rfl⟩
    | delay tMs =>
      by_cases short : tMs ≤ 0
      · simp [sleepOf, short] at puts
      · simp only [sleepOf, if_neg short, Option.some.injEq] at puts
        subst puts
        exact ⟨.delay, block s.toTable (delayOf tMs), if_neg short, by rw [block_stateOf, if_pos rfl]; rfl⟩
    | yield | stop | sigHandle | go | resume => cases puts
  have cur := (calls_other made).1
  have notSignal : op ≠ .sigHandle := by rintro rfl; cases puts
  have elsewhere : ∀ j, j ≠ s.gtcur → m.stateOf j = s.stateOf j :=
    fun j other => ((calls_other made).2 j other).resolve_right fun wakes => notSignal wakes.1
  have notReady : m.stateOf s.gtcur ≠ .Ready := by rw [asleep]; cases sleep <;> simp [Sleep.state]
  have notRunning : m.stateOf s.gtcur ≠ .Running := by rw [asleep]; cases sleep <;> simp [Sleep.state]
  rw [perform_calls made]
  rcases gtYield_cases m with ⟨p, first, yields⟩ | ⟨none, yields⟩
  · have away : p ≠ s.gtcur := fun same => notReady (same ▸ first.1)
    rw [yields, goOn_switched]
    refine ⟨?_, fun _ => ⟨p, away, (elsewhere p away).symm.trans first.1⟩, fun _ => away⟩
    rw [switchTo_stateOf, if_neg (Ne.symm away), if_neg fun both => notRunning both.2, asleep]
  · rw [yields, goOn_stayed _ _ _ (by simp only; omega)]
    refine ⟨asleep, fun moves => absurd cur moves, ?_⟩
    rintro ⟨j, other, ready⟩
    exact absurd ((elsewhere j other).trans ready) (none j)

/-- A blocking call is safe exactly when another slot is ready: otherwise its thread
    goes on while its slot sleeps. -/
theorem blocks_iff {s : Threads n} {op : Op n} {sleep : Sleep} (awake : Awake s) (alive : s.aborted = false)
    (puts : sleepOf op = some sleep) :
    (perform s op).1.stateOf (perform s op).1.gtcur = .Running ↔ OtherReady s op := by
  obtain ⟨asleep, moves⟩ := perform_sleep (s := s) puts
  constructor
  · intro runs _
    apply moves.mp
    intro back
    rw [back, asleep] at runs
    cases sleep <;> cases runs
  · intro ready
    have taken : step s op = some (perform s op).1 := by simp [step, alive]
    have after := step_awake s op _ awake ready taken
    apply after.current.resolve_right
    intro ended
    have away := moves.mpr (ready (by simp [puts]))
    rcases perform_cases s op with ⟨-, table, -⟩ | ⟨_, p, -, same⟩ | ⟨_, -, same⟩ | ⟨_, _, p, -, -, same⟩ | ⟨_, m, made, -, same⟩
    · exact away (by rw [table])
    · rw [same] at away; exact away rfl
    · rw [same] at away; exact away (by simp)
    · rw [same, switchTo_stateOf, switchTo_gtcur, if_pos rfl] at ended
      cases ended.2
    · rw [same] at away; exact away (calls_other made).1

/-- In every run, by any threads, whose blocking calls are made while another slot
    is ready: the thread that goes on does not sleep, and a blocking call returns
    with its slot running, after that slot was woken. -/
theorem blocking_calls {ops : List (Op n)} {t : Threads n} (meets : AllSteps step OtherReady (start n) ops)
    (run : exec step (start n) ops = some t) :
    (t.stateOf t.gtcur ≠ .Suspended ∧ t.stateOf t.gtcur ≠ .Blocked) ∧
      ∀ before op during s u sleep, ops = before ++ op :: during → exec step (start n) before = some s →
        step s op = some u → sleepOf op = some sleep → ReturnsAfter u during t s.gtcur →
        t.stateOf s.gtcur = .Running ∧ WokenDuring u during s.gtcur sleep := by
  constructor
  · have awake := exec_kept_of (fun s op t => step_awake s op t) start_awake meets run
    rcases awake.current with runs | ⟨-, unused⟩
    · simp [runs]
    · simp [unused]
  · rintro before op during s u sleep rfl reached taken puts returns
    have ready := ((allSteps_append.mp meets).2 s reached).1
    have performed := (step_cases taken).2
    obtain ⟨asleep, moves⟩ := perform_sleep (s := s) puts
    rw [performed] at asleep moves
    have sleeps : u.stateOf s.gtcur = sleep.state ∨ (u.stateOf s.gtcur = .Ready ∧ False) := .inl asleep
    obtain ⟨runs, wakes⟩ := sleep_run (moves.mpr (ready (by simp [puts]))) sleeps returns
    exact ⟨runs, wakes.resolve_left id⟩

/-- A thread waits for two ticks while thread 0 runs, and is selected again. -/
theorem blocking_calls_sample :
    ∃ t : Threads 5, exec step (start 5) [.go none true, .yield, .delay 20, .sigHandle, .sigHandle] = some t ∧
      t.gtcur = 1 ∧ t.stateOf t.gtcur ≠ .Blocked := by
  have meets : AllSteps step OtherReady (start 5) [.go none true, .yield, .delay 20, .sigHandle, .sigHandle] := by
    decide
  have ends : (exec step (start 5) [.go none true, .yield, .delay 20, .sigHandle, .sigHandle]).map
      (fun t => t.gtcur) = some 1 := by decide
  obtain ⟨t, run, last⟩ := Option.map_eq_some_iff.mp ends
  exact ⟨t, run, last, (blocking_calls meets run).1.2⟩

/-- Thread 0 suspends itself before it has created a thread: `gt_suspend` returns at
    once, and thread 0 goes on while its slot is suspended. -/
theorem suspend_returns_alone :
    (step (start 5) .suspend).map (fun t => (t.gtcur, t.stateOf t.gtcur, t.aborted)) = some (0, .Suspended, false) ∧
      (perform (start 5) .suspend).2 = some (.suspend, -1) := by
  decide

end

end OsyProg.Blocking
