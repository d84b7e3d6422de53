import OsyProg.ThreadRuns

/-!
`gt_start_scheduler` in both builds. The preemptive loop watches
`g_gt_yield_status`, which every frame of `gt_sig_handle` writes when its
`gt_yield` returns; the cooperative loop calls `gt_yield` itself. A zero is
written, or returned, only when thread 0 is current and every other slot is
unused (`nothing_left`). The flag is not set again on entry, so a second call of
the preemptive scheduler leaves its loop at once (`scheduler_abandons`); when it
is entered with the flag set, or with nothing to run, no thread is left behind
(`scheduler_complete`).
-/
namespace OsyProg.SchedulerLoop
open OsyProg.Cyclic OsyProg.Gthreads OsyProg.Runs OsyProg.ThreadRuns

/-- The threads, `g_gt_yield_status`, and whether thread 0 is in the loop of
    `gt_start_scheduler`. -/
structure Scheduler (n : ℕ) extends Threads n where
  yieldStatus : ℤ
  inScheduler : Bool

/-- An operation of the running thread or the timer signal, the entry of
    `gt_start_scheduler`, and one round of its loop. -/
inductive Action (n : ℕ)
  | api (op : Op n)
  | startScheduler
  | loop

/-- The timer signal is the only operation that does not come from the running
    thread. -/
def isSignal {n : ℕ} : Op n → Bool
  | .sigHandle => true
  | _ => false

section
variable {n : ℕ} [NeZero n]

/-- Which operations can happen: the timer runs from `gt_sig_start` to
    `gt_sig_stop`, and thread 0 calls nothing else while it is in the loop. -/
def enabled (b : Build) (s : Scheduler n) (op : Op n) : Bool :=
  if isSignal op then b = .preemptive && s.inScheduler else !(s.gtcur = 0 && s.inScheduler)

/-- `g_gt_yield_status` after an operation: written when the frame that goes on is
    one of `gt_sig_handle`. -/
def statusAfter (yieldStatus : ℤ) : Option (Frame × ℤ) → ℤ
  | some (.handler, result) => result
  | _ => yieldStatus

def step (b : Build) (s : Scheduler n) : Action n → Option (Scheduler n)
  | .api op =>
    if s.aborted || !enabled b s op then none
    else
      let (t, back) := perform s.toThreads op
      some { s with toThreads := t, yieldStatus := statusAfter s.yieldStatus back }
  | .startScheduler =>
    if s.aborted || s.inScheduler || s.gtcur ≠ 0 then none else some { s with inScheduler := true }
  | .loop =>
    if s.aborted || !s.inScheduler || s.gtcur ≠ 0 then none
    else
      match b with
      | .preemptive => some { s with inScheduler := s.yieldStatus ≠ 0 }
      | .cooperative =>
        let (t, back) := perform s.toThreads .yield
        some { s with toThreads := t, inScheduler := (back.map Prod.snd) ≠ some 0 }

/-- The state `gt_init` leaves; `g_gt_yield_status` is initially 1. -/
def start (n : ℕ) [NeZero n] : Scheduler n :=
  { toThreads := ThreadRuns.start n, yieldStatus := 1, inScheduler := false }

/-- Every slot but the first is unused. -/
def NothingLeft (s : Table n) : Prop := ∀ i, i ≠ 0 → s.stateOf i = .Unused

instance (s : Table n) : Decidable (NothingLeft s) := inferInstanceAs (Decidable (∀ _, _))

/-- Thread 0 does not block itself. -/
def Free (s : Scheduler n) : Action n → Prop
  | .api op => MainNeverBlocks s.toThreads op
  | _ => True

instance (s : Scheduler n) : ∀ a : Action n, Decidable (Free s a)
  | .api op => inferInstanceAs (Decidable (MainNeverBlocks s.toThreads op))
  | .startScheduler => isTrue trivial
  | .loop => isTrue trivial

/-- The preemptive scheduler is entered with `g_gt_yield_status` set, or when no
    other slot is in use. -/
def EntryOk (b : Build) (s : Scheduler n) : Action n → Prop
  | .startScheduler => b = .cooperative ∨ s.yieldStatus ≠ 0 ∨ NothingLeft s.toTable
  | _ => True

instance (b : Build) (s : Scheduler n) : ∀ a : Action n, Decidable (EntryOk b s a)
  | .api _ => isTrue trivial
  | .startScheduler => inferInstanceAs (Decidable (_ ∨ _))
  | .loop => isTrue trivial

/-! ### When a yield returns zero -/

/-- A yield that finds no ready slot and counts no waiting one is called by thread
    0 when every other slot is unused. -/
theorem nothing_left {m : Table n} (ok : TableOk m) (none : ∀ r, m.stateOf r ≠ .Ready)
    (zero : -((Finset.univ.filter (Waiting m)).card : ℤ) = 0) : m.gtcur = 0 ∧ NothingLeft m := by
  have main : m.gtcur = 0 := by
    by_contra other
    exact none 0 (ok.main_ready other)
  refine ⟨main, ?_⟩
  intro i other
  have still : ¬ Waiting m i := by
    have empty : Finset.univ.filter (Waiting m) = ∅ := Finset.card_eq_zero.mp (by omega)
    have := Finset.filter_eq_empty_iff.mp empty
    exact this (Finset.mem_univ i)
  cases state : m.stateOf i with
  | Unused => rfl
  | Running => exact absurd ((ok.running i state).trans main) other
  | Ready => exact absurd state (none i)
  | Blocked => exact absurd (Or.inl state) still
  | Suspended => exact absurd (Or.inr state) still

/-- An operation whose frame that goes on sees a zero leaves every slot but the
    first unused. -/
theorem perform_zero {s : Threads n} {op : Op n} {back : Frame} (inv : Invariant s) (free : MainNeverBlocks s op)
    (zero : (perform s op).2 = some (back, 0)) :
    (perform s op).1.gtcur = 0 ∧ NothingLeft (perform s op).1.toTable := by
  rcases perform_cases s op with ⟨-, -, -, -, quiet⟩ | ⟨_, _, -, same⟩ | ⟨_, -, same⟩ |
    ⟨here, m, p, -, -, same⟩ | ⟨here, m, made, none, same⟩
  · rw [quiet] at zero; cases zero
  · rw [same] at zero; cases zero
  · rw [same] at zero; cases zero
  · rw [same] at zero; cases zero
  · rw [same] at zero ⊢
    have ok := (calls_ok inv.table inv.current free made).1
    simp only [Option.some.injEq, Prod.mk.injEq] at zero
    exact nothing_left ok none zero.2

/-- The timer signal finds nothing to run when every other slot is unused. -/
theorem sigHandle_alone {s : Threads n} (inv : Invariant s) (main : s.gtcur = 0) (alone : NothingLeft s.toTable) :
    (perform s .sigHandle).2 = some (.handler, 0) := by
  have states : ∀ i, (gtManageTimers s.toTable).stateOf i = s.stateOf i := by
    intro i
    apply gtManageTimers_stateOf_eq
    by_cases zero : i = 0
    · have := inv.current
      rw [main] at this
      rw [zero, this]; simp
    · rw [alone i zero]; simp
  have each : ∀ i, s.stateOf i = .Running ∨ s.stateOf i = .Unused := by
    intro i
    by_cases zero : i = 0
    · exact .inl (by rw [zero, ← main]; exact inv.current)
    · exact .inr (alone i zero)
  have performed := perform_calls (show calls s.toTable .sigHandle = some _ from rfl)
  rcases gtYield_cases (gtManageTimers s.toTable) with ⟨p, first, -⟩ | ⟨-, yields⟩
  · have ready := (states p).symm.trans first.1
    rcases each p with h | h <;> simp [h] at ready
  · have empty : Finset.univ.filter (Waiting (gtManageTimers s.toTable)) = ∅ := by
      rw [Finset.filter_eq_empty_iff]
      intro i _ waits
      rw [Waiting, states] at waits
      rcases each i with h | h <;> simp [h] at waits
    rw [empty] at yields
    rw [performed, yields]
    rfl

/-! ### What every step keeps -/

/-- The invariant of the threads, and: when the loop of the preemptive scheduler
    is about to see a zero, nothing is left to run. -/
structure Good (b : Build) (s : Scheduler n) : Prop where
  threads : Invariant s.toThreads
  quiet : b = .preemptive → s.inScheduler = true → s.yieldStatus = 0 → s.gtcur = 0 ∧ NothingLeft s.toTable

theorem api_some {b : Build} {s t : Scheduler n} {op : Op n} (taken : step b s (.api op) = some t) :
    s.aborted = false ∧ enabled b s op = true ∧
      t = { s with toThreads := (perform s.toThreads op).1,
                   yieldStatus := statusAfter s.yieldStatus (perform s.toThreads op).2 } := by
  simp only [step] at taken
  split at taken
  next => cases taken
  next may =>
    simp only [Bool.or_eq_true, Bool.not_eq_true', not_or, Bool.not_eq_true, Bool.not_eq_false] at may
    exact ⟨may.1, may.2, (Option.some.inj taken).symm⟩

theorem perform_invariant {s : Threads n} {op : Op n} (inv : Invariant s) (free : MainNeverBlocks s op) :
    Invariant (perform s op).1 :=
  step_invariant s op _ inv free (by simp [ThreadRuns.step, inv.alive])

theorem step_good (b : Build) (s : Scheduler n) (a : Action n) (t : Scheduler n) (good : Good b s)
    (meets : Free s a ∧ EntryOk b s a) (taken : step b s a = some t) : Good b t := by
  obtain ⟨inv, quiet⟩ := good
  cases a with
  | api op =>
    obtain ⟨-, may, rfl⟩ := api_some taken
    refine ⟨perform_invariant inv meets.1, ?_⟩
    intro pre inside zero
    simp only at inside zero
    -- With the flag at zero only the signal can come, and its handler returns.
    have handled : s.yieldStatus = 0 → (perform s.toThreads op).2 = some (.handler, 0) := by
      intro before
      obtain ⟨main, alone⟩ := quiet pre inside before
      have signal : op = .sigHandle := by
        cases op <;> simp [enabled, isSignal, main, inside] at may ⊢
      rw [signal]
      exact sigHandle_alone inv main alone
    cases back : (perform s.toThreads op).2 with
    | some seen =>
      obtain ⟨frame, result⟩ := seen
      by_cases handler : frame = .handler
      · subst handler
        rw [back] at zero
        have none : result = 0 := zero
        exact perform_zero inv meets.1 (by rw [back, none])
      · -- Another frame goes on, so the flag was zero before.
        have before : s.yieldStatus = 0 := by
          rw [back] at zero
          cases frame <;> first | exact zero | exact absurd rfl handler
        have same := back.symm.trans (handled before)
        exact absurd (congrArg Prod.fst (Option.some.inj same)) handler
    | none =>
      have before : s.yieldStatus = 0 := by rw [back] at zero; exact zero
      exact absurd (back.symm.trans (handled before)) (Option.some_ne_none _).symm
  | startScheduler =>
    simp only [step] at taken
    split at taken
    next => cases taken
    next may =>
      simp only [Bool.or_eq_true, decide_eq_true_eq, not_or, not_not] at may
      cases taken
      refine ⟨inv, fun pre _ zero => ⟨may.2, ?_⟩⟩
      rcases meets.2 with coop | set | alone
      · rw [pre] at coop; cases coop
      · exact absurd zero set
      · exact alone
  | loop =>
    simp only [step] at taken
    split at taken
    next => cases taken
    next may =>
      cases b with
      | preemptive =>
        cases taken
        refine ⟨inv, ?_⟩
        intro _ inside zero
        simp only [decide_eq_true_eq] at inside
        exact absurd zero inside
      | cooperative =>
        cases taken
        exact ⟨perform_invariant inv (by simp [MainNeverBlocks, Op.blocking]), fun pre => by cases pre⟩

theorem start_good (b : Build) : Good b (start n) :=
  ⟨start_invariant, fun _ inside => by simp [start] at inside⟩

/-- In every run of either build in which thread 0 does not block itself, and the
    preemptive scheduler is entered with `g_gt_yield_status` set or with nothing to
    run, the loop is left only when every slot but the first is unused. -/
theorem scheduler_complete {b : Build} {actions : List (Action n)} {a : Action n} {s t : Scheduler n}
    (meets : AllSteps (step b) (fun s a => Free s a ∧ EntryOk b s a) (start n) actions)
    (run : exec (step b) (start n) actions = some s) (taken : step b s a = some t)
    (inside : s.inScheduler = true) (left : t.inScheduler = false) : NothingLeft t.toTable := by
  have good := exec_kept_of (step_good b) (start_good b) meets run
  cases a with
  | api op =>
    obtain ⟨-, -, rfl⟩ := api_some taken
    rw [inside] at left
    cases left
  | startScheduler =>
    simp only [step] at taken
    split at taken <;> cases taken
    cases left
  | loop =>
    simp only [step] at taken
    split at taken
    next => cases taken
    next may =>
      cases b with
      | preemptive =>
        cases taken
        exact (good.quiet rfl inside (by simpa using left)).2
      | cooperative =>
        cases taken
        obtain ⟨back, sees⟩ : ∃ back, (perform s.toThreads .yield).2 = some (back, 0) := by simpa using left
        exact (perform_zero good.threads (by simp [MainNeverBlocks, Op.blocking]) sees).2

/-- One thread is created, runs and stops under the preemptive scheduler. -/
theorem scheduler_complete_sample :
    ∃ s t : Scheduler 5, exec (step .preemptive) (start 5)
        [.api (.go none true), .startScheduler, .loop, .api .sigHandle, .api .stop, .loop, .api .sigHandle] = some s ∧
      step .preemptive s .loop = some t ∧ NothingLeft t.toTable := by
  have meets : AllSteps (step .preemptive) (fun s a => Free s a ∧ EntryOk .preemptive s a) (start 5)
      [.api (.go none true), .startScheduler, .loop, .api .sigHandle, .api .stop, .loop, .api .sigHandle] := by decide
  have ends : (exec (step .preemptive) (start 5)
      [.api (.go none true), .startScheduler, .loop, .api .sigHandle, .api .stop, .loop, .api .sigHandle]).map
        (fun s => (s.inScheduler, (step .preemptive s .loop).map fun t => t.inScheduler)) =
      some (true, some false) := by decide
  obtain ⟨s, run, seen⟩ := Option.map_eq_some_iff.mp ends
  simp only [Prod.mk.injEq] at seen
  obtain ⟨t, taken, left⟩ := Option.map_eq_some_iff.mp seen.2
  exact ⟨s, t, run, taken, scheduler_complete meets run taken seen.1 left⟩

/-- A second call of the preemptive `gt_start_scheduler`: the flag is still zero
    from the first, so the loop is left while a thread is ready. -/
theorem scheduler_abandons :
    AllSteps (step .preemptive) Free (start 5)
        [.startScheduler, .api .sigHandle, .loop, .api (.go none true), .startScheduler, .loop] ∧
      ((exec (step .preemptive) (start 5)
          [.startScheduler, .api .sigHandle, .loop, .api (.go none true), .startScheduler]).bind fun s =>
        (step .preemptive s .loop).map fun t => (s.inScheduler, t.inScheduler, t.stateOf 1)) =
      some (true, false, .Ready) := by
  decide

end

end OsyProg.SchedulerLoop
