import OsyProg.TaskSteps

/-!
What holds between two steps of the scheduler (`Sound`): each delayed task is due later, no
ready task has a higher priority than the running one unless a yield is pending or follows,
and nothing is pending when the scheduler is not suspended. Each step that may come has a result and
keeps this; while the scheduler is suspended it switches nothing, wakes no task by time and
counts no tick (`act_spec`).
-/
namespace OsyProg.TaskActions
open OsyProg.Cursors OsyProg.KernelLists OsyProg.ListCalls OsyProg.TaskLists OsyProg.TaskKernel OsyProg.TaskStates
open OsyProg.TaskSteps Function
set_option linter.unusedSectionVars false

variable {Task Event : Type} [DecidableEq Task] [DecidableEq Event] {m : ListMemory Task Event}
  {past : List (ListCall Task Event)} {s s' : Kernel Task Event} {t : Task} {l : ListName Event}

/-- What holds also when a switch is about to come. -/
structure Steady (m : ListMemory Task Event) (past : List (ListCall Task Event)) (s : Kernel Task Event) : Prop where
  core : Core m past s
  onTime : OnTime s
  settled : s.uxSchedulerSuspended = 0 → s.xPendedTicks = 0 ∧ NonePending s
  ticks : s.ticks % 2 ^ 64 = (s.now + s.xPendedTicks.val) % 2 ^ 64

structure Sound (m : ListMemory Task Event) (past : List (ListCall Task Event)) (s : Kernel Task Event) : Prop
    extends Steady m past s where
  preempted : s.yieldFollows = false → Preempted s

/-- Nothing was switched, no task was woken by time and no tick was counted. -/
def Kept (s s' : Kernel Task Event) : Prop :=
  s'.pxCurrentTCB = s.pxCurrentTCB ∧ s'.switchedIn = s.switchedIn ∧ s'.wakes = s.wakes ∧ s'.now = s.now

/-- The step has a result as it should be. -/
def Fine (m : ListMemory Task Event) (past : List (ListCall Task Event)) (s : Kernel Task Event)
    (result : Option (Kernel Task Event)) : Prop :=
  ∃ s', result = some s' ∧ Sound m past s' ∧ (s.uxSchedulerSuspended ≠ 0 → s'.uxSchedulerSuspended ≠ 0 → Kept s s')

/-- A switch, or a pending yield when the scheduler is suspended. -/
theorem switch_fine (steady : Steady m past s') (running : s'.xSchedulerRunning = true)
    (suspended : s'.uxSchedulerSuspended = s.uxSchedulerSuspended) (kept : Kept s s') :
    Fine m past s s'.vTaskSwitchContext := by
  by_cases active : s'.uxSchedulerSuspended = 0
  · obtain ⟨a, calls, t, switched, core, place, value, ready, best⟩ := vTaskSwitchContext_spec steady.core running active
    refine ⟨_, switched, ⟨⟨core, steady.onTime, ?_, steady.ticks⟩, fun _ => preempted_of_selected place best⟩, ?_⟩
    · intro _
      refine ⟨(steady.settled active).1, ?_⟩
      intro t' waits
      exact (steady.settled active).2 t' ((congrFun place _).symm.trans waits)
    · intro busy
      exact absurd (suspended ▸ active) busy
  · have result : s'.vTaskSwitchContext = some { s' with xYieldPending := true, yieldFollows := false } :=
      if_pos active
    have core : Core m past { s' with xYieldPending := true, yieldFollows := false } :=
      { steady.core.setPending running true with }
    refine ⟨_, result, ⟨⟨core, steady.onTime, steady.settled, steady.ticks⟩, fun _ => nofun⟩, ?_⟩
    intro _ _
    exact kept

/-! ### Ticks, and the scheduler suspended -/

theorem tick_fine (sound : Sound m past s) (running : s.xSchedulerRunning = true) :
    Fine m past s s.vPortSystemTickHandler := by
  have core₁ : Core m past { s with ticks := s.ticks + 1 } := { sound.core with }
  have before := sound.ticks
  by_cases active : s.uxSchedulerSuspended = 0
  · obtain ⟨s₁, r, ticked, ⟨_, _, _, _, _, _, _, _, _, rfl⟩, core, onTime, woken, -⟩ :=
      xTaskIncrementTick_spec core₁ running sound.onTime active
    obtain ⟨pended, none⟩ := sound.settled active
    have counted : (s.ticks + 1) % 2 ^ 64 = (s.now + 1 + s.xPendedTicks.val) % 2 ^ 64 := by omega
    have steady := Steady.mk core onTime (fun _ => ⟨pended, woken.nonePending none⟩) counted
    obtain ⟨s', switched, sound', -⟩ := switch_fine steady running rfl ⟨rfl, rfl, rfl, rfl⟩
    exact ⟨s', (bind_of ticked).trans switched, sound', fun busy => absurd active busy⟩
  · have pend : { s with ticks := s.ticks + 1 }.xTaskIncrementTick =
        some ({ s with ticks := s.ticks + 1, xPendedTicks := s.xPendedTicks + 1 }, false) := if_neg active
    have counted : (s.ticks + 1) % 2 ^ 64 = (s.now + (s.xPendedTicks + 1).val) % 2 ^ 64 := by
      have one : (1 : TickType).val = 1 := rfl
      rw [Fin.val_add, one]
      omega
    have steady : Steady m past { s with ticks := s.ticks + 1, xPendedTicks := s.xPendedTicks + 1 } :=
      ⟨{ core₁ with }, sound.onTime, fun idle => absurd idle active, counted⟩
    obtain ⟨s', switched, sound', kept⟩ := switch_fine (s := s) steady running rfl ⟨rfl, rfl, rfl, rfl⟩
    exact ⟨s', (bind_of pend).trans switched, sound', kept⟩

theorem suspendAll_fine (sound : Sound m past s) (running : s.xSchedulerRunning = true) :
    Fine m past s (some s.vTaskSuspendAll) := by
  have core : Core m past s.vTaskSuspendAll := by
    refine { sound.core with resting := ?_ }
    intro rest
    have runs : s.xSchedulerRunning = false := rest
    rw [running] at runs
    cases runs
  refine ⟨_, rfl, ⟨⟨core, sound.onTime, ?_, sound.ticks⟩, sound.preempted⟩, fun _ _ => ⟨rfl, rfl, rfl, rfl⟩⟩
  intro none
  exact absurd none (Nat.succ_ne_zero _)

theorem resumeAll_fine (sound : Sound m past s) (free : s.yieldFollows = false) (running : s.xSchedulerRunning = true)
    (busy : 0 < s.uxSchedulerSuspended) :
    Fine m past s (s.xTaskResumeAll.map Prod.fst) := by
  by_cases last : s.uxSchedulerSuspended = 1
  · obtain ⟨s', y, result, core, onTime, preempted, none, active, running', pended, ticks, now⟩ :=
      xTaskResumeAll_spec sound.core running sound.onTime (sound.preempted free) last
    refine ⟨s', by rw [result, Option.map_some], ⟨⟨core, onTime, fun _ => ⟨pended, none⟩, ?_⟩, fun _ => preempted⟩, ?_⟩
    · have zero : (0 : TickType).val = 0 := rfl
      rw [ticks, now, pended, zero, Nat.add_zero]
      exact sound.ticks
    · intro _ still
      exact absurd active still
  · have more : s.uxSchedulerSuspended - 1 ≠ 0 := by omega
    have nested : s.xTaskResumeAll = some ({ s with uxSchedulerSuspended := s.uxSchedulerSuspended - 1 }, false) :=
      if_neg fun both => more both.1
    have core : Core m past { s with uxSchedulerSuspended := s.uxSchedulerSuspended - 1 } := by
      refine { sound.core with resting := ?_ }
      intro rest
      rw [running] at rest
      cases rest
    refine ⟨_, by rw [nested, Option.map_some], ⟨⟨core, sound.onTime, fun none => absurd none more, sound.ticks⟩,
      sound.preempted⟩, fun _ _ => ⟨rfl, rfl, rfl, rfl⟩⟩

theorem reset_fine (sound : Sound m past s) : Fine m past s (some s.prvResetNextTaskUnblockTime) := by
  obtain ⟨next, reset, core⟩ := prvResetNextTaskUnblockTime_spec sound.core
  rw [reset]
  exact ⟨_, rfl, ⟨⟨core, sound.onTime, sound.settled, sound.ticks⟩, sound.preempted⟩, fun _ _ => ⟨rfl, rfl, rfl, rfl⟩⟩

/-! ### Tasks wait -/

theorem ready_known {v : View Event} (ready : Ready v) : v.state ≠ none := by
  rw [ready]
  exact Option.some_ne_none _

/-- A ready task is not delayed. -/
theorem ready_due (core : Core m past s) (ready : Ready (view s t)) : s.due t = none := by
  by_contra some
  obtain ⟨l, here, delay⟩ := (core.tasks t).due.mp some
  rw [ready] at here
  exact (delay_apart delay).2.2.2.2 _ (Option.some.inj (Option.some.inj here)).symm

/-- The tick at which a delayed task is to be woken, in this round of the tick count or in the next one. -/
theorem wake_time (core : Core m past s) (n : TickType) :
    (s.xTickCount + n).val = (s.now + n.val) % 2 ^ 64 ∧
      (s.xTickCount + n < s.xTickCount → (s.now + n.val) / 2 ^ 64 = s.now / 2 ^ 64 + 1) ∧
      (¬ s.xTickCount + n < s.xTickCount → (s.now + n.val) / 2 ^ 64 = s.now / 2 ^ 64) := by
  have value : (s.xTickCount + n).val = (s.now + n.val) % 2 ^ 64 := by rw [Fin.val_add, core.tick, Nat.mod_add_mod]
  have small : n.val < 2 ^ 64 := n.isLt
  have tick := core.tick
  refine ⟨value, ?_, ?_⟩
  · intro wraps
    have less : (s.xTickCount + n).val < s.xTickCount.val := wraps
    omega
  · intro goes
    have more : ¬ (s.xTickCount + n).val < s.xTickCount.val := goes
    omega

theorem sooner_of {w time : TickType}
    (unblock : (if w < s.xNextTaskUnblockTime then w else s.xNextTaskUnblockTime) = time) :
    (if w < s.xNextTaskUnblockTime then { s with xNextTaskUnblockTime := w } else s) =
      { s with xNextTaskUnblockTime := time } := by
  rw [← unblock]
  split
  · rfl
  · rfl

/-- The running task puts itself to sleep, after it may have put its event item into a list. -/
theorem sleep_spec (core : Core m past s) (running : s.xSchedulerRunning = true) (ready : Ready (view s s.pxCurrentTCB))
    (other : s.xIdleTaskHandle ≠ some s.pxCurrentTCB) {y : Option (Option (ListName Event))} {a : AllLists Task Event}
    {calls : List (ListCall Task Event)}
    (moved : Moved m s s.pxCurrentTCB (view s s.pxCurrentTCB).state y (view s s.pxCurrentTCB).value a calls)
    (waits : y = some none ∨ ∃ l', y = some (some l') ∧ (l' = .xPendingReadyList ∨ ∃ e, l' = .event e)) (n : TickType)
    (positive : 0 < n) (indefinitely : Bool) :
    ∃ s', { s with lists := a, calls }.prvAddCurrentTaskToDelayedList n indefinitely = some s' ∧
      (∃ lists calls due xNextTaskUnblockTime, s' = { s with lists, calls, due, xNextTaskUnblockTime }) ∧
      Core m past s' ∧ (∀ t', t' ≠ s.pxCurrentTCB → view s' t' = view s t') ∧
      ¬ Ready (view s' s.pxCurrentTCB) ∧ ∀ d, s'.due s.pxCurrentTCB = some d → s.now < d := by
  obtain ⟨priority, base⟩ := core.priority (ready_known ready)
  have free := ready_due core ready
  have awake : (view s s.pxCurrentTCB).state = some (some (.pxReadyTasksLists (s.uxPriority s.pxCurrentTCB))) := ready
  rw [awake] at moved
  obtain ⟨b, call, moved⟩ := moved.removeState { s with lists := a, calls }
  have asleep : ∀ (l : ListName Event) (s' : Kernel Task Event), Blocked l →
      (view s' s.pxCurrentTCB).state = some (some l) → ¬ Ready (view s' s.pxCurrentTCB) := by
    intro l s' blocked here ready
    obtain rfl := Option.some.inj (Option.some.inj (here.symm.trans ready))
    rcases blocked with (same | same) | same <;> cases same
  have idle : ∀ l : ListName Event, s.xIdleTaskHandle = some s.pxCurrentTCB →
      l = .pxReadyTasksLists (s.uxPriority s.pxCurrentTCB) := fun l handle => absurd handle other
  by_cases forever : n = portMAX_DELAY ∧ indefinitely = true
  · obtain ⟨b', call', moved⟩ := moved.insertEndState { s with lists := b, calls := _ } (l := .xSuspendedTaskList)
      (core.fixed _ trivial) (by rintro (same | same) <;> cases same)
    have own : TaskOk s.uxTopReadyPriority s.now s.pxDelayedTaskList s.pxOverflowDelayedTaskList s.xNextTaskUnblockTime
        ⟨some (some .xSuspendedTaskList), y, s.uxPriority s.pxCurrentTCB, s.uxBasePriority s.pxCurrentTCB,
          s.due s.pxCurrentTCB, (view s s.pxCurrentTCB).value⟩ := by
      rw [base, free]
      refine TaskOk.blocked (.inr rfl) waits priority ?_ (by simp) (by simp)
      exact iff_of_false (fun some => some rfl) (by rintro (same | same) <;> cases same)
    refine ⟨_, (bind_of call).trans ((if_pos forever).trans call'), ⟨_, _, _, _, rfl⟩,
      core.move moved awake (by simp) (by simp) (fun t' _ => ⟨rfl, rfl, rfl⟩) own le_rfl le_rfl core.wakes running (idle _), ?_,
      asleep _ _ (.inr rfl) moved.state, ?_⟩
    · intro t' apart
      obtain ⟨state, event, value⟩ := moved.others t' apart
      simp only [view, state, event, value]
    · intro d due
      exact absurd (free.symm.trans due) (by simp)
  · obtain ⟨value, next, round⟩ := wake_time core n
    obtain ⟨b', call', moved⟩ := moved.setStateValue { s with lists := b, calls := _ } (s.xTickCount + n) (by simp)
    have others : ∀ t', t' ≠ s.pxCurrentTCB → s.uxPriority t' = s.uxPriority t' ∧ s.uxBasePriority t' = s.uxBasePriority t' ∧
        update s.due s.pxCurrentTCB (some (s.now + n.val)) t' = s.due t' := fun t' apart => ⟨rfl, rfl, update_of_ne apart ..⟩
    have later : ∀ d, update s.due s.pxCurrentTCB (some (s.now + n.val)) s.pxCurrentTCB = some d → s.now < d := by
      intro d due
      rw [update_self] at due
      cases due
      exact Nat.lt_add_of_pos_right positive
    have apart := core.delays_apart
    by_cases wraps : s.xTickCount + n < s.xTickCount
    · obtain ⟨b'', call'', moved⟩ := moved.insertState
        { s with lists := b', calls := _, due := update s.due s.pxCurrentTCB (some (s.now + n.val)) }
        (core.fixed _ (delay_fixed core.delay_overflow))
      have own : TaskOk s.uxTopReadyPriority s.now s.pxDelayedTaskList s.pxOverflowDelayedTaskList s.xNextTaskUnblockTime
          ⟨some (some s.pxOverflowDelayedTaskList), y, s.uxPriority s.pxCurrentTCB, s.uxBasePriority s.pxCurrentTCB,
            update s.due s.pxCurrentTCB (some (s.now + n.val)) s.pxCurrentTCB, s.xTickCount + n⟩ := by
        rw [base, update_self]
        refine TaskOk.blocked (.inl core.delay_overflow) waits priority ?_ (fun _ _ same => absurd same.symm apart) ?_
        · exact iff_of_true (Option.some_ne_none _) core.delay_overflow
        · intro d due _
          cases due
          exact ⟨next wraps, value⟩
      refine ⟨_, (bind_of call).trans ((if_neg forever).trans ((bind_of call').trans ((if_pos wraps).trans call''))),
        ⟨_, _, _, _, rfl⟩, core.move moved awake (by simp) (delay_apart core.delay_overflow).2.2.1 others own le_rfl le_rfl
          core.wakes running (idle _), ?_, asleep _ _ (.inl core.delay_overflow) moved.state, later⟩
      intro t' apart
      obtain ⟨state, event, value⟩ := moved.others t' apart
      simp only [view, state, event, value, update_of_ne apart]
    · obtain ⟨b'', call'', moved⟩ := moved.insertState
        { s with lists := b', calls := _, due := update s.due s.pxCurrentTCB (some (s.now + n.val)) }
        (core.fixed _ (delay_fixed core.delay_delayed))
      generalize unblock : (if s.xTickCount + n < s.xNextTaskUnblockTime then s.xTickCount + n else s.xNextTaskUnblockTime) =
        time
      have sooner : time ≤ s.xTickCount + n ∧ time ≤ s.xNextTaskUnblockTime := by
        rw [← unblock]
        split
        case isTrue less => exact ⟨le_rfl, less.le⟩
        case isFalse more => exact ⟨not_lt.mp more, le_rfl⟩
      have own : TaskOk s.uxTopReadyPriority s.now s.pxDelayedTaskList s.pxOverflowDelayedTaskList time
          ⟨some (some s.pxDelayedTaskList), y, s.uxPriority s.pxCurrentTCB, s.uxBasePriority s.pxCurrentTCB,
            update s.due s.pxCurrentTCB (some (s.now + n.val)) s.pxCurrentTCB, s.xTickCount + n⟩ := by
        rw [base, update_self]
        refine TaskOk.blocked (.inl core.delay_delayed) waits priority ?_ ?_ (fun _ _ same => absurd same apart)
        · exact iff_of_true (Option.some_ne_none _) core.delay_delayed
        · intro d due _
          cases due
          exact ⟨Nat.le_add_right .., round wraps, value, sooner.1⟩
      refine ⟨_, (bind_of call).trans ((if_neg forever).trans ((bind_of call').trans ((if_neg wraps).trans
          ((map_of call'').trans (congrArg some (sooner_of unblock)))))),
        ⟨_, _, _, _, rfl⟩, core.move moved awake (by simp) (delay_apart core.delay_delayed).2.2.1 others own le_rfl sooner.2
          core.wakes running (idle _), ?_, asleep _ _ (.inl core.delay_delayed) moved.state, later⟩
      intro t' apart
      obtain ⟨state, event, value⟩ := moved.others t' apart
      simp only [view, state, event, value, update_of_ne apart]

theorem awake_iff : s.Awake ↔ Ready (view s s.pxCurrentTCB) := container_eq_some

/-- A ready task waits for nothing. -/
theorem ready_event (core : Core m past s) (ready : Ready (view s t)) : (view s t).event = some none := by
  cases place : (view s t).event with
  | none => exact absurd ((core.tasks t).known.mpr place) (ready_known ready)
  | some p =>
    cases p with
    | none => rfl
    | some l =>
      obtain ⟨-, l', here, blocked⟩ := (core.tasks t).event l place
      obtain rfl := Option.some.inj (Option.some.inj (here.symm.trans ready))
      rcases blocked with (same | same) | same <;> cases same

/-- The running task went to sleep while the scheduler is suspended. -/
theorem sleep_fine (sound : Sound m past s) (busy : s.uxSchedulerSuspended ≠ 0) {result : Option (Kernel Task Event)}
    (slept : ∃ s', result = some s' ∧
      (∃ lists calls due xNextTaskUnblockTime, s' = { s with lists, calls, due, xNextTaskUnblockTime }) ∧
      Core m past s' ∧ (∀ t', t' ≠ s.pxCurrentTCB → view s' t' = view s t') ∧
      ¬ Ready (view s' s.pxCurrentTCB) ∧ ∀ d, s'.due s.pxCurrentTCB = some d → s.now < d) : Fine m past s result := by
  obtain ⟨s', result, ⟨lists, calls, due, next, rfl⟩, core, others, asleep, later⟩ := slept
  refine ⟨_, result, ⟨⟨core, ?_, fun none => absurd none busy, sound.ticks⟩, ?_⟩, fun _ _ => ⟨rfl, rfl, rfl, rfl⟩⟩
  · intro t' d at_d
    by_cases own : t' = s.pxCurrentTCB
    · subst own
      exact later d at_d
    · exact sound.onTime t' d ((congrArg View.due (others t' own)).symm.trans at_d)
  · intro free none t' ready
    have own : t' ≠ s.pxCurrentTCB := by
      rintro rfl
      exact asleep ready
    rw [others t' own] at ready
    exact sound.preempted free none t' ready

theorem delay_fine (sound : Sound m past s) (running : s.xSchedulerRunning = true) (awake : s.Awake)
    (suspended : s.uxSchedulerSuspended = 1) (other : s.xIdleTaskHandle ≠ some s.pxCurrentTCB) {n : TickType}
    (positive : 0 < n) : Fine m past s (s.prvAddCurrentTaskToDelayedList n false) := by
  have ready := awake_iff.mp awake
  have start := Moved.start sound.core.shown s.pxCurrentTCB
  rw [ready_event sound.core ready] at start
  exact sleep_fine sound (by omega) (sleep_spec sound.core running ready other start (.inl rfl) n positive false)

theorem place_fine (sound : Sound m past s) (running : s.xSchedulerRunning = true) (awake : s.Awake)
    (suspended : s.uxSchedulerSuspended = 1) (other : s.xIdleTaskHandle ≠ some s.pxCurrentTCB) {e : Event}
    (listed : s.lists.list (.event e) ≠ none) {n : TickType} (positive : 0 < n) :
    Fine m past s (s.vTaskPlaceOnEventList e n) := by
  have ready := awake_iff.mp awake
  have start := Moved.start sound.core.shown s.pxCurrentTCB
  rw [ready_event sound.core ready] at start
  obtain ⟨b, call, moved⟩ := start.insertEvent s listed
  obtain ⟨s', result, rest⟩ :=
    sleep_spec sound.core running ready other moved (.inr ⟨_, rfl, .inr ⟨e, rfl⟩⟩) n positive true
  exact sleep_fine sound (by omega) ⟨s', (bind_of call).trans result, rest⟩

/-! ### Tasks are woken -/

theorem yield_of {c : Prop} [Decidable c] {pending : Bool} (yields : (if c then true else s.xYieldPending) = pending) :
    (if c then { s with xYieldPending := true } else s) = { s with xYieldPending := pending } := by
  rw [← yields]
  split
  · rfl
  · rfl

theorem wake_steady (steady : Steady m past s) {v : TickType} {a : AllLists Task Event}
    {calls : List (ListCall Task Event)}
    (moved : Moved m s t (some (some (.pxReadyTasksLists (s.uxPriority t)))) (some none) v a calls)
    (before : (view s t).state = some (some l)) (alive : l ≠ .xTasksWaitingTermination)
    (running : s.xSchedulerRunning = true) (pending : Bool) :
    Steady m past { s with
      lists := a
      calls
      due := update s.due t none
      uxTopReadyPriority := max s.uxTopReadyPriority (s.uxPriority t)
      xYieldPending := pending } := by
  have core := steady.core.wake moved before alive running steady.core.wakes pending
  have woken : Woken s { s with
      lists := a
      calls
      due := update s.due t none
      uxTopReadyPriority := max s.uxTopReadyPriority (s.uxPriority t)
      xYieldPending := pending } := woken_of_moved moved
  refine ⟨core, woken.onTime rfl steady.onTime, ?_, steady.ticks⟩
  intro active
  exact ⟨(steady.settled active).1, woken.nonePending (steady.settled active).2⟩

theorem idle_ready (core : Core m past s) (running : s.xSchedulerRunning = true) (idle : s.xIdleTaskHandle = some t) :
    Ready (view s t) := by
  obtain ⟨i, handle, ready⟩ := core.idle running
  obtain rfl := Option.some.inj (handle.symm.trans idle)
  exact ready

theorem not_ready_of_blocked (blocked : Blocked l) (here : (view s t).state = some (some l)) : ¬ Ready (view s t) := by
  intro ready
  obtain rfl := Option.some.inj (Option.some.inj (here.symm.trans ready))
  rcases blocked with (same | same) | same <;> cases same

/-- The task is to be made ready when the scheduler is resumed. -/
theorem pend_sound (sound : Sound m past s) (running : s.xSchedulerRunning = true) (busy : s.uxSchedulerSuspended ≠ 0)
    {a : AllLists Task Event} {calls : List (ListCall Task Event)}
    (moved : Moved m s t (some (some l)) (some (some .xPendingReadyList)) (view s t).value a calls)
    (before : (view s t).state = some (some l)) (blocked : Blocked l) {pending : Bool}
    (yields : pending = false → s.xYieldPending = false) :
    Sound m past { s with lists := a, calls, xYieldPending := pending } := by
  have ok := sound.core.tasks t
  have alive : l ≠ .xTasksWaitingTermination := by
    rintro rfl
    rcases blocked with (same | same) | same <;> cases same
  have own : TaskOk s.uxTopReadyPriority s.now s.pxDelayedTaskList s.pxOverflowDelayedTaskList s.xNextTaskUnblockTime
      ⟨some (some l), some (some .xPendingReadyList), s.uxPriority t, s.uxBasePriority t, s.due t, (view s t).value⟩ := by
    rw [← before]
    refine { ok with known := ?_, event := ?_ }
    · rw [before]
      exact iff_of_false nofun nofun
    · rintro l' here
      obtain rfl := Option.some.inj (Option.some.inj here)
      exact ⟨.inl rfl, l, before, blocked⟩
  have core : Core m past { s with lists := a, calls, xYieldPending := pending } :=
    sound.core.move moved before alive alive (fun t' _ => ⟨rfl, rfl, rfl⟩) own le_rfl le_rfl sound.core.wakes running
      fun idle => absurd (idle_ready sound.core running idle) (not_ready_of_blocked blocked before)
  refine ⟨⟨core, sound.onTime, fun none => absurd none busy, sound.ticks⟩, ?_⟩
  intro free none t' ready
  refine sound.preempted free (yields none) t' ?_
  by_cases mine : t' = t
  · subst mine
    exact absurd ready (not_ready_of_blocked blocked moved.state)
  · have state := (moved.others t' mine).1
    simpa only [Ready, view, state] using ready

theorem removeFromEventList_fine (sound : Sound m past s) (running : s.xSchedulerRunning = true) {e : Event}
    (full : items s.lists (.event e) ≠ []) : Fine m past s (s.xTaskRemoveFromEventList e) := by
  obtain ⟨head, rest, found⟩ := List.exists_cons_of_ne_nil full
  obtain ⟨t, rfl, waits⟩ := sound.core.event_head (.inr ⟨e, rfl⟩) found
  obtain ⟨-, l, before, blocked⟩ := (sound.core.tasks t).event _ waits
  have alive : l ≠ .xTasksWaitingTermination := by
    rintro rfl
    rcases blocked with (same | same) | same <;> cases same
  obtain ⟨pending, yields⟩ : ∃ pending,
      (if s.uxPriority t > s.uxPriority s.pxCurrentTCB then true else s.xYieldPending) = pending := ⟨_, rfl⟩
  have lower : pending = false → s.xYieldPending = false ∧ s.uxPriority t ≤ s.uxPriority s.pxCurrentTCB := by
    rintro rfl
    split at yields
    case isTrue => cases yields
    case isFalse lower => exact ⟨yields, not_lt.mp lower⟩
  have start := Moved.start sound.core.shown t
  rw [before, waits] at start
  obtain ⟨b, call, moved⟩ := start.removeEvent s
  unfold Kernel.xTaskRemoveFromEventList
  simp only [found, ListItem.pvOwner]
  by_cases active : s.uxSchedulerSuspended = 0
  · obtain ⟨b', call', moved⟩ := moved.removeState { s with lists := b, calls := _ }
    have listed : s.lists.list (.pxReadyTasksLists (s.uxPriority t)) ≠ none :=
      sound.core.fixed _ (sound.core.priority (by rw [before]; exact Option.some_ne_none _)).1
    obtain ⟨b'', calls, added, moved⟩ :=
      moved.addToReady { s with lists := b', calls := _, due := update s.due t none } listed
    refine ⟨_, (bind_of call).trans ((map_of ((if_pos active).trans ((bind_of call').trans added))).trans
      (congrArg some (by exact yield_of yields))), ⟨wake_steady sound.toSteady moved before alive running pending,
      fun free => preempted_of_moved (sound.preempted free) moved rfl rfl rfl lower⟩, fun _ _ => ⟨rfl, rfl, rfl, rfl⟩⟩
  · obtain ⟨b', call', moved⟩ := moved.insertEndEvent { s with lists := b, calls := _ } (l := .xPendingReadyList)
      (sound.core.fixed _ trivial) (by rintro (same | same) <;> cases same)
    exact ⟨_, (bind_of call).trans ((map_of ((if_neg active).trans call')).trans (congrArg some (by exact yield_of yields))), pend_sound sound running active moved before blocked fun none => (lower none).1,
      fun _ _ => ⟨rfl, rfl, rfl, rfl⟩⟩

/-- What the kernel takes for a suspended task. -/
theorem suspended_spec (core : Core m past s) (suspended : s.prvTaskIsTaskSuspended t = true) :
    (view s t).state = some (some .xSuspendedTaskList) ∧ (view s t).event = some none ∧ s.due t = none := by
  simp only [Kernel.prvTaskIsTaskSuspended, decide_eq_true_eq] at suspended
  obtain ⟨state, -, free⟩ := suspended
  have here : (view s t).state = some (some .xSuspendedTaskList) := container_eq_some.mp state
  refine ⟨here, ?_, ?_⟩
  · cases place : (view s t).event with
    | none =>
      rw [(core.tasks t).known.mpr place] at here
      cases here
    | some p =>
      cases p with
      | none => rfl
      | some l =>
        have inside : s.eventList t = some l := container_eq_some.mpr place
        rw [free] at inside
        cases inside
  · by_contra some
    obtain ⟨l, there, delay⟩ := (core.tasks t).due.mp some
    obtain rfl := Option.some.inj (Option.some.inj (here.symm.trans there))
    rcases delay with same | same <;> cases same

theorem update_none (free : s.due t = none) : update s.due t none = s.due := by
  rw [← free, update_eq_self]

theorem resume_fine (sound : Sound m past s) (running : s.xSchedulerRunning = true) : Fine m past s (s.vTaskResume t) := by
  unfold Kernel.vTaskResume
  by_cases suspended : t ≠ s.pxCurrentTCB ∧ s.prvTaskIsTaskSuspended t = true
  · rw [if_pos suspended]
    obtain ⟨before, free, due⟩ := suspended_spec sound.core suspended.2
    have start := Moved.start sound.core.shown t
    rw [before, free] at start
    obtain ⟨b, call, moved⟩ := start.removeState s
    have listed : s.lists.list (.pxReadyTasksLists (s.uxPriority t)) ≠ none :=
      sound.core.fixed _ (sound.core.priority (by rw [before]; exact Option.some_ne_none _)).1
    obtain ⟨b', calls, added, moved⟩ := moved.addToReady { s with lists := b, calls := _ } listed
    have steady := wake_steady sound.toSteady moved before nofun running s.xYieldPending
    rw [update_none due] at steady
    by_cases higher : s.uxPriority t ≥ s.uxPriority s.pxCurrentTCB
    · obtain ⟨s', switched, rest⟩ := switch_fine (s := s) steady running rfl ⟨rfl, rfl, rfl, rfl⟩
      exact ⟨s', (bind_of call).trans ((bind_of added).trans ((if_pos higher).trans switched)), rest⟩
    · refine ⟨_, (bind_of call).trans ((bind_of added).trans (if_neg higher)), ⟨steady, ?_⟩, fun _ _ => ⟨rfl, rfl, rfl, rfl⟩⟩
      intro free
      exact preempted_of_moved (sound.preempted free) moved rfl rfl rfl fun none => ⟨none, (not_le.mp higher).le⟩
  · rw [if_neg suspended]
    exact ⟨s, rfl, sound, fun _ _ => ⟨rfl, rfl, rfl, rfl⟩⟩

theorem resumeFromISR_fine (sound : Sound m past s) (running : s.xSchedulerRunning = true) :
    Fine m past s (s.xTaskResumeFromISR t) := by
  unfold Kernel.xTaskResumeFromISR
  by_cases suspended : s.prvTaskIsTaskSuspended t = true
  · rw [if_pos suspended]
    obtain ⟨before, free, due⟩ := suspended_spec sound.core suspended
    have start := Moved.start sound.core.shown t
    rw [before, free] at start
    by_cases active : s.uxSchedulerSuspended = 0
    · rw [if_pos active]
      obtain ⟨pending, yields⟩ : ∃ pending,
          (if s.uxPriority t ≥ s.uxPriority s.pxCurrentTCB then true else s.xYieldPending) = pending := ⟨_, rfl⟩
      have lower : pending = false → s.xYieldPending = false ∧ s.uxPriority t ≤ s.uxPriority s.pxCurrentTCB := by
        rintro rfl
        split at yields
        case isTrue => cases yields
        case isFalse lower => exact ⟨yields, (not_le.mp lower).le⟩
      simp only [yield_of yields]
      obtain ⟨b, call, moved⟩ := start.removeState { s with xYieldPending := pending }
      have listed : s.lists.list (.pxReadyTasksLists (s.uxPriority t)) ≠ none :=
        sound.core.fixed _ (sound.core.priority (by rw [before]; exact Option.some_ne_none _)).1
      obtain ⟨b', calls, added, moved⟩ :=
        moved.addToReady { s with lists := b, calls := _, xYieldPending := pending } listed
      have steady := wake_steady sound.toSteady moved before nofun running pending
      rw [update_none due] at steady
      refine ⟨_, (bind_of call).trans added,
        ⟨steady, fun free => preempted_of_moved (sound.preempted free) moved rfl rfl rfl lower⟩, fun _ _ => ⟨rfl, rfl, rfl, rfl⟩⟩
    · rw [if_neg active]
      obtain ⟨b, call, moved⟩ := start.insertEndEvent s (l := .xPendingReadyList) (sound.core.fixed _ trivial)
        (by rintro (same | same) <;> cases same)
      exact ⟨_, call, pend_sound sound running active moved before (.inr rfl) fun none => none,
        fun _ _ => ⟨rfl, rfl, rfl, rfl⟩⟩
  · rw [if_neg suspended]
    exact ⟨s, rfl, sound, fun _ _ => ⟨rfl, rfl, rfl, rfl⟩⟩

/-! ### Tasks are suspended and deleted -/

theorem alive_iff : s.Alive t ↔ ∃ l, (view s t).state = some (some l) ∧ l ≠ .xTasksWaitingTermination :=
  exists_congr fun _ => and_congr_left fun _ => container_eq_some

/-- One task was moved, it is not pending, and no task is due that was not. -/
theorem steady_of_moved (steady : Steady m past s) {x y : Option (Option (ListName Event))} {v : TickType}
    {a : AllLists Task Event} {calls : List (ListCall Task Event)} (moved : Moved m s t x y v a calls)
    (core : Core m past s') (lists : s'.lists = a) (due : ∀ t' d, s'.due t' = some d → s.due t' = some d)
    (now : s'.now = s.now) (suspended : s'.uxSchedulerSuspended = s.uxSchedulerSuspended)
    (pended : s'.xPendedTicks = s.xPendedTicks) (ticks : s'.ticks = s.ticks)
    (apart : y = some (some .xPendingReadyList) → (view s t).event = some (some .xPendingReadyList)) : Steady m past s' := by
  refine ⟨core, ?_, ?_, ?_⟩
  · intro t' d at_d
    rw [now]
    exact steady.onTime t' d (due t' d at_d)
  · intro active
    obtain ⟨zero, none⟩ := steady.settled (suspended.symm.trans active)
    refine ⟨pended.trans zero, ?_⟩
    intro t' waits
    simp only [view, lists] at waits
    by_cases mine : t' = t
    · subst mine
      exact none t' (apart (moved.event.symm.trans waits))
    · exact none t' ((moved.others t' mine).2.1.symm.trans waits)
  · rw [ticks, now, pended]
    exact steady.ticks

/-- A task that is not ready any more. -/
theorem preempted_of_gone (preempted : Preempted s) {x y : Option (Option (ListName Event))} {v : TickType}
    {a : AllLists Task Event} {calls : List (ListCall Task Event)} (moved : Moved m s t x y v a calls) (lists : s'.lists = a)
    (prio : s'.uxPriority = s.uxPriority) (current : s'.pxCurrentTCB = s.pxCurrentTCB)
    (pending : s'.xYieldPending = s.xYieldPending) (gone : ∀ p, x ≠ some (some (.pxReadyTasksLists p))) : Preempted s' := by
  intro none t' ready
  rw [prio, current]
  simp only [Ready, view, lists, prio] at ready
  by_cases mine : t' = t
  · subst mine
    exact absurd (moved.state.symm.trans ready) (gone _)
  · exact preempted (pending.symm.trans none) t' ((moved.others t' mine).1.symm.trans ready)

theorem due_of_update {t' : Task} {d : ℕ} (due : update s.due t none t' = some d) : s.due t' = some d := by
  by_cases mine : t' = t
  · rw [mine, update_self] at due
    cases due
  · rwa [update_of_ne mine] at due

theorem suspend_fine (sound : Sound m past s) (running : s.xSchedulerRunning = true) (alive : s.Alive t)
    (other : s.xIdleTaskHandle ≠ some t) : Fine m past s (s.vTaskSuspend t) := by
  obtain ⟨l, before, alive⟩ := alive_iff.mp alive
  have known : (view s t).state ≠ none := by rw [before]; exact Option.some_ne_none _
  obtain ⟨priority, base⟩ := sound.core.priority known
  have start := Moved.start sound.core.shown t
  rw [before] at start
  obtain ⟨b, call, moved⟩ := start.removeState s
  obtain ⟨b', calls, left, moved⟩ :=
    moved.leave { s with lists := b, calls := _ } ((sound.core.tasks t).known.not.mp known)
  obtain ⟨b'', call', moved⟩ := moved.insertEndState { s with lists := b', calls, due := update s.due t none }
    (l := .xSuspendedTaskList) (sound.core.fixed _ trivial) (by rintro (same | same) <;> cases same)
  have own : TaskOk s.uxTopReadyPriority s.now s.pxDelayedTaskList s.pxOverflowDelayedTaskList s.xNextTaskUnblockTime
      ⟨some (some .xSuspendedTaskList), some none, s.uxPriority t, s.uxBasePriority t, update s.due t none t,
        (view s t).value⟩ := by
    rw [base, update_self]
    refine TaskOk.blocked (.inr rfl) (.inl rfl) priority ?_ nofun nofun
    exact iff_of_false (fun some => some rfl) (by rintro (same | same) <;> cases same)
  have core : Core m past { s with lists := b'', calls := _, due := update s.due t none } :=
    sound.core.move moved before alive nofun (fun t' apart => ⟨rfl, rfl, update_of_ne apart ..⟩) own le_rfl le_rfl
      sound.core.wakes running fun idle => absurd idle other
  refine ⟨_, (bind_of call).trans ((bind_of left).trans call'),
    ⟨steady_of_moved sound.toSteady moved core rfl (fun t' d => due_of_update) rfl rfl rfl rfl nofun,
      fun free => preempted_of_gone (sound.preempted free) moved rfl rfl rfl rfl nofun⟩, fun _ _ => ⟨rfl, rfl, rfl, rfl⟩⟩

/-- The state item of a task that is no more in any list, or in that of the deleted ones. -/
theorem TaskOk.gone {top now p : ℕ} {delayed overflow : ListName Event} {next v : TickType} {x : Option (ListName Event)}
    (deleted : ∀ l, x = some l → l = .xTasksWaitingTermination) (priority : p < configMAX_PRIORITIES) :
    TaskOk top now delayed overflow next ⟨some x, some none, p, p, none, v⟩ where
  known := by simp
  state := by
    rintro l here
    exact .inr (.inr (deleted l (Option.some.inj here)))
  event := by simp
  priority := by simpa using priority
  top := by
    intro here
    cases deleted _ (Option.some.inj here)
  due := by
    refine iff_of_false (fun some => some rfl) ?_
    rintro ⟨l, here, delay⟩
    obtain rfl := deleted l (Option.some.inj here)
    rcases delay with same | same <;> cases same
  delayed := by simp
  overflow := by simp

/-- One task less. -/
theorem encard_pred {S S' : Set Task} {n : ℕ} (fewer : S.encard = S'.encard + 1) (count : S.encard = n) :
    S'.encard = (n - 1 : ℕ) := by
  rw [count] at fewer
  cases size : S'.encard with
  | top =>
    rw [size] at fewer
    exact absurd fewer (ENat.natCast_ne_top n)
  | coe k =>
    rw [size] at fewer
    have same : n = k + 1 := by exact_mod_cast fewer
    rw [same, Nat.add_sub_cancel]

theorem delete_fine (sound : Sound m past s) (running : s.xSchedulerRunning = true) (alive : s.Alive t)
    (other : s.xIdleTaskHandle ≠ some t) : Fine m past s (s.vTaskDelete t) := by
  obtain ⟨l, before, alive⟩ := alive_iff.mp alive
  have known : (view s t).state ≠ none := by rw [before]; exact Option.some_ne_none _
  obtain ⟨priority, base⟩ := sound.core.priority known
  have notTerminated : ¬ Terminated (view s t).state := fun same => alive (Option.some.inj (Option.some.inj (before.symm.trans same)))
  have start := Moved.start sound.core.shown t
  rw [before] at start
  obtain ⟨b, call, moved⟩ := start.removeState s
  obtain ⟨b', calls, left, moved⟩ :=
    moved.leave { s with lists := b, calls := _ } ((sound.core.tasks t).known.not.mp known)
  unfold Kernel.vTaskDelete
  have others : ∀ t', t' ≠ t → s.uxPriority t' = s.uxPriority t' ∧ s.uxBasePriority t' = s.uxBasePriority t' ∧
      update s.due t none t' = s.due t' := fun t' apart => ⟨rfl, rfl, update_of_ne apart ..⟩
  by_cases self : t = s.pxCurrentTCB
  · obtain ⟨b'', call', moved⟩ := moved.insertEndState { s with lists := b', calls, due := update s.due t none }
      (l := .xTasksWaitingTermination) (sound.core.fixed _ trivial) (by rintro (same | same) <;> cases same)
    have own : TaskOk s.uxTopReadyPriority s.now s.pxDelayedTaskList s.pxOverflowDelayedTaskList s.xNextTaskUnblockTime
        ⟨some (some .xTasksWaitingTermination), some none, s.uxPriority t, s.uxBasePriority t, update s.due t none t,
          (view s t).value⟩ := by
      rw [base, update_self]
      exact TaskOk.gone (fun l same => (Option.some.inj same).symm) priority
    have counted : (tasksIn Placed b'').encard = s.uxCurrentNumberOfTasks := by
      rw [moved.tasksIn_same (iff_of_true ⟨_, rfl⟩ ⟨l, before⟩)]
      exact sound.core.counted
    have cleaned : (tasksIn Terminated b'').encard = (s.uxDeletedTasksWaitingCleanUp + 1 : ℕ) := by
      rw [moved.tasksIn_more (P := Terminated) rfl notTerminated, sound.core.cleaned]
      rfl
    have core : Core m past { s with
        lists := b''
        calls := _
        due := update s.due t none
        uxDeletedTasksWaitingCleanUp := s.uxDeletedTasksWaitingCleanUp + 1 } :=
      sound.core.change moved others own nofun le_rfl le_rfl sound.core.wakes counted cleaned
        (fun _ idle => absurd idle other) fun rest => absurd (running.symm.trans rest) nofun
    exact ⟨_, (bind_of call).trans ((bind_of left).trans ((if_pos self).trans (map_of call'))),
      ⟨steady_of_moved sound.toSteady moved core rfl (fun t' d => due_of_update) rfl rfl rfl rfl nofun,
        fun free => preempted_of_gone (sound.preempted free) moved rfl rfl rfl rfl nofun⟩, fun _ _ => ⟨rfl, rfl, rfl, rfl⟩⟩
  · have own : TaskOk s.uxTopReadyPriority s.now s.pxDelayedTaskList s.pxOverflowDelayedTaskList s.xNextTaskUnblockTime
        ⟨some none, some none, s.uxPriority t, s.uxBasePriority t, update s.due t none t, (view s t).value⟩ := by
      rw [base, update_self]
      exact TaskOk.gone nofun priority
    have counted := encard_pred (moved.tasksIn_fewer (by rintro ⟨l, same⟩; cases same) ⟨l, before⟩) sound.core.counted
    have cleaned : (tasksIn Terminated b').encard = s.uxDeletedTasksWaitingCleanUp := by
      rw [moved.tasksIn_same (iff_of_false nofun notTerminated)]
      exact sound.core.cleaned
    have core : Core m past { s with
        lists := b'
        calls
        due := update s.due t none
        uxCurrentNumberOfTasks := s.uxCurrentNumberOfTasks - 1 } :=
      sound.core.change moved others own nofun le_rfl le_rfl sound.core.wakes counted cleaned
        (fun _ idle => absurd idle other) fun rest => absurd (running.symm.trans rest) nofun
    obtain ⟨next, reset, core'⟩ := prvResetNextTaskUnblockTime_spec core
    exact ⟨_, (bind_of call).trans ((bind_of left).trans ((if_neg self).trans (congrArg some reset))),
      ⟨steady_of_moved sound.toSteady moved core' rfl (fun t' d => due_of_update) rfl rfl rfl rfl nofun,
        fun free => preempted_of_gone (sound.preempted free) moved rfl rfl rfl rfl nofun⟩, fun _ _ => ⟨rfl, rfl, rfl, rfl⟩⟩

/-- The idle task cleans up: there is a task to clean up when the count says so. -/
theorem cleanUp_fine (sound : Sound m past s) (running : s.xSchedulerRunning = true) :
    Fine m past s s.prvCheckTasksWaitingTermination := by
  unfold Kernel.prvCheckTasksWaitingTermination
  by_cases waiting : s.uxDeletedTasksWaitingCleanUp > 0
  · rw [if_pos waiting]
    have nonempty : (tasksIn Terminated s.lists).Nonempty := by
      rw [← Set.encard_ne_zero, sound.core.cleaned]
      exact_mod_cast waiting.ne'
    obtain ⟨t', there⟩ := nonempty
    have full : items s.lists .xTasksWaitingTermination ≠ [] :=
      List.ne_nil_of_mem (sound.core.shown.mem_items.mpr there)
    obtain ⟨head, rest, found⟩ := List.exists_cons_of_ne_nil full
    obtain ⟨t, rfl, before⟩ := sound.core.state_head (l := .xTasksWaitingTermination) nofun nofun found
    have known : (view s t).state ≠ none := by rw [before]; exact Option.some_ne_none _
    obtain ⟨priority, base⟩ := sound.core.priority known
    have unblocked : ∀ l, (view s t).state = some (some l) → ¬ Blocked l := by
      intro l here blocked
      obtain rfl := Option.some.inj (Option.some.inj (before.symm.trans here))
      rcases blocked with (same | same) | same <;> cases same
    have free : (view s t).event = some none := by
      cases place : (view s t).event with
      | none => exact absurd ((sound.core.tasks t).known.mpr place) known
      | some p =>
        cases p with
        | none => rfl
        | some l =>
          obtain ⟨-, l', here, blocked⟩ := (sound.core.tasks t).event l place
          exact absurd blocked (unblocked l' here)
    have due : s.due t = none := by
      by_contra timed
      obtain ⟨l, here, delay⟩ := (sound.core.tasks t).due.mp timed
      exact unblocked l here (.inl delay)
    have start := Moved.start sound.core.shown t
    rw [before, free] at start
    obtain ⟨b, call, moved⟩ := start.removeState s
    have own : TaskOk s.uxTopReadyPriority s.now s.pxDelayedTaskList s.pxOverflowDelayedTaskList s.xNextTaskUnblockTime
        ⟨some none, some none, s.uxPriority t, s.uxBasePriority t, s.due t, (view s t).value⟩ := by
      rw [base, due]
      exact TaskOk.gone nofun priority
    have counted := encard_pred (moved.tasksIn_fewer (by rintro ⟨l, same⟩; cases same) ⟨_, before⟩) sound.core.counted
    have cleaned := encard_pred (moved.tasksIn_fewer (P := Terminated) nofun before) sound.core.cleaned
    have core : Core m past { s with
        lists := b
        calls := _
        uxCurrentNumberOfTasks := s.uxCurrentNumberOfTasks - 1
        uxDeletedTasksWaitingCleanUp := s.uxDeletedTasksWaitingCleanUp - 1 } :=
      sound.core.change moved (fun t' _ => ⟨rfl, rfl, rfl⟩) own nofun le_rfl le_rfl sound.core.wakes counted cleaned
        (fun _ idle => absurd (before.symm.trans (idle_ready sound.core running idle)) nofun)
        fun rest => absurd (running.symm.trans rest) nofun
    simp only [found]
    exact ⟨_, map_of call, ⟨steady_of_moved sound.toSteady moved core rfl (fun _ _ due => due) rfl rfl rfl rfl nofun,
      fun free => preempted_of_gone (sound.preempted free) moved rfl rfl rfl rfl nofun⟩, fun _ _ => ⟨rfl, rfl, rfl, rfl⟩⟩
  · rw [if_neg waiting]
    exact ⟨s, rfl, sound, fun _ _ => ⟨rfl, rfl, rfl, rfl⟩⟩

/-! ### Priorities are changed -/

/-- The lists of event items are not in order. -/
theorem event_not_delay (core : Core m past s) (delay : Delay l) : (view s t).event ≠ some (some l) := by
  intro waits
  obtain ⟨apart, apart', -⟩ := delay_apart delay
  rcases ((core.tasks t).event l waits).1 with same | ⟨e, same⟩
  · exact apart same
  · exact apart' e same

/-- The value of an event item may be changed. -/
theorem setEventValue_spec {x y : Option (Option (ListName Event))} {v : TickType} (s₁ : Kernel Task Event)
    (moved : Moved m s t x y v s₁.lists s₁.calls) (free : ∀ l, Delay l → y ≠ some (some l)) (p : ℕ) :
    ∃ b calls, s₁.setEventValue t p = some { s₁ with lists := b, calls } ∧ Moved m s t x y v b calls := by
  unfold Kernel.setEventValue
  split
  case isTrue => exact ⟨s₁.lists, s₁.calls, rfl, moved⟩
  case isFalse =>
    obtain ⟨b, call, moved⟩ := moved.setEventValue s₁ (Kernel.eventValue p) free
    exact ⟨b, _, call, moved⟩

/-- The task has the new priority, and is in the list of that when it is ready. -/
theorem newPriority_spec (core : Core m past s) (running : s.xSchedulerRunning = true) (alive : s.Alive t) {new : ℕ}
    (low : new < configMAX_PRIORITIES) :
    ∃ x a calls top,
      ((Kernel.setEventValue { s with
          uxPriority := update s.uxPriority t new, uxBasePriority := update s.uxBasePriority t new } t new).bind fun s₁ =>
        if s₁.stateList t = some (.pxReadyTasksLists (s.uxPriority t)) then
          (s₁.listCall (.uxListRemove (.xStateListItem t))).bind fun s₁ => s₁.prvAddTaskToReadyList t
        else some s₁) = some { s with
          uxPriority := update s.uxPriority t new, uxBasePriority := update s.uxBasePriority t new
          lists := a, calls, uxTopReadyPriority := top } ∧
      Moved m s t x (view s t).event (view s t).value a calls ∧
      Core m past { s with
        uxPriority := update s.uxPriority t new, uxBasePriority := update s.uxBasePriority t new
        lists := a, calls, uxTopReadyPriority := top } ∧
      (x = some (some (.pxReadyTasksLists new)) → Ready (view s t)) := by
  obtain ⟨l, before, alive⟩ := alive_iff.mp alive
  have known : (view s t).state ≠ none := by rw [before]; exact Option.some_ne_none _
  have others : ∀ t', t' ≠ t → update s.uxPriority t new t' = s.uxPriority t' ∧
      update s.uxBasePriority t new t' = s.uxBasePriority t' ∧ s.due t' = s.due t' :=
    fun t' apart => ⟨update_of_ne apart .., update_of_ne apart .., rfl⟩
  have start := Moved.start core.shown t
  obtain ⟨b, calls, changed, moved⟩ := setEventValue_spec
    { s with uxPriority := update s.uxPriority t new, uxBasePriority := update s.uxBasePriority t new } start
    (fun l delay => event_not_delay core delay) new
  by_cases ready : Ready (view s t)
  · have here : container b (.xStateListItem t) = some (.pxReadyTasksLists (s.uxPriority t)) :=
      container_eq_some.mpr (moved.state.trans ready)
    have state : (view s t).state = some (some (.pxReadyTasksLists (s.uxPriority t))) := ready
    rw [state] at moved
    obtain ⟨b', call, moved⟩ := moved.removeState { s with
      uxPriority := update s.uxPriority t new, uxBasePriority := update s.uxBasePriority t new, lists := b, calls }
    have listed : s.lists.list (.pxReadyTasksLists (update s.uxPriority t new t)) ≠ none := by
      rw [update_self]
      exact core.fixed _ low
    obtain ⟨b'', calls', added, moved⟩ := moved.addToReady { s with
      uxPriority := update s.uxPriority t new, uxBasePriority := update s.uxBasePriority t new, lists := b', calls := _ } listed
    have own : TaskOk (max s.uxTopReadyPriority (update s.uxPriority t new t)) s.now s.pxDelayedTaskList
        s.pxOverflowDelayedTaskList s.xNextTaskUnblockTime
        ⟨some (some (.pxReadyTasksLists (update s.uxPriority t new t))), (view s t).event, update s.uxPriority t new t,
          update s.uxBasePriority t new t, s.due t, (view s t).value⟩ := by
      rw [update_self, update_self, ready_event core ready, ready_due core ready]
      exact TaskOk.ready low (le_max_right ..)
    exact ⟨_, _, _, _, (bind_of changed).trans ((if_pos here).trans ((bind_of call).trans added)), moved,
      core.move moved before alive nofun others own (le_max_left ..) le_rfl core.wakes running fun _ => rfl,
      fun _ => ready⟩
  · have apart : ¬ container b (.xStateListItem t) = some (.pxReadyTasksLists (s.uxPriority t)) :=
      fun here => ready (moved.state.symm.trans (container_eq_some.mp here))
    have blocked : Blocked l := by
      rcases (core.tasks t).state l before with same | blocked | same
      · exact absurd (before.trans (congrArg (some ∘ some) same)) ready
      · exact blocked
      · exact absurd same alive
    have ok := core.tasks t
    have own : TaskOk s.uxTopReadyPriority s.now s.pxDelayedTaskList s.pxOverflowDelayedTaskList s.xNextTaskUnblockTime
        ⟨some (some l), (view s t).event, update s.uxPriority t new t, update s.uxBasePriority t new t, s.due t,
          (view s t).value⟩ := by
      rw [update_self, update_self, ← before]
      refine { ok with state := ?_, priority := ?_, top := ?_ }
      · intro l' here
        obtain rfl := Option.some.inj (Option.some.inj (before.symm.trans here))
        exact .inr (.inl blocked)
      · exact fun _ => ⟨low, rfl⟩
      · intro here
        obtain rfl := Option.some.inj (Option.some.inj (before.symm.trans here))
        rcases blocked with (same | same) | same <;> cases same
    have moved' := moved
    rw [before] at moved'
    refine ⟨_, _, _, _, (bind_of changed).trans (if_neg apart), moved,
      core.move moved' before alive alive others own le_rfl le_rfl core.wakes running fun idle =>
        absurd (idle_ready core running idle) ready, ?_⟩
    intro same
    obtain rfl := Option.some.inj (Option.some.inj (before.symm.trans same))
    rcases blocked with (same | same) | same <;> cases same

theorem prioritySet_fine (sound : Sound m past s) (running : s.xSchedulerRunning = true) (alive : s.Alive t) (p : ℕ) :
    Fine m past s (s.vTaskPrioritySet t p) := by
  obtain ⟨new, clamped⟩ : ∃ new, (if p ≥ configMAX_PRIORITIES then configMAX_PRIORITIES - 1 else p) = new := ⟨_, rfl⟩
  have low : new < configMAX_PRIORITIES := by
    rw [← clamped]
    split
    case isTrue => decide
    case isFalse low => exact not_le.mp low
  unfold Kernel.vTaskPrioritySet
  simp only [clamped]
  by_cases changes : s.uxBasePriority t ≠ new
  · rw [if_pos changes]
    have base : s.uxBasePriority t = s.uxPriority t := by
      obtain ⟨l, before, -⟩ := alive_iff.mp alive
      exact (sound.core.priority (by rw [before]; exact Option.some_ne_none _)).2
    obtain ⟨x, a, calls, top, result, moved, core, was⟩ := newPriority_spec sound.core running alive low
    have steady := steady_of_moved sound.toSteady moved core rfl (fun _ _ due => due) rfl rfl rfl rfl id
    rw [if_pos base, ← Option.bind_assoc]
    generalize yields : (if new > s.uxBasePriority t then
        decide (t ≠ s.pxCurrentTCB ∧ new ≥ s.uxPriority s.pxCurrentTCB) else decide (t = s.pxCurrentTCB)) = required
    cases required with
    | true =>
      obtain ⟨s', switched, rest⟩ := switch_fine (s := s) steady running rfl ⟨rfl, rfl, rfl, rfl⟩
      exact ⟨s', (bind_of result).trans switched, rest⟩
    | false =>
      refine ⟨_, bind_of result, ⟨steady, ?_⟩, fun _ _ => ⟨rfl, rfl, rfl, rfl⟩⟩
      intro free none t' ready
      have still : Ready (view s t') → s.uxPriority t' ≤ s.uxPriority s.pxCurrentTCB := sound.preempted free none t'
      show update s.uxPriority t new t' ≤ update s.uxPriority t new s.pxCurrentTCB
      by_cases own : t' = t
      · subst own
        have there : x = some (some (.pxReadyTasksLists (update s.uxPriority t' new t'))) := moved.state.symm.trans ready
        rw [update_self] at there ⊢
        by_cases running : s.pxCurrentTCB = t'
        · rw [running, update_self]
        · rw [update_of_ne running]
          by_cases higher : new > s.uxBasePriority t'
          · rw [if_pos higher, decide_eq_false_iff_not, not_and] at yields
            exact (not_le.mp (yields (Ne.symm running))).le
          · exact (not_lt.mp higher).trans (base ▸ still (was there))
      · rw [update_of_ne own]
        have ready' : Ready (view s t') := by
          have there : a.place (.xStateListItem t') = some (some (.pxReadyTasksLists (update s.uxPriority t new t'))) := ready
          rw [update_of_ne own, (moved.others t' own).1] at there
          exact there
        by_cases running : s.pxCurrentTCB = t
        · rw [running, update_self]
          by_cases higher : new > s.uxBasePriority t
          · exact (still ready').trans (by rw [running, ← base]; exact higher.le)
          · rw [if_neg higher, decide_eq_false_iff_not] at yields
            exact absurd running.symm yields
        · rw [update_of_ne running]
          exact still ready'
  · rw [if_neg changes]
    exact ⟨s, rfl, sound, fun _ _ => ⟨rfl, rfl, rfl, rfl⟩⟩

/-! ### Tasks are created -/

/-- The items of a new task are initialised, and it has a priority that there is. -/
theorem prvInitialiseNewTask_spec {v : TickType} (moved : Moved m s t none none v s.lists s.calls) (p : ℕ) :
    ∃ a calls q, q < configMAX_PRIORITIES ∧ s.prvInitialiseNewTask t p = some { s with
        uxPriority := update s.uxPriority t q, uxBasePriority := update s.uxBasePriority t q, lists := a, calls } ∧
      Moved m s t (some none) (some none) v a calls := by
  obtain ⟨q, clamped⟩ : ∃ q, (if p ≥ configMAX_PRIORITIES then configMAX_PRIORITIES - 1 else p) = q := ⟨_, rfl⟩
  have low : q < configMAX_PRIORITIES := by
    rw [← clamped]
    split
    case isTrue => decide
    case isFalse low => exact not_le.mp low
  obtain ⟨b, call, moved⟩ := moved.initialiseState
    { s with uxPriority := update s.uxPriority t q, uxBasePriority := update s.uxBasePriority t q }
  obtain ⟨b', call', moved⟩ := moved.initialiseEvent
    { s with uxPriority := update s.uxPriority t q, uxBasePriority := update s.uxBasePriority t q, lists := b, calls := _ }
  obtain ⟨b'', call'', moved⟩ := moved.setEventValue
    { s with uxPriority := update s.uxPriority t q, uxBasePriority := update s.uxBasePriority t q, lists := b', calls := _ }
    (Kernel.eventValue q) nofun
  refine ⟨_, _, q, low, ?_, moved⟩
  unfold Kernel.prvInitialiseNewTask
  simp only [clamped]
  exact (bind_of call).trans ((bind_of call').trans ((bind_of call'').trans rfl))

/-- A new task is in the ready list of its priority, and one task more is counted. -/
theorem create_core (core : Core m past s) (new : (view s t).state = none) {q : ℕ} (low : q < configMAX_PRIORITIES)
    {b : AllLists Task Event} {calls : List (ListCall Task Event)}
    (moved : Moved m s t (some (some (.pxReadyTasksLists (update s.uxPriority t q t)))) (some none) (view s t).value b calls)
    {current : Task} (chosen : current = t ∨ current = s.pxCurrentTCB) (follows : Bool) :
    Core m past { s with
      uxPriority := update s.uxPriority t q, uxBasePriority := update s.uxBasePriority t q, lists := b, calls
      uxTopReadyPriority := max s.uxTopReadyPriority (update s.uxPriority t q t)
      uxCurrentNumberOfTasks := s.uxCurrentNumberOfTasks + 1, pxCurrentTCB := current, yieldFollows := follows } := by
  have due : s.due t = none := by
    by_contra some
    obtain ⟨l, here, -⟩ := (core.tasks t).due.mp some
    rw [new] at here
    cases here
  have own : TaskOk (max s.uxTopReadyPriority (update s.uxPriority t q t)) s.now s.pxDelayedTaskList
      s.pxOverflowDelayedTaskList s.xNextTaskUnblockTime ⟨some (some (.pxReadyTasksLists (update s.uxPriority t q t))),
        some none, update s.uxPriority t q t, update s.uxBasePriority t q t, s.due t, (view s t).value⟩ := by
    rw [update_self, update_self, due]
    exact TaskOk.ready low (le_max_right ..)
  have counted : (tasksIn Placed b).encard = (s.uxCurrentNumberOfTasks + 1 : ℕ) := by
    have unplaced : ¬ Placed (view s t).state := by
      rintro ⟨l, here⟩
      rw [new] at here
      cases here
    rw [moved.tasksIn_more (P := Placed) ⟨_, rfl⟩ unplaced, core.counted]
    rfl
  have cleaned : (tasksIn Terminated b).encard = s.uxDeletedTasksWaitingCleanUp := by
    have unplaced : ¬ Terminated (view s t).state := by
      rw [new]
      nofun
    rw [moved.tasksIn_same (iff_of_false nofun unplaced)]
    exact core.cleaned
  have more : Core m past { s with
      uxPriority := update s.uxPriority t q, uxBasePriority := update s.uxBasePriority t q, lists := b, calls
      uxTopReadyPriority := max s.uxTopReadyPriority (update s.uxPriority t q t)
      uxCurrentNumberOfTasks := s.uxCurrentNumberOfTasks + 1 } :=
    core.change moved (fun t' apart => ⟨update_of_ne apart .., update_of_ne apart .., rfl⟩) own nofun (le_max_left ..)
      le_rfl core.wakes counted cleaned (fun running idle => absurd (new.symm.trans (idle_ready core running idle)) nofun)
      fun rest => ⟨(core.resting rest).2.1, due⟩
  refine { more with current := ?_ }
  rcases chosen with rfl | rfl
  · exact fun none => nomatch moved.state.symm.trans none
  · exact more.current

/-- The task chosen has no lower priority than the one before, nor than the new one unless a yield follows. -/
theorem chosen_highest (prio : Task → ℕ) {before new current : Task} {running : Bool}
    (chosen : (if running = false ∧ prio before ≤ prio new then new else before) = current)
    (stays : ¬ (running = true ∧ prio current < prio new)) : prio new ≤ prio current ∧ prio before ≤ prio current := by
  by_cases first : running = false ∧ prio before ≤ prio new
  · rw [← chosen, if_pos first]
    exact ⟨le_rfl, first.2⟩
  · rw [← chosen, if_neg first] at stays ⊢
    refine ⟨?_, le_rfl⟩
    cases running with
    | true => exact not_lt.mp fun less => stays ⟨rfl, less⟩
    | false => exact (not_le.mp fun less => first ⟨rfl, less⟩).le

/-- A new task is ready, and before the scheduler runs the last one of the highest priority is the first to run. A yield
    follows when the scheduler runs and the new task has a higher priority than the running one. -/
theorem create_fine (sound : Sound m past s) (free : s.yieldFollows = false) (new : (view s t).state = none) (p : ℕ) :
    ∃ s', s.xTaskCreate t p = some s' ∧ Sound m past s' ∧
      (s.uxSchedulerSuspended ≠ 0 → s'.uxSchedulerSuspended ≠ 0 → Kept s s') ∧
      s'.xSchedulerRunning = s.xSchedulerRunning ∧ (s.xSchedulerRunning = false → s'.yieldFollows = false) ∧
      Ready (view s' t) ∧ ∀ t', t' ≠ t → view s' t' = view s t' := by
  have notCurrent : s.pxCurrentTCB ≠ t := fun same => sound.core.current (same ▸ new)
  have start := Moved.start sound.core.shown t
  rw [new, (sound.core.tasks t).known.mp new] at start
  obtain ⟨a, calls, q, low, initialised, moved⟩ := prvInitialiseNewTask_spec start p
  obtain ⟨current, chosen⟩ : ∃ current, (if s.xSchedulerRunning = false ∧
      update s.uxPriority t q s.pxCurrentTCB ≤ update s.uxPriority t q t then t else s.pxCurrentTCB) = current := ⟨_, rfl⟩
  have listed : s.lists.list (.pxReadyTasksLists (update s.uxPriority t q t)) ≠ none := by
    rw [update_self]
    exact sound.core.fixed _ low
  obtain ⟨b, calls', added, moved⟩ := moved.addToReady { s with
    uxPriority := update s.uxPriority t q, uxBasePriority := update s.uxBasePriority t q, lists := a, calls
    uxCurrentNumberOfTasks := s.uxCurrentNumberOfTasks + 1, pxCurrentTCB := current } listed
  obtain ⟨follows, later⟩ : ∃ follows, decide (s.xSchedulerRunning = true ∧
      update s.uxPriority t q current < update s.uxPriority t q t) = follows := ⟨_, rfl⟩
  have core : Core m past { s with
      uxPriority := update s.uxPriority t q, uxBasePriority := update s.uxBasePriority t q, lists := b, calls := calls'
      uxTopReadyPriority := max s.uxTopReadyPriority (update s.uxPriority t q t)
      uxCurrentNumberOfTasks := s.uxCurrentNumberOfTasks + 1, pxCurrentTCB := current, yieldFollows := follows } := by
    refine create_core sound.core new low moved ?_ follows
    rw [← chosen]
    split
    case isTrue => exact .inl rfl
    case isFalse => exact .inr rfl
  refine ⟨_, (bind_of initialised).trans ?_, ⟨steady_of_moved sound.toSteady moved core rfl (fun _ _ due => due) rfl rfl
    rfl rfl nofun, ?_⟩, ?_, rfl, ?_, moved.state, ?_⟩
  · subst chosen
    subst later
    exact map_of added
  · intro stays none t' ready
    have lower : ¬ (s.xSchedulerRunning = true ∧ update s.uxPriority t q current < update s.uxPriority t q t) :=
      decide_eq_false_iff_not.mp (later.trans stays)
    have highest := chosen_highest (update s.uxPriority t q) chosen lower
    show update s.uxPriority t q t' ≤ update s.uxPriority t q current
    by_cases own : t' = t
    · rw [own]
      exact highest.1
    · have there : b.place (.xStateListItem t') = some (some (.pxReadyTasksLists (update s.uxPriority t q t'))) := ready
      rw [update_of_ne own, (moved.others t' own).1] at there
      have before := sound.preempted free none t' there
      rw [update_of_ne own]
      rw [update_of_ne notCurrent] at highest
      exact before.trans highest.2
  · intro busy _
    have running : s.xSchedulerRunning = true := by
      by_contra rest
      exact busy (sound.core.resting (by simpa using rest)).2.2.1
    exact ⟨chosen.symm.trans (if_neg fun both => absurd both.1 (by rw [running]; nofun)), rfl, rfl, rfl⟩
  · intro rest
    refine later.symm.trans (decide_eq_false ?_)
    rw [rest]
    exact fun both => nomatch both.1
  · intro t' apart
    obtain ⟨state, event, value⟩ := moved.others t' apart
    simp only [view, state, event, value, update_of_ne apart]

/-- The scheduler is started with the idle task and the task of the timers. -/
theorem start_fine (sound : Sound m past s) (free : s.yieldFollows = false) (rest : s.xSchedulerRunning = false)
    {idle timer : Task} (apart : idle ≠ timer) (newIdle : (view s idle).state = none) (newTimer : (view s timer).state = none) :
    Fine m past s (s.vTaskStartScheduler idle timer) := by
  obtain ⟨s₁, created, sound₁, -, running₁, free₁, ready, others⟩ := create_fine sound free newIdle 0
  have new₁ : (view s₁ timer).state = none := by
    rw [others timer apart.symm]
    exact newTimer
  obtain ⟨s₂, created', sound₂, -, running₂, -, -, others'⟩ :=
    create_fine sound₁ (free₁ rest) new₁ (configMAX_PRIORITIES - 1)
  obtain ⟨now, quiet, active, undue⟩ := sound₂.core.resting (running₂.trans (running₁.trans rest))
  have core : Core m past { s₂ with
      xIdleTaskHandle := some idle, xNextTaskUnblockTime := portMAX_DELAY, xSchedulerRunning := true, xTickCount := 0 } := by
    refine { sound₂.core with tasks := ?_, tick := ?_, idle := ?_, resting := nofun }
    · intro t
      refine { sound₂.core.tasks t with delayed := ?_ }
      intro d due
      exact absurd ((undue t).symm.trans due) nofun
    · show (0 : TickType).val = s₂.now % 2 ^ 64
      rw [now]
      rfl
    · intro _
      have still : Ready (view s₂ idle) := by
        rw [others' idle apart]
        exact ready
      exact ⟨idle, rfl, still⟩
  refine ⟨_, (bind_of created).trans (map_of created'), ⟨⟨core, sound₂.onTime, sound₂.settled, sound₂.ticks⟩,
    sound₂.preempted⟩, ?_⟩
  intro busy
  exact absurd (sound.core.resting rest).2.2.1 busy

/-- A new list of the tasks that wait for an event. -/
theorem newEvent_fine (sound : Sound m past s) {e : Event} (new : s.lists.list (.event e) = none) :
    Fine m past s (s.listCall (.vListInitialise (.event e))) := by
  obtain ⟨b, taken, shown, place, value, lists⟩ := shown_initialise sound.core.shown new
  have result : s.listCall (.vListInitialise (.event e)) =
      some { s with lists := b, calls := s.calls ++ [.vListInitialise (.event e)] } := by
    rw [Kernel.listCall, taken, Option.map_some]
  have views : ∀ t, View.mk (b.place (.xStateListItem t)) (b.place (.xEventListItem t)) (s.uxPriority t)
      (s.uxBasePriority t) (s.due t) (b.value (.xStateListItem t)) = view s t := by
    intro t
    rw [place, value]
    rfl
  have core : Core m past { s with lists := b, calls := s.calls ++ [.vListInitialise (.event e)] } := by
    refine ⟨shown, sound.core.past.trans (List.prefix_append _ _), ?_, ?_, ?_, sound.core.pointers, ?_, sound.core.tick,
      sound.core.wakes, ?_, ?_, ?_, sound.core.resting⟩
    · rw [sound.core.shown.readyTurns_quiet (c := .vListInitialise (.event e)) (by simp)]
      exact sound.core.turns
    · intro l fix none
      exact sound.core.fixed l fix ((lists l).mp none).1
    · intro t
      show TaskOk _ _ _ _ _ (View.mk ..)
      rw [views]
      exact sound.core.tasks t
    · show (View.mk ..).state ≠ none
      rw [views]
      exact sound.core.current
    · rw [tasksIn_congr place]
      exact sound.core.counted
    · rw [tasksIn_congr place]
      exact sound.core.cleaned
    · intro running
      obtain ⟨i, handle, ready⟩ := sound.core.idle running
      exact ⟨i, handle, (congrFun place _).trans ready⟩
  refine ⟨_, result, ⟨⟨core, sound.onTime, ?_, sound.ticks⟩, ?_⟩, fun _ _ => ⟨rfl, rfl, rfl, rfl⟩⟩
  · intro active
    refine ⟨(sound.settled active).1, ?_⟩
    intro t waits
    exact (sound.settled active).2 t ((congrFun place _).symm.trans waits)
  · intro free none t ready
    exact sound.preempted free none t ((congrFun place _).symm.trans ready)

/-! ### All steps -/

/-- Every step that may come has a result as it should be. -/
theorem act_spec (sound : Sound m past s) (a : KernelAction Task Event) (allowed : s.Allowed a) : Fine m past s (s.act a) := by
  obtain ⟨only, allowed⟩ := allowed
  -- a call of the running task does not come when a yield follows
  have free : a.interrupts = false → a.yields = false → s.yieldFollows = false := by
    intro outside stays
    by_contra follows
    have comes := only (Bool.not_eq_false _ ▸ follows)
    rw [outside, stays] at comes
    exact comes.elim nofun nofun
  cases a with
  | xTaskCreate t p =>
    obtain ⟨s', created, sound', kept, -⟩ := create_fine sound (free rfl rfl) allowed.1 p
    exact ⟨s', created, sound', kept⟩
  | vTaskStartScheduler idle timer =>
    exact start_fine sound (free rfl rfl) allowed.1 allowed.2.1 allowed.2.2.1 allowed.2.2.2
  | vListInitialise e => exact newEvent_fine sound allowed.1
  | vPortSystemTickHandler => exact tick_fine sound allowed
  | vPortYield => exact switch_fine sound.toSteady allowed rfl ⟨rfl, rfl, rfl, rfl⟩
  | vTaskSuspendAll => exact suspendAll_fine sound allowed.1
  | xTaskResumeAll => exact resumeAll_fine sound (free rfl rfl) allowed.1 allowed.2
  | vTaskDelay n =>
    obtain ⟨running, awake, suspended, other, positive⟩ := allowed
    exact delay_fine sound running awake suspended other positive
  | vTaskPlaceOnEventList e n =>
    obtain ⟨running, awake, suspended, other, positive, listed⟩ := allowed
    exact place_fine sound running awake suspended other listed positive
  | xTaskRemoveFromEventList e => exact removeFromEventList_fine sound allowed.1 allowed.2
  | vTaskSuspend t => exact suspend_fine sound allowed.1 allowed.2.2.1 allowed.2.2.2.1
  | prvResetNextTaskUnblockTime => exact reset_fine sound
  | vTaskResume t => exact resume_fine sound allowed.1
  | xTaskResumeFromISR t => exact resumeFromISR_fine sound allowed.1
  | vTaskPrioritySet t p => exact prioritySet_fine sound allowed.1 allowed.2.2 p
  | vTaskDelete t => exact delete_fine sound allowed.1 allowed.2.2.1 allowed.2.2.2.1
  | prvCheckTasksWaitingTermination => exact cleanUp_fine sound allowed.1

end OsyProg.TaskActions
