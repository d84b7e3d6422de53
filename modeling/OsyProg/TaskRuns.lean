import OsyProg.TaskActions

/-!
Runs of the scheduler from the creation of the first task on, with the modelled calls of the
running tasks and the interrupts in any order. Every step that may come has a result, and all
uses of the lists are as documented (`run_succeeds`). The running task has the highest priority
of all that are ready unless a yield is pending or follows (`highest_runs`), tasks of one priority have
their turns in a fixed order (`slices_round`), a delayed task is woken at the tick for which it
asked and no later one, also when the tick count starts anew (`timeouts_exact`), and while
the scheduler is suspended it does nothing, and makes up for it afterwards (`suspended_kept`).
-/
namespace OsyProg.TaskRuns
open OsyProg.Cursors OsyProg.KernelLists OsyProg.TaskLists OsyProg.TaskKernel OsyProg.TaskStates OsyProg.TaskSteps
open OsyProg.TaskActions Function
open OsyProg.ListCalls hiding step
open OsyProg.Runs (exec trace trace_append exec_append_iff exec_cons_iff exec_simulates exec_kept Reachable reachable_kept
  AllStates allStates_head)
set_option linter.unusedSectionVars false

variable {Task Event : Type} [DecidableEq Task] [DecidableEq Event] {m : ListMemory Task Event}
  {past : List (ListCall Task Event)} {s s' s₀ : Kernel Task Event} {t : Task} {p : ℕ}

/-! ### The first task -/

theorem start_shown (m : ListMemory Task Event) : Shown m (Lists.start m) [] := ⟨rfl, fun l _ => start_inOrder m l⟩

/-- New lists are initialised, one after the other. -/
theorem initialise_lists (ls : List (ListName Event)) (s₁ : Kernel Task Event) (shown : Shown m s₁.lists s₁.calls)
    (nodup : ls.Nodup) (new : ∀ l ∈ ls, s₁.lists.list l = none) :
    ∃ b calls, s₁.listCalls (ls.map .vListInitialise) = some { s₁ with lists := b, calls } ∧ Shown m b calls ∧
      readyTurns m calls = readyTurns m s₁.calls ∧ b.place = s₁.lists.place ∧ b.value = s₁.lists.value ∧
      ∀ l, b.list l = none ↔ s₁.lists.list l = none ∧ l ∉ ls := by
  induction ls generalizing s₁ with
  | nil => exact ⟨_, _, rfl, shown, rfl, rfl, rfl, fun l => by simp⟩
  | cons l ls ih =>
    obtain ⟨fresh, nodup⟩ := List.nodup_cons.mp nodup
    obtain ⟨b, taken, shown', place, value, lists⟩ := shown_initialise shown (new l (.head _))
    have call : s₁.listCall (.vListInitialise l) = some { s₁ with lists := b, calls := s₁.calls ++ [.vListInitialise l] } := by
      rw [Kernel.listCall, taken, Option.map_some]
    have new' : ∀ l' ∈ ls, b.list l' = none := by
      intro l' inside
      exact (lists l').mpr ⟨new l' (.tail _ inside), fun same => fresh (same ▸ inside)⟩
    obtain ⟨b', calls, rest, shown'', turns, place', value', lists'⟩ :=
      ih { s₁ with lists := b, calls := s₁.calls ++ [.vListInitialise l] } shown' nodup new'
    refine ⟨b', calls, (bind_of call).trans rest, shown'', turns.trans ?_, place'.trans place, value'.trans value, ?_⟩
    · exact shown.readyTurns_quiet (c := .vListInitialise l) (by simp)
    · intro l'
      rw [lists', lists, List.mem_cons, not_or, and_assoc]

/-- All lists that `prvInitialiseTaskLists` initialises. -/
def fixedLists : List (ListName Event) :=
  (List.range configMAX_PRIORITIES).map .pxReadyTasksLists ++
    [.xDelayedTaskList1, .xDelayedTaskList2, .xPendingReadyList, .xTasksWaitingTermination, .xSuspendedTaskList]

theorem mem_fixedLists {l : ListName Event} (fix : Fixed l) : l ∈ fixedLists := by
  cases l with
  | pxReadyTasksLists p =>
    have low : p < configMAX_PRIORITIES := fix
    simpa [fixedLists] using low
  | event e => exact fix.elim
  | _ => simp [fixedLists]

theorem fixedLists_nodup : (fixedLists : List (ListName Event)).Nodup := by
  rw [fixedLists, List.nodup_append]
  refine ⟨?_, by simp, by simp⟩
  exact List.nodup_range.map fun p q same => ListName.pxReadyTasksLists.inj same

/-- The first task is created and everything is as it should be. -/
theorem firstTask_sound (m : ListMemory Task Event) (t : Task) (p : ℕ) :
    ∃ s₀, Kernel.firstTask m t p = some s₀ ∧ Sound m [] s₀ := by
  obtain ⟨s, start⟩ : ∃ s : Kernel Task Event, s = {
    lists := Lists.start m, uxPriority := fun _ => 0, uxBasePriority := fun _ => 0, pxCurrentTCB := t
    pxDelayedTaskList := .xDelayedTaskList1, pxOverflowDelayedTaskList := .xDelayedTaskList2
    uxDeletedTasksWaitingCleanUp := 0, uxCurrentNumberOfTasks := 1, xTickCount := 0, uxTopReadyPriority := 0
    xSchedulerRunning := false, xPendedTicks := 0, xYieldPending := false, xNumOfOverflows := 0, xNextTaskUnblockTime := 0
    xIdleTaskHandle := none, uxSchedulerSuspended := 0, calls := [], ticks := 0, now := 0, due := fun _ => none, wakes := []
    switchedIn := [], yieldFollows := false } := ⟨_, rfl⟩
  have lists : s.lists = Lists.start m := by rw [start]
  have calls : s.calls = [] := by rw [start]
  have shown : Shown m s.lists s.calls := by
    rw [lists, calls]
    exact start_shown m
  have unplaced : ∀ i, s.lists.place i = none := by
    rw [lists]
    exact fun i => rfl
  have begun := Moved.start shown t
  rw [show (view s t).state = none from unplaced _, show (view s t).event = none from unplaced _] at begun
  obtain ⟨a, calls₁, q, low, initialised, moved⟩ := prvInitialiseNewTask_spec begun p
  have new : ∀ l ∈ fixedLists, a.list l = none := by
    intro l _
    rw [moved.lists, lists]
    rfl
  obtain ⟨b, calls₂, listed, shown₂, turns, place, -, known⟩ := initialise_lists fixedLists
    { s with uxPriority := update s.uxPriority t q, uxBasePriority := update s.uxBasePriority t q, lists := a, calls := calls₁ }
    moved.shown fixedLists_nodup new
  have initialised' : Kernel.prvInitialiseTaskLists
      { s with uxPriority := update s.uxPriority t q, uxBasePriority := update s.uxBasePriority t q, lists := a, calls := calls₁ } =
      some { s with
        uxPriority := update s.uxPriority t q, uxBasePriority := update s.uxBasePriority t q, lists := b, calls := calls₂
        pxDelayedTaskList := .xDelayedTaskList1, pxOverflowDelayedTaskList := .xDelayedTaskList2 } := by
    rw [fixedLists, List.map_append, List.map_map] at listed
    exact map_of listed
  -- what is known of the tasks before the first one is ready
  obtain ⟨s₂, second⟩ : ∃ s₂ : Kernel Task Event, s₂ = { s with
    uxPriority := update s.uxPriority t q, uxBasePriority := update s.uxBasePriority t q, lists := b, calls := calls₂
    pxDelayedTaskList := .xDelayedTaskList1, pxOverflowDelayedTaskList := .xDelayedTaskList2 } := ⟨_, rfl⟩
  rw [← second] at initialised'
  have lists₂ : s₂.lists = b := by rw [second]
  have calls₂' : s₂.calls = calls₂ := by rw [second]
  have prio₂ : s₂.uxPriority t = q ∧ s₂.uxBasePriority t = q := by
    rw [second]
    exact ⟨update_self .., update_self ..⟩
  have state₂ : (view s₂ t).state = some none := by
    rw [view, lists₂, place]
    exact moved.state
  have event₂ : (view s₂ t).event = some none := by
    rw [view, lists₂, place]
    exact moved.event
  have others₂ : ∀ t', t' ≠ t → (view s₂ t').state = none ∧ (view s₂ t').event = none := by
    intro t' apart
    obtain ⟨state, event, -⟩ := moved.others t' apart
    rw [view, lists₂, place]
    exact ⟨state.trans (unplaced _), event.trans (unplaced _)⟩
  have begun₂ : Moved m s₂ t (view s₂ t).state (view s₂ t).event (view s₂ t).value s₂.lists s₂.calls :=
    Moved.start (by rw [lists₂, calls₂']; exact shown₂) t
  rw [state₂, event₂] at begun₂
  have fixed₂ : ∀ l, Fixed l → s₂.lists.list l ≠ none := by
    intro l fix none
    rw [lists₂, known] at none
    exact none.2 (mem_fixedLists fix)
  obtain ⟨c, calls₃, added, moved₃⟩ := begun₂.addToReady s₂ (fixed₂ _ (by rw [prio₂.1]; exact low))
  rw [prio₂.1] at added moved₃
  have due₂ : ∀ t', s₂.due t' = none := by rw [second, start]; exact fun _ => rfl
  have running₂ : s₂.xSchedulerRunning = false := by rw [second, start]
  have suspended₂ : s₂.uxSchedulerSuspended = 0 ∧ s₂.xPendedTicks = 0 ∧ s₂.xYieldPending = false := by
    rw [second, start]
    exact ⟨rfl, rfl, rfl⟩
  have time₂ : s₂.now = 0 ∧ s₂.xTickCount = 0 ∧ s₂.ticks = 0 ∧ s₂.wakes = [] := by
    rw [second, start]
    exact ⟨rfl, rfl, rfl, rfl⟩
  have current₂ : s₂.pxCurrentTCB = t ∧ s₂.uxCurrentNumberOfTasks = 1 ∧ s₂.uxDeletedTasksWaitingCleanUp = 0 := by
    rw [second, start]
    exact ⟨rfl, rfl, rfl⟩
  have others₃ : ∀ t', t' ≠ t → c.place (.xStateListItem t') = none ∧ c.place (.xEventListItem t') = none := by
    intro t' apart
    obtain ⟨state, event, -⟩ := moved₃.others t' apart
    exact ⟨state.trans (others₂ t' apart).1, event.trans (others₂ t' apart).2⟩
  have nobody : ∀ t', ¬ Placed (s₂.lists.place (.xStateListItem t')) := by
    rintro t' ⟨l, here⟩
    by_cases own : t' = t
    · subst own
      exact absurd (state₂.symm.trans here) (by simp)
    · exact absurd ((others₂ t' own).1.symm.trans here) (by simp)
  have alone : tasksIn Placed s₂.lists = ∅ := Set.eq_empty_of_forall_notMem nobody
  have result : Kernel.firstTask m t p = some { s₂ with
      lists := c, calls := calls₃, uxTopReadyPriority := max s₂.uxTopReadyPriority q } := by
    have parts : Kernel.firstTask m t p = (s.prvInitialiseNewTask t p).bind fun s =>
        s.prvInitialiseTaskLists.bind fun s => s.prvAddTaskToReadyList t := by
      rw [start]
      rfl
    rw [parts, bind_of initialised, bind_of initialised', added]
  have core : Core m [] { s₂ with lists := c, calls := calls₃, uxTopReadyPriority := max s₂.uxTopReadyPriority q } := by
    refine ⟨moved₃.shown, List.nil_prefix, ?_, ?_, ?_, ?_, ?_, ?_, ?_, ?_, ?_, ?_, ?_⟩
    · have silent : s₂.switchedIn = [] := by rw [second, start]
      show s₂.switchedIn = readyTurns m calls₃
      rw [moved₃.turns, calls₂', turns, silent]
      show [] = readyTurns m calls₁
      rw [moved.turns, calls]
      rfl
    · intro l fix none
      exact fixed₂ l fix ((moved₃.lists l).mp none)
    · intro t'
      by_cases own : t' = t
      · subst own
        simp only [view, moved₃.state, moved₃.event, prio₂.1, prio₂.2, due₂]
        exact TaskOk.ready low (le_max_right ..)
      · simp only [view, (others₃ t' own).1, (others₃ t' own).2, due₂]
        exact TaskOk.unknown
    · rw [second]
      exact .inl ⟨rfl, rfl⟩
    · simp only [view, current₂.1, moved₃.state]
      exact Option.some_ne_none _
    · show s₂.xTickCount.val = s₂.now % 2 ^ 64
      rw [time₂.1, time₂.2.1]
      rfl
    · intro w inside
      rw [show s₂.wakes = [] from time₂.2.2.2] at inside
      cases inside
    · show (tasksIn Placed c).encard = s₂.uxCurrentNumberOfTasks
      rw [moved₃.tasksIn_more (P := Placed) ⟨_, rfl⟩ (nobody t), alone, Set.encard_empty, current₂.2.1]
      rfl
    · have none : tasksIn Terminated c = ∅ := by
        refine Set.eq_empty_of_forall_notMem ?_
        intro t' here
        by_cases own : t' = t
        · subst own
          exact absurd (moved₃.state.symm.trans here) (by simp)
        · exact absurd ((others₃ t' own).1.symm.trans here) (by simp)
      show (tasksIn Terminated c).encard = s₂.uxDeletedTasksWaitingCleanUp
      rw [none, Set.encard_empty, current₂.2.2]
      rfl
    · intro running
      exact absurd (running₂.symm.trans running) (by simp)
    · intro _
      exact ⟨time₂.1, suspended₂.2.2, suspended₂.1, due₂⟩
  refine ⟨_, result, ⟨⟨core, ?_, ?_, ?_⟩, ?_⟩⟩
  · intro t' d due
    exact absurd ((due₂ t').symm.trans due) (by simp)
  · intro _
    refine ⟨suspended₂.2.1, ?_⟩
    intro t' waits
    by_cases own : t' = t
    · subst own
      exact absurd (moved₃.event.symm.trans waits) (by simp)
    · exact absurd ((others₃ t' own).2.symm.trans waits) (by simp)
  · show s₂.ticks % 2 ^ 64 = (s₂.now + s₂.xPendedTicks.val) % 2 ^ 64
    rw [time₂.1, time₂.2.2.1, suspended₂.2.1]
    rfl
  · intro _ _ t' ready
    have own : t' = t := by
      by_contra other
      exact absurd ((others₃ t' other).1.symm.trans ready) (by simp)
    show s₂.uxPriority t' ≤ s₂.uxPriority s₂.pxCurrentTCB
    rw [own, current₂.1]

/-! ### Runs -/

theorem step_eq_some {a : KernelAction Task Event} (taken : step s a = some s') : s.Allowed a ∧ s.act a = some s' := by
  unfold step at taken
  split at taken
  case isTrue allowed => exact ⟨allowed, taken⟩
  case isFalse => cases taken

theorem step_sound (s : Kernel Task Event) (a : KernelAction Task Event) (s' : Kernel Task Event) (sound : Sound m past s)
    (taken : step s a = some s') :
    Sound m past s' ∧ (s.uxSchedulerSuspended ≠ 0 → s'.uxSchedulerSuspended ≠ 0 → Kept s s') := by
  obtain ⟨allowed, done⟩ := step_eq_some taken
  obtain ⟨s'', result, sound', kept⟩ := act_spec sound a allowed
  obtain rfl := Option.some.inj (done.symm.trans result)
  exact ⟨sound', kept⟩

theorem reached_sound (first : Kernel.firstTask m t p = some s₀) (reached : Reachable step s₀ s) : Sound m [] s := by
  obtain ⟨s₁, first', sound⟩ := firstTask_sound m t p
  obtain rfl := Option.some.inj (first.symm.trans first')
  exact reachable_kept (fun s a s' sound taken => (step_sound s a s' sound taken).1) sound reached

/-- From here on the calls that were made so far are the first ones. -/
theorem sound_now (sound : Sound m past s) : Sound m s.calls s :=
  { sound with core := { sound.core with past := List.prefix_refl _ } }

/-- In whatever order the modelled calls and the interrupts come, every step that may come has a result, and the functions of
    `list.c` are used as documented: the memory shows the lists. -/
theorem run_succeeds (m : ListMemory Task Event) (t : Task) (p : ℕ) :
    ∃ s₀, Kernel.firstTask m t p = some s₀ ∧ ∀ s, Reachable step s₀ s →
      (∀ a, s.Allowed a → ∃ s', step s a = some s') ∧
        ∃ m', exec ListCalls.step m s.calls = some m' ∧ Represents m' s.lists := by
  obtain ⟨s₀, first, -⟩ := firstTask_sound m t p
  refine ⟨s₀, first, ?_⟩
  intro s reached
  have sound := reached_sound first reached
  refine ⟨?_, ?_⟩
  · intro a allowed
    obtain ⟨s', result, -⟩ := act_spec sound a allowed
    exact ⟨s', (if_pos allowed).trans result⟩
  · obtain ⟨m', run, shows, -⟩ := exec_simulates step_represents (start_represents m) sound.core.shown.run
    exact ⟨m', run, shows⟩

/-- Some memory before anything is initialised. -/
def garbage : ListMemory ℕ Unit where
  pxNext := id
  pxPrevious := id
  xItemValue := fun _ => 7
  pxContainer := fun _ => none
  pxIndex := fun _ => .xListEnd .xDelayedTaskList1
  uxNumberOfItems := fun _ => 9

/-- Two tasks of one priority take turns while the task of the timers is suspended, and one of them sleeps for two ticks. -/
def sleeping : List (KernelAction ℕ Unit) :=
  [.xTaskCreate 1 5, .vTaskStartScheduler 2 3, .vTaskSuspend 3, .vPortYield, .vTaskSuspendAll, .vTaskDelay 2, .xTaskResumeAll,
    .vPortYield, .vPortSystemTickHandler, .vPortSystemTickHandler]

/-! ### States of tasks -/

theorem placed_iff : s.stateList t ≠ none ↔ t ∈ tasksIn Placed s.lists := by
  rw [Option.ne_none_iff_exists']
  exact exists_congr fun l => container_eq_some

/-- Each task is in the list of one state, and waits for an event or to be made ready only when it is blocked; the counts of
    tasks and of those to be cleaned up are exact, and the idle task is always ready. -/
theorem tasks_accounted (first : Kernel.firstTask m t p = some s₀) (reached : Reachable step s₀ s) :
    {t' | s.stateList t' ≠ none}.encard = s.uxCurrentNumberOfTasks ∧
      {t' | s.stateList t' = some .xTasksWaitingTermination}.encard = s.uxDeletedTasksWaitingCleanUp ∧
      (∀ t' l, s.stateList t' = some l → l = .pxReadyTasksLists (s.uxPriority t') ∨ Blocked l ∨
        l = .xTasksWaitingTermination) ∧
      (∀ t' l, s.eventList t' = some l → (l = .xPendingReadyList ∨ ∃ e, l = .event e) ∧
        ∃ l', s.stateList t' = some l' ∧ Blocked l') ∧
      (s.xSchedulerRunning = true → ∃ idle, s.xIdleTaskHandle = some idle ∧
        s.stateList idle = some (.pxReadyTasksLists (s.uxPriority idle))) := by
  have core := (reached_sound first reached).core
  refine ⟨?_, ?_, ?_, ?_, ?_⟩
  · rw [← core.counted]
    exact congrArg _ (Set.ext fun t' => placed_iff)
  · rw [← core.cleaned]
    exact congrArg _ (Set.ext fun t' => container_eq_some)
  · intro t' l here
    exact (core.tasks t').state l (container_eq_some.mp here)
  · intro t' l waits
    obtain ⟨kind, l', here, blocked⟩ := (core.tasks t').event l (container_eq_some.mp waits)
    exact ⟨kind, l', container_eq_some.mpr here, blocked⟩
  · intro running
    obtain ⟨idle, handle, ready⟩ := core.idle running
    exact ⟨idle, handle, container_eq_some.mpr ready⟩

theorem tasks_accounted_sample : ∃ s₀ s, Kernel.firstTask garbage 0 5 = some s₀ ∧ exec step s₀ sleeping = some s ∧
    {t | s.stateList t ≠ none}.encard = 4 := by
  obtain ⟨count, -⟩ := tasks_accounted (m := garbage) (t := 0) (p := 5) rfl ⟨sleeping, rfl⟩
  exact ⟨_, _, rfl, rfl, count⟩

/-! ### The running task -/

/-- After a switch with the scheduler not suspended. -/
theorem switched_spec {s₁ : Kernel Task Event} (core : Core m past s₁) (running : s₁.xSchedulerRunning = true)
    (active : s₁.uxSchedulerSuspended = 0) (switched : s₁.vTaskSwitchContext = some s') :
    s'.xYieldPending = false ∧ s'.yieldFollows = false ∧ s'.Awake := by
  obtain ⟨a, calls, t, result, core', place, -, ready, -⟩ := vTaskSwitchContext_spec core running active
  obtain rfl := Option.some.inj (switched.symm.trans result)
  exact ⟨rfl, rfl, container_eq_some.mpr ((congrFun place _).trans ready)⟩

/-- The running task has the highest priority of all ready tasks unless a yield is pending, or follows the creation of a
    task: then only that yield, and interrupts, may come. No task waits to be made ready unless the scheduler is suspended,
    and every yield and every tick with the scheduler not suspended sees to it. -/
theorem highest_runs (first : Kernel.firstTask m t p = some s₀) (reached : Reachable step s₀ s)
    (running : s.xSchedulerRunning = true) :
    (s.xYieldPending = false → s.yieldFollows = false →
      ∀ q, items s.lists (.pxReadyTasksLists q) ≠ [] → q ≤ s.uxPriority s.pxCurrentTCB) ∧
      (∀ a s', s.yieldFollows = true → step s a = some s' → a = .vPortYield ∨ a = .vPortSystemTickHandler ∨
        (∃ e, a = .xTaskRemoveFromEventList e) ∨ ∃ t', a = .xTaskResumeFromISR t') ∧
      (s.uxSchedulerSuspended = 0 → items s.lists .xPendingReadyList = []) ∧
      ∀ a s', a = .vPortYield ∨ a = .vPortSystemTickHandler → s.uxSchedulerSuspended = 0 → step s a = some s' →
        s'.xYieldPending = false ∧ s'.yieldFollows = false ∧ s'.Awake := by
  have sound := reached_sound first reached
  refine ⟨?_, ?_, ?_, ?_⟩
  · intro quiet free q full
    obtain ⟨head, rest, found⟩ := List.exists_cons_of_ne_nil full
    obtain ⟨t', rfl, here⟩ := sound.core.state_head (l := .pxReadyTasksLists q) nofun nofun found
    have own : q = s.uxPriority t' := by
      rcases (sound.core.tasks t').state _ here with same | ((same | same) | same) | same <;> cases same
      rfl
    subst own
    exact sound.preempted free quiet t' here
  · intro a s' follows taken
    have comes := (step_eq_some taken).1.1 follows
    cases a <;> simp [KernelAction.interrupts, KernelAction.yields] at comes ⊢
  · intro active
    refine List.eq_nil_iff_forall_not_mem.mpr ?_
    intro i inside
    have there := sound.core.shown.mem_items.mp inside
    cases i with
    | xStateListItem t' =>
      rcases (sound.core.tasks t').state _ there with same | ((same | same) | same) | same <;> cases same
    | xEventListItem t' => exact (sound.settled active).2 t' there
  · rintro a s' (rfl | rfl) active taken
    · exact switched_spec sound.core running active (step_eq_some taken).2
    · have core : Core m [] { s with ticks := s.ticks + 1 } := { sound.core with }
      obtain ⟨s₁, r, ticked, ⟨_, _, _, _, _, _, _, _, _, rfl⟩, core₁, -⟩ :=
        xTaskIncrementTick_spec core running sound.onTime active
      exact switched_spec core₁ running active ((bind_of ticked).symm.trans (step_eq_some taken).2)

theorem highest_runs_sample : ∃ s₀ s, Kernel.firstTask garbage 0 5 = some s₀ ∧ exec step s₀ sleeping = some s ∧
    (s.xYieldPending = false → s.yieldFollows = false →
      ∀ q, items s.lists (.pxReadyTasksLists q) ≠ [] → q ≤ s.uxPriority s.pxCurrentTCB) := by
  obtain ⟨highest, -⟩ := highest_runs (m := garbage) (t := 0) (p := 5) rfl ⟨sleeping, rfl⟩ rfl
  exact ⟨_, _, rfl, rfl, highest⟩

/-! ### Time -/

/-- A task that time wakes is woken at the tick for which it asked, each delayed task is due later, and the tick count is
    the number of counted ticks, also after it has started anew. -/
theorem timeouts_exact (first : Kernel.firstTask m t p = some s₀) (reached : Reachable step s₀ s) :
    (∀ w ∈ s.wakes, w.now = w.due) ∧ (∀ t' d, s.due t' = some d → s.now < d) ∧
      (∀ t', s.due t' ≠ none ↔ ∃ l, s.stateList t' = some l ∧ Delay l) ∧ s.xTickCount.val = s.now % 2 ^ 64 := by
  have sound := reached_sound first reached
  refine ⟨sound.core.wakes, sound.onTime, ?_, sound.core.tick⟩
  intro t'
  rw [show (s.due t' ≠ none ↔ _) from (sound.core.tasks t').due]
  exact exists_congr fun l => and_congr_left fun _ => container_eq_some.symm

theorem timeouts_exact_sample : ∃ s₀ s, Kernel.firstTask garbage 0 5 = some s₀ ∧ exec step s₀ sleeping = some s ∧
    s.wakes.length = 1 ∧ ∀ w ∈ s.wakes, w.now = w.due := by
  obtain ⟨timely, -⟩ := timeouts_exact (m := garbage) (t := 0) (p := 5) rfl ⟨sleeping, rfl⟩
  exact ⟨_, _, rfl, rfl, rfl, timely⟩

/-- While the scheduler is suspended the running task is not switched, no task is woken by time and no tick is counted, and
    no tick is lost: those that came are counted or pended, and none is pended when the scheduler is not suspended. -/
theorem suspended_kept (first : Kernel.firstTask m t p = some s₀) (reached : Reachable step s₀ s)
    (actions : List (KernelAction Task Event)) (run : exec step s actions = some s')
    (suspended : AllStates step (fun s => s.uxSchedulerSuspended ≠ 0) s actions) :
    (s'.pxCurrentTCB = s.pxCurrentTCB ∧ s'.switchedIn = s.switchedIn ∧ s'.wakes = s.wakes ∧ s'.now = s.now) ∧
      s'.ticks % 2 ^ 64 = (s'.now + s'.xPendedTicks.val) % 2 ^ 64 ∧
      ∀ a s₁, step s' a = some s₁ → s₁.uxSchedulerSuspended = 0 → s₁.xPendedTicks = 0 ∧ s₁.ticks % 2 ^ 64 = s₁.now % 2 ^ 64 := by
  have sound := reached_sound first reached
  have both : Sound m [] s' ∧ Kept s s' := by
    clear reached
    induction actions generalizing s with
    | nil =>
      cases run
      exact ⟨sound, rfl, rfl, rfl, rfl⟩
    | cons a rest ih =>
      obtain ⟨s₁, taken, onward⟩ := exec_cons_iff.mp run
      obtain ⟨sound₁, kept⟩ := step_sound s a s₁ sound taken
      have later := suspended.2 s₁ taken
      obtain ⟨last, current, switched, wakes, now⟩ := ih onward later sound₁
      obtain ⟨current₁, switched₁, wakes₁, now₁⟩ := kept suspended.1 (allStates_head (P := fun s : Kernel Task Event => s.uxSchedulerSuspended ≠ 0) later)
      exact ⟨last, current.trans current₁, switched.trans switched₁, wakes.trans wakes₁, now.trans now₁⟩
  refine ⟨both.2, both.1.ticks, ?_⟩
  intro a s₁ taken active
  have after := (step_sound s' a s₁ both.1 taken).1
  have pended := (after.settled active).1
  have counted := after.ticks
  rw [pended] at counted
  exact ⟨pended, counted⟩

theorem suspended_kept_sample : ∃ s₀ s s', Kernel.firstTask garbage 0 5 = some s₀ ∧
    exec step s₀ (sleeping.take 5) = some s ∧ exec step s [.vPortSystemTickHandler, .vPortYield] = some s' ∧
    (s'.pxCurrentTCB = s.pxCurrentTCB ∧ s'.switchedIn = s.switchedIn ∧ s'.wakes = s.wakes ∧ s'.now = s.now) := by
  obtain ⟨kept, -⟩ := suspended_kept (m := garbage) (t := 0) (p := 5) rfl ⟨sleeping.take 5, rfl⟩
    [.vPortSystemTickHandler, .vPortYield] rfl (by decide)
  exact ⟨_, _, _, rfl, rfl, rfl, kept⟩

/-! ### Time slices -/

/-- The turns of some tasks among those of one priority. -/
def slices (p : ℕ) (among : List Task) (turns : List (ℕ × Task)) : List Task :=
  (turns.filter fun turn => turn.1 = p ∧ turn.2 ∈ among).map Prod.snd

/-- The state items of some tasks. -/
def stateIn (among : List Task) : ListItem Task → Bool
  | .xStateListItem t => t ∈ among
  | .xEventListItem _ => false

theorem stateIn_iff {among : List Task} {i : ListItem Task} :
    stateIn among i = true ↔ ∃ t ∈ among, i = .xStateListItem t := by
  cases i with
  | xStateListItem t => simp [stateIn]
  | xEventListItem t => simp [stateIn]

/-- The turns in a ready list are those of its items. -/
theorem slices_owners (p : ℕ) (among : List Task) (results : List (Result (ListItem Task) (ListName Event))) :
    slices p among (results.filterMap readyTurn) =
      (owners (.pxReadyTasksLists p) (stateIn among) results).map ListItem.pvOwner := by
  induction results with
  | nil => rfl
  | cons r results ih =>
    unfold owners slices at ih ⊢
    cases r with
    | left n =>
      have turn : readyTurn (.left n : Result (ListItem Task) (ListName Event)) = none := rfl
      have miss : ownerIn (.pxReadyTasksLists p) (.left n : Result (ListItem Task) (ListName Event)) = none := rfl
      rw [List.filterMap_cons_none turn, List.filterMap_cons_none miss]
      exact ih
    | owner l i =>
      by_cases here : l = .pxReadyTasksLists p
      · subst here
        have hit : ownerIn (.pxReadyTasksLists p) (.owner (.pxReadyTasksLists p) i : Result _ (ListName Event)) = some i :=
          if_pos rfl
        rw [List.filterMap_cons_some hit]
        cases i with
        | xEventListItem t =>
          have turn : readyTurn (.owner (.pxReadyTasksLists p) (.xEventListItem t) : Result _ (ListName Event)) = none := rfl
          rw [List.filterMap_cons_none turn, List.filter_cons_of_neg (by simp [stateIn]), ih]
        | xStateListItem t =>
          have turn : readyTurn (.owner (.pxReadyTasksLists p) (.xStateListItem t) : Result _ (ListName Event)) =
            some (p, t) := rfl
          rw [List.filterMap_cons_some turn]
          by_cases inside : t ∈ among
          · rw [List.filter_cons_of_pos (by simpa using inside), List.filter_cons_of_pos (by simpa [stateIn] using inside),
              List.map_cons, List.map_cons, ih]
            rfl
          · rw [List.filter_cons_of_neg (by simpa using inside), List.filter_cons_of_neg (by simpa [stateIn] using inside), ih]
      · have miss : ownerIn (.pxReadyTasksLists p) (.owner l i) = none := if_neg here
        rw [List.filterMap_cons_none miss]
        cases turn : readyTurn (.owner l i) with
        | none =>
          rw [List.filterMap_cons_none turn]
          exact ih
        | some q =>
          have other : q.1 ≠ p := by
            rintro rfl
            cases l <;> cases i <;> cases turn
            exact here rfl
          rw [List.filterMap_cons_some turn, List.filter_cons_of_neg (by simp [other])]
          exact ih

/-- Tasks that stay in the ready list of a priority have their turns in a fixed order, each of them once in every round,
    whatever else happens in between. -/
theorem slices_round (first : Kernel.firstTask m t p = some s₀) (reached : Reachable step s₀ s)
    (actions : List (KernelAction Task Event)) (run : exec step s actions = some s') (q : ℕ) (stay : List Task)
    (inside : ∀ t' ∈ stay, s.stateList t' = some (.pxReadyTasksLists q)) :
    ∃ calls turns, s'.calls = s.calls ++ calls ∧ s'.switchedIn = s.switchedIn ++ turns ∧
      ((∀ t' ∈ stay, .uxListRemove (.xStateListItem t') ∉ calls) →
        ∃ order : List Task, order.Nodup ∧ (∀ t', t' ∈ order ↔ t' ∈ stay) ∧
          ∀ k, k < (slices q stay turns).length → (slices q stay turns)[k]? = order[k % order.length]?) := by
  have sound := sound_now (reached_sound first reached)
  have sound' : Sound m s.calls s' := exec_kept (fun s a s' sound taken => (step_sound s a s' sound taken).1) sound run
  obtain ⟨calls, made⟩ := sound'.core.past
  have onward : exec Lists.step s.lists calls = some s'.lists := by
    obtain ⟨a, before, after⟩ := exec_append_iff.mp (made ▸ sound'.core.shown.run)
    obtain rfl := Option.some.inj (before.symm.trans sound.core.shown.run)
    exact after
  refine ⟨calls, (trace Lists.step Lists.returned s.lists calls).filterMap readyTurn, made.symm, ?_, ?_⟩
  · rw [sound'.core.turns, sound.core.turns, ← made, readyTurns, trace_append sound.core.shown.run, List.filterMap_append,
      readyTurns]
  · intro staying
    cases stay with
    | nil => exact ⟨[], .nil, fun t' => .rfl, fun k lt => by simp [slices] at lt⟩
    | cons t' rest =>
      have placed : ∀ i, stateIn (t' :: rest) i = true → s.lists.place i = some (some (.pxReadyTasksLists q)) := by
        intro i chosen
        obtain ⟨t'', among, rfl⟩ := stateIn_iff.mp chosen
        exact container_eq_some.mp (inside t'' among)
      have stay : ∀ i, stateIn (t' :: rest) i = true → .uxListRemove i ∉ calls := by
        intro i chosen
        obtain ⟨t'', among, rfl⟩ := stateIn_iff.mp chosen
        exact staying t'' among
      obtain ⟨c, here⟩ := Option.ne_none_iff_exists'.mp
        (sound.core.shown.listed (placed (.xStateListItem t') (by simp [stateIn])))
      have distinct : c.turns.Nodup := by
        have nodup := sound.core.shown.items_nodup (l := .pxReadyTasksLists q)
        rw [items, here] at nodup
        exact c.turns_perm.nodup_iff.mpr nodup
      have member : ∀ i, i ∈ c.turns ↔ s.lists.place i = some (some (.pxReadyTasksLists q)) := by
        intro i
        rw [Cursor.mem_turns, ← sound.core.shown.mem_items, items, here]
        rfl
      refine ⟨(c.turns.filter (stateIn (t' :: rest))).map ListItem.pvOwner, ?_, ?_, ?_⟩
      · refine (distinct.filter _).map_on ?_
        intro i first j second same
        obtain ⟨t₁, -, rfl⟩ := stateIn_iff.mp (List.of_mem_filter first)
        obtain ⟨t₂, -, rfl⟩ := stateIn_iff.mp (List.of_mem_filter second)
        exact congrArg _ same
      · intro t''
        rw [List.mem_map]
        constructor
        · rintro ⟨i, chosen, rfl⟩
          obtain ⟨t₁, among, rfl⟩ := stateIn_iff.mp (List.of_mem_filter chosen)
          exact among
        · intro among
          have chosen := stateIn_iff.mpr ⟨t'', among, rfl⟩
          exact ⟨.xStateListItem t'', List.mem_filter.mpr ⟨(member _).mpr (placed _ chosen), chosen⟩, rfl⟩
      · intro k lt
        rw [slices_owners, List.length_map] at lt
        rw [slices_owners, List.getElem?_map, List.getElem?_map, List.length_map,
          owners_run calls s.lists s'.lists c here placed stay onward k lt]

theorem slices_round_sample : ∃ s₀ s s', Kernel.firstTask garbage 0 5 = some s₀ ∧
    exec step s₀ (sleeping.take 4) = some s ∧ exec step s [.vPortYield, .vPortSystemTickHandler, .vPortYield] = some s' ∧
    ∃ calls turns, s'.calls = s.calls ++ calls ∧ s'.switchedIn = s.switchedIn ++ turns ∧
      ((∀ t ∈ [0, 1], .uxListRemove (.xStateListItem t) ∉ calls) →
        ∃ order : List ℕ, order.Nodup ∧ (∀ t, t ∈ order ↔ t ∈ [0, 1]) ∧
          ∀ k, k < (slices 5 [0, 1] turns).length → (slices 5 [0, 1] turns)[k]? = order[k % order.length]?) := by
  refine ⟨_, _, _, rfl, rfl, rfl, ?_⟩
  exact slices_round (m := garbage) (t := 0) (p := 5) rfl ⟨sleeping.take 4, rfl⟩
    [.vPortYield, .vPortSystemTickHandler, .vPortYield] rfl 5 [0, 1] (by decide)

end OsyProg.TaskRuns
