import OsyProg.TaskStates

/-!
What each function of the scheduler does to what holds at every point (`Core`): it has a
result, keeps it, and changes no more than is said. The loop over the delayed tasks wakes each
task at the tick for which it asked (`wakeLoop_spec`, `xTaskIncrementTick_spec`), the selection takes a task of
the highest priority of all that are ready (`vTaskSwitchContext_spec`), and the scheduler is
resumed with no task pending and each pended tick counted (`xTaskResumeAll_spec`).
-/
namespace OsyProg.TaskSteps
open OsyProg.Cursors OsyProg.KernelLists OsyProg.ListCalls OsyProg.TaskLists OsyProg.TaskKernel OsyProg.TaskStates Function
set_option linter.unusedSectionVars false

variable {Task Event : Type} [DecidableEq Task] [DecidableEq Event] {m : ListMemory Task Event}
  {past : List (ListCall Task Event)} {s s' : Kernel Task Event} {t : Task} {l : ListName Event}

/-- The task is in the ready list of its priority. -/
def Ready (v : View Event) : Prop := v.state = some (some (.pxReadyTasksLists v.uxPriority))

/-- Each delayed task is due later. -/
def OnTime (s : Kernel Task Event) : Prop := ∀ t d, s.due t = some d → s.now < d

/-- No ready task has a higher priority than the running one, unless a yield is pending. -/
def Preempted (s : Kernel Task Event) : Prop :=
  s.xYieldPending = false → ∀ t, Ready (view s t) → s.uxPriority t ≤ s.uxPriority s.pxCurrentTCB

/-- Each task is as it was, or it is ready now. -/
def Woken (s s' : Kernel Task Event) : Prop :=
  ∀ t, view s' t = view s t ∨
    Ready (view s' t) ∧ (view s' t).event = some none ∧ s'.due t = none ∧ s'.uxPriority t = s.uxPriority t

theorem Woken.trans {s₁ s₂ s₃ : Kernel Task Event} (first : Woken s₁ s₂) (second : Woken s₂ s₃) : Woken s₁ s₃ := by
  intro t
  rcases second t with same | ⟨ready, event, due, prio⟩
  · rcases first t with same' | ⟨ready, event, due, prio⟩
    · exact .inl (same.trans same')
    · refine .inr ⟨by rw [same]; exact ready, by rw [same]; exact event, ?_, ?_⟩
      · exact (congrArg View.due same).trans due
      · exact (congrArg View.uxPriority same).trans prio
  · refine .inr ⟨ready, event, due, prio.trans ?_⟩
    rcases first t with same' | ⟨-, -, -, prio'⟩
    · exact congrArg View.uxPriority same'
    · exact prio'

/-- Only the lists, what is recorded and what follows from the lists may differ. -/
def Same (s s' : Kernel Task Event) : Prop :=
  ∃ lists calls due wakes uxTopReadyPriority xNextTaskUnblockTime,
    s' = { s with lists, calls, due, wakes, uxTopReadyPriority, xNextTaskUnblockTime }

theorem Same.trans {s₁ s₂ s₃ : Kernel Task Event} (first : Same s₁ s₂) (second : Same s₂ s₃) : Same s₁ s₃ := by
  obtain ⟨_, _, _, _, _, _, rfl⟩ := first
  obtain ⟨_, _, _, _, _, _, rfl⟩ := second
  exact ⟨_, _, _, _, _, _, rfl⟩

/-! ### Time -/

theorem prvResetNextTaskUnblockTime_spec (core : Core m past s) :
    ∃ next, s.prvResetNextTaskUnblockTime = { s with xNextTaskUnblockTime := next } ∧
      Core m past { s with xNextTaskUnblockTime := next } := by
  unfold Kernel.prvResetNextTaskUnblockTime
  split
  case h_1 none =>
    refine ⟨_, rfl, core.setNext ?_⟩
    intro t here
    have inside : .xStateListItem t ∈ items s.lists s.pxDelayedTaskList := core.shown.mem_items.mpr here
    rw [none] at inside
    cases inside
  case h_2 head rest found =>
    obtain ⟨t, rfl, -⟩ := core.state_head (delay_apart core.delay_delayed).1 (delay_apart core.delay_delayed).2.1 found
    exact ⟨_, rfl, core.setNext fun t' here => core.shown.head_le core.delay_delayed found here⟩

/-- When no task of the list is due now, none is due before. -/
theorem onTime_of (core : Core m past s)
    (later : ∀ t, (view s t).state = some (some s.pxDelayedTaskList) → s.xTickCount < (view s t).value) : OnTime s := by
  intro t d due
  rcases core.due_cases due with ⟨here, late, round, value, -⟩ | ⟨-, round, -⟩
  · have less : s.xTickCount.val < (view s t).value.val := later t here
    rw [core.tick, value] at less
    omega
  · omega

/-- The task that was moved is the only one that is woken. -/
theorem woken_of_moved {v : TickType} {a : AllLists Task Event} {calls : List (ListCall Task Event)}
    (moved : Moved m s t (some (some (.pxReadyTasksLists (s.uxPriority t)))) (some none) v a calls)
    {wakes : List (Wake Task)} {top : ℕ} {pending : Bool} :
    Woken s { s with
      lists := a
      calls
      due := update s.due t none
      wakes
      uxTopReadyPriority := top
      xYieldPending := pending } := by
  intro t'
  by_cases same : t' = t
  · subst same
    exact .inr ⟨moved.state, moved.event, update_self .., rfl⟩
  · obtain ⟨state, event, value⟩ := moved.others t' same
    refine .inl ?_
    simp only [view, state, event, value, update_of_ne same]

/-- The loop over the delayed tasks ends: each task that it wakes is due now, and none is left that is due. -/
theorem wakeLoop_spec (rounds : ℕ) (core : Core m past s) (running : s.xSchedulerRunning = true) (r : Bool)
    (enough : (items s.lists s.pxDelayedTaskList).length < rounds) :
    ∃ s' r', Kernel.wakeLoop rounds s r = some (s', r') ∧ Same s s' ∧ Core m past s' ∧ OnTime s' ∧ Woken s s' ∧
      (r' = false → r = false ∧
        ∀ t, Ready (view s' t) → Ready (view s t) ∨ s.uxPriority t < s.uxPriority s.pxCurrentTCB) := by
  induction rounds generalizing s r with
  | zero => exact absurd enough (Nat.not_lt_zero _)
  | succ rounds ih =>
    have delay := core.delay_delayed
    obtain ⟨pending, event, alive, -, ready⟩ := delay_apart delay
    cases found : items s.lists s.pxDelayedTaskList with
    | nil =>
      have result : Kernel.wakeLoop (rounds + 1) s r = some ({ s with xNextTaskUnblockTime := portMAX_DELAY }, r) := by
        simp only [Kernel.wakeLoop, found]
      have nobody : ∀ t, (view s t).state ≠ some (some s.pxDelayedTaskList) := by
        intro t here
        have inside : .xStateListItem t ∈ items s.lists s.pxDelayedTaskList := core.shown.mem_items.mpr here
        rw [found] at inside
        cases inside
      have onTime : OnTime s := onTime_of core fun t here => absurd here (nobody t)
      exact ⟨_, r, result, ⟨_, _, _, _, _, _, rfl⟩, core.setNext fun t here => absurd here (nobody t), onTime,
        fun t => .inl rfl, fun quiet => ⟨quiet, fun t ready => .inl ready⟩⟩
    | cons head rest =>
      obtain ⟨t, rfl, before⟩ := core.state_head pending event found
      have least : ∀ t', (view s t').state = some (some s.pxDelayedTaskList) → (view s t).value ≤ (view s t').value :=
        fun t' here => core.shown.head_le delay found here
      by_cases early : s.xTickCount < (view s t).value
      · have result : Kernel.wakeLoop (rounds + 1) s r = some ({ s with xNextTaskUnblockTime := (view s t).value }, r) := by
          simp only [Kernel.wakeLoop, found]
          exact if_pos early
        have onTime : OnTime s := onTime_of core fun t' here => lt_of_lt_of_le early (least t' here)
        exact ⟨_, r, result, ⟨_, _, _, _, _, _, rfl⟩, core.setNext least, onTime, fun t => .inl rfl,
          fun quiet => ⟨quiet, fun t ready => .inl ready⟩⟩
      · -- the task is due now, since it is due in this round and not after this tick
        have now : ∀ d, s.due t = some d → s.now = d := by
          intro d due
          obtain ⟨late, round, value, -⟩ := (core.tasks t).delayed d due before
          have reached : (view s t).value.val ≤ s.xTickCount.val := not_lt.mp early
          rw [core.tick, value] at reached
          omega
        have known : (view s t).event ≠ none := by
          rw [ne_eq, ← (core.tasks t).known, before]
          exact Option.some_ne_none _
        have start := Moved.start core.shown t
        rw [before] at start
        obtain ⟨b, call, moved⟩ := start.removeState s
        obtain ⟨b', calls, left, moved⟩ := moved.leave { s with lists := b, calls := _ } known
        have listed : s.lists.list (.pxReadyTasksLists (s.uxPriority t)) ≠ none :=
          core.fixed _ (core.priority (by rw [before]; exact Option.some_ne_none _)).1
        obtain ⟨b'', calls', added, moved⟩ := moved.addToReady
          { s with
            lists := b'
            calls
            wakes := s.wakes ++ ((s.due t).map fun due => Wake.mk t due s.now).toList
            due := update s.due t none } listed
        have timely : ∀ w ∈ s.wakes ++ ((s.due t).map fun due => Wake.mk t due s.now).toList, w.now = w.due := by
          intro w inside
          rcases List.mem_append.mp inside with old | new
          · exact core.wakes w old
          · cases due : s.due t with
            | none => simp [due] at new
            | some d =>
              simp only [due, Option.map_some, Option.toList_some, List.mem_singleton] at new
              rw [new]
              exact now d due
        have core' := core.wake moved before alive running timely s.xYieldPending
        have fewer : (items s.lists s.pxDelayedTaskList).length = (items b'' s.pxDelayedTaskList).length + 1 := by
          refine moved.length_items core.shown rfl before ?_ ?_ nofun
          · intro j own other here
            cases j with
            | xStateListItem t' => exact other (congrArg _ own)
            | xEventListItem t' =>
              rcases ((core.tasks t').event _ here).1 with same | ⟨e, same⟩
              · exact pending same
              · exact event e same
          · intro same
            exact ready _ (Option.some.inj (Option.some.inj same)).symm
        have left' : (items b'' s.pxDelayedTaskList).length < rounds := by omega
        obtain ⟨s', r', run, same, core₂, onTime, woken, quiet⟩ :=
          ih core' running (if s.uxPriority t ≥ s.uxPriority s.pxCurrentTCB then true else r) left'
        have result : Kernel.wakeLoop (rounds + 1) s r = some (s', r') := by
          simp only [Kernel.wakeLoop, found]
          refine (if_neg early).trans ?_
          simp only [ListItem.pvOwner]
          rw [call, Option.bind_some, left, Option.bind_some]
          exact (bind_of added).trans run
        refine ⟨s', r', result, .trans ⟨_, _, _, _, _, _, rfl⟩ same, core₂, onTime, .trans (woken_of_moved moved) woken, ?_⟩
        intro none
        obtain ⟨lower, others⟩ := quiet none
        have lower : s.uxPriority t < s.uxPriority s.pxCurrentTCB ∧ r = false := by simpa using lower
        refine ⟨lower.2, ?_⟩
        intro t' after
        rcases others t' after with here | less
        · by_cases mine : t' = t
          · rw [mine]
            exact .inr lower.1
          · have state := (moved.others t' mine).1
            exact .inl (by simpa only [Ready, view, state] using here)
        · exact .inr less

/-- What a tick changes. -/
def Ticked (s s' : Kernel Task Event) : Prop :=
  ∃ lists calls due wakes uxTopReadyPriority xNextTaskUnblockTime pxDelayedTaskList pxOverflowDelayedTaskList xNumOfOverflows,
    s' = { s with
      lists, calls, due, wakes, uxTopReadyPriority, xNextTaskUnblockTime, pxDelayedTaskList, pxOverflowDelayedTaskList,
      xNumOfOverflows, xTickCount := s.xTickCount + 1, now := s.now + 1 }

theorem val_succ (core : Core m past s) : (s.xTickCount + 1).val = (s.now + 1) % 2 ^ 64 := by
  have one : (1 : TickType).val = 1 := rfl
  rw [Fin.val_add, core.tick, one, Nat.mod_add_mod]

/-- The tick is counted, and the lists are switched when the count starts anew: no task of the list of the old round is
    left then, as all of them were due. -/
theorem count_spec (core : Core m past s) (running : s.xSchedulerRunning = true) (onTime : OnTime s) :
    ∃ delayed overflow switches next,
      (if s.xTickCount + 1 = 0 then
          { s with xTickCount := s.xTickCount + 1, now := s.now + 1 }.taskSWITCH_DELAYED_LISTS
        else { s with xTickCount := s.xTickCount + 1, now := s.now + 1 }) =
        { s with
          xTickCount := s.xTickCount + 1
          now := s.now + 1
          pxDelayedTaskList := delayed
          pxOverflowDelayedTaskList := overflow
          xNumOfOverflows := switches
          xNextTaskUnblockTime := next } ∧
      Core m past { s with
          xTickCount := s.xTickCount + 1
          now := s.now + 1
          pxDelayedTaskList := delayed
          pxOverflowDelayedTaskList := overflow
          xNumOfOverflows := switches
          xNextTaskUnblockTime := next } := by
  have resting : ∀ P : Prop, s.xSchedulerRunning = false → P := by
    intro P rest
    rw [running] at rest
    cases rest
  by_cases wraps : s.xTickCount + 1 = 0
  · rw [if_pos wraps]
    have full : (s.now + 1) % 2 ^ 64 = 0 := by
      rw [← val_succ core, wraps]
      rfl
    have switched : Core m past { s with
        xTickCount := s.xTickCount + 1
        now := s.now + 1
        pxDelayedTaskList := s.pxOverflowDelayedTaskList
        pxOverflowDelayedTaskList := s.pxDelayedTaskList
        xNumOfOverflows := s.xNumOfOverflows + 1
        xNextTaskUnblockTime := 0 } := by
      refine { core with tasks := ?_, pointers := ?_, tick := val_succ core, resting := resting _ }
      · intro t
        refine { core.tasks t with delayed := ?_, overflow := ?_ }
        · intro d due here
          obtain ⟨round, value⟩ := (core.tasks t).overflow d due here
          have late : s.now + 1 ≤ d := by omega
          have same : d / 2 ^ 64 = (s.now + 1) / 2 ^ 64 := by omega
          exact ⟨late, same, value, Fin.zero_le _⟩
        · intro d due here
          obtain ⟨late, round, value, -⟩ := (core.tasks t).delayed d due here
          have later := onTime t d due
          omega
      · exact core.pointers.symm.imp And.symm And.symm
    obtain ⟨next, reset, core'⟩ := prvResetNextTaskUnblockTime_spec switched
    exact ⟨_, _, _, next, reset, core'⟩
  · rw [if_neg wraps]
    have part : (s.now + 1) % 2 ^ 64 ≠ 0 := by
      rw [← val_succ core]
      exact fun zero => wraps (Fin.ext zero)
    refine ⟨_, _, _, _, rfl, { core with tasks := ?_, tick := val_succ core, resting := resting _ }⟩
    intro t
    refine { core.tasks t with delayed := ?_, overflow := ?_ }
    · intro d due here
      obtain ⟨late, round, value, next⟩ := (core.tasks t).delayed d due here
      have later : s.now + 1 ≤ d := onTime t d due
      have same : d / 2 ^ 64 = (s.now + 1) / 2 ^ 64 := by omega
      exact ⟨later, same, value, next⟩
    · intro d due here
      obtain ⟨round, value⟩ := (core.tasks t).overflow d due here
      have same : d / 2 ^ 64 = (s.now + 1) / 2 ^ 64 + 1 := by omega
      exact ⟨same, value⟩

/-- Every delayed task has a time at which it is due. -/
theorem unblock_le (core : Core m past s) (here : (view s t).state = some (some s.pxDelayedTaskList)) :
    s.xNextTaskUnblockTime ≤ (view s t).value := by
  have due := (core.tasks t).due.mpr ⟨_, here, core.delay_delayed⟩
  obtain ⟨d, due⟩ := Option.ne_none_iff_exists'.mp due
  exact ((core.tasks t).delayed d due here).2.2.2

/-- A tick with the scheduler not suspended: when it asks for no switch, no task with a higher priority than that of the
    running one is ready. -/
theorem xTaskIncrementTick_spec (core : Core m past s) (running : s.xSchedulerRunning = true) (onTime : OnTime s)
    (active : s.uxSchedulerSuspended = 0) :
    ∃ s' r, s.xTaskIncrementTick = some (s', r) ∧ Ticked s s' ∧ Core m past s' ∧ OnTime s' ∧ Woken s s' ∧
      (Preempted s → r = false → s.xYieldPending = false ∧
        ∀ t, Ready (view s' t) → s.uxPriority t ≤ s.uxPriority s.pxCurrentTCB) := by
  obtain ⟨delayed, overflow, switches, next, counted, core₁⟩ := count_spec core running onTime
  unfold Kernel.xTaskIncrementTick
  rw [if_pos active]
  simp only [counted]
  by_cases reached : s.xTickCount + 1 ≥ next
  · rw [if_pos reached]
    obtain ⟨s', r', run, ⟨a, calls, due, wakes, top, next', rfl⟩, core', onTime', woken, quiet⟩ :=
      wakeLoop_spec _ core₁ running false (Nat.lt_succ_self _)
    rw [run, Option.map_some]
    refine ⟨_, _, rfl, ⟨_, _, _, _, _, _, _, _, _, rfl⟩, core', onTime', woken, ?_⟩
    intro preempted none
    simp only [Bool.or_eq_false_iff] at none
    refine ⟨none.2, ?_⟩
    intro t ready
    rcases (quiet none.1.1).2 t ready with before | less
    · exact preempted none.2 t before
    · exact less.le
  · rw [if_neg reached, Option.map_some]
    have later : ∀ t, (view s t).state = some (some delayed) → s.xTickCount + 1 < (view s t).value :=
      fun t here => lt_of_lt_of_le (not_le.mp reached) (unblock_le core₁ here)
    refine ⟨_, _, rfl, ⟨_, _, _, _, _, _, _, _, _, rfl⟩, core₁, onTime_of core₁ later, fun t => .inl rfl, ?_⟩
    intro preempted none
    simp only [Bool.or_eq_false_iff] at none
    exact ⟨none.2, fun t ready => preempted none.2 t ready⟩

/-! ### The running task is switched -/

/-- The loop ends at the highest priority with a ready task, as there is one. -/
theorem topPriority_spec (n : ℕ) (some : ∃ q ≤ n, items s.lists (.pxReadyTasksLists q) ≠ []) :
    ∃ p, s.topPriority n = .some p ∧ items s.lists (.pxReadyTasksLists p) ≠ [] ∧
      ∀ q ≤ n, items s.lists (.pxReadyTasksLists q) ≠ [] → q ≤ p := by
  induction n with
  | zero =>
    obtain ⟨q, low, full⟩ := some
    obtain rfl := Nat.le_zero.mp low
    exact ⟨0, by rw [Kernel.topPriority, if_neg full], full, fun q low _ => low⟩
  | succ n ih =>
    by_cases full : items s.lists (.pxReadyTasksLists (n + 1)) = []
    · have below : ∀ q ≤ n + 1, items s.lists (.pxReadyTasksLists q) ≠ [] → q ≤ n := by
        intro q low here
        have other : q ≠ n + 1 := by
          rintro rfl
          exact here full
        omega
      obtain ⟨q, low, here⟩ := some
      obtain ⟨p, found, there, highest⟩ := ih ⟨q, below q low here, here⟩
      refine ⟨p, by rw [Kernel.topPriority, if_pos full, found], there, ?_⟩
      intro q low here
      exact highest q (below q low here) here
    · exact ⟨n + 1, by rw [Kernel.topPriority, if_neg full], full, fun q low _ => low⟩

theorem tasksIn_congr {P : Option (Option (ListName Event)) → Prop} {a b : AllLists Task Event} (same : b.place = a.place) :
    tasksIn P b = tasksIn P a := by
  rw [tasksIn, tasksIn, same]

/-- A task of the highest priority of all ready ones is selected. -/
theorem vTaskSwitchContext_spec (core : Core m past s) (running : s.xSchedulerRunning = true)
    (active : s.uxSchedulerSuspended = 0) :
    ∃ a calls t, s.vTaskSwitchContext = some { s with
        lists := a
        calls
        pxCurrentTCB := t
        uxTopReadyPriority := s.uxPriority t
        switchedIn := s.switchedIn ++ [(s.uxPriority t, t)]
        xYieldPending := false
        yieldFollows := false } ∧
      Core m past { s with
        lists := a
        calls
        pxCurrentTCB := t
        uxTopReadyPriority := s.uxPriority t
        switchedIn := s.switchedIn ++ [(s.uxPriority t, t)]
        xYieldPending := false
        yieldFollows := false } ∧
      a.place = s.lists.place ∧ a.value = s.lists.value ∧ Ready (view s t) ∧
        ∀ t', Ready (view s t') → s.uxPriority t' ≤ s.uxPriority t := by
  have full : ∀ t, Ready (view s t) → items s.lists (.pxReadyTasksLists (s.uxPriority t)) ≠ [] := by
    intro t ready
    exact List.ne_nil_of_mem (core.shown.mem_items.mpr ready)
  obtain ⟨idle, -, ready⟩ := core.idle running
  obtain ⟨p, found, here, highest⟩ := topPriority_spec (s := { s with xYieldPending := false, yieldFollows := false }) s.uxTopReadyPriority
    ⟨s.uxPriority idle, (core.tasks idle).top ready, full idle ready⟩
  obtain ⟨i, inside⟩ := List.exists_mem_of_ne_nil _ here
  obtain ⟨j, c, b, asked, there, taken, returned, shown, place, value, lists⟩ :=
    shown_next core.shown (core.shown.mem_items.mp inside)
  cases j with
  | xEventListItem t =>
    rcases ((core.tasks t).event _ there).1 with same | ⟨e, same⟩
    · cases same
    · cases same
  | xStateListItem t =>
    have own : p = s.uxPriority t := by
      rcases (core.tasks t).state _ there with same | ((same | same) | same) | same <;> cases same
      rfl
    subst own
    have views : ∀ t', View.mk (b.place (.xStateListItem t')) (b.place (.xEventListItem t')) (s.uxPriority t')
        (s.uxBasePriority t') (s.due t') (b.value (.xStateListItem t')) = view s t' := by
      intro t'
      rw [place, value]
      rfl
    have best : ∀ t', Ready (view s t') → s.uxPriority t' ≤ s.uxPriority t :=
      fun t' ready => highest _ ((core.tasks t').top ready) (full t' ready)
    refine ⟨b, _, t, ?_, ⟨shown, core.past.trans (List.prefix_append _ _), ?_, ?_, ?_, core.pointers, ?_, core.tick,
      core.wakes, ?_, ?_, ?_, ?_⟩, place, value, there, best⟩
    · rw [Kernel.vTaskSwitchContext, if_neg (not_not.mpr active), Kernel.taskSELECT_HIGHEST_PRIORITY_TASK, found,
        Option.bind_some, asked, Option.bind_some, Kernel.listCall, taken, Option.map_some]
      rfl
    · rw [core.shown.readyTurns_append, returned, core.turns]
      rfl
    · intro l fix
      exact mt (lists l).mp (core.fixed l fix)
    · intro t'
      show TaskOk _ _ _ _ _ (View.mk ..)
      rw [views]
      exact { core.tasks t' with top := best t' }
    · show (View.mk ..).state ≠ none
      rw [views, show (view s t).state = _ from there]
      exact Option.some_ne_none _
    · rw [tasksIn_congr place]
      exact core.counted
    · rw [tasksIn_congr place]
      exact core.cleaned
    · intro _
      obtain ⟨i, handle, ready⟩ := core.idle running
      exact ⟨i, handle, (congrFun place _).trans ready⟩
    · intro rest
      rw [running] at rest
      cases rest

theorem preempted_of_selected {a : AllLists Task Event} {calls : List (ListCall Task Event)}
    (place : a.place = s.lists.place) (best : ∀ t', Ready (view s t') → s.uxPriority t' ≤ s.uxPriority t) :
    Preempted { s with
      lists := a
      calls
      pxCurrentTCB := t
      uxTopReadyPriority := s.uxPriority t
      switchedIn := s.switchedIn ++ [(s.uxPriority t, t)]
      xYieldPending := false
      yieldFollows := false } := by
  intro _ t' ready
  refine best t' ?_
  simpa only [Ready, view, place] using ready

/-! ### The scheduler is resumed -/

/-- No task is to be made ready when the scheduler is resumed. -/
def NonePending (s : Kernel Task Event) : Prop := ∀ t, (view s t).event ≠ some (some .xPendingReadyList)

theorem Woken.nonePending (woken : Woken s s') (none : NonePending s) : NonePending s' := by
  intro t
  rcases woken t with same | ⟨-, event, -⟩
  · rw [same]
    exact none t
  · rw [event]
    nofun

theorem Woken.onTime (woken : Woken s s') (now : s'.now = s.now) (onTime : OnTime s) : OnTime s' := by
  intro t d due
  rcases woken t with same | ⟨-, -, free, -⟩
  · rw [now]
    exact onTime t d ((congrArg View.due same).symm.trans due)
  · rw [free] at due
    cases due

/-- A task that was made ready has no higher priority than the running one, unless a yield is pending then. -/
theorem preempted_of_moved {x y : Option (Option (ListName Event))} {v : TickType} {a : AllLists Task Event}
    {calls : List (ListCall Task Event)} (preempted : Preempted s) (moved : Moved m s t x y v a calls) (lists : s'.lists = a)
    (prio : s'.uxPriority = s.uxPriority) (current : s'.pxCurrentTCB = s.pxCurrentTCB)
    (lower : s'.xYieldPending = false → s.xYieldPending = false ∧ s.uxPriority t ≤ s.uxPriority s.pxCurrentTCB) :
    Preempted s' := by
  intro none t' ready
  rw [prio, current]
  by_cases mine : t' = t
  · rw [mine]
    exact (lower none).2
  · have state := (moved.others t' mine).1
    exact preempted (lower none).1 t' (by simpa only [Ready, view, lists, prio, state] using ready)

/-- What the loop over the pending tasks changes. -/
def Drained (s s' : Kernel Task Event) : Prop :=
  ∃ lists calls due uxTopReadyPriority xYieldPending, s' = { s with lists, calls, due, uxTopReadyPriority, xYieldPending }

/-- The pending tasks are made ready, one after the other until none is left. -/
theorem pendingLoop_spec (rounds : ℕ) (core : Core m past s) (running : s.xSchedulerRunning = true)
    (preempted : Preempted s) (enough : (items s.lists .xPendingReadyList).length ≤ rounds) :
    ∃ s', s.pendingLoop rounds = some s' ∧ Drained s s' ∧ Core m past s' ∧ Preempted s' ∧ Woken s s' ∧
      items s'.lists .xPendingReadyList = [] := by
  induction rounds generalizing s with
  | zero =>
    have none : items s.lists .xPendingReadyList = [] := List.length_eq_zero_iff.mp (Nat.le_zero.mp enough)
    refine ⟨s, ?_, ⟨_, _, _, _, _, rfl⟩, core, preempted, fun t => .inl rfl, none⟩
    rw [Kernel.pendingLoop, if_pos none]
  | succ rounds ih =>
    cases found : items s.lists .xPendingReadyList with
    | nil =>
      refine ⟨s, ?_, ⟨_, _, _, _, _, rfl⟩, core, preempted, fun t => .inl rfl, found⟩
      simp only [Kernel.pendingLoop, found]
    | cons head rest =>
      obtain ⟨t, rfl, waits⟩ := core.event_head (.inl rfl) found
      obtain ⟨l, before, blocked⟩ := ((core.tasks t).event _ waits).2
      have alive : l ≠ .xTasksWaitingTermination := by
        rintro rfl
        rcases blocked with (same | same) | same <;> cases same
      have apart : l ≠ .xPendingReadyList := by
        rintro rfl
        rcases blocked with (same | same) | same <;> cases same
      have start := Moved.start core.shown t
      rw [before, waits] at start
      obtain ⟨b, call, moved⟩ := start.removeEvent s
      obtain ⟨b', call', moved⟩ := moved.removeState { s with lists := b, calls := _ }
      have listed : s.lists.list (.pxReadyTasksLists (s.uxPriority t)) ≠ none :=
        core.fixed _ (core.priority (by rw [before]; exact Option.some_ne_none _)).1
      obtain ⟨b'', calls, added, moved⟩ :=
        moved.addToReady { s with lists := b', calls := _, due := update s.due t none } listed
      have fewer : (items s.lists .xPendingReadyList).length = (items b'' .xPendingReadyList).length + 1 := by
        refine moved.length_items core.shown rfl waits ?_ nofun nofun
        intro j own other here
        cases j with
        | xStateListItem t' =>
          obtain rfl : t' = t := own
          exact apart (Option.some.inj (Option.some.inj (before.symm.trans here)))
        | xEventListItem t' => exact other (congrArg _ own)
      have left : (items b'' .xPendingReadyList).length ≤ rounds := by omega
      have result : ∀ pending, (if s.uxPriority t ≥ s.uxPriority s.pxCurrentTCB then true else s.xYieldPending) = pending →
          s.pendingLoop (rounds + 1) = Kernel.pendingLoop rounds { s with
            lists := b''
            calls
            due := update s.due t none
            uxTopReadyPriority := max s.uxTopReadyPriority (s.uxPriority t)
            xYieldPending := pending } := by
        rintro pending rfl
        simp only [Kernel.pendingLoop, found, ListItem.pvOwner]
        rw [call, Option.bind_some, call', Option.bind_some]
        refine (bind_of added).trans ?_
        by_cases higher : s.uxPriority t ≥ s.uxPriority s.pxCurrentTCB
        · rw [if_pos higher]
          exact congrArg (Kernel.pendingLoop rounds) (if_pos higher)
        · rw [if_neg higher]
          exact congrArg (Kernel.pendingLoop rounds) (if_neg higher)
      generalize chosen : (if s.uxPriority t ≥ s.uxPriority s.pxCurrentTCB then true else s.xYieldPending) = pending at result
      have lower : pending = false → s.xYieldPending = false ∧ s.uxPriority t < s.uxPriority s.pxCurrentTCB := by
        rintro rfl
        split at chosen
        case isTrue => cases chosen
        case isFalse lower => exact ⟨chosen, not_le.mp lower⟩
      obtain ⟨s', run, ⟨_, _, _, _, _, rfl⟩, core', preempted', woken, none⟩ :=
        ih (core.wake moved before alive running core.wakes pending) running
          (preempted_of_moved preempted moved rfl rfl rfl fun none => (lower none).imp_right le_of_lt) left
      exact ⟨_, (result pending rfl).trans run, ⟨_, _, _, _, _, rfl⟩, core', preempted', (woken_of_moved moved).trans woken,
        none⟩

/-- What so many ticks change. -/
def Counted (k : ℕ) (s s' : Kernel Task Event) : Prop :=
  ∃ lists calls due wakes uxTopReadyPriority xNextTaskUnblockTime pxDelayedTaskList pxOverflowDelayedTaskList xNumOfOverflows
      xTickCount xYieldPending now,
    now = s.now + k ∧ s' = { s with
      lists, calls, due, wakes, uxTopReadyPriority, xNextTaskUnblockTime, pxDelayedTaskList, pxOverflowDelayedTaskList,
      xNumOfOverflows, xTickCount, xYieldPending, now }

/-- The pended ticks are counted, and a yield is pending when one of them asked for a switch. -/
theorem pendedTicks_spec (k : ℕ) (core : Core m past s) (running : s.xSchedulerRunning = true) (onTime : OnTime s)
    (active : s.uxSchedulerSuspended = 0) (preempted : Preempted s) (none : NonePending s) :
    ∃ s', s.pendedTicks k = some s' ∧ Counted k s s' ∧ Core m past s' ∧ OnTime s' ∧ Preempted s' ∧ NonePending s' := by
  induction k generalizing s with
  | zero => exact ⟨s, rfl, ⟨_, _, _, _, _, _, _, _, _, _, _, _, rfl, rfl⟩, core, onTime, preempted, none⟩
  | succ k ih =>
    obtain ⟨s₁, r, ticked, ⟨_, _, _, _, _, _, _, _, _, rfl⟩, core₁, onTime₁, woken, quiet⟩ :=
      xTaskIncrementTick_spec core running onTime active
    have none₁ := woken.nonePending none
    rw [Kernel.pendedTicks, ticked, Option.bind_some]
    cases r with
    | true =>
      obtain ⟨s', run, ⟨_, _, _, _, _, _, _, _, _, _, _, now, counted, rfl⟩, rest⟩ :=
        ih (core₁.setPending running true) running onTime₁ active (fun quiet => absurd quiet Bool.true_eq_false.mp) none₁
      have later : now = s.now + (k + 1) := by
        rw [counted]
        exact Nat.add_right_comm ..
      exact ⟨_, run, ⟨_, _, _, _, _, _, _, _, _, _, _, now, later, rfl⟩, rest⟩
    | false =>
      have quiet₁ := (quiet preempted rfl).2
      obtain ⟨s', run, ⟨_, _, _, _, _, _, _, _, _, _, _, now, counted, rfl⟩, rest⟩ :=
        ih core₁ running onTime₁ active (fun _ => quiet₁) none₁
      have later : now = s.now + (k + 1) := by
        rw [counted]
        exact Nat.add_right_comm ..
      exact ⟨_, run, ⟨_, _, _, _, _, _, _, _, _, _, _, now, later, rfl⟩, rest⟩

theorem tasks_pos (core : Core m past s) (running : s.xSchedulerRunning = true) : s.uxCurrentNumberOfTasks > 0 := by
  obtain ⟨idle, -, ready⟩ := core.idle running
  have inside : idle ∈ tasksIn Placed s.lists := ⟨_, ready⟩
  have some : (tasksIn Placed s.lists).encard ≠ 0 := Set.encard_ne_zero.mpr ⟨idle, inside⟩
  rw [core.counted] at some
  exact Nat.pos_of_ne_zero (by simpa using some)

theorem nonePending_of (core : Core m past s) (none : items s.lists .xPendingReadyList = []) : NonePending s := by
  intro t waits
  have inside : .xEventListItem t ∈ items s.lists .xPendingReadyList := core.shown.mem_items.mpr waits
  rw [none] at inside
  cases inside

/-- The scheduler runs on: no task is pending, all ticks are counted, and the running task is of the highest priority. -/
theorem xTaskResumeAll_spec (core : Core m past s) (running : s.xSchedulerRunning = true) (onTime : OnTime s)
    (preempted : Preempted s) (last : s.uxSchedulerSuspended = 1) :
    ∃ s' y, s.xTaskResumeAll = some (s', y) ∧ Core m past s' ∧ OnTime s' ∧ Preempted s' ∧ NonePending s' ∧
      s'.uxSchedulerSuspended = 0 ∧ s'.xSchedulerRunning = true ∧ s'.xPendedTicks = 0 ∧ s'.ticks = s.ticks ∧
      s'.now = s.now + s.xPendedTicks.val := by
  have active : s.uxSchedulerSuspended - 1 = 0 := by rw [last]
  have resumed : Core m past { s with uxSchedulerSuspended := s.uxSchedulerSuspended - 1 } := by
    refine { core with resting := ?_ }
    intro rest
    rw [running] at rest
    cases rest
  obtain ⟨s₁, loop, drained, core₁, preempted₁, woken, none⟩ :=
    pendingLoop_spec (items s.lists .xPendingReadyList).length resumed running preempted le_rfl
  obtain ⟨running₁, active₁, pended₁, now₁, ticks₁⟩ : s₁.xSchedulerRunning = true ∧ s₁.uxSchedulerSuspended = 0 ∧
      s₁.xPendedTicks = s.xPendedTicks ∧ s₁.now = s.now ∧ s₁.ticks = s.ticks := by
    obtain ⟨_, _, _, _, _, rfl⟩ := drained
    exact ⟨running, active, rfl, rfl, rfl⟩
  have onTime₁ : OnTime s₁ := woken.onTime now₁ onTime
  have none₁ : NonePending s₁ := nonePending_of core₁ none
  -- the time to unblock the next task is found anew when a task was pending
  obtain ⟨next, reset, core₂⟩ : ∃ next,
      (if items s.lists .xPendingReadyList ≠ [] then s₁.prvResetNextTaskUnblockTime else s₁) =
        { s₁ with xNextTaskUnblockTime := next } ∧ Core m past { s₁ with xNextTaskUnblockTime := next } := by
    by_cases some : items s.lists .xPendingReadyList ≠ []
    · obtain ⟨next, reset, core₂⟩ := prvResetNextTaskUnblockTime_spec core₁
      exact ⟨next, (if_pos some).trans reset, core₂⟩
    · exact ⟨_, if_neg some, core₁⟩
  obtain ⟨s₃, counting, counted, core₃, onTime₃, preempted₃, none₃⟩ :=
    pendedTicks_spec s₁.xPendedTicks.val core₂ running₁ onTime₁ active₁ preempted₁ none₁
  obtain ⟨running₃, active₃, now₃, ticks₃⟩ : s₃.xSchedulerRunning = true ∧ s₃.uxSchedulerSuspended = 0 ∧
      s₃.now = s.now + s.xPendedTicks.val ∧ s₃.ticks = s.ticks := by
    obtain ⟨_, _, _, _, _, _, _, _, _, _, _, now, later, rfl⟩ := counted
    exact ⟨running₁, active₁, later.trans (by rw [pended₁]; exact congrArg (· + _) now₁), ticks₁⟩
  have several := tasks_pos core running
  have result : s.xTaskResumeAll = if s₃.xYieldPending then
      { s₃ with xPendedTicks := 0 }.vTaskSwitchContext.map fun s => (s, true) else some ({ s₃ with xPendedTicks := 0 }, false) := by
    unfold Kernel.xTaskResumeAll
    refine (if_pos ⟨active, several⟩).trans ?_
    refine (bind_of loop).trans ?_
    simp only [reset]
    exact bind_of counting
  have core₄ : Core m past { s₃ with xPendedTicks := 0 } := { core₃ with }
  by_cases yields : s₃.xYieldPending = true
  · rw [if_pos yields] at result
    obtain ⟨a, calls, t, switched, core₅, place, -, -, best⟩ := vTaskSwitchContext_spec core₄ running₃ active₃
    rw [switched, Option.map_some] at result
    refine ⟨_, _, result, core₅, onTime₃, preempted_of_selected place best, ?_, active₃, running₃, rfl, ticks₃, now₃⟩
    intro t' waits
    exact none₃ t' ((congrFun place _).symm.trans waits)
  · rw [if_neg yields] at result
    exact ⟨_, _, result, core₄, onTime₃, preempted₃, none₃, active₃, running₃, rfl, ticks₃, now₃⟩

end OsyProg.TaskSteps
