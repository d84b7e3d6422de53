import Mathlib.Data.Set.Card
import OsyProg.TaskKernel

/-!
What holds of the scheduler in every state, also in the middle of its functions (`Core`): each
task is in the lists of one of its states, the tasks in a ready list have its priority, and a
delayed task is in the list of its time (`TaskOk`). Each function moves one task at a time
(`Moved`); what it may find and what it leaves is said once for each of the ways to move it.
-/
namespace OsyProg.TaskStates
open OsyProg.Cursors OsyProg.KernelLists OsyProg.ListCalls OsyProg.TaskLists OsyProg.TaskKernel Function
set_option linter.unusedSectionVars false

variable {Task Event : Type} [DecidableEq Task] [DecidableEq Event]

/-- What is known of a task: where its items are, its priorities, when it is due and the value of its state item. -/
structure View (Event : Type) where
  state : Option (Option (ListName Event))
  event : Option (Option (ListName Event))
  uxPriority : ℕ
  uxBasePriority : ℕ
  due : Option ℕ
  value : TickType

def view (s : Kernel Task Event) (t : Task) : View Event where
  state := s.lists.place (.xStateListItem t)
  event := s.lists.place (.xEventListItem t)
  uxPriority := s.uxPriority t
  uxBasePriority := s.uxBasePriority t
  due := s.due t
  value := s.lists.value (.xStateListItem t)

/-- A list of tasks that wait for something. -/
def Blocked (l : ListName Event) : Prop := Delay l ∨ l = .xSuspendedTaskList

/-- A task is in the lists of one state. When it is delayed, the value of its state item is the tick for which it asked,
    in the list of this round of the tick count or in that of the next one. -/
structure TaskOk (uxTopReadyPriority now : ℕ) (delayed overflow : ListName Event) (next : TickType) (v : View Event) :
    Prop where
  known : v.state = none ↔ v.event = none
  state : ∀ l, v.state = some (some l) →
    l = .pxReadyTasksLists v.uxPriority ∨ Blocked l ∨ l = .xTasksWaitingTermination
  event : ∀ l, v.event = some (some l) →
    (l = .xPendingReadyList ∨ ∃ e, l = .event e) ∧ ∃ l', v.state = some (some l') ∧ Blocked l'
  priority : v.state ≠ none → v.uxPriority < configMAX_PRIORITIES ∧ v.uxBasePriority = v.uxPriority
  top : v.state = some (some (.pxReadyTasksLists v.uxPriority)) → v.uxPriority ≤ uxTopReadyPriority
  due : v.due ≠ none ↔ ∃ l, v.state = some (some l) ∧ Delay l
  delayed : ∀ d, v.due = some d → v.state = some (some delayed) →
    now ≤ d ∧ d / 2 ^ 64 = now / 2 ^ 64 ∧ v.value.val = d % 2 ^ 64 ∧ next ≤ v.value
  overflow : ∀ d, v.due = some d → v.state = some (some overflow) → d / 2 ^ 64 = now / 2 ^ 64 + 1 ∧ v.value.val = d % 2 ^ 64

/-- The lists that `prvInitialiseTaskLists` initialises. -/
def Fixed : ListName Event → Prop
  | .pxReadyTasksLists p => p < configMAX_PRIORITIES
  | .event _ => False
  | _ => True

/-- The tasks whose state items are in such a place. -/
def tasksIn (P : Option (Option (ListName Event)) → Prop) (a : AllLists Task Event) : Set Task :=
  {t | P (a.place (.xStateListItem t))}

def Placed (p : Option (Option (ListName Event))) : Prop := ∃ l, p = some (some l)

def Terminated (p : Option (Option (ListName Event))) : Prop := p = some (some .xTasksWaitingTermination)

/-- What holds at every point of the functions; some calls were the first ones. -/
structure Core (m : ListMemory Task Event) (past : List (ListCall Task Event)) (s : Kernel Task Event) : Prop where
  shown : Shown m s.lists s.calls
  past : past <+: s.calls
  turns : s.switchedIn = readyTurns m s.calls
  fixed : ∀ l, Fixed l → s.lists.list l ≠ none
  tasks : ∀ t, TaskOk s.uxTopReadyPriority s.now s.pxDelayedTaskList s.pxOverflowDelayedTaskList
    s.xNextTaskUnblockTime (view s t)
  pointers : s.pxDelayedTaskList = .xDelayedTaskList1 ∧ s.pxOverflowDelayedTaskList = .xDelayedTaskList2 ∨
    s.pxDelayedTaskList = .xDelayedTaskList2 ∧ s.pxOverflowDelayedTaskList = .xDelayedTaskList1
  current : (view s s.pxCurrentTCB).state ≠ none
  tick : s.xTickCount.val = s.now % 2 ^ 64
  wakes : ∀ w ∈ s.wakes, w.now = w.due
  counted : (tasksIn Placed s.lists).encard = s.uxCurrentNumberOfTasks
  cleaned : (tasksIn Terminated s.lists).encard = s.uxDeletedTasksWaitingCleanUp
  idle : s.xSchedulerRunning = true → ∃ idle, s.xIdleTaskHandle = some idle ∧
    (view s idle).state = some (some (.pxReadyTasksLists (s.uxPriority idle)))
  resting : s.xSchedulerRunning = false →
    s.now = 0 ∧ s.xYieldPending = false ∧ s.uxSchedulerSuspended = 0 ∧ ∀ t, s.due t = none

/-! ### One task is moved -/

/-- A function goes on with the result of its first part. -/
theorem bind_of {α β : Type} {o : Option α} {a : α} {f : α → Option β} (result : o = some a) : o.bind f = f a := by
  rw [result, Option.bind_some]

theorem map_of {α β : Type} {o : Option α} {a : α} {f : α → β} (result : o = some a) : o.map f = some (f a) := by
  rw [result, Option.map_some]

section
variable {t t' : Task}

theorem state_ne_event (t t' : Task) : ListItem.xStateListItem t ≠ .xEventListItem t' := nofun

theorem event_ne_state (t t' : Task) : ListItem.xEventListItem t ≠ .xStateListItem t' := nofun

theorem state_ne_state (other : t' ≠ t) : ListItem.xStateListItem t' ≠ .xStateListItem t :=
  fun same => other (ListItem.xStateListItem.inj same)

theorem event_ne_event (other : t' ≠ t) : ListItem.xEventListItem t' ≠ .xEventListItem t :=
  fun same => other (ListItem.xEventListItem.inj same)

end

/-- Some calls have moved the items of one task, and given its state item a value. -/
structure Moved (m : ListMemory Task Event) (s : Kernel Task Event) (t : Task) (x y : Option (Option (ListName Event)))
    (v : TickType) (a : AllLists Task Event) (calls : List (ListCall Task Event)) : Prop where
  shown : Shown m a calls
  past : s.calls <+: calls
  turns : readyTurns m calls = readyTurns m s.calls
  state : a.place (.xStateListItem t) = x
  event : a.place (.xEventListItem t) = y
  value : a.value (.xStateListItem t) = v
  others : ∀ t', t' ≠ t → a.place (.xStateListItem t') = s.lists.place (.xStateListItem t') ∧
    a.place (.xEventListItem t') = s.lists.place (.xEventListItem t') ∧
    a.value (.xStateListItem t') = s.lists.value (.xStateListItem t')
  lists : ∀ l, a.list l = none ↔ s.lists.list l = none

section
variable {m : ListMemory Task Event} {s : Kernel Task Event} {t : Task} {x y : Option (Option (ListName Event))}
  {v : TickType} {l : ListName Event}

theorem Moved.start (shown : Shown m s.lists s.calls) (t : Task) :
    Moved m s t (view s t).state (view s t).event (view s t).value s.lists s.calls :=
  ⟨shown, List.prefix_refl _, rfl, rfl, rfl, rfl, fun _ _ => ⟨rfl, rfl, rfl⟩, fun _ => .rfl⟩

/-- A call that changes the place of the state item only. -/
theorem Moved.callState (s₁ : Kernel Task Event) (moved : Moved m s t x y v s₁.lists s₁.calls) {c : ListCall Task Event}
    {x' : Option (Option (ListName Event))}
    (effect : ∃ b, s₁.lists.step c = some b ∧ Shown m b (s₁.calls ++ [c]) ∧
      b.place = update s₁.lists.place (.xStateListItem t) x' ∧ b.value = s₁.lists.value ∧
        ∀ l, b.list l = none ↔ s₁.lists.list l = none) (quiet : ∀ l, c ≠ .getOwnerOfNextEntry l) :
    ∃ b, s₁.listCall c = some { s₁ with lists := b, calls := s₁.calls ++ [c] } ∧
      Moved m s t x' y v b (s₁.calls ++ [c]) := by
  obtain ⟨b, taken, shown, place, value, lists⟩ := effect
  refine ⟨b, by rw [Kernel.listCall, taken, Option.map_some], shown, moved.past.trans (List.prefix_append _ _), ?_, ?_, ?_,
    ?_, ?_, ?_⟩
  · rw [moved.shown.readyTurns_quiet quiet, moved.turns]
  · rw [place, update_self]
  · rw [place, update_of_ne (event_ne_state t t), moved.event]
  · rw [value, moved.value]
  · intro t' other
    rw [place, value, update_of_ne (state_ne_state other), update_of_ne (event_ne_state t' t)]
    exact moved.others t' other
  · intro l
    rw [lists, moved.lists]

/-- A call that changes the place of the event item only. -/
theorem Moved.callEvent (s₁ : Kernel Task Event) (moved : Moved m s t x y v s₁.lists s₁.calls) {c : ListCall Task Event}
    {y' : Option (Option (ListName Event))}
    (effect : ∃ b, s₁.lists.step c = some b ∧ Shown m b (s₁.calls ++ [c]) ∧
      b.place = update s₁.lists.place (.xEventListItem t) y' ∧ b.value = s₁.lists.value ∧
        ∀ l, b.list l = none ↔ s₁.lists.list l = none) (quiet : ∀ l, c ≠ .getOwnerOfNextEntry l) :
    ∃ b, s₁.listCall c = some { s₁ with lists := b, calls := s₁.calls ++ [c] } ∧
      Moved m s t x y' v b (s₁.calls ++ [c]) := by
  obtain ⟨b, taken, shown, place, value, lists⟩ := effect
  refine ⟨b, by rw [Kernel.listCall, taken, Option.map_some], shown, moved.past.trans (List.prefix_append _ _), ?_, ?_, ?_,
    ?_, ?_, ?_⟩
  · rw [moved.shown.readyTurns_quiet quiet, moved.turns]
  · rw [place, update_of_ne (state_ne_event t t), moved.state]
  · rw [place, update_self]
  · rw [value, moved.value]
  · intro t' other
    rw [place, value, update_of_ne (state_ne_event t' t), update_of_ne (event_ne_event other)]
    exact moved.others t' other
  · intro l
    rw [lists, moved.lists]

theorem Moved.removeState (s₁ : Kernel Task Event) (moved : Moved m s t (some (some l)) y v s₁.lists s₁.calls) :
    ∃ b, s₁.listCall (.uxListRemove (.xStateListItem t)) =
        some { s₁ with lists := b, calls := s₁.calls ++ [.uxListRemove (.xStateListItem t)] } ∧
      Moved m s t (some none) y v b (s₁.calls ++ [.uxListRemove (.xStateListItem t)]) :=
  moved.callState s₁ (shown_remove moved.shown moved.state) nofun

theorem Moved.removeEvent (s₁ : Kernel Task Event) (moved : Moved m s t x (some (some l)) v s₁.lists s₁.calls) :
    ∃ b, s₁.listCall (.uxListRemove (.xEventListItem t)) =
        some { s₁ with lists := b, calls := s₁.calls ++ [.uxListRemove (.xEventListItem t)] } ∧
      Moved m s t x (some none) v b (s₁.calls ++ [.uxListRemove (.xEventListItem t)]) :=
  moved.callEvent s₁ (shown_remove moved.shown moved.event) nofun

theorem Moved.insertEndState (s₁ : Kernel Task Event) (moved : Moved m s t (some none) y v s₁.lists s₁.calls) (listed : s.lists.list l ≠ none)
    (other : ¬ Delay l) :
    ∃ b, s₁.listCall (.vListInsertEnd l (.xStateListItem t)) =
        some { s₁ with lists := b, calls := s₁.calls ++ [.vListInsertEnd l (.xStateListItem t)] } ∧
      Moved m s t (some (some l)) y v b (s₁.calls ++ [.vListInsertEnd l (.xStateListItem t)]) :=
  moved.callState s₁ (shown_insertEnd moved.shown (mt (moved.lists l).mp listed) moved.state other) nofun

theorem Moved.insertEndEvent (s₁ : Kernel Task Event) (moved : Moved m s t x (some none) v s₁.lists s₁.calls) (listed : s.lists.list l ≠ none)
    (other : ¬ Delay l) :
    ∃ b, s₁.listCall (.vListInsertEnd l (.xEventListItem t)) =
        some { s₁ with lists := b, calls := s₁.calls ++ [.vListInsertEnd l (.xEventListItem t)] } ∧
      Moved m s t x (some (some l)) v b (s₁.calls ++ [.vListInsertEnd l (.xEventListItem t)]) :=
  moved.callEvent s₁ (shown_insertEnd moved.shown (mt (moved.lists l).mp listed) moved.event other) nofun

theorem Moved.insertState (s₁ : Kernel Task Event) (moved : Moved m s t (some none) y v s₁.lists s₁.calls) (listed : s.lists.list l ≠ none) :
    ∃ b, s₁.listCall (.vListInsert l (.xStateListItem t)) =
        some { s₁ with lists := b, calls := s₁.calls ++ [.vListInsert l (.xStateListItem t)] } ∧
      Moved m s t (some (some l)) y v b (s₁.calls ++ [.vListInsert l (.xStateListItem t)]) :=
  moved.callState s₁ (shown_insert moved.shown (mt (moved.lists l).mp listed) moved.state) nofun

theorem Moved.insertEvent (s₁ : Kernel Task Event) (moved : Moved m s t x (some none) v s₁.lists s₁.calls) (listed : s.lists.list l ≠ none) :
    ∃ b, s₁.listCall (.vListInsert l (.xEventListItem t)) =
        some { s₁ with lists := b, calls := s₁.calls ++ [.vListInsert l (.xEventListItem t)] } ∧
      Moved m s t x (some (some l)) v b (s₁.calls ++ [.vListInsert l (.xEventListItem t)]) :=
  moved.callEvent s₁ (shown_insert moved.shown (mt (moved.lists l).mp listed) moved.event) nofun

theorem Moved.setStateValue (s₁ : Kernel Task Event) (moved : Moved m s t x y v s₁.lists s₁.calls) (w : TickType)
    (free : ∀ l, Delay l → x ≠ some (some l)) :
    ∃ b, s₁.listCall (.setListItemValue (.xStateListItem t) w) =
        some { s₁ with lists := b, calls := s₁.calls ++ [.setListItemValue (.xStateListItem t) w] } ∧
      Moved m s t x y w b (s₁.calls ++ [.setListItemValue (.xStateListItem t) w]) := by
  obtain ⟨b, taken, shown, place, value, lists⟩ :=
    shown_setValue moved.shown w fun l delay => by rw [moved.state]; exact free l delay
  refine ⟨b, by rw [Kernel.listCall, taken, Option.map_some], shown, moved.past.trans (List.prefix_append _ _), ?_, ?_, ?_,
    ?_, ?_, ?_⟩
  · rw [moved.shown.readyTurns_quiet (c := .setListItemValue (.xStateListItem t) w) nofun, moved.turns]
  · rw [place, moved.state]
  · rw [place, moved.event]
  · rw [value, update_self]
  · intro t' other
    rw [place, value, update_of_ne (state_ne_state other)]
    exact moved.others t' other
  · intro l
    rw [lists, moved.lists]

theorem Moved.setEventValue (s₁ : Kernel Task Event) (moved : Moved m s t x y v s₁.lists s₁.calls) (w : TickType)
    (free : ∀ l, Delay l → y ≠ some (some l)) :
    ∃ b, s₁.listCall (.setListItemValue (.xEventListItem t) w) =
        some { s₁ with lists := b, calls := s₁.calls ++ [.setListItemValue (.xEventListItem t) w] } ∧
      Moved m s t x y v b (s₁.calls ++ [.setListItemValue (.xEventListItem t) w]) := by
  obtain ⟨b, taken, shown, place, value, lists⟩ :=
    shown_setValue moved.shown w fun l delay => by rw [moved.event]; exact free l delay
  refine ⟨b, by rw [Kernel.listCall, taken, Option.map_some], shown, moved.past.trans (List.prefix_append _ _), ?_, ?_, ?_,
    ?_, ?_, ?_⟩
  · rw [moved.shown.readyTurns_quiet (c := .setListItemValue (.xEventListItem t) w) nofun, moved.turns]
  · rw [place, moved.state]
  · rw [place, moved.event]
  · rw [value, update_of_ne (state_ne_event t t), moved.value]
  · intro t' other
    rw [place, value, update_of_ne (state_ne_event t' t)]
    exact moved.others t' other
  · intro l
    rw [lists, moved.lists]

theorem Moved.initialiseState (s₁ : Kernel Task Event) (moved : Moved m s t none y v s₁.lists s₁.calls) :
    ∃ b, s₁.listCall (.vListInitialiseItem (.xStateListItem t)) =
        some { s₁ with lists := b, calls := s₁.calls ++ [.vListInitialiseItem (.xStateListItem t)] } ∧
      Moved m s t (some none) y v b (s₁.calls ++ [.vListInitialiseItem (.xStateListItem t)]) :=
  moved.callState s₁ (shown_initialiseItem moved.shown moved.state) nofun

theorem Moved.initialiseEvent (s₁ : Kernel Task Event) (moved : Moved m s t x none v s₁.lists s₁.calls) :
    ∃ b, s₁.listCall (.vListInitialiseItem (.xEventListItem t)) =
        some { s₁ with lists := b, calls := s₁.calls ++ [.vListInitialiseItem (.xEventListItem t)] } ∧
      Moved m s t x (some none) v b (s₁.calls ++ [.vListInitialiseItem (.xEventListItem t)]) :=
  moved.callEvent s₁ (shown_initialiseItem moved.shown moved.event) nofun

/-- The task is put into the ready list of its priority. -/
theorem Moved.addToReady (s₁ : Kernel Task Event) (moved : Moved m s t (some none) y v s₁.lists s₁.calls)
    (listed : s.lists.list (.pxReadyTasksLists (s₁.uxPriority t)) ≠ none) :
    ∃ b calls, s₁.prvAddTaskToReadyList t =
        some { s₁ with
          lists := b
          calls
          uxTopReadyPriority := max s₁.uxTopReadyPriority (s₁.uxPriority t) } ∧
      Moved m s t (some (some (.pxReadyTasksLists (s₁.uxPriority t)))) y v b calls := by
  have record : s₁.taskRECORD_READY_PRIORITY (s₁.uxPriority t) =
      { s₁ with uxTopReadyPriority := max s₁.uxTopReadyPriority (s₁.uxPriority t) } := by
    unfold Kernel.taskRECORD_READY_PRIORITY
    split
    case isTrue higher => rw [max_eq_right higher.le]
    case isFalse lower => rw [max_eq_left (not_lt.mp lower)]
  have ready : ¬ Delay (.pxReadyTasksLists (s₁.uxPriority t) : ListName Event) := by
    rintro (same | same) <;> cases same
  rw [Kernel.prvAddTaskToReadyList, record]
  obtain ⟨b, call, after⟩ :=
    moved.insertEndState { s₁ with uxTopReadyPriority := max s₁.uxTopReadyPriority (s₁.uxPriority t) } listed ready
  exact ⟨b, _, call, after⟩

/-- The task leaves the event list that it may be in. -/
theorem Moved.leave (s₁ : Kernel Task Event) (moved : Moved m s t x y v s₁.lists s₁.calls) (known : y ≠ none) :
    ∃ b calls, s₁.leaveEventList t = some { s₁ with lists := b, calls } ∧ Moved m s t x (some none) v b calls := by
  unfold Kernel.leaveEventList Kernel.eventList container
  rw [moved.event]
  cases y with
  | none => exact absurd rfl known
  | some place =>
    cases place with
    | none => exact ⟨s₁.lists, s₁.calls, by simp, moved⟩
    | some l =>
      obtain ⟨b, call, after⟩ := moved.removeEvent s₁
      exact ⟨b, _, by simpa using call, after⟩

end

/-! ### What holds of all tasks afterwards -/

section
variable {m : ListMemory Task Event} {past calls : List (ListCall Task Event)} {s : Kernel Task Event} {t : Task}
  {x y : Option (Option (ListName Event))} {v : TickType} {l : ListName Event} {a : AllLists Task Event}
  {P : Option (Option (ListName Event)) → Prop}

theorem mem_tasksIn : t ∈ tasksIn P a ↔ P (a.place (.xStateListItem t)) := .rfl

theorem Moved.mem_tasksIn (moved : Moved m s t x y v a calls) {t' : Task} (other : t' ≠ t) :
    t' ∈ tasksIn P a ↔ t' ∈ tasksIn P s.lists := by
  rw [TaskStates.mem_tasksIn, TaskStates.mem_tasksIn, (moved.others t' other).1]

theorem Moved.tasksIn_same (moved : Moved m s t x y v a calls) (same : P x ↔ P (view s t).state) :
    tasksIn P a = tasksIn P s.lists := by
  ext t'
  by_cases own : t' = t
  · subst own
    rw [TaskStates.mem_tasksIn, moved.state]
    exact same
  · exact moved.mem_tasksIn own

theorem Moved.tasksIn_more (moved : Moved m s t x y v a calls) (after : P x) (before : ¬ P (view s t).state) :
    (tasksIn P a).encard = (tasksIn P s.lists).encard + 1 := by
  have whole : tasksIn P a = insert t (tasksIn P s.lists) := by
    ext t'
    by_cases own : t' = t
    · subst own
      rw [TaskStates.mem_tasksIn, moved.state]
      exact iff_of_true after (Set.mem_insert ..)
    · rw [Set.mem_insert_iff, moved.mem_tasksIn own]
      exact ⟨.inr, fun either => either.resolve_left own⟩
  have fresh : t ∉ tasksIn P s.lists := before
  rw [whole, Set.encard_insert_of_notMem fresh]

theorem Moved.tasksIn_fewer (moved : Moved m s t x y v a calls) (after : ¬ P x) (before : P (view s t).state) :
    (tasksIn P s.lists).encard = (tasksIn P a).encard + 1 := by
  have whole : tasksIn P s.lists = insert t (tasksIn P a) := by
    ext t'
    by_cases own : t' = t
    · subst own
      exact iff_of_true before (Set.mem_insert ..)
    · rw [Set.mem_insert_iff, moved.mem_tasksIn own]
      exact ⟨.inr, fun either => either.resolve_left own⟩
  have gone : t ∉ tasksIn P a := by
    rw [TaskStates.mem_tasksIn, moved.state]
    exact after
  rw [whole, Set.encard_insert_of_notMem gone]

/-- One item of the task was in the list, the other was not, and none of the two is there afterwards. -/
theorem Moved.length_items (moved : Moved m s t x y v a calls) (shown : Shown m s.lists s.calls) {i : ListItem Task}
    (own : i.pvOwner = t) (before : s.lists.place i = some (some l))
    (once : ∀ j : ListItem Task, j.pvOwner = t → j ≠ i → s.lists.place j ≠ some (some l)) (state : x ≠ some (some l))
    (event : y ≠ some (some l)) : (items s.lists l).length = (items a l).length + 1 := by
  refine shown.length_items moved.shown before ?_
  intro j
  by_cases mine : j.pvOwner = t
  · have gone : a.place j ≠ some (some l) := by
      subst mine
      cases j with
      | xStateListItem t' =>
        rw [show a.place (.xStateListItem t') = x from moved.state]
        exact state
      | xEventListItem t' =>
        rw [show a.place (.xEventListItem t') = y from moved.event]
        exact event
    exact iff_of_false gone fun ⟨other, here⟩ => once j mine other here
  · have other : j ≠ i := fun same => mine (same ▸ own)
    rw [and_iff_right other]
    cases j with
    | xStateListItem t' => rw [(moved.others t' mine).1]
    | xEventListItem t' => rw [(moved.others t' mine).2.1]

theorem TaskOk.weaken {top top' now : ℕ} {delayed overflow : ListName Event} {next next' : TickType} {w : View Event}
    (ok : TaskOk top now delayed overflow next w) (higher : top ≤ top') (earlier : next' ≤ next) :
    TaskOk top' now delayed overflow next' w := by
  refine ⟨ok.known, ok.state, ok.event, ok.priority, fun here => (ok.top here).trans higher, ok.due, ?_, ok.overflow⟩
  intro d due here
  obtain ⟨late, round, value, next⟩ := ok.delayed d due here
  exact ⟨late, round, value, earlier.trans next⟩

/-- One task is moved, and nothing is changed that concerns the others. -/
theorem Core.change (core : Core m past s) (moved : Moved m s t x y v a calls) {prio base : Task → ℕ}
    {due : Task → Option ℕ} {wakes : List (Wake Task)} {top cleaned count : ℕ} {next : TickType} {pending : Bool}
    (others : ∀ t', t' ≠ t → prio t' = s.uxPriority t' ∧ base t' = s.uxBasePriority t' ∧ due t' = s.due t')
    (own : TaskOk top s.now s.pxDelayedTaskList s.pxOverflowDelayedTaskList next ⟨x, y, prio t, base t, due t, v⟩)
    (known : x ≠ none) (higher : s.uxTopReadyPriority ≤ top) (earlier : next ≤ s.xNextTaskUnblockTime)
    (timely : ∀ w ∈ wakes, w.now = w.due) (counted : (tasksIn Placed a).encard = count)
    (terminated : (tasksIn Terminated a).encard = cleaned)
    (idle : s.xSchedulerRunning = true → s.xIdleTaskHandle = some t → x = some (some (.pxReadyTasksLists (prio t))))
    (resting : s.xSchedulerRunning = false → pending = false ∧ due t = none) :
    Core m past { s with
      lists := a
      calls
      uxPriority := prio
      uxBasePriority := base
      due
      wakes
      uxTopReadyPriority := top
      xNextTaskUnblockTime := next
      uxDeletedTasksWaitingCleanUp := cleaned
      uxCurrentNumberOfTasks := count
      xYieldPending := pending } := by
  refine ⟨moved.shown, core.past.trans moved.past, core.turns.trans moved.turns.symm, ?_, ?_, core.pointers, ?_,
    core.tick, timely, counted, terminated, ?_, ?_⟩
  · intro l fix
    exact mt (moved.lists l).mp (core.fixed l fix)
  · intro t'
    by_cases same : t' = t
    · subst same
      simp only [view, moved.state, moved.event, moved.value]
      exact own
    · obtain ⟨state, event, value⟩ := moved.others t' same
      obtain ⟨prio', base', due'⟩ := others t' same
      have ok := (core.tasks t').weaken higher earlier
      simp only [view, state, event, value, prio', base', due']
      exact ok
  · by_cases same : s.pxCurrentTCB = t
    · simp only [view, same, moved.state]
      exact known
    · simp only [view, (moved.others _ same).1]
      exact core.current
  · intro running
    obtain ⟨i, handle, ready⟩ := core.idle running
    refine ⟨i, handle, ?_⟩
    by_cases same : i = t
    · subst same
      simp only [view, moved.state]
      exact idle running handle
    · simp only [view, (moved.others i same).1, (others i same).1]
      exact ready
  · intro rest
    obtain ⟨now, -, suspended, free⟩ := core.resting rest
    obtain ⟨quiet, none⟩ := resting rest
    refine ⟨now, quiet, suspended, ?_⟩
    intro t'
    by_cases same : t' = t
    · rw [same]
      exact none
    · exact (others t' same).2.2.trans (free t')

/-- The task was in a list and is in a list, and is not being deleted. -/
theorem Core.move (core : Core m past s) {l₀ : ListName Event} (moved : Moved m s t (some (some l)) y v a calls)
    (before : (view s t).state = some (some l₀)) (alive : l₀ ≠ .xTasksWaitingTermination)
    (stays : l ≠ .xTasksWaitingTermination) {prio base : Task → ℕ} {due : Task → Option ℕ} {wakes : List (Wake Task)}
    {top : ℕ} {next : TickType} {pending : Bool}
    (others : ∀ t', t' ≠ t → prio t' = s.uxPriority t' ∧ base t' = s.uxBasePriority t' ∧ due t' = s.due t')
    (own : TaskOk top s.now s.pxDelayedTaskList s.pxOverflowDelayedTaskList next
      ⟨some (some l), y, prio t, base t, due t, v⟩)
    (higher : s.uxTopReadyPriority ≤ top) (earlier : next ≤ s.xNextTaskUnblockTime)
    (timely : ∀ w ∈ wakes, w.now = w.due) (running : s.xSchedulerRunning = true)
    (idle : s.xIdleTaskHandle = some t → l = .pxReadyTasksLists (prio t)) :
    Core m past { s with
      lists := a
      calls
      uxPriority := prio
      uxBasePriority := base
      due
      wakes
      uxTopReadyPriority := top
      xNextTaskUnblockTime := next
      xYieldPending := pending } := by
  refine core.change moved others own (Option.some_ne_none _) higher earlier timely ?_ ?_ ?_ ?_
  · rw [moved.tasksIn_same (iff_of_true ⟨l, rfl⟩ ⟨l₀, before⟩)]
    exact core.counted
  · have apart : ¬ Terminated (some (some l)) := fun same => stays (Option.some.inj (Option.some.inj same))
    have apart' : ¬ Terminated (view s t).state := fun same => alive (Option.some.inj (Option.some.inj (before.symm.trans same)))
    rw [moved.tasksIn_same (iff_of_false apart apart')]
    exact core.cleaned
  · intro _ handle
    rw [idle handle]
  · intro rest
    rw [running] at rest
    cases rest

end

/-! ### Heads of lists -/

section
variable {m : ListMemory Task Event} {past : List (ListCall Task Event)} {s : Kernel Task Event} {t : Task}
  {l : ListName Event}

/-- Only state items are in a list that is not one of event items. -/
theorem Core.state_head (core : Core m past s) (pending : l ≠ .xPendingReadyList) (event : ∀ e, l ≠ .event e)
    {head : ListItem Task} {rest : List (ListItem Task)} (found : items s.lists l = head :: rest) :
    ∃ t, head = .xStateListItem t ∧ (view s t).state = some (some l) := by
  have inside : s.lists.place head = some (some l) := core.shown.mem_items.mp (by rw [found]; exact .head _)
  cases head with
  | xStateListItem t => exact ⟨t, rfl, inside⟩
  | xEventListItem t =>
    obtain ⟨kind, -⟩ := (core.tasks t).event l inside
    rcases kind with same | ⟨e, same⟩
    · exact absurd same pending
    · exact absurd same (event e)

/-- Only event items are in the lists of event items. -/
theorem Core.event_head (core : Core m past s) (kind : l = .xPendingReadyList ∨ ∃ e, l = .event e)
    {head : ListItem Task} {rest : List (ListItem Task)} (found : items s.lists l = head :: rest) :
    ∃ t, head = .xEventListItem t ∧ (view s t).event = some (some l) := by
  have inside : s.lists.place head = some (some l) := core.shown.mem_items.mp (by rw [found]; exact .head _)
  cases head with
  | xEventListItem t => exact ⟨t, rfl, inside⟩
  | xStateListItem t =>
    rcases (core.tasks t).state l inside with rfl | ((rfl | rfl) | rfl) | rfl <;> simp at kind

theorem Core.delay_delayed (core : Core m past s) : Delay s.pxDelayedTaskList := by
  rcases core.pointers with ⟨here, -⟩ | ⟨here, -⟩
  · exact .inl here
  · exact .inr here

theorem Core.delay_overflow (core : Core m past s) : Delay s.pxOverflowDelayedTaskList := by
  rcases core.pointers with ⟨-, here⟩ | ⟨-, here⟩
  · exact .inr here
  · exact .inl here

/-- A delayed task is in one of the two lists, and due in this round of the tick count or in the next one. -/
theorem Core.due_cases (core : Core m past s) {d : ℕ} (due : s.due t = some d) :
    (view s t).state = some (some s.pxDelayedTaskList) ∧ (s.now ≤ d ∧ d / 2 ^ 64 = s.now / 2 ^ 64 ∧
        (view s t).value.val = d % 2 ^ 64 ∧ s.xNextTaskUnblockTime ≤ (view s t).value) ∨
      (view s t).state = some (some s.pxOverflowDelayedTaskList) ∧
        d / 2 ^ 64 = s.now / 2 ^ 64 + 1 ∧ (view s t).value.val = d % 2 ^ 64 := by
  have ok := core.tasks t
  obtain ⟨l, here, delay⟩ := ok.due.mp (by simp [view, due])
  have either : l = s.pxDelayedTaskList ∨ l = s.pxOverflowDelayedTaskList := by
    rcases core.pointers with ⟨first, second⟩ | ⟨first, second⟩
    · rw [first, second]
      exact delay
    · rw [first, second]
      exact delay.symm
  rcases either with rfl | rfl
  · exact .inl ⟨here, ok.delayed d due here⟩
  · exact .inr ⟨here, ok.overflow d due here⟩

theorem Core.setPending (core : Core m past s) (running : s.xSchedulerRunning = true) (pending : Bool) :
    Core m past { s with xYieldPending := pending } := by
  refine { core with resting := ?_ }
  intro rest
  rw [running] at rest
  cases rest

/-- No delayed task is due before the next time to unblock one. -/
theorem Core.setNext (core : Core m past s) {next : TickType}
    (least : ∀ t, (view s t).state = some (some s.pxDelayedTaskList) → next ≤ (view s t).value) :
    Core m past { s with xNextTaskUnblockTime := next } := by
  refine { core with tasks := ?_ }
  intro t
  refine { core.tasks t with delayed := ?_ }
  intro d due here
  obtain ⟨late, round, value, -⟩ := (core.tasks t).delayed d due here
  exact ⟨late, round, value, least t here⟩

theorem Core.delays_apart (core : Core m past s) : s.pxDelayedTaskList ≠ s.pxOverflowDelayedTaskList := by
  rcases core.pointers with ⟨first, second⟩ | ⟨first, second⟩
  · rw [first, second]
    nofun
  · rw [first, second]
    nofun

theorem delay_apart (delay : Delay l) : l ≠ .xPendingReadyList ∧ (∀ e, l ≠ .event e) ∧ l ≠ .xTasksWaitingTermination ∧
    l ≠ .xSuspendedTaskList ∧ ∀ p, l ≠ .pxReadyTasksLists p := by
  rcases delay with rfl | rfl <;> simp

theorem delay_fixed (delay : Delay l) : Fixed l := by
  rcases delay with rfl | rfl <;> trivial

/-! ### A task is woken -/

theorem TaskOk.ready {top now p : ℕ} {delayed overflow : ListName Event} {next v : TickType}
    (priority : p < configMAX_PRIORITIES) (higher : p ≤ top) :
    TaskOk top now delayed overflow next ⟨some (some (.pxReadyTasksLists p)), some none, p, p, none, v⟩ where
  known := by simp
  state := by simp
  event := by simp
  priority := by simpa using priority
  top := by simpa using higher
  due := by
    have apart : ¬ Delay (.pxReadyTasksLists p : ListName Event) := fun delay => (delay_apart delay).2.2.2.2 p rfl
    simpa using apart
  delayed := by simp
  overflow := by simp

/-- A task that is not created. -/
theorem TaskOk.unknown {top now p p' : ℕ} {delayed overflow : ListName Event} {next v : TickType} :
    TaskOk top now delayed overflow next ⟨none, none, p, p', none, v⟩ where
  known := by simp
  state := by simp
  event := by simp
  priority := by simp
  top := by simp
  due := by simp
  delayed := by simp
  overflow := by simp

/-- A task that waits, for its time or for something else. -/
theorem TaskOk.blocked {top now p : ℕ} {delayed overflow : ListName Event} {next v : TickType}
    {y : Option (Option (ListName Event))} {due : Option ℕ} (blocked : Blocked l)
    (waits : y = some none ∨ ∃ l', y = some (some l') ∧ (l' = .xPendingReadyList ∨ ∃ e, l' = .event e))
    (priority : p < configMAX_PRIORITIES) (timed : due ≠ none ↔ Delay l)
    (soon : ∀ d, due = some d → l = delayed → now ≤ d ∧ d / 2 ^ 64 = now / 2 ^ 64 ∧ v.val = d % 2 ^ 64 ∧ next ≤ v)
    (far : ∀ d, due = some d → l = overflow → d / 2 ^ 64 = now / 2 ^ 64 + 1 ∧ v.val = d % 2 ^ 64) :
    TaskOk top now delayed overflow next ⟨some (some l), y, p, p, due, v⟩ where
  known := by
    rcases waits with rfl | ⟨l', rfl, -⟩
    · simp
    · simp
  state := by
    rintro l' here
    obtain rfl := Option.some.inj (Option.some.inj here)
    exact .inr (.inl blocked)
  event := by
    rintro l' here
    rcases waits with rfl | ⟨l'', rfl, kind⟩
    · cases here
    · obtain rfl := Option.some.inj (Option.some.inj here)
      exact ⟨kind, l, rfl, blocked⟩
  priority := by simpa using priority
  top := by
    intro here
    have same : l = .pxReadyTasksLists p := Option.some.inj (Option.some.inj here)
    subst same
    rcases blocked with (same | same) | same <;> cases same
  due := by
    rw [timed]
    refine ⟨fun delay => ⟨l, rfl, delay⟩, ?_⟩
    rintro ⟨l', here, delay⟩
    obtain rfl := Option.some.inj (Option.some.inj here)
    exact delay
  delayed := fun d at_d here => soon d at_d (Option.some.inj (Option.some.inj here))
  overflow := fun d at_d here => far d at_d (Option.some.inj (Option.some.inj here))

theorem Core.priority (core : Core m past s) (known : (view s t).state ≠ none) :
    s.uxPriority t < configMAX_PRIORITIES ∧ s.uxBasePriority t = s.uxPriority t :=
  (core.tasks t).priority known

/-- The task has been moved to the ready list of its priority. -/
theorem Core.wake (core : Core m past s) {v : TickType} {a : AllLists Task Event} {calls : List (ListCall Task Event)}
    (moved : Moved m s t (some (some (.pxReadyTasksLists (s.uxPriority t)))) (some none) v a calls)
    (before : (view s t).state = some (some l)) (alive : l ≠ .xTasksWaitingTermination)
    (running : s.xSchedulerRunning = true) {wakes : List (Wake Task)} (timely : ∀ w ∈ wakes, w.now = w.due)
    (pending : Bool) :
    Core m past { s with
      lists := a
      calls
      due := update s.due t none
      wakes
      uxTopReadyPriority := max s.uxTopReadyPriority (s.uxPriority t)
      xYieldPending := pending } := by
  have known : (view s t).state ≠ none := by rw [before]; exact Option.some_ne_none _
  obtain ⟨priority, base⟩ := core.priority known
  refine core.move moved before alive nofun ?_ ?_ (le_max_left ..) le_rfl timely running fun _ => rfl
  · intro t' other
    exact ⟨rfl, rfl, update_of_ne other ..⟩
  · rw [base, update_self]
    exact TaskOk.ready priority (le_max_right ..)

end

end OsyProg.TaskStates
