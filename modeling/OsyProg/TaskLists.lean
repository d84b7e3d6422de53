import Mathlib.Data.Fin.Basic
import Mathlib.Order.Fin.Basic
import OsyProg.ListCalls

/-!
The lists of the scheduler: a list for each priority, two for delayed tasks, those for
pending, suspended and deleted tasks, and the lists of events. A task is in one of them by its
state item and may be in another by its event item. `Shown` says that some calls of the
functions of `list.c` were made as documented, so that the memory shows the lists, and that
the two delay lists are in order; each kind of call keeps it and changes the place of one
item (`shown_remove`, `shown_insertEnd`, `shown_insert`, `shown_next`, `shown_setValue`).
-/
namespace OsyProg.TaskLists
open OsyProg.Cursors OsyProg.KernelLists OsyProg.ListCalls Function
open OsyProg.Runs (exec exec_append_iff exec_cons_iff exec_simulates trace trace_append)
set_option linter.unusedSectionVars false

/-- `unsigned long` -/
abbrev TickType := Fin (2 ^ 64)

def portMAX_DELAY : TickType := ⊤

def configMAX_PRIORITIES : ℕ := 7

inductive ListItem (Task : Type)
  | xStateListItem (pxTCB : Task)
  | xEventListItem (pxTCB : Task)
  deriving DecidableEq

def ListItem.pvOwner {Task : Type} : ListItem Task → Task
  | .xStateListItem pxTCB => pxTCB
  | .xEventListItem pxTCB => pxTCB

inductive ListName (Event : Type)
  | pxReadyTasksLists (uxPriority : ℕ)
  | xDelayedTaskList1
  | xDelayedTaskList2
  | xPendingReadyList
  | xTasksWaitingTermination
  | xSuspendedTaskList
  | event (e : Event)   -- the list of the tasks that wait for an event, part of a queue or the like
  deriving DecidableEq

variable {Task Event : Type} [DecidableEq Task] [DecidableEq Event]

abbrev AllLists (Task Event : Type) := Lists (ListItem Task) (ListName Event) TickType
abbrev ListCall (Task Event : Type) := Call (ListItem Task) (ListName Event) TickType
abbrev ListMemory (Task Event : Type) := Memory (ListItem Task) (ListName Event) TickType

/-- One of the lists that a task waits in for its time. -/
def Delay (l : ListName Event) : Prop := l = .xDelayedTaskList1 ∨ l = .xDelayedTaskList2

instance (l : ListName Event) : Decidable (Delay l) := inferInstanceAs (Decidable (_ ∨ _))

/-- The items of a list, none before it is initialised. -/
def items (a : AllLists Task Event) (l : ListName Event) : List (ListItem Task) := (a.list l).elim [] Cursor.items

/-- `listLIST_ITEM_CONTAINER` -/
def container (a : AllLists Task Event) (i : ListItem Task) : Option (ListName Event) := (a.place i).join

/-- The task that had its turn in a ready list, with the priority of the list. -/
def readyTurn : Result (ListItem Task) (ListName Event) → Option (ℕ × Task)
  | .owner (.pxReadyTasksLists uxPriority) (.xStateListItem pxTCB) => some (uxPriority, pxTCB)
  | _ => none

/-- The turns in the ready lists during the calls. -/
def readyTurns (m : ListMemory Task Event) (calls : List (ListCall Task Event)) : List (ℕ × Task) :=
  (trace Lists.step Lists.returned (Lists.start m) calls).filterMap readyTurn

/-- The memory shows the lists after the calls, and the delay lists are in order. -/
structure Shown (m : ListMemory Task Event) (a : AllLists Task Event) (calls : List (ListCall Task Event)) : Prop where
  run : exec Lists.step (Lists.start m) calls = some a
  ordered : ∀ l, Delay l → InOrder a l

section
variable {m : ListMemory Task Event} {a b : AllLists Task Event} {calls : List (ListCall Task Event)}
  {l : ListName Event} {i : ListItem Task}

theorem Shown.represents (shown : Shown m a calls) : ∃ m', Represents m' a := by
  obtain ⟨m', -, shows, -⟩ := exec_simulates step_represents (start_represents m) shown.run
  exact ⟨m', shows⟩

/-- The items of a list are those that are placed in it. -/
theorem Shown.mem_items (shown : Shown m a calls) : i ∈ items a l ↔ a.place i = some (some l) := by
  obtain ⟨m', shows⟩ := shown.represents
  cases found : a.list l with
  | some c =>
    rw [items, found]
    exact shows.inside l c found i
  | none =>
    rw [items, found]
    refine iff_of_false (List.not_mem_nil) ?_
    intro placed
    obtain ⟨c, there⟩ := shows.home i l placed
    rw [found] at there
    cases there

theorem container_eq_some : container a i = some l ↔ a.place i = some (some l) := by
  rw [container, Option.join_eq_some_iff]

theorem Shown.listed (shown : Shown m a calls) (placed : a.place i = some (some l)) : a.list l ≠ none := by
  obtain ⟨m', shows⟩ := shown.represents
  obtain ⟨c, found⟩ := shows.home i l placed
  rw [found]
  exact Option.some_ne_none c

/-- The head of a delay list has the least value. -/
theorem Shown.head_le (shown : Shown m a calls) (delay : Delay l) {rest : List (ListItem Task)}
    (head : items a l = i :: rest) {j : ListItem Task} (placed : a.place j = some (some l)) : a.value i ≤ a.value j := by
  have inside := shown.mem_items.mpr placed
  rw [head] at inside
  rcases List.mem_cons.mp inside with rfl | inside
  · exact le_rfl
  · cases found : a.list l with
    | none => simp [items, found] at head
    | some c =>
      have sorted := (shown.ordered l delay).sorted c found
      rw [items, found] at head
      rw [show c.items = i :: rest from head] at sorted
      rcases (List.pairwise_cons.mp sorted).1 j inside with less | same
      · exact less.le
      · exact same.1.le

/-- One more call. -/
theorem Shown.step (shown : Shown m a calls) {c : ListCall Task Event} (ordered : ∀ l, Delay l → Ordered l a c)
    (taken : a.step c = some b) : Shown m b (calls ++ [c]) := by
  refine ⟨exec_append_iff.mpr ⟨a, shown.run, exec_cons_iff.mpr ⟨b, taken, rfl⟩⟩, ?_⟩
  intro l delay
  exact inOrder_kept l a c b (shown.ordered l delay) (ordered l delay) taken

/-- Only one kind of call returns an item. -/
theorem returned_owner {c : ListCall Task Event} {j : ListItem Task} (inside : .owner l j ∈ a.returned c) :
    c = .getOwnerOfNextEntry l := by
  cases taken : a.call c with
  | none => simp [Lists.returned, taken] at inside
  | some result =>
    have returned : a.returned c = result.2 := by simp [Lists.returned, taken]
    rw [returned] at inside
    cases c with
    | getOwnerOfNextEntry l' =>
      obtain ⟨found, -, rfl⟩ := Option.map_eq_some_iff.mp taken
      simp only [List.mem_singleton, Result.owner.injEq] at inside
      rw [inside.1]
    | uxListRemove i =>
      simp only [Lists.call] at taken
      split at taken
      case h_1 =>
        obtain ⟨c, -, rfl⟩ := Option.map_eq_some_iff.mp taken
        simp at inside
      case h_2 => cases taken
    | setListItemValue i v =>
      cases taken
      cases inside
    | vListInitialise | vListInitialiseItem | vListInsertEnd | vListInsert =>
      simp only [Lists.call] at taken
      split at taken
      case h_1 =>
        cases taken
        cases inside
      case h_2 => cases taken

theorem Shown.readyTurns_append (shown : Shown m a calls) (c : ListCall Task Event) :
    readyTurns m (calls ++ [c]) = readyTurns m calls ++ (a.returned c).filterMap readyTurn := by
  have last : trace Lists.step Lists.returned a [c] = a.returned c := by
    cases taken : a.step c with
    | none => simp [trace, taken]
    | some b => simp [trace, taken]
  rw [readyTurns, trace_append shown.run, List.filterMap_append, last, readyTurns]

/-- Only one kind of call gives a turn. -/
theorem Shown.readyTurns_quiet (shown : Shown m a calls) {c : ListCall Task Event}
    (quiet : ∀ l, c ≠ .getOwnerOfNextEntry l) : readyTurns m (calls ++ [c]) = readyTurns m calls := by
  rw [shown.readyTurns_append, List.append_right_eq_self, List.filterMap_eq_nil_iff]
  intro r inside
  cases r with
  | left n => rfl
  | owner l j => exact absurd (returned_owner inside) (quiet l)

/-- The items of a list are different ones. -/
theorem Shown.items_nodup (shown : Shown m a calls) : (items a l).Nodup := by
  obtain ⟨m', shows⟩ := shown.represents
  cases found : a.list l with
  | none =>
    rw [items, found]
    exact .nil
  | some c =>
    rw [items, found]
    exact (shows.holds l c found).nodup

/-- A list is one shorter when one of its items is not placed in it any more. -/
theorem Shown.length_items {calls' : List (ListCall Task Event)} (before : Shown m a calls) (after : Shown m b calls')
    (inside : a.place i = some (some l))
    (left : ∀ j, b.place j = some (some l) ↔ j ≠ i ∧ a.place j = some (some l)) :
    (items a l).length = (items b l).length + 1 := by
  have gone : i ∉ items b l := by
    rw [after.mem_items, left]
    exact fun both => both.1 rfl
  have perm : (items a l).Perm (i :: items b l) := by
    rw [List.perm_ext_iff_of_nodup before.items_nodup (List.nodup_cons.mpr ⟨gone, after.items_nodup⟩)]
    intro j
    rw [List.mem_cons, before.mem_items, after.mem_items, left]
    by_cases same : j = i
    · subst same
      simp [inside]
    · simp [same]
  rw [perm.length_eq, List.length_cons]

theorem shown_remove (shown : Shown m a calls) (placed : a.place i = some (some l)) :
    ∃ b, a.step (.uxListRemove i) = some b ∧ Shown m b (calls ++ [.uxListRemove i]) ∧
      b.place = update a.place i (some none) ∧ b.value = a.value ∧ ∀ l, b.list l = none ↔ a.list l = none := by
  obtain ⟨m', shows⟩ := shown.represents
  obtain ⟨c, found⟩ := shows.home i l placed
  have taken : a.step (.uxListRemove i) = some { a with
      list := update a.list l (some (c.remove i)), place := update a.place i (some none), calls := a.calls + 1 } := by
    simp [Lists.step, Lists.call, placed, found]
  refine ⟨_, taken, shown.step (fun _ _ => trivial) taken, rfl, rfl, ?_⟩
  intro l'
  by_cases same : l' = l
  · subst same
    simp [found]
  · simp [same]

theorem put_list_none (i : ListItem Task) {c c' : Cursor (ListItem Task)} (found : a.list l = some c) (l' : ListName Event) :
    (a.put l i c').list l' = none ↔ a.list l' = none := by
  by_cases same : l' = l
  · subst same
    simp [Lists.put, found]
  · simp [Lists.put, same]

theorem shown_insertEnd (shown : Shown m a calls) (listed : a.list l ≠ none) (free : a.place i = some none)
    (other : ¬ Delay l) :
    ∃ b, a.step (.vListInsertEnd l i) = some b ∧ Shown m b (calls ++ [.vListInsertEnd l i]) ∧
      b.place = update a.place i (some (some l)) ∧ b.value = a.value ∧ ∀ l, b.list l = none ↔ a.list l = none := by
  obtain ⟨c, found⟩ := Option.ne_none_iff_exists'.mp listed
  have taken : a.step (.vListInsertEnd l i) =
      some { a.put l i (c.insertBefore i) with calls := a.calls + 1 } := by
    simp only [Lists.step, Lists.call, free, found, Option.map_some]
  have ordered : ∀ l', Delay l' → Ordered l' a (.vListInsertEnd l i) := by
    rintro l' delay rfl
    exact other delay
  exact ⟨_, taken, shown.step ordered taken, rfl, rfl, put_list_none i found⟩

theorem shown_insert (shown : Shown m a calls) (listed : a.list l ≠ none) (free : a.place i = some none) :
    ∃ b, a.step (.vListInsert l i) = some b ∧ Shown m b (calls ++ [.vListInsert l i]) ∧
      b.place = update a.place i (some (some l)) ∧ b.value = a.value ∧ ∀ l, b.list l = none ↔ a.list l = none := by
  obtain ⟨c, found⟩ := Option.ne_none_iff_exists'.mp listed
  have taken : a.step (.vListInsert l i) =
      some { a.put l i (c.insertOrdered (fun i j => a.value i < a.value j) i) with calls := a.calls + 1 } := by
    simp only [Lists.step, Lists.call, free, found, Option.map_some]
  exact ⟨_, taken, shown.step (fun _ _ => trivial) taken, rfl, rfl, put_list_none i found⟩

theorem shown_setValue (shown : Shown m a calls) (v : TickType) (free : ∀ l, Delay l → a.place i ≠ some (some l)) :
    ∃ b, a.step (.setListItemValue i v) = some b ∧ Shown m b (calls ++ [.setListItemValue i v]) ∧
      b.place = a.place ∧ b.value = update a.value i v ∧ ∀ l, b.list l = none ↔ a.list l = none := by
  have taken : a.step (.setListItemValue i v) = some { a with value := update a.value i v, calls := a.calls + 1 } := rfl
  exact ⟨_, taken, shown.step free taken, rfl, rfl, fun _ => .rfl⟩

theorem shown_initialise (shown : Shown m a calls) (new : a.list l = none) :
    ∃ b, a.step (.vListInitialise l) = some b ∧ Shown m b (calls ++ [.vListInitialise l]) ∧
      b.place = a.place ∧ b.value = a.value ∧ ∀ l', b.list l' = none ↔ a.list l' = none ∧ l' ≠ l := by
  have taken : a.step (.vListInitialise l) =
      some { a with list := update a.list l (some .empty), calls := a.calls + 1 } := by
    simp [Lists.step, Lists.call, new]
  refine ⟨_, taken, shown.step (fun _ _ => trivial) taken, rfl, rfl, ?_⟩
  intro l'
  by_cases same : l' = l
  · simp [same]
  · simp [same]

theorem shown_initialiseItem (shown : Shown m a calls) (new : a.place i = none) :
    ∃ b, a.step (.vListInitialiseItem i) = some b ∧ Shown m b (calls ++ [.vListInitialiseItem i]) ∧
      b.place = update a.place i (some none) ∧ b.value = a.value ∧ ∀ l, b.list l = none ↔ a.list l = none := by
  have taken : a.step (.vListInitialiseItem i) =
      some { a with place := update a.place i (some none), calls := a.calls + 1 } := by
    simp [Lists.step, Lists.call, new]
  exact ⟨_, taken, shown.step (fun _ _ => trivial) taken, rfl, rfl, fun _ => .rfl⟩

/-- One of the items of a list has its turn. -/
theorem shown_next (shown : Shown m a calls) (placed : a.place i = some (some l)) :
    ∃ j c b, (a.list l).bind Cursor.advance = some (j, c) ∧ a.place j = some (some l) ∧
      a.step (.getOwnerOfNextEntry l) = some b ∧ a.returned (.getOwnerOfNextEntry l) = [.owner l j] ∧
      Shown m b (calls ++ [.getOwnerOfNextEntry l]) ∧
      b.place = a.place ∧ b.value = a.value ∧ ∀ l, b.list l = none ↔ a.list l = none := by
  obtain ⟨c, found⟩ := Option.ne_none_iff_exists'.mp (shown.listed placed)
  have inside := shown.mem_items.mpr placed
  rw [items, found] at inside
  obtain ⟨j, c', moved⟩ := Cursor.advance_isSome (List.ne_nil_of_mem inside)
  obtain ⟨rest, turns, -⟩ := Cursor.advance_turns moved
  have turn : j ∈ items a l := by
    rw [items, found]
    refine Cursor.mem_turns.mp ?_
    rw [turns]
    exact .head _
  have asked : (a.list l).bind Cursor.advance = some (j, c') := by rw [found, Option.bind_some, moved]
  have taken : a.step (.getOwnerOfNextEntry l) =
      some { a with list := update a.list l (some c'), calls := a.calls + 1 } := by
    simp only [Lists.step, Lists.call, asked, Option.map_some]
  refine ⟨j, c', _, asked, shown.mem_items.mp turn, taken, ?_, shown.step (fun _ _ => trivial) taken, rfl, rfl, ?_⟩
  · simp only [Lists.returned, Lists.call, asked, Option.map_some, Option.getD_some]
  · intro l'
    by_cases same : l' = l
    · subst same
      simp [found]
    · simp [same]

end

end OsyProg.TaskLists
