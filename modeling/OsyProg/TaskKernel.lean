import OsyProg.TaskLists

/-!
The scheduler of the kernel, `tasks.c`, with the tick handler and the yield of the Posix port.
A step is a critical section of a call that the running task makes, or an interrupt: the
tick, or an event given from an interrupt handler. So a call that suspends the scheduler, as
`vTaskDelay` does, is several steps, and interrupts come between them; what it does while the
scheduler is suspended is one of these steps. A function has no result where the code would use a list or an item as it must not be used, take the head of
an empty list, or look for a ready task below the lowest priority.
-/
namespace OsyProg.TaskKernel
open OsyProg.Cursors OsyProg.KernelLists OsyProg.ListCalls OsyProg.TaskLists Function

variable {Task Event : Type} [DecidableEq Task] [DecidableEq Event]

/-- A task that time has woken: the tick for which it asked and the tick that woke it. -/
structure Wake (Task : Type) where
  pxTCB : Task
  due : ℕ
  now : ℕ

/-- The variables of `tasks.c`, the priorities of the tasks, and what is only recorded: the
    calls of the functions of `list.c`, the ticks that came and those that were counted, when
    each delayed task is due, which tasks time has woken, which were switched in from which
    priority, and that the running task is about to yield to one that it has created. -/
structure Kernel (Task Event : Type) where
  lists : AllLists Task Event
  uxPriority : Task → ℕ
  uxBasePriority : Task → ℕ
  pxCurrentTCB : Task
  pxDelayedTaskList : ListName Event
  pxOverflowDelayedTaskList : ListName Event
  uxDeletedTasksWaitingCleanUp : ℕ
  uxCurrentNumberOfTasks : ℕ
  xTickCount : TickType
  uxTopReadyPriority : ℕ
  xSchedulerRunning : Bool
  xPendedTicks : TickType
  xYieldPending : Bool
  xNumOfOverflows : ℕ
  xNextTaskUnblockTime : TickType
  xIdleTaskHandle : Option Task
  uxSchedulerSuspended : ℕ
  calls : List (ListCall Task Event)
  ticks : ℕ
  now : ℕ
  due : Task → Option ℕ
  wakes : List (Wake Task)
  switchedIn : List (ℕ × Task)
  yieldFollows : Bool

namespace Kernel

/-- A call of a function of `list.c`. -/
def listCall (s : Kernel Task Event) (c : ListCall Task Event) : Option (Kernel Task Event) :=
  (s.lists.step c).map fun lists => { s with lists, calls := s.calls ++ [c] }

def listCalls (s : Kernel Task Event) (cs : List (ListCall Task Event)) : Option (Kernel Task Event) :=
  cs.foldlM listCall s

/-- The state of a task that its list says: `listIS_CONTAINED_WITHIN` for its state item. -/
def stateList (s : Kernel Task Event) (pxTCB : Task) : Option (ListName Event) := container s.lists (.xStateListItem pxTCB)

def eventList (s : Kernel Task Event) (pxTCB : Task) : Option (ListName Event) := container s.lists (.xEventListItem pxTCB)

def taskRECORD_READY_PRIORITY (s : Kernel Task Event) (uxPriority : ℕ) : Kernel Task Event :=
  if uxPriority > s.uxTopReadyPriority then { s with uxTopReadyPriority := uxPriority } else s

def prvAddTaskToReadyList (s : Kernel Task Event) (pxTCB : Task) : Option (Kernel Task Event) :=
  (s.taskRECORD_READY_PRIORITY (s.uxPriority pxTCB)).listCall
    (.vListInsertEnd (.pxReadyTasksLists (s.uxPriority pxTCB)) (.xStateListItem pxTCB))

/-- The event item of a task is in no list afterwards. -/
def leaveEventList (s : Kernel Task Event) (pxTCB : Task) : Option (Kernel Task Event) :=
  if s.eventList pxTCB ≠ none then s.listCall (.uxListRemove (.xEventListItem pxTCB)) else some s

/-- Time does not wake the task any more. -/
def notDue (s : Kernel Task Event) (pxTCB : Task) : Kernel Task Event := { s with due := update s.due pxTCB none }

def prvResetNextTaskUnblockTime (s : Kernel Task Event) : Kernel Task Event :=
  match items s.lists s.pxDelayedTaskList with
  | [] => { s with xNextTaskUnblockTime := portMAX_DELAY }
  | head :: _ => { s with xNextTaskUnblockTime := s.lists.value head }

def taskSWITCH_DELAYED_LISTS (s : Kernel Task Event) : Kernel Task Event :=
  prvResetNextTaskUnblockTime { s with
    pxDelayedTaskList := s.pxOverflowDelayedTaskList
    pxOverflowDelayedTaskList := s.pxDelayedTaskList
    xNumOfOverflows := s.xNumOfOverflows + 1 }

/-! ### Tasks are created -/

def eventValue (uxPriority : ℕ) : TickType := Fin.ofNat (2 ^ 64) configMAX_PRIORITIES - Fin.ofNat (2 ^ 64) uxPriority

def prvInitialiseNewTask (s : Kernel Task Event) (pxNewTCB : Task) (uxPriority : ℕ) : Option (Kernel Task Event) :=
  let uxPriority := if uxPriority ≥ configMAX_PRIORITIES then configMAX_PRIORITIES - 1 else uxPriority
  let s := { s with
    uxPriority := update s.uxPriority pxNewTCB uxPriority
    uxBasePriority := update s.uxBasePriority pxNewTCB uxPriority }
  s.listCalls [.vListInitialiseItem (.xStateListItem pxNewTCB), .vListInitialiseItem (.xEventListItem pxNewTCB),
    .setListItemValue (.xEventListItem pxNewTCB) (eventValue uxPriority)]

def prvInitialiseTaskLists (s : Kernel Task Event) : Option (Kernel Task Event) :=
  (s.listCalls (((List.range configMAX_PRIORITIES).map fun uxPriority => .vListInitialise (.pxReadyTasksLists uxPriority)) ++
    [.vListInitialise .xDelayedTaskList1, .vListInitialise .xDelayedTaskList2, .vListInitialise .xPendingReadyList,
      .vListInitialise .xTasksWaitingTermination, .vListInitialise .xSuspendedTaskList])).map fun s =>
    { s with pxDelayedTaskList := .xDelayedTaskList1, pxOverflowDelayedTaskList := .xDelayedTaskList2 }

/-- The first task is created, in some memory: `pxCurrentTCB` is `NULL` before, and the lists are initialised. -/
def firstTask (m : ListMemory Task Event) (pxNewTCB : Task) (uxPriority : ℕ) : Option (Kernel Task Event) :=
  let s : Kernel Task Event := {
    lists := Lists.start m
    uxPriority := fun _ => 0
    uxBasePriority := fun _ => 0
    pxCurrentTCB := pxNewTCB
    pxDelayedTaskList := .xDelayedTaskList1
    pxOverflowDelayedTaskList := .xDelayedTaskList2
    uxDeletedTasksWaitingCleanUp := 0
    uxCurrentNumberOfTasks := 1
    xTickCount := 0
    uxTopReadyPriority := 0
    xSchedulerRunning := false
    xPendedTicks := 0
    xYieldPending := false
    xNumOfOverflows := 0
    xNextTaskUnblockTime := 0
    xIdleTaskHandle := none
    uxSchedulerSuspended := 0
    calls := []
    ticks := 0
    now := 0
    due := fun _ => none
    wakes := []
    switchedIn := []
    yieldFollows := false }
  (s.prvInitialiseNewTask pxNewTCB uxPriority).bind fun s =>
    s.prvInitialiseTaskLists.bind fun s => s.prvAddTaskToReadyList pxNewTCB

/-! ### The running task is switched -/

/-- The loop of `taskSELECT_HIGHEST_PRIORITY_TASK`: the highest priority from this one on down with a ready task. -/
def topPriority (s : Kernel Task Event) : ℕ → Option ℕ
  | 0 => if items s.lists (.pxReadyTasksLists 0) = [] then none else some 0
  | uxTopPriority + 1 =>
    if items s.lists (.pxReadyTasksLists (uxTopPriority + 1)) = [] then topPriority s uxTopPriority
    else some (uxTopPriority + 1)

def taskSELECT_HIGHEST_PRIORITY_TASK (s : Kernel Task Event) : Option (Kernel Task Event) :=
  (s.topPriority s.uxTopReadyPriority).bind fun uxTopPriority =>
    ((s.lists.list (.pxReadyTasksLists uxTopPriority)).bind Cursor.advance).bind fun (next, _) =>
      (s.listCall (.getOwnerOfNextEntry (.pxReadyTasksLists uxTopPriority))).map fun s =>
        { s with
          pxCurrentTCB := next.pvOwner
          uxTopReadyPriority := uxTopPriority
          switchedIn := s.switchedIn ++ [(uxTopPriority, next.pvOwner)] }

def vTaskSwitchContext (s : Kernel Task Event) : Option (Kernel Task Event) :=
  if s.uxSchedulerSuspended ≠ 0 then some { s with xYieldPending := true, yieldFollows := false }
  else taskSELECT_HIGHEST_PRIORITY_TASK { s with xYieldPending := false, yieldFollows := false }

/-! ### Ticks -/

/-- The loop of `xTaskIncrementTick` over the delayed tasks, at most so many rounds, with `xSwitchRequired`. -/
def wakeLoop : ℕ → Kernel Task Event → Bool → Option (Kernel Task Event × Bool)
  | 0, _, _ => none
  | rounds + 1, s, xSwitchRequired =>
    match items s.lists s.pxDelayedTaskList with
    | [] => some ({ s with xNextTaskUnblockTime := portMAX_DELAY }, xSwitchRequired)
    | head :: _ =>
      let pxTCB := head.pvOwner
      let xItemValue := s.lists.value (.xStateListItem pxTCB)
      if s.xTickCount < xItemValue then some ({ s with xNextTaskUnblockTime := xItemValue }, xSwitchRequired)
      else
        (s.listCall (.uxListRemove (.xStateListItem pxTCB))).bind fun s =>
          (s.leaveEventList pxTCB).bind fun s =>
            let s := { s with wakes := s.wakes ++ ((s.due pxTCB).map fun due => Wake.mk pxTCB due s.now).toList }
            ((s.notDue pxTCB).prvAddTaskToReadyList pxTCB).bind fun s =>
              wakeLoop rounds s (if s.uxPriority pxTCB ≥ s.uxPriority s.pxCurrentTCB then true else xSwitchRequired)

def xTaskIncrementTick (s : Kernel Task Event) : Option (Kernel Task Event × Bool) :=
  if s.uxSchedulerSuspended = 0 then
    let s := { s with xTickCount := s.xTickCount + 1, now := s.now + 1 }
    let s := if s.xTickCount = 0 then s.taskSWITCH_DELAYED_LISTS else s
    (if s.xTickCount ≥ s.xNextTaskUnblockTime then
        wakeLoop ((items s.lists s.pxDelayedTaskList).length + 1) s false
      else some (s, false)).map fun (s, xSwitchRequired) =>
        let sharing := decide (1 < (items s.lists (.pxReadyTasksLists (s.uxPriority s.pxCurrentTCB))).length)
        (s, xSwitchRequired || sharing || s.xYieldPending)
  else some ({ s with xPendedTicks := s.xPendedTicks + 1 }, false)

/-- The handler of the tick in the Posix port switches whatever `xTaskIncrementTick` returns. -/
def vPortSystemTickHandler (s : Kernel Task Event) : Option (Kernel Task Event) :=
  { s with ticks := s.ticks + 1 }.xTaskIncrementTick.bind fun (s, _) => s.vTaskSwitchContext

/-! ### The scheduler is suspended and resumed -/

def vTaskSuspendAll (s : Kernel Task Event) : Kernel Task Event :=
  { s with uxSchedulerSuspended := s.uxSchedulerSuspended + 1 }

/-- The loop of `xTaskResumeAll` over the pending tasks, at most so many rounds. -/
def pendingLoop : ℕ → Kernel Task Event → Option (Kernel Task Event)
  | 0, s => if items s.lists .xPendingReadyList = [] then some s else none
  | rounds + 1, s =>
    match items s.lists .xPendingReadyList with
    | [] => some s
    | head :: _ =>
      let pxTCB := head.pvOwner
      (s.listCall (.uxListRemove (.xEventListItem pxTCB))).bind fun s =>
        (s.listCall (.uxListRemove (.xStateListItem pxTCB))).bind fun s =>
          ((s.notDue pxTCB).prvAddTaskToReadyList pxTCB).bind fun s =>
            pendingLoop rounds
              (if s.uxPriority pxTCB ≥ s.uxPriority s.pxCurrentTCB then { s with xYieldPending := true } else s)

/-- The loop of `xTaskResumeAll` over the pended ticks. -/
def pendedTicks : ℕ → Kernel Task Event → Option (Kernel Task Event)
  | 0, s => some s
  | xPendedCounts + 1, s =>
    s.xTaskIncrementTick.bind fun (s, xSwitchRequired) =>
      pendedTicks xPendedCounts (if xSwitchRequired then { s with xYieldPending := true } else s)

/-- With `xAlreadyYielded`. -/
def xTaskResumeAll (s : Kernel Task Event) : Option (Kernel Task Event × Bool) :=
  let s := { s with uxSchedulerSuspended := s.uxSchedulerSuspended - 1 }
  if s.uxSchedulerSuspended = 0 ∧ s.uxCurrentNumberOfTasks > 0 then
    let pending := items s.lists .xPendingReadyList
    (pendingLoop pending.length s).bind fun s =>
      let s := if pending ≠ [] then s.prvResetNextTaskUnblockTime else s
      (pendedTicks s.xPendedTicks.val s).bind fun s =>
        let s := { s with xPendedTicks := 0 }
        if s.xYieldPending then s.vTaskSwitchContext.map fun s => (s, true) else some (s, false)
  else some (s, false)

/-! ### Tasks wait and are woken -/

def prvAddCurrentTaskToDelayedList (s : Kernel Task Event) (xTicksToWait : TickType) (xCanBlockIndefinitely : Bool) :
    Option (Kernel Task Event) :=
  let pxTCB := s.pxCurrentTCB
  (s.listCall (.uxListRemove (.xStateListItem pxTCB))).bind fun s =>
    if xTicksToWait = portMAX_DELAY ∧ xCanBlockIndefinitely then
      s.listCall (.vListInsertEnd .xSuspendedTaskList (.xStateListItem pxTCB))
    else
      let xTimeToWake := s.xTickCount + xTicksToWait
      (s.listCall (.setListItemValue (.xStateListItem pxTCB) xTimeToWake)).bind fun s =>
        let s := { s with due := update s.due pxTCB (some (s.now + xTicksToWait.val)) }
        if xTimeToWake < s.xTickCount then s.listCall (.vListInsert s.pxOverflowDelayedTaskList (.xStateListItem pxTCB))
        else
          (s.listCall (.vListInsert s.pxDelayedTaskList (.xStateListItem pxTCB))).map fun s =>
            if xTimeToWake < s.xNextTaskUnblockTime then { s with xNextTaskUnblockTime := xTimeToWake } else s

def vTaskPlaceOnEventList (s : Kernel Task Event) (e : Event) (xTicksToWait : TickType) : Option (Kernel Task Event) :=
  (s.listCall (.vListInsert (.event e) (.xEventListItem s.pxCurrentTCB))).bind fun s =>
    s.prvAddCurrentTaskToDelayedList xTicksToWait true

/-- What it returns is that the yield is pending afterwards. -/
def xTaskRemoveFromEventList (s : Kernel Task Event) (e : Event) : Option (Kernel Task Event) :=
  match items s.lists (.event e) with
  | [] => none
  | head :: _ =>
    let pxUnblockedTCB := head.pvOwner
    (s.listCall (.uxListRemove (.xEventListItem pxUnblockedTCB))).bind fun s =>
      (if s.uxSchedulerSuspended = 0 then
          (s.listCall (.uxListRemove (.xStateListItem pxUnblockedTCB))).bind fun s =>
            (s.notDue pxUnblockedTCB).prvAddTaskToReadyList pxUnblockedTCB
        else s.listCall (.vListInsertEnd .xPendingReadyList (.xEventListItem pxUnblockedTCB))).map fun s =>
          if s.uxPriority pxUnblockedTCB > s.uxPriority s.pxCurrentTCB then { s with xYieldPending := true } else s

/-- The first critical section; `prvResetNextTaskUnblockTime` and, in its own task, a yield are to follow. -/
def vTaskSuspend (s : Kernel Task Event) (pxTCB : Task) : Option (Kernel Task Event) :=
  (s.listCall (.uxListRemove (.xStateListItem pxTCB))).bind fun s =>
    (s.leaveEventList pxTCB).bind fun s =>
      (s.notDue pxTCB).listCall (.vListInsertEnd .xSuspendedTaskList (.xStateListItem pxTCB))

def prvTaskIsTaskSuspended (s : Kernel Task Event) (pxTCB : Task) : Bool :=
  s.stateList pxTCB = some .xSuspendedTaskList ∧ s.eventList pxTCB ≠ some .xPendingReadyList ∧ s.eventList pxTCB = none

def vTaskResume (s : Kernel Task Event) (pxTCB : Task) : Option (Kernel Task Event) :=
  if pxTCB ≠ s.pxCurrentTCB ∧ s.prvTaskIsTaskSuspended pxTCB then
    (s.listCall (.uxListRemove (.xStateListItem pxTCB))).bind fun s =>
      (s.prvAddTaskToReadyList pxTCB).bind fun s =>
        if s.uxPriority pxTCB ≥ s.uxPriority s.pxCurrentTCB then s.vTaskSwitchContext else some s
  else some s

/-- What it returns is that the yield is pending afterwards. -/
def xTaskResumeFromISR (s : Kernel Task Event) (pxTCB : Task) : Option (Kernel Task Event) :=
  if s.prvTaskIsTaskSuspended pxTCB then
    if s.uxSchedulerSuspended = 0 then
      let s := if s.uxPriority pxTCB ≥ s.uxPriority s.pxCurrentTCB then { s with xYieldPending := true } else s
      (s.listCall (.uxListRemove (.xStateListItem pxTCB))).bind fun s => s.prvAddTaskToReadyList pxTCB
    else s.listCall (.vListInsertEnd .xPendingReadyList (.xEventListItem pxTCB))
  else some s

/-! ### Priorities -/

/-- `taskEVENT_LIST_ITEM_VALUE_IN_USE` -/
def inUse (xItemValue : TickType) : Bool := xItemValue.val.testBit 31

/-- The event item is given the value of a priority, unless its value is used for something else. -/
def setEventValue (s : Kernel Task Event) (pxTCB : Task) (uxPriority : ℕ) : Option (Kernel Task Event) :=
  if inUse (s.lists.value (.xEventListItem pxTCB)) then some s
  else s.listCall (.setListItemValue (.xEventListItem pxTCB) (eventValue uxPriority))

def vTaskPrioritySet (s : Kernel Task Event) (pxTCB : Task) (uxNewPriority : ℕ) : Option (Kernel Task Event) :=
  let uxNewPriority := if uxNewPriority ≥ configMAX_PRIORITIES then configMAX_PRIORITIES - 1 else uxNewPriority
  let uxCurrentBasePriority := s.uxBasePriority pxTCB
  if uxCurrentBasePriority ≠ uxNewPriority then
    let xYieldRequired : Bool :=
      if uxNewPriority > uxCurrentBasePriority then
        pxTCB ≠ s.pxCurrentTCB ∧ uxNewPriority ≥ s.uxPriority s.pxCurrentTCB
      else pxTCB = s.pxCurrentTCB
    let uxPriorityUsedOnEntry := s.uxPriority pxTCB
    let s := { s with
      uxPriority :=
        if s.uxBasePriority pxTCB = s.uxPriority pxTCB then update s.uxPriority pxTCB uxNewPriority else s.uxPriority
      uxBasePriority := update s.uxBasePriority pxTCB uxNewPriority }
    (s.setEventValue pxTCB uxNewPriority).bind fun s =>
      (if s.stateList pxTCB = some (.pxReadyTasksLists uxPriorityUsedOnEntry) then
          (s.listCall (.uxListRemove (.xStateListItem pxTCB))).bind fun s => s.prvAddTaskToReadyList pxTCB
        else some s).bind fun s =>
          if xYieldRequired then s.vTaskSwitchContext else some s
  else some s

/-! ### Tasks are deleted -/

/-- The critical section of `vTaskDelete`; in its own task a yield is to follow. -/
def vTaskDelete (s : Kernel Task Event) (pxTCB : Task) : Option (Kernel Task Event) :=
  (s.listCall (.uxListRemove (.xStateListItem pxTCB))).bind fun s =>
    (s.leaveEventList pxTCB).bind fun s =>
      let s := s.notDue pxTCB
      if pxTCB = s.pxCurrentTCB then
        (s.listCall (.vListInsertEnd .xTasksWaitingTermination (.xStateListItem pxTCB))).map fun s =>
          { s with uxDeletedTasksWaitingCleanUp := s.uxDeletedTasksWaitingCleanUp + 1 }
      else some (prvResetNextTaskUnblockTime { s with uxCurrentNumberOfTasks := s.uxCurrentNumberOfTasks - 1 })

/-- A round of the loop of `prvCheckTasksWaitingTermination`. -/
def prvCheckTasksWaitingTermination (s : Kernel Task Event) : Option (Kernel Task Event) :=
  if s.uxDeletedTasksWaitingCleanUp > 0 then
    match items s.lists .xTasksWaitingTermination with
    | [] => none
    | head :: _ =>
      (s.listCall (.uxListRemove (.xStateListItem head.pvOwner))).map fun s =>
        { s with
          uxCurrentNumberOfTasks := s.uxCurrentNumberOfTasks - 1
          uxDeletedTasksWaitingCleanUp := s.uxDeletedTasksWaitingCleanUp - 1 }
  else some s

/-! ### The other tasks are created and the scheduler is started -/

/-- The critical section; a yield to a task of a higher priority is to follow. -/
def prvAddNewTaskToReadyList (s : Kernel Task Event) (pxNewTCB : Task) : Option (Kernel Task Event) :=
  let s := { s with
    uxCurrentNumberOfTasks := s.uxCurrentNumberOfTasks + 1
    pxCurrentTCB :=
      if s.xSchedulerRunning = false ∧ s.uxPriority s.pxCurrentTCB ≤ s.uxPriority pxNewTCB then pxNewTCB
      else s.pxCurrentTCB }
  (s.prvAddTaskToReadyList pxNewTCB).map fun s =>
    { s with yieldFollows := s.xSchedulerRunning ∧ s.uxPriority s.pxCurrentTCB < s.uxPriority pxNewTCB }

def xTaskCreate (s : Kernel Task Event) (pxNewTCB : Task) (uxPriority : ℕ) : Option (Kernel Task Event) :=
  (s.prvInitialiseNewTask pxNewTCB uxPriority).bind fun s => s.prvAddNewTaskToReadyList pxNewTCB

/-- With the idle task and the task of the timers. -/
def vTaskStartScheduler (s : Kernel Task Event) (idle timer : Task) : Option (Kernel Task Event) :=
  (s.xTaskCreate idle 0).bind fun s =>
    (s.xTaskCreate timer (configMAX_PRIORITIES - 1)).map fun s =>
      { s with
        xIdleTaskHandle := some idle
        xNextTaskUnblockTime := portMAX_DELAY
        xSchedulerRunning := true
        xTickCount := 0 }

end Kernel

/-! ### Steps -/

inductive KernelAction (Task Event : Type)
  | xTaskCreate (pxNewTCB : Task) (uxPriority : ℕ)
  | vTaskStartScheduler (idle timer : Task)
  | vListInitialise (e : Event)                        -- a queue or the like is created
  | vPortSystemTickHandler
  | vPortYield
  | vTaskSuspendAll
  | xTaskResumeAll
  | vTaskDelay (xTicksToDelay : TickType)               -- its part between vTaskSuspendAll and xTaskResumeAll
  | vTaskPlaceOnEventList (e : Event) (xTicksToWait : TickType)
  | xTaskRemoveFromEventList (e : Event)
  | vTaskSuspend (xTaskToSuspend : Task)
  | prvResetNextTaskUnblockTime
  | vTaskResume (xTaskToResume : Task)
  | xTaskResumeFromISR (xTaskToResume : Task)
  | vTaskPrioritySet (xTask : Task) (uxNewPriority : ℕ)
  | vTaskDelete (xTaskToDelete : Task)
  | prvCheckTasksWaitingTermination

namespace KernelAction

/-- It may come from an interrupt. -/
def interrupts : KernelAction Task Event → Bool
  | .vPortSystemTickHandler | .xTaskRemoveFromEventList _ | .xTaskResumeFromISR _ => true
  | _ => false

def yields : KernelAction Task Event → Bool
  | .vPortYield => true
  | _ => false

end KernelAction

namespace Kernel

def act (s : Kernel Task Event) : KernelAction Task Event → Option (Kernel Task Event)
  | .xTaskCreate t p => s.xTaskCreate t p
  | .vTaskStartScheduler idle timer => s.vTaskStartScheduler idle timer
  | .vListInitialise e => s.listCall (.vListInitialise (.event e))
  | .vPortSystemTickHandler => s.vPortSystemTickHandler
  | .vPortYield => s.vTaskSwitchContext
  | .vTaskSuspendAll => some s.vTaskSuspendAll
  | .xTaskResumeAll => s.xTaskResumeAll.map Prod.fst
  | .vTaskDelay n => s.prvAddCurrentTaskToDelayedList n false
  | .vTaskPlaceOnEventList e n => s.vTaskPlaceOnEventList e n
  | .xTaskRemoveFromEventList e => s.xTaskRemoveFromEventList e
  | .vTaskSuspend t => s.vTaskSuspend t
  | .prvResetNextTaskUnblockTime => some s.prvResetNextTaskUnblockTime
  | .vTaskResume t => s.vTaskResume t
  | .xTaskResumeFromISR t => s.xTaskResumeFromISR t
  | .vTaskPrioritySet t p => s.vTaskPrioritySet t p
  | .vTaskDelete t => s.vTaskDelete t
  | .prvCheckTasksWaitingTermination => s.prvCheckTasksWaitingTermination

/-- The running task is in a ready list: it has not just put itself to sleep. -/
def Awake (s : Kernel Task Event) : Prop :=
  s.stateList s.pxCurrentTCB = some (.pxReadyTasksLists (s.uxPriority s.pxCurrentTCB))

/-- A task that was created and not deleted. -/
def Alive (s : Kernel Task Event) (t : Task) : Prop := ∃ l, s.stateList t = some l ∧ l ≠ .xTasksWaitingTermination

/-- What the state of the tasks permits next. Before the scheduler runs, tasks and event lists are created. Then
    interrupts come at any time; the running task makes calls while it is awake, and resumes the
    scheduler and yields also when it has put itself to sleep, which is all that comes then. It
    blocks with the scheduler suspended once, and suspends or deletes itself with the scheduler not
    suspended. The idle task does not block, and is neither suspended nor deleted. -/
def Permits (s : Kernel Task Event) : KernelAction Task Event → Prop
  | .xTaskCreate t _ => s.lists.place (.xStateListItem t) = none ∧ (s.xSchedulerRunning → s.Awake)
  | .vTaskStartScheduler idle timer =>
    s.xSchedulerRunning = false ∧ idle ≠ timer ∧ s.lists.place (.xStateListItem idle) = none ∧
      s.lists.place (.xStateListItem timer) = none
  | .vListInitialise e => s.lists.list (.event e) = none ∧ (s.xSchedulerRunning → s.Awake)
  | .vPortSystemTickHandler => s.xSchedulerRunning
  | .vPortYield => s.xSchedulerRunning
  | .vTaskSuspendAll => s.xSchedulerRunning ∧ s.Awake
  | .xTaskResumeAll => s.xSchedulerRunning ∧ 0 < s.uxSchedulerSuspended
  | .vTaskDelay n =>
    s.xSchedulerRunning ∧ s.Awake ∧ s.uxSchedulerSuspended = 1 ∧ s.xIdleTaskHandle ≠ some s.pxCurrentTCB ∧ 0 < n
  | .vTaskPlaceOnEventList e n =>
    s.xSchedulerRunning ∧ s.Awake ∧ s.uxSchedulerSuspended = 1 ∧ s.xIdleTaskHandle ≠ some s.pxCurrentTCB ∧ 0 < n ∧
      s.lists.list (.event e) ≠ none
  | .xTaskRemoveFromEventList e => s.xSchedulerRunning ∧ items s.lists (.event e) ≠ []
  | .vTaskSuspend t =>
    s.xSchedulerRunning ∧ s.Awake ∧ s.Alive t ∧ s.xIdleTaskHandle ≠ some t ∧
      (t = s.pxCurrentTCB → s.uxSchedulerSuspended = 0)
  | .prvResetNextTaskUnblockTime => s.xSchedulerRunning
  | .vTaskResume t => s.xSchedulerRunning ∧ s.Awake ∧ s.Alive t
  | .xTaskResumeFromISR t => s.xSchedulerRunning ∧ s.Alive t
  | .vTaskPrioritySet t _ => s.xSchedulerRunning ∧ s.Awake ∧ s.Alive t
  | .vTaskDelete t =>
    s.xSchedulerRunning ∧ s.Awake ∧ s.Alive t ∧ s.xIdleTaskHandle ≠ some t ∧
      (t = s.pxCurrentTCB → s.uxSchedulerSuspended = 0)
  | .prvCheckTasksWaitingTermination => s.xSchedulerRunning ∧ s.xIdleTaskHandle = some s.pxCurrentTCB

instance (s : Kernel Task Event) : Decidable s.Awake := inferInstanceAs (Decidable (_ = _))

instance (s : Kernel Task Event) (t : Task) : Decidable (s.Alive t) :=
  match found : s.stateList t with
  | none => isFalse (by simp [Alive, found])
  | some l => decidable_of_iff (l ≠ .xTasksWaitingTermination) (by simp [Alive, found])

instance (s : Kernel Task Event) : (a : KernelAction Task Event) → Decidable (s.Permits a)
  | .xTaskCreate _ _ => instDecidableAnd
  | .vTaskStartScheduler _ _ => instDecidableAnd
  | .vListInitialise _ => instDecidableAnd
  | .vPortSystemTickHandler => instDecidableEqBool _ _
  | .vPortYield => instDecidableEqBool _ _
  | .vTaskSuspendAll => instDecidableAnd
  | .xTaskResumeAll => instDecidableAnd
  | .vTaskDelay _ => instDecidableAnd
  | .vTaskPlaceOnEventList _ _ => instDecidableAnd
  | .xTaskRemoveFromEventList _ => instDecidableAnd
  | .vTaskSuspend _ => instDecidableAnd
  | .prvResetNextTaskUnblockTime => instDecidableEqBool _ _
  | .vTaskResume _ => instDecidableAnd
  | .xTaskResumeFromISR _ => instDecidableAnd
  | .vTaskPrioritySet _ _ => instDecidableAnd
  | .vTaskDelete _ => instDecidableAnd
  | .prvCheckTasksWaitingTermination => instDecidableAnd

/-- What may come next: when the running task is about to yield, that, or an interrupt. -/
def Allowed (s : Kernel Task Event) (a : KernelAction Task Event) : Prop :=
  (s.yieldFollows → a.interrupts ∨ a.yields) ∧ s.Permits a

instance (s : Kernel Task Event) (a : KernelAction Task Event) : Decidable (s.Allowed a) := instDecidableAnd

end Kernel

def step (s : Kernel Task Event) (a : KernelAction Task Event) : Option (Kernel Task Event) :=
  if s.Allowed a then s.act a else none

end OsyProg.TaskKernel
