import Mathlib.Data.Int.Notation
import Mathlib.Data.List.Basic
import Mathlib.Logic.Function.Basic

/-!
The threads under the tasks (`port.c` of the Posix port). Every task has a thread of the host,
and the scheduler lets one of them run: `prvSwitchThread` signals the event of the thread to
resume and then waits for its own. A call of the port is a step up to there; from there on a
step is what a thread does up to the next access to what the threads share, so between the
signal and the wait two threads run at the same time.
-/
namespace OsyProg.PortThreads

/-! ### Threads -/

/-- Who has called `prvSwitchThread`. -/
inductive Caller
  | vPortYield
  | vPortSystemTickHandler

/-- Who has called `prvSuspendSelf`. -/
inductive Back
  | prvWaitForStart
  | prvSwitchThread (uxSavedCriticalNesting : ℤ) (caller : Caller)

/-- How far a thread is; the comment is what it does next. -/
inductive Place (Task : Type)
  | absent
  | code                                                                                 -- of the task
  | resuming (suspend resume : Task) (uxSavedCriticalNesting : ℤ) (caller : Caller)      -- prvResumeThread
  | resumed (suspend : Task) (uxSavedCriticalNesting : ℤ) (caller : Caller)              -- reads xDying
  | waiting (thread : Task) (back : Back)                                                -- event_wait
  | woken (back : Back)                                                                  -- sets uxCriticalNesting
  | leaving (caller : Caller)                                                            -- prvSwitchThread has returned
  | exited

/-- `depth` counts the critical sections that the code of the task is in; the port does not read it. -/
structure Thread (Task : Type) where
  place : Place Task
  blocked : Bool                    -- xAllSignals, in the signal mask of the thread
  event_triggered : Bool
  xDying : Bool
  depth : ℕ

structure State (Task : Type) where
  pxCurrentTCB : Task
  uxCriticalNesting : ℤ
  threads : Task → Thread Task

def Place.live {Task : Type} : Place Task → Bool
  | .absent | .exited => false
  | _ => true

/-- `vTaskSwitchContext` chooses a task that has a thread and does not delete itself. -/
def Thread.ready {Task : Type} (x : Thread Task) : Bool := x.place.live && !x.xDying

section
variable {Task : Type} [DecidableEq Task]

namespace State

def put (s : State Task) (t : Task) (x : Thread Task) : State Task :=
  { s with threads := Function.update s.threads t x }

section
variable {s : State Task} {t : Task} {x : Thread Task}

@[simp] theorem put_threads : (s.put t x).threads = Function.update s.threads t x := rfl
@[simp] theorem put_current : (s.put t x).pxCurrentTCB = s.pxCurrentTCB := rfl
@[simp] theorem put_nesting : (s.put t x).uxCriticalNesting = s.uxCriticalNesting := rfl

end

def vPortEnterCritical (s : State Task) (t : Task) : State Task :=
  let blocked := if s.uxCriticalNesting = 0 then true else (s.threads t).blocked
  { s.put t { s.threads t with blocked } with uxCriticalNesting := s.uxCriticalNesting + 1 }

def vPortExitCritical (s : State Task) (t : Task) : State Task :=
  let uxCriticalNesting := s.uxCriticalNesting - 1
  let blocked := if uxCriticalNesting = 0 then false else (s.threads t).blocked
  { s.put t { s.threads t with blocked } with uxCriticalNesting }

/-- `event_signal`, if the thread is not the one that calls this. -/
def prvResumeThread (s : State Task) (t xThreadId : Task) : State Task :=
  if t ≠ xThreadId then s.put xThreadId { s.threads xThreadId with event_triggered := true } else s

/-- `vTaskSwitchContext` chooses `next`, and `prvSwitchThread` begins. -/
def switch (s : State Task) (t next : Task) (caller : Caller) : State Task :=
  let place :=
    if s.pxCurrentTCB ≠ next then .resuming s.pxCurrentTCB next s.uxCriticalNesting caller else .leaving caller
  { s.put t { s.threads t with place } with pxCurrentTCB := next }

/-- `pthread_create` gives the new thread the signal mask of this one. -/
def pthread_create (s : State Task) (t new : Task) : State Task :=
  s.put new { place := .waiting new .prvWaitForStart, blocked := (s.threads t).blocked, event_triggered := false,
              xDying := false, depth := 0 }

end State

/-! ### Steps -/

inductive Move (Task : Type)
  | vPortEnterCritical
  | vPortExitCritical
  | pxPortInitialiseStack (new : Task)
  | vPortThreadDying                             -- by the task that deletes itself
  | vPortCancelThread (pxTaskToDelete : Task)
  | vPortYield (next : Task)
  | vPortSystemTickHandler (next : Task)
  | onward

/-- A thread that is in the code of its task calls the port, or is interrupted by the tick. -/
def call (s : State Task) (t : Task) : Move Task → Option (State Task)
  | .vPortEnterCritical =>
    let s := s.vPortEnterCritical t
    some (s.put t { s.threads t with depth := (s.threads t).depth + 1 })
  | .vPortExitCritical =>
    if 0 < (s.threads t).depth then
      let s := s.vPortExitCritical t
      some (s.put t { s.threads t with depth := (s.threads t).depth - 1 })
    else none
  | .pxPortInitialiseStack new =>
    match (s.threads new).place with
    | .absent => some (((s.vPortEnterCritical t).pthread_create t new).vPortExitCritical t)
    | _ => none
  | .vPortThreadDying => some (s.put t { s.threads t with xDying := true })
  | .vPortCancelThread pxTaskToDelete =>
    -- `vTaskDelete` and the idle task cancel the threads of other tasks
    match (s.threads pxTaskToDelete).place with
    | .absent => none
    | _ =>
      if pxTaskToDelete = s.pxCurrentTCB then none
      else some (s.put pxTaskToDelete { s.threads pxTaskToDelete with place := .exited })
  | .vPortYield next =>
    if (s.threads next).ready then some ((s.vPortEnterCritical t).switch t next .vPortYield) else none
  | .vPortSystemTickHandler next =>
    if (s.threads t).blocked = false ∧ (s.threads next).ready then
      let s := s.put t { s.threads t with blocked := true }
      some ({ s with uxCriticalNesting := s.uxCriticalNesting + 1 }.switch t next .vPortSystemTickHandler)
    else none
  | .onward => none

/-- A thread that is in the port goes on. -/
def onward (s : State Task) (t : Task) : Option (State Task) :=
  match (s.threads t).place with
  | .resuming suspend resume uxSavedCriticalNesting caller =>
    let s := s.prvResumeThread t resume
    some (s.put t { s.threads t with place := .resumed suspend uxSavedCriticalNesting caller })
  | .resumed suspend uxSavedCriticalNesting caller =>
    let place :=
      if (s.threads suspend).xDying then .exited
      else .waiting suspend (.prvSwitchThread uxSavedCriticalNesting caller)
    some (s.put t { s.threads t with place })
  | .waiting thread back =>
    if (s.threads thread).event_triggered then
      let s := s.put thread { s.threads thread with event_triggered := false }
      some (s.put t { s.threads t with place := .woken back })
    else none
  | .woken .prvWaitForStart =>
    some { s.put t { s.threads t with place := .code, blocked := false } with uxCriticalNesting := 0 }
  | .woken (.prvSwitchThread uxSavedCriticalNesting caller) =>
    some { s.put t { s.threads t with place := .leaving caller } with uxCriticalNesting := uxSavedCriticalNesting }
  | .leaving .vPortYield =>
    let s := s.vPortExitCritical t
    some (s.put t { s.threads t with place := .code })
  | .leaving .vPortSystemTickHandler =>
    -- the signal mask from before the handler is back
    some { s.put t { s.threads t with place := .code, blocked := false } with
      uxCriticalNesting := s.uxCriticalNesting - 1 }
  | _ => none

def step (s : State Task) : Task × Move Task → Option (State Task)
  | (t, .onward) => onward s t
  | (t, move) =>
    match (s.threads t).place with
    | .code => call s t move
    | _ => none

/-- `vPortStartFirstTask` has signalled the thread of the first task; each created task has a thread, and all of them
    wait in `prvWaitForStart`. -/
def start (created : List Task) (first : Task) : State Task where
  pxCurrentTCB := first
  uxCriticalNesting := 0
  threads t :=
    { place := if t ∈ created then .waiting t .prvWaitForStart else .absent
      blocked := true
      event_triggered := decide (t = first)
      xDying := false
      depth := 0 }

end

end OsyProg.PortThreads
