import Mathlib.Tactic.Common
import OsyProg.PortThreads
import OsyProg.Runs

/-!
One thread has the turn: it is in the code of its task, or in the port and has not signalled the next
thread, or its event is triggered and it has not seen that yet. What each thread keeps for itself
(`Thread.Fits`), and what the one that has the turn knows of the state they share (`Heads`), is kept
by every step (`step_turn`). So the code of one task runs at a time, and no thread is left waiting when
it is its turn.
-/
namespace OsyProg.PortThreads
open OsyProg.Runs
set_option linter.unusedSectionVars false

section
variable {Task : Type} [DecidableEq Task]

/-! ### The turn -/

/-- It is in the code of its task, or in the port and the next thread does not have its signal yet; not so a thread that
    has signalled and still runs, up to its `event_wait`. -/
def Place.turns : Place Task → Bool
  | .code | .resuming .. | .woken _ | .leaving _ => true
  | _ => false

/-- It has called, or is about to call, `event_wait`. -/
def Place.parked : Place Task → Bool
  | .waiting .. | .resumed .. => true
  | _ => false

def Thread.Holds (x : Thread Task) : Prop := x.place.turns = true ∨ x.event_triggered = true

def Thread.Parked (x : Thread Task) : Prop := x.place.parked = true ∧ x.xDying = false

/-- The tick interrupts a task outside its critical sections. -/
def Caller.Fits (depth : ℕ) : Caller → Prop
  | .vPortYield => True
  | .vPortSystemTickHandler => depth = 0

def Back.Fits (depth : ℕ) : Back → Prop
  | .prvWaitForStart => depth = 0
  | .prvSwitchThread uxSavedCriticalNesting caller => uxSavedCriticalNesting = depth + 1 ∧ caller.Fits depth

/-- What a thread keeps for itself: its event, its signal mask, and the nesting on its stack. -/
def Thread.Fits (x : Thread Task) (t : Task) : Prop :=
  match x.place with
  | .absent | .exited => x.blocked = true ∧ x.event_triggered = false
  | .code => x.blocked = decide (0 < x.depth) ∧ x.event_triggered = false
  | .resuming suspend resume uxSavedCriticalNesting caller =>
    (suspend = t ∧ resume ≠ t ∧ (Back.prvSwitchThread uxSavedCriticalNesting caller).Fits x.depth) ∧
      x.blocked = true ∧ x.event_triggered = false
  | .resumed suspend uxSavedCriticalNesting caller =>
    (suspend = t ∧ (Back.prvSwitchThread uxSavedCriticalNesting caller).Fits x.depth) ∧
      x.blocked = true ∧ (x.event_triggered = true → x.xDying = false)
  | .waiting thread back => (thread = t ∧ back.Fits x.depth) ∧ x.blocked = true ∧ x.xDying = false
  | .woken back => back.Fits x.depth ∧ x.blocked = true ∧ x.event_triggered = false
  | .leaving caller => caller.Fits x.depth ∧ x.blocked = true ∧ x.event_triggered = false

/-- What the thread that has the turn knows of the state they share. -/
def Heads (s : State Task) (t : Task) : Prop :=
  match (s.threads t).place with
  | .code => s.pxCurrentTCB = t ∧ s.uxCriticalNesting = (s.threads t).depth
  | .resuming _ resume _ _ => s.pxCurrentTCB = resume ∧ (s.threads resume).Parked
  | .leaving _ => s.pxCurrentTCB = t ∧ s.uxCriticalNesting = (s.threads t).depth + 1
  | _ => s.pxCurrentTCB = t

structure Turn (s : State Task) (t : Task) : Prop where
  fits : ∀ u, (s.threads u).Fits u
  holds : (s.threads t).Holds
  only : ∀ u, (s.threads u).Holds → u = t
  heads : Heads s t

variable {s s' : State Task} {t u : Task} {x : Thread Task}

/-- The thread that has the turn takes a step and keeps it. -/
theorem Turn.keep (turn : Turn s t) (changed : s'.threads = Function.update s.threads t x) (fits : x.Fits t)
    (holds : x.Holds) (heads : Heads s' t) :
    Turn s' t := by
  refine ⟨fun u => ?_, ?_, fun u has => ?_, heads⟩
  · rw [changed, Function.update_apply]
    split
    · next same => rwa [same]
    · exact turn.fits u
  · rwa [changed, Function.update_self]
  · by_contra other
    rw [changed, Function.update_of_ne other] at has
    exact other (turn.only u has)

/-- Something changes for a thread that has not the turn, and does not get it. -/
theorem Turn.aside (turn : Turn s t) (other : u ≠ t) (fits : x.Fits u) (out : ¬ x.Holds)
    (parked : s.pxCurrentTCB = u → (s.threads u).Parked → x.Parked) :
    Turn (s.put u x) t := by
  have same : (s.put u x).threads t = s.threads t := Function.update_of_ne other.symm ..
  refine ⟨fun v => ?_, ?_, fun v has => ?_, ?_⟩
  · rw [State.put_threads, Function.update_apply]
    split
    · next its => rwa [its]
    · exact turn.fits v
  · rw [same]
    exact turn.holds
  · rw [State.put_threads, Function.update_apply] at has
    split at has
    · exact absurd has out
    · exact turn.only v has
  · have heads := turn.heads
    unfold Heads at heads ⊢
    rw [same]
    cases place : (s.threads t).place with
    | resuming suspend resume uxSavedCriticalNesting caller =>
      simp only [place] at heads ⊢
      refine ⟨heads.1, ?_⟩
      rw [State.put_threads, Function.update_apply]
      split
      · next its => exact parked (heads.1.trans its) (its ▸ heads.2)
      · exact heads.2
    | _ => simpa only [place, State.put_current, State.put_nesting] using heads

/-- A thread that does not run has the turn by its event. -/
theorem Turn.triggered (turn : Turn s t) (rests : (s.threads t).place.turns = false) :
    (s.threads t).event_triggered = true :=
  turn.holds.resolve_left fun runs => Bool.false_ne_true (rests.symm.trans runs)

theorem Turn.is_code (turn : Turn s t) (code : (s.threads u).place = .code) :
    u = t ∧ s.pxCurrentTCB = u ∧ s.uxCriticalNesting = (s.threads u).depth ∧
      (s.threads u).blocked = decide (0 < (s.threads u).depth) ∧ (s.threads u).event_triggered = false := by
  obtain rfl := turn.only u (.inl (by rw [code]; rfl))
  have fits := turn.fits u
  have heads := turn.heads
  simp only [Thread.Fits, Heads, code] at fits heads
  exact ⟨rfl, heads.1, heads.2, fits⟩

/-- Inside a critical section the signals are blocked. -/
theorem Turn.masked (turn : Turn s t) (code : (s.threads t).place = .code) :
    (if s.uxCriticalNesting = 0 then true else (s.threads t).blocked) = true := by
  obtain ⟨-, -, nesting, blocked, -⟩ := turn.is_code code
  rw [nesting, blocked]
  rcases Nat.eq_zero_or_pos (s.threads t).depth with outside | inside
  · simp [outside]
  · simp [inside]

/-- At the end of a critical section they are unblocked, if it is in no other one. -/
theorem Turn.unmasked (turn : Turn s t) (code : (s.threads t).place = .code) (entered : 0 < (s.threads t).depth) :
    (if s.uxCriticalNesting - 1 = 0 then false else (s.threads t).blocked) = decide (0 < (s.threads t).depth - 1) := by
  obtain ⟨-, -, nesting, blocked, -⟩ := turn.is_code code
  obtain ⟨n, depth⟩ := Nat.exists_eq_succ_of_ne_zero (Nat.ne_of_gt entered)
  rw [nesting, blocked, depth]
  rcases Nat.eq_zero_or_pos n with rfl | more
  · simp
  · simp [more, Nat.ne_of_gt more]

/-- `prvSwitchThread` begins in a thread whose signals are blocked. -/
theorem switch_turn (turn : Turn s t) {nesting : ℤ} {caller : Caller} {next : Task} (code : (s.threads t).place = .code)
    (inside : nesting = (s.threads t).depth + 1) (fits : caller.Fits (s.threads t).depth)
    (ready : (s.threads next).ready = true)
    (changed : s'.threads = Function.update s.threads t { s.threads t with blocked := true })
    (current : s'.pxCurrentTCB = s.pxCurrentTCB) (count : s'.uxCriticalNesting = nesting) :
    Turn (s'.switch t next caller) t := by
  obtain ⟨-, here, -, -, event⟩ := turn.is_code code
  have threads : (s'.switch t next caller).threads = Function.update s.threads t
      { s.threads t with
        blocked := true
        place := if t ≠ next then .resuming t next nesting caller else .leaving caller } := by
    simp [State.switch, changed, current, count, here]
  by_cases same : t = next
  · subst same
    refine turn.keep threads ?_ (.inl ?_) ?_
    · simp [Thread.Fits, fits, event]
    · simp [Place.turns]
    · simp [Heads, threads]
      simp [State.switch, count, inside]
  · refine turn.keep threads ?_ (.inl ?_) ?_
    · simp [Thread.Fits, same, Ne.symm same, Back.Fits, inside, fits, event]
    · simp [same, Place.turns]
    · have waits : ¬ (s.threads next).Holds := fun has => same (turn.only next has).symm
      have resting := turn.fits next
      have live : (s.threads next).place.live = true ∧ (s.threads next).xDying = false := by
        simpa [Thread.ready] using ready
      simp only [Heads, threads, Function.update_self, ne_eq, same, not_false_eq_true, if_true,
        Function.update_of_ne (Ne.symm same)]
      refine ⟨rfl, ?_, live.2⟩
      cases place : (s.threads next).place <;>
        simp [Thread.Holds, Place.turns, Place.live, Place.parked, place] at waits live ⊢

theorem absent_ne {new : Task} (code : (s.threads t).place = .code) (absent : (s.threads new).place = .absent) :
    new ≠ t := by
  rintro rfl
  simp [code] at absent

/-- A new thread waits, with its signals blocked. -/
theorem call_create (turn : Turn s t) {new : Task} (code : (s.threads t).place = .code)
    (absent : (s.threads new).place = .absent) :
    call s t (.pxPortInitialiseStack new) =
      some (s.put new { place := .waiting new .prvWaitForStart, blocked := true, event_triggered := false,
                        xDying := false, depth := 0 }) := by
  obtain ⟨-, -, nesting, blocked, -⟩ := turn.is_code code
  have other := absent_ne code absent
  have again : (if s.uxCriticalNesting = 0 then false else true) = (s.threads t).blocked := by
    rw [nesting, blocked]
    rcases Nat.eq_zero_or_pos (s.threads t).depth with outside | inside
    · simp [outside]
    · simp [inside, Nat.ne_of_gt inside]
  simp only [call, absent, State.vPortEnterCritical, State.pthread_create, State.vPortExitCritical, State.put,
    turn.masked code, Int.add_sub_cancel, Function.update_self, Function.update_of_ne other.symm, again, Option.some.injEq]
  congr 1
  funext v
  rcases eq_or_ne v t with rfl | at_t
  · simp [other.symm]
  · rcases eq_or_ne v new with rfl | at_new <;> simp [*]

/-- A call of the port by the code of a task. -/
theorem call_turn (turn : Turn s t) (code : (s.threads t).place = .code) {move : Move Task}
    (taken : call s t move = some s') :
    Turn s' t := by
  obtain ⟨-, here, nesting, blocked, event⟩ := turn.is_code code
  cases move with
  | vPortEnterCritical =>
    cases taken
    refine turn.keep (by simp [State.vPortEnterCritical]; rfl) ?_ (.inl ?_) ?_
    · have masked := turn.masked code
      simp only [Thread.Fits, code]
      exact ⟨by simpa using masked, event⟩
    · simp [code, Place.turns]
    · simp [Heads, State.vPortEnterCritical, code, here, nesting]
  | vPortExitCritical =>
    simp only [call] at taken
    split at taken
    · next entered =>
      cases taken
      refine turn.keep (by simp [State.vPortExitCritical]; rfl) ?_ (.inl ?_) ?_
      · have unmasked := turn.unmasked code entered
        simp only [Thread.Fits, code]
        exact ⟨by simpa using unmasked, event⟩
      · simp [code, Place.turns]
      · simp [Heads, State.vPortExitCritical, code, here, nesting]
        omega
    · contradiction
  | pxPortInitialiseStack new =>
    simp only [call] at taken
    split at taken
    · next absent =>
      have created := call_create turn code absent
      simp only [call, absent] at created
      rw [created] at taken
      cases taken
      refine turn.aside (absent_ne code absent) ?_ ?_ ?_
      · simp [Thread.Fits, Back.Fits]
      · simp [Thread.Holds, Place.turns]
      · intro _ parked
        simp [Thread.Parked, absent, Place.parked] at parked
    · contradiction
  | vPortThreadDying =>
    cases taken
    refine turn.keep rfl ?_ (.inl ?_) ?_
    · simp [Thread.Fits, code, blocked, event]
    · simp [code, Place.turns]
    · simp [Heads, code, here, nesting]
  | vPortCancelThread pxTaskToDelete =>
    simp only [call] at taken
    split at taken
    · contradiction
    · split at taken
      · contradiction
      · next present another =>
        cases taken
        have other : pxTaskToDelete ≠ t := fun same => another (same.trans here.symm)
        have out : ¬ (s.threads pxTaskToDelete).Holds := fun has => other (turn.only _ has)
        have fits := turn.fits pxTaskToDelete
        refine turn.aside other ?_ ?_ ?_
        · cases place : (s.threads pxTaskToDelete).place <;>
            simp_all [Thread.Fits, Thread.Holds, Place.turns]
        · simp_all [Thread.Holds, Place.turns]
        · exact fun same => absurd same.symm another
  | vPortYield next =>
    simp only [call] at taken
    split at taken
    · next ready =>
      cases taken
      refine switch_turn turn code rfl trivial ready ?_ rfl (by rw [← nesting]; rfl)
      simp [State.vPortEnterCritical, turn.masked code]
    · contradiction
  | vPortSystemTickHandler next =>
    simp only [call] at taken
    split at taken
    · next allowed =>
      cases taken
      refine switch_turn turn code (by rw [State.put_nesting, nesting]) ?_ allowed.2 rfl rfl rfl
      have outside := blocked.symm.trans allowed.1
      simpa [Caller.Fits] using outside
    · contradiction
  | onward => simp [call] at taken

section
variable {suspend resume : Task} {nesting : ℤ} {caller : Caller}

theorem resuming_onward (place : (s.threads t).place = .resuming suspend resume nesting caller) :
    ∃ m, onward s t = some m := by
  have taken := onward.eq_def s t
  simp only [place] at taken
  exact ⟨_, taken⟩

theorem resuming_threads (place : (s.threads t).place = .resuming suspend resume nesting caller) (other : resume ≠ t)
    (taken : onward s t = some s') :
    s'.pxCurrentTCB = s.pxCurrentTCB ∧ s'.threads = Function.update (Function.update s.threads resume
      { s.threads resume with event_triggered := true }) t
      { s.threads t with place := .resumed suspend nesting caller } := by
  simp only [onward, place, Option.some.injEq] at taken
  subst taken
  simp [State.prvResumeThread, other.symm]

/-- The signal of `prvResumeThread` hands the turn over. -/
theorem resume_turn (turn : Turn s t)
    (place : (s.threads t).place = .resuming suspend resume nesting caller) (taken : onward s t = some s') :
    Turn s' resume := by
  have fits := turn.fits t
  have heads := turn.heads
  simp only [Thread.Fits, Heads, place] at fits heads
  obtain ⟨⟨mine, other, back⟩, blocked, event⟩ := fits
  obtain ⟨current, parked, alive⟩ := heads
  obtain ⟨same, threads⟩ := resuming_threads place other taken
  have at_resume : s'.threads resume = { s.threads resume with event_triggered := true } := by
    rw [threads, Function.update_of_ne other, Function.update_self]
  have at_t : s'.threads t = { s.threads t with place := .resumed suspend nesting caller } := by
    rw [threads, Function.update_self]
  have elsewhere : ∀ v, v ≠ t → v ≠ resume → s'.threads v = s.threads v := fun v first second => by
    rw [threads, Function.update_of_ne first, Function.update_of_ne second]
  refine ⟨fun v => ?_, .inr ?_, fun v has => ?_, ?_⟩
  · by_cases first : v = t
    · subst first
      rw [at_t]
      exact ⟨⟨mine, back⟩, blocked, fun triggered => absurd (event.symm.trans triggered) Bool.false_ne_true⟩
    · by_cases second : v = resume
      · subst second
        have resting := turn.fits v
        rw [at_resume]
        cases here : (s.threads v).place <;> simp_all [Thread.Fits, Place.parked]
      · rw [elsewhere v first second]
        exact turn.fits v
  · rw [at_resume]
  · by_contra second
    by_cases first : v = t
    · subst first
      rw [at_t] at has
      simp [Thread.Holds, Place.turns, event] at has
    · rw [elsewhere v first second] at has
      exact first (turn.only v has)
  · have now := same.trans current
    simp only [Heads, at_resume, now]
    cases here : (s.threads resume).place <;> simp_all [Place.parked]

end

theorem onward_turn (turn : Turn s t) (taken : onward s u = some s') : ∃ t', Turn s' t' := by
  have runs : (s.threads u).place.turns = true → u = t := fun running => turn.only u (.inl running)
  have fits := turn.fits u
  cases place : (s.threads u).place with
  | resuming suspend resume nesting caller =>
    obtain rfl := runs (by rw [place]; rfl)
    exact ⟨resume, resume_turn turn place taken⟩
  | resumed suspend nesting caller =>
    simp only [Thread.Fits, place] at fits
    obtain ⟨⟨rfl, back⟩, blocked, event⟩ := fits
    simp only [onward, place, Option.some.injEq] at taken
    subst taken
    refine ⟨t, ?_⟩
    -- the thread may be signalled again before it waits: then it has the turn
    by_cases mine : suspend = t
    · subst mine
      have triggered := turn.triggered (by rw [place]; rfl)
      have alive := event triggered
      have heads := turn.heads
      simp only [Heads, place] at heads
      refine turn.keep rfl ?_ (.inr triggered) ?_
      · simp [Thread.Fits, alive, back, blocked]
      · simp [Heads, alive, heads]
    · have silent : (s.threads suspend).event_triggered = false := by
        by_contra triggered
        exact mine (turn.only suspend (.inr (by simpa using triggered)))
      cases dying : (s.threads suspend).xDying with
      | true =>
        refine turn.aside mine ?_ ?_ ?_
        · simp [Thread.Fits, blocked, silent]
        · simp [Thread.Holds, Place.turns, silent]
        · intro _ parked
          simp [Thread.Parked, dying] at parked
      | false =>
        refine turn.aside mine ?_ ?_ ?_
        · simp [Thread.Fits, back, blocked]
        · simp [Thread.Holds, Place.turns, silent]
        · intro _ parked
          simp [Thread.Parked, Place.parked]
  | waiting thread back =>
    simp only [Thread.Fits, place] at fits
    obtain ⟨⟨rfl, kept⟩, blocked, alive⟩ := fits
    simp only [onward, place] at taken
    split at taken
    · next triggered =>
      cases taken
      obtain rfl := turn.only thread (.inr triggered)
      have heads := turn.heads
      simp only [Heads, place] at heads
      refine ⟨thread, turn.keep (by simp; rfl) ?_ (.inl ?_) ?_⟩
      · simp [Thread.Fits, kept, blocked]
      · simp [Place.turns]
      · simp [Heads, heads]
    · contradiction
  | woken back =>
    obtain rfl := runs (by rw [place]; rfl)
    have heads := turn.heads
    simp only [Thread.Fits, Heads, place] at fits heads
    obtain ⟨kept, blocked, event⟩ := fits
    cases back with
    | prvWaitForStart =>
      simp only [onward, place, Option.some.injEq] at taken
      subst taken
      have outside : (s.threads u).depth = 0 := kept
      refine ⟨u, turn.keep rfl ?_ (.inl ?_) ?_⟩
      · simp [Thread.Fits, outside, event]
      · simp [Place.turns]
      · simp [Heads, heads, outside]
    | prvSwitchThread nesting caller =>
      simp only [onward, place, Option.some.injEq] at taken
      subst taken
      obtain ⟨saved, fits⟩ := kept
      refine ⟨u, turn.keep rfl ?_ (.inl ?_) ?_⟩
      · simp [Thread.Fits, fits, blocked, event]
      · simp [Place.turns]
      · simp [Heads, heads, saved]
  | leaving caller =>
    obtain rfl := runs (by rw [place]; rfl)
    have heads := turn.heads
    simp only [Thread.Fits, Heads, place] at fits heads
    obtain ⟨fits, blocked, event⟩ := fits
    obtain ⟨current, count⟩ := heads
    cases caller with
    | vPortYield =>
      simp only [onward, place, Option.some.injEq] at taken
      subst taken
      refine ⟨u, turn.keep (by simp [State.vPortExitCritical]; rfl) ?_ (.inl ?_) ?_⟩
      · rcases Nat.eq_zero_or_pos (s.threads u).depth with outside | inside
        · simp [Thread.Fits, count, outside, event]
        · simp [Thread.Fits, count, inside, Nat.ne_of_gt inside, blocked, event]
      · simp [Place.turns]
      · simp [Heads, State.vPortExitCritical, current, count]
    | vPortSystemTickHandler =>
      simp only [onward, place, Option.some.injEq] at taken
      subst taken
      have outside : (s.threads u).depth = 0 := fits
      refine ⟨u, turn.keep rfl ?_ (.inl ?_) ?_⟩
      · simp [Thread.Fits, outside, event]
      · simp [Place.turns]
      · simp [Heads, current, count]
  | absent | code | exited => simp [onward, place] at taken

theorem step_turn (turn : Turn s t) {move : Task × Move Task} (taken : step s move = some s') : ∃ t', Turn s' t' := by
  obtain ⟨u, move⟩ := move
  unfold step at taken
  split at taken
  · next same =>
    cases same
    exact onward_turn turn taken
  · next same =>
    cases same
    split at taken
    · next code =>
      obtain ⟨rfl, -⟩ := turn.is_code code
      exact ⟨_, call_turn turn code taken⟩
    · contradiction

theorem start_turn {tasks : List Task} {first : Task} (created : first ∈ tasks) : Turn (start tasks first) first := by
  refine ⟨fun u => ?_, .inr (by simp [start]), fun u has => ?_, ?_⟩
  · by_cases its : u ∈ tasks
    · simp [start, Thread.Fits, its, Back.Fits]
    · have other : u ≠ first := fun same => its (same ▸ created)
      simp [start, Thread.Fits, its, other]
  · by_cases its : u ∈ tasks <;> simpa [start, Thread.Holds, Place.turns, its] using has
  · simp [start, Heads, created]

variable {tasks : List Task} {first : Task}

theorem reachable_turn (created : first ∈ tasks) (reached : Reachable step (start tasks first) s) : ∃ t, Turn s t := by
  have kept : ∀ (s : State Task) move s', (∃ t, Turn s t) → step s move = some s' → ∃ t, Turn s' t := by
    rintro s move s' ⟨t, turn⟩ taken
    exact step_turn turn taken
  exact reachable_kept kept ⟨first, start_turn created⟩ reached

/-! ### One thread has the turn -/

/-- No two threads have the turn, or a signal for it, and the one in the code of its task is that of the current task. The
    nesting of the critical sections is its own, and the tick can interrupt it outside of them, and no other thread. -/
theorem one_has_turn (created : first ∈ tasks) (reached : Reachable step (start tasks first) s) :
    (∀ t u, (s.threads t).Holds → (s.threads u).Holds → t = u) ∧
    (∀ t, (s.threads t).place = .code → s.pxCurrentTCB = t ∧ s.uxCriticalNesting = (s.threads t).depth) ∧
    ∀ t, (s.threads t).blocked = false ↔ (s.threads t).place = .code ∧ (s.threads t).depth = 0 := by
  obtain ⟨holder, turn⟩ := reachable_turn created reached
  refine ⟨fun t u first second => ?_, fun t code => ?_, fun t => ?_⟩
  · exact (turn.only t first).trans (turn.only u second).symm
  · obtain ⟨-, current, nesting, -⟩ := turn.is_code code
    exact ⟨current, nesting⟩
  · have fits := turn.fits t
    cases place : (s.threads t).place <;> simp_all [Thread.Fits]

/-- The first task starts, and yields to the second one in a critical section: the thread of the second one may run
    now, and that of the first one does not wait yet. -/
def handing : List (Bool × Move Bool) :=
  [(true, .onward), (true, .onward), (true, .vPortEnterCritical), (true, .vPortYield false), (true, .onward)]

theorem one_has_turn_sample : ∃ s, exec step (start [true, false] true) handing = some s ∧
    ∀ t u, (s.threads t).Holds → (s.threads u).Holds → t = u := by
  obtain ⟨alone, -⟩ := @one_has_turn Bool _ _ [true, false] true (by simp) ⟨handing, rfl⟩
  exact ⟨_, rfl, alone⟩

example : (exec step (start [true, false] true) handing).map (fun s =>
    (s.pxCurrentTCB, s.uxCriticalNesting, (s.threads false).event_triggered)) = some (false, 2, true) := rfl

/-! ### The hand-over -/

/-- How many steps are left before the thread is in the code of its task. -/
def Place.left : Place Task → ℕ
  | .resuming .. => 5
  | .resumed .. => 4
  | .waiting .. => 3
  | .woken _ => 2
  | .leaving _ => 1
  | _ => 0

theorem Place.left_le (place : Place Task) : place.left ≤ 5 := by
  cases place <;> simp [Place.left]

theorem Turn.stays (turn : Turn s t) (taken : onward s t = some s') (holds : (s'.threads t).Holds) : Turn s' t := by
  obtain ⟨holder, after⟩ := onward_turn turn taken
  exact after.only t holds ▸ after

theorem put_depth (same : x.depth = (s.threads u).depth) (t : Task) :
    ((s.put u x).threads t).depth = (s.threads t).depth := by
  rw [State.put_threads, Function.update_apply]
  split
  · next its => rw [its, same]
  · rfl

theorem onward_depth (taken : onward s u = some s') (t : Task) : (s'.threads t).depth = (s.threads t).depth := by
  unfold onward at taken
  split at taken
  · cases taken
    refine (put_depth (by rfl) t).trans ?_
    unfold State.prvResumeThread
    split
    · exact put_depth (by rfl) t
    · rfl
  · cases taken
    exact put_depth (by rfl) t
  · split at taken
    · cases taken
      exact (put_depth (by rfl) t).trans (put_depth (by rfl) t)
    · contradiction
  · cases taken
    exact put_depth (by rfl) t
  · cases taken
    exact put_depth (by rfl) t
  · cases taken
    exact (put_depth (by rfl) t).trans (put_depth (by rfl) t)
  · cases taken
    exact put_depth (by rfl) t
  · contradiction

/-- The thread that has the turn can go on; the signal is there when it comes to its event. -/
theorem turn_onward (turn : Turn s t) (busy : (s.threads t).place ≠ .code) :
    ∃ s' t', onward s t = some s' ∧ Turn s' t' ∧ s'.pxCurrentTCB = s.pxCurrentTCB ∧
      (s'.threads t').place.left < (s.threads t).place.left := by
  have fits := turn.fits t
  have holds := turn.holds
  cases place : (s.threads t).place with
  | absent | exited =>
    simp only [Thread.Fits, place] at fits
    simp [Thread.Holds, Place.turns, place, fits.2] at holds
  | code => contradiction
  | resuming suspend resume nesting caller =>
    have heads := turn.heads
    simp only [Thread.Fits, Heads, place] at fits heads
    have other := fits.1.2.1
    have parked := heads.2.1
    obtain ⟨m, taken⟩ := resuming_onward place
    obtain ⟨same, threads⟩ := resuming_threads place other taken
    refine ⟨m, resume, taken, resume_turn turn place taken, same, ?_⟩
    rw [threads, Function.update_of_ne other, Function.update_self]
    cases here : (s.threads resume).place <;> simp_all [Place.parked, Place.left]
  | resumed suspend nesting caller =>
    have triggered := turn.triggered (by rw [place]; rfl)
    simp only [Thread.Fits, place] at fits
    obtain ⟨⟨rfl, -⟩, -, alive⟩ := fits
    have taken := onward.eq_def s suspend
    simp only [place] at taken
    refine ⟨_, suspend, taken, turn.stays taken (.inr ?_), rfl, ?_⟩
    · simpa using triggered
    · simp [alive triggered, Place.left]
  | waiting thread back =>
    have triggered := turn.triggered (by rw [place]; rfl)
    simp only [Thread.Fits, place] at fits
    obtain ⟨⟨rfl, -⟩, -⟩ := fits
    have taken := onward.eq_def s thread
    simp only [place, triggered, if_true] at taken
    exact ⟨_, thread, taken, turn.stays taken (.inl (by simp [Place.turns])), rfl, by simp [Place.left]⟩
  | woken back =>
    have taken := onward.eq_def s t
    cases back with
    | prvWaitForStart =>
      simp only [place] at taken
      exact ⟨_, t, taken, turn.stays taken (.inl (by simp [Place.turns])), rfl, by simp [Place.left]⟩
    | prvSwitchThread nesting caller =>
      simp only [place] at taken
      exact ⟨_, t, taken, turn.stays taken (.inl (by simp [Place.turns])), rfl, by simp [Place.left]⟩
  | leaving caller =>
    have taken := onward.eq_def s t
    cases caller with
    | vPortYield =>
      simp only [place] at taken
      exact ⟨_, t, taken, turn.stays taken (.inl (by simp [Place.turns])), rfl, by simp [Place.left]⟩
    | vPortSystemTickHandler =>
      simp only [place] at taken
      exact ⟨_, t, taken, turn.stays taken (.inl (by simp [Place.turns])), rfl, by simp [Place.left]⟩

theorem turn_code (turn : Turn s t) :
    ∃ moves s', exec step s moves = some s' ∧ moves.length ≤ (s.threads t).place.left ∧
      (∀ move ∈ moves, move.2 = .onward) ∧ s'.pxCurrentTCB = s.pxCurrentTCB ∧
      (∀ u, (s'.threads u).depth = (s.threads u).depth) ∧
      ∃ t', Turn s' t' ∧ (s'.threads t').place = .code := by
  induction left : (s.threads t).place.left using Nat.strongRecOn generalizing s t with
  | ind n ih =>
    by_cases code : (s.threads t).place = .code
    · exact ⟨[], s, rfl, Nat.zero_le _, by simp, rfl, fun _ => rfl, t, turn, code⟩
    · obtain ⟨m, t', taken, after, current, lower⟩ := turn_onward turn code
      obtain ⟨moves, s', run, few, all, same, depths, last⟩ := ih _ (left ▸ lower) after rfl
      refine ⟨(t, .onward) :: moves, s', exec_cons_iff.mpr ⟨m, taken, run⟩, ?_, ?_, same.trans current, ?_, last⟩
      · rw [List.length_cons]
        omega
      · simpa using all
      · exact fun u => (depths u).trans (onward_depth taken u)

/-- From every state the threads, which only go on with what they do in the port, come to the code of the current task
    in five steps or fewer: no signal is lost. The nesting is then what it was when this task was interrupted. -/
theorem hand_over_completes (created : first ∈ tasks) (reached : Reachable step (start tasks first) s) :
    ∃ moves s', exec step s moves = some s' ∧ moves.length ≤ 5 ∧ (∀ move ∈ moves, move.2 = .onward) ∧
      s'.pxCurrentTCB = s.pxCurrentTCB ∧ (s'.threads s.pxCurrentTCB).place = .code ∧
      s'.uxCriticalNesting = (s.threads s.pxCurrentTCB).depth := by
  obtain ⟨t, turn⟩ := reachable_turn created reached
  obtain ⟨moves, s', run, few, all, current, depths, t', after, code⟩ := turn_code turn
  obtain ⟨-, its, nesting, -⟩ := after.is_code code
  have same : s.pxCurrentTCB = t' := current.symm.trans its
  refine ⟨moves, s', run, Nat.le_trans few (Place.left_le _), all, current, same ▸ code, ?_⟩
  rw [nesting, depths, same]

theorem hand_over_completes_sample : ∃ s, exec step (start [true, false] true) handing = some s ∧
    ∃ moves s', exec step s moves = some s' ∧ (s'.threads false).place = .code ∧ s'.uxCriticalNesting = 0 := by
  obtain ⟨moves, s', run, -, -, -, code, nesting⟩ :=
    @hand_over_completes Bool _ _ [true, false] true (by simp) ⟨handing, rfl⟩
  exact ⟨_, rfl, moves, s', run, code, nesting⟩

/-! ### Tasks that delete themselves -/

theorem resumed_exits {suspend : Task} {nesting : ℤ} {caller : Caller} (fits : (s.threads t).Fits t)
    (place : (s.threads t).place = .resumed suspend nesting caller) (dying : (s.threads t).xDying = true) :
    ∃ s', step s (t, .onward) = some s' ∧ (s'.threads t).place = .exited := by
  simp only [Thread.Fits, place] at fits
  obtain ⟨⟨rfl, -⟩, -⟩ := fits
  have taken : step s (suspend, .onward) = _ := onward.eq_def s suspend
  simp only [place, dying, if_true] at taken
  exact ⟨_, taken, by simp⟩

/-- The thread of a task that has deleted itself exits when another task is the current one: it takes two steps or
    fewer, and waits for nothing. So `pthread_join` returns in `vPortCancelThread`. -/
theorem dying_exits (created : first ∈ tasks) (reached : Reachable step (start tasks first) s)
    (dying : (s.threads t).xDying = true) (off : s.pxCurrentTCB ≠ t) :
    ∃ moves s', exec step s moves = some s' ∧ moves.length ≤ 2 ∧ (∀ move ∈ moves, move = (t, .onward)) ∧
      (s'.threads t).place.live = false := by
  obtain ⟨holder, turn⟩ := reachable_turn created reached
  have fits := turn.fits t
  have away : (s.threads t).place.turns = true → Heads s t := fun runs => turn.only t (.inl runs) ▸ turn.heads
  cases place : (s.threads t).place with
  | absent | exited => exact ⟨[], s, rfl, by simp, by simp, by simp [place, Place.live]⟩
  | code => exact absurd (turn.is_code place).2.1 off
  | waiting thread back => simp [Thread.Fits, place, dying] at fits
  | woken back | leaving caller =>
    simp [Heads, place, Place.turns, off] at away
  | resumed suspend nesting caller =>
    obtain ⟨s', taken, exited⟩ := resumed_exits fits place dying
    exact ⟨[(t, .onward)], s', exec_cons_iff.mpr ⟨s', taken, rfl⟩, by simp, by simp, by simp [exited, Place.live]⟩
  | resuming suspend resume nesting caller =>
    obtain rfl := turn.only t (.inl (by rw [place]; rfl))
    simp only [Thread.Fits, place] at fits
    have other := fits.1.2.1
    obtain ⟨m, taken⟩ := resuming_onward place
    obtain ⟨-, threads⟩ := resuming_threads place other taken
    have at_t : m.threads t = { s.threads t with place := .resumed suspend nesting caller } := by
      rw [threads, Function.update_self]
    have after := (resume_turn turn place taken).fits t
    obtain ⟨s', taken', exited⟩ := resumed_exits after (by rw [at_t]) (by rw [at_t]; exact dying)
    refine ⟨[(t, .onward), (t, .onward)], s', ?_, by simp, by simp, by simp [exited, Place.live]⟩
    exact exec_cons_iff.mpr ⟨_, taken, exec_cons_iff.mpr ⟨s', taken', rfl⟩⟩

/-- The first task deletes itself. -/
def deleting : List (Bool × Move Bool) :=
  [(true, .onward), (true, .onward), (true, .vPortThreadDying), (true, .vPortYield false)]

theorem dying_exits_sample : ∃ s, exec step (start [true, false] true) deleting = some s ∧
    ∃ moves s', exec step s moves = some s' ∧ (s'.threads true).place.live = false := by
  obtain ⟨moves, s', run, -, -, exited⟩ :=
    @dying_exits Bool _ _ true [true, false] true (by simp) ⟨deleting, rfl⟩ rfl (by decide)
  exact ⟨_, rfl, moves, s', run, exited⟩

end

end OsyProg.PortThreads
