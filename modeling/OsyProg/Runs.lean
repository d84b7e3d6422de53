import Mathlib.Logic.Basic
import Mathlib.Data.List.Basic

/-!
Runs of a system given by a partial step function: `step s a = some t` says that
action `a` may be taken in state `s` and leads to `t`. A run takes a list of
actions (`exec`); what one step keeps, a whole run keeps (`exec_kept`), also when
only steps of a certain kind are considered (`AllSteps`, `exec_kept_of`), and so is
what is seen of it (`trace`, `exec_trace`). A function from the states of one system
to those of another carries runs along when each step becomes a run (`exec_map`).
-/
namespace OsyProg.Runs
universe u v w x

variable {State : Type u} {Action : Type v}

/-- The state after the given actions, taken one after the other. -/
def exec (step : State → Action → Option State) : State → List Action → Option State
  | s, [] => some s
  | s, a :: rest => (step s a).bind fun t => exec step t rest

/-- Every action, in the state in which it is taken, satisfies the condition. -/
def AllSteps (step : State → Action → Option State) (cond : State → Action → Prop) : State → List Action → Prop
  | _, [] => True
  | s, a :: rest => cond s a ∧ ∀ t, step s a = some t → AllSteps step cond t rest

/-- Every state of the run, from the first to the last, satisfies the condition. -/
def AllStates (step : State → Action → Option State) (cond : State → Prop) : State → List Action → Prop
  | s, [] => cond s
  | s, a :: rest => cond s ∧ ∀ t, step s a = some t → AllStates step cond t rest

/-- What is seen of a run, step by step. -/
def trace {Event : Type w} (step : State → Action → Option State) (event : State → Action → List Event) :
    State → List Action → List Event
  | _, [] => []
  | s, a :: rest => event s a ++ (step s a).elim [] fun t => trace step event t rest

/-- The state is the end of some run. -/
def Reachable (step : State → Action → Option State) (start s : State) : Prop :=
  ∃ actions, exec step start actions = some s

section
variable {step : State → Action → Option State}

instance decidableAllSteps {cond : State → Action → Prop} [∀ s a, Decidable (cond s a)] :
    ∀ s actions, Decidable (AllSteps step cond s actions)
  | _, [] => isTrue trivial
  | s, a :: rest =>
    match taken : step s a with
    | none => decidable_of_iff (cond s a) (by simp [AllSteps, taken])
    | some t =>
      have : Decidable (AllSteps step cond t rest) := decidableAllSteps t rest
      decidable_of_iff (cond s a ∧ AllSteps step cond t rest) (by simp [AllSteps, taken])

instance decidableAllStates {cond : State → Prop} [DecidablePred cond] :
    ∀ s actions, Decidable (AllStates step cond s actions)
  | s, [] => inferInstanceAs (Decidable (cond s))
  | s, a :: rest =>
    match taken : step s a with
    | none => decidable_of_iff (cond s) (by simp [AllStates, taken])
    | some t =>
      have : Decidable (AllStates step cond t rest) := decidableAllStates t rest
      decidable_of_iff (cond s ∧ AllStates step cond t rest) (by simp [AllStates, taken])

@[simp] theorem exec_nil (s : State) : exec step s [] = some s := rfl

theorem exec_cons (s : State) (a : Action) (rest : List Action) :
    exec step s (a :: rest) = (step s a).bind fun t => exec step t rest := rfl

theorem exec_cons_iff {s u : State} {a : Action} {rest : List Action} :
    exec step s (a :: rest) = some u ↔ ∃ t, step s a = some t ∧ exec step t rest = some u := by
  rw [exec_cons, Option.bind_eq_some_iff]

theorem exec_append (s : State) (first second : List Action) :
    exec step s (first ++ second) = (exec step s first).bind fun t => exec step t second := by
  induction first generalizing s with
  | nil => rfl
  | cons a rest ih =>
    rw [List.cons_append, exec_cons, exec_cons, Option.bind_assoc]
    exact congrArg _ (funext ih)

theorem exec_append_iff {s u : State} {first second : List Action} :
    exec step s (first ++ second) = some u ↔
      ∃ t, exec step s first = some t ∧ exec step t second = some u := by
  rw [exec_append, Option.bind_eq_some_iff]

/-- What is seen of one run after another. -/
theorem trace_append {Event : Type w} {event : State → Action → List Event} {s t : State} {first : List Action}
    (run : exec step s first = some t) (second : List Action) :
    trace step event s (first ++ second) = trace step event s first ++ trace step event t second := by
  induction first generalizing s with
  | nil =>
    cases run
    rfl
  | cons a rest ih =>
    obtain ⟨m, taken, onward⟩ := exec_cons_iff.mp run
    rw [List.cons_append, trace, trace, taken, Option.elim_some, Option.elim_some, ih onward, List.append_assoc]

theorem Reachable.next {start s t : State} {a : Action} (reached : Reachable step start s) (taken : step s a = some t) :
    Reachable step start t := by
  obtain ⟨actions, run⟩ := reached
  exact ⟨actions ++ [a], exec_append_iff.mpr ⟨s, run, exec_cons_iff.mpr ⟨t, taken, rfl⟩⟩⟩

theorem Reachable.trans {start s t : State} (reached : Reachable step start s) (onward : Reachable step s t) :
    Reachable step start t := by
  obtain ⟨first, run⟩ := reached
  obtain ⟨second, more⟩ := onward
  exact ⟨first ++ second, exec_append_iff.mpr ⟨s, run, more⟩⟩

/-! ### What a run keeps -/

/-- An invariant kept by every step that meets the condition is kept by every
    run whose steps all meet it. -/
theorem exec_kept_of {cond : State → Action → Prop} {Inv : State → Prop}
    (kept : ∀ s a t, Inv s → cond s a → step s a = some t → Inv t) {s t : State} {actions : List Action}
    (holds : Inv s) (all : AllSteps step cond s actions) (run : exec step s actions = some t) : Inv t := by
  induction actions generalizing s with
  | nil => cases run; exact holds
  | cons a rest ih =>
    obtain ⟨m, taken, onward⟩ := exec_cons_iff.mp run
    exact ih (kept s a m holds all.1 taken) (all.2 m taken) onward

/-- An invariant kept by every step is kept by every run. -/
theorem exec_kept {Inv : State → Prop} (kept : ∀ s a t, Inv s → step s a = some t → Inv t) {s t : State}
    {actions : List Action} (holds : Inv s) (run : exec step s actions = some t) : Inv t := by
  induction actions generalizing s with
  | nil => cases run; exact holds
  | cons a rest ih =>
    obtain ⟨m, taken, onward⟩ := exec_cons_iff.mp run
    exact ih (kept s a m holds taken) onward

/-- An invariant that holds at the start and is kept by every step holds in
    every reachable state. -/
theorem reachable_kept {Inv : State → Prop} (kept : ∀ s a t, Inv s → step s a = some t → Inv t) {start s : State}
    (holds : Inv start) (reached : Reachable step start s) : Inv s := by
  obtain ⟨actions, run⟩ := reached
  exact exec_kept kept holds run

/-- An invariant of the steps that meet the condition holds in every state of a
    run whose steps all meet it. -/
theorem allStates_of {cond : State → Action → Prop} {Inv : State → Prop}
    (kept : ∀ s a t, Inv s → cond s a → step s a = some t → Inv t) {s : State} {actions : List Action}
    (holds : Inv s) (all : AllSteps step cond s actions) : AllStates step Inv s actions := by
  induction actions generalizing s with
  | nil => exact holds
  | cons a rest ih => exact ⟨holds, fun t taken => ih (kept s a t holds all.1 taken) (all.2 t taken)⟩

theorem allStates_mono {P Q : State → Prop} (weaker : ∀ s, P s → Q s) {s : State} {actions : List Action}
    (all : AllStates step P s actions) : AllStates step Q s actions := by
  induction actions generalizing s with
  | nil => exact weaker s all
  | cons a rest ih => exact ⟨weaker s all.1, fun t taken => ih (all.2 t taken)⟩

theorem allStates_head {P : State → Prop} {s : State} {actions : List Action}
    (all : AllStates step P s actions) : P s := by
  cases actions with
  | nil => exact all
  | cons a rest => exact all.1

theorem allStates_last {P : State → Prop} {s t : State} {actions : List Action} (all : AllStates step P s actions)
    (run : exec step s actions = some t) : P t := by
  induction actions generalizing s with
  | nil =>
    cases run
    exact all
  | cons a rest ih =>
    obtain ⟨m, taken, onward⟩ := exec_cons_iff.mp run
    exact ih (all.2 m taken) onward

/-- What holds before a step when it holds after it, holds in every state of a run that ends so. -/
theorem allStates_back {P : State → Prop} (back : ∀ s a t, step s a = some t → P t → P s) {s t : State}
    {actions : List Action} (run : exec step s actions = some t) (last : P t) : AllStates step P s actions := by
  induction actions generalizing s with
  | nil =>
    cases run
    exact last
  | cons a rest ih =>
    obtain ⟨m, taken, onward⟩ := exec_cons_iff.mp run
    have later := ih onward
    refine ⟨back s a m taken (allStates_head later), ?_⟩
    intro u taken'
    obtain rfl := Option.some.inj (taken.symm.trans taken')
    exact later

theorem allStates_append {P : State → Prop} {s : State} {first second : List Action}
    (before : AllStates step P s first) (after : ∀ t, exec step s first = some t → AllStates step P t second) :
    AllStates step P s (first ++ second) := by
  induction first generalizing s with
  | nil => exact after s rfl
  | cons a rest ih =>
    exact ⟨before.1, fun t taken => ih (before.2 t taken) fun u run => after u (exec_cons_iff.mpr ⟨t, taken, run⟩)⟩

/-- A run takes no more steps than a measure has that every step lowers. -/
theorem exec_length_le {Inv : State → Prop} {measure : State → ℕ}
    (kept : ∀ s a t, Inv s → step s a = some t → Inv t)
    (lower : ∀ s a t, Inv s → step s a = some t → measure t < measure s) {s t : State} {actions : List Action}
    (holds : Inv s) (run : exec step s actions = some t) : actions.length + measure t ≤ measure s := by
  induction actions generalizing s with
  | nil =>
    cases run
    simp
  | cons a rest ih =>
    obtain ⟨m, taken, onward⟩ := exec_cons_iff.mp run
    have after := ih (kept s a m holds taken) onward
    have here := lower s a m holds taken
    rw [List.length_cons]
    omega

/-- So some run goes on until no step can be taken. -/
theorem exists_terminal {Inv : State → Prop} {measure : State → ℕ}
    (kept : ∀ s a t, Inv s → step s a = some t → Inv t)
    (lower : ∀ s a t, Inv s → step s a = some t → measure t < measure s) {s : State} (holds : Inv s) :
    ∃ t, Reachable step s t ∧ ∀ a, step t a = none := by
  induction size : measure s using Nat.strongRecOn generalizing s with
  | ind n ih =>
    by_cases stopped : ∀ a, step s a = none
    · exact ⟨s, ⟨[], rfl⟩, stopped⟩
    · obtain ⟨a, goes⟩ := not_forall.mp stopped
      obtain ⟨m, taken⟩ := Option.ne_none_iff_exists'.mp goes
      obtain ⟨t, ⟨actions, run⟩, last⟩ := ih _ (size ▸ lower s a m holds taken) (kept s a m holds taken) rfl
      exact ⟨t, ⟨a :: actions, exec_cons_iff.mpr ⟨m, taken, run⟩⟩, last⟩

/-- A condition that follows from an invariant is met by every step of a run. -/
theorem allSteps_of {cond met : State → Action → Prop} {Inv : State → Prop}
    (kept : ∀ s a t, Inv s → cond s a → step s a = some t → Inv t)
    (gives : ∀ s a, Inv s → cond s a → met s a) {s : State} {actions : List Action}
    (holds : Inv s) (all : AllSteps step cond s actions) : AllSteps step met s actions := by
  induction actions generalizing s with
  | nil => trivial
  | cons a rest ih =>
    exact ⟨gives s a holds all.1, fun t taken => ih (kept s a t holds all.1 taken) (all.2 t taken)⟩

/-- A condition on a step that follows from what holds before and after it. -/
theorem allSteps_of_states {P : State → Prop} {met : State → Action → Prop}
    (gives : ∀ s a, P s → (∀ t, step s a = some t → P t) → met s a) {s : State} {actions : List Action}
    (all : AllStates step P s actions) : AllSteps step met s actions := by
  induction actions generalizing s with
  | nil => trivial
  | cons a rest ih =>
    exact ⟨gives s a all.1 fun t taken => allStates_head (all.2 t taken), fun t taken => ih (all.2 t taken)⟩

theorem allSteps_all {cond : State → Action → Prop} (met : ∀ s a, cond s a) (s : State) (actions : List Action) :
    AllSteps step cond s actions := by
  induction actions generalizing s with
  | nil => trivial
  | cons a rest ih => exact ⟨met s a, fun t _ => ih t⟩

theorem allSteps_and {first second : State → Action → Prop} {s : State} {actions : List Action}
    (left : AllSteps step first s actions) (right : AllSteps step second s actions) :
    AllSteps step (fun s a => first s a ∧ second s a) s actions := by
  induction actions generalizing s with
  | nil => trivial
  | cons a rest ih => exact ⟨⟨left.1, right.1⟩, fun t taken => ih (left.2 t taken) (right.2 t taken)⟩

/-- A relation between a state and what was seen before it, kept by every step that meets the condition, holds at the
    end of a run whose steps all meet it. -/
theorem exec_trace_of {Event : Type w} {event : State → Action → List Event} {cond : State → Action → Prop}
    {Inv : State → List Event → Prop}
    (kept : ∀ s past a t, Inv s past → cond s a → step s a = some t → Inv t (past ++ event s a)) {s t : State}
    {past : List Event} {actions : List Action} (holds : Inv s past) (all : AllSteps step cond s actions)
    (run : exec step s actions = some t) : Inv t (past ++ trace step event s actions) := by
  induction actions generalizing s past with
  | nil =>
    cases run
    rwa [trace, List.append_nil]
  | cons a rest ih =>
    obtain ⟨m, taken, onward⟩ := exec_cons_iff.mp run
    rw [trace, taken, Option.elim_some, ← List.append_assoc]
    exact ih (kept s past a m holds all.1 taken) (all.2 m taken) onward

/-- A relation between a state and what was seen before it, kept by every step, holds at the end of a run. -/
theorem exec_trace {Event : Type w} {event : State → Action → List Event} {Inv : State → List Event → Prop}
    (kept : ∀ s past a t, Inv s past → step s a = some t → Inv t (past ++ event s a)) {s t : State}
    {past : List Event} {actions : List Action} (holds : Inv s past) (run : exec step s actions = some t) :
    Inv t (past ++ trace step event s actions) :=
  have all : AllSteps step (fun _ _ => True) s actions := allSteps_all (fun _ _ => trivial) s actions
  exec_trace_of (fun s past a t inv _ taken => kept s past a t inv taken) holds all run

/-- A condition on the actions alone. -/
theorem allSteps_mem {met : Action → Prop} (s : State) {actions : List Action} (all : ∀ a ∈ actions, met a) :
    AllSteps step (fun _ a => met a) s actions := by
  induction actions generalizing s with
  | nil => trivial
  | cons a rest ih =>
    exact ⟨all a (List.mem_cons_self ..), fun t _ => ih t fun b inside => all b (List.mem_cons_of_mem _ inside)⟩

theorem allSteps_append {cond : State → Action → Prop} {s : State} {first second : List Action} :
    AllSteps step cond s (first ++ second) ↔
      AllSteps step cond s first ∧ ∀ t, exec step s first = some t → AllSteps step cond t second := by
  induction first generalizing s with
  | nil => simp [AllSteps]
  | cons a rest ih =>
    simp only [List.cons_append, AllSteps, ih, exec_cons_iff]
    constructor
    · rintro ⟨here, later⟩
      refine ⟨⟨here, fun t taken => (later t taken).1⟩, ?_⟩
      rintro u ⟨t, taken, run⟩
      exact (later t taken).2 u run
    · rintro ⟨⟨here, later⟩, onward⟩
      exact ⟨here, fun t taken => ⟨later t taken, fun u run => onward u ⟨t, taken, run⟩⟩⟩

end

/-! ### From one system to another -/

/-- When every step of one system becomes a run of another, a run becomes a run. -/
theorem exec_map {Other : Type w} {Move : Type x} {step : State → Action → Option State}
    {move : Other → Move → Option Other} (view : State → Other) {Inv : State → Prop}
    (kept : ∀ s a t, Inv s → step s a = some t → Inv t)
    (simulates : ∀ s a t, Inv s → step s a = some t → ∃ moves, exec move (view s) moves = some (view t))
    {s t : State} {actions : List Action} (holds : Inv s) (run : exec step s actions = some t) :
    ∃ moves, exec move (view s) moves = some (view t) := by
  induction actions generalizing s with
  | nil => cases run; exact ⟨[], rfl⟩
  | cons a rest ih =>
    obtain ⟨m, taken, onward⟩ := exec_cons_iff.mp run
    obtain ⟨moves, moved⟩ := simulates s a m holds taken
    obtain ⟨more, movedOn⟩ := ih (kept s a m holds taken) onward
    exact ⟨moves ++ more, exec_append_iff.mpr ⟨view m, moved, movedOn⟩⟩

/-- When one system takes each step that a related state of another takes, and shows the same, it takes each run and
    shows the same. -/
theorem exec_simulates {Other : Type w} {Event : Type x} {step : State → Action → Option State}
    {event : State → Action → List Event} {move : Other → Action → Option Other} {shown : Other → Action → List Event}
    {Rel : Other → State → Prop}
    (simulates : ∀ o s a t, Rel o s → step s a = some t → ∃ q, move o a = some q ∧ Rel q t ∧ shown o a = event s a)
    {o : Other} {s t : State} {actions : List Action} (related : Rel o s) (run : exec step s actions = some t) :
    ∃ q, exec move o actions = some q ∧ Rel q t ∧ trace move shown o actions = trace step event s actions := by
  induction actions generalizing o s with
  | nil => cases run; exact ⟨o, rfl, related, rfl⟩
  | cons a rest ih =>
    obtain ⟨m, taken, onward⟩ := exec_cons_iff.mp run
    obtain ⟨p, moved, here, same⟩ := simulates o s a m related taken
    obtain ⟨q, movedOn, last, later⟩ := ih here onward
    refine ⟨q, exec_cons_iff.mpr ⟨p, moved, movedOn⟩, last, ?_⟩
    rw [trace, trace, moved, taken, Option.elim_some, Option.elim_some, same, later]

end OsyProg.Runs
