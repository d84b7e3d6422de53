import OsyProg.Interleaving

/-!
Threads with condition variables. A thread at a wait is taken from it by a signal of
its condition, which wakes one of the threads that wait for it when there is one, or
by a spurious wake-up (`step`, `step_cases`). What a thread does otherwise is up to
the program (`Monitor`). A balance that the statements of each thread keep, and that
waking and signalling do not touch, is kept by every step (`step_conserves`).
-/
namespace OsyProg.Conditions
open OsyProg.Interleaving
universe u v w x y

/-- A program of threads: its statements but for the signals, what a thread waits for and
    where it goes on when it is woken, what it signals and where it goes on after it. -/
structure Monitor (Shared : Type u) (Pc : Type v) (Cond : Type w) where
  own : Shared → Pc → Option (Shared × Pc)
  waitsFor : Pc → Option Cond
  woken : Pc → Pc
  signals : Pc → Option Cond
  signalled : Pc → Pc
  apart : ∀ p, (waitsFor p).isSome → signals p = none

/-- A thread takes its next statement, waking nobody; it signals and wakes a thread; or
    a thread is woken by nobody. -/
inductive Move (ι : Type x)
  | run (t : ι)
  | wake (t w : ι)
  | spurious (w : ι)
  deriving DecidableEq

def Move.Spurious {ι : Type x} : Move ι → Prop
  | .spurious _ => True
  | _ => False

section
variable {Shared : Type u} {Pc : Type v} {Cond : Type w} {ι : Type x} [DecidableEq Cond] [DecidableEq ι] [Fintype ι]

def step (m : Monitor Shared Pc Cond) (s : System Shared Pc ι) : Move ι → Option (System Shared Pc ι)
  | .run t =>
    match m.signals (s.pc t) with
    | none => (m.own s.shared (s.pc t)).map fun r => { shared := r.1, pc := Function.update s.pc t r.2 }
    | some c =>
      if ∃ w, m.waitsFor (s.pc w) = some c then none
      else some { s with pc := Function.update s.pc t (m.signalled (s.pc t)) }
  | .wake t w =>
    if m.signals (s.pc t) ≠ none ∧ m.waitsFor (s.pc w) = m.signals (s.pc t) then
      some { s with pc := Function.update (Function.update s.pc t (m.signalled (s.pc t))) w (m.woken (s.pc w)) }
    else none
  | .spurious w =>
    if m.waitsFor (s.pc w) ≠ none then some { s with pc := Function.update s.pc w (m.woken (s.pc w)) } else none

variable {m : Monitor Shared Pc Cond} {s t : System Shared Pc ι} {move : Move ι}

/-- All that a step does. -/
inductive Step (m : Monitor Shared Pc Cond) (s : System Shared Pc ι) : System Shared Pc ι → Prop
  | own {i : ι} {shared : Shared} {p : Pc} (plain : m.signals (s.pc i) = none)
    (taken : m.own s.shared (s.pc i) = some (shared, p)) : Step m s { shared, pc := Function.update s.pc i p }
  | unheard {i : ι} {c : Cond} (signals : m.signals (s.pc i) = some c) (nobody : ∀ w, m.waitsFor (s.pc w) ≠ some c) :
    Step m s { s with pc := Function.update s.pc i (m.signalled (s.pc i)) }
  | heard {i w : ι} {c : Cond} (signals : m.signals (s.pc i) = some c) (waits : m.waitsFor (s.pc w) = some c)
    (other : w ≠ i) :
    Step m s { s with pc := Function.update (Function.update s.pc i (m.signalled (s.pc i))) w (m.woken (s.pc w)) }
  | spurious {w : ι} {c : Cond} (waits : m.waitsFor (s.pc w) = some c) :
    Step m s { s with pc := Function.update s.pc w (m.woken (s.pc w)) }

theorem step_cases (taken : step m s move = some t) : Step m s t := by
  cases move with
  | run i =>
    simp only [step] at taken
    split at taken
    · next plain =>
      obtain ⟨⟨shared, p⟩, own, rfl⟩ := Option.map_eq_some_iff.mp taken
      exact .own plain own
    · next c signals =>
      split_ifs at taken with somebody
      cases taken
      exact .unheard signals fun w waits => somebody ⟨w, waits⟩
  | wake i w =>
    simp only [step] at taken
    split_ifs at taken with both
    obtain ⟨c, signals⟩ := Option.ne_none_iff_exists'.mp both.1
    have waits : m.waitsFor (s.pc w) = some c := both.2.trans signals
    cases taken
    refine .heard signals waits ?_
    rintro rfl
    rw [m.apart _ (Option.isSome_of_eq_some waits)] at signals
    cases signals
  | spurious w =>
    simp only [step] at taken
    split_ifs at taken with waits
    obtain ⟨c, waits⟩ := Option.ne_none_iff_exists'.mp waits
    cases taken
    exact .spurious waits

/-- A step is a statement of one thread, or a signal or a wake-up; these change nothing but
    where threads are, so what each thread keeps when it signals or is woken goes on to hold. -/
theorem step_quiet {P : ι → Pc → Prop} (holds : ∀ i, P i (s.pc i))
    (signalled : ∀ i p, (m.signals p).isSome → P i p → P i (m.signalled p))
    (woken : ∀ i p, (m.waitsFor p).isSome → P i p → P i (m.woken p)) (taken : step m s move = some t) :
    (∃ i shared p, m.signals (s.pc i) = none ∧ m.own s.shared (s.pc i) = some (shared, p) ∧
        t = { shared, pc := Function.update s.pc i p }) ∨
      (t.shared = s.shared ∧ ∀ i, P i (t.pc i)) := by
  have moved : ∀ (pc : ι → Pc) (i : ι) (p : Pc), (∀ j, P j (pc j)) → P i p → ∀ j, P j (Function.update pc i p j) :=
    fun pc i p all its => (Function.forall_update_iff pc P).mpr ⟨its, fun j _ => all j⟩
  cases step_cases taken with
  | @own i shared p plain own => exact .inl ⟨i, shared, p, plain, own, rfl⟩
  | @unheard i c signals nobody =>
    exact .inr ⟨rfl, moved _ _ _ holds (signalled i _ (Option.isSome_of_eq_some signals) (holds i))⟩
  | @heard i w c signals waits other =>
    have first := moved _ _ _ holds (signalled i _ (Option.isSome_of_eq_some signals) (holds i))
    exact .inr ⟨rfl, moved _ _ _ first (woken w _ (Option.isSome_of_eq_some waits) (holds w))⟩
  | @spurious w c waits =>
    exact .inr ⟨rfl, moved _ _ _ holds (woken w _ (Option.isSome_of_eq_some waits) (holds w))⟩

/-- A signal is never kept back: it wakes a thread that waits for it, or nobody. -/
theorem signal_enabled {i : ι} {c : Cond} (signals : m.signals (s.pc i) = some c) :
    ∃ move : Move ι, ¬ move.Spurious ∧ (step m s move).isSome := by
  by_cases somebody : ∃ w, m.waitsFor (s.pc w) = some c
  · obtain ⟨w, waits⟩ := somebody
    refine ⟨.wake i w, id, ?_⟩
    simp [step, signals, waits]
  · refine ⟨.run i, id, ?_⟩
    simp [step, signals, not_exists.mp somebody]

theorem own_enabled {i : ι} (plain : m.signals (s.pc i) = none) (goesOn : (m.own s.shared (s.pc i)).isSome) :
    ∃ move : Move ι, ¬ move.Spurious ∧ (step m s move).isSome :=
  ⟨.run i, id, by simp [step, plain, goesOn]⟩

/-! ### What every step conserves -/

variable {A : Type y} [AddCommGroup A]

/-- The weight of a thread is not changed by its signal, nor by being woken. -/
structure Steady (m : Monitor Shared Pc Cond) (weight : Pc → A) : Prop where
  signalled : ∀ p, (m.signals p).isSome → weight (m.signalled p) = weight p
  woken : ∀ p, (m.waitsFor p).isSome → weight (m.woken p) = weight p

theorem step_conserves (law : Shared → A) (weight : Pc → A) (steady : Steady m weight)
    (conserves : ∀ i shared p, m.own s.shared (s.pc i) = some (shared, p) →
      law shared + weight p = law s.shared + weight (s.pc i))
    (taken : step m s move = some t) : law t.shared + total weight t.pc = law s.shared + total weight s.pc := by
  have same : ∀ (pc : ι → Pc) (i : ι) (p : Pc), weight p = weight (pc i) →
      total weight (Function.update pc i p) = total weight pc := by
    intro pc i p equal
    have moved := total_update weight pc i p
    rw [equal] at moved
    exact add_right_cancel moved
  cases step_cases taken with
  | @own i shared p plain own =>
    have here := conserves i shared p own
    have there := total_update weight s.pc i p
    refine add_right_cancel (b := weight (s.pc i)) ?_
    rw [add_assoc, there, ← add_assoc, add_right_comm, here]
    abel
  | @unheard i c signals nobody =>
    rw [same _ _ _ (steady.signalled _ (Option.isSome_of_eq_some signals))]
  | @heard i w c signals waits other =>
    rw [same, same _ _ _ (steady.signalled _ (Option.isSome_of_eq_some signals))]
    rw [Function.update_of_ne other]
    exact steady.woken _ (Option.isSome_of_eq_some waits)
  | @spurious w c waits =>
    rw [same _ _ _ (steady.woken _ (Option.isSome_of_eq_some waits))]

end

end OsyProg.Conditions
