import OsyProg.Runs
import Mathlib.Algebra.BigOperators.Fin
import Mathlib.Algebra.Order.BigOperators.Group.Finset
import Mathlib.Tactic.Abel

/-!
Processes that share a state. Each process is at a program point, and a step of one
process changes the shared state and its own point (`step`, `step_cases`). An
invariant often counts processes: how many hold the lock, how many have taken a
place and not filled it. Such a number is the total of a weight over the processes,
and a step changes it by the weights of the two points it goes between
(`total_update`); when a weight of one process accounts for a whole total, the
smaller weights of all others are zero (`total_eq_of_alone`).
-/
namespace OsyProg.Interleaving
open OsyProg.Runs
universe u v w x y

/-- The shared state and the point of each process. -/
structure System (Shared : Type u) (Pc : Type v) (ι : Type w) where
  shared : Shared
  pc : ι → Pc

section
variable {Shared : Type u} {Pc : Type v} {ι : Type w} {Choice : Type x} [DecidableEq ι]

/-- A step of one process, which may have a choice. -/
def step (procStep : Shared → Pc → Choice → Option (Shared × Pc)) (s : System Shared Pc ι) (move : ι × Choice) :
    Option (System Shared Pc ι) :=
  (procStep s.shared (s.pc move.1) move.2).map fun r => { shared := r.1, pc := Function.update s.pc move.1 r.2 }

theorem step_cases {procStep : Shared → Pc → Choice → Option (Shared × Pc)} {s t : System Shared Pc ι}
    {move : ι × Choice} (taken : step procStep s move = some t) :
    ∃ shared p, procStep s.shared (s.pc move.1) move.2 = some (shared, p) ∧
      t = { shared, pc := Function.update s.pc move.1 p } := by
  obtain ⟨⟨shared, p⟩, own, rfl⟩ := Option.map_eq_some_iff.mp taken
  exact ⟨shared, p, own, rfl⟩

/-- What holds of the process that has moved, and of the others, holds of all. -/
theorem forall_update {P : ι → Pc → Prop} {pc : ι → Pc} {i : ι} {p : Pc} (others : ∀ j, j ≠ i → P j (pc j))
    (its : P i p) : ∀ j, P j (Function.update pc i p j) :=
  (Function.forall_update_iff pc P).mpr ⟨its, others⟩

/-! ### Totals -/

variable [Fintype ι] {A : Type y} [AddCommGroup A]

/-- The total of a weight over the points of all processes. -/
def total (weight : Pc → A) (pc : ι → Pc) : A := ∑ i, weight (pc i)

theorem total_eq_add (weight : Pc → A) (pc : ι → Pc) (i : ι) :
    total weight pc = weight (pc i) + ∑ j ∈ Finset.univ.erase i, weight (pc j) :=
  (Finset.add_sum_erase _ _ (Finset.mem_univ i)).symm

theorem total_update (weight : Pc → A) (pc : ι → Pc) (i : ι) (p : Pc) :
    total weight (Function.update pc i p) + weight (pc i) = total weight pc + weight p := by
  have others : ∑ j ∈ Finset.univ.erase i, weight (Function.update pc i p j) =
      ∑ j ∈ Finset.univ.erase i, weight (pc j) := by
    apply Finset.sum_congr rfl
    intro j other
    rw [Function.update_of_ne (Finset.ne_of_mem_erase other)]
  rw [total_eq_add weight _ i, total_eq_add weight pc i, others, Function.update_self]
  abel

theorem total_update_two (weight : Pc → A) (pc : ι → Pc) {i j : ι} (other : j ≠ i) (p q : Pc) :
    total weight (Function.update (Function.update pc i p) j q) + (weight (pc i) + weight (pc j)) =
      total weight pc + (weight p + weight q) := by
  have first := total_update weight pc i p
  have second := total_update weight (Function.update pc i p) j q
  rw [Function.update_of_ne other] at second
  rw [add_comm (weight (pc i)), ← add_assoc, second, add_right_comm, first]
  abel

/-- What every step of a process on its own conserves, a step of the system conserves. -/
theorem step_conserves {procStep : Shared → Pc → Choice → Option (Shared × Pc)} (law : Shared → A) (weight : Pc → A)
    (conserves : ∀ s p c s' p', procStep s p c = some (s', p') → law s' + weight p' = law s + weight p)
    {s t : System Shared Pc ι} {move : ι × Choice} (taken : step procStep s move = some t) :
    law t.shared + total weight t.pc = law s.shared + total weight s.pc := by
  obtain ⟨shared, p, own, rfl⟩ := step_cases taken
  have here := conserves _ _ _ _ _ own
  have there := total_update weight s.pc move.1 p
  refine add_right_cancel (b := weight (s.pc move.1)) ?_
  rw [add_assoc, there, ← add_assoc, add_right_comm, here]
  abel

omit [DecidableEq ι] in
theorem total_eq_zero {weight : Pc → A} {pc : ι → Pc} (zero : ∀ i, weight (pc i) = 0) : total weight pc = 0 :=
  Finset.sum_eq_zero fun i _ => zero i

omit [DecidableEq ι] in
theorem total_nonneg {weight : Pc → ℤ} (nonneg : ∀ p, 0 ≤ weight p) (pc : ι → Pc) : 0 ≤ total weight pc :=
  Finset.sum_nonneg fun i _ => nonneg (pc i)

omit [DecidableEq ι] in
theorem le_total {weight : Pc → ℤ} (nonneg : ∀ p, 0 ≤ weight p) (pc : ι → Pc) (i : ι) :
    weight (pc i) ≤ total weight pc :=
  Finset.single_le_sum (f := fun j => weight (pc j)) (fun j _ => nonneg (pc j)) (Finset.mem_univ i)

/-- When a weight counts the processes at certain points, and process `i` accounts for
    its total, no other process is at such a point. -/
theorem zero_of_alone {count : Pc → ℤ} (nonneg : ∀ p, 0 ≤ count p) {pc : ι → Pc} {i j : ι}
    (alone : total count pc ≤ count (pc i)) (other : j ≠ i) : count (pc j) = 0 := by
  have atMost : ∑ j ∈ Finset.univ.erase i, count (pc j) ≤ 0 := by
    have := total_eq_add count pc i
    omega
  have single := Finset.single_le_sum (f := fun j => count (pc j)) (fun j _ => nonneg (pc j))
    (Finset.mem_erase.mpr ⟨other, Finset.mem_univ j⟩)
  have := nonneg (pc j)
  omega

/-- A weight that is zero elsewhere has then the total that `i` gives it. -/
theorem total_eq_of_alone {count : Pc → ℤ} {weight : Pc → A} (nonneg : ∀ p, 0 ≤ count p)
    (elsewhere : ∀ p, count p = 0 → weight p = 0) {pc : ι → Pc} {i : ι}
    (alone : total count pc ≤ count (pc i)) : total weight pc = weight (pc i) := by
  have others : ∀ j ∈ Finset.univ.erase i, weight (pc j) = 0 :=
    fun j other => elsewhere _ (zero_of_alone nonneg alone (Finset.ne_of_mem_erase other))
  rw [total_eq_add weight pc i, Finset.sum_eq_zero others, add_zero]

omit [DecidableEq ι] in
/-- The total of a weight that is one at certain points is the number of the processes there. -/
theorem total_eq_card (here : Pc → Prop) [DecidablePred here] (pc : ι → Pc) :
    total (fun p => if here p then (1 : ℤ) else 0) pc = (Finset.univ.filter fun i => here (pc i)).card :=
  Finset.sum_boole ..

end

end OsyProg.Interleaving
