import Mathlib.Algebra.BigOperators.Fin
import Mathlib.Algebra.BigOperators.ModEq
import Mathlib.Algebra.Ring.Parity
import Mathlib.Logic.Equiv.Basic
import Mathlib.Tactic.Ring

/-!
Numbers as their decimal digits, and check digits. A number below `10 ^ m` and its `m`
digits, the lowest one first, determine each other (`numberOf_digitsOf`,
`digitsOf_numberOf`), and modulo 11 the number is the difference of the sums over the
even and the odd places (`numberOf_modEq`). A word over a ring passes a check when its weighted sum is zero;
without zero divisors, the check finds a change of one digit whose weight is not zero
(`weightedSum_update_ne`), and the exchange of two digits with different weights
(`weightedSum_swap_ne`).
-/
namespace OsyProg.Checksums

/-! ### Digits -/

section
variable {m : ℕ}

/-- The lowest `m` digits of a number. -/
def digitsOf (m S : ℕ) : Fin m → Fin 10 := fun i => ⟨S / 10 ^ i.val % 10, Nat.mod_lt _ (by decide)⟩

/-- The number with the given digits. -/
def numberOf (d : Fin m → Fin 10) : ℕ := ∑ i, (d i).val * 10 ^ i.val

theorem digitsOf_zero (m S : ℕ) : digitsOf (m + 1) S 0 = ⟨S % 10, Nat.mod_lt _ (by decide)⟩ := by
  simp [digitsOf]

theorem digitsOf_succ (S : ℕ) (i : Fin m) : digitsOf (m + 1) S i.succ = digitsOf m (S / 10) i := by
  simp [digitsOf, Nat.pow_succ', Nat.div_div_eq_div_mul]

theorem numberOf_succ (d : Fin (m + 1) → Fin 10) : numberOf d = (d 0).val + 10 * numberOf fun i => d i.succ := by
  rw [numberOf, Fin.sum_univ_succ, numberOf, Finset.mul_sum]
  simp only [Fin.val_zero, Nat.pow_zero, Nat.mul_one, Fin.val_succ, Nat.pow_succ]
  congr 1
  exact Finset.sum_congr rfl fun i _ => by ring

theorem numberOf_digitsOf {S : ℕ} (below : S < 10 ^ m) : numberOf (digitsOf m S) = S := by
  induction m generalizing S with
  | zero =>
    have zero : S = 0 := Nat.lt_one_iff.mp below
    simp [numberOf, zero]
  | succ m ih =>
    have rest := ih (S := S / 10) (by rw [Nat.pow_succ] at below; omega)
    rw [numberOf_succ, digitsOf_zero]
    simp only [digitsOf_succ, rest]
    omega

theorem digitsOf_numberOf (d : Fin m → Fin 10) : digitsOf m (numberOf d) = d := by
  induction m with
  | zero => exact funext fun i => i.elim0
  | succ m ih =>
    have first := (d 0).isLt
    have split := numberOf_succ d
    funext i
    refine Fin.cases ?_ (fun i => ?_) i
    · rw [digitsOf_zero, Fin.ext_iff]
      simp only
      omega
    · have rest : numberOf d / 10 = numberOf fun i => d i.succ := by omega
      rw [digitsOf_succ, rest, ih]

/-- The sum of the digits in the places of which `p` holds. -/
def placeSum (p : ℕ → Bool) (d : Fin m → Fin 10) : ℕ := ∑ i with p i.val, (d i).val

def evenSum (d : Fin m → Fin 10) : ℕ := placeSum (fun i => i % 2 = 0) d
def oddSum (d : Fin m → Fin 10) : ℕ := placeSum (fun i => ¬ i % 2 = 0) d

theorem evenSum_add_oddSum (d : Fin m → Fin 10) : evenSum d + oddSum d = ∑ i, (d i).val := by
  simp only [evenSum, oddSum, placeSum, decide_eq_true_eq]
  exact Finset.sum_filter_add_sum_filter_not ..

/-- Modulo 11 the digits count with alternating signs. -/
theorem numberOf_modEq (d : Fin m → Fin 10) : (numberOf d : ℤ) ≡ evenSum d - oddSum d [ZMOD 11] := by
  have signs : (evenSum d - oddSum d : ℤ) = ∑ i : Fin m, ((d i).val : ℤ) * (-1) ^ i.val := by
    have split := Finset.sum_filter_add_sum_filter_not Finset.univ (fun i : Fin m => i.val % 2 = 0)
      fun i => ((d i).val : ℤ) * (-1) ^ i.val
    simp only [evenSum, oddSum, placeSum, decide_eq_true_eq, Nat.cast_sum, sub_eq_add_neg, ← Finset.sum_neg_distrib, ← split]
    refine congrArg₂ (· + ·) ?_ ?_
    · refine Finset.sum_congr rfl fun i among => ?_
      rw [(Nat.even_iff.mpr (Finset.mem_filter.mp among).2).neg_one_pow, mul_one]
    · refine Finset.sum_congr rfl fun i among => ?_
      rw [(Nat.not_even_iff_odd.mp (mt Nat.even_iff.mp (Finset.mem_filter.mp among).2)).neg_one_pow, mul_neg_one]
  rw [signs, numberOf, Nat.cast_sum]
  refine Int.ModEq.sum fun i _ => ?_
  rw [Nat.cast_mul, Nat.cast_pow]
  have ten : ((10 : ℕ) : ℤ) ≡ -1 [ZMOD 11] := rfl
  exact (ten.pow i.val).mul_left _

end

/-! ### Weighted sums -/

section
variable {ι R : Type} [Fintype ι] [CommRing R]

def weightedSum (w d : ι → R) : R := ∑ i, w i * d i

variable [DecidableEq ι]

theorem weightedSum_update (w d : ι → R) (i : ι) (c : R) :
    weightedSum w (Function.update d i c) = weightedSum w d + w i * (c - d i) := by
  have others : ∑ j ∈ Finset.univ.erase i, w j * Function.update d i c j = ∑ j ∈ Finset.univ.erase i, w j * d j :=
    Finset.sum_congr rfl fun j other => by rw [Function.update_of_ne (Finset.ne_of_mem_erase other)]
  rw [weightedSum, weightedSum, ← Finset.add_sum_erase _ _ (Finset.mem_univ i),
    ← Finset.add_sum_erase _ (fun j => w j * d j) (Finset.mem_univ i), others, Function.update_self]
  ring

theorem weightedSum_swap (w d : ι → R) (i j : ι) :
    weightedSum w (d ∘ Equiv.swap i j) = weightedSum w d + (w i - w j) * (d j - d i) := by
  by_cases same : i = j
  · simp [same]
  · rw [Equiv.comp_swap_eq_update, weightedSum_update, weightedSum_update, Function.update_of_ne same]
    ring

variable [NoZeroDivisors R] {w d : ι → R} {i j : ι}

/-- A word that passes does not pass with one digit changed. -/
theorem weightedSum_update_ne (passes : weightedSum w d = 0) (weight : w i ≠ 0) {c : R} (other : c ≠ d i) :
    weightedSum w (Function.update d i c) ≠ 0 := by
  rw [weightedSum_update, passes, zero_add]
  exact mul_ne_zero weight (sub_ne_zero.mpr other)

/-- A word that passes does not pass with two different digits exchanged. -/
theorem weightedSum_swap_ne (passes : weightedSum w d = 0) (weights : w i ≠ w j) (digits : d i ≠ d j) :
    weightedSum w (d ∘ Equiv.swap i j) ≠ 0 := by
  rw [weightedSum_swap, passes, zero_add]
  exact mul_ne_zero (sub_ne_zero.mpr weights) (sub_ne_zero.mpr digits.symm)

end

end OsyProg.Checksums
