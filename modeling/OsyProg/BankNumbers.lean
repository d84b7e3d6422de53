import OsyProg.Checksums
import OsyProg.Verbank
import Mathlib.Algebra.Field.ZMod

/-!
The check of the number of an account. The functions of `JOP005_DU1` form the sum of
the ten digits with the weights modulo 11 (`accepts_iff`); the weights are different
and not zero there, so a wrong digit or two digits in the wrong order do not pass
(`errors_found`). The loop of `DU01` is not limited to ten digits: it stays in its
array of eleven weights, and agrees with the later version, up to eleven digits
(`agrees_iff`).
-/
namespace OsyProg.BankNumbers
open OsyProg.Bytes OsyProg.CStrings OsyProg.Checksums OsyProg.Verbank

/-! ### Errors in a number -/

/-- The two checks of a number with the weights of `verbank.c`. -/
inductive Check
  | verification      -- of verlib
  | isBankOk          -- of rcverlib
  deriving DecidableEq

def Check.Accepts : Check → ℤ → Prop
  | .verification, S => Library.Platny .verlib S
  | .isBankOk, S => Rcverlib.isBankOk S weight = true

/-- The loop over the weights adds up the digits with their weights. -/
theorem bankSum_digits {m : ℕ} (w : Fin m → ℤ) (S : ℕ) (sum : ℤ) :
    Rcverlib.bankSum (List.ofFn w) S sum = sum + ∑ i, w i * (digitsOf m S i).val := by
  induction m generalizing S sum with
  | zero => simp [Rcverlib.bankSum]
  | succ m ih =>
    have rest : (S : ℤ).tdiv 10 = (S / 10 : ℕ) := rfl
    have digit : (S : ℤ).tmod 10 = (S % 10 : ℕ) := rfl
    rw [List.ofFn_succ, Rcverlib.bankSum, rest, digit, ih, Fin.sum_univ_succ, digitsOf_zero]
    simp only [digitsOf_succ]
    ring

instance eleven_prime : Fact (Nat.Prime 11) := ⟨by decide⟩

/-- A weight, and a digit, modulo 11. -/
def weightMod (i : Fin 10) : ZMod 11 := (weight.get i : ℤ)
def digitMod (c : Fin 10) : ZMod 11 := (c.val : ℤ)

theorem weightMod_ne_zero : ∀ i, weightMod i ≠ 0 := by decide

theorem weightMod_injective : Function.Injective weightMod := by decide

theorem digitMod_injective : Function.Injective digitMod := by decide

theorem bankSum_mod (S : ℕ) :
    (Rcverlib.bankSum weight.toList S 0).tmod 11 = 0 ↔ weightedSum weightMod (digitMod ∘ digitsOf 10 S) = 0 := by
  have list : weight.toList = List.ofFn weight.get := by decide
  have cast : weightedSum weightMod (digitMod ∘ digitsOf 10 S) = ((∑ i, weight.get i * (digitsOf 10 S i).val : ℤ) : ZMod 11) := by
    simp [weightedSum, weightMod, digitMod]
  rw [list, bankSum_digits, zero_add, cast, ZMod.intCast_zmod_eq_zero_iff_dvd]
  exact (Int.dvd_iff_tmod_eq_zero ..).symm

/-- Both checks form the weighted sum of the digits modulo 11. -/
theorem accepts_iff (check : Check) (S : ℕ) : check.Accepts S ↔ weightedSum weightMod (digitMod ∘ digitsOf 10 S) = 0 := by
  cases check with
  | verification =>
    rw [Check.Accepts, (verlib_judges S).platny_iff, decide_eq_true_iff, bankSum_eq _ (Int.natCast_nonneg S)]
    exact bankSum_mod S
  | isBankOk =>
    rw [Check.Accepts, Rcverlib.isBankOk, decide_eq_true_iff]
    exact bankSum_mod S

/-- A number of at most ten digits that is accepted is rejected with any one digit
    changed, and with any two different digits exchanged. -/
theorem errors_found (check : Check) {S : ℕ} (ten : S < 10 ^ 10) (accepted : check.Accepts S) :
    (∀ i c, c ≠ digitsOf 10 S i → ¬ check.Accepts (numberOf (Function.update (digitsOf 10 S) i c) : ℕ)) ∧
      ∀ i j, digitsOf 10 S i ≠ digitsOf 10 S j → ¬ check.Accepts (numberOf (digitsOf 10 S ∘ Equiv.swap i j) : ℕ) := by
  rw [← numberOf_digitsOf ten] at accepted
  generalize digitsOf 10 S = d at accepted ⊢
  have passes : weightedSum weightMod (digitMod ∘ d) = 0 := by
    have sum := (accepts_iff check (numberOf d)).mp accepted
    rwa [digitsOf_numberOf] at sum
  constructor
  · intro i c other
    rw [accepts_iff, digitsOf_numberOf, Function.comp_update]
    exact weightedSum_update_ne passes (weightMod_ne_zero i) fun same => other (digitMod_injective same)
  · intro i j other
    have weights : weightMod i ≠ weightMod j := fun same => other (congrArg d (weightMod_injective same))
    rw [accepts_iff, digitsOf_numberOf, ← Function.comp_assoc]
    exact weightedSum_swap_ne passes weights fun same => other (digitMod_injective same)

/-- 2000145399 is accepted, and not with 8 in the last place. -/
theorem errors_found_sample : Check.Accepts .verification (2000145399 : ℕ) ∧ ¬ Check.Accepts .verification (2000145398 : ℕ) := by
  have accepted : Check.Accepts .verification (2000145399 : ℕ) := (accepts_iff _ _).mpr (by decide)
  exact ⟨accepted, (errors_found .verification (by decide) accepted).1 0 8 (by decide)⟩

/-! ### The version of DU01 -/

namespace Du01

/-- `weight` in `DU01/verbank.cpp`, with the place that has no initial value. -/
def weight : Vector ℤ 11 := #v[1, 2, 4, 8, 5, 10, 9, 7, 3, 6, 0]

/-- A `long` stored into an `int`. -/
def toInt (value : ℤ) : ℤ := value.bmod (2 ^ 32)

/-- What the loop of `isValidBankNumber` adds up to in each round, before it is stored
    in `sum`; the loop does not look where the weights end. -/
def sums : List ℤ → ℤ → ℤ → Option (List ℤ)
  | [], num, _ => if 0 < num then none else some []
  | w :: rest, num, sum =>
    if 0 < num then
      let next := sum + num.tmod 10 * w
      (sums rest (num.tdiv 10) (toInt next)).map fun later => next :: later
    else some []

/-- `isValidBankNumber` with the array of `main`: its result, and what it prints. -/
def isValidBankNumber (S : ℤ) (onlyValid : Bool) : Option (Bool × Bytes) :=
  (sums weight.toList S 0).map fun values =>
    let isValid : Bool := (toInt (values.getLastD 0)).tmod 11 = 0
    let label := ascii ['C', 'i', 's', 'l', 'o', ' ', 'u', 'c', 't', 'u', ':', ' '] ++ decimalInt S ++ ascii [' ', '-', ' ']
    let platne := ascii ['p', 'l', 'a', 't', 'n', 'e', '\n']
    let neplatne := ascii ['n', 'e', 'p', 'l', 'a', 't', 'n', 'e', '\n']
    (isValid,
      if onlyValid then if isValid then label ++ platne else []
      else label ++ (if isValid then platne else neplatne) ++ [32])

/-- The loop uses places of the array only, the sum always fits into an `int`, and the
    result is what the later version judges. -/
structure Agrees (S : ℤ) : Prop where
  fits : ∃ values, sums weight.toList S 0 = some values ∧ ∀ value ∈ values, -2 ^ 31 ≤ value ∧ value < 2 ^ 31
  judged : ∀ onlyValid, ∃ isValid output,
    isValidBankNumber S onlyValid = some (isValid, output) ∧ (isValid = true ↔ Library.Platny .verlib S)

/-- The weights are used up by the first number with more digits. -/
theorem sums_eq_none {weights : List ℤ} {S : ℕ} (long : 10 ^ weights.length ≤ S) (sum : ℤ) : sums weights S sum = none := by
  induction weights generalizing S sum with
  | nil =>
    rw [sums, if_pos]
    have : 1 ≤ S := long
    omega
  | cons w rest ih =>
    have positive : (0 : ℤ) < S := by
      have := Nat.pow_pos (n := (w :: rest).length) (show 0 < 10 by decide)
      omega
    have further : 10 ^ rest.length ≤ S / 10 := by
      rw [List.length_cons, Nat.pow_succ] at long
      omega
    rw [sums, if_pos positive]
    show (sums rest (S / 10 : ℕ) _).map _ = none
    rw [ih further]
    rfl

theorem toInt_eq {value : ℤ} (nonneg : 0 ≤ value) (small : value < 2 ^ 31) : toInt value = value :=
  Int.bmod_eq_of_le (by omega) (by omega)

/-- With few enough weights from 0 to 10 the sum fits, and is that of the later
    version. -/
theorem sums_eq_some {weights : List ℤ} (small : ∀ w ∈ weights, 0 ≤ w ∧ w ≤ 10) {S : ℕ} (short : S < 10 ^ weights.length)
    {sum : ℤ} (nonneg : 0 ≤ sum) (room : sum + 90 * weights.length < 2 ^ 31) :
    ∃ values, sums weights S sum = some values ∧ (∀ value ∈ values, -2 ^ 31 ≤ value ∧ value < 2 ^ 31) ∧
      toInt (values.getLastD sum) = Verlib.bankSum weights S sum := by
  induction weights generalizing S sum with
  | nil =>
    obtain rfl : S = 0 := Nat.lt_one_iff.mp short
    have last : toInt sum = sum := toInt_eq nonneg (by omega)
    exact ⟨[], rfl, fun value inside => (by cases inside), last⟩
  | cons w rest ih =>
    rw [List.length_cons] at room
    rw [sums, Verlib.bankSum]
    by_cases positive : (0 : ℤ) < S
    · rw [if_pos positive, if_pos positive]
      obtain ⟨low, high⟩ := small w (List.mem_cons_self ..)
      have digit : (S : ℤ).tmod 10 = (S % 10 : ℕ) := rfl
      have term : 0 ≤ (S : ℤ).tmod 10 * w ∧ (S : ℤ).tmod 10 * w ≤ 90 := by
        rw [digit]
        have below : S % 10 < 10 := Nat.mod_lt _ (by decide)
        constructor
        · exact Int.mul_nonneg (Int.natCast_nonneg _) low
        · calc ((S % 10 : ℕ) : ℤ) * w ≤ 9 * 10 := Int.mul_le_mul (by omega) high low (by decide)
            _ = 90 := rfl
      have next : toInt (sum + (S : ℤ).tmod 10 * w) = sum + (S : ℤ).tmod 10 * w := toInt_eq (by omega) (by omega)
      have left : S / 10 < 10 ^ rest.length := by
        rw [List.length_cons, Nat.pow_succ] at short
        omega
      have start : 0 ≤ sum + (S : ℤ).tmod 10 * w := by omega
      obtain ⟨values, added, fits, last⟩ := ih (fun v inside => small v (List.mem_cons_of_mem _ inside)) left start (by omega)
      have tail : (S : ℤ).tdiv 10 = (S / 10 : ℕ) := rfl
      refine ⟨(sum + (S : ℤ).tmod 10 * w) :: values, ?_, ?_, ?_⟩
      · simp only [next, tail, added, Option.map_some]
      · intro value inside
        rcases List.mem_cons.mp inside with rfl | later
        · omega
        · exact fits value later
      · rw [List.getLastD_cons, tail]
        exact last
    · have last : toInt sum = sum := toInt_eq nonneg (by omega)
      rw [if_neg positive, if_neg positive]
      exact ⟨[], rfl, fun value inside => (by cases inside), last⟩

/-- The last of the eleven weights adds nothing. -/
theorem bankSum_zeros (weights : List ℤ) (S sum : ℤ) : Verlib.bankSum (weights ++ [0]) S sum = Verlib.bankSum weights S sum := by
  induction weights generalizing S sum with
  | nil => simp [Verlib.bankSum]
  | cons w rest ih =>
    rw [List.cons_append, Verlib.bankSum, Verlib.bankSum, ih]

/-- For a number that is not negative, the older version stays in its array, does not
    overflow and judges like the later one exactly when the number has at most eleven
    digits. -/
theorem agrees_iff (S : ℕ) : Agrees S ↔ S < 10 ^ 11 := by
  constructor
  · rintro ⟨⟨values, added, -⟩, -⟩
    by_contra long
    rw [sums_eq_none (by show 10 ^ 11 ≤ S; omega)] at added
    cases added
  · intro short
    have small : ∀ w ∈ weight.toList, 0 ≤ w ∧ w ≤ 10 := by decide
    obtain ⟨values, added, fits, last⟩ := sums_eq_some small short (le_refl 0) (by decide)
    have list : weight.toList = Verbank.weight.toList ++ [0] := by decide
    rw [list, bankSum_zeros] at last
    refine ⟨⟨values, added, fits⟩, ?_⟩
    intro onlyValid
    rw [isValidBankNumber, added]
    refine ⟨_, _, rfl, ?_⟩
    rw [(verlib_judges S).platny_iff, last]

/-- A number of twelve digits makes the loop read behind the array. -/
theorem twelve_digits : ¬ Agrees 100000000000 := by
  rintro ⟨⟨values, added, -⟩, -⟩
  have none : sums weight.toList 100000000000 0 = none := by decide
  rw [none] at added
  cases added

end Du01

end OsyProg.BankNumbers
