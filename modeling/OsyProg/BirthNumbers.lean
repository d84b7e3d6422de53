import OsyProg.Checksums
import OsyProg.Verbank

/-!
The check of a personal number. Its first six digits are a date, with 50 added to the
month of a woman, and the number is divisible by 11. `verification` of `rclib` and
`is_rc_ok` of `rcverlib` check the date, and divide the sum of the ten digits by 11
where they should divide the number (`accepts_iff`). The two tests differ unless 11
divides the sums over the even and over the odd places both, or neither their sum nor
their difference (`follows_rule_iff`).
-/
namespace OsyProg.BirthNumbers
open OsyProg.Bytes OsyProg.CStrings OsyProg.Checksums OsyProg.Verbank

/-- The two checks of a personal number. -/
inductive Check
  | verification      -- of rclib
  | isRcOk            -- of rcverlib
  deriving DecidableEq

def Check.Accepts : Check → ℤ → Prop
  | .verification, S => Library.Platny .rclib S
  | .isRcOk, S => Rcverlib.isRcOk S = true

/-! ### The rule -/

/-- The year, the month with its 50, and the day of a number of ten digits. -/
def yearOf (S : ℕ) : ℕ := if S / 10 ^ 8 < 54 then 2000 + S / 10 ^ 8 else 1900 + S / 10 ^ 8
def monthOf (S : ℕ) : ℕ := S / 10 ^ 6 % 100
def dayOf (S : ℕ) : ℕ := S / 10 ^ 4 % 100

/-- The first six digits are a date. -/
def Date (S : ℕ) : Prop :=
  (1 ≤ monthOf S ∧ monthOf S ≤ 12 ∨ 51 ≤ monthOf S ∧ monthOf S ≤ 62) ∧
    1 ≤ dayOf S ∧ (dayOf S : ℤ) ≤ daysInMonth (yearOf S) (monthOf S % 50 : ℕ)

instance (S : ℕ) : Decidable (Date S) := inferInstanceAs (Decidable (_ ∧ _))

def BirthNumber (S : ℕ) : Prop := Date S ∧ 11 ∣ S

instance (S : ℕ) : Decidable (BirthNumber S) := inferInstanceAs (Decidable (_ ∧ _))

/-! ### The digits -/

/-- The loop stores the digits with the highest one first. -/
theorem splitDigits_digits (i S : ℕ) (d : List ℤ) :
    splitDigits i S d = ((List.ofFn fun k : Fin i => ((digitsOf i S k.rev).val : ℤ)) ++ d, ((S / 10 ^ i : ℕ) : ℤ)) := by
  induction i generalizing S d with
  | zero => simp [splitDigits]
  | succ i ih =>
    have rest : (S : ℤ).tdiv 10 = (S / 10 : ℕ) := rfl
    have digit : (S : ℤ).tmod 10 = (S % 10 : ℕ) := rfl
    rw [splitDigits, rest, digit, ih, List.ofFn_succ_last, Nat.div_div_eq_div_mul, Nat.pow_succ']
    simp [Fin.rev_castSucc, digitsOf_succ, digitsOf_zero]

/-- The ten digits as the code stores them. -/
def digits (S : ℕ) : List ℤ := List.ofFn fun k : Fin 10 => ((digitsOf 10 S k.rev).val : ℤ)

theorem twoDigits_digits (S : ℕ) {i : ℕ} (inside : i < 9) : twoDigits (digits S) i = (S / 10 ^ (8 - i) % 100 : ℕ) := by
  have digit : ∀ k, k < 10 → (digits S).getD k 0 = (S / 10 ^ (9 - k) % 10 : ℕ) := by
    intro k place
    rw [digits, List.getD_eq_getElem?_getD, List.getElem?_ofFn, dif_pos place]
    simp only [Option.getD_some, digitsOf, Fin.val_rev]
    rw [show 10 - (k + 1) = 9 - k by omega]
  rw [twoDigits, digit i (by omega), digit (i + 1) (by omega), show 9 - (i + 1) = 8 - i by omega,
    show 9 - i = 8 - i + 1 by omega, Nat.pow_succ, ← Nat.div_div_eq_div_mul]
  omega

theorem digitSum_digits (S : ℕ) : digitSum (digits S) = (evenSum (digitsOf 10 S) + oddSum (digitsOf 10 S) : ℕ) := by
  have sum : digitSum (digits S) = (digits S).sum := by rw [digitSum, List.sum_eq_foldl]
  rw [sum, digits, List.sum_ofFn, evenSum_add_oddSum, Nat.cast_sum]
  exact Equiv.sum_comp Fin.revPerm fun k => ((digitsOf 10 S k).val : ℤ)

/-! ### The checks -/

/-- Both checks accept a date with a sum of digits divisible by 11. -/
theorem accepts_iff (check : Check) {S : ℕ} (ten : S < 10 ^ 10) :
    check.Accepts S ↔ Date S ∧ 11 ∣ evenSum (digitsOf 10 S) + oddSum (digitsOf 10 S) := by
  have code : check.Accepts S ↔ Rcverlib.isRcOk S = true := by
    cases check with
    | verification => exact (rclib_judges S).platny_iff
    | isRcOk => exact Iff.rfl
  have split : splitDigits 10 S [] = (digits S, 0) := by
    rw [splitDigits_digits, List.append_nil, Nat.div_eq_of_lt ten]
    rfl
  have year : twoDigits (digits S) 0 = (S / 10 ^ 8 : ℕ) := by
    rw [twoDigits_digits S (by decide), Nat.mod_eq_of_lt]
    omega
  have month : twoDigits (digits S) 2 = monthOf S := twoDigits_digits S (by decide)
  have day : twoDigits (digits S) 4 = dayOf S := twoDigits_digits S (by decide)
  have years : (if (54 : ℤ) ≤ (S / 10 ^ 8 : ℕ) then (1900 : ℤ) + (S / 10 ^ 8 : ℕ) else 2000 + (S / 10 ^ 8 : ℕ)) = yearOf S := by
    rw [yearOf]
    split <;> split <;> omega
  have elevens : ∀ sum : ℕ, (sum : ℤ).tmod 11 = 0 ↔ 11 ∣ sum := by
    intro sum
    rw [← Int.dvd_iff_tmod_eq_zero]
    exact Int.natCast_dvd_natCast (m := 11)
  rw [code, Rcverlib.isRcOk, split]
  simp only [lt_irrefl, if_false, year, month, day, digitSum_digits, years]
  generalize evenSum (digitsOf 10 S) + oddSum (digitsOf 10 S) = sum
  by_cases common : 1 ≤ monthOf S ∧ monthOf S ≤ 12
  · have here : 1 ≤ (monthOf S : ℤ) ∧ (monthOf S : ℤ) ≤ 12 := by omega
    have same : monthOf S % 50 = monthOf S := Nat.mod_eq_of_lt (by omega)
    simp [Date, common, here, same, elevens, and_assoc]
  · by_cases coded : 51 ≤ monthOf S ∧ monthOf S ≤ 62
    · have uncommon : ¬ (1 ≤ (monthOf S : ℤ) ∧ (monthOf S : ℤ) ≤ 12) := by omega
      have here : 51 ≤ (monthOf S : ℤ) ∧ (monthOf S : ℤ) ≤ 62 := by omega
      have woman : (monthOf S : ℤ) - 50 = (monthOf S % 50 : ℕ) := by omega
      have range : 1 ≤ ((monthOf S % 50 : ℕ) : ℤ) ∧ ((monthOf S % 50 : ℕ) : ℤ) ≤ 12 := by omega
      rw [if_neg uncommon, if_pos here, woman, Date]
      generalize ((monthOf S % 50 : ℕ) : ℤ) = mm at range ⊢
      simp [common, coded, range, elevens, and_assoc]
    · simp [Date, common, coded]

/-- A check follows the rule for exactly these numbers. -/
theorem follows_rule_iff (check : Check) {S : ℕ} (ten : S < 10 ^ 10) :
    (check.Accepts S ↔ BirthNumber S) ↔
      (Date S →
        11 ∣ evenSum (digitsOf 10 S) ∧ 11 ∣ oddSum (digitsOf 10 S) ∨
          ¬ 11 ∣ evenSum (digitsOf 10 S) + oddSum (digitsOf 10 S) ∧ ¬ evenSum (digitsOf 10 S) ≡ oddSum (digitsOf 10 S) [MOD 11]) := by
  have number : 11 ∣ S ↔ evenSum (digitsOf 10 S) ≡ oddSum (digitsOf 10 S) [MOD 11] := by
    have signs := numberOf_modEq (digitsOf 10 S)
    rw [numberOf_digitsOf ten] at signs
    unfold Int.ModEq at signs
    unfold Nat.ModEq
    omega
  have both : (11 ∣ evenSum (digitsOf 10 S) + oddSum (digitsOf 10 S) ∧ evenSum (digitsOf 10 S) ≡ oddSum (digitsOf 10 S) [MOD 11]) ↔
      11 ∣ evenSum (digitsOf 10 S) ∧ 11 ∣ oddSum (digitsOf 10 S) := by
    unfold Nat.ModEq
    omega
  rw [accepts_iff check ten, BirthNumber, number, and_congr_right_iff]
  refine imp_congr_right fun _ => ?_
  rw [← both]
  exact iff_iff_and_or_not_and_not

/-- 5401013332 is a birth number, of 1 January 1954, and passes. -/
theorem follows_rule_sample : BirthNumber 5401013332 ∧ Check.Accepts .verification (5401013332 : ℕ) := by
  have rule : BirthNumber 5401013332 := by decide
  exact ⟨rule, ((follows_rule_iff .verification (by decide)).mpr fun _ => .inl (by decide)).mpr rule⟩

/-- 9001010000 has the sum of digits 11 and passes, and 9001010007 is a birth number
    and does not. -/
theorem digit_sums :
    (¬ (Check.Accepts .verification (9001010000 : ℕ) ↔ BirthNumber 9001010000) ∧
        ¬ (Check.Accepts .isRcOk (9001010000 : ℕ) ↔ BirthNumber 9001010000)) ∧
      ¬ (Check.Accepts .verification (9001010007 : ℕ) ↔ BirthNumber 9001010007) ∧
        ¬ (Check.Accepts .isRcOk (9001010007 : ℕ) ↔ BirthNumber 9001010007) := by
  rw [accepts_iff _ (by decide), accepts_iff _ (by decide), accepts_iff _ (by decide), accepts_iff _ (by decide)]
  decide

end OsyProg.BirthNumbers
