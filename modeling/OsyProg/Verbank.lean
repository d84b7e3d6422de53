import OsyProg.CStrings

/-!
The three libraries `libver.so` of `JOP005_DU1/verbank`: `rclib` checks a number as a
personal number, `verlib` as the number of an account, and `rcverlib` as both. The
numbers of the code are integers here: a remainder lies between -9 and 9, so nothing
overflows. `rcverlib` accepts what the other two accept, and each library prints a
line for the valid numbers only when it is told to (`libraries_agree`).
-/
namespace OsyProg.Verbank
open OsyProg.Bytes OsyProg.CStrings

def platny : Bytes := ascii ['P', 'l', 'a', 't', 'n', 'y']
def neplatny : Bytes := ascii ['N', 'e', 'p', 'l', 'a', 't', 'n', 'y']

/-- The line with the given beginning, the number, and what is found of it. -/
def line (label : Bytes) (S : ℤ) (judgement : Bytes) : Bytes := label ++ ld010 S ++ ascii [':', ' '] ++ judgement ++ [10]

/-- `days_in_month`, which is the same in `rcverlib` and `rclib`. -/
def daysInMonth (y m : ℤ) : ℤ :=
  if m = 4 ∨ m = 6 ∨ m = 9 ∨ m = 11 then 30
  else if m = 2 then
    if y.tmod 4 = 0 ∧ (y.tmod 100 ≠ 0 ∨ y.tmod 400 = 0) then 29 else 28
  else 31

/-- The loop over `i` from 9 down to 0 that fills `d`, with what is left of the number. -/
def splitDigits : ℕ → ℤ → List ℤ → List ℤ × ℤ
  | 0, t, d => (d, t)
  | i + 1, t, d => splitDigits i (t.tdiv 10) (t.tmod 10 :: d)

/-- The loop that adds up the digits. -/
def digitSum (d : List ℤ) : ℤ := d.foldl (fun sum c => sum + c) 0

/-- The two digits from the given place on. -/
def twoDigits (d : List ℤ) (i : ℕ) : ℤ := d.getD i 0 * 10 + d.getD (i + 1) 0

abbrev Weights := Vector ℤ 10

/-- `weight` in `verbank.c`. -/
def weight : Weights := #v[1, 2, 4, 8, 5, 10, 9, 7, 3, 6]

/-! ### rcverlib -/

namespace Rcverlib

/-- The loop of `is_bank_ok`. -/
def bankSum : List ℤ → ℤ → ℤ → ℤ
  | [], _, sum => sum
  | w :: rest, x, sum => bankSum rest (x.tdiv 10) (sum + x.tmod 10 * w)

def isBankOk (S : ℤ) (w : Weights) : Bool := (bankSum w.toList S 0).tmod 11 = 0

def isRcOk (S : ℤ) : Bool :=
  let (d, t) := splitDigits 10 S []
  if 0 < t then false
  else
    let yy := twoDigits d 0
    let mmRaw := twoDigits d 2
    let dd := twoDigits d 4
    let mm := if 1 ≤ mmRaw ∧ mmRaw ≤ 12 then some mmRaw else if 51 ≤ mmRaw ∧ mmRaw ≤ 62 then some (mmRaw - 50) else none
    match mm with
    | none => false
    | some mm =>
      let year := if 54 ≤ yy then 1900 + yy else 2000 + yy
      if ¬ (1 ≤ mm ∧ mm ≤ 12 ∧ 1 ≤ dd ∧ dd ≤ daysInMonth year mm) then false else (digitSum d).tmod 11 = 0

def defaultW : Weights := #v[1, 2, 4, 8, 5, 10, 9, 7, 3, 6]

def label : Bytes := ascii ['R', 'C', ' ', 'a', 'j', ' ', 'B', 'A', 'N', 'K', ':', ' ']

def verification (S : ℤ) (weight : Option Weights) (valid : Bool) : Bytes :=
  let w := weight.getD defaultW
  let ok := isRcOk S && isBankOk S w
  if valid then
    if ok then ascii ['P', 'l', 'a', 't', 'n', 'e', ':', ' '] ++ ld010 S ++ [10] else []
  else line label S (if ok then platny else neplatny)

end Rcverlib

/-! ### rclib -/

namespace Rclib

def label : Bytes := ascii ['R', 'C', ':', ' ']

def verification (S : ℤ) (onlyValid : Bool) : Bytes :=
  let (d, tmp) := splitDigits 10 S []
  if 0 < tmp then if !onlyValid then line label S neplatny else []
  else
    let yearNum := twoDigits d 0
    let monthRaw := twoDigits d 2
    let dayNum := twoDigits d 4
    let monthNum :=
      if 1 ≤ monthRaw ∧ monthRaw ≤ 12 then monthRaw else if 51 ≤ monthRaw ∧ monthRaw ≤ 62 then monthRaw - 50 else -1
    let year := if 54 ≤ yearNum then 1900 + yearNum else 2000 + yearNum
    let okDate : Bool := 1 ≤ monthNum ∧ monthNum ≤ 12 ∧ 1 ≤ dayNum ∧ dayNum ≤ daysInMonth year monthNum
    let okMod11 : Bool := (digitSum d).tmod 11 = 0
    let ok := okDate && okMod11
    if onlyValid then if ok then line label S platny else []
    else line label S (if ok then platny else neplatny)

end Rclib

/-! ### verlib -/

namespace Verlib

/-- The loop of `verification`, which ends with the weights or when nothing is left of
    the number. -/
def bankSum : List ℤ → ℤ → ℤ → ℤ
  | [], _, sum => sum
  | w :: rest, bankNumber, sum =>
    if 0 < bankNumber then bankSum rest (bankNumber.tdiv 10) (sum + bankNumber.tmod 10 * w) else sum

def label : Bytes := ascii ['u', 'c', 'e', 't', ':', ' ']

def verification (S : ℤ) (weight : Weights) (valid : Bool) : Bytes :=
  let sum := bankSum weight.toList S 0
  (if valid ∧ sum.tmod 11 = 0 then line label S platny else []) ++
    (if !valid then line label S (if sum.tmod 11 = 0 then platny else neplatny) else [])

end Verlib

/-! ### What the libraries find -/

inductive Library
  | rcverlib
  | rclib
  | verlib
  deriving DecidableEq

def Library.label : Library → Bytes
  | .rcverlib => Rcverlib.label
  | .rclib => Rclib.label
  | .verlib => Verlib.label

/-- A call of `verification` with the table of `verbank.c`. -/
def Library.verification (library : Library) (S : ℤ) (onlyValid : Bool) : Bytes :=
  match library with
  | .rcverlib => Rcverlib.verification S (some weight) onlyValid
  | .rclib => Rclib.verification S onlyValid
  | .verlib => Verlib.verification S weight onlyValid

/-- The library judges the number `Platny`: without the flag it prints this line. -/
def Library.Platny (library : Library) (S : ℤ) : Prop := library.verification S false = line library.label S platny

/-- One line of output. -/
def IsLine (output : Bytes) : Prop := ∃ text, output = text ++ [10] ∧ 10 ∉ text

/-! ### The lines -/

theorem line_isLine {label judgement : Bytes} (S : ℤ) (plain : 10 ∉ label ∧ 10 ∉ judgement) : IsLine (line label S judgement) := by
  refine ⟨_, rfl, ?_⟩
  have colon : 10 ∉ ascii [':', ' '] := by decide
  simp only [List.mem_append, not_or]
  exact ⟨⟨⟨plain.1, ld010_plain S⟩, colon⟩, plain.2⟩

theorem line_platny {label : Bytes} {S : ℤ} {ok : Bool} :
    line label S (if ok then platny else neplatny) = line label S platny ↔ ok = true := by
  cases ok with
  | true => simp
  | false =>
    have apart : neplatny ≠ platny := by decide
    simp [line, apart]

/-- The library prints what `ok` is, and with the flag one line if `ok` holds. -/
structure Judges (library : Library) (S : ℤ) (ok : Bool) : Prop where
  judged : library.verification S false = line library.label S (if ok then platny else neplatny)
  printed : ok = true → IsLine (library.verification S true)
  silent : ok = false → library.verification S true = []

theorem Judges.platny_iff {library : Library} {S : ℤ} {ok : Bool} (judges : Judges library S ok) :
    library.Platny S ↔ ok = true := by
  rw [Library.Platny, judges.judged]
  exact line_platny

theorem rcverlib_judges (S : ℤ) : Judges .rcverlib S (Rcverlib.isRcOk S && Rcverlib.isBankOk S weight) where
  judged := rfl
  printed := by
    intro ok
    simp only [Library.verification, Rcverlib.verification, Option.getD_some, ok, if_true]
    refine ⟨_, rfl, ?_⟩
    have label : 10 ∉ ascii ['P', 'l', 'a', 't', 'n', 'e', ':', ' '] := by decide
    simp only [List.mem_append, not_or]
    exact ⟨label, ld010_plain S⟩
  silent := fun bad => by simp [Library.verification, Rcverlib.verification, bad]

/-- `rclib` judges the date and the digits as `is_rc_ok` does, with a flag in the place
    of the early returns. -/
theorem rclib_verification (S : ℤ) (onlyValid : Bool) :
    Rclib.verification S onlyValid =
      if Rcverlib.isRcOk S then line Rclib.label S platny else if onlyValid then [] else line Rclib.label S neplatny := by
  unfold Rclib.verification Rcverlib.isRcOk
  generalize splitDigits 10 S [] = split
  obtain ⟨d, t⟩ := split
  by_cases left : 0 < t
  · cases onlyValid <;> simp [left]
  · simp only [if_neg left]
    generalize twoDigits d 2 = month
    by_cases common : 1 ≤ month ∧ month ≤ 12
    · simp only [if_pos common]
      cases onlyValid <;> grind
    · by_cases coded : 51 ≤ month ∧ month ≤ 62
      · simp only [if_neg common, if_pos coded]
        cases onlyValid <;> grind
      · simp only [if_neg common, if_neg coded]
        cases onlyValid <;> simp

theorem rclib_judges (S : ℤ) : Judges .rclib S (Rcverlib.isRcOk S) := by
  have lines : ∀ onlyValid, Library.verification .rclib S onlyValid = _ := rclib_verification S
  refine ⟨?_, ?_, ?_⟩
  · rw [lines]
    cases Rcverlib.isRcOk S <;> rfl
  · intro ok
    rw [lines, if_pos ok]
    exact line_isLine S (by decide)
  · intro bad
    rw [lines, bad]
    rfl

theorem verlib_judges (S : ℤ) : Judges .verlib S ((Verlib.bankSum weight.toList S 0).tmod 11 = 0) where
  judged := by simp [Library.verification, Library.label, Verlib.verification]
  printed := by
    intro ok
    have output : Library.verification .verlib S true = line Verlib.label S platny := by
      simp [Library.verification, Verlib.verification, of_decide_eq_true ok]
    rw [output]
    exact line_isLine S (by decide)
  silent := fun bad => by simp [Library.verification, Verlib.verification, of_decide_eq_false bad]

/-! ### The sums over the digits -/

theorem bankSum_zero (w : List ℤ) (sum : ℤ) : Rcverlib.bankSum w 0 sum = sum := by
  induction w with
  | nil => rfl
  | cons weight rest ih =>
    rw [Rcverlib.bankSum, Int.zero_tdiv, Int.zero_tmod, Int.zero_mul, Int.add_zero]
    exact ih

/-- For a number that is not negative it makes no difference to stop at zero. -/
theorem bankSum_eq (w : List ℤ) {x : ℤ} (nonneg : 0 ≤ x) (sum : ℤ) : Verlib.bankSum w x sum = Rcverlib.bankSum w x sum := by
  induction w generalizing x sum with
  | nil => rfl
  | cons weight rest ih =>
    by_cases more : 0 < x
    · rw [Verlib.bankSum, if_pos more, Rcverlib.bankSum]
      exact ih (Int.tdiv_nonneg nonneg (by decide)) _
    · obtain rfl : x = 0 := by omega
      rw [bankSum_zero, Verlib.bankSum, if_neg more]

/-- The digits of a number that is not positive are not positive. -/
theorem splitDigits_nonpos {i : ℕ} {t : ℤ} {d : List ℤ} (nonpos : t ≤ 0) (digits : ∀ c ∈ d, c ≤ 0) :
    ∀ c ∈ (splitDigits i t d).1, c ≤ 0 := by
  induction i generalizing t d with
  | zero => exact digits
  | succ i ih =>
    obtain ⟨n, rfl⟩ : ∃ n : ℕ, t = -n := ⟨t.natAbs, by omega⟩
    have rest : (-(n : ℤ)).tdiv 10 ≤ 0 := by
      rw [Int.neg_tdiv]
      have := Int.tdiv_nonneg (Int.natCast_nonneg n) (show (0 : ℤ) ≤ 10 by decide)
      omega
    have digit : (-(n : ℤ)).tmod 10 ≤ 0 := by
      rw [Int.neg_tmod]
      have := Int.tmod_nonneg 10 (Int.natCast_nonneg n)
      omega
    refine ih rest fun c inside => ?_
    rcases List.mem_cons.mp inside with rfl | old
    · exact digit
    · exact digits c old

theorem twoDigits_nonpos {d : List ℤ} (digits : ∀ c ∈ d, c ≤ 0) (i : ℕ) : twoDigits d i ≤ 0 := by
  have each : ∀ k, d.getD k 0 ≤ 0 := by
    intro k
    rw [List.getD_eq_getElem?_getD]
    cases found : d[k]? with
    | none => exact Int.le_refl 0
    | some c => exact digits c (List.mem_of_getElem? found)
  have tens := each i
  have ones := each (i + 1)
  rw [twoDigits]
  omega

/-- A number with a valid month is positive. -/
theorem isRcOk_pos {S : ℤ} (ok : Rcverlib.isRcOk S = true) : 0 < S := by
  by_contra nonpos
  have month : twoDigits (splitDigits 10 S []).1 2 ≤ 0 :=
    twoDigits_nonpos (splitDigits_nonpos (by omega) fun c inside => by cases inside) 2
  have common : ¬ (1 ≤ twoDigits (splitDigits 10 S []).1 2 ∧ twoDigits (splitDigits 10 S []).1 2 ≤ 12) := by omega
  have coded : ¬ (51 ≤ twoDigits (splitDigits 10 S []).1 2 ∧ twoDigits (splitDigits 10 S []).1 2 ≤ 62) := by omega
  simp only [Rcverlib.isRcOk, if_neg common, if_neg coded, ite_self, Bool.false_eq_true] at ok

/-- `rcverlib` judges a number `Platny` exactly when `rclib` and `verlib` both do, and
    with the flag each library prints a line when it judges the number `Platny`, and
    nothing otherwise. -/
theorem libraries_agree (S : ℤ) :
    (Library.Platny .rcverlib S ↔ Library.Platny .rclib S ∧ Library.Platny .verlib S) ∧
      ∀ library : Library, (library.Platny S → IsLine (library.verification S true)) ∧
        (¬ library.Platny S → library.verification S true = []) := by
  have judged : ∀ library : Library, ∃ ok, Judges library S ok := by
    intro library
    cases library with
    | rcverlib => exact ⟨_, rcverlib_judges S⟩
    | rclib => exact ⟨_, rclib_judges S⟩
    | verlib => exact ⟨_, verlib_judges S⟩
  constructor
  · rw [(rcverlib_judges S).platny_iff, (rclib_judges S).platny_iff, (verlib_judges S).platny_iff, Bool.and_eq_true]
    refine and_congr_right fun ok => ?_
    rw [Rcverlib.isBankOk, bankSum_eq _ (Int.le_of_lt (isRcOk_pos ok))]
  · intro library
    obtain ⟨ok, judges⟩ := judged library
    rw [judges.platny_iff]
    exact ⟨judges.printed, fun bad => judges.silent (by simpa using bad)⟩

end OsyProg.Verbank
