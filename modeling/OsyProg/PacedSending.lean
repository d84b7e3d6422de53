import Mathlib.Algebra.BigOperators.Group.List.Basic
import Mathlib.Algebra.Ring.Int.Defs
import Mathlib.Algebra.Ring.Nat
import Mathlib.Tactic.Ring

/-!
Files that are sent in pieces with a pause after each, so that all of them take a given
time together. `send_data` of `animal2` and of `animal3` and `sen_data` of `skuska_04`
divide the time by the number of whole buffers in the file, which is zero for a small
file and one less than the number of pieces for most others; `send_file_slow` of
`animal_done` divides by the number of pieces. `pieces` is that number (`spent_sendLoop`,
`spent_sendLoopAfter`), and `sending_iff` says for which sizes the pauses keep to the time.
-/
namespace OsyProg.PacedSending

/-! ### Conversions -/

/-- A number in an `int`, and an `int` in a `size_t` or in the argument of `usleep`. -/
def asInt (value : ℤ) : ℤ := value.bmod (2 ^ 32)
def asSize (value : ℤ) : ℕ := (value % 2 ^ 64).toNat
def asUsec (value : ℤ) : ℕ := (value % 2 ^ 32).toNat

theorem asInt_self {value : ℕ} (int : value < 2 ^ 31) : asInt value = value := by
  rw [asInt, Int.bmod_def]
  split <;> omega

theorem asSize_asInt {value : ℕ} (int : value < 2 ^ 31) : asSize (asInt value) = value := by
  rw [asInt_self int, asSize]
  omega

theorem asUsec_self {value : ℕ} (int : value < 2 ^ 31) : asUsec value = value := by
  rw [asUsec]
  omega

/-! ### Sending -/

/-- A piece that was written, and the microseconds after it. -/
structure Round where
  bytes : ℕ
  pause : ℕ
  deriving DecidableEq

/-- The loop that ends before it writes when `read` has got nothing. -/
def sendLoop (buf pause left : ℕ) : List Round :=
  let n := min buf left
  if n = 0 then [] else { bytes := n, pause } :: sendLoop buf pause (left - n)
termination_by left
decreasing_by omega

/-- The loop that ends only after it has written and paused. -/
def sendLoopAfter (buf pause left : ℕ) : List Round :=
  let n := min buf left
  { bytes := n, pause } :: if n = 0 then [] else sendLoopAfter buf pause (left - n)
termination_by left
decreasing_by omega

/-- `tout`: a time divided by the number of whole buffers in a file, with no result when
    that is zero. -/
def tout (units buf : ℕ) (size : ℤ) : Option ℤ :=
  let whole := asSize size / buf
  if whole = 0 then none else some (asInt (units / whole : ℕ))

/-- `send_data` of `animal2` for a file of the given size. -/
def animal2 (size : ℕ) : Option (List Round) :=
  (tout 5000 4096 (asInt size)).map fun tout => sendLoop 4096 (asUsec (tout * 1000)) size

/-- `send_data` of `animal3`. -/
def animal3 (size : ℕ) : Option (List Round) :=
  (tout 5000 80096 (asInt size)).map fun tout => sendLoopAfter 80096 (asUsec (tout * 1000)) size

/-- `sen_data` of `skuska_04`. -/
def skuska04 (size : ℕ) : Option (List Round) :=
  (tout (3000 * 1000) 4096 (asInt size)).map fun tout => sendLoopAfter 4096 (asUsec tout) size

/-- `send_file_slow` of `animal_done`; `st_size` and `chunks` are of type `long long`. -/
def animalDone (totalTime : ℤ) (size : ℕ) : Option (List Round) :=
  let chunks := max ((size + 4096 - 1) / 4096) 1
  if chunks = 0 then none else some (sendLoop 4096 (asUsec (asInt (totalTime.tdiv chunks))) size)

/-! ### The time that is spent -/

/-- The pauses after the pieces that are not empty. -/
def spent (rounds : List Round) : ℕ := ((rounds.filter fun r => r.bytes ≠ 0).map Round.pause).sum

/-- The pieces of a file. -/
def pieces (buf size : ℕ) : ℕ := (size + (buf - 1)) / buf

theorem pieces_zero {buf : ℕ} (pos : 0 < buf) : pieces buf 0 = 0 := by
  rw [pieces, Nat.zero_add]
  exact Nat.div_eq_of_lt (by omega)

theorem pieces_next {buf size : ℕ} (pos : 0 < buf) (some : 0 < size) : pieces buf size = pieces buf (size - min buf size) + 1 := by
  rcases Nat.le_total size buf with last | more
  · rw [Nat.min_eq_right last, Nat.sub_self, pieces_zero pos, pieces]
    have one : size + (buf - 1) = size - 1 + buf := by omega
    rw [one, Nat.add_div_right _ pos, Nat.div_eq_of_lt (by omega)]
  · rw [Nat.min_eq_left more, pieces, pieces]
    have one : size + (buf - 1) = size - buf + (buf - 1) + buf := by omega
    rw [one, Nat.add_div_right _ pos]

/-- The whole buffers, and one more piece when something is left. -/
theorem pieces_whole {buf : ℕ} (pos : 0 < buf) (size : ℕ) : pieces buf size = size / buf + if buf ∣ size then 0 else 1 := by
  have parts := Nat.div_add_mod size buf
  have below := Nat.mod_lt size pos
  have sum : size + (buf - 1) = size % buf + (buf - 1) + size / buf * buf := by rw [Nat.mul_comm]; omega
  rw [pieces, sum, Nat.add_mul_div_right _ _ pos, Nat.add_comm]
  congr 1
  by_cases none : buf ∣ size
  · rw [if_pos none, Nat.mod_eq_zero_of_dvd none, Nat.zero_add]
    exact Nat.div_eq_of_lt (by omega)
  · have left : size % buf ≠ 0 := fun zero => none (Nat.dvd_of_mod_eq_zero zero)
    have one : size % buf + (buf - 1) = size % buf - 1 + buf := by omega
    rw [if_neg none, one, Nat.add_div_right _ pos, Nat.div_eq_of_lt (by omega)]

theorem spent_cons (r : Round) (rounds : List Round) : spent (r :: rounds) = (if r.bytes = 0 then 0 else r.pause) + spent rounds := by
  by_cases none : r.bytes = 0 <;> simp [spent, none]

/-- The last round of the second loop has no bytes. -/
theorem spent_sendLoopAfter (buf pause size : ℕ) : spent (sendLoopAfter buf pause size) = spent (sendLoop buf pause size) := by
  induction size using Nat.strong_induction_on with
  | _ size ih =>
    rw [sendLoop, sendLoopAfter, spent_cons]
    by_cases none : min buf size = 0
    · rw [if_pos none, if_pos none, if_pos none, Nat.zero_add]
    · rw [if_neg none, if_neg none, if_neg none, spent_cons, if_neg none, ih _ (by omega)]

theorem spent_sendLoop {buf : ℕ} (pos : 0 < buf) (pause size : ℕ) : spent (sendLoop buf pause size) = pieces buf size * pause := by
  induction size using Nat.strong_induction_on with
  | _ size ih =>
    rw [sendLoop]
    by_cases done : size = 0
    · subst done
      rw [pieces_zero pos, Nat.zero_mul, Nat.min_zero, if_pos rfl]
      rfl
    · have some : min buf size ≠ 0 := by omega
      have next := @pieces_next buf size pos (Nat.pos_of_ne_zero done)
      rw [if_neg some, spent_cons, if_neg some, ih (size - min buf size) (by omega), next, Nat.succ_mul]
      exact Nat.add_comm ..

/-- The pauses of a sending that does not divide by zero take no longer than the time. -/
def Keeps (totalTime : ℤ) (sending : Option (List Round)) : Prop := ∃ rounds, sending = some rounds ∧ (spent rounds : ℤ) ≤ totalTime

/-- One piece more than the number of whole buffers fits into the time when the remainder
    of the division is at least its quotient. -/
theorem succ_mul_div_le {units whole : ℕ} : (whole + 1) * (units / whole) ≤ units ↔ units / whole ≤ units % whole := by
  have parts := Nat.div_add_mod units whole
  rw [Nat.succ_mul]
  constructor
  · intro fits
    omega
  · intro enough
    omega

/-- The pauses of the three copies that divide by the number of whole buffers, each of
    the given number of microseconds for a unit of `tout`. -/
theorem keeps_iff {units buf scale size : ℕ} (buffer : 0 < buf) (time : units * scale < 2 ^ 31) (unit : 0 < scale) (int : size < 2 ^ 31)
    {loop : ℕ → List Round} (run : ∀ pause, spent (loop pause) = pieces buf size * pause) :
    Keeps (units * scale) ((tout units buf (asInt size)).map fun tout => loop (asUsec (tout * scale))) ↔
      buf ≤ size ∧ (buf ∣ size ∨ units / (size / buf) ≤ units % (size / buf)) := by
  have quotient : units / (size / buf) * scale ≤ units * scale := Nat.mul_le_mul_right scale (Nat.div_le_self ..)
  have small : units / (size / buf) ≤ units / (size / buf) * scale := Nat.le_mul_of_pos_right _ unit
  rw [tout, asSize_asInt int]
  by_cases none : size / buf = 0
  · have short : size < buf := by
      rcases Nat.div_eq_zero_iff.mp none with zero | short
      · omega
      · exact short
    rw [if_pos none]
    constructor
    · rintro ⟨rounds, impossible, -⟩
      exact absurd impossible (Option.some_ne_none _).symm
    · rintro ⟨whole, -⟩
      omega
  · have whole : buf ≤ size := by
      by_contra short
      exact none (Nat.div_eq_of_lt (Nat.not_le.mp short))
    have pause : asUsec (asInt (units / (size / buf) : ℕ) * scale) = units / (size / buf) * scale := by
      rw [asInt_self (by omega), ← Nat.cast_mul, asUsec_self (by omega)]
    have total : Keeps (units * scale) (some (loop (asUsec (asInt (units / (size / buf) : ℕ) * scale)))) ↔
        pieces buf size * (units / (size / buf)) ≤ units := by
      have product : spent (loop (asUsec (asInt (units / (size / buf) : ℕ) * scale))) = pieces buf size * (units / (size / buf)) * scale := by
        rw [run, pause, Nat.mul_assoc]
      constructor
      · rintro ⟨rounds, same, time⟩
        obtain rfl := Option.some.inj same
        rw [product] at time
        exact Nat.le_of_mul_le_mul_right (by exact_mod_cast time) unit
      · intro fits
        refine ⟨_, rfl, ?_⟩
        rw [product]
        exact_mod_cast Nat.mul_le_mul_right scale fits
    rw [if_neg none, Option.map_some, total, pieces_whole buffer]
    by_cases even : buf ∣ size
    · rw [if_pos even, Nat.add_zero]
      exact ⟨fun _ => ⟨whole, .inl even⟩, fun _ => Nat.mul_div_le ..⟩
    · rw [if_neg even, succ_mul_div_le]
      exact ⟨fun enough => ⟨whole, .inr enough⟩, fun right => right.2.resolve_left even⟩

theorem animal2_iff {size : ℕ} (int : size < 2 ^ 31) :
    Keeps 5000000 (animal2 size) ↔ 4096 ≤ size ∧ (4096 ∣ size ∨ 5000 / (size / 4096) ≤ 5000 % (size / 4096)) :=
  @keeps_iff 5000 4096 1000 size (by decide) (by decide) (by decide) int (sendLoop 4096 · size)
    fun pause => spent_sendLoop (by decide) pause size

theorem animal3_iff {size : ℕ} (int : size < 2 ^ 31) :
    Keeps 5000000 (animal3 size) ↔ 80096 ≤ size ∧ (80096 ∣ size ∨ 5000 / (size / 80096) ≤ 5000 % (size / 80096)) :=
  @keeps_iff 5000 80096 1000 size (by decide) (by decide) (by decide) int (sendLoopAfter 80096 · size)
    fun pause => (spent_sendLoopAfter 80096 pause size).trans (spent_sendLoop (by decide) pause size)

theorem skuska04_iff {size : ℕ} (int : size < 2 ^ 31) :
    Keeps 3000000 (skuska04 size) ↔ 4096 ≤ size ∧ (4096 ∣ size ∨ 3000000 / (size / 4096) ≤ 3000000 % (size / 4096)) := by
  have keeps := @keeps_iff 3000000 4096 1 size (by decide) (by decide) (by decide) int (sendLoopAfter 4096 · size)
    fun pause => (spent_sendLoopAfter 4096 pause size).trans (spent_sendLoop (by decide) pause size)
  simp only [Nat.cast_one, mul_one] at keeps
  exact keeps

/-- Dividing by the number of pieces keeps to any time that an `int` holds. -/
theorem animalDone_iff {totalTime : ℤ} (high : totalTime < 2 ^ 31) (size : ℕ) :
    Keeps totalTime (animalDone totalTime size) ↔ 0 ≤ totalTime := by
  constructor
  · rintro ⟨rounds, -, time⟩
    omega
  · intro some
    obtain ⟨time, rfl⟩ := Int.eq_ofNat_of_zero_le some
    have chunks : pieces 4096 size ≤ max ((size + 4096 - 1) / 4096) 1 := Nat.le_max_left ..
    have pos : max ((size + 4096 - 1) / 4096) 1 ≠ 0 := by omega
    have small : time / max ((size + 4096 - 1) / 4096) 1 ≤ time := Nat.div_le_self ..
    refine ⟨_, if_neg pos, ?_⟩
    rw [spent_sendLoop (by decide), ← Int.ofNat_tdiv, asInt_self (by omega), asUsec_self (by omega)]
    exact_mod_cast (Nat.mul_le_mul_right _ chunks).trans (Nat.mul_div_le ..)

/-- For which sizes and times the four copies keep to their time. -/
theorem sending_iff {size : ℕ} (int : size < 2 ^ 31) {totalTime : ℤ} (high : totalTime < 2 ^ 31) :
    (Keeps 5000000 (animal2 size) ↔ 4096 ≤ size ∧ (4096 ∣ size ∨ 5000 / (size / 4096) ≤ 5000 % (size / 4096))) ∧
      (Keeps 5000000 (animal3 size) ↔ 80096 ≤ size ∧ (80096 ∣ size ∨ 5000 / (size / 80096) ≤ 5000 % (size / 80096))) ∧
      (Keeps 3000000 (skuska04 size) ↔ 4096 ≤ size ∧ (4096 ∣ size ∨ 3000000 / (size / 4096) ≤ 3000000 % (size / 4096))) ∧
      (Keeps totalTime (animalDone totalTime size) ↔ 0 ≤ totalTime) :=
  ⟨animal2_iff int, animal3_iff int, skuska04_iff int, animalDone_iff high size⟩

/-- A file of two whole buffers, and five seconds. -/
theorem sending_sample :
    (Keeps 5000000 (animal2 8192) ↔ 4096 ≤ 8192 ∧ (4096 ∣ 8192 ∨ 5000 / (8192 / 4096) ≤ 5000 % (8192 / 4096))) ∧
      (Keeps 5000000 (animal3 8192) ↔ 80096 ≤ 8192 ∧ (80096 ∣ 8192 ∨ 5000 / (8192 / 80096) ≤ 5000 % (8192 / 80096))) ∧
      (Keeps 3000000 (skuska04 8192) ↔ 4096 ≤ 8192 ∧ (4096 ∣ 8192 ∨ 3000000 / (8192 / 4096) ≤ 3000000 % (8192 / 4096))) ∧
      (Keeps 5000000 (animalDone 5000000 8192) ↔ (0 : ℤ) ≤ 5000000) :=
  sending_iff (by decide) (by decide)

/-- A file that is smaller than the buffer, and one that is a byte longer than it. -/
theorem sending_fails : animal2 100 = none ∧ ¬ Keeps 5000000 (animal2 100) ∧ ¬ Keeps 5000000 (animal2 4097) := by
  refine ⟨rfl, ?_, ?_⟩
  · rw [animal2_iff (by decide)]
    decide
  · rw [animal2_iff (by decide)]
    decide

end OsyProg.PacedSending
