import OsyProg.CStrings
import OsyProg.Streams

/-!
The pipe between `gennum` and `verbank` of `DU01`. In the binary mode the numbers go
directly into the pipe, while the newline that is printed with each of them waits in
the buffer of the standard output, so that with eight numbers or more the reader finds
newlines that it takes for numbers; and with `-b` in the first place `gennum` takes the
start for the count (`verified_iff`).
-/
namespace OsyProg.NumberPipe
open OsyProg.Bytes OsyProg.CStrings OsyProg.Streams

/-! ### gennum -/

section
variable (size : ℕ)

/-- The loop of `generator`, with the count of the numbers that are still to come. -/
def generator (binary : Bool) : ℕ → ℤ → Output → Output
  | 0, _, out => out
  | left + 1, num, out =>
    let out := if binary then (out.write (longBytes num)).put size [10] else out.put size (ld010 num ++ [10])
    generator binary left (num + 1) out

def dashB : Bytes := ascii ['-', 'b']

/-- `main` of `gennum` with `argv[1]` and the arguments after it: all that it writes to
    the standard output, whose buffer has the given size. -/
def gennum (arg : Bytes) (more : List Bytes) : Bytes :=
  let S := strtol arg
  let N := match more with
    | [] => 1000
    | second :: _ => if second = dashB then 1000 else atoi second
  let binary := (arg :: more).contains dashB
  (generator size binary N.toNat S .empty).stream

end

/-! ### verbank -/

/-- The calls of `scanf` and `strtol` in the text mode; each word takes a byte at least. -/
def readText : ℕ → Bytes → List ℤ
  | 0, _ => []
  | left + 1, text =>
    let (line, rest) := scanWord 10 text
    if line = [] then [] else strtol line :: readText left rest

/-- `main` of `verbank`: the numbers for which it calls `isValidBankNumber`. -/
def verbank (args : List Bytes) (stdin : Bytes) : List ℤ :=
  if 2 < args.length then []
  else if args.contains dashB then readLongs stdin
  else readText stdin.length stdin

/-! ### What the pipe is for -/

/-- `N` numbers from `S` on. -/
def numbers (S N : ℤ) : List ℤ := (List.range N.toNat).map fun i : ℕ => S + i

theorem numbers_zero (S : ℤ) {N : ℤ} (none : N ≤ 0) : numbers S N = [] := by
  rw [numbers, Int.toNat_of_nonpos none]
  rfl

theorem length_numbers (S N : ℤ) : (numbers S N).length = N.toNat := by
  rw [numbers, List.length_map, List.length_range]

theorem numbers_succ (S : ℤ) (count : ℕ) : numbers S (count + 1 : ℕ) = S :: numbers (S + 1) count := by
  simp only [numbers, Int.toNat_natCast, List.range_succ_eq_map, List.map_cons, List.map_map, Int.natCast_zero, Int.add_zero]
  congr 1
  refine List.map_congr_left fun i _ => ?_
  simp only [Function.comp]
  omega

/-! ### The stream -/

variable {size : ℕ}

theorem generator_length (count : ℕ) (num : ℤ) (out : Output) :
    (generator size true count num out).stream.length = out.stream.length + 9 * count := by
  induction count generalizing num out with
  | zero => rfl
  | succ left ih =>
    rw [generator, if_pos rfl, ih, Output.length_put, Output.length_write, length_longBytes, List.length_singleton]
    omega

theorem generator_sent (count : ℕ) (num : ℤ) (out : Output) : out.sent <+: (generator size true count num out).sent := by
  induction count generalizing num out with
  | zero => exact List.prefix_refl _
  | succ left ih =>
    have direct : out.sent <+: (out.write (longBytes num)).sent := List.prefix_append _ _
    exact direct.trans ((Output.sent_put size _ _).trans (ih _ _))

/-- While the newlines fit into the buffer, the numbers overtake all of them. -/
theorem generator_room {count : ℕ} {out : Output} (num : ℤ) (room : out.buffered.length + count < size) :
    generator size true count num out =
      { sent := out.sent ++ (numbers num count).flatMap longBytes, buffered := out.buffered ++ List.replicate count 10 } := by
  induction count generalizing num out with
  | zero => simp [generator, numbers]
  | succ left ih =>
    have kept : (out.write (longBytes num)).put size [10] =
        { sent := out.sent ++ longBytes num, buffered := out.buffered ++ [10] } :=
      Output.put_room (by simp only [Output.write, List.length_singleton]; omega)
    rw [generator, if_pos rfl, kept, ih _ (by simp only [List.length_append, List.length_singleton]; omega), numbers_succ]
    simp [List.replicate_succ]

/-- What `verbank -b` verifies of a stream of `gennum -b`. -/
def verified (size : ℕ) (S : ℤ) (count : ℕ) : List ℤ := readLongs (generator size true count S .empty).stream

theorem length_verified (S : ℤ) (count : ℕ) : (verified size S count).length = 9 * count / 8 := by
  rw [verified, length_readLongs, generator_length]
  simp [Output.empty, Output.stream]

/-- Fewer than eight newlines are no number. -/
theorem verified_few {S : ℤ} {count : ℕ} (large : 8 ≤ size) (few : count < 8) (fits : -2 ^ 63 ≤ S ∧ S + count < 2 ^ 63) :
    verified size S count = numbers S count := by
  have stream : (generator size true count S .empty).stream = (numbers S count).flatMap longBytes ++ List.replicate count 10 := by
    rw [generator_room S (show Output.empty.buffered.length + count < size by simp only [Output.empty, List.length_nil]; omega)]
    simp [Output.empty, Output.stream]
  have each : ∀ value ∈ numbers S count, -2 ^ 63 ≤ value ∧ value < 2 ^ 63 := by
    intro value inside
    obtain ⟨i, below, rfl⟩ := List.mem_map.mp inside
    rw [List.mem_range, Int.toNat_natCast] at below
    omega
  rw [verified, stream, readLongs_flatMap each, readLongs_short (by simpa using few), List.append_nil]

/-- The first number that is sent is the first one that is verified. -/
theorem verified_head {S : ℤ} {count : ℕ} (some : 0 < count) (fits : -2 ^ 63 ≤ S ∧ S < 2 ^ 63) :
    ∃ rest, verified size S count = S :: rest := by
  obtain ⟨left, rfl⟩ := Nat.exists_eq_succ_of_ne_zero (Nat.pos_iff_ne_zero.mp some)
  have first : longBytes S <+: (generator size true (left + 1) S .empty).stream := by
    have direct : (Output.empty.write (longBytes S)).sent = longBytes S := rfl
    rw [generator, if_pos rfl, Output.stream, ← direct]
    exact ((Output.sent_put size _ _).trans (generator_sent left _ _)).trans (List.prefix_append _ _)
  obtain ⟨rest, stream⟩ := first
  refine ⟨readLongs rest, ?_⟩
  rw [verified, ← stream, readLongs_append (length_longBytes S), longOf_longBytes fits.1 fits.2]

/-! ### The arguments -/

theorem decimalInt_ne_dashB (value : ℤ) : decimalInt value ≠ dashB := by
  have digits := decimal_digits value.natAbs
  intro same
  unfold decimalInt at same
  split at same
  · have text : decimal value.natAbs = [98] := (List.cons.inj same).2
    rw [text] at digits
    exact absurd (digits 98 (List.mem_cons_self ..)) (by decide)
  · rw [same] at digits
    exact absurd (digits 45 (List.mem_cons_self ..)) (by decide)

theorem gennum_working (S N : ℤ) :
    verbank [dashB] (gennum size (decimalInt S) [decimalInt N, dashB]) =
      verified size (strtol (decimalInt S)) (atoi (decimalInt N)).toNat := by
  simp [verbank, gennum, verified, decimalInt_ne_dashB]

theorem gennum_literal (S N : ℤ) :
    verbank [dashB] (gennum size dashB [decimalInt S, decimalInt N]) = verified size 0 (atoi (decimalInt S)).toNat := by
  have zero : strtol dashB = 0 := by decide
  simp [verbank, gennum, verified, decimalInt_ne_dashB, zero]

theorem atoi_lt (s : Bytes) : atoi s < 2 ^ 31 := by
  have := Int.bmod_lt (x := strtol s) (m := 2 ^ 32) (by decide)
  unfold atoi
  omega

/-- When `verbank` verifies exactly the numbers from `S` to `S + N - 1`: with the
    arguments in the order `S N -b`, for fewer than eight numbers; with `-b` in front,
    for no numbers, when the start is no positive count. -/
theorem verified_iff (large : 8 ≤ size) {S N : ℤ} (nonneg : 0 ≤ N) (fits : -2 ^ 63 ≤ S ∧ S + N < 2 ^ 63) :
    (verbank [dashB] (gennum size dashB [decimalInt S, decimalInt N]) = numbers S N ↔
        N = 0 ∧ atoi (decimalInt S) ≤ 0) ∧
      (verbank [dashB] (gennum size (decimalInt S) [decimalInt N, dashB]) = numbers S N ↔ N < 8) := by
  have start : strtol (decimalInt S) = S := strtol_decimalInt fits.1 (by omega)
  rw [gennum_literal, gennum_working, start]
  constructor
  · constructor
    · intro same
      have length := congrArg List.length same
      rw [length_verified, length_numbers] at length
      by_cases positive : 0 < atoi (decimalInt S)
      · -- The first number would be 0, so `S` is 0, and that is no positive count.
        obtain ⟨rest, head⟩ := @verified_head size 0 _ (show 0 < (atoi (decimalInt S)).toNat by omega) (by decide)
        obtain ⟨left, count⟩ := Nat.exists_eq_succ_of_ne_zero (show N.toNat ≠ 0 by omega)
        have succ : N = (left + 1 : ℕ) := by omega
        rw [head, succ, numbers_succ] at same
        rw [← (List.cons.inj same).1] at positive
        exact absurd positive (by decide)
      · omega
    · rintro ⟨rfl, none⟩
      rw [Int.toNat_of_nonpos none, numbers_zero S (Int.le_refl 0)]
      rfl
  · constructor
    · intro same
      have length := congrArg List.length same
      rw [length_verified, length_numbers] at length
      have bound := atoi_lt (decimalInt N)
      by_contra many
      -- The count is `N` itself, or smaller by 2^32 and more.
      have wraps : atoi (decimalInt N) = N.bmod (2 ^ 32) := atoi_decimalInt (by omega) (by omega)
      rw [Int.bmod_def] at wraps
      split at wraps <;> omega
    · intro few
      have count : atoi (decimalInt N) = N := by
        rw [atoi_decimalInt (by omega) (by omega), Int.bmod_eq_of_le (by omega) (by omega)]
      obtain ⟨n, rfl⟩ : ∃ n : ℕ, N = n := ⟨N.toNat, by omega⟩
      rw [count, Int.toNat_natCast]
      exact verified_few large (by omega) fits

/-- One number from 5 on, and eight numbers from 0 on. -/
theorem verified_iff_sample :
    verbank [dashB] (gennum 4096 dashB [decimalInt 5, decimalInt 1]) ≠ numbers 5 1 ∧
      verbank [dashB] (gennum 4096 (decimalInt 5) [decimalInt 1, dashB]) = numbers 5 1 := by
  have both := @verified_iff 4096 (by decide) 5 1 (by decide) (by decide)
  exact ⟨fun same => absurd (both.1.mp same).1 (by decide), both.2.mpr (by decide)⟩

/-- With `-b` in front the start 5 is taken for the count; in the other order the
    newlines of eight numbers are a ninth one. -/
theorem verified_wrong :
    (verbank [dashB] (gennum 4096 dashB [decimalInt 5, decimalInt 1]) = [0, 1, 2, 3, 4] ∧
        [0, 1, 2, 3, 4] ≠ numbers 5 1) ∧
      verbank [dashB] (gennum 4096 (decimalInt 5) [decimalInt 8, dashB]) = numbers 5 8 ++ [0x0a0a0a0a0a0a0a0a] ∧
        numbers 5 8 ++ [0x0a0a0a0a0a0a0a0a] ≠ numbers 5 8 := by
  decide +kernel

end OsyProg.NumberPipe
