import OsyProg.NumberPipe

/-!
The text mode between `gennum` and `verbank` of `JOP005_DU1`. Each number is printed with
ten digits and a newline; the ten bytes of `%10s` fit into `line` with the zero behind
them, and `strtol` drops the zeros that were put in front of the number. So `verbank`
verifies exactly the numbers that were generated (`verbank_generatorNum`).
-/
namespace OsyProg.NumberText
open OsyProg.Bytes OsyProg.CStrings OsyProg.Streams OsyProg.NumberPipe

/-! ### gennum -/

/-- `generatorNum` with the count of the numbers that are still to come. -/
def generatorNum (size : ℕ) (binary : Bool) : ℕ → ℤ → Output → Output
  | 0, _, out => out
  | left + 1, newNum, out =>
    let newNum := newNum + 1
    let out := if binary then out.write (longBytes newNum) else out.put size (ld010 newNum ++ [10])
    generatorNum size binary left newNum out

/-! ### verbank -/

/-- A call of `verification`: the string in `line`, its number, and the flag. -/
structure Call where
  line : Bytes
  S : ℤ
  onlyValid : Bool
  deriving DecidableEq

/-- The loop of `main` on what is left of the input, unless the rounds do not suffice. -/
def mainLoop (onlyValid : Bool) : ℕ → Bytes → Option (List Call)
  | 0, _ => none
  | rounds + 1, stdin =>
    let (line, rest) := scanWord 10 stdin
    if line = [] then some []
    else (mainLoop onlyValid rounds rest).map fun calls => { line, S := strtol line, onlyValid } :: calls

/-- `main` with the arguments after its name. -/
def verbank (args : List Bytes) (rounds : ℕ) (stdin : Bytes) : Option (List Call) :=
  mainLoop (args = [ascii ['-', 'v']]) rounds stdin

/-! ### The round trip -/

/-- The line of a number. -/
def numberLine (S : ℤ) : Bytes := ld010 S ++ [10]

theorem stream_generatorNum (size count : ℕ) (newNum : ℤ) (out : Output) :
    (generatorNum size false count newNum out).stream = out.stream ++ (numbers (newNum + 1) count).flatMap numberLine := by
  induction count generalizing newNum out with
  | zero => simp [generatorNum, numbers]
  | succ left ih =>
    rw [generatorNum, if_neg Bool.false_ne_true, ih, Output.stream_put, numbers_succ, List.flatMap_cons, numberLine, List.append_assoc]

/-- The call for a number. -/
def callOf (onlyValid : Bool) (S : ℤ) : Call := { line := ld010 S, S, onlyValid }

/-- After the newline of a line that is read, the loop reads the following lines. -/
theorem mainLoop_lines {blank : Bytes} (spaces : ∀ c ∈ blank, isSpace c = true) {S count rounds : ℕ} (ten : S + count ≤ 10 ^ 10)
    (enough : count < rounds) (onlyValid : Bool) :
    mainLoop onlyValid rounds (blank ++ (numbers S count).flatMap numberLine) = some ((numbers S count).map (callOf onlyValid)) := by
  obtain ⟨rounds, rfl⟩ := Nat.exists_eq_succ_of_ne_zero (Nat.ne_zero_of_lt enough)
  induction count generalizing blank S rounds with
  | zero =>
    have blankText : blank ++ (numbers S (0 : ℕ)).flatMap numberLine = blank := by simp [numbers]
    rw [blankText, mainLoop, scanWord_blank spaces]
    rfl
  | succ left ih =>
    obtain ⟨rounds, rfl⟩ := Nat.exists_eq_succ_of_ne_zero (show rounds ≠ 0 by omega)
    have plain : ∀ c ∈ ld010 S, ¬ isSpace c = true := fun c inside => (isDigit_start (ld010_digits S c inside)).1
    have fits : (ld010 S).length ≤ 10 := Nat.le_of_eq (length_ld010 (by omega))
    have text : blank ++ (numbers S (left + 1 : ℕ)).flatMap numberLine =
        blank ++ (ld010 S ++ 10 :: (numbers (S + 1 : ℕ) left).flatMap numberLine) := by
      rw [numbers_succ, List.flatMap_cons, numberLine, List.append_assoc]
      rfl
    have newline : ∀ c ∈ [(10 : UInt8)], isSpace c = true := List.forall_mem_singleton.mpr rfl
    have later := ih newline (show S + 1 + left ≤ 10 ^ 10 by omega) rounds (by omega)
    rw [List.singleton_append] at later
    rw [text, mainLoop, scanWord_word spaces (ld010_ne_nil S) plain fits rfl]
    simp only [ld010_ne_nil, if_false, later, Option.map_some]
    rw [numbers_succ, List.map_cons, callOf, strtol_ld010 (by omega)]
    rfl

/-- `verbank` calls `verification` for the numbers that `gennum` prints, in their order,
    and each of them fits into the eleven bytes of `line`. `N` is an `int` in `gen.c`, so
    one that is larger is no input. -/
theorem verbank_generatorNum (size : ℕ) (args : List Bytes) {S N : ℕ} (fits : S + N ≤ 9999999999) {rounds : ℕ} (enough : N < rounds) :
    ∃ calls, verbank args rounds (generatorNum size false N S .empty).stream = some calls ∧
      calls.map Call.S = (List.range N).map (fun i : ℕ => (S + 1 + i : ℤ)) ∧ ∀ call ∈ calls, call.line.length + 1 ≤ 11 := by
  have none : ∀ c ∈ ([] : Bytes), isSpace c = true := fun c inside => by cases inside
  have read := mainLoop_lines none (show S + 1 + N ≤ 10 ^ 10 by omega) enough (args = [ascii ['-', 'v']])
  rw [Nat.cast_succ] at read
  refine ⟨(numbers (S + 1) N).map (callOf (args = [ascii ['-', 'v']])), ?_, ?_, ?_⟩
  · rw [verbank, stream_generatorNum]
    exact read
  · rw [List.map_map]
    exact List.map_id _
  · intro call among
    obtain ⟨value, number, rfl⟩ := List.mem_map.mp among
    obtain ⟨i, below, rfl⟩ := List.mem_map.mp number
    rw [List.mem_range, Int.toNat_natCast] at below
    have width : (ld010 (S + 1 + i : ℕ)).length = 10 := length_ld010 (by omega)
    exact Nat.le_of_eq (congrArg (· + 1) width)

/-- The three numbers after 7, with four rounds of the loop. -/
theorem verbank_sample : ∃ calls, verbank [] 4 (generatorNum 4096 false 3 7 .empty).stream = some calls ∧
    calls.map Call.S = [8, 9, 10] ∧ ∀ call ∈ calls, call.line.length + 1 ≤ 11 :=
  verbank_generatorNum 4096 [] (show 7 + 3 ≤ 9999999999 by decide) (show 3 < 4 by decide)

end OsyProg.NumberText
