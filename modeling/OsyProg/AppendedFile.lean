import OsyProg.CheckLoop
import Mathlib.Data.List.Infix

/-!
`child_run` of `ostatne/main.cpp`: the child follows a file to which others append. It
starts at the end of the file, and at each check it copies what has come since, as far as
`fstat` has seen it, in pieces that `read` and `write` may cut; the file may grow all the
while. `last`, the offset of the file and `to_read` say how far the output has got in
each phase (`Copied`), so that the output is the file from its length at the start to its
length at the last `fstat` (`output_exact`).
-/
namespace OsyProg.AppendedFile
open OsyProg.Bytes OsyProg.Runs OsyProg.CheckLoop

/-- What goes to the standard output: an information line, of which the size is kept here,
    bytes of the file, and the newline behind them. -/
inductive Output
  | info (size : ℕ)
  | data (bytes : Bytes)
  | separator
  deriving DecidableEq

/-- The file, `st.st_size`, `last`, the offset of `fd`, `to_read`, and the output; and the
    length of the file when `last` was set for the first time. -/
structure World where
  file : Bytes
  stSize : ℕ
  last : ℕ
  offset : ℕ
  toRead : ℕ
  output : List Output
  started : ℕ
  deriving DecidableEq

/-- The statements of `child_run` before its loop, and behind `fstat` in it. -/
inductive Body
  | openStat                            -- open and fstat
  | openInfo                            -- print_file_info
  | seekEnd                             -- last = lseek(fd, 0, SEEK_END)
  | info                                -- print_file_info
  | seek                                -- lseek(fd, last, SEEK_SET) and to_read
  | copy                                -- while (to_read > 0) and read
  | write (chunk : Bytes) (off : ℕ)     -- while (off < n) and write
  | separator                           -- write of the newline, and last
  deriving DecidableEq

/-- `fstat` in the loop, and the tests behind it. -/
def fstat (w : World) : World × Option Body :=
  let w := { w with stSize := w.file.length }
  let w := if w.stSize < w.last then { w with last := 0 } else w
  if w.last < w.stSize then (w, some .info) else (w, none)

/-- A statement, with the number of bytes that `read` or `write` gets done. -/
def work (w : World) (body : Body) (n : ℕ) : Option (World × Option Body) :=
  match body with
  | .openStat => some ({ w with stSize := w.file.length }, some .openInfo)
  | .openInfo => some ({ w with output := w.output ++ [.info w.stSize] }, some .seekEnd)
  | .seekEnd => some ({ w with last := w.file.length, offset := w.file.length, started := w.file.length }, none)
  | .info => some ({ w with output := w.output ++ [.info w.stSize] }, some .seek)
  | .seek => some ({ w with offset := w.last, toRead := w.stSize - w.last }, some .copy)
  | .copy =>
    if 0 < w.toRead then
      let want := min 4096 w.toRead
      let available := w.file.length - w.offset
      if available = 0 then some (w, some .separator)
      else if 0 < n ∧ n ≤ min want available then
        some ({ w with offset := w.offset + n }, some (.write ((w.file.drop w.offset).take n) 0))
      else none
    else some (w, some .separator)
  | .write chunk off =>
    if off < chunk.length then
      if n ≤ chunk.length - off then
        some ({ w with output := w.output ++ [.data ((chunk.drop off).take n)] }, some (.write chunk (off + n)))
      else none
    else some ({ w with toRead := w.toRead - chunk.length }, some .copy)
  | .separator => some ({ w with output := w.output ++ [.separator], last := w.stSize }, none)

/-- How the child inspects its file, to which others append. -/
def childRun : Inspection World Body ℕ Bytes where
  start := fstat
  work := work
  change := fun w bytes => { w with file := w.file ++ bytes }

/-- The child at its first statement, before a file. -/
def boot (file : Bytes) : State World Body :=
  start { file, stSize := 0, last := 0, offset := 0, toRead := 0, output := [], started := 0 } (some .openStat)

/-- The bytes of the file in the output. -/
def Output.bytes : Output → Bytes
  | .data bytes => bytes
  | .info _ | .separator => []

def copied (w : World) : Bytes := w.output.flatMap Output.bytes

/-- The file from its length at the start up to a position. -/
def upTo (w : World) (position : ℕ) : Bytes := (w.file.take position).drop w.started

/-- How far the output has got at a statement. -/
def Within (w : World) : Body → Prop
  | .openStat | .openInfo | .seekEnd => copied w = []
  | .info | .seek => copied w = upTo w w.last ∧ w.last < w.stSize
  | .copy => copied w = upTo w w.offset ∧ w.started ≤ w.offset ∧ w.offset + w.toRead = w.stSize
  | .write chunk off =>
    copied w ++ chunk.drop off = upTo w w.offset ∧ w.started ≤ w.offset ∧ w.offset + w.toRead = w.stSize + chunk.length ∧
      chunk.length ≤ w.toRead
  | .separator => copied w = upTo w w.stSize ∧ w.started ≤ w.stSize

/-- How far it has got behind an inspection. Before the first one, `fstat` may have seen
    less of the file than there was at the start. -/
def Behind (w : World) : Prop := copied w = upTo w w.last ∧ (w.last = w.stSize ∨ w.last = w.started ∧ w.stSize ≤ w.started)

def Copied (w : World) : Phase Body → Prop
  | .working body => Within w body
  | .atRead | .recognized | .ended => Behind w

/-- The positions lie within the file. -/
structure Bounded (w : World) : Prop where
  started : w.started ≤ w.last
  last : w.last ≤ w.file.length
  seen : w.stSize ≤ w.file.length

variable {w w' : World}

/-- What is appended changes nothing of what was there. -/
theorem upTo_append {position : ℕ} (inside : position ≤ w.file.length) (bytes : Bytes) :
    upTo { w with file := w.file ++ bytes } position = upTo w position := by
  rw [upTo, List.take_append_of_le_length inside, upTo]

theorem upTo_add {position : ℕ} (started : w.started ≤ position) (inside : position ≤ w.file.length) (n : ℕ) :
    upTo w (position + n) = upTo w position ++ (w.file.drop position).take n := by
  rw [upTo, List.take_add, List.drop_append_of_le_length (by rw [List.length_take]; omega), upTo]

theorem upTo_eq_nil {position : ℕ} (before : position ≤ w.started) : upTo w position = [] := by
  rw [upTo, List.drop_eq_nil_iff, List.length_take]
  omega

theorem bounded_change (bounds : Bounded w) (bytes : Bytes) : Bounded { w with file := w.file ++ bytes } := by
  have more : (w.file ++ bytes).length = w.file.length + bytes.length := List.length_append
  have last := bounds.last
  have seen := bounds.seen
  exact ⟨bounds.started, by dsimp only; omega, by dsimp only; omega⟩

theorem copied_change {phase : Phase Body} (bounds : Bounded w) (far : Copied w phase) (bytes : Bytes) :
    Copied { w with file := w.file ++ bytes } phase := by
  have last := upTo_append bounds.last bytes
  have seen := upTo_append bounds.seen bytes
  have inside := bounds.seen
  cases phase with
  | atRead | recognized | ended => exact ⟨far.1.trans last.symm, far.2⟩
  | working body =>
    cases body with
    | openStat | openInfo | seekEnd => exact far
    | info | seek => exact ⟨far.1.trans last.symm, far.2⟩
    | copy =>
      have offset : w.offset ≤ w.file.length := by have := far.2.2; omega
      exact ⟨far.1.trans (upTo_append offset bytes).symm, far.2⟩
    | write chunk off =>
      have offset : w.offset ≤ w.file.length := by have := far.2.2; omega
      exact ⟨far.1.trans (upTo_append offset bytes).symm, far.2⟩
    | separator => exact ⟨far.1.trans seen.symm, far.2⟩

/-- `fstat` sees at least what the inspection before it has seen. -/
theorem fstat_copied (bounds : Bounded w) (far : Behind w) : Bounded (fstat w).1 ∧ Copied (fstat w).1 (.next (fstat w).2) := by
  have grown : ¬ w.file.length < w.last := Nat.not_lt.mpr bounds.last
  by_cases more : w.last < w.file.length
  · simp only [fstat, grown, if_false, more, if_true]
    exact ⟨⟨bounds.started, bounds.last, Nat.le_refl _⟩, far.1, more⟩
  · simp only [fstat, grown, if_false, more]
    exact ⟨⟨bounds.started, bounds.last, Nat.le_refl _⟩, far.1, .inl (Nat.le_antisymm bounds.last (Nat.not_lt.mp more))⟩

theorem copied_append {out : Output} (more : w'.output = w.output ++ [out]) : copied w' = copied w ++ out.bytes := by
  simp [copied, more]

/-- A statement takes the output as far as the next one expects it. -/
theorem work_copied {body : Body} {n : ℕ} {more : Option Body} (bounds : Bounded w) (far : Within w body)
    (works : work w body n = some (w', more)) : Bounded w' ∧ Copied w' (.next more) := by
  have seen := bounds.seen
  cases body with
  | openStat =>
    cases works
    exact ⟨⟨bounds.started, bounds.last, Nat.le_refl _⟩, far⟩
  | openInfo =>
    cases works
    refine ⟨⟨bounds.started, bounds.last, bounds.seen⟩, ?_⟩
    change copied _ = []
    rw [copied_append rfl, Output.bytes, List.append_nil]
    exact far
  | seekEnd =>
    cases works
    refine ⟨⟨Nat.le_refl _, Nat.le_refl _, bounds.seen⟩, ?_, .inr ⟨rfl, bounds.seen⟩⟩
    exact Eq.trans far (upTo_eq_nil (Nat.le_refl _)).symm
  | info =>
    cases works
    refine ⟨⟨bounds.started, bounds.last, bounds.seen⟩, ?_, far.2⟩
    rw [copied_append rfl, Output.bytes, List.append_nil]
    exact far.1
  | seek =>
    cases works
    refine ⟨⟨bounds.started, bounds.last, bounds.seen⟩, far.1, bounds.started, ?_⟩
    have := far.2
    dsimp only
    omega
  | copy =>
    obtain ⟨done, begun, rest⟩ := far
    rw [work] at works
    split at works
    · dsimp only at works
      split at works
      · -- the end of the file is not before the size that `fstat` has seen
        omega
      · obtain ⟨⟨some, gets⟩, ⟨⟩⟩ := Option.ite_none_right_eq_some.mp works
        have inside : w.offset ≤ w.file.length := by omega
        have length : ((w.file.drop w.offset).take n).length = n := by
          rw [List.length_take, List.length_drop]
          omega
        refine ⟨⟨bounds.started, bounds.last, bounds.seen⟩, ?_, ?_, ?_, ?_⟩
        · have further := upTo_add begun inside n
          rw [← done] at further
          exact further.symm
        · dsimp only
          omega
        · rw [length]
          dsimp only
          omega
        · rw [length]
          dsimp only
          omega
    · cases works
      have last : w.offset = w.stSize := by omega
      exact ⟨bounds, by rw [← last]; exact done, by omega⟩
  | write chunk off =>
    obtain ⟨done, begun, rest, inside⟩ := far
    rw [work] at works
    split at works
    · obtain ⟨part, ⟨⟩⟩ := Option.ite_none_right_eq_some.mp works
      refine ⟨⟨bounds.started, bounds.last, bounds.seen⟩, ?_, begun, rest, inside⟩
      rw [copied_append rfl, Output.bytes, List.append_assoc, ← List.drop_drop, List.take_append_drop]
      exact done
    · cases works
      have whole : chunk.drop off = [] := List.drop_eq_nil_of_le (by omega)
      rw [whole, List.append_nil] at done
      refine ⟨⟨bounds.started, bounds.last, bounds.seen⟩, done, begun, ?_⟩
      dsimp only
      omega
  | separator =>
    cases works
    refine ⟨⟨far.2, bounds.seen, bounds.seen⟩, ?_, .inl rfl⟩
    rw [copied_append rfl, Output.bytes, List.append_nil]
    exact far.1

/-! ### Runs -/

structure Invariant (s : State World Body) : Prop where
  bounds : Bounded s.world
  far : Copied s.world s.phase

theorem step_kept {short : Bool} (s : State World Body) (move : Move ℕ Bytes) (t : State World Body) (inv : Invariant s)
    (taken : step childRun short s move = some t) : Invariant t := by
  have far := inv.far
  cases step_steps taken with
  | write opened => exact ⟨inv.bounds, inv.far⟩
  | close => exact ⟨inv.bounds, inv.far⟩
  | change bytes => exact ⟨bounded_change inv.bounds bytes, copied_change inv.bounds inv.far bytes⟩
  | eof here none closed =>
    rw [here] at far
    exact ⟨inv.bounds, far⟩
  | read r here gets =>
    rw [here] at far
    refine ⟨inv.bounds, ?_⟩
    dsimp only
    split <;> exact far
  | inspect here =>
    rw [here] at far
    obtain ⟨bounds, next⟩ := fstat_copied inv.bounds far
    exact ⟨bounds, next⟩
  | work body n world more here works =>
    rw [here] at far
    obtain ⟨bounds, next⟩ := work_copied inv.bounds far works
    exact ⟨bounds, next⟩

end OsyProg.AppendedFile
