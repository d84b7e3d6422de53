import OsyProg.Bytes
import OsyProg.Lines
import Mathlib.Data.List.Infix
import Mathlib.Data.List.TakeWhile
import Mathlib.Logic.Function.Iterate
import Mathlib.Tactic.Tauto

/-!
`recieve_data` of `cv_skuska/uloha6`: the server reads a source text byte by byte and
writes it to `clock.cpp` without its comments, until it has seen three newlines in a row.
A `%` anywhere in a line starts a comment, and the loop that passes over a comment takes
its newline with it, does not count it, and does not ask whether `read` has got anything.
`loops` says what the two loops print (`prints_iff`), line by line (`loops_line`). When a
byte was read, `buf[ r ] = 0` stores behind the array, and where the compiler has put the
descriptor `f` there, what is printed does not get into the file. The file is as intended
exactly if that does no harm, `%` stands at the start of lines only and the blank lines do
not follow a comment (`written_iff`); the loops end exactly if they are stopped by blank
lines, or the client does not leave in a comment (`ends_iff`).
-/
namespace OsyProg.CommentFilter
open OsyProg.Bytes OsyProg.Lines

/-! ### recieve_data -/

inductive Pc where
  | outer
  | inner
  | done
  deriving DecidableEq

/-- What the compiler has put behind `char buf[1]`: memory that is not used, or the low byte of
    the variable `f`. -/
inductive Behind where
  | unused (value : UInt8)
  | descriptor
  deriving DecidableEq

/-- `buf` and the byte behind it, into which `buf[ r ] = 0` goes when a byte was read; `opened`
    is the descriptor that `open` has returned, and `shares` says whether the low byte of `f` is
    the byte behind. What is written goes to the standard output (`output`) and to `f`. `unread`
    is what the client has sent; after it `read` returns 0. -/
structure Receiver where
  pc : Pc
  buf : UInt8
  behind : UInt8
  opened : ℕ
  shares : Bool
  emptyLine : ℕ
  output : Bytes
  file : Bytes
  unread : Bytes
  deriving DecidableEq

/-- The value of the variable `f`. -/
def Receiver.f (s : Receiver) : ℕ := if s.shares then 256 * (s.opened / 256) + s.behind.toNat else s.opened

/-- Whether the string in `buf` is the given byte. -/
def Receiver.is (s : Receiver) (c : UInt8) : Bool := s.buf = c && s.behind = 0

/-- The two `write` of the byte in `buf`; it gets into `clock.cpp` when `f` is still its descriptor. -/
def Receiver.write (s : Receiver) : Receiver :=
  { s with output := s.output ++ [s.buf], file := if s.f = s.opened then s.file ++ [s.buf] else s.file }

/-- A `read` into `buf`, and its result. -/
def Receiver.read (s : Receiver) : Receiver × ℕ :=
  match s.unread with
  | [] => (s, 0)
  | c :: rest => ({ s with buf := c, unread := rest }, 1)

/-- `buf[ r ] = 0` -/
def Receiver.terminate (s : Receiver) (r : ℕ) : Receiver := if r = 0 then { s with buf := 0 } else { s with behind := 0 }

/-- A round of the outer or of the inner loop. -/
def step (s : Receiver) : Receiver :=
  match s.pc with
  | .outer =>
    let (s, r) := s.read
    let s := s.terminate r
    let s := { s with emptyLine := if s.is 10 then s.emptyLine + 1 else 0 }
    if s.is 10 && s.emptyLine = 3 then { s with pc := .done }
    else if s.is 37 then { s with pc := .inner }
    else
      let s := s.write
      if r = 0 then { s with pc := .done } else s
  | .inner =>
    let (s, r) := s.read
    if s.is 10 then { s with pc := if r = 0 then .done else .outer } else s
  | .done => s

/-- The start of `recieve_data` behind `open`; `buf` holds anything. -/
def start (opened : ℕ) (behind : Behind) (buf : UInt8) (stream : Bytes) : Receiver where
  pc := .outer
  buf := buf
  behind := match behind with
    | .unused value => value
    | .descriptor => opened.toUInt8
  opened := opened
  shares := behind = .descriptor
  emptyLine := 0
  output := []
  file := []
  unread := stream

/-- After some rounds the loops have ended, with the given text in the file. -/
def Writes (s : Receiver) (text : Bytes) : Prop := ∃ n, (step^[n] s).pc = .done ∧ (step^[n] s).file = text

/-- After some rounds the loops have ended, with the given text on the standard output. -/
def Prints (s : Receiver) (text : Bytes) : Prop := ∃ n, (step^[n] s).pc = .done ∧ (step^[n] s).output = text

/-! ### The two loops on a stream -/

/-- What is printed until the loops end, if they end, from the outer loop or in a comment,
    with the number of newlines in `empty_line`. -/
def loops (comment : Bool) (e : ℕ) : Bytes → Option Bytes
  | [] => if comment then none else some [0]
  | c :: rest =>
    if comment then loops (c ≠ 10) e rest
    else if c = 10 then if e = 2 then some [] else (loops false (e + 1) rest).map (10 :: ·)
    else if c = 37 then loops true 0 rest
    else (loops false 0 rest).map (c :: ·)

/-- The state of the outer loop, or of the inner one. -/
structure At (comment : Bool) (e : ℕ) (s : Receiver) : Prop where
  pc : s.pc = if comment then .inner else .outer
  emptyLine : s.emptyLine = e
  comment : comment = true → s.buf ≠ 10 ∧ s.behind = 0

variable {s : Receiver} {e : ℕ}

theorem iterate_done (done : s.pc = .done) (n : ℕ) : step^[n] s = s :=
  Function.iterate_fixed (by rw [step, done]) n

/-- The loops print one text. -/
theorem prints_unique {text other : Bytes} (first : Prints s text) (second : Prints s other) : text = other := by
  obtain ⟨n, done, rfl⟩ := first
  obtain ⟨m, done', rfl⟩ := second
  rcases Nat.le_total n m with before | before
  · obtain ⟨k, rfl⟩ := Nat.exists_eq_add_of_le' before
    rw [Function.iterate_add_apply, iterate_done done]
  · obtain ⟨k, rfl⟩ := Nat.exists_eq_add_of_le' before
    rw [Function.iterate_add_apply, iterate_done done']

/-- A round takes the loops on. -/
theorem prints_step (running : s.pc ≠ .done) (text : Bytes) : Prints s text ↔ Prints (step s) text := by
  constructor
  · rintro ⟨n, done, same⟩
    cases n with
    | zero => exact absurd done running
    | succ n => exact ⟨n, done, same⟩
  · rintro ⟨n, done, same⟩
    exact ⟨n + 1, done, same⟩

/-- The outer loop at the end of the stream. -/
theorem step_outer_end (at_ : At false e s) (none : s.unread = []) :
    (step s).pc = .done ∧ (step s).output = s.output ++ [0] := by
  have pc : s.pc = .outer := at_.pc
  simp [step, pc, Receiver.read, none, Receiver.terminate, Receiver.is, Receiver.write]

theorem step_outer (at_ : At false e s) {c : UInt8} {rest : Bytes} (next : s.unread = c :: rest) :
    step s =
      if c = 10 then
        if e = 2 then { s with pc := .done, buf := c, behind := 0, emptyLine := 3, unread := rest }
        else { s with buf := c, behind := 0, emptyLine := e + 1, unread := rest }.write
      else if c = 37 then { s with pc := .inner, buf := c, behind := 0, emptyLine := 0, unread := rest }
      else { s with buf := c, behind := 0, emptyLine := 0, unread := rest }.write := by
  have pc : s.pc = .outer := at_.pc
  by_cases newline : c = 10
  · subst newline
    by_cases last : e = 2 <;> simp [step, pc, Receiver.read, next, Receiver.terminate, Receiver.is, at_.emptyLine, last]
  · by_cases comment : c = 37 <;> simp [step, pc, Receiver.read, next, Receiver.terminate, Receiver.is, newline, comment]

/-- In a comment the end of the stream is not noticed. -/
theorem step_inner_end (at_ : At true e s) (none : s.unread = []) : step s = s := by
  have pc : s.pc = .inner := at_.pc
  simp [step, pc, Receiver.read, none, Receiver.is, (at_.comment rfl).1]

theorem step_inner (at_ : At true e s) {c : UInt8} {rest : Bytes} (next : s.unread = c :: rest) :
    step s = { s with pc := if c = 10 then .outer else .inner, buf := c, unread := rest } := by
  have pc : s.pc = .inner := at_.pc
  have zero : s.behind = 0 := (at_.comment rfl).2
  by_cases newline : c = 10 <;> simp [step, pc, Receiver.read, next, Receiver.is, zero, newline]

theorem At.running {comment : Bool} (at_ : At comment e s) : s.pc ≠ .done := by
  rw [at_.pc]
  cases comment <;> simp

theorem prints_done (done : s.pc = .done) (text : Bytes) : Prints s text ↔ text = s.output := by
  constructor
  · intro prints
    exact prints_unique prints ⟨0, done, rfl⟩
  · rintro rfl
    exact ⟨0, done, rfl⟩

/-- With another byte the loops end, or go on with what they have printed of it. -/
theorem step_goes {comment : Bool} (at_ : At comment e s) {c : UInt8} {rest : Bytes} (next : s.unread = c :: rest) :
    (step s).pc = .done ∧ (step s).output = s.output ∧ loops comment e (c :: rest) = some [] ∨
      ∃ comment' e' piece, At comment' e' (step s) ∧ (step s).unread = rest ∧ (step s).output = s.output ++ piece ∧
        loops comment e (c :: rest) = (loops comment' e' rest).map (piece ++ ·) := by
  cases comment with
  | true =>
    have moved := step_inner at_ next
    refine .inr ⟨c ≠ 10, e, [], ?_, by rw [moved], by rw [moved, List.append_nil], by simp [loops]⟩
    rw [moved]
    refine ⟨?_, at_.emptyLine, fun stays => ⟨by simpa using stays, (at_.comment rfl).2⟩⟩
    by_cases newline : c = 10 <;> simp [newline]
  | false =>
    have moved := step_outer at_ next
    have outside : false = true → c ≠ 10 ∧ (0 : UInt8) = 0 := fun impossible => absurd impossible Bool.false_ne_true
    by_cases newline : c = 10
    · rw [if_pos newline] at moved
      by_cases last : e = 2
      · rw [if_pos last] at moved
        exact .inl ⟨by rw [moved], by rw [moved], by simp [loops, newline, last]⟩
      · rw [if_neg last] at moved
        refine .inr ⟨false, e + 1, [c], ?_, by rw [moved]; rfl, by rw [moved]; rfl, by simp [loops, newline, last]⟩
        rw [moved]
        exact ⟨at_.pc, rfl, outside⟩
    · rw [if_neg newline] at moved
      by_cases percent : c = 37
      · rw [if_pos percent] at moved
        refine .inr ⟨true, 0, [], ?_, by rw [moved], by rw [moved, List.append_nil], by simp [loops, percent]⟩
        rw [moved]
        exact ⟨rfl, rfl, fun _ => ⟨newline, rfl⟩⟩
      · rw [if_neg percent] at moved
        refine .inr ⟨false, 0, [c], ?_, by rw [moved]; rfl, by rw [moved]; rfl, by simp [loops, newline, percent]⟩
        rw [moved]
        exact ⟨at_.pc, rfl, outside⟩

/-- The text that the loops print is that of `loops`, whatever they have printed before. -/
theorem prints_iff {comment : Bool} (at_ : At comment e s) (text : Bytes) :
    Prints s text ↔ ∃ more, loops comment e s.unread = some more ∧ text = s.output ++ more := by
  generalize same : s.unread = stream
  induction stream generalizing s comment e with
  | nil =>
    cases comment with
    | false =>
      obtain ⟨done, output⟩ := step_outer_end at_ same
      rw [prints_step at_.running, prints_done done, output]
      simp [loops]
    | true =>
      have stays := step_inner_end at_ same
      constructor
      · rintro ⟨n, done, -⟩
        rw [Function.iterate_fixed stays] at done
        exact absurd done at_.running
      · rintro ⟨more, written, -⟩
        exact absurd written (Option.some_ne_none _).symm
  | cons c rest ih =>
    rw [prints_step at_.running]
    rcases step_goes at_ same with ⟨done, output, ended⟩ | ⟨comment', e', piece, next, unread, output, goes⟩
    · rw [prints_done done, output, ended]
      simp
    · rw [ih next unread, output, goes]
      simp [List.append_assoc]

/-! ### Line by line -/

/-- What is written of a line. -/
def kept (line : Bytes) : Bytes := if 37 ∈ line then line.takeWhile (fun c => c ≠ 37) else line ++ [10]

variable {line more rest : Bytes} {lines : List Bytes}

/-- A comment is passed over, with the newline behind it. -/
theorem loops_comment (none : 10 ∉ line) (e : ℕ) (more : Bytes) : loops true e (line ++ 10 :: more) = loops false e more := by
  induction line with
  | nil => simp [loops]
  | cons c line ih =>
    have other : c ≠ 10 := fun same => none (by simp [same])
    rw [List.cons_append, loops, if_pos rfl, decide_eq_true other, ih fun inside => none (List.mem_cons_of_mem _ inside)]

theorem loops_comment_end (none : 10 ∉ rest) (e : ℕ) : loops true e rest = .none := by
  induction rest with
  | nil => rfl
  | cons c rest ih =>
    have other : c ≠ 10 := fun same => none (by simp [same])
    rw [loops, if_pos rfl, decide_eq_true other, ih fun inside => none (List.mem_cons_of_mem _ inside)]

/-- A part without `%` is written. -/
theorem loops_part (none : 10 ∉ line) (plain : 37 ∉ line) (e : ℕ) (more : Bytes) :
    loops false e (line ++ more) = (loops false (if line = [] then e else 0) more).map (line ++ ·) := by
  induction line generalizing e with
  | nil => simp
  | cons c line ih =>
    have other : c ≠ 10 := fun same => none (by simp [same])
    have percent : c ≠ 37 := fun same => plain (by simp [same])
    rw [List.cons_append, loops, if_neg Bool.false_ne_true, if_neg other, if_neg percent,
      ih (fun inside => none (List.mem_cons_of_mem _ inside)) (fun inside => plain (List.mem_cons_of_mem _ inside)),
      Option.map_map, if_neg (List.cons_ne_nil c line), ite_self]
    rfl

theorem kept_comment {before : Bytes} (plain : 37 ∉ before) (after : Bytes) : kept (before ++ 37 :: after) = before := by
  have member : 37 ∈ before ++ 37 :: after := by simp
  have others : ∀ c ∈ before, decide (c ≠ 37) = true := by
    intro c inside
    exact decide_eq_true fun same => plain (by rwa [← same])
  rw [kept, if_pos member, List.takeWhile_append_of_pos others]
  simp

/-- A blank line is one newline more in a row, and the third one ends the loops; any other
    line begins a new row with its newline, unless that belongs to a comment. -/
theorem loops_line (none : 10 ∉ line) (e : ℕ) (more : Bytes) :
    loops false e (line ++ 10 :: more) =
      if line = [] then if e = 2 then some [] else (loops false (e + 1) more).map (10 :: ·)
      else (loops false (if 37 ∈ line then 0 else 1) more).map (kept line ++ ·) := by
  by_cases blank : line = []
  · subst blank
    simp [loops]
  rw [if_neg blank]
  by_cases percent : 37 ∈ line
  · rw [if_pos percent]
    obtain ⟨before, after, rfl, plain⟩ := List.eq_append_cons_of_mem percent
    have noneBefore : 10 ∉ before := fun inside => none (List.mem_append_left _ inside)
    have noneAfter : 10 ∉ after := fun inside => none (List.mem_append_right _ (List.mem_cons_of_mem _ inside))
    have starts : ∀ e, loops false e (37 :: (after ++ 10 :: more)) = loops true 0 (after ++ 10 :: more) := by
      intro e
      simp [loops]
    rw [kept_comment plain, List.append_assoc, List.cons_append, loops_part noneBefore plain, starts, loops_comment noneAfter]
  · have newline : loops false 0 (10 :: more) = (loops false 1 more).map (10 :: ·) := by simp [loops]
    rw [if_neg percent, kept, if_neg percent, loops_part none percent, if_neg blank, newline, Option.map_map]
    congr 1
    funext text
    simp

theorem loops_rest (none : 10 ∉ rest) (e : ℕ) : loops false e rest = if 37 ∈ rest then .none else some (rest ++ [0]) := by
  by_cases percent : 37 ∈ rest
  · rw [if_pos percent]
    obtain ⟨before, after, rfl, plain⟩ := List.eq_append_cons_of_mem percent
    have noneBefore : 10 ∉ before := fun inside => none (List.mem_append_left _ inside)
    have noneAfter : 10 ∉ after := fun inside => none (List.mem_append_right _ (List.mem_cons_of_mem _ inside))
    have starts : ∀ e, loops false e (37 :: after) = loops true 0 after := by
      intro e
      simp [loops]
    rw [loops_part noneBefore plain, starts, loops_comment_end noneAfter]
    rfl
  · have whole := loops_part none percent e []
    rw [List.append_nil] at whole
    rw [if_neg percent, whole]
    simp [loops]

/-- No `%` is ever written. -/
theorem loops_plain {comment : Bool} {text : Bytes} (written : loops comment e more = some text) : 37 ∉ text := by
  induction more generalizing comment e text with
  | nil =>
    cases comment with
    | false =>
      obtain rfl : [0] = text := Option.some.inj written
      exact fun inside => absurd (List.mem_singleton.mp inside) (by decide)
    | true => exact absurd written (Option.some_ne_none _).symm
  | cons c more ih =>
    rw [loops] at written
    split at written
    · exact ih written
    split at written
    · split at written
      · obtain rfl := Option.some.inj written
        exact List.not_mem_nil
      · obtain ⟨later, inner, rfl⟩ := Option.map_eq_some_iff.mp written
        simpa using ih inner
    split at written
    · exact ih written
    · rename_i other
      obtain ⟨later, inner, rfl⟩ := Option.map_eq_some_iff.mp written
      simpa [Ne.symm other] using ih inner

/-! ### Blank lines -/

/-- A line of the given kind comes in front of two blank ones. -/
def BlankAfter (kind : Bytes → Prop) (lines : List Bytes) : Prop := ∃ line, kind line ∧ [line, [], []] <:+: lines

theorem blankAfter_cons {kind : Bytes → Prop} {later : List Bytes} :
    BlankAfter kind (line :: later) ↔ (kind line ∧ [[], []] <+: later) ∨ BlankAfter kind later := by
  constructor
  · rintro ⟨l, ofKind, inside⟩
    rcases List.infix_cons_iff.mp inside with front | behind
    · obtain ⟨rfl, blank⟩ := List.cons_prefix_cons.mp front
      exact .inl ⟨ofKind, blank⟩
    · exact .inr ⟨l, ofKind, behind⟩
  · rintro (⟨ofKind, blank⟩ | ⟨l, ofKind, behind⟩)
    · exact ⟨line, ofKind, List.infix_cons_iff.mpr (.inl (List.cons_prefix_cons.mpr ⟨rfl, blank⟩))⟩
    · exact ⟨l, ofKind, List.infix_cons_iff.mpr (.inr behind)⟩

/-- One blank line less is missing. -/
theorem blanks_cons {missing : ℕ} {later : List Bytes} :
    List.replicate (missing + 1) [] <+: line :: later ↔ line = [] ∧ List.replicate missing [] <+: later := by
  rw [List.replicate_succ, List.cons_prefix_cons, eq_comm]

theorem blanks_le {missing more : ℕ} (le : missing ≤ more) {lines : List Bytes} (blank : List.replicate more [] <+: lines) :
    List.replicate missing ([] : Bytes) <+: lines := by
  obtain ⟨others, rfl⟩ := Nat.exists_eq_add_of_le le
  rw [List.replicate_add] at blank
  exact (List.prefix_append _ _).trans blank

/-- The loops end, after `e` newlines in a row, exactly if enough blank lines follow at
    once or behind some line without `%`, or the stream does not end in a comment. -/
theorem loops_ends (noneRest : 10 ∉ rest) (clean : ∀ l ∈ lines, 10 ∉ l) {missing : ℕ} (few : e + (missing + 1) = 3) :
    loops false e (unlines 10 lines ++ rest) ≠ none ↔
      List.replicate (missing + 1) [] <+: lines ∨ BlankAfter (37 ∉ ·) lines ∨ 37 ∉ rest := by
  induction lines generalizing e missing with
  | nil =>
    rw [unlines_nil, List.nil_append, loops_rest noneRest]
    by_cases percent : 37 ∈ rest <;> simp [percent, List.replicate_succ, BlankAfter]
  | cons line later ih =>
    have noneLine : 10 ∉ line := clean line (List.mem_cons_self ..)
    have cleanLater : ∀ l ∈ later, 10 ∉ l := fun l inside => clean l (List.mem_cons_of_mem _ inside)
    rw [unlines_cons, List.append_assoc, List.cons_append, loops_line noneLine, blanks_cons, blankAfter_cons]
    by_cases blank : line = []
    · subst blank
      rw [if_pos rfl]
      cases missing with
      | zero =>
        have last : e = 2 := by omega
        simp [last]
      | succ missing =>
        have before : e ≠ 2 := by omega
        have two : [[], []] <+: later → List.replicate (missing + 1) ([] : Bytes) <+: later :=
          blanks_le (show missing + 1 ≤ 2 by omega)
        rw [if_neg before, ne_eq, Option.map_eq_none_iff, ← ne_eq, @ih (e + 1) cleanLater missing (by omega)]
        simp only [true_and, List.not_mem_nil, not_false_eq_true]
        tauto
    · rw [if_neg blank, ne_eq, Option.map_eq_none_iff, ← ne_eq]
      by_cases percent : 37 ∈ line
      · have three : List.replicate 3 ([] : Bytes) <+: later → BlankAfter (37 ∉ ·) later :=
          fun front => ⟨[], List.not_mem_nil, front.isInfix⟩
        rw [if_pos percent, @ih 0 cleanLater 2 (by decide)]
        simp only [blank, percent, not_true_eq_false, false_and, false_or]
        tauto
      · rw [if_neg percent, @ih 1 cleanLater 1 (by decide)]
        simp only [blank, percent, not_false_eq_true, true_and, false_and, false_or]
        exact or_assoc.symm

/-- Lines among which no three newlines come in a row do not end the loops. -/
theorem loops_lines (clean : ∀ l ∈ lines, 10 ∉ l) {missing : ℕ} (few : e + (missing + 1) = 3)
    (front : ¬ List.replicate (missing + 1) [] <+: lines) (none : ¬ BlankAfter (fun _ => True) lines) :
    ∃ e', (lines = [] → e' = e) ∧
      ∀ more, loops false e (unlines 10 lines ++ more) = (loops false e' more).map (lines.flatMap kept ++ ·) := by
  induction lines generalizing e missing with
  | nil => exact ⟨e, fun _ => rfl, fun more => by simp⟩
  | cons line later ih =>
    have noneLine : 10 ∉ line := clean line (List.mem_cons_self ..)
    have cleanLater : ∀ l ∈ later, 10 ∉ l := fun l inside => clean l (List.mem_cons_of_mem _ inside)
    rw [blanks_cons] at front
    rw [blankAfter_cons, true_and, not_or] at none
    obtain ⟨noTwo, noneLater⟩ := none
    -- what follows the line has been taken on from the number of newlines behind it
    have onward : ∀ next, (∀ more, loops false e (line ++ 10 :: more) = (loops false next more).map (kept line ++ ·)) →
        (∃ e', (later = [] → e' = next) ∧
          ∀ more, loops false next (unlines 10 later ++ more) = (loops false e' more).map (later.flatMap kept ++ ·)) →
        ∃ e', (line :: later = [] → e' = e) ∧
          ∀ more, loops false e (unlines 10 (line :: later) ++ more) = (loops false e' more).map ((line :: later).flatMap kept ++ ·) := by
      rintro next one ⟨e', -, others⟩
      refine ⟨e', fun impossible => absurd impossible (List.cons_ne_nil line later), ?_⟩
      intro more
      rw [unlines_cons, List.append_assoc, List.cons_append, one, others, Option.map_map, List.flatMap_cons]
      congr 1
      funext text
      exact (List.append_assoc ..).symm
    by_cases blank : line = []
    · subst blank
      cases missing with
      | zero => exact absurd ⟨rfl, List.nil_prefix⟩ front
      | succ missing =>
        have before : e ≠ 2 := by omega
        refine onward (e + 1) (fun more => ?_) (@ih (e + 1) cleanLater missing (by omega) (fun blanks => front ⟨rfl, blanks⟩) noneLater)
        rw [loops_line noneLine, if_pos rfl, if_neg before]
        rfl
    · have three : ¬ List.replicate 3 ([] : Bytes) <+: later := fun blanks => noTwo (@blanks_le 2 3 (by decide) later blanks)
      by_cases percent : 37 ∈ line
      · refine onward 0 (fun more => ?_) (@ih 0 cleanLater 2 (by decide) three noneLater)
        rw [loops_line noneLine, if_neg blank, if_pos percent]
      · refine onward 1 (fun more => ?_) (@ih 1 cleanLater 1 (by decide) noTwo noneLater)
        rw [loops_line noneLine, if_neg blank, if_neg percent]

/-! ### The whole text -/

/-- The text without the lines that are comments from their start; it ends with a newline. -/
def filtered (text : Bytes) : Bytes := unlines 10 ((linesOf 10 text).filter fun line => line.head? ≠ some 37)

theorem not_mem_unlines : 37 ∉ unlines 10 lines ↔ ∀ l ∈ lines, 37 ∉ l := by
  simp [unlines]

theorem plain_filter (none : 37 ∉ unlines 10 (lines.filter fun line => line.head? ≠ some 37)) :
    ∀ l ∈ lines, l.head? = some 37 ∨ 37 ∉ l := by
  intro l inside
  by_cases comment : l.head? = some 37
  · exact .inl comment
  · exact .inr (not_mem_unlines.mp none l (List.mem_filter.mpr ⟨inside, decide_eq_true comment⟩))

/-- The lines are written as intended exactly if `%` is at the start of lines only. -/
theorem kept_eq_filter :
    lines.flatMap kept = unlines 10 (lines.filter fun line => line.head? ≠ some 37) ↔ ∀ l ∈ lines, l.head? = some 37 ∨ 37 ∉ l := by
  have plain : ∀ l, 37 ∉ kept l := by
    intro l
    by_cases percent : 37 ∈ l
    · rw [kept, if_pos percent]
      exact fun inside => by simpa using List.mem_takeWhile_imp inside
    · rw [kept, if_neg percent]
      simp [percent]
  constructor
  · intro same
    have none : 37 ∉ lines.flatMap kept := by simp [plain]
    rw [same] at none
    exact plain_filter none
  · intro each
    induction lines with
    | nil => rfl
    | cons line later ih =>
      have others := ih fun l inside => each l (List.mem_cons_of_mem _ inside)
      rw [List.flatMap_cons, others]
      rcases each line (List.mem_cons_self ..) with comment | percent
      · have none : kept line = [] := by
          obtain ⟨rest, rfl⟩ : ∃ rest, line = 37 :: rest := List.head?_eq_some_iff.mp comment
          simp [kept]
        simp [none, comment]
      · have other : line.head? ≠ some 37 := fun first => percent (List.mem_of_mem_head? first)
        simp [kept, percent, other]

theorem prints_start (opened : ℕ) (behind : Behind) (buf : UInt8) (stream text : Bytes) :
    Prints (start opened behind buf stream) text ↔ loops false 0 stream = some text := by
  have at_ : At false 0 (start opened behind buf stream) := ⟨rfl, rfl, fun impossible => absurd impossible Bool.false_ne_true⟩
  rw [prints_iff at_]
  constructor
  · rintro ⟨more, printed, rfl⟩
    exact printed
  · intro printed
    exact ⟨text, printed, rfl⟩

/-- The loops end when a line without `%` comes in front of two blank lines, or the rest
    of the stream behind its last newline has no `%`, and otherwise they never end. -/
theorem ends_iff (opened : ℕ) (behind : Behind) (buf : UInt8) (stream : Bytes) :
    (∃ n, (step^[n] (start opened behind buf stream)).pc = .done) ↔
      (∃ line, 37 ∉ line ∧ [line, [], []] <:+: linesOf 10 stream) ∨ 37 ∉ restOf 10 stream := by
  obtain ⟨clean, none⟩ := linesOf_clean 10 stream
  have ends := @loops_ends 0 _ _ none clean 2 (by decide)
  have three : List.replicate 3 ([] : Bytes) <+: linesOf 10 stream → BlankAfter (37 ∉ ·) (linesOf 10 stream) :=
    fun front => ⟨[], List.not_mem_nil, front.isInfix⟩
  have printed : (∃ n, (step^[n] (start opened behind buf stream)).pc = .done) ↔ loops false 0 stream ≠ .none := by
    rw [Option.ne_none_iff_exists']
    constructor
    · rintro ⟨n, done⟩
      exact ⟨_, (prints_start opened behind buf stream _).mp ⟨n, done, rfl⟩⟩
    · rintro ⟨text, printed⟩
      obtain ⟨n, done, -⟩ := (prints_start opened behind buf stream text).mpr printed
      exact ⟨n, done⟩
  rw [unlines_linesOf] at ends
  rw [printed, ends]
  exact ⟨fun either => either.elim (fun front => .inl (three front)) id, .inr⟩

/-- A client that leaves in a comment. -/
theorem ends_fails : ¬ ∃ n, (step^[n] (start 4 (.unused 0) 0 (ascii ['a', '\n', '%', ' ', 'b']))).pc = .done := by
  rintro ⟨n, done⟩
  have printed := (prints_start 4 (.unused 0) 0 _ _).mp ⟨n, done, rfl⟩
  exact absurd printed (Option.some_ne_none _).symm

/-! ### The file -/

/-- The store behind `buf` leaves `f` the descriptor of `clock.cpp`. -/
def Harmless (opened : ℕ) (behind : Behind) : Prop := behind = .descriptor → opened % 256 = 0

instance (opened : ℕ) (behind : Behind) : Decidable (Harmless opened behind) := inferInstanceAs (Decidable (_ → _))

/-- Between the rounds: the store was made, unless the first byte is still to be read, and the
    file has what was printed, or nothing. -/
structure Stored (opened : ℕ) (behind : Behind) (s : Receiver) : Prop where
  same : s.opened = opened ∧ s.shares = decide (behind = .descriptor)
  zero : s.behind = 0 ∨ s.pc = .outer ∧ s.unread ≠ []
  file : s.file = if Harmless opened behind then s.output else []

variable {opened : ℕ} {behind : Behind}

theorem f_of_zero (same : s.opened = opened ∧ s.shares = decide (behind = .descriptor)) (zero : s.behind = 0) :
    s.f = s.opened ↔ Harmless opened behind := by
  obtain ⟨rfl, shares⟩ := same
  cases behind with
  | unused value => simp [Receiver.f, shares, Harmless]
  | descriptor =>
    simp only [Receiver.f, shares, zero, Harmless, decide_true, if_true, forall_const, UInt8.toNat_zero]
    omega

theorem stored_write (stored : Stored opened behind s) (zero : s.behind = 0) : Stored opened behind s.write := by
  have f := f_of_zero stored.same zero
  refine ⟨stored.same, .inl zero, ?_⟩
  simp only [Receiver.write, f, stored.file]
  split <;> rfl

theorem step_stored (stored : Stored opened behind s) : Stored opened behind (step s) := by
  cases pc : s.pc with
  | done => rwa [step, pc]
  | inner =>
    have zero : s.behind = 0 := stored.zero.resolve_right fun first => by simp [pc] at first
    cases next : s.unread with
    | nil =>
      simp only [step, pc, Receiver.read, next]
      split
      · exact ⟨stored.same, .inl zero, stored.file⟩
      · exact stored
    | cons c rest =>
      simp only [step, pc, Receiver.read, next]
      split <;> exact ⟨stored.same, .inl zero, stored.file⟩
  | outer =>
    have at_ : At false s.emptyLine s := ⟨pc, rfl, fun impossible => absurd impossible Bool.false_ne_true⟩
    cases next : s.unread with
    | nil =>
      have zero : s.behind = 0 := stored.zero.resolve_right fun first => first.2 next
      have ended : step s = { { s with buf := 0, emptyLine := 0 }.write with pc := .done } := by
        simp [step, pc, Receiver.read, next, Receiver.terminate, Receiver.is]
      rw [ended]
      obtain ⟨same, -, file⟩ := stored_write (s := { s with buf := 0, emptyLine := 0 }) ⟨stored.same, .inl zero, stored.file⟩ zero
      exact ⟨same, .inl zero, file⟩
    | cons c rest =>
      rw [step_outer at_ next]
      split_ifs
      · exact ⟨stored.same, .inl rfl, stored.file⟩
      · exact stored_write ⟨stored.same, .inl rfl, stored.file⟩ rfl
      · exact ⟨stored.same, .inl rfl, stored.file⟩
      · exact stored_write ⟨stored.same, .inl rfl, stored.file⟩ rfl

/-- What is printed is what the file has, or the file is empty. -/
theorem writes_start {stream text : Bytes} (some' : stream ≠ []) (buf : UInt8) :
    Writes (start opened behind buf stream) text ↔
      ∃ printed, loops false 0 stream = some printed ∧ text = if Harmless opened behind then printed else [] := by
  have first : Stored opened behind (start opened behind buf stream) :=
    ⟨⟨rfl, rfl⟩, .inr ⟨rfl, some'⟩, by split <;> rfl⟩
  have stored : ∀ n, Stored opened behind (step^[n] (start opened behind buf stream)) := by
    intro n
    induction n with
    | zero => exact first
    | succ n ih =>
      rw [Function.iterate_succ_apply']
      exact step_stored ih
  constructor
  · rintro ⟨n, done, rfl⟩
    exact ⟨_, (prints_start opened behind buf stream _).mp ⟨n, done, rfl⟩, (stored n).file⟩
  · rintro ⟨printed, goes, rfl⟩
    obtain ⟨n, done, rfl⟩ := (prints_start opened behind buf stream printed).mpr goes
    exact ⟨n, done, (stored n).file⟩

theorem filtered_blank {last : Bytes} (clean : ∀ l ∈ lines, 10 ∉ l) (noneLast : 10 ∉ last) :
    filtered (unlines 10 lines ++ last ++ [10, 10]) =
      unlines 10 (lines.filter fun line => line.head? ≠ some 37) ++ (if last.head? = some 37 then [] else last ++ [10]) ++ [10] := by
  have all : ∀ l ∈ lines ++ [last, []], 10 ∉ l := by
    intro l inside
    rcases List.mem_append.mp inside with line | blank
    · exact clean l line
    · rcases List.mem_pair.mp blank with rfl | rfl
      · exact noneLast
      · exact List.not_mem_nil
  have whole : unlines 10 lines ++ last ++ [10, 10] = unlines 10 (lines ++ [last, []]) ++ [] := by simp
  rw [filtered, whole, (linesOf_unlines all List.not_mem_nil).1, List.filter_append, unlines_append]
  by_cases comment : last.head? = some 37
  · simp [comment]
  · simp [comment]

/-- Behind a line without `%` the third newline ends the loops. -/
theorem loops_stop {last : Bytes} (noneLast : 10 ∉ last) (plain : 37 ∉ last) (start : last = [] → e = 0) (after : Bytes) :
    loops false e (last ++ 10 :: 10 :: 10 :: after) = some (last ++ [10, 10]) := by
  rw [loops_line noneLast]
  by_cases blank : last = []
  · simp [blank, start blank, loops]
  · simp [blank, plain, kept, loops]

/-- Behind a comment it does not. -/
theorem loops_goes_on {last : Bytes} (noneLast : 10 ∉ last) (percent : 37 ∈ last) (e : ℕ) (after : Bytes) :
    loops false e (last ++ 10 :: 10 :: 10 :: after) = (loops false 2 after).map (kept last ++ 10 :: 10 :: ·) := by
  have some : last ≠ [] := List.ne_nil_of_mem percent
  rw [loops_line noneLast, if_neg some, if_pos percent]
  simp [loops, Function.comp_def]

/-- The loops print the text in front of the third newline, without the lines that begin with
    `%`, exactly if `%` is at the start of lines only, and the line that the first of the
    three newlines ends has none. -/
theorem printed_iff {before after : Bytes} (first : ¬ [10, 10, 10] <:+: before ++ [10, 10]) :
    loops false 0 (before ++ 10 :: 10 :: 10 :: after) = some (filtered (before ++ [10, 10])) ↔
      (∀ l ∈ linesOf 10 before, l.head? = some 37 ∨ 37 ∉ l) ∧ 37 ∉ restOf 10 before := by
  obtain ⟨clean, noneLast⟩ := linesOf_clean 10 before
  have text := unlines_linesOf 10 before
  generalize linesOf 10 before = lines at clean text ⊢
  generalize restOf 10 before = last at noneLast text ⊢
  subst text
  have noBlank : ¬ BlankAfter (fun _ => True) (lines ++ [last, []]) := by
    rintro ⟨l, -, front, behind, same⟩
    have inside : unlines 10 lines ++ last ++ [10, 10] = unlines 10 (front ++ [l, [], []] ++ behind) := by
      rw [same]
      simp
    refine first ⟨unlines 10 front ++ l, unlines 10 behind, ?_⟩
    rw [inside]
    simp
  have front : ¬ List.replicate 3 ([] : Bytes) <+: lines := fun blanks =>
    noBlank ⟨[], trivial, blanks.isInfix.trans (List.prefix_append ..).isInfix⟩
  have noneLines : ¬ BlankAfter (fun _ => True) lines := fun ⟨l, ofKind, inside⟩ =>
    noBlank ⟨l, ofKind, inside.trans (List.prefix_append ..).isInfix⟩
  obtain ⟨e, atStart, run⟩ := @loops_lines 0 lines clean 2 (by decide) front noneLines
  rw [List.append_assoc, run, filtered_blank clean noneLast]
  by_cases percent : 37 ∈ last
  · -- what goes on to be written has no `%` and one newline more
    have never : ¬ (loops false e (last ++ 10 :: 10 :: 10 :: after)).map (lines.flatMap kept ++ ·) =
        some (unlines 10 (lines.filter fun line => line.head? ≠ some 37) ++ (if last.head? = some 37 then [] else last ++ [10]) ++ [10]) := by
      intro same
      have none := loops_plain ((run _).trans same)
      simp only [List.mem_append, not_or] at none
      by_cases comment : last.head? = some 37
      · have others := kept_eq_filter.mpr (plain_filter none.1.1)
        rw [loops_goes_on noneLast percent, Option.map_map] at same
        obtain ⟨more, -, onward⟩ := Option.map_eq_some_iff.mp same
        rw [Function.comp_apply, others, if_pos comment, List.append_nil, List.append_right_inj] at onward
        have lengths := congrArg List.length onward
        simp only [List.length_append, List.length_cons, List.length_nil] at lengths
        omega
      · rw [if_neg comment] at none
        exact none.1.2 (List.mem_append_left _ percent)
    exact ⟨fun same => absurd same never, fun right => absurd percent right.2⟩
  · have other : last.head? ≠ some 37 := fun comment => percent (List.mem_of_mem_head? comment)
    have start : last = [] → e = 0 := by
      intro blank
      refine atStart (by_contra fun some => noBlank ?_)
      obtain ⟨earlier, l, rfl⟩ := List.eq_nil_or_concat lines |>.resolve_left some
      exact ⟨l, trivial, earlier, [], by simp [blank]⟩
    have whole : unlines 10 (lines.filter fun line => line.head? ≠ some 37) ++ (last ++ [10]) ++ [10] =
        unlines 10 (lines.filter fun line => line.head? ≠ some 37) ++ (last ++ [10, 10]) := by simp
    rw [loops_stop noneLast percent start, Option.map_some, if_neg other, Option.some.injEq, whole, List.append_left_inj, kept_eq_filter]
    exact (and_iff_left percent).symm

theorem filtered_ne_nil (before : Bytes) : filtered (before ++ [10, 10]) ≠ [] := by
  obtain ⟨clean, noneLast⟩ := linesOf_clean 10 before
  have text := unlines_linesOf 10 before
  rw [← text, filtered_blank clean noneLast]
  exact List.append_ne_nil_of_right_ne_nil _ (List.cons_ne_nil _ _)

/-- The file is the text in front of the third newline, without the lines that begin with
    `%`, exactly if the store behind `buf` does no harm, `%` is at the start of lines only,
    and the line that the first of the three newlines ends has none. -/
theorem written_iff (opened : ℕ) (behind : Behind) (buf : UInt8) {before after : Bytes}
    (first : ¬ [10, 10, 10] <:+: before ++ [10, 10]) :
    Writes (start opened behind buf (before ++ 10 :: 10 :: 10 :: after)) (filtered (before ++ [10, 10])) ↔
      Harmless opened behind ∧ (∀ l ∈ linesOf 10 before, l.head? = some 37 ∨ 37 ∉ l) ∧ 37 ∉ restOf 10 before := by
  have some' : before ++ 10 :: 10 :: 10 :: after ≠ [] := by simp
  have printed := @printed_iff before after first
  rw [writes_start some' buf, ← printed]
  by_cases harmless : Harmless opened behind
  · simp only [harmless, if_true, true_and]
    constructor
    · rintro ⟨printed, goes, same⟩
      rw [goes, same]
    · exact fun goes => ⟨_, goes, rfl⟩
  · simp [harmless, filtered_ne_nil]

/-- A comment between two lines, and three newlines behind the second; nothing is behind `buf`. -/
theorem written_sample :
    Writes (start 4 (.unused 0) 0 (ascii ['a', '\n', '%', 'b', '\n', 'c'] ++ 10 :: 10 :: 10 :: []))
        (filtered (ascii ['a', '\n', '%', 'b', '\n', 'c'] ++ [10, 10])) ↔
      Harmless 4 (.unused 0) ∧ (∀ l ∈ linesOf 10 (ascii ['a', '\n', '%', 'b', '\n', 'c']), l.head? = some 37 ∨ 37 ∉ l) ∧
        37 ∉ restOf 10 (ascii ['a', '\n', '%', 'b', '\n', 'c']) :=
  written_iff 4 (.unused 0) 0 (by decide)

/-- A `%` within a line. -/
theorem written_fails :
    ¬ Writes (start 4 (.unused 0) 0 (ascii ['1', '0', '0', ' ', '%', ' ', '7', '\n', '\n', '\n']))
      (filtered (ascii ['1', '0', '0', ' ', '%', ' ', '7', '\n', '\n'])) := by
  rw [writes_start (by simp [ascii])]
  decide

end OsyProg.CommentFilter
