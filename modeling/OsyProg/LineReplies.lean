import OsyProg.InputLines

/-!
`handle_client` of `cv_skuska/main.cpp`: a client sends lines and gets a reply to each.
The bytes of a line go into the array `line` over any number of calls of `read`, and
nothing compares `line_len` with `LINE`; whether the line is `quit` is asked of the
string in the array, which ends at the first zero of the line. So the replies are one to
each line, and the array is kept, exactly while the lines are shorter than the array and
no other line looks like `quit` (`handleClient_iff`).
-/
namespace OsyProg.LineReplies
open OsyProg.Bytes OsyProg.CStrings OsyProg.Lines OsyProg.InputLines

def quit : Bytes := ascii ['q', 'u', 'i', 't']
def ok : Bytes := ascii ['O', 'k', '\n']
def bye : Bytes := ascii ['B', 'y', 'e', '\n']

/-- The variables of `handle_client`, what the client was sent, and what went to the
    standard error output. -/
structure Client where
  line : Bytes
  lineLen : ℕ
  replies : Bytes
  stderr : Bytes

/-- The line that `dprintf` prints for the string in the array. -/
def received (line : Bytes) : Bytes := ascii ['R', 'X', ':', ' ', '\''] ++ cString line ++ ascii ['\'', '\n']

/-- The loop over the bytes of `buf`, and whether `handle_client` has returned in it. -/
def bytesLoop (s : Client) : Bytes → Option (Bool × Client)
  | [] => some (false, s)
  | c :: rest =>
    if c = 10 then
      (store s.line s.lineLen 0).bind fun line =>
        let s := { s with line, stderr := s.stderr ++ received line }
        if cString line = quit then some (true, { s with replies := s.replies ++ bye })
        else bytesLoop { s with replies := s.replies ++ ok, lineLen := 0 } rest
    else
      (store s.line s.lineLen c).bind fun line => bytesLoop { s with line, lineLen := s.lineLen + 1 } rest

def readLoop (s : Client) : List (Piece 64) → Option Client
  | [] => some s
  | buf :: later => (bytesLoop s buf.bytes).bind fun (returned, s) => if returned then some s else readLoop s later

/-- `handle_client`; `junk` is what the array holds at first. -/
def handleClient (junk : Fresh LINE) (pieces : List (Piece 64)) : Option Client :=
  readLoop { line := junk.val, lineLen := 0, replies := [], stderr := [] } pieces

/-! ### The replies to a text -/

/-- The replies that are due: `Ok` to each line in front of `quit`, and `Bye` to that. -/
def expected (lines : List Bytes) : Bytes :=
  (lines.takeWhile fun l => l ≠ quit).flatMap (fun _ => ok) ++ if quit ∈ lines then bye else []

/-- The replies that are given to the lines and to the rest of a text, unless a byte goes
    outside the array. -/
def answers (rest : Bytes) : List Bytes → Option Bytes
  | [] => if rest.length ≤ LINE then some [] else none
  | line :: later =>
    if line.length < LINE then if cString line = quit then some bye else (answers rest later).map (ok ++ ·) else none

/-- The array holds the beginning of a line. -/
structure Holds (s : Client) (part : Bytes) : Prop where
  array : s.line.length = LINE
  lineLen : s.lineLen = part.length
  kept : s.line.take part.length = part

variable {s : Client}

theorem bytesLoop_append (s : Client) (first second : Bytes) :
    bytesLoop s (first ++ second) = (bytesLoop s first).bind fun (returned, s) => if returned then some (true, s) else bytesLoop s second := by
  induction first generalizing s with
  | nil => rfl
  | cons c rest ih =>
    simp only [List.cons_append, bytesLoop]
    split
    · cases store s.line s.lineLen 0 with
      | none => rfl
      | some line =>
        simp only [Option.bind_some]
        split
        · rfl
        · exact ih _
    · cases store s.line s.lineLen c with
      | none => rfl
      | some line => exact ih _

/-- The pieces into which `read` cuts the text make no difference. -/
theorem readLoop_stream (s : Client) (pieces : List (Piece 64)) : readLoop s pieces = (bytesLoop s (stream pieces)).map Prod.snd := by
  induction pieces generalizing s with
  | nil => rfl
  | cons buf later ih =>
    rw [stream, List.flatMap_cons, ← stream, bytesLoop_append, readLoop]
    cases bytesLoop s buf.bytes with
    | none => rfl
    | some result =>
      obtain ⟨returned, s⟩ := result
      cases returned with
      | false => exact ih s
      | true => rfl

theorem Holds.put (c : UInt8) {begun : Bytes} (holds : Holds s begun) (room : begun.length < LINE) :
    ∃ line, store s.line s.lineLen c = some line ∧ Holds { s with line, lineLen := s.lineLen + 1 } (begun ++ [c]) := by
  have inside : s.lineLen < s.line.length := by rw [holds.array, holds.lineLen]; exact room
  obtain ⟨line, put, same, _, taken⟩ := store_inside inside c
  refine ⟨line, put, same.trans holds.array, ?_, ?_⟩
  · rw [List.length_append, List.length_singleton, holds.lineLen]
  · rw [List.length_append, List.length_singleton, ← holds.lineLen, taken, holds.lineLen, holds.kept]

/-- The bytes of a line go behind those that the array holds. -/
theorem bytesLoop_part {part : Bytes} (none : 10 ∉ part) (more : Bytes) {begun : Bytes} (holds : Holds s begun)
    (fits : (begun ++ part).length ≤ LINE) :
    ∃ line, Holds { s with line, lineLen := (begun ++ part).length } (begun ++ part) ∧
      bytesLoop s (part ++ more) = bytesLoop { s with line, lineLen := (begun ++ part).length } more := by
  induction part generalizing s begun with
  | nil =>
    rw [List.append_nil] at fits ⊢
    exact ⟨s.line, ⟨holds.array, rfl, holds.kept⟩, by rw [← holds.lineLen]; rfl⟩
  | cons c rest ih =>
    have other : c ≠ 10 := fun same => none (by simp [same])
    have room : begun.length < LINE := by
      simp only [List.length_append, List.length_cons] at fits
      omega
    obtain ⟨line, put, next⟩ := holds.put c room
    obtain ⟨stored, kept, run⟩ := ih (fun inside => none (List.mem_cons_of_mem _ inside)) next (by rwa [← List.append_cons])
    rw [← List.append_cons] at kept run
    refine ⟨stored, kept, ?_⟩
    rw [List.cons_append, bytesLoop, if_neg other, put, Option.bind_some, run]

/-- Bytes that do not fit go outside the array. -/
theorem bytesLoop_outside {part : Bytes} (none : 10 ∉ part) (more : Bytes) {begun : Bytes} (holds : Holds s begun)
    (fits : begun.length ≤ LINE) (long : LINE < (begun ++ part).length) : bytesLoop s (part ++ more) = .none := by
  induction part generalizing s begun with
  | nil =>
    rw [List.append_nil] at long
    omega
  | cons c rest ih =>
    have other : c ≠ 10 := fun same => none (by simp [same])
    rw [List.cons_append, bytesLoop, if_neg other]
    rcases Nat.lt_or_ge begun.length LINE with room | full
    · obtain ⟨line, put, next⟩ := holds.put c room
      rw [put, Option.bind_some]
      refine ih (fun inside => none (List.mem_cons_of_mem _ inside)) next ?_ (by rwa [← List.append_cons])
      rw [List.length_append, List.length_singleton]
      exact room
    · rw [store_outside (by rw [holds.array, holds.lineLen]; exact full), Option.bind_none]

/-- The newline of a line that fits is a zero in the array, so the string there is that of the line. -/
theorem Holds.terminate {part : Bytes} (holds : Holds s part) (room : part.length < LINE) :
    ∃ line, store s.line s.lineLen 0 = some line ∧ line.length = LINE ∧ cString line = cString part := by
  obtain ⟨line, put, next⟩ := holds.put 0 room
  refine ⟨line, put, next.array, ?_⟩
  rw [← List.take_append_drop (part ++ [0]).length line, next.kept, List.append_assoc, List.singleton_append, cString_zero]

theorem bytesLoop_answers {rest : Bytes} (noneRest : 10 ∉ rest) {lines : List Bytes} (clean : ∀ l ∈ lines, 10 ∉ l) (start : Holds s []) :
    (bytesLoop s (unlines 10 lines ++ rest)).map (fun result => result.2.replies) = (answers rest lines).map (s.replies ++ ·) := by
  induction lines generalizing s with
  | nil =>
    rw [unlines_nil, List.nil_append, ← List.append_nil rest]
    by_cases fits : rest.length ≤ LINE
    · obtain ⟨line, -, run⟩ := bytesLoop_part noneRest [] start fits
      rw [run, List.append_nil, answers, if_pos fits, bytesLoop, Option.map_some, Option.map_some, List.append_nil]
    · rw [bytesLoop_outside noneRest [] start (Nat.zero_le _) (Nat.not_le.mp fits), List.append_nil, answers, if_neg fits]
      rfl
  | cons line later ih =>
    have none : 10 ∉ line := clean line (List.mem_cons_self ..)
    rw [unlines_cons, List.append_assoc, List.cons_append, answers]
    by_cases long : LINE < line.length
    · rw [bytesLoop_outside none _ start (Nat.zero_le _) long, if_neg (by omega)]
      rfl
    obtain ⟨array, holds, run⟩ := bytesLoop_part none (10 :: (unlines 10 later ++ rest)) start (Nat.not_lt.mp long)
    rw [List.nil_append] at holds run
    rw [run, bytesLoop, if_pos rfl]
    by_cases fits : line.length < LINE
    · obtain ⟨ended, put, size, string⟩ := holds.terminate fits
      rw [put, Option.bind_some, if_pos fits]
      dsimp only
      rw [string]
      by_cases quits : cString line = quit
      · rw [if_pos quits, if_pos quits]
        rfl
      · rw [if_neg quits, if_neg quits, ih (fun l inside => clean l (List.mem_cons_of_mem _ inside)) ⟨size, rfl, rfl⟩,
          Option.map_map]
        congr 1
        funext more
        exact List.append_assoc ..
    · rw [store_outside (by rw [holds.array, holds.lineLen]; exact Nat.not_lt.mp fits), if_neg fits]
      rfl

/-- What the client is sent depends on the lines of the text only. -/
theorem handleClient_answers (junk : Fresh LINE) (pieces : List (Piece 64)) :
    (handleClient junk pieces).map Client.replies = answers (restOf 10 (stream pieces)) (linesOf 10 (stream pieces)) := by
  obtain ⟨clean, none⟩ := linesOf_clean 10 (stream pieces)
  have start : Holds { line := junk.val, lineLen := 0, replies := [], stderr := [] } [] :=
    ⟨junk.property, rfl, rfl⟩
  have run := bytesLoop_answers none clean start
  rw [unlines_linesOf] at run
  rw [handleClient, readLoop_stream, Option.map_map]
  refine run.trans ?_
  cases answers (restOf 10 (stream pieces)) (linesOf 10 (stream pieces)) <;> rfl

/-- The answers are those that are due when no line up to `quit` is as long as the
    array or looks like `quit`, and what is left without a newline fits as well. -/
theorem answers_iff (rest : Bytes) (lines : List Bytes) :
    answers rest lines = some (expected lines) ↔
      (∀ l ∈ lines.takeWhile (fun l => l ≠ quit), l.length < LINE ∧ cString l ≠ quit) ∧ (quit ∈ lines ∨ rest.length ≤ LINE) := by
  induction lines with
  | nil =>
    by_cases fits : rest.length ≤ LINE <;> simp [answers, expected, fits]
  | cons line later ih =>
    by_cases same : line = quit
    · subst same
      have stops : quit.length < LINE ∧ cString quit = quit := by decide
      simp [answers, expected, stops]
    · have onward : expected (line :: later) = ok ++ expected later := by
        simp [expected, same, Ne.symm same]
      have member : quit ∈ line :: later ↔ quit ∈ later := by simp [Ne.symm same]
      have span : (line :: later).takeWhile (fun l => l ≠ quit) = line :: later.takeWhile fun l => l ≠ quit := by simp [same]
      rw [answers, onward, member, span, List.forall_mem_cons]
      by_cases fits : line.length < LINE
      · by_cases quits : cString line = quit
        · -- the client is told `Bye` where `Ok` is due
          have differs : bye ≠ ok ++ expected later := fun agree => absurd (List.cons.inj agree).1 (by decide)
          simp [fits, quits, differs]
        · have more : some (ok ++ expected later) = (some (expected later)).map (ok ++ ·) := rfl
          rw [if_pos fits, if_neg quits, more, (Option.map_injective (List.append_right_injective ok)).eq_iff, ih]
          simp [fits, quits]
      · simp [fits]

/-- The client gets the replies that are due, and all stores are inside the array,
    exactly if that holds of what it sends. -/
theorem handleClient_iff (junk : Fresh LINE) (pieces : List (Piece 64)) :
    (handleClient junk pieces).map Client.replies = some (expected (linesOf 10 (stream pieces))) ↔
      (∀ l ∈ (linesOf 10 (stream pieces)).takeWhile (fun l => l ≠ quit), l.length < LINE ∧ cString l ≠ quit) ∧
        (quit ∈ linesOf 10 (stream pieces) ∨ (restOf 10 (stream pieces)).length ≤ LINE) := by
  rw [handleClient_answers, answers_iff]

/-- A client that sends 1088 bytes without a newline. -/
theorem handleClient_overflow :
    ¬ (handleClient ⟨List.replicate LINE 0, List.length_replicate⟩ (List.replicate 17 ⟨List.replicate 64 97, by decide, by decide⟩)).map Client.replies =
      some (expected (linesOf 10 (stream (List.replicate 17 (⟨List.replicate 64 97, by decide, by decide⟩ : Piece 64))))) := by
  have text : stream (List.replicate 17 (⟨List.replicate 64 97, by decide, by decide⟩ : Piece 64)) =
      unlines 10 [] ++ List.replicate (17 * 64) 97 := by
    rw [stream, List.flatMap_def, List.map_replicate, List.flatten_replicate_replicate]
    rfl
  have none : (10 : UInt8) ∉ List.replicate (17 * 64) 97 := fun inside => absurd (List.eq_of_mem_replicate inside) (by decide)
  obtain ⟨lines, rest⟩ := linesOf_unlines (fun l inside => absurd inside List.not_mem_nil) none
  rw [handleClient_answers, text, lines, rest, answers, if_neg (by rw [List.length_replicate]; decide)]
  exact (Option.some_ne_none _).symm

end OsyProg.LineReplies
