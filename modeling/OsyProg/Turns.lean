import OsyProg.CStrings
import OsyProg.Interleaving

/-!
The game of `skuska_piskvorky/socket_srv.cpp` between the two processes of the
clients, from the point where they have the indices 0 and 1. Two semaphores pass the
turn; a move is read into a buffer that the process reuses, cut by `strtok` and set
on the board in the shared memory. A client that hangs up while its process has the turn
ends the process by SIGPIPE, and nobody has the turn any more (`game_left`). While every
move that is read names a free cell and no client hangs up so (`Stays`), the processes
take turns, each sets the cell its move names and no other (`Phase`, `step_plays`), and
the board stays balanced (`game`).
-/
namespace OsyProg.Turns
open OsyProg.Bytes OsyProg.CStrings OsyProg.Interleaving OsyProg.Runs

/-- A row and a column of the board. -/
abbrev Cell := Fin 5 × Fin 5

/-- The board and the semaphores of `struct SharedMemory`. -/
structure Shared where
  field : Cell → UInt8
  players : Fin 2 → ℕ

/-- The statements of the loop in `client_handle`. -/
inductive Pc
  | semWait       -- sem_wait(&shmm->players[index])
  | sendBoard     -- send_board(scl); dprintf(scl, "Zadaj tah\n")
  | read          -- read(scl, buf, sizeof(buf))
  | mark          -- from strtok(buf, "-") to shmm->field[atoi(row)][col_i] = my
  | sendResult    -- send_board(scl)
  | semPost       -- sem_post(&shmm->players[1-index])
  | ended         -- by SIGPIPE: nothing handles or ignores it
  deriving DecidableEq

/-- How a statement goes on: it is done, a read delivers bytes, or the client hangs up when
    so many bytes of what the statement writes have been written. -/
inductive Choice
  | go
  | data (bytes : Bytes)
  | hangup (written : ℕ)
  deriving DecidableEq

/-- The process of a client, with its own copy of the global `buf`, and what it has
    written to its client. -/
structure Player where
  index : Fin 2
  pc : Pc
  buf : Bytes
  output : Bytes

abbrev Game := System Shared Player (Fin 2)

/-- `sizeof(buf)` -/
def bufSize : ℕ := 128

def free : UInt8 := 46
/-- `my` -/
def my (index : Fin 2) : UInt8 := if index = 0 then 88 else 79

/-- `cols` -/
def cols : Bytes := ascii ['A', 'B', 'C', 'D', 'E']

/-- What `send_board` writes. -/
def sendBoard (field : Cell → UInt8) : Bytes :=
  let line := List.replicate 18 45 ++ [10]
  let rows := (List.finRange 5).flatMap fun i => ((List.finRange 5).map fun j => field (i, j)) ++ [10]
  [line, line, rows, line, line].flatten

/-- The loop over `cols`: `col_i`, which is -1 when no column has the letter. -/
def columnOf (letter : UInt8) : ℤ :=
  match (List.finRange 5).find? fun i : Fin 5 => cols.getD i.val 0 = letter with
  | some i => i.val
  | none => -1

/-- The two calls of `strtok`: `atoi(row)`, `col_i` and the buffer after them. A text
    without one of the two tokens makes the process read through NULL. -/
def parseMove (buf : Bytes) : Option (ℤ × ℤ × Bytes) :=
  match strtok buf [45] 0 with
  | (some col, buf, saved) =>
    match strtok buf [] saved with
    | (some row, buf, _) => some (atoi (cString (buf.drop row)), columnOf (buf.getD col 0), buf)
    | (none, _) => none
  | (none, _) => none

/-- The cell with the given indices, when they are inside the array. -/
def cellOf (row col : ℤ) : Option Cell :=
  if inside : (0 ≤ row ∧ row < 5) ∧ 0 ≤ col ∧ col < 5 then
    some (⟨row.toNat, by omega⟩, ⟨col.toNat, by omega⟩)
  else none

/-- What a statement writes to the client. -/
def sent (s : Shared) : Pc → Bytes
  | .sendBoard => sendBoard s.field ++ ascii ['Z', 'a', 'd', 'a', 'j', ' ', 't', 'a', 'h', '\n']
  | .sendResult => sendBoard s.field
  | _ => []

/-- A statement of the loop in `client_handle`; a read may deliver any bytes that fit
    into the buffer. -/
def procStep (s : Shared) (p : Player) (choice : Choice) : Option (Shared × Player) :=
  match p.pc, choice with
  | .semWait, .go =>
    if 0 < s.players p.index then
      some ({ s with players := Function.update s.players p.index (s.players p.index - 1) }, { p with pc := .sendBoard })
    else none
  | .sendBoard, .go => some (s, { p with pc := .read, output := p.output ++ sent s .sendBoard })
  | .sendBoard, .hangup written => some (s, { p with pc := .ended, output := p.output ++ (sent s .sendBoard).take written })
  | .read, .data bytes =>
    if bytes.length ≤ bufSize then some (s, { p with pc := .mark, buf := bytes ++ p.buf.drop bytes.length }) else none
  | .mark, .go =>
    (parseMove p.buf).bind fun (row, col, buf) =>
      (cellOf row col).map fun cell =>
        ({ s with field := Function.update s.field cell (my p.index) }, { p with pc := .sendResult, buf := buf })
  | .sendResult, .go => some (s, { p with pc := .semPost, output := p.output ++ sent s .sendResult })
  | .sendResult, .hangup written => some (s, { p with pc := .ended, output := p.output ++ (sent s .sendResult).take written })
  | .semPost, .go =>
    some ({ s with players := Function.update s.players (1 - p.index) (s.players (1 - p.index) + 1) }, { p with pc := .semWait })
  | _, _ => none

/-- The state once both clients have got their indices: the board and the semaphores
    are as `main` has set them. -/
def start : Game :=
  { shared := { field := fun _ => free, players := fun i => if i = 0 then 1 else 0 }
    pc := fun i => { index := i, pc := .semWait, buf := List.replicate bufSize 0, output := [] } }

/-! ### What the game should be -/

/-- A move in the form that the server asks for: the letter of the column, a dash, the
    number of the row, and the end of the line. -/
def moveText (cell : Cell) : Bytes := [(65 + cell.2.val).toUInt8, 45, (48 + cell.1.val).toUInt8, 10]

/-- A read delivers a move that names a cell that is still free. -/
def ReadsMove (s : Game) (move : Fin 2 × Choice) : Prop :=
  (s.pc move.1).pc = .read → ∃ cell, move.2 = .data (moveText cell) ∧ s.shared.field cell = free

instance (s : Game) (move : Fin 2 × Choice) : Decidable (ReadsMove s move) :=
  inferInstanceAs (Decidable ((s.pc move.1).pc = .read → ∃ cell, move.2 = .data (moveText cell) ∧ s.shared.field cell = free))

/-- Nothing is written to a client that has hung up. -/
def Stays (_ : Game) (move : Fin 2 × Choice) : Prop := ∀ written, move.2 ≠ .hangup written

instance (s : Game) (move : Fin 2 × Choice) : Decidable (Stays s move) :=
  match known : move.2 with
  | .hangup written => isFalse fun stays => stays written known
  | .go | .data _ => isTrue fun _ => by rw [known]; exact Choice.noConfusion

/-- A read with the bytes it delivers, and a cell that is set. -/
inductive Event
  | read (index : Fin 2) (data : Bytes)
  | set (index : Fin 2) (cell : Cell) (mark : UInt8)
  deriving DecidableEq

/-- What a step of the game shows. -/
def event (s : Game) (move : Fin 2 × Choice) : List Event :=
  let p := s.pc move.1
  match p.pc, move.2 with
  | .read, .data bytes => [.read p.index bytes]
  | .mark, .go =>
    match (parseMove p.buf).bind fun (row, col, _) => cellOf row col with
    | some cell => [.set p.index cell (my p.index)]
    | none => []
  | _, _ => []

/-- The index of the player whose turn it is after `k` moves. -/
def turn (k : ℕ) : Fin 2 := ⟨k % 2, Nat.mod_lt k (by decide)⟩

/-- The players move in turn, index 0 first: each reads a move and sets the cell that
    the move names. -/
def turns (cells : List Cell) : List Event :=
  cells.zipIdx.flatMap fun (cell, k) => [.read (turn k) (moveText cell), .set (turn k) cell (my (turn k))]

/-- The board after the moves to the given cells. -/
def boardOf (cells : List Cell) : Cell → UInt8 :=
  cells.zipIdx.foldl (fun field (cell, k) => Function.update field cell (my (turn k))) fun _ => free

/-- The number of cells with a mark. -/
def marks (field : Cell → UInt8) (mark : UInt8) : ℕ := (Finset.univ.filter fun cell => field cell = mark).card

/-- The processes between `sem_wait` and `sem_post`. -/
def between (s : Game) : Finset (Fin 2) := Finset.univ.filter fun i => (s.pc i).pc ≠ .semWait ∧ (s.pc i).pc ≠ .ended

/-! ### Reading a move -/

/-- What is left of a buffer behind a move: the zeros it started with. -/
def zeros : Bytes := List.replicate 124 0

/-- A letter, a dash, a digit and the end of the line, with zeros behind, as the code
    reads them: the second `strtok` goes to the end of the string, and `atoi` ends at
    the end of the line. -/
theorem parseMove_line {letter : UInt8} {d : ℕ} (small : d < 10) (plain : letter ≠ 0 ∧ letter ≠ 45) :
    parseMove ([letter, 45, (48 + d).toUInt8, 10] ++ zeros) =
      some ((d : ℤ), columnOf letter, [letter, 0, (48 + d).toUInt8, 10] ++ zeros) := by
  have digit : (48 + d).toUInt8 ≠ 0 := by
    rw [ne_eq, ← UInt8.toNat_inj, show ((48 + d).toUInt8).toNat = 48 + d from Nat.mod_eq_of_lt (by omega)]
    show ¬ 48 + d = 0
    omega
  generalize digitIs : (48 + d).toUInt8 = c at digit ⊢
  have first : strtok ([letter, 45, c, 10] ++ zeros) [45] 0 = (some 0, [letter, 0, c, 10] ++ zeros, 2) :=
    @strtok_token [] [letter] (c :: 10 :: zeros) [45] 45 (by simp) (by simpa using plain) (.inr (by decide))
  have second : strtok ([letter, 0, c, 10] ++ zeros) [] 2 = (some 2, [letter, 0, c, 10] ++ zeros, 4) :=
    @strtok_token [letter, 0] [c, 10] (List.replicate 123 0) [] 0 (by simp) (by simpa using digit) (.inl rfl)
  have text : cString (([letter, 0, c, 10] ++ zeros).drop 2) = [c, 10] := by
    simp [cString, zeros, List.replicate_succ, digit]
  have value : atoi [c, 10] = d := digitIs ▸ atoi_digit small (by decide)
  simp only [parseMove, first, second, text, value]
  rfl

theorem parseMove_moveText (cell : Cell) :
    parseMove (moveText cell ++ zeros) =
      some ((cell.1.val : ℤ), (cell.2.val : ℤ), [(65 + cell.2.val).toUInt8, 0, (48 + cell.1.val).toUInt8, 10] ++ zeros) := by
  obtain ⟨row, col⟩ := cell
  have letter : ((65 + col.val).toUInt8 ≠ 0 ∧ (65 + col.val).toUInt8 ≠ 45) ∧ columnOf (65 + col.val).toUInt8 = col.val := by
    revert col
    decide
  have read := parseMove_line (d := row.val) (by omega) letter.1
  rw [letter.2] at read
  exact read

theorem cellOf_val (cell : Cell) : cellOf cell.1.val cell.2.val = some cell := by
  have := cell.1.isLt
  have := cell.2.isLt
  rw [cellOf, dif_pos ⟨⟨by omega, by omega⟩, by omega, by omega⟩]
  rfl

/-! ### The board -/

theorem turn_succ (k : ℕ) : turn (k + 1) = 1 - turn k := by
  have cases : k % 2 = 0 ∨ k % 2 = 1 := by omega
  rcases cases with even | odd
  · have odd : (k + 1) % 2 = 1 := by omega
    simp [turn, even, odd]
  · have even : (k + 1) % 2 = 0 := by omega
    simp [turn, even, odd]

theorem turns_concat (cells : List Cell) (cell : Cell) :
    turns (cells ++ [cell]) = turns cells ++
      [.read (turn cells.length) (moveText cell), .set (turn cells.length) cell (my (turn cells.length))] := by
  simp [turns, List.zipIdx_append]

theorem boardOf_concat (cells : List Cell) (cell : Cell) :
    boardOf (cells ++ [cell]) = Function.update (boardOf cells) cell (my (turn cells.length)) := by
  simp [boardOf, List.zipIdx_append]

/-- Setting a cell without the mark adds to the marks of the kind that is set. -/
theorem marks_update {field : Cell → UInt8} {cell : Cell} (mark : UInt8) (absent : field cell ≠ mark) (value : UInt8) :
    marks (Function.update field cell value) mark = marks field mark + if value = mark then 1 else 0 := by
  unfold marks
  by_cases same : value = mark
  · have grown : (Finset.univ.filter fun c => Function.update field cell value c = mark) =
        insert cell (Finset.univ.filter fun c => field c = mark) := by
      ext c
      by_cases here : c = cell
      · simp [here, same]
      · simp [here]
    rw [grown, Finset.card_insert_of_notMem (by simpa using absent), if_pos same]
  · have kept : (Finset.univ.filter fun c => Function.update field cell value c = mark) =
        Finset.univ.filter fun c => field c = mark := by
      ext c
      by_cases here : c = cell
      · simp [here, same, absent]
      · simp [here]
    rw [kept, if_neg same, Nat.add_zero]

/-- After `k` moves there are as many crosses as noughts, or one more. -/
def Balanced (field : Cell → UInt8) (k : ℕ) : Prop :=
  marks field (my 0) = (k + 1) / 2 ∧ marks field (my 1) = k / 2

theorem balanced_start : Balanced (boardOf []) 0 := by
  have none : ∀ mark, free ≠ mark → marks (boardOf []) mark = 0 := by
    intro mark other
    exact Finset.card_eq_zero.mpr (Finset.filter_eq_empty_iff.mpr fun c _ => other)
  exact ⟨none (my 0) (by decide), none (my 1) (by decide)⟩

theorem balanced_move {field : Cell → UInt8} {k : ℕ} {cell : Cell} (balanced : Balanced field k) (open_ : field cell = free) :
    Balanced (Function.update field cell (my (turn k))) (k + 1) := by
  obtain ⟨crosses, noughts⟩ := balanced
  have cross := marks_update (my 0) (show field cell ≠ my 0 by rw [open_]; decide) (my (turn k))
  have nought := marks_update (my 1) (show field cell ≠ my 1 by rw [open_]; decide) (my (turn k))
  have cases : k % 2 = 0 ∨ k % 2 = 1 := by omega
  rcases cases with even | odd
  · have first : turn k = 0 := Fin.ext even
    rw [first, if_pos rfl] at cross
    rw [first, if_neg (by decide)] at nought
    rw [first, Balanced, cross, nought]
    omega
  · have second : turn k = 1 := Fin.ext odd
    rw [second, if_neg (by decide)] at cross
    rw [second, if_pos rfl] at nought
    rw [second, Balanced, cross, nought]
    omega

/-! ### What holds between two statements -/

/-- Where the two processes are after the moves to the given cells, and the read that
    is still to be set on the board. -/
inductive Phase (s : Game) (cells : List Cell) : List Event → Prop
  | idle (sems : s.shared.players (turn cells.length) = 1 ∧ s.shared.players (1 - turn cells.length) = 0)
      (waits : ∀ i, (s.pc i).pc = .semWait) : Phase s cells []
  | asked (sems : ∀ i, s.shared.players i = 0) (other : (s.pc (1 - turn cells.length)).pc = .semWait)
      (here : (s.pc (turn cells.length)).pc = .sendBoard ∨ (s.pc (turn cells.length)).pc = .read) : Phase s cells []
  | answered (cell : Cell) (sems : ∀ i, s.shared.players i = 0) (other : (s.pc (1 - turn cells.length)).pc = .semWait)
      (here : (s.pc (turn cells.length)).pc = .mark) (named : (s.pc (turn cells.length)).buf = moveText cell ++ zeros)
      (open_ : s.shared.field cell = free) : Phase s cells [.read (turn cells.length) (moveText cell)]
  | moved (sems : ∀ i, s.shared.players i = 0) (other : (s.pc (turn cells.length)).pc = .semWait)
      (here : (s.pc (1 - turn cells.length)).pc = .sendResult ∨ (s.pc (1 - turn cells.length)).pc = .semPost) : Phase s cells []

/-- Each process has its own index, and a buffer with four bytes before the zeros. -/
def Fit (s : Game) : Prop := ∀ i, (s.pc i).index = i ∧ ∃ head : Bytes, head.length = 4 ∧ (s.pc i).buf = head ++ zeros

/-- The state and what was seen before it: some moves are done, and one may be read. -/
def Plays (s : Game) (past : List Event) : Prop :=
  ∃ cells pending, past = turns cells ++ pending ∧ Phase s cells pending ∧ s.shared.field = boardOf cells ∧
    Balanced s.shared.field cells.length ∧ Fit s

theorem other_index (i j : Fin 2) : i = j ∨ i = 1 - j := by
  revert i j
  decide

theorem other_ne (j : Fin 2) : 1 - j ≠ j := by
  revert j
  decide

theorem other_other (j : Fin 2) : 1 - (1 - j) = j := by
  revert j
  decide

theorem start_plays : Plays start [] := by
  refine ⟨[], [], rfl, .idle ⟨rfl, rfl⟩ fun _ => rfl, rfl, balanced_start, fun i => ⟨rfl, [0, 0, 0, 0], rfl, ?_⟩⟩
  exact (List.replicate_append_replicate (n := 4) (m := 124) (a := (0 : UInt8))).symm

attribute [local simp] procStep

/-- A process whose semaphore is zero waits. -/
theorem semWait_waits {s t : Game} {i : Fin 2} {choice : Choice} (fit : Fit s) (here : (s.pc i).pc = .semWait)
    (zero : s.shared.players i = 0) : step procStep s (i, choice) ≠ some t := by
  intro taken
  obtain ⟨shared, p, own, -⟩ := step_cases taken
  cases choice <;> simp [here, (fit i).1, zero] at own

theorem fit_update {s : Game} {i : Fin 2} {shared : Shared} {p : Player} {head : Bytes} (fit : Fit s) (index : p.index = i)
    (four : head.length = 4) (buf : p.buf = head ++ zeros) :
    Fit { shared := shared, pc := Function.update s.pc i p } :=
  forall_update (P := fun i (p : Player) => p.index = i ∧ ∃ head : Bytes, head.length = 4 ∧ p.buf = head ++ zeros)
    (fun j _ => fit j) ⟨index, head, four, buf⟩

/-! ### One lemma for each statement -/

section
variable {s : Game} {cells : List Cell} {choice : Choice} {shared : Shared} {p : Player}

/-- The state after a step of process `i`. -/
def after (s : Game) (i : Fin 2) (shared : Shared) (p : Player) : Game := { shared, pc := Function.update s.pc i p }

theorem after_self (i : Fin 2) : (after s i shared p).pc i = p := Function.update_self ..

theorem after_other {i j : Fin 2} (other : j ≠ i) : (after s i shared p).pc j = s.pc j := Function.update_of_ne other ..

theorem own_buf (fit : Fit s) (i : Fin 2) : ∃ head : Bytes, head.length = 4 ∧ (s.pc i).buf = head ++ zeros := (fit i).2

theorem semWait_plays (sems : s.shared.players (turn cells.length) = 1 ∧ s.shared.players (1 - turn cells.length) = 0)
    (waits : ∀ i, (s.pc i).pc = .semWait) (fit : Fit s)
    (own : procStep s.shared (s.pc (turn cells.length)) choice = some (shared, p)) :
    shared.field = s.shared.field ∧ Phase (after s (turn cells.length) shared p) cells [] ∧
      Fit (after s (turn cells.length) shared p) := by
  obtain ⟨head, four, buf⟩ := own_buf fit (turn cells.length)
  cases choice <;> simp only [procStep, waits, (fit _).1, sems.1, Nat.lt_add_one, if_true, Option.some.injEq, Prod.mk.injEq, reduceCtorEq] at own
  obtain ⟨rfl, rfl⟩ := own
  refine ⟨rfl, .asked ?_ ?_ ?_, fit_update fit rfl four buf⟩
  · intro k
    rcases other_index k (turn cells.length) with rfl | rfl
    · simp [after]
    · simp [after, other_ne, sems.2]
  · rw [after_other (other_ne _)]
    exact waits _
  · rw [after_self]
    exact .inl rfl

theorem sendBoard_plays (sems : ∀ i, s.shared.players i = 0) (other : (s.pc (1 - turn cells.length)).pc = .semWait)
    (asks : (s.pc (turn cells.length)).pc = .sendBoard) (fit : Fit s) (stays : ∀ written, choice ≠ .hangup written)
    (own : procStep s.shared (s.pc (turn cells.length)) choice = some (shared, p)) :
    shared.field = s.shared.field ∧ Phase (after s (turn cells.length) shared p) cells [] ∧
      Fit (after s (turn cells.length) shared p) := by
  obtain ⟨head, four, buf⟩ := own_buf fit (turn cells.length)
  cases choice <;> simp only [procStep, asks, Option.some.injEq, Prod.mk.injEq, reduceCtorEq] at own
  case hangup written => exact absurd rfl (stays written)
  obtain ⟨rfl, rfl⟩ := own
  refine ⟨rfl, .asked sems ?_ ?_, fit_update fit (fit _).1 four buf⟩
  · rw [after_other (other_ne _)]
    exact other
  · rw [after_self]
    exact .inr rfl

theorem read_plays {cell : Cell} (sems : ∀ i, s.shared.players i = 0)
    (other : (s.pc (1 - turn cells.length)).pc = .semWait) (reads : (s.pc (turn cells.length)).pc = .read)
    (open_ : s.shared.field cell = free) (fit : Fit s)
    (own : procStep s.shared (s.pc (turn cells.length)) (.data (moveText cell)) = some (shared, p)) :
    shared.field = s.shared.field ∧
      Phase (after s (turn cells.length) shared p) cells [.read (turn cells.length) (moveText cell)] ∧
      Fit (after s (turn cells.length) shared p) := by
  obtain ⟨head, four, buf⟩ := own_buf fit (turn cells.length)
  have short : (moveText cell).length ≤ bufSize := show 4 ≤ 128 by omega
  -- The four bytes of the move replace the four bytes before the zeros.
  have behind : (s.pc (turn cells.length)).buf.drop (moveText cell).length = zeros := by
    rw [buf, show (moveText cell).length = head.length by rw [four]; rfl, List.drop_left]
  simp only [procStep, reads, if_pos short, behind, Option.some.injEq, Prod.mk.injEq] at own
  obtain ⟨rfl, rfl⟩ := own
  refine ⟨rfl, .answered cell sems ?_ ?_ ?_ open_, fit_update fit (fit _).1 (show (moveText cell).length = 4 from rfl) rfl⟩
  · rw [after_other (other_ne _)]
    exact other
  · rw [after_self]
  · rw [after_self]

theorem mark_plays {cell : Cell} (sems : ∀ i, s.shared.players i = 0)
    (other : (s.pc (1 - turn cells.length)).pc = .semWait) (here : (s.pc (turn cells.length)).pc = .mark)
    (named : (s.pc (turn cells.length)).buf = moveText cell ++ zeros) (fit : Fit s)
    (own : procStep s.shared (s.pc (turn cells.length)) choice = some (shared, p)) :
    shared.field = Function.update s.shared.field cell (my (turn cells.length)) ∧
      event s (turn cells.length, choice) = [.set (turn cells.length) cell (my (turn cells.length))] ∧
      Phase (after s (turn cells.length) shared p) (cells ++ [cell]) [] ∧ Fit (after s (turn cells.length) shared p) := by
  have index := (fit (turn cells.length)).1
  have parsed := parseMove_moveText cell
  have next : turn (cells ++ [cell]).length = 1 - turn cells.length := by
    rw [List.length_append, List.length_singleton, turn_succ]
  cases choice <;> simp only [procStep, here, named, parsed, Option.bind_some, cellOf_val, Option.map_some, index, Option.some.injEq,
    Prod.mk.injEq, reduceCtorEq] at own
  obtain ⟨rfl, rfl⟩ := own
  refine ⟨rfl, ?_, .moved sems ?_ ?_, fit_update fit rfl rfl rfl⟩
  · simp only [event, here, named, parsed, Option.bind_some, cellOf_val, index]
  · rw [next, after_other (other_ne _)]
    exact other
  · rw [next, other_other, after_self]
    exact .inl rfl

theorem sendResult_plays (sems : ∀ i, s.shared.players i = 0) (other : (s.pc (turn cells.length)).pc = .semWait)
    (sends : (s.pc (1 - turn cells.length)).pc = .sendResult) (fit : Fit s) (stays : ∀ written, choice ≠ .hangup written)
    (own : procStep s.shared (s.pc (1 - turn cells.length)) choice = some (shared, p)) :
    shared.field = s.shared.field ∧ Phase (after s (1 - turn cells.length) shared p) cells [] ∧
      Fit (after s (1 - turn cells.length) shared p) := by
  obtain ⟨head, four, buf⟩ := own_buf fit (1 - turn cells.length)
  cases choice <;> simp only [procStep, sends, Option.some.injEq, Prod.mk.injEq, reduceCtorEq] at own
  case hangup written => exact absurd rfl (stays written)
  obtain ⟨rfl, rfl⟩ := own
  refine ⟨rfl, .moved sems ?_ ?_, fit_update fit (fit _).1 four buf⟩
  · rw [after_other (other_ne _).symm]
    exact other
  · rw [after_self]
    exact .inr rfl

theorem semPost_plays (sems : ∀ i, s.shared.players i = 0) (other : (s.pc (turn cells.length)).pc = .semWait)
    (posts : (s.pc (1 - turn cells.length)).pc = .semPost) (fit : Fit s)
    (own : procStep s.shared (s.pc (1 - turn cells.length)) choice = some (shared, p)) :
    shared.field = s.shared.field ∧ Phase (after s (1 - turn cells.length) shared p) cells [] ∧
      Fit (after s (1 - turn cells.length) shared p) := by
  obtain ⟨head, four, buf⟩ := own_buf fit (1 - turn cells.length)
  cases choice <;> simp only [procStep, posts, (fit _).1, other_other, Option.some.injEq, Prod.mk.injEq, reduceCtorEq] at own
  obtain ⟨rfl, rfl⟩ := own
  refine ⟨rfl, .idle ⟨?_, ?_⟩ ?_, fit_update fit rfl four buf⟩
  · simp [after, sems]
  · simp [after, other_ne, sems]
  · intro k
    rcases other_index k (turn cells.length) with rfl | rfl
    · rw [after_other (other_ne _).symm]
      exact other
    · rw [after_self]

/-- A step that shows nothing and leaves the board as it is. -/
theorem plays_quietly {t : Game} {pending : List Event} {move : Fin 2 × Choice} (quiet : event s move = [])
    (field : t.shared.field = s.shared.field) (phase : Phase t cells pending) (board : s.shared.field = boardOf cells)
    (balanced : Balanced s.shared.field cells.length) (fit : Fit t) :
    Plays t (turns cells ++ pending ++ event s move) := by
  rw [quiet, List.append_nil]
  exact ⟨cells, pending, rfl, phase, field.trans board, by rw [field]; exact balanced, fit⟩

end

/-- A step of the process whose turn it is, or of the one that has just moved. -/
theorem step_plays {s t : Game} {past : List Event} {move : Fin 2 × Choice} (plays : Plays s past)
    (names : ReadsMove s move) (stays : Stays s move) (taken : step procStep s move = some t) :
    Plays t (past ++ event s move) := by
  obtain ⟨cells, pending, rfl, phase, board, balanced, fit⟩ := plays
  obtain ⟨i, choice⟩ := move
  obtain ⟨shared, p, own, rfl⟩ := step_cases taken
  simp only [Stays] at own taken stays
  cases phase with
  | idle sems waits =>
    rcases other_index i (turn cells.length) with rfl | rfl
    · obtain ⟨field, phase, fit⟩ := semWait_plays sems waits fit own
      exact plays_quietly (by simp [event, waits]) field phase board balanced fit
    · exact absurd taken (semWait_waits fit (waits _) sems.2)
  | asked sems other here =>
    rcases other_index i (turn cells.length) with rfl | rfl
    · rcases here with asks | reads
      · obtain ⟨field, phase, fit⟩ := sendBoard_plays sems other asks fit stays own
        exact plays_quietly (by simp [event, asks]) field phase board balanced fit
      · obtain ⟨cell, named, open_⟩ := names reads
        simp only at named
        subst named
        have shown : event s (turn cells.length, .data (moveText cell)) = [.read (turn cells.length) (moveText cell)] := by
          simp [event, reads, (fit _).1]
        obtain ⟨field, phase, fit⟩ := read_plays sems other reads open_ fit own
        rw [shown, List.append_nil]
        exact ⟨cells, _, rfl, phase, field.trans board, field ▸ balanced, fit⟩
    · exact absurd taken (semWait_waits fit other (sems _))
  | answered cell sems other here named open_ =>
    rcases other_index i (turn cells.length) with rfl | rfl
    · obtain ⟨field, shown, phase, fit⟩ := mark_plays sems other here named fit own
      rw [shown]
      refine ⟨cells ++ [cell], [], ?_, phase, ?_, ?_, fit⟩
      · rw [turns_concat]
        simp
      · rw [boardOf_concat, ← board]
        exact field
      · rw [List.length_append, List.length_singleton, show ({ shared, pc := _ } : Game).shared.field = _ from field]
        exact balanced_move balanced open_
    · exact absurd taken (semWait_waits fit other (sems _))
  | moved sems other here =>
    rcases other_index i (turn cells.length) with rfl | rfl
    · exact absurd taken (semWait_waits fit other (sems _))
    · rcases here with sends | posts
      · obtain ⟨field, phase, fit⟩ := sendResult_plays sems other sends fit stays own
        exact plays_quietly (by simp [event, sends]) field phase board balanced fit
      · obtain ⟨field, phase, fit⟩ := semPost_plays sems other posts fit own
        exact plays_quietly (by simp [event, posts]) field phase board balanced fit

theorem between_one {s : Game} {j : Fin 2} (inside : (s.pc j).pc ≠ .semWait ∧ (s.pc j).pc ≠ .ended) (outside : (s.pc (1 - j)).pc = .semWait) :
    between s = {j} := by
  ext i
  rw [between, Finset.mem_filter, Finset.mem_singleton]
  rcases other_index i j with rfl | rfl
  · exact ⟨fun _ => rfl, fun _ => ⟨Finset.mem_univ _, inside⟩⟩
  · exact ⟨fun both => absurd outside both.2.1, fun same => absurd same (other_ne j)⟩

/-- A semaphore is open, or a process is between `sem_wait` and `sem_post`. -/
theorem Phase.sems_one {s : Game} {cells : List Cell} {pending : List Event} (phase : Phase s cells pending) :
    s.shared.players 0 + s.shared.players 1 + (between s).card = 1 := by
  cases phase with
  | idle sems waits =>
    have none : between s = ∅ := Finset.filter_eq_empty_iff.mpr fun i _ both => both.1 (waits i)
    have both : ∀ j, s.shared.players j + s.shared.players (1 - j) = s.shared.players 0 + s.shared.players 1 := by
      intro j
      rcases other_index j 0 with rfl | rfl
      · rfl
      · exact Nat.add_comm _ _
    rw [none, Finset.card_empty, Nat.add_zero, ← both (turn cells.length), sems.1, sems.2]
  | asked sems other here =>
    rw [sems, sems, between_one (by rcases here with h | h <;> simp [h]) other, Finset.card_singleton]
  | answered cell sems other here =>
    rw [sems, sems, between_one (by simp [here]) other, Finset.card_singleton]
  | moved sems other here =>
    rw [sems, sems, between_one (j := 1 - turn cells.length) (by rcases here with h | h <;> simp [h])
      (by rw [other_other]; exact other), Finset.card_singleton]

/-- The process that has read a move can set it. -/
theorem Phase.settable {s : Game} {cells : List Cell} {pending : List Event} (phase : Phase s cells pending) {i : Fin 2}
    (marking : (s.pc i).pc = .mark) : (step procStep s (i, .go)).isSome := by
  cases phase with
  | idle sems waits =>
    rw [waits i] at marking
    cases marking
  | asked sems other here =>
    rcases other_index i (turn cells.length) with rfl | rfl
    · rcases here with h | h <;> rw [h] at marking <;> cases marking
    · rw [other] at marking
      cases marking
  | moved sems other here =>
    rcases other_index i (turn cells.length) with rfl | rfl
    · rw [other] at marking
      cases marking
    · rcases here with h | h <;> rw [h] at marking <;> cases marking
  | answered cell sems other here named =>
    rcases other_index i (turn cells.length) with rfl | rfl
    · simp [step, here, named, parseMove_moveText, cellOf_val]
    · rw [other] at marking
      cases marking

/-- The values of the two semaphores and the processes between `sem_wait` and `sem_post`
    are one together; the moves alternate, index 0 first, each read being followed by
    the setting of the cell it names; the board has the marks of these moves and no
    others; there are as many crosses as noughts or one more; and a move that was
    read can be set. -/
structure Fair (seen : List Event) (t : Game) : Prop where
  sems : t.shared.players 0 + t.shared.players 1 + (between t).card = 1
  turns : ∃ cells : List Cell, t.shared.field = boardOf cells ∧
    (seen = turns cells ∨ ∃ cell, seen = turns cells ++ [.read (turn cells.length) (moveText cell)])
  balanced : marks t.shared.field (my 0) = marks t.shared.field (my 1) ∨
    marks t.shared.field (my 0) = marks t.shared.field (my 1) + 1
  settable : ∀ i, (t.pc i).pc = .mark → (step procStep t (i, .go)).isSome

/-- At every point of a run in which every read delivers a move to a free cell, and nothing
    is written to a client that has hung up, the game is fair. -/
theorem game {moves : List (Fin 2 × Choice)} {t : Game} (reads : AllSteps (step procStep) ReadsMove start moves)
    (stay : AllSteps (step procStep) Stays start moves) (run : exec (step procStep) start moves = some t) :
    Fair (trace (step procStep) event start moves) t := by
  have plays := exec_trace_of (fun s past move t plays both => step_plays plays both.1 both.2) start_plays
    (allSteps_and reads stay) run
  rw [List.nil_append] at plays
  obtain ⟨cells, pending, seen, phase, board, ⟨crosses, noughts⟩, fit⟩ := plays
  refine ⟨phase.sems_one, ⟨cells, board, ?_⟩, ?_, fun i => phase.settable⟩
  · cases phase with
    | idle | asked | moved => exact .inl (by rw [seen, List.append_nil])
    | answered cell => exact .inr ⟨cell, seen⟩
  · omega

/-- Index 0 marks C-3, and index 1 reads its move A-0. -/
def sampleMoves : List (Fin 2 × Choice) :=
  [(0, .go), (0, .go), (0, .data (moveText (3, 2))), (0, .go), (0, .go), (0, .go), (1, .go), (1, .go),
    (1, .data (moveText (0, 0)))]

theorem game_sample :
    ∃ t : Game, exec (step procStep) start sampleMoves = some t ∧ t.shared.field (3, 2) = my 0 ∧
      Fair (trace (step procStep) event start sampleMoves) t := by
  have ends : (exec (step procStep) start sampleMoves).map (fun t => t.shared.field (3, 2)) = some (my 0) := by decide +kernel
  obtain ⟨t, run, marked⟩ := Option.map_eq_some_iff.mp ends
  have reads : AllSteps (step procStep) ReadsMove start sampleMoves := by decide +kernel
  have stay : AllSteps (step procStep) Stays start sampleMoves := by decide +kernel
  exact ⟨t, run, marked, game reads stay run⟩

/-- Index 0 moves C-3 and hangs up: its process ends with the turn, and both semaphores are 0. -/
theorem game_left :
    ¬ ∀ (moves : List (Fin 2 × Choice)) (t : Game), AllSteps (step procStep) ReadsMove start moves →
      exec (step procStep) start moves = some t → Fair (trace (step procStep) event start moves) t := by
  intro always
  let moves : List (Fin 2 × Choice) :=
    [(0, .go), (0, .go), (0, .data (moveText (3, 2))), (0, .go), (0, .hangup 0)]
  have reads : AllSteps (step procStep) ReadsMove start moves := by decide +kernel
  have ends : (exec (step procStep) start moves).map
      (fun t => t.shared.players 0 + t.shared.players 1 + (between t).card) = some 0 := by decide +kernel
  obtain ⟨t, run, none'⟩ := Option.map_eq_some_iff.mp ends
  have one := (always moves t reads run).sems
  omega

end OsyProg.Turns
