import OsyProg.CStrings
import OsyProg.Runs
import Mathlib.Logic.Function.Basic

/-!
How `piskvorky2` reads a move. `parse_input` cuts the text in `buf` at the first `-`
behind the leading ones: without a text behind it `atoi` is called with NULL, and with a
letter of a column in front of it the text is taken for a move, whatever the row is and
whether the cell is free or not. A text is refused only when it has a row and no letter of
a column (`Refused`); when all texts before a move are, the server asks for a new one
each time, and then sets the cell of the move and passes the turn (`handles_iff`).
-/
namespace OsyProg.MoveInput
open OsyProg.Bytes OsyProg.CStrings OsyProg.Runs

/-! ### Moves -/

/-- A row and a column of the board. -/
abbrev Cell := Fin 8 × Fin 8

def free : UInt8 := 46

/-- The mark of a player. -/
def markOf (index : ℕ) : UInt8 := if index = 0 then 88 else 79

/-- `1-index`, the index of the other player. -/
def otherIndex (index : Fin 2) : Fin 2 := ⟨1 - index.val, by omega⟩

/-- `sizeof(buf)` -/
def bufSize : ℕ := 128

/-- `col_inputs` -/
def colInputs : Bytes := ascii ['A', 'B', 'C', 'D', 'E', 'F', 'G', 'H']

/-- The loop over `col_inputs`: the column with the letter. -/
def colOf (letter : UInt8) : Option (Fin 8) := (List.finRange 8).find? fun i : Fin 8 => colInputs.getD i.val 0 = letter

/-- The globals of the process of a client, and what it has written to the client. -/
structure Player where
  buf : Bytes
  rowIndex : ℤ
  colIndex : ℤ
  output : Bytes
  deriving DecidableEq

/-- `buf` after a read of the given bytes. -/
def received (buf data : Bytes) : Bytes := data ++ buf.drop data.length

/-- The request for a new move. -/
def again : Bytes :=
  ascii ['Z', 'a', 'd', 'a', 'j', ' ', 's', 'p', 'r', 'a', 'v', 'n', 'y', ' ', 't', 'a', 'h', '\n']

/-- `parse_input`, which uses a null pointer when one of the two tokens is missing; the
    memory behind `buf` is zero. -/
def parseInput (p : Player) : Option (Bool × Player) :=
  let t : Tokens := { buf := p.buf, saved := 0 }
  let (col, t) := t.strtok (some 0) [45]
  let (row, t) := t.strtok none []
  row.bind fun row =>
    let p := { p with buf := t.buf, rowIndex := atoi (t.text row) }
    col.map fun col =>
      match colOf (t.buf.getD col 0) with
      | some i => (true, { p with colIndex := i.val })
      | none => (false, { p with output := p.output ++ again })

/-- The cell with the given indices, when they are inside the array. -/
def cellOf (row col : ℤ) : Option Cell :=
  if inside : (0 ≤ row ∧ row < 8) ∧ 0 ≤ col ∧ col < 8 then
    some (⟨row.toNat, by omega⟩, ⟨col.toNat, by omega⟩)
  else none

/-- `mark` -/
def mark (field : Cell → UInt8) (p : Player) (index : ℕ) : Option (Cell → UInt8) :=
  (cellOf p.rowIndex p.colIndex).map fun cell => Function.update field cell (markOf index)

/-! ### The turn of a player -/

/-- Where a process waits: for a string from its client, or for its turn. -/
inductive Pc
  | read
  | semWait
  deriving DecidableEq

structure State where
  field : Cell → UInt8
  players : Fin 2 → ℕ
  pc : Pc
  player : Player

/-- The inner loop of `client_handle`, from one read to the next, and the statements
    behind it. -/
def step (index : Fin 2) (s : State) (data : Bytes) : Option State :=
  match s.pc with
  | .semWait => none
  | .read =>
    if data.length ≤ bufSize then
      (parseInput { s.player with buf := received s.player.buf data }).bind fun (parsed, player) =>
        if parsed then
          (mark s.field player index).map fun field =>
            { field, players := Function.update s.players (otherIndex index) (s.players (otherIndex index) + 1), pc := .semWait, player }
        else some { s with player }
    else none

/-! ### What the turn should be -/

/-- A move in the form of the task: the letter of the column, a dash, the number of the
    row, and the end of the line. -/
def moveText (cell : Cell) : Bytes := [(65 + cell.2.val).toUInt8, 45, (48 + cell.1.val).toUInt8, 10]

/-- Each of the strings is answered by a request, and changes neither the board nor the
    turn; then the first valid move, if there is one, sets its cell and passes the turn. -/
def Handles (index : Fin 2) (s : State) (strings : List Bytes) (valid : Option Cell) : Prop :=
  ∃ t, exec (step index) s strings = some t ∧
    AllStates (step index) (fun u => u.field = s.field ∧ u.players = s.players ∧ u.pc = .read) s strings ∧
    t.player.output = s.player.output ++ (List.replicate strings.length again).flatten ∧
    ∀ cell ∈ valid, ∃ u, step index t (moveText cell) = some u ∧ u.field = Function.update s.field cell (markOf index) ∧
      u.players = Function.update s.players (otherIndex index) (s.players (otherIndex index) + 1) ∧ u.player.output = t.player.output

/-! ### The two tokens -/

/-- The text has both tokens: the first begins with the byte `c`, and the string behind
    the dash is not empty. -/
structure Split (buf lead : Bytes) (c : UInt8) (more row : Bytes) : Prop where
  whole : buf = lead ++ (c :: more ++ 45 :: row)
  dashes : ∀ x ∈ lead, x = 45
  plain : ∀ x ∈ c :: more, x ≠ 0 ∧ x ≠ 45
  behind : cString row ≠ []

/-- A text with both tokens and no letter of a column. -/
def Refused (buf : Bytes) : Prop := ∃ lead c more row, Split buf lead c more row ∧ c ∉ colInputs

/-- The text after the first call of `strtok`. -/
def cut (lead : Bytes) (c : UInt8) (more row : Bytes) : Bytes := lead ++ (c :: more ++ 0 :: row)

theorem parseInput_split {p : Player} {lead : Bytes} {c : UInt8} {more row : Bytes} (split : Split p.buf lead c more row) :
    parseInput p =
      let p' := { p with buf := cut lead c more row, rowIndex := atoi (cString row) }
      some (match colOf c with
        | some i => (true, { p' with colIndex := i.val })
        | none => (false, { p' with output := p.output ++ again })) := by
  obtain ⟨whole, dashes, plain, behind⟩ := split
  have skipped : ∀ d ∈ lead, [(45 : UInt8)].contains d = true := fun d inside => by simp [dashes d inside]
  have letters := contains_singleton plain
  have skip := @Tokens.strtok_skip [] (c :: more ++ 45 :: row) [45] 0 (some 0) lead rfl skipped
  have col := @Tokens.strtok_stop lead (c :: more) row [45] 45 lead.length none rfl (List.cons_ne_nil _ _) letters rfl (by decide)
  have cutIs : lead ++ (c :: more ++ 0 :: row) = cut lead c more row := rfl
  rw [List.nil_append, List.nil_append, col, ← whole, cutIs] at skip
  have rest : (cut lead c more row).drop (lead.length + (c :: more).length + 1) = row := by
    rw [Nat.add_assoc, ← List.drop_drop, cut, List.drop_left, ← List.drop_drop, List.drop_left, List.drop_succ_cons, List.drop_zero]
  have letter : (cut lead c more row).getD lead.length 0 = c := by
    simp [cut, List.getD_eq_getElem?_getD]
  simp only [parseInput, skip, Tokens.strtok_all, rest, if_neg behind, Option.bind_some, Option.map_some, Tokens.text, letter]

/-- Without one of the two tokens the row is a null pointer. -/
theorem parseInput_none {p : Player} (unsplit : ¬ ∃ lead c more row, Split p.buf lead c more row) : parseInput p = none := by
  obtain ⟨lead, text, whole, inLead, noDash⟩ := exists_span (fun x => x = 45) p.buf
  obtain ⟨token, rest, parts, inToken, ends⟩ := exists_span (fun x => x ≠ 0 && x ≠ 45) text
  have dashes : ∀ x ∈ lead, x = 45 := fun x inside => by simpa using inLead x inside
  have plain : ∀ x ∈ token, x ≠ 0 ∧ x ≠ 45 := fun x inside => by simpa using inToken x inside
  have skipped : ∀ d ∈ lead, [(45 : UInt8)].contains d = true := fun d inside => by simp [dashes d inside]
  have letters := contains_singleton plain
  have skip := @Tokens.strtok_skip [] text [45] 0 (some 0) lead rfl skipped
  rw [List.nil_append, List.nil_append, ← whole] at skip
  suffices null : cString ((Tokens.strtok { buf := p.buf, saved := 0 } (some 0) [45]).2.buf.drop
      (Tokens.strtok { buf := p.buf, saved := 0 } (some 0) [45]).2.saved) = [] by
    simp only [parseInput, Tokens.strtok_all, if_pos null, Option.bind_none]
  rw [skip, whole, parts]
  have stop : rest.getD 0 0 = 0 ∨ ∃ row, rest = 45 :: row := by
    cases rest with
    | nil => exact .inl rfl
    | cons d row =>
      have first : d = 0 ∨ d = 45 := by simpa [imp_iff_not_or] using ends d rfl
      exact first.imp id fun dash => ⟨row, by rw [dash]⟩
  rcases stop with zero | ⟨row, rfl⟩
  · -- The string ends in front of a dash.
    by_cases none : token = []
    · rw [none, List.nil_append, Tokens.strtok_none rfl zero rfl, List.drop_left]
      exact cString_eq_nil zero
    · rw [Tokens.strtok_last rfl none letters zero, ← List.drop_drop, List.drop_left, List.drop_left]
      exact cString_eq_nil zero
  · have nonempty : token ≠ [] := by
      rintro rfl
      exact absurd (noDash 45 (by rw [parts]; rfl)) (by decide)
    obtain ⟨c, more, rfl⟩ := List.exists_cons_of_ne_nil nonempty
    rw [Tokens.strtok_stop rfl nonempty letters rfl (by decide), Nat.add_assoc, ← List.drop_drop, List.drop_left, ← List.drop_drop,
      List.drop_left, List.drop_succ_cons, List.drop_zero]
    by_contra behind
    exact unsplit ⟨lead, c, more, row, by rw [whole, parts], dashes, plain, behind⟩

theorem colOf_none {letter : UInt8} : colOf letter = none ↔ letter ∉ colInputs := by
  have inputs : colInputs = (List.finRange 8).map fun i : Fin 8 => colInputs.getD i.val 0 := by decide
  rw [colOf, List.find?_eq_none, inputs, List.mem_map]
  simp

theorem cellOf_val (cell : Cell) : cellOf cell.1.val cell.2.val = some cell := by
  have := cell.1.isLt
  have := cell.2.isLt
  rw [cellOf, dif_pos ⟨⟨by omega, by omega⟩, by omega, by omega⟩]
  rfl

/-- A move is read from every buffer: the end of the line ends the number of the row, and
    what an earlier string has left behind it makes no difference. -/
theorem parseInput_moveText (p : Player) (cell : Cell) (stale : Bytes) :
    ∃ buf, parseInput { p with buf := moveText cell ++ stale } =
      some (true, { p with buf, rowIndex := cell.1.val, colIndex := cell.2.val }) := by
  obtain ⟨row, col⟩ := cell
  have letter : ((65 + col.val).toUInt8 ≠ 0 ∧ (65 + col.val).toUInt8 ≠ 45) ∧ colOf (65 + col.val).toUInt8 = some col := by
    revert col
    decide
  have digit : (48 + row.val).toUInt8 ≠ 0 := by
    revert row
    decide
  have line : cString ((48 + row.val).toUInt8 :: 10 :: stale) = (48 + row.val).toUInt8 :: 10 :: cString stale := by
    rw [cString, List.takeWhile_cons_of_pos (by simpa using digit), List.takeWhile_cons_of_pos (by decide)]
    rfl
  have number : atoi (cString ((48 + row.val).toUInt8 :: 10 :: stale)) = row.val := by
    rw [line]
    exact atoi_digit (by omega) rfl
  have split : Split (moveText (row, col) ++ stale) [] (65 + col.val).toUInt8 [] ((48 + row.val).toUInt8 :: 10 :: stale) :=
    ⟨rfl, fun x inside => (by cases inside), fun x inside => List.mem_singleton.mp inside ▸ letter.1, by rw [line]; exact List.cons_ne_nil _ _⟩
  have parsed := @parseInput_split { p with buf := moveText (row, col) ++ stale } _ _ _ _ split
  rw [letter.2, number] at parsed
  exact ⟨_, parsed⟩

/-! ### One string -/

section
variable {index : Fin 2} {s t : State} {data : Bytes}

/-- A text that is refused is answered, and the process reads again. -/
theorem step_refused (reading : s.pc = .read) (fits : data.length ≤ bufSize) (refused : Refused (received s.player.buf data)) :
    ∃ t, step index s data = some t ∧ (t.field = s.field ∧ t.players = s.players ∧ t.pc = .read) ∧
      t.player.output = s.player.output ++ again := by
  obtain ⟨lead, c, more, row, split, other⟩ := refused
  have parsed := @parseInput_split { s.player with buf := received s.player.buf data } _ _ _ _ split
  simp only [colOf_none.mpr other] at parsed
  simp only [step, reading, if_pos fits, parsed, Option.bind_some, Bool.false_eq_true, if_false]
  exact ⟨_, rfl, ⟨rfl, rfl, rfl⟩, rfl⟩

/-- Only such a text makes the process read again. -/
theorem refused_of_step (taken : step index s data = some t) (still : t.pc = .read) : Refused (received s.player.buf data) := by
  unfold step at taken
  split at taken
  · cases taken
  split at taken
  · obtain ⟨⟨parsed, player⟩, parse, next⟩ := Option.bind_eq_some_iff.mp taken
    by_cases whole : ∃ lead c more row, Split (received s.player.buf data) lead c more row
    · obtain ⟨lead, c, more, row, split⟩ := whole
      refine ⟨lead, c, more, row, split, colOf_none.mp ?_⟩
      rw [@parseInput_split { s.player with buf := received s.player.buf data } _ _ _ _ split] at parse
      cases found : colOf c with
      | none => rfl
      | some i =>
        -- The text is taken for a move, and the turn is passed.
        simp only [found, Option.some.injEq, Prod.mk.injEq] at parse
        obtain ⟨rfl, rfl⟩ := parse
        obtain ⟨field, -, rfl⟩ := Option.map_eq_some_iff.mp next
        cases still
    · rw [@parseInput_none { s.player with buf := received s.player.buf data } whole] at parse
      cases parse
  · cases taken

/-- A move sets its cell and passes the turn. -/
theorem step_moveText (index : Fin 2) (reading : s.pc = .read) (cell : Cell) :
    ∃ u, step index s (moveText cell) = some u ∧ u.field = Function.update s.field cell (markOf index) ∧
      u.players = Function.update s.players (otherIndex index) (s.players (otherIndex index) + 1) ∧ u.player.output = s.player.output := by
  obtain ⟨buf, parsed⟩ := parseInput_moveText s.player cell (s.player.buf.drop (moveText cell).length)
  have fits : (moveText cell).length ≤ bufSize := show 4 ≤ 128 by decide
  simp only [step, reading, if_pos fits, received, parsed, Option.bind_some, if_true, mark, cellOf_val, Option.map_some]
  exact ⟨_, rfl, rfl, rfl, rfl⟩

end

/-! ### The turn -/

section
variable {index : Fin 2} {s t : State} {data : Bytes} {strings : List Bytes} {valid : Option Cell}

theorem handles_nil (reading : s.pc = .read) : Handles index s [] valid :=
  ⟨s, rfl, ⟨rfl, rfl, reading⟩, (List.append_nil _).symm, fun cell _ => step_moveText index reading cell⟩

/-- A string that is answered, and those behind it. -/
theorem handles_cons (taken : step index s data = some t) (reading : s.pc = .read)
    (same : t.field = s.field ∧ t.players = s.players ∧ t.pc = .read) (answered : t.player.output = s.player.output ++ again) :
    Handles index s (data :: strings) valid ↔ Handles index t strings valid := by
  obtain ⟨field, players, -⟩ := same
  have run : exec (step index) s (data :: strings) = exec (step index) t strings := by
    rw [exec_cons, taken, Option.bind_some]
  have requests : s.player.output ++ (List.replicate (data :: strings).length again).flatten =
      t.player.output ++ (List.replicate strings.length again).flatten := by
    rw [answered, List.length_cons, List.replicate_succ, List.flatten_cons, List.append_assoc]
  unfold Handles
  simp only [run, requests, field, players, AllStates, reading, taken, Option.some.injEq, forall_eq', and_self, true_and]

/-- The strings in front of the first valid move are answered, each by a request, and the
    move is made, exactly when each of them leaves in the buffer a text that is refused. -/
theorem handles_iff (index : Fin 2) {s : State} (reading : s.pc = .read) {strings : List Bytes}
    (short : ∀ data ∈ strings, data.length < bufSize) (valid : Option Cell) :
    Handles index s strings valid ↔
      AllSteps (step index) (fun s data => Refused (received s.player.buf data)) s strings := by
  induction strings generalizing s with
  | nil => exact ⟨fun _ => trivial, fun _ => handles_nil reading⟩
  | cons data rest ih =>
    have fits : data.length ≤ bufSize := Nat.le_of_lt (short data (List.mem_cons_self ..))
    by_cases refused : Refused (received s.player.buf data)
    · obtain ⟨t, taken, same, answered⟩ := @step_refused index s data reading fits refused
      rw [handles_cons taken reading same answered, ih same.2.2 fun d inside => short d (List.mem_cons_of_mem _ inside)]
      simp only [AllSteps, refused, taken, Option.some.injEq, forall_eq', true_and]
    · constructor
      · rintro ⟨t, run, states, -⟩
        obtain ⟨u, taken, -⟩ := exec_cons_iff.mp run
        exact absurd (refused_of_step taken (allStates_head (states.2 u taken)).2.2) refused
      · exact fun all => absurd all.1 refused

end

/-- The buffer is zero, the first cell is taken, and player 0 is asked for a move. -/
def asked : State :=
  { field := Function.update (fun _ => free) (0, 0) (markOf 1), players := fun _ => 0, pc := .read
    player := { buf := List.replicate bufSize 0, rowIndex := -1, colIndex := -1, output := [] } }

/-- `Z-0` is refused, and then `B-3` is set. -/
theorem handles_sample : Handles 0 asked [[90, 45, 48, 10]] (some (3, 1)) := by
  have behind : cString ([48, 10] ++ List.replicate 124 0) ≠ [] := by decide
  have split : Split (received asked.player.buf [90, 45, 48, 10]) [] 90 [] ([48, 10] ++ List.replicate 124 0) :=
    ⟨by decide, List.forall_mem_nil _, List.forall_mem_singleton.mpr (by decide), behind⟩
  exact (handles_iff 0 rfl (by decide) _).mpr ⟨⟨_, _, _, _, split, by decide⟩, fun t _ => trivial⟩

/-- `A` without a dash ends the process, `A-9` is a cell outside of the board, and `A-0`
    sets the cell that is taken. -/
theorem bad_moves :
    (exec (step 0) asked [[65, 10]] = none ∧ ¬ Handles 0 asked [[65, 10]] none) ∧
      (exec (step 0) asked [[65, 45, 57, 10]] = none ∧ ¬ Handles 0 asked [[65, 45, 57, 10]] none) ∧
      (exec (step 0) asked [[65, 45, 48, 10]]).map (fun t => t.field (0, 0)) = some (markOf 0) ∧
        ¬ Handles 0 asked [[65, 45, 48, 10]] none := by
  have noDash : exec (step 0) asked [[65, 10]] = none := Option.isNone_iff_eq_none.mp (by decide +kernel)
  have outside : exec (step 0) asked [[65, 45, 57, 10]] = none := Option.isNone_iff_eq_none.mp (by decide +kernel)
  have passed : (exec (step 0) asked [[65, 45, 48, 10]]).map State.pc = some .semWait := by decide +kernel
  refine ⟨⟨noDash, ?_⟩, ⟨outside, ?_⟩, by decide +kernel, ?_⟩
  · rintro ⟨t, run, -⟩
    rw [noDash] at run
    cases run
  · rintro ⟨t, run, -⟩
    rw [outside] at run
    cases run
  · rintro ⟨t, run, states, -⟩
    have reading := (allStates_last states run).2.2
    rw [run, Option.map_some, reading] at passed
    cases passed

end OsyProg.MoveInput
