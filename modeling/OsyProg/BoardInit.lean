import OsyProg.Interleaving
import OsyProg.MoveInput

/-!
The start of a game of `piskvorky2`. Both processes wait until two clients are counted,
pausing in between, and then both set all cells of the shared board to `.`. A process
that comes late to it clears what the other has marked by then; when each cell is marked
after the other process has set it, the marks stay (`marks_kept`).
-/
namespace OsyProg.BoardInit
open OsyProg.Bytes OsyProg.CStrings OsyProg.Interleaving OsyProg.MoveInput OsyProg.Runs

/-- `struct shm_data` -/
structure Shared where
  count : ℕ
  field : Cell → UInt8
  players : Fin 2 → ℕ

/-- The statements of `client_handle`, and the rounds of the loops of `initialize_board`. -/
inductive Pc
  | index                     -- int index = g_glb_data->count
  | increment                 -- g_glb_data->count++
  | greet                     -- dprintf(scl, "Klient c. %d pripojeny\n", g_glb_data->count)
  | test                      -- while(g_glb_data->count < 2)
  | patience                  -- dprintf(scl, "Prosim o strpeni\n")
  | sleep                     -- usleep(2000*1000)
  | initializeBoard (k : ℕ)   -- field[i][j] = '.', with k = 8 * i + j
  | semWait                   -- sem_wait(&g_glb_data->players[index])
  | showBoard                 -- show_board(scl)
  | ask                       -- dprintf(scl, "Zadaj tah\n")
  | read                      -- read(scl, buf, sizeof(buf))
  | parse                     -- if(parse_input(scl) == 1) break
  | mark                      -- mark(index)
  | semPost                   -- sem_post(&g_glb_data->players[1-index])
  deriving DecidableEq

structure Process where
  index : ℕ
  pc : Pc
  player : Player

abbrev Game := System Shared Process (Fin 2)

/-- The place of a cell in the order of the loops of `initialize_board`. -/
def place (cell : Cell) : ℕ := 8 * cell.1.val + cell.2.val

def cellAt (k : ℕ) (inside : k < 64) : Cell := (⟨k / 8, by omega⟩, ⟨k % 8, by omega⟩)

/-- What `show_board` writes. -/
def showBoard (field : Cell → UInt8) : Bytes :=
  let line := List.replicate 18 45
  line ++ line ++ [10] ++ (List.finRange 8).flatMap fun i => ((List.finRange 8).map fun j => field (i, j)) ++ [10]

def Process.print (p : Process) (next : Pc) (text : Bytes) : Process :=
  { p with pc := next, player := { p.player with output := p.player.output ++ text } }

/-- A statement of a process; a read may deliver any bytes that fit into the buffer. -/
def procStep (s : Shared) (p : Process) (data : Bytes) : Option (Shared × Process) :=
  match p.pc with
  | .index => some (s, { p with index := s.count, pc := .increment })
  | .increment => some ({ s with count := s.count + 1 }, { p with pc := .greet })
  | .greet =>
    some (s, p.print .test (ascii ['K', 'l', 'i', 'e', 'n', 't', ' ', 'c', '.', ' '] ++ decimal s.count ++
      ascii [' ', 'p', 'r', 'i', 'p', 'o', 'j', 'e', 'n', 'y', '\n']))
  | .test => some (s, { p with pc := if s.count < 2 then .patience else .initializeBoard 0 })
  | .patience =>
    some (s, p.print .sleep (ascii ['P', 'r', 'o', 's', 'i', 'm', ' ', 'o', ' ', 's', 't', 'r', 'p', 'e', 'n', 'i', '\n']))
  | .sleep => some (s, { p with pc := .test })
  | .initializeBoard k =>
    if inside : k < 64 then
      some ({ s with field := Function.update s.field (cellAt k inside) free }, { p with pc := .initializeBoard (k + 1) })
    else some (s, { p with pc := .semWait })
  | .semWait =>
    if inside : p.index < 2 then
      let player : Fin 2 := ⟨p.index, inside⟩
      if 0 < s.players player then
        some ({ s with players := Function.update s.players player (s.players player - 1) }, { p with pc := .showBoard })
      else none
    else none
  | .showBoard => some (s, p.print .ask (showBoard s.field))
  | .ask => some (s, p.print .read (ascii ['Z', 'a', 'd', 'a', 'j', ' ', 't', 'a', 'h', '\n']))
  | .read =>
    if data.length ≤ bufSize then
      some (s, { p with pc := .parse, player := { p.player with buf := received p.player.buf data } })
    else none
  | .parse => (parseInput p.player).map fun (parsed, player) => (s, { p with pc := if parsed then .mark else .read, player })
  | .mark => (MoveInput.mark s.field p.player p.index).map fun field => ({ s with field }, { p with pc := .semPost })
  | .semPost =>
    if inside : p.index < 2 then
      let player := otherIndex ⟨p.index, inside⟩
      some ({ s with players := Function.update s.players player (s.players player + 1) }, { p with pc := .semWait })
    else none

/-- The state when the two processes begin; the board holds what the memory held. -/
def start (field : Cell → UInt8) : Game :=
  { shared := { count := 0, field, players := fun i => if i.val = 0 then 1 else 0 }
    pc := fun _ =>
      { index := 0, pc := .index
        player := { buf := List.replicate bufSize 0, rowIndex := -1, colIndex := -1, output := [] } } }

/-! ### What should be kept -/

/-- A read delivers a move that names a cell that is still free. -/
def ReadsMove (s : Game) (move : Fin 2 × Bytes) : Prop :=
  (s.pc move.1).pc = .read → ∃ cell, move.2 = moveText cell ∧ s.shared.field cell = free

instance (s : Game) (move : Fin 2 × Bytes) : Decidable (ReadsMove s move) :=
  inferInstanceAs (Decidable ((s.pc move.1).pc = .read → ∃ cell, move.2 = moveText cell ∧ s.shared.field cell = free))

/-- The cell that a process sets in `mark`. -/
def Process.marks (p : Process) : Option Cell := if p.pc = .mark then cellOf p.player.rowIndex p.player.colIndex else none

/-- A cell that is marked in the run keeps the mark in all states that follow. -/
def Keeps (s : Game) (moves : List (Fin 2 × Bytes)) : Prop :=
  ∀ before move after, moves = before ++ move :: after → ∀ t, exec (step procStep) s before = some t →
    ∀ cell ∈ (t.pc move.1).marks, ∀ u, step procStep t move = some u →
      AllStates (step procStep) (fun v => v.shared.field cell = markOf (t.pc move.1).index) u after

/-- The process has set the cell in `initialize_board`. -/
def Pc.HasSet (cell : Cell) : Pc → Prop
  | .index | .increment | .greet | .test | .patience | .sleep => False
  | .initializeBoard k => place cell < k
  | .semWait | .showBoard | .ask | .read | .parse | .mark | .semPost => True

instance decidableHasSet (cell : Cell) : ∀ pc : Pc, Decidable (pc.HasSet cell)
  | .index | .increment | .greet | .test | .patience | .sleep => isFalse id
  | .initializeBoard k => inferInstanceAs (Decidable (place cell < k))
  | .semWait | .showBoard | .ask | .read | .parse | .mark | .semPost => isTrue trivial

/-- A process marks a cell when the other one has set it in `initialize_board`. -/
def OtherHasSet (s : Game) (move : Fin 2 × Bytes) : Prop :=
  ∀ cell ∈ (s.pc move.1).marks, (s.pc (otherIndex move.1)).pc.HasSet cell

instance (s : Game) (move : Fin 2 × Bytes) : Decidable (OtherHasSet s move) :=
  inferInstanceAs (Decidable (∀ cell ∈ (s.pc move.1).marks, (s.pc (otherIndex move.1)).pc.HasSet cell))

/-! ### One process is at its turn -/

/-- The process is between `sem_wait` and `sem_post`. -/
def busy (p : Process) : ℤ :=
  match p.pc with
  | .showBoard | .ask | .read | .parse | .mark | .semPost => 1
  | _ => 0

/-- The sum of the two semaphores. -/
def sems (s : Shared) : ℤ := total (fun value : ℕ => (value : ℤ)) s.players

theorem busy_nonneg (p : Process) : 0 ≤ busy p := by
  unfold busy
  split <;> decide

/-- A process takes one off a semaphore when it begins its turn, and adds one at the end. -/
theorem procStep_conserves (s : Shared) (p : Process) (data : Bytes) (s' : Shared) (p' : Process)
    (own : procStep s p data = some (s', p')) : sems s' + busy p' = sems s + busy p := by
  unfold procStep at own
  cases here : p.pc with
  | index | increment | greet | patience | sleep | showBoard | ask =>
    simp only [here, Option.some.injEq, Prod.mk.injEq] at own
    obtain ⟨rfl, rfl⟩ := own
    simp [busy, here, Process.print, sems]
  | test =>
    simp only [here, Option.some.injEq, Prod.mk.injEq] at own
    obtain ⟨rfl, rfl⟩ := own
    by_cases few : s.count < 2 <;> simp [busy, here, few]
  | initializeBoard k =>
    simp only [here] at own
    split at own <;> cases own <;> simp [busy, here, sems]
  | semWait =>
    simp only [here] at own
    split at own
    next inside =>
      split at own
      next positive =>
        cases own
        have changed := total_update (fun value : ℕ => (value : ℤ)) s.players ⟨p.index, inside⟩ (s.players ⟨p.index, inside⟩ - 1)
        simp only [busy, here, sems]
        omega
      next => cases own
    next => cases own
  | read =>
    simp only [here] at own
    split at own <;> cases own
    simp [busy, here]
  | parse =>
    simp only [here] at own
    obtain ⟨⟨parsed, player⟩, -, same⟩ := Option.map_eq_some_iff.mp own
    cases same
    simp only [busy, here]
    cases parsed <;> rfl
  | mark =>
    simp only [here] at own
    obtain ⟨field, -, same⟩ := Option.map_eq_some_iff.mp own
    cases same
    simp [busy, here, sems]
  | semPost =>
    simp only [here] at own
    split at own
    next inside =>
      cases own
      have changed := total_update (fun value : ℕ => (value : ℤ)) s.players (otherIndex ⟨p.index, inside⟩)
          (s.players (otherIndex ⟨p.index, inside⟩) + 1)
      simp only [busy, here, sems]
      omega
    next => cases own

/-- While a process is at its turn, the other one is not. -/
theorem busy_alone {s : Game} (one : sems s.shared + total busy s.pc = 1) {i : Fin 2} (here : busy (s.pc i) = 1) {j : Fin 2}
    (other : j ≠ i) : busy (s.pc j) = 0 := by
  have nonneg : 0 ≤ sems s.shared := total_nonneg (fun value : ℕ => Int.natCast_nonneg value) s.shared.players
  exact zero_of_alone busy_nonneg (by omega) other

/-! ### A mark that stays -/

/-- The cell that a process is going to set, once it has read a move. -/
def Process.target (p : Process) : Option Cell :=
  match p.pc with
  | .parse => (parseInput p.player).bind fun (parsed, player) => if parsed then cellOf player.rowIndex player.colIndex else none
  | .mark => cellOf p.player.rowIndex p.player.colIndex
  | _ => none

/-- The cell has its value, both processes are past it in `initialize_board`, and none is
    going to set it. -/
structure Settled (cell : Cell) (value : UInt8) (s : Game) : Prop where
  kept : s.shared.field cell = value
  passed : ∀ i, (s.pc i).pc.HasSet cell
  untouched : ∀ i, (s.pc i).target ≠ some cell

theorem place_cellAt (k : ℕ) (inside : k < 64) : place (cellAt k inside) = k := by
  simp only [place, cellAt]
  omega

section
variable {s s' : Shared} {p p' : Process} {data : Bytes} {cell : Cell} {value : UInt8}

/-- A statement of a process that is past the cell, and is not going to set it. -/
theorem procStep_settled (own : procStep s p data = some (s', p')) (kept : s.field cell = value) (marked : value ≠ free)
    (passed : p.pc.HasSet cell) (untouched : p.target ≠ some cell)
    (reads : p.pc = .read → ∃ c, data = moveText c ∧ s.field c = free) :
    s'.field cell = value ∧ p'.pc.HasSet cell ∧ p'.target ≠ some cell := by
  unfold procStep at own
  cases here : p.pc with
  | index | increment | greet | test | patience | sleep =>
    rw [here] at passed
    cases passed
  | initializeBoard k =>
    simp only [here] at own
    rw [here] at passed
    split at own
    next inside =>
      cases own
      have other : cell ≠ cellAt k inside := by
        rintro rfl
        exact absurd passed (by simp [Pc.HasSet, place_cellAt])
      exact ⟨(Function.update_of_ne other ..).trans kept, Nat.lt_succ_of_lt passed, (Option.some_ne_none cell).symm⟩
    next =>
      cases own
      exact ⟨kept, trivial, (Option.some_ne_none cell).symm⟩
  | semWait =>
    simp only [here] at own
    split at own
    next inside =>
      split at own <;> cases own
      exact ⟨kept, trivial, (Option.some_ne_none cell).symm⟩
    next => cases own
  | showBoard | ask =>
    simp only [here, Option.some.injEq, Prod.mk.injEq] at own
    obtain ⟨rfl, rfl⟩ := own
    exact ⟨kept, trivial, (Option.some_ne_none cell).symm⟩
  | read =>
    simp only [here] at own
    split at own <;> cases own
    -- The move names a free cell, and the cell is marked.
    obtain ⟨c, rfl, open_⟩ := reads here
    have other : c ≠ cell := by
      rintro rfl
      exact marked (kept.symm.trans open_)
    obtain ⟨buf, parsed⟩ := parseInput_moveText p.player c (p.player.buf.drop (moveText c).length)
    refine ⟨kept, trivial, ?_⟩
    simp only [Process.target, received, parsed, Option.bind_some, if_true, cellOf_val]
    simpa using other
  | parse =>
    simp only [here] at own
    obtain ⟨⟨parsed, player⟩, parse, same⟩ := Option.map_eq_some_iff.mp own
    cases same
    cases parsed with
    | false => exact ⟨kept, trivial, (Option.some_ne_none cell).symm⟩
    | true =>
      refine ⟨kept, trivial, ?_⟩
      simpa [Process.target, here, parse] using untouched
  | mark =>
    simp only [here] at own
    obtain ⟨field, marking, same⟩ := Option.map_eq_some_iff.mp own
    cases same
    obtain ⟨c, at_, rfl⟩ := Option.map_eq_some_iff.mp marking
    have other : cell ≠ c := by
      rintro rfl
      exact untouched (by simp [Process.target, here, at_])
    exact ⟨(Function.update_of_ne other ..).trans kept, trivial, (Option.some_ne_none cell).symm⟩
  | semPost =>
    simp only [here] at own
    split at own <;> cases own
    exact ⟨kept, trivial, (Option.some_ne_none cell).symm⟩

end

theorem step_settled {s t : Game} {move : Fin 2 × Bytes} {cell : Cell} {value : UInt8} (marked : value ≠ free)
    (settled : Settled cell value s) (reads : ReadsMove s move) (taken : step procStep s move = some t) :
    Settled cell value t := by
  obtain ⟨shared, p, own, rfl⟩ := step_cases taken
  obtain ⟨kept, passed, untouched⟩ := procStep_settled own settled.kept marked (settled.passed _) (settled.untouched _) reads
  exact ⟨kept, forall_update (P := fun _ (p : Process) => p.pc.HasSet cell) (fun j _ => settled.passed j) passed,
    forall_update (P := fun _ (p : Process) => p.target ≠ some cell) (fun j _ => settled.untouched j) untouched⟩

theorem target_none {p : Process} (idle : busy p = 0) : p.target = none := by
  cases here : p.pc with
  | parse | mark => simp [busy, here] at idle
  | _ => simp [Process.target, here]

theorem markOf_ne_free (index : ℕ) : markOf index ≠ free := by
  unfold markOf
  split <;> decide

/-- A cell is settled once it is marked. -/
theorem mark_settled {s t : Game} {move : Fin 2 × Bytes} {cell : Cell} (one : sems s.shared + total busy s.pc = 1)
    (marks : (s.pc move.1).marks = some cell) (other : (s.pc (otherIndex move.1)).pc.HasSet cell) (taken : step procStep s move = some t) :
    Settled cell (markOf (s.pc move.1).index) t := by
  obtain ⟨i, data⟩ := move
  obtain ⟨shared, p, own, rfl⟩ := step_cases taken
  simp only [Process.marks, Option.ite_none_right_eq_some] at marks
  obtain ⟨here, at_⟩ := marks
  simp only [procStep, here, MoveInput.mark, at_, Option.map_some, Option.some.injEq, Prod.mk.injEq] at own
  obtain ⟨rfl, rfl⟩ := own
  have only : ∀ i j : Fin 2, j ≠ i → j = otherIndex i := by decide
  have alone : ∀ j, j ≠ i → (s.pc j).target ≠ some cell := by
    intro j others
    rw [target_none (busy_alone one (by simp [busy, here]) others)]
    exact (Option.some_ne_none cell).symm
  refine ⟨Function.update_self .., ?_, ?_⟩
  · exact forall_update (P := fun _ (p : Process) => p.pc.HasSet cell) (fun j others => only i j others ▸ other) trivial
  · exact forall_update (P := fun _ (p : Process) => p.target ≠ some cell) alone (Option.some_ne_none cell).symm

theorem start_one (field : Cell → UInt8) : sems (start field).shared + total busy (start field).pc = 1 := by
  simp [sems, total, start, busy]

/-- When each cell is marked after the other process has set it, the marks stay. -/
theorem marks_kept (field : Cell → UInt8) {moves : List (Fin 2 × Bytes)} (reads : AllSteps (step procStep) ReadsMove (start field) moves)
    (passed : AllSteps (step procStep) OtherHasSet (start field) moves) : Keeps (start field) moves := by
  rintro before move after rfl t run cell marks u taken
  have one : sems t.shared + total busy t.pc = 1 :=
    exec_kept (fun s a t here taken => (step_conserves sems busy procStep_conserves taken).trans here) (start_one field) run
  have other := ((allSteps_append.mp passed).2 t run).1 cell marks
  have later := ((allSteps_append.mp reads).2 t run).2 u taken
  have states := allStates_of (fun s a t settled reads taken => step_settled (markOf_ne_free _) settled reads taken)
    (mark_settled one marks other taken) later
  exact allStates_mono (fun s settled => settled.kept) states

/-- Both clients are counted, and both processes have left the loop that waits for it. -/
def opening (i : Fin 2) : List (Fin 2 × Bytes) :=
  List.replicate 4 (i, []) ++ List.replicate 4 (otherIndex i, []) ++ List.replicate 3 (i, [])

/-- `initialize_board` -/
def initializes (i : Fin 2) : List (Fin 2 × Bytes) := List.replicate 65 (i, [])

/-- The player reads a move. -/
def firstTurn (i : Fin 2) (cell : Cell) : List (Fin 2 × Bytes) := List.replicate 3 (i, []) ++ [(i, moveText cell), (i, [])]

/-- Both processes have set the board before the first mark. -/
theorem marks_kept_sample : Keeps (start fun _ => free) (opening 0 ++ initializes 0 ++ initializes 1 ++ firstTurn 0 (0, 0) ++ [(0, []), (1, [])]) :=
  marks_kept _ (by decide +kernel) (by decide +kernel)

/-- Process 1 begins `initialize_board` after the first mark, and clears it. -/
theorem mark_cleared :
    AllSteps (step procStep) ReadsMove (start fun _ => free) (opening 0 ++ initializes 0 ++ firstTurn 0 (0, 0) ++ [(0, []), (1, [])]) ∧
      ¬ Keeps (start fun _ => free) (opening 0 ++ initializes 0 ++ firstTurn 0 (0, 0) ++ [(0, []), (1, [])]) := by
  refine ⟨by decide +kernel, ?_⟩
  intro keeps
  let before := opening 0 ++ initializes 0 ++ firstTurn 0 (0, 0)
  have marking : (exec (step procStep) (start fun _ => free) before).map (fun t => (t.pc 0).marks) = some (some (0, 0)) := by
    decide +kernel
  have final : (exec (step procStep) (start fun _ => free) (before ++ [(0, []), (1, [])])).map (fun v => v.shared.field (0, 0)) =
      some free := by
    decide +kernel
  obtain ⟨t, run, marks⟩ := Option.map_eq_some_iff.mp marking
  obtain ⟨v, whole, cleared⟩ := Option.map_eq_some_iff.mp final
  obtain ⟨t', run', onward⟩ := exec_append_iff.mp whole
  obtain rfl : t' = t := Option.some.inj (run'.symm.trans run)
  obtain ⟨u, taken, last⟩ := exec_cons_iff.mp onward
  have kept := allStates_last (keeps before (0, []) [(1, [])] rfl t' run (0, 0) marks u taken) last
  exact markOf_ne_free _ (kept.symm.trans cleared)

end OsyProg.BoardInit
