import OsyProg.Custody
import OsyProg.ServedRole

/-!
The commands `-` and `+` of `main` in `DU05_test/socket_srv.cpp`, MODE_SHM: `sem_wait` and
`sem_post` of `pause_sem`, which every `consumer` takes and posts before it waits for an
item. The value of the semaphore and the processes that have taken it make up for all
commands executed (`gate_balance`). So commands add up: the gate is closed when as many
`-` as can be have been executed, and a consumer that went through it before it was
closed still takes the item that comes later (`paused_taken`).
-/
namespace OsyProg.PauseGate
open OsyProg.Bytes OsyProg.Interleaving OsyProg.Runs OsyProg.ShmQueue OsyProg.Sessions OsyProg.ServedRole

/-- A consumer between `sem_wait(pause_sem)` and the last change to the segment by its call. -/
def PastGate : Pc → Prop
  | .postPause | .clock | .timedWait | .waitMutexOut => True
  | .copyOut | .advanceHead _ | .dropItem _ | .countOut _ => True
  | _ => False

instance : DecidablePred PastGate
  | .postPause | .clock | .timedWait | .waitMutexOut => isTrue trivial
  | .copyOut | .advanceHead _ | .dropItem _ | .countOut _ => isTrue trivial
  | .idle | .waitEmpty _ | .waitMutex _ | .countIn _ | .format _ | .copyIn _ | .advanceTail | .addItem => isFalse id
  | .postMutexIn | .postFull | .waitPause | .postMutexOut _ | .postEmpty _ | .returned .. | .holding => isFalse id

/-! ### Statements in the queue -/

/-- A session takes no command of `main`. -/
theorem call_plain {sh sh' : Shared} {q q' : Pc} {c : Choice} {p p' : SessionPc}
    (own : procStep sh q c = some (sh', q')) (after : afterCall c q q' p = some p') (fits : At (place p) q) :
    c ≠ .pause ∧ c ≠ .resume := by
  have inside : q ≠ .idle → c ≠ .pause ∧ c ≠ .resume := by
    intro busy
    constructor <;> rintro rfl <;> cases q <;> first | exact busy rfl | cases own
  cases p with
  | lockIn role | lockOut role | produce item | consume =>
    simp only [afterCall] at after
    split_ifs at after with known
    rw [known]
    exact ⟨Choice.noConfusion, Choice.noConfusion⟩
  | unlockIn role | unlockRefused role | unlockOut =>
    refine inside fun idle => ?_
    rw [idle] at fits
    cases fits
  | producing | consuming =>
    refine inside fun idle => ?_
    rw [idle] at fits
    exact fits
  | _ => cases after

/-- The semaphore goes from a consumer and back to it. -/
theorem procStep_gate {sh sh' : Shared} {q q' : Pc} {c : Choice} (own : procStep sh q c = some (sh', q'))
    (plain : c ≠ .pause ∧ c ≠ .resume) : sh'.pauseSem + pauseOwed q' = sh.pauseSem + pauseOwed q := by
  unfold procStep at own
  split at own
  all_goals first | cases own | obtain ⟨positive, ⟨⟩⟩ := Option.ite_none_right_eq_some.mp own
  all_goals first
    | exact absurd rfl plain.1
    | exact absurd rfl plain.2
    | rfl
    | exact Nat.sub_add_cancel positive

/-- With the gate closed no consumer goes through it, and one that is not past it removes nothing. -/
theorem procStep_closed {sh sh' : Shared} {q q' : Pc} {c : Choice} (own : procStep sh q c = some (sh', q'))
    (plain : c ≠ .pause ∧ c ≠ .resume) (closed : sh.pauseSem = 0) (before : ¬ PastGate q) :
    sh'.pauseSem = 0 ∧ ¬ PastGate q' ∧ sh'.head = sh.head ∧ sh'.totalConsumed = sh.totalConsumed ∧
      (sh'.itemNum = sh.itemNum ∨ q = .addItem) := by
  unfold procStep at own
  split at own
  all_goals first | cases own | obtain ⟨positive, ⟨⟩⟩ := Option.ite_none_right_eq_some.mp own
  all_goals first
    | exact absurd trivial before
    | exact absurd rfl plain.1
    | exact absurd rfl plain.2
    | exact ⟨closed, id, rfl, rfl, .inl rfl⟩
    | exact ⟨closed, id, rfl, rfl, .inr rfl⟩
    | exact absurd closed positive.ne'

section
variable {ι : Type} [DecidableEq ι]

/-- What a step of the server does to the queue: a statement of a session, a command, or nothing. -/
theorem step_queue {s t : Server ι} {move : Move ι} (places : ∀ i, At (place (s.session i)) (s.queue.pc (some i)))
    (taken : Sessions.step s move = some t) :
    (∃ i c shared p, move = .session i (.call c) ∧ procStep s.queue.shared (s.queue.pc (some i)) c = some (shared, p) ∧
        (c ≠ .pause ∧ c ≠ .resume) ∧ t.queue = { shared, pc := Function.update s.queue.pc (some i) p }) ∨
      (move = .main .pause ∧ 0 < s.queue.shared.pauseSem ∧
        t.queue = { s.queue with shared := { s.queue.shared with pauseSem := s.queue.shared.pauseSem - 1 } }) ∨
      (move = .main .resume ∧
        t.queue = { s.queue with shared := { s.queue.shared with pauseSem := s.queue.shared.pauseSem + 1 } }) ∨
      (∀ c, move ≠ .main c) ∧ t.queue = s.queue := by
  cases move with
  | session i act =>
    cases act with
    | next => exact .inr (.inr (.inr ⟨fun _ => by simp, (next_cases taken).1⟩))
    | disconnect =>
      obtain ⟨-, ⟨⟩⟩ := Option.ite_none_right_eq_some.mp taken
      exact .inr (.inr (.inr ⟨fun _ => by simp, rfl⟩))
    | read bytes =>
      obtain ⟨-, p, -, rfl⟩ := read_cases taken
      exact .inr (.inr (.inr ⟨fun _ => by simp, rfl⟩))
    | call c =>
      obtain ⟨q, moved, rest⟩ := Option.bind_eq_some_iff.mp taken
      obtain ⟨p, after, rest⟩ := Option.bind_eq_some_iff.mp rest
      cases rest
      obtain ⟨shared, pc, own, rfl⟩ := Interleaving.step_cases moved
      simp only [Function.update_self] at after
      exact .inl ⟨i, c, shared, pc, rfl, own, call_plain own after (places i), rfl⟩
  | main c =>
    simp only [Sessions.step] at taken
    split_ifs at taken with command
    obtain ⟨q, moved, rfl⟩ := Option.map_eq_some_iff.mp taken
    have same := (command_spec command moved).1
    obtain ⟨shared, pc, own, rfl⟩ := Interleaving.step_cases moved
    simp only at own same ⊢
    rw [same]
    rcases command with rfl | rfl
    · cases at' : s.queue.pc none <;> rw [at'] at own <;> first | cases own | skip
      obtain ⟨positive, ⟨⟩⟩ := Option.ite_none_right_eq_some.mp own
      exact .inr (.inl ⟨rfl, positive, rfl⟩)
    · cases at' : s.queue.pc none <;> rw [at'] at own <;> cases own
      exact .inr (.inr (.inl ⟨rfl, rfl⟩))

/-! ### The gate closed -/

/-- The step leaves what a consumer changes when it removes an item: only a producer that adds one changes `item_num`. -/
def Untouched (s : Server ι) (move : Move ι) : Prop :=
  ∀ t, Sessions.step s move = some t →
    t.queue.shared.head = s.queue.shared.head ∧ t.queue.shared.totalConsumed = s.queue.shared.totalConsumed ∧
      (t.queue.shared.itemNum = s.queue.shared.itemNum ∨ ∃ i c, move = .session i (.call c) ∧ s.queue.pc (some i) = .addItem)

/-- The gate is open for one consumer at a time, and none has gone through it and not removed its item. -/
def Settled (s : Server ι) : Prop :=
  s.queue.shared.pauseSem = 1 ∧ ∀ i, ¬ PastGate (s.queue.pc i)

/-- Nobody has gone through the gate, and it is closed. -/
def Held (s : Server ι) : Prop :=
  s.queue.shared.pauseSem = 0 ∧ ∀ i, ¬ PastGate (s.queue.pc i)

theorem pause_held {s t : Server ι} (places : ∀ i, At (place (s.session i)) (s.queue.pc (some i))) (settled : Settled s)
    (taken : Sessions.step s (.main .pause) = some t) : Held t := by
  rcases step_queue places taken with ⟨i, c, shared, p, move, -⟩ | ⟨-, -, after⟩ | ⟨move, -⟩ | ⟨other, -⟩
  · cases move
  · rw [Held, after]
    exact ⟨by rw [settled.1], settled.2⟩
  · cases move
  · exact absurd rfl (other .pause)

theorem held_step {s t : Server ι} {move : Move ι} (places : ∀ i, At (place (s.session i)) (s.queue.pc (some i)))
    (held : Held s) (still : move ≠ .main .resume) (taken : Sessions.step s move = some t) :
    Held t ∧ Untouched s move := by
  obtain ⟨closed, before⟩ := held
  have only : ∀ {t' : Server ι}, Sessions.step s move = some t' → t' = t := fun taken' =>
    Option.some.inj (taken'.symm.trans taken)
  rcases step_queue places taken with ⟨i, c, shared, p, rfl, own, plain, after⟩ | ⟨-, positive, -⟩ | ⟨move, -⟩ |
    ⟨other, same⟩
  · obtain ⟨still', past, head, consumed, itemNum⟩ := procStep_closed own plain closed (before _)
    refine ⟨⟨by rw [after]; exact still', ?_⟩, ?_⟩
    · rw [after]
      exact (Function.forall_update_iff _ fun _ q => ¬ PastGate q).mpr ⟨past, fun j _ => before j⟩
    · intro t' taken'
      rw [only taken', after]
      exact ⟨head, consumed, itemNum.imp_right fun here => ⟨i, c, rfl, here⟩⟩
  · exact absurd closed positive.ne'
  · exact absurd move still
  · refine ⟨⟨by rw [same]; exact closed, by rw [same]; exact before⟩, ?_⟩
    intro t' taken'
    rw [only taken', same]
    exact ⟨rfl, rfl, .inl rfl⟩

/-- When the gate was open for one consumer and none had gone through it and still had an item
    to remove, then after `-` and until `+` no consumer removes an item. -/
theorem paused_untouched [Fintype ι] {before during : List (Move ι)} {u s : Server ι}
    (run : exec Sessions.step (start ι) before = some u) (settled : Settled u)
    (paused : Sessions.step u (.main .pause) = some s) (still : .main .resume ∉ during) :
    AllSteps Sessions.step Untouched s during := by
  have custody : Custody.Invariant u := reachable_kept Custody.step_invariant Custody.start_invariant ⟨before, run⟩
  have holds : Custody.Invariant s ∧ Held s :=
    ⟨Custody.step_invariant u _ s custody paused, pause_held custody.places settled paused⟩
  have others : AllSteps Sessions.step (fun _ move => move ≠ .main .resume) s during :=
    allSteps_mem s fun move inside same => still (same ▸ inside)
  have kept : ∀ (a : Server ι) move b, (Custody.Invariant a ∧ Held a) → move ≠ .main .resume → Sessions.step a move = some b →
      Custody.Invariant b ∧ Held b := by
    rintro a move b ⟨inv, held⟩ other taken
    exact ⟨Custody.step_invariant a move b inv taken, (held_step inv.places held other taken).1⟩
  refine allSteps_of kept ?_ holds others
  rintro a move ⟨inv, held⟩ other b taken
  exact (held_step inv.places held other taken).2 b taken

theorem untouched_head {s t : Server ι} {moves : List (Move ι)} (all : AllSteps Sessions.step Untouched s moves)
    (run : exec Sessions.step s moves = some t) : t.queue.shared.head = s.queue.shared.head := by
  have kept : ∀ (a : Server ι) move b, a.queue.shared.head = s.queue.shared.head → Untouched a move →
      Sessions.step a move = some b → b.queue.shared.head = s.queue.shared.head :=
    fun a move b same untouched taken => (untouched b taken).1.trans same
  exact exec_kept_of kept rfl all run

end

theorem paused_untouched_sample :
    ∃ u s t : Server Bool, Sessions.step u (.main .pause) = some s ∧
      exec Sessions.step s (Custody.producerSession false (ascii ['a'])) = some t ∧ t.acked = [0] ∧
        t.queue.shared.head = s.queue.shared.head := by
  let producer : List (Move Bool) := Custody.producerSession false (ascii ['a'])
  obtain ⟨t, run, acked⟩ : ∃ t, exec Sessions.step (start Bool) (.main .pause :: producer) = some t ∧ t.acked = [0] :=
    Option.map_eq_some_iff.mp (by decide)
  obtain ⟨s, paused, onward⟩ := exec_cons_iff.mp run
  have fresh : exec Sessions.step (start Bool) [] = some (Sessions.start Bool) := rfl
  have untouched : AllSteps Sessions.step Untouched s producer :=
    paused_untouched fresh ⟨rfl, fun _ => id⟩ paused (by simp [producer, Custody.producerSession])
  exact ⟨_, s, t, paused, onward, acked, untouched_head untouched onward⟩

/-- A consumer waits for an item, `-` closes the gate, the item comes, and the consumer takes it. -/
theorem paused_taken :
    ¬ ∀ (ι : Type) [DecidableEq ι] [Fintype ι] (before during : List (Move ι)) (u s : Server ι),
      exec Sessions.step (start ι) before = some u → Sessions.step u (.main .pause) = some s →
        .main .resume ∉ during → AllSteps Sessions.step Untouched s during := by
  intro always
  let before : List (Move Bool) := Custody.consumerSession true
  let during : List (Move Bool) :=
    Custody.producerSession false (ascii ['a']) ++ List.replicate 5 (.session true (.call .go))
  obtain ⟨t, run, head⟩ : ∃ t, exec Sessions.step (start Bool) (before ++ .main .pause :: during) = some t ∧
      t.queue.shared.head = 1 :=
    Option.map_eq_some_iff.mp (by decide)
  obtain ⟨s', run', head'⟩ : ∃ s, exec Sessions.step (start Bool) (before ++ [.main .pause]) = some s ∧
      s.queue.shared.head = 0 :=
    Option.map_eq_some_iff.mp (by decide)
  obtain ⟨u, first, rest⟩ := exec_append_iff.mp run
  obtain ⟨s, paused, onward⟩ := exec_cons_iff.mp rest
  obtain ⟨u', first', rest'⟩ := exec_append_iff.mp run'
  obtain rfl := Option.some.inj (first.symm.trans first')
  obtain ⟨s'', paused', rest''⟩ := exec_cons_iff.mp rest'
  obtain rfl := Option.some.inj (paused.symm.trans paused')
  cases rest''
  have untouched := always Bool before during u s' first paused (by simp [during, Custody.producerSession])
  have same := untouched_head untouched onward
  omega

/-! ### What a read returns -/

/-- A line of stdin that is a command of the gate. -/
inductive Command
  | minus | plus
  deriving DecidableEq

def Command.choice : Command → Choice
  | .minus => .pause
  | .plus => .resume

def Command.byte : Command → UInt8
  | .minus => 45
  | .plus => 43

/-- The commands as they come from stdin, each in a line of its own. -/
def text (commands : List Command) : Bytes := commands.flatMap fun c => [c.byte, 10]

/-- What one `read(STDIN_FILENO, buf, sizeof(buf) - 1)` returns. -/
abbrev Piece := { bytes : Bytes // bytes ≠ [] ∧ bytes.length < 128 }

/-- What `main` finds in `buf`: the string in front of the first CR or newline is compared with
    the commands, and what stands behind it is not looked at. There is no line `quit`. -/
def command (buf : Bytes) : Option Command :=
  if line buf = ascii ['-'] then some .minus
  else if line buf = ascii ['+'] then some .plus
  else none

/-- The commands that `main` finds. -/
def found (pieces : List Piece) : List Command := pieces.filterMap fun piece => command piece.val

/-- Each read returns the text of one command at most: behind its first byte stands nothing but the newline. -/
def OneEach (pieces : List Piece) : Prop := ∀ piece ∈ pieces, ∀ b ∈ piece.val.tail, b = 10

/-- The command that a byte is. -/
def mark (b : UInt8) : Option Command := if b = 45 then some .minus else if b = 43 then some .plus else none

theorem mark_text (commands : List Command) : (text commands).filterMap mark = commands := by
  induction commands with
  | nil => rfl
  | cons c rest ih => cases c <;> simpa [text, mark, Command.byte] using ih

theorem text_bytes {commands : List Command} {b : UInt8} (inside : b ∈ text commands) (other : mark b = none) : b = 10 := by
  obtain ⟨c, -, here⟩ := List.mem_flatMap.mp inside
  cases c <;> simp only [List.mem_cons, Command.byte, List.not_mem_nil, or_false] at here <;>
    rcases here with rfl | rfl <;> first | rfl | cases other

/-- A read has the command that its first byte is, when it has any. -/
theorem command_head (buf : Bytes) : List.Sublist (command buf).toList ((buf.take 1).filterMap mark) := by
  cases buf with
  | nil => exact List.nil_sublist _
  | cons b rest =>
    have first : ∀ c : Char, line (b :: rest) = ascii [c] → b = c.toNat.toUInt8 := by
      intro c same
      rw [line, List.takeWhile_cons] at same
      split at same
      · exact (List.cons.inj same).1
      · cases same
    rw [command]
    split_ifs with minus plus
    · rw [show b = 45 from first _ minus]
      exact List.Sublist.refl _
    · rw [show b = 43 from first _ plus]
      exact List.Sublist.refl _
    · exact List.nil_sublist _

theorem command_sublist (buf : Bytes) : List.Sublist (command buf).toList (buf.filterMap mark) :=
  (command_head buf).trans ((List.take_sublist _ _).filterMap mark)

theorem command_one {buf : Bytes} (one : ∀ b ∈ buf.tail, b = 10) : (command buf).toList = buf.filterMap mark := by
  cases buf with
  | nil => rfl
  | cons b rest =>
    have unmarked : rest.filterMap mark = [] := by
      refine List.filterMap_eq_nil_iff.mpr fun c inside => ?_
      rw [one c inside]
      rfl
    have ends : rest.takeWhile (fun b => b ≠ 0 ∧ b ≠ 13 ∧ b ≠ 10) = [] := by
      cases rest with
      | nil => rfl
      | cons c more =>
        rw [one c (by simp)]
        rfl
    rw [command, line, List.takeWhile_cons, ends, List.filterMap_cons, unmarked]
    by_cases minus : b = 45
    · subst minus
      rfl
    · by_cases plus : b = 43
      · subst plus
        rfl
      · have neither : ∀ c : Char, b ≠ c.toNat.toUInt8 →
            (if decide (b ≠ 0 ∧ b ≠ 13 ∧ b ≠ 10) = true then [b] else []) ≠ ascii [c] := by
          intro c other same
          split_ifs at same
          · exact other (List.cons.inj same).1
          · cases same
        rw [if_neg (neither '-' minus), if_neg (neither '+' plus)]
        simp [mark, minus, plus]

/-- Lists that are each a part of another are the same when they make up the same list. -/
theorem flatMap_each {α β : Type} {f g : α → List β} (within : ∀ x, List.Sublist (f x) (g x)) {l : List α}
    (same : l.flatMap f = l.flatMap g) : ∀ x ∈ l, f x = g x := by
  have shorter : ∀ l : List α, (l.flatMap f).length ≤ (l.flatMap g).length := by
    intro l
    induction l with
    | nil => rfl
    | cons x rest ih =>
      have := (within x).length_le
      simp only [List.flatMap_cons, List.length_append]
      omega
  induction l with
  | nil => simp
  | cons x rest ih =>
    simp only [List.flatMap_cons] at same
    have lengths := congrArg List.length same
    simp only [List.length_append] at lengths
    have here : f x = g x := by
      refine (within x).eq_of_length ?_
      have := (within x).length_le
      have := shorter rest
      omega
    rw [here] at same
    have others := ih (List.append_cancel_left same)
    simpa [here] using others

/-- `main` finds every command exactly when each read returns one command at most. -/
theorem found_iff {commands : List Command} {pieces : List Piece} (whole : pieces.flatMap (·.val) = text commands) :
    found pieces = commands ↔ OneEach pieces := by
  have marks : pieces.flatMap (fun piece => piece.val.filterMap mark) = commands := by
    rw [← mark_text commands, ← whole, List.filterMap_flatMap]
  have finds : found pieces = pieces.flatMap fun piece => (command piece.val).toList := by
    rw [found, List.filterMap_eq_flatMap_toList]
  rw [finds, ← marks]
  constructor
  · intro same piece inside b behind
    have each : (command piece.val).toList = piece.val.filterMap mark := flatMap_each (fun piece => command_sublist piece.val) same piece inside
    have head := (command_head piece.val).length_le
    have bytes : b ∈ text commands := whole ▸ List.mem_flatMap.mpr ⟨piece, inside, List.mem_of_mem_tail behind⟩
    refine text_bytes bytes ?_
    have split : piece.val.filterMap mark = (piece.val.take 1).filterMap mark ++ (piece.val.drop 1).filterMap mark := by
      rw [← List.filterMap_append, List.take_append_drop]
    have nothing : (piece.val.drop 1).filterMap mark = [] := by
      rw [each, split, List.length_append] at head
      exact List.length_eq_zero_iff.mp (by omega)
    exact List.filterMap_eq_nil_iff.mp nothing b (by rwa [List.drop_one])
  · intro one
    exact List.flatMap_congr fun piece inside => command_one (one piece inside)

/-! ### A sequence of commands -/

/-- The server with what the reads of stdin will return, and the command that `main` has read and not
    executed. The commands executed are not in the code. -/
structure Console (ι : Type) where
  server : Server ι
  buf : Option Command
  stdin : List Piece
  executed : List Command

/-- `main` reads from stdin or executes a command, or a session or its client takes a step. -/
inductive ConsoleMove (ι : Type)
  | read
  | execute
  | session (i : ι) (act : Act)

section
variable {ι : Type} [DecidableEq ι]

def consoleStep (s : Console ι) : ConsoleMove ι → Option (Console ι)
  | .read =>
    match s.buf, s.stdin with
    | none, piece :: rest => some { s with buf := command piece.val, stdin := rest }
    | _, _ => none
  | .execute => do
    let c ← s.buf
    let server ← Sessions.step s.server (.main c.choice)
    some { s with server, buf := none, executed := s.executed ++ [c] }
  | .session i act => do
    let server ← Sessions.step s.server (.session i act)
    some { s with server }

def console (ι : Type) (pieces : List Piece) : Console ι :=
  { server := start ι, buf := none, stdin := pieces, executed := [] }

/-- Nobody can go through the gate: its semaphore is 0, and no consumer has it. -/
def Closed (s : Console ι) : Prop :=
  s.server.queue.shared.pauseSem = 0 ∧ ∀ i, s.server.queue.pc i ≠ .postPause

/-- `main` waits in `sem_wait(pause_sem)`, and only a later `+` can end that. -/
def Stuck (s : Console ι) : Prop := s.buf = some .minus ∧ Closed s

/-- `main` has read all of stdin and executed what it found. -/
def AllRead (s : Console ι) : Prop := s.buf = none ∧ s.stdin = []

/-- `main` processes every command, and leaves the gate closed when the last was `-`. -/
def Processes (commands : List Command) (s : Console ι) : Prop :=
  ¬ Stuck s ∧ (AllRead s → s.executed = commands ∧ (Closed s ↔ commands.getLast? = some .minus))

/-- There is never a second `-` without a `+` before it, and a last `-` is the only one without. -/
def Balanced (commands : List Command) : Prop :=
  (∀ first, first <+: commands → first.count .minus ≤ first.count .plus + 1) ∧
    (commands.getLast? = some .minus → commands.count .minus = commands.count .plus + 1)

/-- What a process has taken of the semaphore. -/
def taking (p : Pc) : ℤ := pauseOwed p

/-- The value of the semaphore, with what consumers have taken of it. -/
def gate [Fintype ι] (s : Server ι) : ℤ := s.queue.shared.pauseSem + total taking s.queue.pc

/-- What was executed is what `main` found so far, and accounts for the gate. -/
structure Gated [Fintype ι] (pieces : List Piece) (s : Console ι) : Prop where
  custody : Custody.Invariant s.server
  order : s.executed ++ (s.buf.toList ++ found s.stdin) = found pieces
  balance : gate s.server + s.executed.count .minus = 1 + s.executed.count .plus

section
variable [Fintype ι] {s t : Server ι}

theorem gate_session {i : ι} {act : Act} (places : ∀ i, At (place (s.session i)) (s.queue.pc (some i)))
    (taken : Sessions.step s (.session i act) = some t) : gate t = gate s := by
  rcases step_queue places taken with ⟨j, c, shared, p, -, own, plain, after⟩ | ⟨move, -⟩ | ⟨move, -⟩ | ⟨-, same⟩
  · have conserved := procStep_gate own plain
    have moved := total_update taking s.queue.pc (some j) p
    rw [gate, gate, after]
    unfold taking at *
    dsimp only at *
    omega
  · cases move
  · cases move
  · rw [gate, gate, same]

theorem gate_command {c : Command} (places : ∀ i, At (place (s.session i)) (s.queue.pc (some i)))
    (taken : Sessions.step s (.main c.choice) = some t) :
    t.queue.pc = s.queue.pc ∧ gate t + [c].count .minus = gate s + [c].count .plus := by
  rcases step_queue places taken with ⟨i, _, _, _, move, -⟩ | ⟨move, positive, after⟩ | ⟨move, after⟩ | ⟨other, -⟩
  · cases move
  · cases c with
    | plus => cases move
    | minus =>
      refine ⟨by rw [after], ?_⟩
      rw [gate, gate, after]
      dsimp only
      rw [Nat.cast_sub positive]
      simp
      ring
  · cases c with
    | minus => cases move
    | plus =>
      refine ⟨by rw [after], ?_⟩
      rw [gate, gate, after]
      push_cast
      simp
      ring
  · exact absurd rfl (other c.choice)

omit [DecidableEq ι] in
/-- The gate is closed when all of it is taken. -/
theorem closed_iff {s : Console ι} : Closed s ↔ gate s.server = 0 := by
  have nonneg : ∀ p, 0 ≤ taking p := fun p => Int.natCast_nonneg _
  have owed : ∀ p, taking p = 0 ↔ p ≠ .postPause := fun p => by cases p <;> simp [taking, pauseOwed]
  constructor
  · rintro ⟨zero, free⟩
    rw [gate, zero, total_eq_zero fun i => (owed _).mpr (free i)]
    rfl
  · intro zero
    have atLeast := total_nonneg nonneg s.server.queue.pc
    rw [gate] at zero
    refine ⟨by omega, fun i => (owed _).mp ?_⟩
    have := le_total nonneg s.server.queue.pc i
    have := nonneg (s.server.queue.pc i)
    omega

omit [DecidableEq ι] in
theorem console_gated {pieces : List Piece} : Gated pieces (console ι pieces) := by
  refine ⟨Custody.start_invariant, rfl, ?_⟩
  have fresh : ∀ i, taking ((Sessions.start ι).queue.pc i) = 0 := fun _ => rfl
  rw [gate, console, total_eq_zero fresh]
  rfl

theorem step_gated {pieces : List Piece} {s t : Console ι} {move : ConsoleMove ι} (gated : Gated pieces s)
    (taken : consoleStep s move = some t) : Gated pieces t := by
  obtain ⟨custody, order, balance⟩ := gated
  cases move with
  | read =>
    simp only [consoleStep] at taken
    split at taken
    · next piece rest buf stdin =>
      cases taken
      refine ⟨custody, ?_, balance⟩
      rw [← order, buf, stdin, found, found, List.filterMap_cons]
      cases command piece.val <;> rfl
    · cases taken
  | execute =>
    obtain ⟨c, buf, taken⟩ := Option.bind_eq_some_iff.mp taken
    obtain ⟨server, moved, taken⟩ := Option.bind_eq_some_iff.mp taken
    cases taken
    refine ⟨Custody.step_invariant _ _ _ custody moved, ?_, ?_⟩
    · rw [← order, buf]
      simp
    · have := (gate_command custody.places moved).2
      simp only [List.count_append]
      push_cast
      omega
  | session i act =>
    obtain ⟨server, moved, taken⟩ := Option.bind_eq_some_iff.mp taken
    cases taken
    refine ⟨Custody.step_invariant _ _ _ custody moved, order, ?_⟩
    rw [← balance, gate_session custody.places moved]

theorem console_reachable {pieces : List Piece} {s : Console ι} (reached : Reachable consoleStep (console ι pieces) s) :
    Gated pieces s :=
  reachable_kept (fun _ _ _ => step_gated) console_gated reached

omit [Fintype ι] in
theorem command_enabled {s : Server ι} {c : Command} (idle : s.queue.pc none = .idle)
    (ready : c = .minus → 0 < s.queue.shared.pauseSem) : ∃ t, Sessions.step s (.main c.choice) = some t := by
  cases c with
  | minus => simp [Sessions.step, Command.choice, ShmQueue.step, Interleaving.step, idle, procStep, ready rfl]
  | plus => simp [Sessions.step, Command.choice, ShmQueue.step, Interleaving.step, idle, procStep]

/-- When `main` is never stuck, it gets through any part of stdin with no consumer at the gate. -/
theorem main_alone {pieces : List Piece} (never : ∀ s, Reachable consoleStep (console ι pieces) s → ¬ Stuck s)
    (first rest : List Piece) (cut : first ++ rest = pieces) :
    ∃ s, Reachable consoleStep (console ι pieces) s ∧ s.buf = none ∧ s.stdin = rest ∧ s.executed = found first ∧
      ∀ i, s.server.queue.pc i = .idle := by
  induction first using List.reverseRecOn generalizing rest with
  | nil =>
    rw [← cut]
    exact ⟨_, ⟨[], rfl⟩, rfl, rfl, rfl, fun _ => rfl⟩
  | append_singleton first piece ih =>
    obtain ⟨s, reached, buf, stdin, executed, idle⟩ := ih (piece :: rest) (by simpa using cut)
    have reads : consoleStep s .read = some { s with buf := command piece.val, stdin := rest } := by
      simp [consoleStep, buf, stdin]
    have here := reached.next reads
    have more : found (first ++ [piece]) = s.executed ++ (command piece.val).toList := by
      rw [executed, found, found, List.filterMap_append]
      cases typed : command piece.val <;> simp [typed]
    cases typed : command piece.val with
    | none =>
      rw [typed] at here more
      exact ⟨_, here, rfl, rfl, by rw [more]; simp, idle⟩
    | some c =>
      rw [typed] at here more
      have ready : c = .minus → 0 < s.server.queue.shared.pauseSem := by
        rintro rfl
        refine Nat.pos_of_ne_zero fun zero => never _ here ⟨rfl, zero, fun i => ?_⟩
        rw [idle i]
        exact Pc.noConfusion
      obtain ⟨server, moved⟩ := command_enabled (idle none) ready
      have executes : consoleStep { s with buf := some c, stdin := rest } .execute =
          some { s with server, buf := none, stdin := rest, executed := s.executed ++ [c] } := by
        simp [consoleStep, moved]
      refine ⟨_, here.next executes, rfl, rfl, more.symm, ?_⟩
      intro i
      rw [(gate_command (console_reachable reached).custody.places moved).1]
      exact idle i

omit [DecidableEq ι] in
theorem gate_nonneg (s : Server ι) : 0 ≤ gate s :=
  add_nonneg (Int.natCast_nonneg _) (total_nonneg (fun _ => Int.natCast_nonneg _) _)

omit [DecidableEq ι] in
/-- Balanced commands leave the gate closed when the last was `-`. -/
theorem Balanced.closed_iff {commands : List Command} (balanced : Balanced commands) {s : Console ι}
    (balance : gate s.server + commands.count .minus = 1 + commands.count .plus) :
    Closed s ↔ commands.getLast? = some .minus := by
  obtain ⟨prefixes, last⟩ := balanced
  rw [PauseGate.closed_iff]
  constructor
  · intro zero
    cases known : commands.getLast? with
    | none =>
      rw [List.getLast?_eq_none_iff] at known
      subst known
      simp [zero] at balance
    | some c =>
      cases c with
      | minus => rfl
      | plus =>
        obtain ⟨first, rfl⟩ := List.getLast?_eq_some_iff.mp known
        have atMost := prefixes first (List.prefix_append ..)
        simp [zero] at balance
        omega
  · intro known
    have := last known
    omega

/-- Whatever the consumers do in between, `main` processes every command and leaves the gate
    closed when the last was `-`, exactly when each read returns one command at most and the
    commands are balanced. -/
theorem commands_processed_iff (commands : List Command) (pieces : List Piece)
    (whole : pieces.flatMap (·.val) = text commands) :
    (∀ s : Console ι, Reachable consoleStep (console ι pieces) s → Processes commands s) ↔
      OneEach pieces ∧ Balanced commands := by
  rw [← found_iff whole]
  constructor
  · intro always
    have alone := main_alone fun s reached => (always s reached).1
    obtain ⟨s, reached, buf, stdin, executed, -⟩ := alone pieces [] (List.append_nil _)
    obtain ⟨all, closed⟩ := (always s reached).2 ⟨buf, stdin⟩
    have every : found pieces = commands := executed.symm.trans all
    refine ⟨every, ?_, ?_⟩
    · rintro first ⟨rest, cut⟩
      obtain ⟨front, back, split, finds, -⟩ := List.filterMap_eq_append_iff.mp (every.trans cut.symm)
      obtain ⟨u, onTheWay, -, -, executed, -⟩ := alone front back split.symm
      have balance := (console_reachable onTheWay).balance
      rw [executed, found, finds] at balance
      have := gate_nonneg u.server
      omega
    · intro last
      have balance := (console_reachable reached).balance
      rw [all, closed_iff.mp (closed.mpr last)] at balance
      omega
  · rintro ⟨every, balanced⟩ s reached
    obtain ⟨-, order, balance⟩ := console_reachable reached
    rw [every] at order
    refine ⟨?_, ?_⟩
    · rintro ⟨buf, closed⟩
      rw [closed_iff.mp closed] at balance
      have atMost := balanced.1 (s.executed ++ [.minus]) ⟨found s.stdin, by rw [← order, buf]; simp⟩
      simp only [List.count_append, List.count_singleton_self, List.count_singleton] at atMost
      simp at atMost
      omega
    · rintro ⟨buf, stdin⟩
      have all : s.executed = commands := by
        rw [← order, buf, stdin]
        simp [found]
      exact ⟨all, balanced.closed_iff (all ▸ balance)⟩

end

theorem commands_processed_sample :
    ∃ pieces : List Piece, pieces.length = 2 ∧
      ∀ s : Console Unit, Reachable consoleStep (console Unit pieces) s → Processes [.minus, .plus] s := by
  refine ⟨[⟨[45, 10], by simp⟩, ⟨[43, 10], by simp⟩], rfl, ?_⟩
  refine (commands_processed_iff [.minus, .plus] _ rfl).mpr ⟨by simp [OneEach], ?_, by simp⟩
  intro first before
  have prefixes : ∀ first ∈ List.inits [Command.minus, .plus], first.count .minus ≤ first.count .plus + 1 := by decide
  exact prefixes first ((List.mem_inits ..).mpr before)

/-- The second of two `-` is never executed. -/
theorem second_stuck :
    ¬ ∀ (ι : Type) [DecidableEq ι] [Fintype ι] (commands : List Command) (pieces : List Piece),
      pieces.flatMap (·.val) = text commands →
        ∀ s : Console ι, Reachable consoleStep (console ι pieces) s → Processes commands s := by
  intro always
  let minus : Piece := ⟨[45, 10], by simp⟩
  have holds := always Unit [.minus, .minus] [minus, minus] rfl
  obtain ⟨s, reached, -, -, executed, -⟩ :=
    main_alone (fun s reached => (holds s reached).1) [minus, minus] [] rfl
  have balance := (console_reachable reached).balance
  rw [executed, show found [minus, minus] = [.minus, .minus] from rfl] at balance
  have := gate_nonneg s.server
  simp at balance
  omega

end

end OsyProg.PauseGate
