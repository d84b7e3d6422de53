import OsyProg.ProducerClient

/-!
The two modes of `DU05_test/socket_srv.cpp`. In MODE_SHM the sessions are those of
`OsyProg.Sessions`; in MODE_MQ they use no semaphore and count no client, `consumer`
receives from `g_mq`, and the block of `producer` for this mode makes a message and does
not send it: the call of `mq_send` is in a comment. So the message queue stays empty
(`mq_empty`), and an item is acknowledged after it was put only in MODE_SHM.
-/
namespace OsyProg.QueueModes
open OsyProg.Bytes OsyProg.Runs OsyProg.ShmQueue OsyProg.Sessions OsyProg.ServedRole OsyProg.ProducerClient

/-- `queue_mode_t` -/
inductive Mode
  | shm | mq
  deriving DecidableEq

/-! ### MODE_MQ -/

/-- Where a process is in the branches of `producer` and `consumer` for MODE_MQ. -/
inductive MqPc
  | idle
  | format (item : Bytes)                       -- snprintf(tmp, sizeof(tmp), "%s", item)
  | cut (tmp : Bytes)                           -- len = strnlen(tmp, MAX_STR - 1), tmp[len] = 0
  | clock                                       -- clock_gettime(CLOCK_REALTIME, &ts)
  | receive                                     -- mq_timedreceive(g_mq, item, MAX_STR, &prio, &ts)
  | returned (result : ℤ) (item : Bytes)        -- the result of consumer
  deriving DecidableEq

/-- The string that `item[n - 1] = 0` leaves of a message. -/
def received (message : Bytes) : Bytes := message.dropLast.takeWhile fun b => b ≠ 0

/-- One statement of a process over the messages in `g_mq`. The counter `mq_counter` is not read by any. -/
def mqStep (mq : List Bytes) : MqPc → Choice → Option (List Bytes × MqPc)
  | .idle, .produce item => some (mq, .format item)
  | .format item, .go => some (mq, .cut (item.take (MAX_STR - 1)))
  | .cut _, .go => some (mq, .idle)
  | .idle, .consume => some (mq, .clock)
  | .clock, .go => some (mq, .receive)
  | .clock, .fail => some (mq, .returned (-2) [])
  | .receive, .go =>
    match mq with
    | [] => none
    | message :: rest => some (rest, .returned 0 (received message))
  | .receive, .timeout => some (mq, .returned (-1) [])
  | .receive, .fail => some (mq, .returned (-2) [])
  | .returned _ _, .go => some (mq, .idle)
  | _, _ => none

/-- The message queue and the processes. -/
structure MqServer (ι : Type) where
  queue : Interleaving.System (List Bytes) MqPc ι
  session : ι → SessionPc
  connected : ι → Bool

/-- What `handle_client` does under `g_mode == MODE_SHM` is left out. -/
def unguarded : SessionPc → SessionPc
  | .lockIn .producer => .readItem
  | .lockIn .consumer => .consume
  | .lockOut _ => .close
  | p => p

/-- A statement inside `producer` or `consumer`. -/
def afterMqCall (c : Choice) (before after : MqPc) : SessionPc → Option SessionPc
  | .produce item => if c = .produce item then some .producing else none
  | .producing => if after = .idle then some .ack else some .producing
  | .consume => if c = .consume then some .consuming else none
  | .consuming =>
    match before with
    | .returned result item => some (afterConsumer result item)
    | _ => some .consuming
  | _ => none

section
variable {ι : Type} [DecidableEq ι]

/-- A statement of a session that is no read, outside `producer` and `consumer`. -/
def mqNext : SessionPc → Option SessionPc
  | .close => some .closed
  | p => if (message p).isSome then some (unguarded (afterWrite p)) else none

def mqServerStep (s : MqServer ι) : Move ι → Option (MqServer ι)
  | .session i .next => (mqNext (s.session i)).map fun p => { s with session := Function.update s.session i p }
  | .session i (.call c) => do
    let q ← Interleaving.step mqStep s.queue (i, c)
    let p ← afterMqCall c (s.queue.pc i) (q.pc i) (s.session i)
    some { s with queue := q, session := Function.update s.session i p }
  | .session i (.read bytes) =>
    if (bytes = [] ↔ s.connected i = false) ∧ bytes.length ≤ readSize (s.session i) then
      (afterRead bytes (s.session i)).map fun p => { s with session := Function.update s.session i (unguarded p) }
    else none
  | .session i .disconnect =>
    if s.connected i = true then some { s with connected := Function.update s.connected i false } else none
  -- the commands of main only log that they work in MODE_SHM
  | .main c => if c = .pause ∨ c = .resume then some s else none

/-- A fresh message queue; every client is connected. -/
def mqStart (ι : Type) : MqServer ι :=
  { queue := { shared := [], pc := fun _ => .idle }, session := fun _ => .welcome, connected := fun _ => true }

/-- What a statement adds to the history of a session. No statement puts an item into `g_mq`. -/
def mqEventOf (p : SessionPc) : Act → List Event
  | .read bytes => if p = .readItem then [.read bytes] else []
  | .call _ =>
    match p with
    | .produce item => [.called item]
    | _ => []
  | .next => if p = .ack then [.ok] else []
  | .disconnect => []

def mqEvents (i : ι) (s : MqServer ι) : Move ι → List Event
  | .session j act => if j = i then mqEventOf (s.session i) act else []
  | .main _ => []

/-- Nothing is ever sent, so no `consumer` receives an item. -/
theorem mq_empty {s : MqServer ι} (reached : Reachable mqServerStep (mqStart ι) s) : s.queue.shared = [] := by
  have kept : ∀ (s : MqServer ι) (move : Move ι) (t : MqServer ι), s.queue.shared = [] →
      mqServerStep s move = some t → t.queue.shared = [] := by
    intro s move t empty taken
    cases move with
    | main c =>
      obtain ⟨-, ⟨⟩⟩ := Option.ite_none_right_eq_some.mp taken
      exact empty
    | session i act =>
      cases act with
      | next =>
        obtain ⟨p, -, rfl⟩ := Option.map_eq_some_iff.mp taken
        exact empty
      | disconnect =>
        obtain ⟨-, ⟨⟩⟩ := Option.ite_none_right_eq_some.mp taken
        exact empty
      | read bytes =>
        obtain ⟨-, moved⟩ := Option.ite_none_right_eq_some.mp taken
        obtain ⟨p, -, rfl⟩ := Option.map_eq_some_iff.mp moved
        exact empty
      | call c =>
        obtain ⟨q, moved, rest⟩ := Option.bind_eq_some_iff.mp taken
        obtain ⟨p, -, rest⟩ := Option.bind_eq_some_iff.mp rest
        cases rest
        obtain ⟨mq, pc, own, rfl⟩ := Interleaving.step_cases moved
        simp only [empty] at own ⊢
        unfold mqStep at own
        split at own <;> cases own <;> rfl
  exact reachable_kept kept rfl reached

end

/-! ### Acknowledgements -/

/-- What a session did but reading: its calls, the items it put into the queue, and its acknowledgements. -/
def deeds (history : List Event) : List Event :=
  history.filter fun
    | .read _ => false
    | _ => true

/-- An Ok is written once its item was put into the queue, and for one item at a time: after
    the call with an item comes the put of this item, once, and then the Ok. -/
def Acknowledged (history : List Event) : Prop :=
  ∃ items : List Bytes, deeds history <+: items.flatMap fun item => [.called item, .put item, .ok]

section
variable {ι : Type} [DecidableEq ι]

/-- The history of session `i` in a run of the server in one of its modes. -/
def history (mode : Mode) (i : ι) (moves : List (Move ι)) : Option (List Event) :=
  match mode with
  | .shm =>
    (exec Sessions.step (start ι) moves).map fun _ => trace Sessions.step (events i) (start ι) moves
  | .mq => (exec mqServerStep (mqStart ι) moves).map fun _ => trace mqServerStep (mqEvents i) (mqStart ι) moves

theorem served_deeds (pieces : List Bytes) :
    deeds (pieces.flatMap served) = (kept pieces).flatMap fun item => [.called item, .put item, .ok] := by
  induction pieces with
  | nil => rfl
  | cons bytes rest ih =>
    rw [List.flatMap_cons, deeds, List.filter_append, ← deeds, ← deeds, ih, kept_cons]
    unfold served
    split_ifs <;> rfl

/-- The items put in a history. -/
def puts (history : List Event) : List Bytes :=
  history.filterMap fun
    | .put item => some item
    | _ => none

/-- What a step adds to the history of all sessions. -/
def allEvents (s : Server ι) : Move ι → List Event
  | .session i act => eventOf (s.session i) (s.queue.pc (some i)) act
  | .main _ => []

theorem puts_none {p : SessionPc} {q : Pc} (c : Choice) (notIn : ∀ tmp, q ≠ .copyIn tmp) :
    puts (eventOf p q (.call c)) = [] := by
  cases p with
  | producing =>
    cases q with
    | copyIn tmp => exact absurd rfl (notIn tmp)
    | _ => rfl
  | _ => rfl

/-- A statement puts an item when it copies one into the ring. -/
theorem call_puts {sh sh' : Shared} {p : SessionPc} {q q' : Pc} {c : Choice} (own : procStep sh q c = some (sh', q'))
    (fits : At (place p) q) : sh'.produced = sh.produced ++ puts (eventOf p q (.call c)) := by
  rcases procStep_items own with ⟨tmp, rfl, -, produced, -⟩ | ⟨rfl, -, -, produced, -⟩ | ⟨notIn, -, -, produced, -⟩
  · rw [produced]
    cases p <;> first | rfl | cases fits
  · rw [produced, puts_none c fun _ => Pc.noConfusion, List.append_nil]
  · rw [produced, puts_none c notIn, List.append_nil]

/-- The items put by the sessions are those in the ring and those that `consumer` has taken from it. -/
theorem puts_produced [Fintype ι] {t : Server ι} {moves : List (Move ι)}
    (run : exec Sessions.step (start ι) moves = some t) :
    t.queue.shared.produced = puts (trace Sessions.step allEvents (start ι) moves) := by
  have kept : ∀ (s : Server ι) (past : List Event) (move : Move ι) (t : Server ι),
      (Custody.Invariant s ∧ s.queue.shared.produced = puts past) → Sessions.step s move = some t →
        Custody.Invariant t ∧ t.queue.shared.produced = puts (past ++ allEvents s move) := by
    rintro s past move t ⟨inv, produced⟩ taken
    refine ⟨Custody.step_invariant s move t inv taken, ?_⟩
    rw [puts, List.filterMap_append, ← puts, ← puts, ← produced]
    cases move with
    | main c =>
      simp only [Sessions.step] at taken
      split_ifs at taken with command
      obtain ⟨q, moved, rfl⟩ := Option.map_eq_some_iff.mp taken
      simp [(command_spec command moved).2.1, allEvents, puts]
    | session i act =>
      cases act with
      | next =>
        rw [(next_cases taken).1]
        simp only [allEvents, eventOf]
        split_ifs <;> simp [puts]
      | disconnect =>
        obtain ⟨-, ⟨⟩⟩ := Option.ite_none_right_eq_some.mp taken
        simp [allEvents, eventOf, puts]
      | read bytes =>
        obtain ⟨-, p, -, rfl⟩ := read_cases taken
        simp only [allEvents, eventOf]
        split_ifs <;> simp [puts]
      | call c =>
        obtain ⟨q, moved, rest⟩ := Option.bind_eq_some_iff.mp taken
        obtain ⟨p, -, rest⟩ := Option.bind_eq_some_iff.mp rest
        cases rest
        obtain ⟨shared, pc, own, rfl⟩ := Interleaving.step_cases moved
        exact call_puts own (inv.places i)
  have fresh : Custody.Invariant (start ι) ∧ (Sessions.start ι).queue.shared.produced = puts [] := ⟨Custody.start_invariant, rfl⟩
  exact (exec_trace kept fresh run).2

omit [DecidableEq ι] in
theorem shm_acknowledged [Fintype ι] {s : Server ι} {i : ι} {past : List Event} (follows : Follows i s past) :
    Acknowledged past := by
  obtain ⟨earlier, last, -, all, -⟩ := follows.history
  refine ⟨kept (earlier ++ last), ?_⟩
  rw [← served_deeds, ← all, deeds, deeds, List.filter_append]
  exact List.prefix_append ..

end

/-- A line goes through a session in MODE_MQ. -/
def mqSession : List (Move Unit) :=
  [.session () .next, .session () (.read (roleName .producer ++ [10])), .session () (.read (ascii ['a', '\n'])),
    .session () (.call (.produce (ascii ['a']))), .session () (.call .go), .session () (.call .go),
    .session () .next]

theorem mqSession_history :
    history .mq () mqSession = some [.read (ascii ['a', '\n']), .called (ascii ['a']), .ok] := by decide

theorem mqSession_unput : ¬ Acknowledged [.read (ascii ['a', '\n']), .called (ascii ['a']), .ok] := by
  rintro ⟨items, whole⟩
  cases items with
  | nil => simp [deeds] at whole
  | cons item rest => simp [deeds] at whole

/-- In a mode, an Ok is written in every run only after its item was put exactly once into
    the queue that `consumer` reads, exactly when the mode is MODE_SHM. -/
theorem acknowledged_iff (mode : Mode) :
    (∀ (ι : Type) [DecidableEq ι] [Fintype ι] (i : ι) (moves : List (Move ι)) (past : List Event),
      history mode i moves = some past → Acknowledged past) ↔ mode = .shm := by
  constructor
  · intro always
    cases mode with
    | shm => rfl
    | mq => exact absurd (always Unit () mqSession _ mqSession_history) mqSession_unput
  · rintro rfl ι _ _ i moves past known
    obtain ⟨t, run, rfl⟩ := Option.map_eq_some_iff.mp known
    exact shm_acknowledged (exec_trace (fun _ _ _ _ => step_follows) (start_follows i) run)

theorem unput_acknowledged :
    ¬ ∀ (mode : Mode) (ι : Type) [DecidableEq ι] [Fintype ι] (i : ι) (moves : List (Move ι)) (past : List Event),
      history mode i moves = some past → Acknowledged past :=
  fun always => mqSession_unput (always .mq Unit () mqSession _ mqSession_history)

end OsyProg.QueueModes
