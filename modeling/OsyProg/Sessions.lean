import OsyProg.ShmQueue

/-!
The sessions of `DU05_test/socket_srv.cpp` in MODE_SHM: `handle_client` with
`run_producer_client` and `run_consumer_client`, one statement a step, each in its
own process over the queue of `OsyProg.ShmQueue`. What a client sends is any bytes,
and it may close its socket at any moment; then what is written to it is lost and a
read returns 0. Items are told apart by their number in the order of production, so
that each can be followed from its acknowledgement to the socket it is written to.
-/
namespace OsyProg.Sessions
open OsyProg.Bytes OsyProg.Interleaving OsyProg.Runs OsyProg.ShmQueue

inductive Role
  | producer | consumer
  deriving DecidableEq, Repr

/-- `MAX_PRODUCERS` and `MAX_CONSUMERS` -/
def maxClients : Role → ℕ
  | .producer => 2
  | .consumer => 3

def roleName : Role → Bytes
  | .producer => ascii ['p', 'r', 'o', 'd', 'u', 'c', 'e', 'r']
  | .consumer => ascii ['c', 'o', 'n', 's', 'u', 'm', 'e', 'r']

/-- The statement of a session that comes next, with the string it has at hand. -/
inductive SessionPc
  | welcome                                     -- write(sock, "Task?\n", 6)
  | readTask                                    -- read(sock, buf, sizeof(buf) - 1)
  | lockIn (role : Role)                        -- sem_wait(mutex)
  | limit (role : Role)                         -- if (clients >= MAX) ... clients++
  | unlockRefused (role : Role)                 -- sem_post(mutex)
  | refuse (role : Role)                        -- write(sock, "Too many ...\n", 20)
  | unlockIn (role : Role)                      -- sem_post(mutex)
  | readItem                                    -- read(sock, item, sizeof(item) - 1)
  | produce (item : Bytes)                      -- producer(item)
  | producing                                   -- inside producer
  | ack                                         -- write(sock, "Ok\n", 3)
  | consume                                     -- consumer(item)
  | consuming                                   -- inside consumer
  | send (item : Bytes)                         -- write(sock, sendbuf, strlen(sendbuf))
  | readAck                                     -- read(sock, ack, sizeof(ack) - 1)
  | sendTimeout                                 -- write(sock, "Timeout\n", 8)
  | sendError                                   -- write(sock, "Error\n", 6)
  | unknown                                     -- write(sock, "Unknown task\n", 13)
  | lockOut (role : Option Role)                -- sem_wait(mutex)
  | uncount (role : Option Role)                -- if (clients > 0) clients--
  | unlockOut                                   -- sem_post(mutex)
  | close                                       -- close(sock)
  | closed
  deriving DecidableEq

/-- A write of an item to the socket of a session, and whether the client was connected. -/
structure Write (ι : Type) where
  session : ι
  number : ℕ
  item : Bytes
  connected : Bool

/-- The queue, used by the sessions and by `main`, the sessions and their clients,
    and the counters of clients. The last four fields are not in the code: the number
    of the item each session has copied in and not acknowledged, or copied out and not
    written, the numbers acknowledged, and the items written. -/
structure Server (ι : Type) where
  queue : Queue (Option ι)
  session : ι → SessionPc
  connected : ι → Bool
  clients : Role → ℕ
  made : ι → Option ℕ
  taken : ι → Option ℕ
  acked : List ℕ
  writes : List (Write ι)

/-- A session takes a statement outside the queue or one inside it, or reads what
    its client sends; a client closes its socket. -/
inductive Act
  | next
  | call (c : Choice)
  | read (message : Bytes)
  | disconnect
  deriving DecidableEq

/-- A step of a session or its client, or a command of `main`. -/
inductive Move (ι : Type)
  | session (i : ι) (act : Act)
  | main (c : Choice)

/-- The string that `item[r] = 0; item[strcspn(item, "\r\n")] = 0` leaves of what was read. -/
def line (message : Bytes) : Bytes := message.takeWhile fun b => b ≠ 0 ∧ b ≠ 13 ∧ b ≠ 10

/-- `snprintf(sendbuf, sizeof(sendbuf), "%s\n", item)` -/
def withNewline (item : Bytes) : Bytes := (item ++ [10]).take (MAX_STR - 1)

/-- What the next statement writes to the socket, when it is a write. The two texts
    of 19 bytes are written with their zero. -/
def message : SessionPc → Option Bytes
  | .welcome => some (ascii ['T', 'a', 's', 'k', '?', '\n'])
  | .refuse .producer =>
    some (ascii ['T', 'o', 'o', ' ', 'm', 'a', 'n', 'y', ' ', 'p', 'r', 'o', 'd', 'u', 'c', 'e', 'r', 's', '\n'] ++ [0])
  | .refuse .consumer =>
    some (ascii ['T', 'o', 'o', ' ', 'm', 'a', 'n', 'y', ' ', 'c', 'o', 'n', 's', 'u', 'm', 'e', 'r', 's', '\n'] ++ [0])
  | .ack => some (ascii ['O', 'k', '\n'])
  | .send item => some (withNewline item)
  | .sendTimeout => some (ascii ['T', 'i', 'm', 'e', 'o', 'u', 't', '\n'])
  | .sendError => some (ascii ['E', 'r', 'r', 'o', 'r', '\n'])
  | .unknown => some (ascii ['U', 'n', 'k', 'n', 'o', 'w', 'n', ' ', 't', 'a', 's', 'k', '\n'])
  | _ => none

def afterWrite : SessionPc → SessionPc
  | .welcome => .readTask
  | .refuse _ => .close
  | .ack => .readItem
  | .send _ => .readAck
  | .sendTimeout | .sendError => .lockOut (some .consumer)
  | .unknown => .lockOut none
  | p => p

/-- A read that returns the bytes given, none of them when it returns 0. -/
def afterRead (bytes : Bytes) : SessionPc → Option SessionPc
  | .readTask =>
    if bytes = [] then some .close
    else if line bytes = roleName .producer then some (.lockIn .producer)
    else if line bytes = roleName .consumer then some (.lockIn .consumer)
    else some .unknown
  | .readItem =>
    if bytes = [] then some (.lockOut (some .producer))
    else if line bytes = [] then some .readItem
    else some (.produce (line bytes))
  | .readAck => if bytes = [] then some (.lockOut (some .consumer)) else some .consume
  | _ => none

/-- The bytes a read asks for. -/
def readSize : SessionPc → ℕ
  | .readItem => MAX_STR - 1
  | _ => 255

/-- How a session goes on after the result of `consumer`. -/
def afterConsumer (result : ℤ) (item : Bytes) : SessionPc :=
  if result = -1 then .sendTimeout
  else if result ≠ 0 then .sendError
  else .send item

/-- A statement inside the queue, which takes the process from one of its points to another. -/
def afterCall (c : Choice) (before after : Pc) : SessionPc → Option SessionPc
  | .lockIn role => if c = .lock then some (.limit role) else none
  | .unlockRefused role => some (.refuse role)
  | .unlockIn .producer => some .readItem
  | .unlockIn .consumer => some .consume
  | .produce item => if c = .produce item then some .producing else none
  | .producing => if after = .idle then some .ack else some .producing
  | .consume => if c = .consume then some .consuming else none
  | .consuming =>
    match before with
    | .returned result item => some (afterConsumer result item)
    | _ => some .consuming
  | .lockOut role => if c = .lock then some (.uncount role) else none
  | .unlockOut => some .close
  | _ => none

section
variable {ι : Type} [DecidableEq ι]

/-- A write of session `i`; `p` is the point it is at. -/
def write (s : Server ι) (i : ι) (p : SessionPc) : Server ι :=
  let s := { s with session := Function.update s.session i (afterWrite p) }
  match p with
  | .ack => { s with made := Function.update s.made i none, acked := s.acked ++ (s.made i).toList }
  | .send item =>
    let written := (s.taken i).toList.map fun k =>
      { session := i, number := k, item, connected := s.connected i : Write ι }
    { s with taken := Function.update s.taken i none, writes := s.writes ++ written }
  | _ => s

/-- A statement outside the queue that is no read. -/
def onNext (s : Server ι) (i : ι) : Option (Server ι) :=
  let goto (p : SessionPc) : Server ι := { s with session := Function.update s.session i p }
  match s.session i with
  | .limit role =>
    if maxClients role ≤ s.clients role then some (goto (.unlockRefused role))
    else some { goto (.unlockIn role) with clients := Function.update s.clients role (s.clients role + 1) }
  | .uncount none => some (goto .unlockOut)
  | .uncount (some role) =>
    some { goto .unlockOut with clients := Function.update s.clients role (s.clients role - 1) }
  | .close => some (goto .closed)
  | p => if (message p).isSome then some (write s i p) else none

/-- An item is numbered when it is copied in, and again when it is copied out. -/
def madeAfter (s : Server ι) (i : ι) : ι → Option ℕ :=
  if CopiesIn (s.queue.pc (some i)) then Function.update s.made i (some s.queue.shared.produced.length) else s.made

def takenAfter (s : Server ι) (i : ι) : ι → Option ℕ :=
  if s.queue.pc (some i) = .copyOut then Function.update s.taken i (some s.queue.shared.consumed.length) else s.taken

/-- A statement inside the queue. -/
def onCall (s : Server ι) (i : ι) (c : Choice) : Option (Server ι) := do
  let q ← ShmQueue.step s.queue (some i, c)
  let p ← afterCall c (s.queue.pc (some i)) (q.pc (some i)) (s.session i)
  some { s with
    queue := q
    session := Function.update s.session i p
    made := madeAfter s i
    taken := takenAfter s i }

/-- The client of session `i` is connected when a read returns bytes, and has closed when it returns 0. -/
def onRead (s : Server ι) (i : ι) (bytes : Bytes) : Option (Server ι) :=
  if (bytes = [] ↔ s.connected i = false) ∧ bytes.length ≤ readSize (s.session i) then
    (afterRead bytes (s.session i)).map fun p => { s with session := Function.update s.session i p }
  else none

def step (s : Server ι) : Move ι → Option (Server ι)
  | .session i .next => onNext s i
  | .session i (.call c) => onCall s i c
  | .session i (.read bytes) => onRead s i bytes
  | .session i .disconnect =>
    if s.connected i = true then some { s with connected := Function.update s.connected i false } else none
  | .main c =>
    if c = .pause ∨ c = .resume then
      (ShmQueue.step s.queue (none, c)).map fun q => { s with queue := q }
    else none

/-- A fresh server; every client is connected. -/
def start (ι : Type) : Server ι :=
  { queue := ShmQueue.start (Option ι), session := fun _ => .welcome, connected := fun _ => true,
    clients := fun _ => 0, made := fun _ => none, taken := fun _ => none, acked := [], writes := [] }

end

/-! ### What a step is -/

/-- Where a session is with respect to the queue. -/
inductive Place
  | outside | holding | inProducer | inConsumer
  deriving DecidableEq

def place : SessionPc → Place
  | .limit _ | .unlockRefused _ | .unlockIn _ | .uncount _ | .unlockOut => .holding
  | .producing => .inProducer
  | .consuming => .inConsumer
  | _ => .outside

def InProducer : Pc → Prop
  | .waitEmpty _ | .waitMutex _ | .countIn _ | .format _ | .copyIn _ => True
  | .advanceTail | .addItem | .postMutexIn | .postFull => True
  | _ => False

def InConsumer : Pc → Prop
  | .waitPause | .postPause | .clock | .timedWait | .waitMutexOut | .copyOut => True
  | .advanceHead _ | .dropItem _ | .countOut _ | .postMutexOut _ | .postEmpty _ | .returned _ _ => True
  | _ => False

/-- The process is at a point of the queue that fits its place. -/
def At : Place → Pc → Prop
  | .outside, p => p = .idle
  | .holding, p => p = .holding
  | .inProducer, p => InProducer p
  | .inConsumer, p => InConsumer p

/-- A session that takes no further item once its client has closed. -/
def Finished : SessionPc → Prop
  | .readAck | .lockOut _ | .uncount _ | .unlockOut | .close | .closed => True
  | _ => False

/-- The item of a session that has copied one out and not written it. -/
def atHand : SessionPc → Pc → Option Bytes
  | .send item, _ => some item
  | .consuming, .advanceHead item | .consuming, .dropItem item | .consuming, .countOut item
  | .consuming, .postMutexOut item | .consuming, .postEmpty item => some item
  | .consuming, .returned result item => if result = 0 then some item else none
  | _, _ => none

/-- A session has copied an item in and not acknowledged it. -/
def Unacked : SessionPc → Pc → Prop
  | .ack, _ => True
  | .producing, .advanceTail | .producing, .addItem | .producing, .postMutexIn | .producing, .postFull => True
  | _, _ => False

/-- A step of session `i` that is no write, and outside the queue. -/
def Quiet (connected : Bool) (p p' : SessionPc) : Prop :=
  place p' = place p ∧ (place p = .outside ∨ place p = .holding) ∧
    (∀ q, atHand p q = none ∧ atHand p' q = none ∧ ¬ Unacked p' q) ∧
    (connected = false → Finished p → Finished p')

theorem afterRead_quiet {connected : Bool} {bytes : Bytes} {p p' : SessionPc}
    (closed : bytes = [] ↔ connected = false) (reads : afterRead bytes p = some p') : Quiet connected p p' := by
  have plain : ∀ p p' : SessionPc, place p = .outside → place p' = .outside →
      (∀ q, atHand p q = none ∧ atHand p' q = none ∧ ¬ Unacked p' q) →
      (connected = false → Finished p → Finished p') → Quiet connected p p' :=
    fun p p' before after items finished => ⟨after.trans before.symm, .inl before, items, finished⟩
  cases p with
  | readTask =>
    simp only [afterRead] at reads
    split_ifs at reads <;> cases reads <;>
      exact plain _ _ rfl rfl (fun q => ⟨rfl, rfl, id⟩) fun _ finished => finished.elim
  | readItem =>
    simp only [afterRead] at reads
    split_ifs at reads <;> cases reads <;>
      exact plain _ _ rfl rfl (fun q => ⟨rfl, rfl, id⟩) fun _ finished => finished.elim
  | readAck =>
    simp only [afterRead] at reads
    split_ifs at reads with empty
    · cases reads
      exact plain _ _ rfl rfl (fun q => ⟨rfl, rfl, id⟩) fun _ _ => trivial
    · cases reads
      exact plain _ _ rfl rfl (fun q => ⟨rfl, rfl, id⟩) fun gone _ => absurd (closed.mpr gone) empty
  | _ => cases reads

section
variable {ι : Type} [DecidableEq ι]

theorem madeAfter_other {s : Server ι} {i j : ι} (other : j ≠ i) : madeAfter s i j = s.made j := by
  unfold madeAfter
  split_ifs
  · exact Function.update_of_ne other ..
  · rfl

theorem takenAfter_other {s : Server ι} {i j : ι} (other : j ≠ i) : takenAfter s i j = s.taken j := by
  unfold takenAfter
  split_ifs
  · exact Function.update_of_ne other ..
  · rfl

theorem read_cases {s t : Server ι} {i : ι} {bytes : Bytes} (taken : onRead s i bytes = some t) :
    (bytes = [] ↔ s.connected i = false) ∧ ∃ p, afterRead bytes (s.session i) = some p ∧
      t = { s with session := Function.update s.session i p } := by
  obtain ⟨⟨closed, -⟩, moved⟩ := Option.ite_none_right_eq_some.mp taken
  obtain ⟨p, reads, rfl⟩ := Option.map_eq_some_iff.mp moved
  exact ⟨closed, p, reads, rfl⟩

/-- All that a step does: a statement in the queue, a write, another step of a session
    on its own, a client that closes, or a command of `main`. -/
theorem step_cases {s t : Server ι} {move : Move ι} (taken : step s move = some t) :
    (∃ i c q p, move = .session i (.call c) ∧ ShmQueue.step s.queue (some i, c) = some q ∧
        afterCall c (s.queue.pc (some i)) (q.pc (some i)) (s.session i) = some p ∧
        t = { s with
          queue := q
          session := Function.update s.session i p
          made := madeAfter s i
          taken := takenAfter s i }) ∨
      (∃ i, move = .session i .next ∧ (message (s.session i)).isSome ∧ t = write s i (s.session i)) ∨
      (∃ i p clients, Quiet (s.connected i) (s.session i) p ∧
        t = { s with session := Function.update s.session i p, clients }) ∨
      (∃ i, s.connected i = true ∧ t = { s with connected := Function.update s.connected i false }) ∨
      (∃ c q, (c = .pause ∨ c = .resume) ∧ ShmQueue.step s.queue (none, c) = some q ∧ t = { s with queue := q }) := by
  cases move with
  | main c =>
    simp only [step] at taken
    split_ifs at taken with command
    obtain ⟨q, moved, rfl⟩ := Option.map_eq_some_iff.mp taken
    exact .inr (.inr (.inr (.inr ⟨c, q, command, moved, rfl⟩)))
  | session i act =>
    cases act with
    | disconnect =>
      simp only [step] at taken
      split_ifs at taken with open'
      exact .inr (.inr (.inr (.inl ⟨i, open', (Option.some.inj taken).symm⟩)))
    | read bytes =>
      obtain ⟨closed, p, reads, rfl⟩ := read_cases taken
      exact .inr (.inr (.inl ⟨i, p, s.clients, afterRead_quiet closed reads, rfl⟩))
    | call c =>
      obtain ⟨q, moved, rest⟩ := Option.bind_eq_some_iff.mp taken
      obtain ⟨p, after, rest⟩ := Option.bind_eq_some_iff.mp rest
      exact .inl ⟨i, c, q, p, rfl, moved, after, (Option.some.inj rest).symm⟩
    | next =>
      have quiet : ∀ p p' : SessionPc, place p' = place p → (place p = .outside ∨ place p = .holding) →
          (∀ q, atHand p q = none ∧ atHand p' q = none ∧ ¬ Unacked p' q) → (Finished p → Finished p') →
          Quiet (s.connected i) p p' :=
        fun p p' same outside items finished => ⟨same, outside, items, fun _ => finished⟩
      simp only [step, onNext] at taken
      split at taken
      · next role here =>
        split_ifs at taken
        · refine .inr (.inr (.inl ⟨i, .unlockRefused role, s.clients, ?_, (Option.some.inj taken).symm⟩))
          rw [here]
          exact quiet _ _ rfl (.inr rfl) (fun q => ⟨rfl, rfl, id⟩) fun finished => finished.elim
        · refine .inr (.inr (.inl ⟨i, .unlockIn role, _, ?_, (Option.some.inj taken).symm⟩))
          rw [here]
          exact quiet _ _ rfl (.inr rfl) (fun q => ⟨rfl, rfl, id⟩) fun finished => finished.elim
      · next here =>
        refine .inr (.inr (.inl ⟨i, .unlockOut, s.clients, ?_, (Option.some.inj taken).symm⟩))
        rw [here]
        exact quiet _ _ rfl (.inr rfl) (fun q => ⟨rfl, rfl, id⟩) fun _ => trivial
      · next role here =>
        refine .inr (.inr (.inl ⟨i, .unlockOut, _, ?_, (Option.some.inj taken).symm⟩))
        rw [here]
        exact quiet _ _ rfl (.inr rfl) (fun q => ⟨rfl, rfl, id⟩) fun _ => trivial
      · next here =>
        refine .inr (.inr (.inl ⟨i, .closed, s.clients, ?_, (Option.some.inj taken).symm⟩))
        rw [here]
        exact quiet _ _ rfl (.inl rfl) (fun q => ⟨rfl, rfl, id⟩) fun _ => trivial
      · split_ifs at taken with writes
        exact .inr (.inl ⟨i, rfl, writes, (Option.some.inj taken).symm⟩)

/-- A command of `main` moves no process and no item. -/
theorem command_spec {q t : Queue (Option ι)} {c : Choice} (command : c = .pause ∨ c = .resume)
    (taken : ShmQueue.step q (none, c) = some t) :
    t.pc = q.pc ∧ t.shared.produced = q.shared.produced ∧ t.shared.consumed = q.shared.consumed := by
  obtain ⟨shared, p, own, rfl⟩ := Interleaving.step_cases taken
  have idle : q.pc none = .idle ∧ p = .idle ∧ shared.produced = q.shared.produced ∧
      shared.consumed = q.shared.consumed := by
    generalize q.pc none = now at own
    cases now with
    | idle =>
      rcases command with rfl | rfl
      · obtain ⟨-, ⟨⟩⟩ := Option.ite_none_right_eq_some.mp own
        exact ⟨rfl, rfl, rfl, rfl⟩
      · cases own
        exact ⟨rfl, rfl, rfl, rfl⟩
    | _ => rcases command with rfl | rfl <;> cases own
  obtain ⟨before, after, produced, consumed⟩ := idle
  refine ⟨?_, produced, consumed⟩
  rw [after, ← before]
  exact Function.update_eq_self ..

/-- A statement of `producer` leads to the next one, or to its end. -/
theorem producer_next {sh sh' : Shared} {q q' : Pc} {c : Choice} (own : procStep sh q c = some (sh', q'))
    (inside : InProducer q) :
    q' = .idle ∧ q = .postFull ∨
      InProducer q' ∧ (Unacked .producing q' → Unacked .producing q ∨ CopiesIn q) := by
  unfold procStep at own
  split at own
  all_goals first | exact inside.elim | cases own | obtain ⟨positive, ⟨⟩⟩ := Option.ite_none_right_eq_some.mp own
  all_goals first
    | exact .inl ⟨rfl, rfl⟩
    | exact .inr ⟨trivial, fun later => later.elim⟩
    | exact .inr ⟨trivial, fun _ => .inl trivial⟩
    | exact .inr ⟨trivial, fun _ => .inr trivial⟩

/-- A statement of `consumer` leads to the next one, with the same item at hand; the
    return from it ends it. -/
theorem consumer_next {sh sh' : Shared} {q q' : Pc} {c : Choice} (own : procStep sh q c = some (sh', q'))
    (inside : InConsumer q) :
    (∃ result item, q = .returned result item ∧ q' = .idle) ∨
      (∀ result item, q ≠ .returned result item) ∧ InConsumer q' ∧
        (q ≠ .copyOut → atHand .consuming q' = atHand .consuming q) := by
  unfold procStep at own
  split at own
  all_goals first | exact inside.elim | cases own | obtain ⟨positive, ⟨⟩⟩ := Option.ite_none_right_eq_some.mp own
  all_goals first
    | exact .inl ⟨_, _, rfl, rfl⟩
    | exact .inr ⟨fun _ _ => Pc.noConfusion, trivial, fun _ => rfl⟩
    | exact .inr ⟨fun _ _ => Pc.noConfusion, trivial, fun other => absurd rfl other⟩

/-- What a statement in the queue does to a session: it takes it to a point that fits its next place, and keeps
    the item at hand, but for the two statements that copy an item. -/
structure CallSpec (q q' : Pc) (p p' : SessionPc) : Prop where
  fits : At (place p') q'
  items : q ≠ .copyOut → atHand p' q' = atHand p q
  unacked : Unacked p' q' → Unacked p q ∨ CopiesIn q
  copies : q = .copyOut → p = .consuming ∧ p' = .consuming
  finished : Finished p → Finished p'

theorem callSpec_plain {q q' : Pc} {p p' : SessionPc} (fits : At (place p') q') (items : atHand p' q' = atHand p q)
    (unacked : ¬ Unacked p' q') (copies : q ≠ .copyOut) (finished : Finished p → Finished p') : CallSpec q q' p p' :=
  ⟨fits, fun _ => items, fun later => absurd later unacked, fun here => absurd here copies, finished⟩

theorem afterCall_spec {sh sh' : Shared} {q q' : Pc} {c : Choice} {p p' : SessionPc}
    (own : procStep sh q c = some (sh', q')) (after : afterCall c q q' p = some p') (fits : At (place p) q) :
    CallSpec q q' p p' := by
  cases p with
  | lockIn role =>
    obtain rfl : q = .idle := fits
    simp only [afterCall] at after
    split_ifs at after with lock
    cases after
    subst lock
    obtain ⟨-, ⟨⟩⟩ := Option.ite_none_right_eq_some.mp own
    exact callSpec_plain rfl rfl id (by simp) fun finished => finished.elim
  | lockOut role =>
    obtain rfl : q = .idle := fits
    simp only [afterCall] at after
    split_ifs at after with lock
    cases after
    subst lock
    obtain ⟨-, ⟨⟩⟩ := Option.ite_none_right_eq_some.mp own
    exact callSpec_plain rfl rfl id (by simp) fun _ => trivial
  | unlockRefused role =>
    obtain rfl : q = .holding := fits
    cases after
    cases c <;> cases own
    exact callSpec_plain rfl rfl id (by simp) fun finished => finished.elim
  | unlockIn role =>
    obtain rfl : q = .holding := fits
    cases c <;> cases own
    cases role <;> cases after <;> exact callSpec_plain rfl rfl id (by simp) fun finished => finished.elim
  | unlockOut =>
    obtain rfl : q = .holding := fits
    cases after
    cases c <;> cases own
    exact callSpec_plain rfl rfl id (by simp) fun _ => trivial
  | produce item =>
    obtain rfl : q = .idle := fits
    simp only [afterCall] at after
    split_ifs at after with called
    cases after
    subst called
    cases own
    exact callSpec_plain trivial rfl id (by simp) fun finished => finished.elim
  | consume =>
    obtain rfl : q = .idle := fits
    simp only [afterCall] at after
    split_ifs at after with called
    cases after
    subst called
    cases own
    exact callSpec_plain trivial rfl id (by simp) fun finished => finished.elim
  | producing =>
    have notOut : q ≠ .copyOut := by
      intro here
      subst here
      exact fits
    rcases producer_next own fits with ⟨rfl, rfl⟩ | ⟨inside, unacked⟩
    · cases after
      exact ⟨rfl, fun _ => rfl, fun _ => .inl trivial, fun here => absurd here notOut, fun h => h.elim⟩
    · have stays : q' ≠ .idle := by
        intro idle
        subst idle
        exact inside
      simp only [afterCall, if_neg stays] at after
      cases after
      refine ⟨inside, fun _ => rfl, unacked, fun here => absurd here notOut, fun h => h.elim⟩
  | consuming =>
    rcases consumer_next own fits with ⟨result, item, rfl, rfl⟩ | ⟨goesOn, inside, items⟩
    · cases after
      unfold afterConsumer
      split_ifs with timeout failed
      · subst timeout
        exact callSpec_plain rfl rfl id (by simp) fun finished => finished.elim
      · exact callSpec_plain rfl (by simp [atHand, failed]) id (by simp) fun finished => finished.elim
      · exact callSpec_plain rfl (by simp [atHand, not_not.mp failed]) id (by simp) fun finished => finished.elim
    · obtain rfl : p' = .consuming := by
        cases q <;> first | exact (Option.some.inj after).symm | exact absurd rfl (goesOn _ _)
      exact ⟨inside, items, fun later => later.elim, fun _ => ⟨rfl, rfl⟩, fun h => h.elim⟩
  | _ => cases after

end

end OsyProg.Sessions
