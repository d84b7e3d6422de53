import OsyProg.Clients
import OsyProg.Custody
import OsyProg.ServedRole

/-!
A file sent through the server of `OsyProg.Sessions` by two clients of
`DU05_test/socket_cl.cpp`, one started with an existing file and one with the name
of a new one, one statement a step. Each write is one message on the socket of its
client, which may end at any moment. While `consumer` does not time out or fail, the
bytes of the new file are those of the items copied out, in their order
(`file_prefix`). After a timeout the client takes `Timeout` for an item
(`timeout_in_file`).
-/
namespace OsyProg.FileTransfer
open OsyProg.Bytes OsyProg.Clients OsyProg.Runs OsyProg.ServedRole OsyProg.ShmQueue OsyProg.Sessions

instance : Fintype Role := ⟨{.producer, .consumer}, fun r => by cases r <;> decide⟩

/-! ### The clients and the server -/

/-- The server and its two clients, each named by its role, as is its session. -/
structure Transfer where
  server : Server Role
  client : Role → Client

/-- A statement of a client; a client that ends, killed or because a read or a write of
    it failed; a statement of a session outside the queue, inside it, or a read; the end
    of a client as its session sees it; and a command of `main`. -/
inductive Turn
  | client (r : Role)
  | ends (r : Role)
  | next (r : Role)
  | call (r : Role) (c : Choice)
  | read (r : Role)
  | fin (r : Role)
  | main (c : Choice)

/-- A read of a session: what its client has sent, and once it has closed, nothing. -/
def onRead (s : Transfer) (r : Role) : Option Transfer :=
  if s.server.connected r = true then do
    let m ← received (readSize (s.server.session r)) (s.client r).toServer
    let server ← Sessions.step s.server (.session r (.read m.1))
    some { server, client := Function.update s.client r { s.client r with toServer := m.2 } }
  else (Sessions.step s.server (.session r (.read []))).map fun server => { s with server }

def step (s : Transfer) : Turn → Option Transfer
  | .client r => (Client.step r (s.client r)).map fun c => { s with client := Function.update s.client r c }
  | .ends r => some { s with client := Function.update s.client r { s.client r with pc := .ended } }
  | .next r => (Sessions.step s.server (.session r .next)).map fun server =>
      let toClient := (s.client r).toClient ++ (message (s.server.session r)).toList
      { server, client := Function.update s.client r { s.client r with toClient } }
  | .call r c => (Sessions.step s.server (.session r (.call c))).map fun server => { s with server }
  | .read r => onRead s r
  | .fin r =>
    if (s.client r).pc = .ended then
      (Sessions.step s.server (.session r .disconnect)).map fun server => { s with server }
    else none
  | .main c => (Sessions.step s.server (.main c)).map fun server => { s with server }

/-- A fresh server and both clients just connected; `file` is the input file of the producer. -/
def start (file : Bytes) : Transfer :=
  { server := Sessions.start Role
    client := fun r => { pc := .readTask, toServer := [], toClient := [], output := []
                         input := if r = .producer then file else [] } }

/-- `consumer` neither times out nor fails in the session of a consumer that has not ended. -/
def Served (s : Transfer) : Turn → Prop
  | .call .consumer c => (s.client .consumer).pc = .ended ∨ c ≠ .timeout ∧ c ≠ .fail
  | _ => True

instance (s : Transfer) : DecidablePred (Served s)
  | .call .consumer c => inferInstanceAs (Decidable ((s.client .consumer).pc = .ended ∨ c ≠ .timeout ∧ c ≠ .fail))
  | .call .producer _ | .client _ | .ends _ | .next _ | .read _ | .fin _ | .main _ => isTrue trivial

def file (s : Transfer) : Bytes := (s.client .consumer).output

/-! ### What is on its way -/

/-- The line that a producer has read and not sent. -/
def lineAt : ClientPc → List Bytes
  | .writeLine item => [item]
  | _ => []

/-- The bytes that a consumer has read and not put into its file. -/
def fetched : ClientPc → Bytes
  | .append bytes => bytes
  | _ => []

/-- The bytes on their way to a consumer after the first message. -/
def arriving (c : Client) : Bytes := if c.pc = .readTask then [] else c.toClient.flatten

/-- A client that has sent its role. -/
def Working : Role → ClientPc → Prop
  | .producer, .readLine | .producer, .writeLine _ | .producer, .readAck => True
  | .consumer, .readItem | .consumer, .append _ | .consumer, .writeOk => True
  | _, _ => False

/-- The first messages: `Task?`, then the role. -/
inductive Handshake (r : Role) : SessionPc → ClientPc → List Bytes → List Bytes → Prop
  | welcome {c : ClientPc} (early : c = .readTask ∨ c = .ended) : Handshake r .welcome c [] []
  | task {m : Bytes} (first : message .welcome = some m) : Handshake r .readTask .readTask [] [m]
  | role : Handshake r .readTask .writeRole [] []
  | named {c : ClientPc} {data : List Bytes} (working : Working r c) :
    Handshake r .readTask c (roleMessage r :: data) []
  | left {toServer toClient : List Bytes} (first : toServer = [] ∨ ∃ data, toServer = roleMessage r :: data) :
    Handshake r .readTask .ended toServer toClient
  | served {p : SessionPc} {c : ClientPc} {toServer toClient : List Bytes} (serves : Serves r p)
    (working : Working r c ∨ c = .ended) : Handshake r p c toServer toClient

/-- What a role has to do with: the items copied in for the producer and those copied
    out for the consumer, and its session and client. -/
structure View where
  history : List Bytes
  connected : Bool
  clients : ℕ
  session : SessionPc
  pc : Pc
  client : Client

def history : Role → Shared → List Bytes
  | .producer, sh => sh.produced
  | .consumer, sh => sh.consumed

def view (s : Transfer) (r : Role) : View :=
  { history := history r s.server.queue.shared
    connected := s.server.connected r
    clients := s.server.clients r
    session := s.server.session r
    pc := s.server.queue.pc (some r)
    client := s.client r }

/-- The lines of the file are those copied in, those on their way to the queue and,
    while the client runs, those it has not sent. -/
def ProducerSide (lines : List Bytes) (v : View) : Prop :=
  ∃ channel later, lines = v.history ++ pendingIn v.session v.pc ++ channel ++ later ∧
    (v.connected = true → unreadData v.session v.client.toServer = channel.map fun item => item ++ [10]) ∧
    (v.client.pc ≠ .ended → ∃ left, later = lineAt v.client.pc ++ left ∧ v.client.input = text left)

/-- The items copied out are in the output file and, while the client runs, on their way to it. -/
def ConsumerSide (v : View) : Prop :=
  v.client.output <+: text v.history ∧
    (v.client.pc ≠ .ended → ¬ Failing v.session v.pc ∧
      v.client.output ++ fetched v.client.pc ++ arriving v.client ++ text (atHand v.session v.pc).toList =
        text v.history)

/-- What holds of a role. -/
structure RoleOk (lines : List Bytes) (r : Role) (v : View) : Prop where
  open' : v.client.pc ≠ .ended → v.connected = true
  counted : Early v.session → v.clients = 0
  handshake : Handshake r v.session v.client.pc v.client.toServer v.client.toClient
  side : match r with
    | .producer => ProducerSide lines v
    | .consumer => ConsumerSide v

structure Invariant (lines : List Bytes) (s : Transfer) : Prop where
  custody : Custody.Invariant s.server
  roles : ∀ r, RoleOk lines r (view s r)

/-! ### The steps of a client -/

theorem working_step {r : Role} {c c' : Client} (working : Working r c.pc) (taken : Client.step r c = some c') :
    (Working r c'.pc ∨ c'.pc = .ended) ∧ (∃ more, c'.toServer = c.toServer ++ more) ∧
      (c.toClient = [] → c'.toClient = []) := by
  obtain ⟨pc, toServer, toClient, input, output⟩ := c
  cases pc with
  | readTask | writeRole | ended => cases r <;> exact working.elim
  | readLine =>
    cases r with
    | consumer => exact working.elim
    | producer =>
      simp only [Client.step] at taken
      split at taken
      · cases taken
        exact ⟨.inr rfl, ⟨[], by simp⟩, id⟩
      · cases taken
        refine ⟨.inl ?_, ⟨[], by simp⟩, id⟩
        show Working .producer (if _ then _ else _)
        split_ifs <;> trivial
  | writeLine item =>
    cases r with
    | consumer => exact working.elim
    | producer =>
      cases taken
      exact ⟨.inl trivial, ⟨_, rfl⟩, id⟩
  | readAck | readItem =>
    cases r with
    | consumer | producer =>
      first
      | exact working.elim
      | obtain ⟨m, reads, rfl⟩ := Option.map_eq_some_iff.mp taken
        refine ⟨.inl trivial, ⟨[], by simp⟩, ?_⟩
        rintro rfl
        cases reads
  | append bytes =>
    cases r with
    | producer => exact working.elim
    | consumer =>
      cases taken
      exact ⟨.inl trivial, ⟨[], by simp⟩, id⟩
  | writeOk =>
    cases r with
    | producer => exact working.elim
    | consumer =>
      cases taken
      exact ⟨.inl trivial, ⟨_, rfl⟩, id⟩

theorem client_handshake {r : Role} {p : SessionPc} {c c' : Client}
    (shakes : Handshake r p c.pc c.toServer c.toClient) (taken : Client.step r c = some c') :
    Handshake r p c'.pc c'.toServer c'.toClient := by
  have works := fun working : Working r c.pc => working_step working taken
  obtain ⟨pc, toServer, toClient, input, output⟩ := c
  cases shakes with
  | welcome early =>
    rcases early with rfl | rfl
    · cases taken
    · cases taken
  | task first =>
    cases first
    cases taken
    exact .role
  | role =>
    cases taken
    exact .named (by cases r <;> trivial)
  | named working =>
    obtain ⟨goesOn, ⟨more, toServer⟩, toClient⟩ := works working
    rw [toServer, toClient rfl]
    rcases goesOn with working' | ended
    · exact .named working'
    · rw [ended]
      exact .left (.inr ⟨_, rfl⟩)
  | left => cases taken
  | served serves working =>
    rcases working with working | rfl
    · exact .served serves (works working).1
    · cases taken

theorem handshake_writeRole {r : Role} {p : SessionPc} {toServer toClient : List Bytes}
    (shakes : Handshake r p .writeRole toServer toClient) : p = .readTask ∧ toServer = [] ∧ toClient = [] := by
  cases shakes with
  | welcome early => rcases early with early | early <;> cases early
  | role => exact ⟨rfl, rfl, rfl⟩
  | named working => cases r <;> exact working.elim
  | served serves working =>
    rcases working with working | ended
    · cases r <;> exact working.elim
    · cases ended

/-- After the first messages a client is at a statement of its role. -/
theorem handshake_working {r : Role} {p : SessionPc} {c : ClientPc} {toServer toClient : List Bytes}
    (shakes : Handshake r p c toServer toClient) (later : c ≠ .readTask ∧ c ≠ .writeRole ∧ c ≠ .ended) :
    Working r c := by
  obtain ⟨notTask, notRole, alive⟩ := later
  cases shakes with
  | welcome early => exact early.elim (fun h => absurd h notTask) fun h => absurd h alive
  | task => exact absurd rfl notTask
  | role => exact absurd rfl notRole
  | named working => exact working
  | left => exact absurd rfl alive
  | served serves working => exact working.resolve_right alive

/-- A message of a client that has sent its role is the last one its session will read. -/
theorem unreadData_append {r : Role} {p : SessionPc} {c : ClientPc} {toServer toClient more : List Bytes}
    (shakes : Handshake r p c toServer toClient) (working : Working r c) :
    unreadData p (toServer ++ more) = unreadData p toServer ++ more := by
  cases shakes with
  | welcome early =>
    rcases early with rfl | rfl
    · cases r <;> exact working.elim
    · cases r <;> exact working.elim
  | task | role | left => cases r <;> exact working.elim
  | named => rfl
  | served serves => rw [unreadData_served serves, unreadData_served serves]

theorem client_producer {lines : List Bytes} {v : View} {c : Client} (good : ∀ item ∈ lines, Line item)
    (ok : RoleOk lines .producer v) (taken : Client.step .producer v.client = some c) :
    ProducerSide lines { v with client := c } := by
  obtain ⟨channel, later, whole, unread, alive⟩ := ok.side
  have shakes := ok.handshake
  obtain ⟨history, connected, clients, p, q, ⟨pc, toServer, toClient, input, output⟩⟩ := v
  simp only at whole unread alive shakes taken
  cases pc with
  | readTask =>
    obtain ⟨m, -, rfl⟩ := Option.map_eq_some_iff.mp taken
    exact ⟨channel, later, whole, unread, fun _ => alive ClientPc.noConfusion⟩
  | writeRole =>
    cases taken
    refine ⟨channel, later, whole, ?_, fun _ => alive ClientPc.noConfusion⟩
    intro connected
    obtain ⟨rfl, rfl, -⟩ := handshake_writeRole shakes
    exact unread connected
  | readLine =>
    obtain ⟨left, same, rfl⟩ := alive ClientPc.noConfusion
    obtain rfl : later = left := same
    cases later with
    | nil =>
      cases taken
      exact ⟨channel, [], by simpa [lineAt] using whole, unread, fun alive => absurd rfl alive⟩
    | cons item left =>
      have line := good item (by simp [whole])
      simp only [Client.step, line.fgets_eq, line.line_eq, line.nonempty, if_false] at taken
      cases taken
      exact ⟨channel, item :: left, whole, unread, fun _ => ⟨left, rfl, rfl⟩⟩
  | writeLine item =>
    obtain ⟨left, rfl, rest⟩ := alive ClientPc.noConfusion
    cases taken
    have line := good item (by simp [whole, lineAt])
    refine ⟨channel ++ [item], left, by simpa [lineAt] using whole, ?_, fun _ => ⟨left, rfl, rest⟩⟩
    intro connected
    simp only [line.withNewline_eq, unreadData_append shakes trivial, unread connected, List.map_append, List.map_cons,
      List.map_nil]
  | readAck =>
    obtain ⟨m, -, rfl⟩ := Option.map_eq_some_iff.mp taken
    exact ⟨channel, later, whole, unread, fun _ => alive ClientPc.noConfusion⟩
  | readItem | append | writeOk =>
    exact (handshake_working shakes ⟨ClientPc.noConfusion, ClientPc.noConfusion, ClientPc.noConfusion⟩).elim
  | ended => cases taken

theorem client_consumer {lines : List Bytes} {v : View} {c : Client} (ok : RoleOk lines .consumer v)
    (taken : Client.step .consumer v.client = some c) : ConsumerSide { v with client := c } := by
  obtain ⟨inFile, alive⟩ := ok.side
  have shakes := ok.handshake
  obtain ⟨history, connected, clients, p, q, ⟨pc, toServer, toClient, input, output⟩⟩ := v
  simp only at inFile alive shakes taken
  cases pc with
  | readTask =>
    obtain ⟨unfailing, whole⟩ := alive ClientPc.noConfusion
    have after := client_handshake shakes taken
    obtain ⟨m, -, rfl⟩ := Option.map_eq_some_iff.mp taken
    have empty : m.2 = [] := (handshake_writeRole after).2.2
    refine ⟨inFile, fun _ => ⟨unfailing, ?_⟩⟩
    rw [← whole]
    simp [arriving, fetched, empty]
  | writeRole =>
    obtain ⟨unfailing, whole⟩ := alive ClientPc.noConfusion
    cases taken
    exact ⟨inFile, fun _ => ⟨unfailing, whole⟩⟩
  | readItem =>
    obtain ⟨unfailing, whole⟩ := alive ClientPc.noConfusion
    obtain ⟨⟨bytes, rest⟩, reads, rfl⟩ := Option.map_eq_some_iff.mp taken
    refine ⟨inFile, fun _ => ⟨unfailing, ?_⟩⟩
    rw [← whole]
    simp [fetched, arriving, ← received_flatten reads]
  | append bytes =>
    obtain ⟨unfailing, whole⟩ := alive ClientPc.noConfusion
    cases taken
    refine ⟨?_, fun _ => ⟨unfailing, ?_⟩⟩
    · exact ⟨_, (List.append_assoc ..).symm.trans whole⟩
    · rw [← whole]
      simp [fetched, arriving]
  | writeOk =>
    obtain ⟨unfailing, whole⟩ := alive ClientPc.noConfusion
    cases taken
    exact ⟨inFile, fun _ => ⟨unfailing, whole⟩⟩
  | readLine | writeLine | readAck =>
    exact (handshake_working shakes ⟨ClientPc.noConfusion, ClientPc.noConfusion, ClientPc.noConfusion⟩).elim
  | ended => cases taken

theorem client_ok {lines : List Bytes} {r : Role} {v : View} {c : Client} (good : ∀ item ∈ lines, Line item)
    (ok : RoleOk lines r v) (taken : Client.step r v.client = some c) : RoleOk lines r { v with client := c } := by
  refine ⟨fun _ => ok.open' fun ended => ?_, ok.counted, client_handshake ok.handshake taken, ?_⟩
  · simp only [Client.step, ended] at taken
    cases taken
  · cases r with
    | producer => exact client_producer good ok taken
    | consumer => exact client_consumer ok taken

/-- A client that ends takes nothing from what it has done. -/
theorem ends_ok {lines : List Bytes} {r : Role} {v : View} (ok : RoleOk lines r v) :
    RoleOk lines r { v with client := { v.client with pc := .ended } } := by
  refine ⟨fun alive => absurd rfl alive, ok.counted, ?_, ?_⟩
  · have shakes := ok.handshake
    generalize v.session = p, v.client.pc = c, v.client.toServer = toServer, v.client.toClient = toClient at shakes ⊢
    cases shakes with
    | welcome => exact .welcome (.inr rfl)
    | task | role => exact .left (.inl rfl)
    | named => exact .left (.inr ⟨_, rfl⟩)
    | left first => exact .left first
    | served serves => exact .served serves (.inr rfl)
  · cases r with
    | producer =>
      obtain ⟨channel, later, whole, unread, -⟩ := ok.side
      exact ⟨channel, later, whole, unread, fun alive => absurd rfl alive⟩
    | consumer => exact ⟨ok.side.1, fun alive => absurd rfl alive⟩

/-! ### The steps of a session outside the queue -/

/-- The view after a statement of the session. -/
def View.next (v : View) (p : SessionPc) (clients : ℕ) : View :=
  let toClient := v.client.toClient ++ (message v.session).toList
  { v with session := p, clients, client := { v.client with toClient } }

theorem next_consumer {lines : List Bytes} {v : View} {p : SessionPc} {clients clients' : Role → ℕ}
    (ok : RoleOk lines .consumer v) (line : ∀ item, atHand v.session v.pc = some item → Line item)
    (next : NextSpec clients v.session p clients') : ConsumerSide (v.next p (clients' .consumer)) := by
  obtain ⟨inFile, alive⟩ := ok.side
  have shakes := ok.handshake
  obtain ⟨history, connected, count, session, q, ⟨pc, toServer, toClient, input, output⟩⟩ := v
  simp only at inFile alive shakes line next
  refine ⟨inFile, ?_⟩
  intro running
  obtain ⟨unfailing, whole⟩ := alive running
  have quiet : ∀ p', ¬ Failing p' q → message session = none → atHand session q = none → atHand p' q = none →
      ¬ Failing p' q ∧ output ++ fetched pc ++ arriving ⟨pc, toServer, toClient ++ (message session).toList, input, output⟩ ++
        text (atHand p' q).toList = text history := by
    intro p' unfailing silent before after
    refine ⟨unfailing, ?_⟩
    rw [← whole, silent, before, after, Option.toList_none, List.append_nil]
  cases next with
  | writes some' =>
    cases session with
    | welcome =>
      cases shakes with
      | welcome early =>
        obtain rfl := early.resolve_right running
        exact ⟨id, whole⟩
      | served serves => exact serves.elim
    | send item =>
      cases shakes with
      | served serves working =>
        have task : pc ≠ .readTask := by
          rintro rfl
          exact working.elim id ClientPc.noConfusion
        refine ⟨id, ?_⟩
        show output ++ fetched pc ++ arriving ⟨pc, toServer, toClient ++ [withNewline item], input, output⟩ ++ [] =
          text history
        rw [← whole, (line item rfl).withNewline_eq]
        simp [arriving, task, text, atHand]
    | refuse role | unknown | ack =>
      cases shakes with
      | served serves => exact serves.elim
    | sendTimeout | sendError => exact absurd trivial unfailing
    | _ => cases some'
  | refuses => exact quiet _ id rfl rfl rfl
  | counts => exact quiet _ id rfl rfl rfl
  | leaves | uncounts | closes => exact absurd trivial unfailing

theorem next_ok {lines : List Bytes} {r : Role} {v : View} {p : SessionPc} {clients clients' : Role → ℕ}
    (ok : RoleOk lines r v) (line : ∀ item, atHand v.session v.pc = some item → Line item)
    (same : v.clients = clients r) (next : NextSpec clients v.session p clients') :
    RoleOk lines r (v.next p (clients' r)) := by
  refine ⟨ok.open', ?_, ?_, ?_⟩
  · intro early
    obtain ⟨welcome, rfl⟩ := next_early next early
    show clients' r = 0
    rw [← same]
    exact ok.counted (by rw [welcome]; trivial)
  · have shakes := ok.handshake
    have counted := ok.counted
    obtain ⟨history, connected, count, session, q, ⟨pc, toServer, toClient, input, output⟩⟩ := v
    subst same
    cases shakes with
    | welcome early =>
      cases next
      rcases early with rfl | rfl
      · exact .task rfl
      · exact .left (.inl rfl)
    | task | role | named | left =>
      cases next with
      | writes some' => cases some'
    | served serves working => exact .served (next_serves serves counted next) working
  · cases r with
    | producer =>
      obtain ⟨channel, later, whole, unread, alive⟩ := ok.side
      obtain ⟨pending, data⟩ := next_pending next v.pc v.client.toServer
      exact ⟨channel, later, pending.symm ▸ whole, fun connected => data.trans (unread connected), alive⟩
    | consumer => exact next_consumer ok line next

/-! ### The steps of a session inside the queue -/

/-- A session is in the queue only once it has read its role. -/
theorem serves_of_call {r : Role} {c : Choice} {q q' : Pc} {p p' : SessionPc} {pc : ClientPc}
    {toServer toClient : List Bytes} (shakes : Handshake r p pc toServer toClient)
    (after : afterCall c q q' p = some p') : Serves r p := by
  cases shakes with
  | served serves => exact serves
  | _ => cases after

theorem call_ok {lines : List Bytes} {r : Role} {v : View} {sh sh' : Shared} {c : Choice} {q : Pc} {p : SessionPc}
    (good : ∀ item ∈ lines, Line item) (ok : RoleOk lines r v) (own : procStep sh v.pc c = some (sh', q))
    (after : afterCall c v.pc q v.session = some p) (fits : At (place v.session) v.pc)
    (items : v.history = history r sh)
    (served : r = .consumer → v.client.pc = .ended ∨ c ≠ .timeout ∧ c ≠ .fail) :
    RoleOk lines r { v with history := history r sh', session := p, pc := q } := by
  have serves := serves_of_call ok.handshake after
  refine ⟨ok.open', fun early => ok.counted (call_early after early), ?_, ?_⟩
  · have shakes := ok.handshake
    refine .served (call_serves serves after) ?_
    generalize v.session = session, v.client.pc = pc, v.client.toServer = toServer, v.client.toClient = toClient
      at shakes after ⊢
    cases shakes with
    | served serves working => exact working
    | _ => cases after
  · cases r with
    | producer =>
      obtain ⟨channel, later, whole, unread, alive⟩ := ok.side
      have short : ∀ item ∈ pendingIn v.session v.pc, item.length ≤ MAX_STR - 1 := by
        intro item inside
        have line := good item (by simp [whole, inside])
        exact (List.sublist_append_left ..).length_le.trans line.short_newline
      have produced := call_produced own after fits short
      refine ⟨channel, later, ?_, ?_, alive⟩
      · show lines = sh'.produced ++ pendingIn p q ++ channel ++ later
        rw [produced, whole, items]
        rfl
      · intro connected
        rw [← unread connected, unreadData_served serves, unreadData_served (call_serves serves after)]
    | consumer =>
      obtain ⟨inFile, alive⟩ := ok.side
      obtain ⟨new, consumed, hand⟩ := call_consumed own after fits
      have more : text sh'.consumed = text v.history ++ text new := by
        rw [consumed, text_append, items]
        rfl
      refine ⟨?_, fun running => ⟨?_, ?_⟩⟩
      · show v.client.output <+: text sh'.consumed
        rw [more]
        exact inFile.trans (List.prefix_append ..)
      · exact call_unfailing own after ((served rfl).resolve_left running) (alive running).1
      · show v.client.output ++ fetched v.client.pc ++ arriving v.client ++ text (atHand p q).toList = text sh'.consumed
        rw [more, ← (alive running).2, hand, text_append]
        simp only [List.append_assoc]

/-! ### What a session reads -/

/-- The role that a client sends is the one its session reads. -/
theorem read_role (r : Role) : afterRead (roleMessage r) .readTask = some (.lockIn r) := by
  cases r <;> decide

theorem roleMessage_short (r : Role) : (roleMessage r).length ≤ readSize .readTask := by
  cases r <;> decide

/-- The first message that a session reads is the role of its client. -/
theorem read_handshake {r : Role} {p p' : SessionPc} {c : ClientPc} {toServer toClient rest : List Bytes} {bytes : Bytes}
    (shakes : Handshake r p c toServer toClient) (gets : received (readSize p) toServer = some (bytes, rest))
    (reads : afterRead bytes p = some p') :
    Handshake r p' c rest toClient ∧ (p = .readTask → p' = .lockIn r ∧ rest = toServer.tail) := by
  have first : ∀ data, received (readSize .readTask) (roleMessage r :: data) = some (bytes, rest) →
      afterRead bytes .readTask = some p' → p' = .lockIn r ∧ rest = data := by
    intro data gets reads
    rw [received_whole _ (roleMessage_short r)] at gets
    cases gets
    rw [read_role] at reads
    cases reads
    exact ⟨rfl, rfl⟩
  have serves : Serves r (.lockIn r) := by cases r <;> rfl
  cases shakes with
  | welcome => cases reads
  | task | role => cases gets
  | named working =>
    obtain ⟨rfl, rfl⟩ := first _ gets reads
    exact ⟨.served serves (.inl working), fun _ => ⟨rfl, rfl⟩⟩
  | left start =>
    rcases start with rfl | ⟨data, rfl⟩
    · cases gets
    · obtain ⟨rfl, rfl⟩ := first _ gets reads
      exact ⟨.served serves (.inr rfl), fun _ => ⟨rfl, rfl⟩⟩
  | served serves working =>
    refine ⟨.served (read_serves serves reads) working, ?_⟩
    rintro rfl
    cases r <;> exact serves.elim

theorem read_producer {lines : List Bytes} {v : View} {p : SessionPc} {bytes : Bytes} {rest : List Bytes}
    (good : ∀ item ∈ lines, Line item) (ok : RoleOk lines .producer v) (open' : v.connected = true)
    (gets : received (readSize v.session) v.client.toServer = some (bytes, rest))
    (reads : afterRead bytes v.session = some p) :
    ProducerSide lines { v with session := p, client := { v.client with toServer := rest } } := by
  obtain ⟨channel, later, whole, unread, alive⟩ := ok.side
  have data := unread open'
  have shakes := read_handshake ok.handshake gets reads
  have before := ok.handshake
  obtain ⟨history, connected, clients, session, q, ⟨pc, toServer, toClient, input, output⟩⟩ := v
  simp only at whole data alive shakes before gets reads
  cases session with
  | readTask =>
    obtain ⟨rfl, rfl⟩ := shakes.2 rfl
    exact ⟨channel, later, whole, fun _ => data, alive⟩
  | readItem =>
    obtain rfl : toServer = channel.map fun item => item ++ [10] := data
    cases channel with
    | nil => cases gets
    | cons item channel =>
      have line := good item (by simp [whole])
      rw [List.map_cons, readSize, received_whole _ line.short_newline] at gets
      cases gets
      have next : p = .produce item := by
        simpa [afterRead, line.line_eq, line.nonempty] using reads.symm
      subst next
      exact ⟨channel, later, by simpa [pendingIn] using whole, fun _ => rfl, alive⟩
  | readAck =>
    cases before with
    | served serves => exact serves.elim
  | _ => cases reads

theorem read_consumer {lines : List Bytes} {v : View} {p : SessionPc} {bytes : Bytes} {rest : List Bytes}
    (ok : RoleOk lines .consumer v) (some' : bytes ≠ [])
    (gets : received (readSize v.session) v.client.toServer = some (bytes, rest))
    (reads : afterRead bytes v.session = some p) :
    ConsumerSide { v with session := p, client := { v.client with toServer := rest } } := by
  obtain ⟨inFile, alive⟩ := ok.side
  have shakes := read_handshake ok.handshake gets reads
  have before := ok.handshake
  obtain ⟨history, connected, clients, session, q, ⟨pc, toServer, toClient, input, output⟩⟩ := v
  simp only at inFile alive shakes before gets reads
  cases session with
  | readTask =>
    obtain ⟨rfl, rfl⟩ := shakes.2 rfl
    exact ⟨inFile, fun running => ⟨id, (alive running).2⟩⟩
  | readAck =>
    simp only [afterRead, some', if_false] at reads
    cases reads
    exact ⟨inFile, fun running => ⟨id, (alive running).2⟩⟩
  | readItem =>
    cases before with
    | served serves => exact serves.elim
  | _ => cases reads

theorem read_ok {lines : List Bytes} {r : Role} {v : View} {p : SessionPc} {bytes : Bytes} {rest : List Bytes}
    (good : ∀ item ∈ lines, Line item) (ok : RoleOk lines r v) (open' : v.connected = true) (some' : bytes ≠ [])
    (gets : received (readSize v.session) v.client.toServer = some (bytes, rest))
    (reads : afterRead bytes v.session = some p) :
    RoleOk lines r { v with session := p, client := { v.client with toServer := rest } } := by
  refine ⟨ok.open', ?_, (read_handshake ok.handshake gets reads).1, ?_⟩
  · intro early
    apply ok.counted
    rw [read_early reads early]
    trivial
  · cases r with
    | producer => exact read_producer good ok open' gets reads
    | consumer => exact read_consumer ok some' gets reads

/-- A read that returns 0 ends the session, whose client has ended. -/
theorem readEnd_ok {lines : List Bytes} {r : Role} {v : View} {p : SessionPc} (ok : RoleOk lines r v)
    (closed : v.connected = false) (reads : afterRead [] v.session = some p) :
    RoleOk lines r { v with session := p } := by
  have ended : v.client.pc = .ended := by
    by_contra running
    rw [ok.open' running] at closed
    cases closed
  have empty : ∀ q, pendingIn v.session q = [] ∧ pendingIn p q = [] := by
    intro q
    generalize v.session = session at reads
    cases session <;> cases reads <;> exact ⟨rfl, rfl⟩
  refine ⟨ok.open', ?_, ?_, ?_⟩
  · intro early
    have task := read_early reads early
    rw [task] at reads
    cases reads
    exact early.elim
  · have shakes := ok.handshake
    show Handshake r p v.client.pc v.client.toServer v.client.toClient
    rw [ended] at shakes ⊢
    generalize v.session = session, v.client.toServer = toServer, v.client.toClient = toClient at shakes reads ⊢
    cases shakes with
    | welcome => cases reads
    | named | left =>
      cases reads
      exact .served (by cases r <;> trivial) (.inr rfl)
    | served serves => exact .served (read_serves serves reads) (.inr rfl)
  · cases r with
    | producer =>
      obtain ⟨channel, later, whole, -, alive⟩ := ok.side
      refine ⟨channel, later, ?_, ?_, alive⟩
      · show lines = v.history ++ pendingIn p v.pc ++ channel ++ later
        rw [(empty v.pc).2, ← (empty v.pc).1]
        exact whole
      · intro open'
        rw [closed] at open'
        cases open'
    | consumer => exact ⟨ok.side.1, fun running => absurd ended running⟩

/-- The session of a client that has ended learns of it. -/
theorem fin_ok {lines : List Bytes} {r : Role} {v : View} (ok : RoleOk lines r v) (ended : v.client.pc = .ended) :
    RoleOk lines r { v with connected := false } := by
  refine ⟨fun running => absurd ended running, ok.counted, ok.handshake, ?_⟩
  cases r with
  | producer =>
    obtain ⟨channel, later, whole, -, alive⟩ := ok.side
    exact ⟨channel, later, whole, fun open' => (by cases open'), alive⟩
  | consumer => exact ok.side

/-! ### What a run keeps -/

/-- A step of one role leaves the other as it was. -/
theorem roles_of {lines : List Bytes} {s t : Transfer} {r : Role} (holds : Invariant lines s)
    (others : ∀ r', r' ≠ r → view t r' = view s r') (own : RoleOk lines r (view t r)) :
    ∀ r', RoleOk lines r' (view t r') := by
  intro r'
  by_cases same : r' = r
  · subst same
    exact own
  · rw [others r' same]
    exact holds.roles r'

/-- The items copied in are the first lines of the file. -/
theorem produced_first {lines : List Bytes} {s : Transfer} (holds : Invariant lines s) :
    s.server.queue.shared.produced <+: lines := by
  obtain ⟨channel, later, whole, -⟩ := (holds.roles .producer).side
  rw [whole, List.append_assoc, List.append_assoc]
  exact List.prefix_append ..

/-- The item that a session has at hand is one of the lines. -/
theorem hand_line {lines : List Bytes} {s : Transfer} (good : ∀ item ∈ lines, Line item) (holds : Invariant lines s)
    {r : Role} {item : Bytes} (hand : atHand (view s r).session (view s r).pc = some item) : Line item := by
  rcases holds.custody.held r with ⟨-, empty⟩ | ⟨k, held, -, hand', produced⟩
  · cases empty.symm.trans hand
  · obtain rfl : held = item := Option.some.inj (hand'.symm.trans hand)
    exact good _ ((produced_first holds).subset (List.mem_of_getElem? produced))

theorem next_other {r r' : Role} {p p' : SessionPc} {clients clients' : Role → ℕ} {c : ClientPc}
    {toServer toClient : List Bytes} (shakes : Handshake r p c toServer toClient)
    (next : NextSpec clients p p' clients') (other : r' ≠ r) : clients' r' = clients r' := by
  cases next with
  | @counts role | @uncounts role =>
    cases shakes with
    | served serves =>
      have same : role = r := by cases r <;> simpa [Serves] using serves
      rw [same, Function.update_of_ne other]
  | _ => rfl

/-- A statement in the queue changes the items copied in by the producer only, and those copied out by the consumer only. -/
theorem call_other {r r' : Role} {sh sh' : Shared} {q q' : Pc} {c : Choice} {p p' : SessionPc} (serves : Serves r p)
    (own : procStep sh q c = some (sh', q')) (after : afterCall c q q' p = some p') (fits : At (place p) q)
    (other : r' ≠ r) : history r' sh' = history r' sh := by
  cases r with
  | consumer =>
    obtain rfl : r' = .producer := by cases r' <;> first | rfl | exact absurd rfl other
    apply produced_kept own
    intro inside
    cases p <;> first | exact serves | (cases q <;> first | exact inside | exact fits | cases fits)
  | producer =>
    obtain rfl : r' = .consumer := by cases r' <;> first | rfl | exact absurd rfl other
    show sh'.consumed = sh.consumed
    rcases procStep_items own with ⟨tmp, -, -, -, consumed⟩ | ⟨copies, -⟩ | ⟨-, -, -, -, consumed⟩
    · exact consumed
    · rw [((afterCall_spec own after fits).copies copies).1] at serves
      exact serves.elim
    · exact consumed

theorem step_invariant {lines : List Bytes} (good : ∀ item ∈ lines, Line item) (s : Transfer) (turn : Turn)
    (t : Transfer) (holds : Invariant lines s) (served : Served s turn) (taken : step s turn = some t) :
    Invariant lines t := by
  cases turn with
  | client r =>
    obtain ⟨c, moved, rfl⟩ := Option.map_eq_some_iff.mp taken
    refine ⟨holds.custody, roles_of (r := r) holds (fun r' other => ?_) ?_⟩
    · simp only [view, Function.update_of_ne other]
    · simpa only [view, Function.update_self] using client_ok good (holds.roles r) moved
  | ends r =>
    cases taken
    refine ⟨holds.custody, roles_of (r := r) holds (fun r' other => ?_) ?_⟩
    · simp only [view, Function.update_of_ne other]
    · simpa only [view, Function.update_self] using ends_ok (holds.roles r)
  | next r =>
    obtain ⟨server, moved, rfl⟩ := Option.map_eq_some_iff.mp taken
    obtain ⟨queue, connected, p, session, next⟩ := next_cases moved
    refine ⟨Custody.step_invariant _ _ _ holds.custody moved, roles_of (r := r) holds (fun r' other => ?_) ?_⟩
    · simp only [view, queue, connected, session, Function.update_of_ne other,
        next_other (holds.roles r).handshake next other]
    · have ok := next_ok (holds.roles r) (fun item => hand_line good holds) rfl next
      simpa only [view, View.next, queue, connected, session, Function.update_self] using ok
  | call r c =>
    obtain ⟨server, moved, rfl⟩ := Option.map_eq_some_iff.mp taken
    have custody := Custody.step_invariant _ _ _ holds.custody moved
    obtain ⟨q, queued, rest⟩ := Option.bind_eq_some_iff.mp moved
    obtain ⟨p, after, rest⟩ := Option.bind_eq_some_iff.mp rest
    cases rest
    obtain ⟨shared, pc, own, rfl⟩ := Interleaving.step_cases queued
    simp only [Function.update_self] at after own
    have fits := holds.custody.places r
    refine ⟨custody, roles_of (r := r) holds (fun r' other => ?_) ?_⟩
    · have serves := serves_of_call (holds.roles r).handshake after
      have pcOther : some r' ≠ some r := by simpa using other
      simp only [view, Function.update_of_ne other, Function.update_of_ne pcOther,
        call_other serves own after fits other]
    · have ok := call_ok good (holds.roles r) own after fits rfl (by rintro rfl; exact served)
      simpa only [view, Function.update_self] using ok
  | read r =>
    simp only [step, onRead] at taken
    split_ifs at taken with open'
    · obtain ⟨⟨bytes, rest⟩, gets, onward⟩ := Option.bind_eq_some_iff.mp taken
      obtain ⟨server, moved, onward⟩ := Option.bind_eq_some_iff.mp onward
      cases onward
      have custody := Custody.step_invariant _ _ _ holds.custody moved
      obtain ⟨closed, p, reads, rfl⟩ := read_cases moved
      have some' : bytes ≠ [] := by
        intro empty
        rw [closed.mp empty] at open'
        cases open'
      refine ⟨custody, roles_of (r := r) holds (fun r' other => ?_) ?_⟩
      · simp only [view, Function.update_of_ne other]
      · simpa only [view, Function.update_self] using read_ok good (holds.roles r) open' some' gets reads
    · obtain ⟨server, moved, rfl⟩ := Option.map_eq_some_iff.mp taken
      have custody := Custody.step_invariant _ _ _ holds.custody moved
      obtain ⟨-, p, reads, rfl⟩ := read_cases moved
      refine ⟨custody, roles_of (r := r) holds (fun r' other => ?_) ?_⟩
      · simp only [view, Function.update_of_ne other]
      · have closed : s.server.connected r = false := Bool.eq_false_iff.mpr open'
        simpa only [view, Function.update_self] using readEnd_ok (holds.roles r) closed reads
  | fin r =>
    simp only [step] at taken
    split_ifs at taken with ended
    obtain ⟨server, moved, rfl⟩ := Option.map_eq_some_iff.mp taken
    have custody := Custody.step_invariant _ _ _ holds.custody moved
    simp only [Sessions.step] at moved
    split_ifs at moved with open'
    cases moved
    refine ⟨custody, roles_of (r := r) holds (fun r' other => ?_) ?_⟩
    · simp only [view, Function.update_of_ne other]
    · simpa only [view, Function.update_self] using fin_ok (holds.roles r) ended
  | main c =>
    obtain ⟨server, moved, rfl⟩ := Option.map_eq_some_iff.mp taken
    refine ⟨Custody.step_invariant _ _ _ holds.custody moved, ?_⟩
    intro r
    simp only [Sessions.step] at moved
    split_ifs at moved with command
    obtain ⟨q, queued, rfl⟩ := Option.map_eq_some_iff.mp moved
    obtain ⟨pcs, produced, consumed⟩ := command_spec command queued
    have same : history r q.shared = history r s.server.queue.shared := by
      cases r with
      | producer => exact produced
      | consumer => exact consumed
    simpa only [view, pcs, same] using holds.roles r

theorem start_invariant (lines : List Bytes) : Invariant lines (start (text lines)) := by
  refine ⟨Custody.start_invariant, fun r => ⟨fun _ => rfl, fun _ => rfl, .welcome (.inl rfl), ?_⟩⟩
  cases r with
  | producer => exact ⟨[], lines, rfl, fun _ => rfl, fun _ => ⟨lines, rfl, rfl⟩⟩
  | consumer => exact ⟨List.prefix_rfl, fun _ => ⟨id, rfl⟩⟩

/-! ### The file -/

/-- While `consumer` does not time out or fail before the client ends, the output file is at every moment a prefix of
    the input file, and has nothing but items copied out of the queue, in their order. -/
theorem file_prefix {lines : List Bytes} (good : ∀ item ∈ lines, Line item) {turns : List Turn}
    (served : AllSteps step Served (start (text lines)) turns) :
    AllStates step (fun s => file s <+: text lines ∧ file s <+: text s.server.queue.shared.consumed)
      (start (text lines)) turns := by
  refine allStates_mono (fun s holds => ?_) (allStates_of (step_invariant good) (start_invariant lines) served)
  have inFile : file s <+: text s.server.queue.shared.consumed := (holds.roles .consumer).side.1
  refine ⟨inFile.trans (text_mono ?_), inFile⟩
  rw [holds.custody.queue.items.order]
  exact (List.take_prefix ..).trans (produced_first holds)

/-- The first turns of a client and its session, up to the loop of the session. -/
def handshakeTurns (r : Role) : List Turn :=
  [.next r, .client r, .client r, .read r, .call r .lock, .next r, .call r .go]

/-- A line goes from the input file to the queue. -/
def produceTurns (item : Bytes) : List Turn :=
  [.client .producer, .client .producer, .read .producer, .call .producer (.produce item)] ++
    List.replicate 9 (.call .producer .go) ++ [.next .producer, .client .producer]

/-- An item goes from the queue to the output file. -/
def consumeTurns : List Turn :=
  .call .consumer .consume :: List.replicate 12 (.call .consumer .go) ++
    [.next .consumer, .client .consumer, .client .consumer, .client .consumer, .read .consumer]

theorem file_prefix_sample :
    let lines := [ascii ['a'], ascii ['b', 'c']]
    let turns := handshakeTurns .consumer ++ handshakeTurns .producer ++ produceTurns (ascii ['a']) ++ consumeTurns
    (exec step (start (text lines)) turns).map file = some (ascii ['a', '\n']) ∧
      AllStates step (fun s => file s <+: text lines ∧ file s <+: text s.server.queue.shared.consumed)
        (start (text lines)) turns := by
  refine ⟨by decide, file_prefix (fun item inside => ?_) (by decide)⟩
  rcases List.mem_cons.mp inside with rfl | inside
  · exact ⟨by decide, by simp [ascii], by decide⟩
  · obtain rfl := List.mem_singleton.mp inside
    exact ⟨by decide, by simp [ascii], by decide⟩

/-- The session of a consumer waits for an item until its time is over; the client then has `Timeout` in its file. -/
theorem timeout_in_file :
    ∃ lines, (∀ item ∈ lines, Line item) ∧
      ∃ s, Reachable step (start (text lines)) s ∧ file s = ascii ['T', 'i', 'm', 'e', 'o', 'u', 't', '\n'] ∧
        ¬ file s <+: text lines := by
  let turns : List Turn :=
    [handshakeTurns .consumer, [.call .consumer .consume], List.replicate 3 (.call .consumer .go),
      [.call .consumer .timeout, .call .consumer .go, .next .consumer, .client .consumer, .client .consumer]].flatten
  have good : ∀ item ∈ [ascii ['a']], Line item := by
    intro item inside
    obtain rfl := List.mem_singleton.mp inside
    exact ⟨by decide, by simp [ascii], by decide⟩
  obtain ⟨s, run, inFile⟩ : ∃ s, exec step (start (text [ascii ['a']])) turns = some s ∧
      file s = ascii ['T', 'i', 'm', 'e', 'o', 'u', 't', '\n'] :=
    Option.map_eq_some_iff.mp (by decide)
  refine ⟨_, good, s, ⟨turns, run⟩, inFile, ?_⟩
  rw [inFile]
  decide

end OsyProg.FileTransfer
