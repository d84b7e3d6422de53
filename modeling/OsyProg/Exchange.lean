import OsyProg.ChildServe
import OsyProg.Clients
import OsyProg.Lines
import Mathlib.Data.List.DropRight

/-!
A producer of `DU/DU04` at work: the client sends the lines of its file and waits for a
line after each (`main` and `producer_thread` of `socket_cl.cpp`), and a thread of the
server takes them with `child_serve`, while the other threads do what they want. The
buffer of the client holds a line of 255 bytes, that of the server one of 9 with its
newline. A longer line comes out of `recv_line` in several parts, and each is enqueued
and acknowledged, so `lines_enqueued_iff` holds for the short ones.
-/
namespace OsyProg.Exchange
open OsyProg.Bytes OsyProg.ChildServe OsyProg.Lines OsyProg.Runs
open OsyProg.Clients (fgets)

/-- `MAX_LINE` of the client. -/
def CLIENT_MAX_LINE : ℕ := 256

/-- The statement of the client, as a producer, that comes next. -/
inductive ClientPc
  | recvTask (line : Bytes)                     -- recv(fd, &c, 1, 0) in recv_line
  | sendRole                                    -- send_str(g_sock, out)
  | readLine                                    -- fgets(line, sizeof(line), f)
  | sendLine (line : Bytes)                     -- send_str(g_sock, out)
  | recvAck (ack : Bytes)                       -- recv(fd, &c, 1, 0) in recv_line
  | close                                       -- close(g_sock)
  | closed
  deriving DecidableEq

/-- The client with what is left of its file, and the bytes on its socket that have not been
    received. The last four fields are not in the code: the lines that the client has sent,
    the number of the replies that it has read, and what its thread of the server has done,
    the number of the OKs and the strings put into the queue. -/
structure Link where
  client : ClientPc
  input : Bytes
  toServer : Bytes
  toClient : Bytes
  sent : List Bytes
  replies : ℕ
  oks : ℕ
  enqueued : List Bytes

/-- The line without the newlines and CRs at its end. -/
def stripped (read : Bytes) : Bytes := (read.takeWhile fun b => b ≠ 0).rdropWhile fun b => b = 10 ∨ b = 13

/-- One statement of the client; none when it waits. -/
def clientStep (ended : Bool) (x : Link) : Option Link :=
  match x.client with
  | .recvTask line =>
    match x.toClient with
    | b :: rest =>
      let next := if lineEnds CLIENT_MAX_LINE (line ++ [b]) then .sendRole else .recvTask (line ++ [b])
      some { x with client := next, toClient := rest }
    -- recv_line returns 0, and main does not look at it
    | [] => if ended = true then some { x with client := .sendRole } else none
  | .sendRole => some { x with client := .readLine, toServer := x.toServer ++ (roleProducer ++ [10]) }
  | .readLine =>
    match fgets CLIENT_MAX_LINE x.input with
    | none => some { x with client := .close }
    | some (read, rest) =>
      let next := if stripped read = [] then .readLine else .sendLine (stripped read)
      some { x with client := next, input := rest }
  | .sendLine line =>
    some { x with
      client := .recvAck []
      toServer := x.toServer ++ (line ++ [10]).take (CLIENT_MAX_LINE + 3)
      sent := x.sent ++ [line] }
  | .recvAck ack =>
    match x.toClient with
    | b :: rest =>
      if lineEnds CLIENT_MAX_LINE (ack ++ [b]) then
        some { x with client := .readLine, toClient := rest, replies := x.replies + 1 }
      else some { x with client := .recvAck (ack ++ [b]), toClient := rest }
    | [] => if ended = true then some { x with client := .close } else none
  | .close => some { x with client := .closed }
  | .closed => none

/-- What the thread of the server gets for its statement, and what is left for it to receive. -/
def received (p : Pc) (x : Link) : Option (Choice × Bytes) :=
  match p with
  | .recv _ _ =>
    match x.toServer with
    | b :: rest => some (.byte b, rest)
    | [] => if x.client = .closed then some (.hangup, []) else none
  | _ => some (.go, x.toServer)

/-- The OK that the statement sends. -/
def okOf : Pc → ℕ
  | .sendEmptyOk | .sendOk => 1
  | _ => 0

/-- The string that the statement puts into the queue. -/
def itemOf : Pc → List Bytes
  | .copyIn item => [strncpy item (MAX_LINE - 1)]
  | _ => []

/-- What a statement of the thread does on the socket. -/
def Link.after (p : Pc) (rest : Bytes) (x : Link) : Link :=
  { x with
    toServer := rest
    toClient := x.toClient ++ (message p).getD []
    oks := x.oks + okOf p
    enqueued := x.enqueued ++ itemOf p }

/-- The server, and the client that thread `i` serves. -/
structure Talk (ι : Type) where
  server : Server ι
  link : Link

/-- The client, or its thread of the server, or another thread takes a step. -/
inductive Move (ι : Type)
  | client
  | session
  | other (j : ι) (c : Choice)

def step {ι : Type} [DecidableEq ι] (i : ι) (s : Talk ι) : Move ι → Option (Talk ι)
  | .client => (clientStep (decide (s.server.pc i = .closed)) s.link).map fun link => { s with link }
  | .session =>
    (received (s.server.pc i) s.link).bind fun (c, rest) =>
      (ChildServe.step s.server (i, c)).map fun server => { server, link := s.link.after (s.server.pc i) rest }
  | .other j c => if j = i then none else (ChildServe.step s.server (j, c)).map fun server => { s with server }

/-- The client has just connected, with a file of these lines. -/
def Link.start (lines : List Bytes) : Link :=
  { client := .recvTask [], input := unlines 10 lines, toServer := [], toClient := [], sent := [], replies := 0,
    oks := 0, enqueued := [] }

def start (ι : Type) (lines : List Bytes) : Talk ι := { server := ChildServe.start ι, link := .start lines }

/-- A line of the file without its newline: no empty one, and short enough for the buffer of the client. -/
structure Name (line : Bytes) : Prop where
  nonempty : line ≠ []
  plain : ∀ b ∈ line, b ≠ 0 ∧ b ≠ 13 ∧ b ≠ 10
  short : line.length < CLIENT_MAX_LINE - 1

/-- The server has enqueued the lines in their order; when the client sends a line, it has read
    one reply for each line before, and none is left; and when it has sent all, all are enqueued
    with one OK for each. -/
structure InStep (lines : List Bytes) (x : Link) : Prop where
  enqueued : x.enqueued <+: lines
  sending : ∀ line, x.client = .sendLine line →
    x.replies = x.sent.length ∧ x.oks = x.sent.length ∧ x.toClient = []
  finished : x.client = .close ∨ x.client = .closed →
    x.enqueued = lines ∧ x.oks = lines.length ∧ x.toClient = []

/-! ### Lines -/

section
variable {line : Bytes} (name : Name line)
include name

theorem Name.no_newline : 10 ∉ line := fun inside => (name.plain 10 inside).2.2 rfl

theorem Name.whole : (line ++ [10]).take (CLIENT_MAX_LINE + 3) = line ++ [10] := by
  apply List.take_of_length_le
  have := name.short
  rw [List.length_append, List.length_singleton]
  simp only [CLIENT_MAX_LINE] at *
  omega

theorem Name.stripped_eq : stripped (line ++ [10]) = line := by
  have whole : ((line ++ [10]).takeWhile fun b => b ≠ 0) = line ++ [10] := by
    rw [List.takeWhile_eq_self_iff]
    intro b inside
    rcases List.mem_append.mp inside with inside | inside
    · simpa using (name.plain b inside).1
    · rw [List.mem_singleton.mp inside]
      rfl
  rw [stripped, whole, List.rdropWhile_concat_pos _ _ _ (by simp), List.rdropWhile_eq_self_iff]
  intro nonempty last
  have plain := name.plain _ (List.getLast_mem nonempty)
  simp [plain] at last

theorem Name.lineOf_eq : lineOf (line ++ [10]) = line := by
  have ended : (line ++ [10])[(line ++ [10]).length - 1]? = some 10 := by simp
  have cleared : (line ++ [10]).set ((line ++ [10]).length - 1) 0 = line ++ [0] := by simp
  have noReturn : ¬ (1 < (line ++ [10]).length ∧ (line ++ [0])[(line ++ [10]).length - 2]? = some 13) := by
    rintro ⟨-, last⟩
    have positive := List.length_pos_of_ne_nil name.nonempty
    have inside : (line ++ [10]).length - 2 < line.length := by
      rw [List.length_append, List.length_singleton]
      omega
    rw [List.getElem?_append_left inside] at last
    exact (name.plain 13 (List.mem_of_getElem? last)).2.1 rfl
  simp only [lineOf, if_pos ended, cleared, if_neg noReturn]
  rw [List.takeWhile_append_of_pos fun b inside => by simpa using (name.plain b inside).1]
  simp

theorem Name.fgets_eq (left : List Bytes) :
    fgets CLIENT_MAX_LINE (unlines 10 (line :: left)) = some (line ++ [10], unlines 10 left) := by
  have fits : line.length + 2 ≤ CLIENT_MAX_LINE := by
    have := name.short
    simp only [CLIENT_MAX_LINE] at *
    omega
  rw [unlines_cons, Clients.fgets_line name.no_newline fits]

end

/-- The loop of `recv_line` goes on after a byte that is no newline. -/
theorem goes_on {cap : ℕ} {line : Bytes} {b : UInt8} (clean : 10 ∉ line) (goesOn : ¬ lineEnds cap (line ++ [b])) :
    10 ∉ line ++ [b] := by
  rw [lineEnds, not_or, List.getLast?_concat] at goesOn
  intro inside
  rcases List.mem_append.mp inside with inside | inside
  · exact clean inside
  · exact goesOn.1 (by rw [List.mem_singleton.mp inside])

/-! ### What the thread takes from the stream -/

/-- What `recv_line` has taken when it returns. -/
structure Chunk (bytes : Bytes) : Prop where
  ends : lineEnds MAX_LINE bytes
  clean : 10 ∉ bytes.dropLast
  fits : bytes.length < MAX_LINE

/-- The statements of a producer. -/
def Producing : Pc → Prop
  | .lockIn | .countIn | .unlockIn | .recv .item _ | .sendEmptyOk | .waitEmpty _ | .waitMutex _ | .copyIn _ => True
  | .advanceTail | .postMutex | .postFull | .sendOk | .lockOut | .countOut | .unlockOut | .close | .closed => True
  | _ => False

/-- The bytes of a line that is not complete. -/
def part : Pc → Bytes
  | .recv .item buf => buf
  | _ => []

/-- A line that has no OK yet. -/
def owed : Pc → ℕ
  | .sendEmptyOk | .waitEmpty _ | .waitMutex _ | .copyIn _ | .advanceTail | .postMutex | .postFull | .sendOk => 1
  | _ => 0

/-- A string that is not in the queue yet. -/
def pending : Pc → List Bytes
  | .waitEmpty item | .waitMutex item | .copyIn item => [item]
  | _ => []

/-- A producer has taken the chunks from the stream of the lines sent. -/
structure Taken (p : Pc) (toServer : Bytes) (sent : List Bytes) (oks : ℕ) (enqueued chunks : List Bytes) : Prop where
  producing : Producing p
  chunk : ∀ c ∈ chunks, Chunk c
  unfinished : 10 ∉ part p ∧ ¬ lineEnds MAX_LINE (part p)
  text : chunks.flatten ++ (part p ++ toServer) = unlines 10 sent
  oks : chunks.length = oks + owed p
  items : enqueued ++ pending p = (chunks.map lineOf).filter fun item => item ≠ []

theorem nothing_unfinished : 10 ∉ ([] : Bytes) ∧ ¬ lineEnds MAX_LINE [] := by decide

theorem lineOf_length (buf : Bytes) : (lineOf buf).length ≤ buf.length := by
  simp only [lineOf]
  refine (List.takeWhile_prefix _).length_le.trans (le_of_eq ?_)
  split_ifs <;> simp

section
variable {p p' : Pc} {toServer : Bytes} {sent : List Bytes} {oks : ℕ} {enqueued chunks : List Bytes}

theorem Taken.more (taken : Taken p toServer sent oks enqueued chunks) (line : Bytes) :
    Taken p (toServer ++ (line ++ [10])) (sent ++ [line]) oks enqueued chunks := by
  refine { taken with text := ?_ }
  have text := taken.text
  simp only [unlines_append, unlines_cons, unlines_nil, ← text, List.append_assoc]

/-- The line in the buffer is complete. -/
theorem Taken.line {buf rest : Bytes} {b : UInt8}
    (taken : Taken (.recv .item buf) (b :: rest) sent oks enqueued chunks) (ends : lineEnds MAX_LINE (buf ++ [b])) :
    Taken (afterLine .item (lineOf (buf ++ [b]))) rest sent oks enqueued (chunks ++ [buf ++ [b]]) := by
  have chunk : Chunk (buf ++ [b]) := by
    refine ⟨ends, ?_, ?_⟩
    · rw [List.dropLast_concat]
      exact taken.unfinished.1
    · have notYet := taken.unfinished.2
      simp only [lineEnds, part, not_or] at notYet
      rw [List.length_append, List.length_singleton]
      omega
  have all : ∀ c ∈ chunks ++ [buf ++ [b]], Chunk c := by
    intro c inside
    rcases List.mem_append.mp inside with inside | inside
    · exact taken.chunk c inside
    · rw [List.mem_singleton.mp inside]
      exact chunk
  have text := taken.text
  have oks := taken.oks
  have items := taken.items
  simp only [part, owed, pending, List.append_nil, Nat.add_zero] at text oks items
  by_cases empty : lineOf (buf ++ [b]) = []
  · rw [afterLine, if_pos empty]
    refine ⟨trivial, all, nothing_unfinished, ?_, ?_, ?_⟩
    · simpa [part] using text
    · simp [oks, owed]
    · simp [items, pending, empty]
  · rw [afterLine, if_neg empty]
    refine ⟨trivial, all, nothing_unfinished, ?_, ?_, ?_⟩
    · simpa [part] using text
    · simp [oks, owed]
    · simp [items, pending, empty]

/-- A statement of the thread, with what it gets from the stream. -/
theorem Taken.next {x : Link} {shared shared' : Shared} {c : Choice} {rest : Bytes}
    (taken : Taken p x.toServer x.sent x.oks x.enqueued chunks) (gets : received p x = some (c, rest))
    (own : procStep shared p c = some (shared', p')) :
    ∃ chunks, Taken p' rest x.sent (x.oks + okOf p) (x.enqueued ++ itemOf p) chunks := by
  obtain ⟨producing, chunk, unfinished, text, oks, items⟩ := id taken
  cases p with
  | recv place buf =>
    cases place <;> try exact False.elim producing
    simp only [received] at gets
    split at gets
    · rename_i b more arrived
      cases gets
      cases own
      rw [arrived] at taken text
      simp only [okOf, itemOf, List.append_nil, Nat.add_zero]
      split_ifs with ends
      · exact ⟨_, taken.line ends⟩
      · refine ⟨chunks, trivial, chunk, ⟨goes_on unfinished.1 ends, ends⟩, ?_, oks, items⟩
        simpa [part] using text
    · rename_i nothing
      obtain ⟨closed, ⟨⟩⟩ := Option.ite_none_right_eq_some.mp gets
      cases own
      rw [nothing, List.append_nil] at text
      have none : buf = [] := nothing_left unfinished.1 text
      refine ⟨chunks, trivial, chunk, nothing_unfinished, ?_, ?_, ?_⟩
      · simpa [part, none, afterHangup] using text
      · exact oks
      · simpa [pending, itemOf, afterHangup] using items
  | copyIn item =>
    cases gets
    cases own
    have fits : item.length ≤ MAX_LINE - 1 := by
      have inside : item ∈ (chunks.map lineOf).filter fun item => item ≠ [] := by
        rw [← items]
        simp [pending]
      obtain ⟨c, member, rfl⟩ := List.mem_map.mp (List.mem_of_mem_filter inside)
      exact (lineOf_length c).trans (Nat.le_pred_of_lt (chunk c member).fits)
    refine ⟨chunks, trivial, chunk, nothing_unfinished, text, oks, ?_⟩
    rw [← items, itemOf, strncpy, List.take_of_length_le fits]
    simp [pending]
  | sendEmptyOk | sendOk =>
    cases gets
    cases own
    refine ⟨chunks, trivial, chunk, nothing_unfinished, text, oks, ?_⟩
    simpa [pending, itemOf] using items
  | lockIn | countIn | unlockIn | waitEmpty | waitMutex | advanceTail | postMutex | postFull | lockOut | countOut
  | unlockOut | close | closed =>
    -- the others leave the stream alone
    cases gets
    first | cases own | obtain ⟨positive, ⟨⟩⟩ := Option.ite_none_right_eq_some.mp own
    all_goals
      refine ⟨chunks, trivial, chunk, nothing_unfinished, text, oks, ?_⟩
      simpa [pending, itemOf] using items
  | _ => exact False.elim producing

end

/-- Lines that the server has room for come out of the stream one by one. -/
theorem chunks_eq_lines {lines chunks : List Bytes} {more : Bytes} (short : ∀ l ∈ lines, l.length ≤ MAX_LINE - 2)
    (clean : ∀ l ∈ lines, 10 ∉ l) (chunk : ∀ c ∈ chunks, Chunk c)
    (text : chunks.flatten ++ more = unlines 10 lines) :
    ∃ first later, lines = first ++ later ∧ chunks = first.map (fun l => l ++ [10]) ∧ more = unlines 10 later := by
  induction chunks generalizing lines with
  | nil => exact ⟨[], lines, rfl, rfl, text⟩
  | cons c rest ih =>
    have here := chunk c (List.mem_cons_self ..)
    rcases List.eq_nil_or_concat c with rfl | ⟨line, b, rfl⟩
    · exact absurd here.ends nothing_unfinished.2
    · obtain ⟨ends, none, -⟩ := here
      rw [List.concat_eq_append] at *
      rw [List.dropLast_concat] at none
      rw [List.flatten_cons, List.append_assoc, List.append_assoc, List.singleton_append] at text
      by_cases newline : b = 10
      · subst newline
        obtain ⟨later, rfl, onward⟩ := first_line clean none text
        obtain ⟨first, left, rfl, rfl, rfl⟩ := ih (fun l inside => short l (List.mem_cons_of_mem _ inside))
          (fun l inside => clean l (List.mem_cons_of_mem _ inside))
          (fun c inside => chunk c (List.mem_cons_of_mem _ inside)) onward
        exact ⟨line :: first, left, rfl, rfl, rfl⟩
      · -- a chunk without a newline fills the buffer
        obtain ⟨l, inside, longer⟩ := part_shorter none newline text
        have := short l inside
        rw [lineEnds, List.getLast?_concat, List.length_append, List.length_singleton] at ends
        rcases ends with last | full
        · exact absurd (Option.some.inj last) newline
        · simp only [MAX_LINE] at *
          omega

/-! ### What holds of the exchange -/

/-- The line of the acknowledgement, and that of the question. -/
def okLine : Bytes := ascii ['O', 'K']
def taskLine : Bytes := ascii ['T', 'a', 's', 'k', '?']

/-- Until the client has told its role, nothing else has happened. -/
inductive Greeting (lines : List Bytes) : Pc → Link → Prop
  | connected : Greeting lines .sendTask (Link.start lines)
  | asked {line toClient : Bytes} (clean : 10 ∉ line) (text : line ++ toClient = unlines 10 [taskLine]) :
    Greeting lines (.recv .task []) { Link.start lines with client := .recvTask line, toClient }
  | answering : Greeting lines (.recv .task []) { Link.start lines with client := .sendRole }

/-- Where the client is in its file. -/
def Position (lines : List Bytes) (client : ClientPc) (input : Bytes) (sent : List Bytes) (replies : ℕ) : Prop :=
  match client with
  | .recvTask _ | .sendRole => False
  | .readLine => ∃ left, lines = sent ++ left ∧ input = unlines 10 left ∧ replies = sent.length
  | .sendLine line => ∃ left, lines = sent ++ line :: left ∧ input = unlines 10 left ∧ replies = sent.length
  | .recvAck _ => ∃ left, lines = sent ++ left ∧ input = unlines 10 left ∧ replies + 1 = sent.length
  | .close | .closed => lines = sent ∧ replies = sent.length

/-- What the client has of a reply. -/
def ack : ClientPc → Bytes
  | .recvAck ack => ack
  | _ => []

/-- The client has read the replies up to one, and the others are on their way to it. -/
structure Answers (client : ClientPc) (toClient : Bytes) (replies oks : ℕ) : Prop where
  clean : 10 ∉ ack client
  text : ∃ ahead, oks = replies + ahead ∧ ack client ++ toClient = unlines 10 (List.replicate ahead okLine)

/-- The thread takes the role, or it has taken it and takes the lines. -/
def Stream (p : Pc) (toServer : Bytes) (sent : List Bytes) (oks : ℕ) (enqueued : List Bytes) : Prop :=
  (∃ buf, p = .recv .task buf ∧ 10 ∉ buf ∧ buf ++ toServer = unlines 10 (roleProducer :: sent) ∧
    oks = 0 ∧ enqueued = []) ∨
  ∃ chunks, Taken p toServer sent oks enqueued chunks

/-- The statements of a producer whose client has hung up. -/
def Leaving : Pc → Prop
  | .lockOut | .countOut | .unlockOut | .close | .closed => True
  | _ => False

/-- The client has told its role. -/
structure Sending (lines : List Bytes) (p : Pc) (x : Link) : Prop where
  position : Position lines x.client x.input x.sent x.replies
  answers : Answers x.client x.toClient x.replies x.oks
  stream : Stream p x.toServer x.sent x.oks x.enqueued
  leaving : Leaving p → x.client = .closed

def Invariant (lines : List Bytes) (p : Pc) (x : Link) : Prop := Greeting lines p x ∨ Sending lines p x

theorem Stream.more {p : Pc} {toServer : Bytes} {sent : List Bytes} {oks : ℕ} {enqueued : List Bytes}
    (stream : Stream p toServer sent oks enqueued) (line : Bytes) :
    Stream p (toServer ++ (line ++ [10])) (sent ++ [line]) oks enqueued := by
  rcases stream with ⟨buf, here, none, text, nothing⟩ | ⟨chunks, taken⟩
  · refine .inl ⟨buf, here, none, ?_, nothing⟩
    rw [← List.append_assoc, text]
    simp
  · exact .inr ⟨chunks, taken.more line⟩

/-- What comes of a line that is received byte by byte: it is complete with its newline. -/
theorem line_complete {line rest : Bytes} {b : UInt8} {lines : List Bytes} (clean : ∀ l ∈ lines, 10 ∉ l)
    (short : ∀ l ∈ lines, l.length < CLIENT_MAX_LINE - 1) (none : 10 ∉ line)
    (text : line ++ b :: rest = unlines 10 lines) :
    lineEnds CLIENT_MAX_LINE (line ++ [b]) ∧ (∃ later, lines = line :: later ∧ rest = unlines 10 later) ∨
      ¬ lineEnds CLIENT_MAX_LINE (line ++ [b]) ∧ 10 ∉ line ++ [b] := by
  by_cases newline : b = 10
  · subst newline
    exact .inl ⟨.inl (List.getLast?_concat ..), first_line clean none text⟩
  · have goesOn : ¬ lineEnds CLIENT_MAX_LINE (line ++ [b]) := by
      obtain ⟨l, inside, longer⟩ := part_shorter none newline text
      have := short l inside
      rw [lineEnds, List.getLast?_concat, List.length_append, List.length_singleton]
      rintro (last | full)
      · exact newline (Option.some.inj last)
      · omega
    exact .inr ⟨goesOn, goes_on none goesOn⟩

theorem Sending.client {lines : List Bytes} {p : Pc} {x y : Link} (names : ∀ l ∈ lines, Name l)
    (sending : Sending lines p x) (taken : clientStep (decide (p = .closed)) x = some y) : Sending lines p y := by
  obtain ⟨position, answers, stream, leaving⟩ := sending
  unfold clientStep at taken
  split at taken
  · rename_i line here
    rw [here] at position
    exact False.elim position
  · rename_i here
    rw [here] at position
    exact False.elim position
  · rename_i here
    rw [here] at position answers
    obtain ⟨left, rfl, input, replies⟩ := position
    have leaving : Leaving p → False := fun leaves => by cases here.symm.trans (leaving leaves)
    cases left with
    | nil =>
      rw [input, unlines_nil] at taken
      cases taken
      exact ⟨⟨List.append_nil _, replies⟩, ⟨answers.clean, answers.text⟩, stream, fun leaves => (leaving leaves).elim⟩
    | cons line left =>
      have name := names line (by simp)
      rw [input, name.fgets_eq left] at taken
      simp only [name.stripped_eq, if_neg name.nonempty] at taken
      cases taken
      exact ⟨⟨left, rfl, rfl, replies⟩, ⟨answers.clean, answers.text⟩, stream, fun leaves => (leaving leaves).elim⟩
  · rename_i line here
    rw [here] at position answers
    obtain ⟨left, rfl, input, replies⟩ := position
    have name := names line (by simp)
    cases taken
    refine ⟨⟨left, by simp, input, by simp [replies]⟩, ⟨answers.clean, answers.text⟩, ?_, ?_⟩
    · rw [name.whole]
      exact stream.more line
    · intro leaves
      cases here.symm.trans (leaving leaves)
  · rename_i line here
    rw [here] at position answers
    obtain ⟨left, rfl, input, replies⟩ := position
    have leaving : ¬ Leaving p := fun leaves => by cases here.symm.trans (leaving leaves)
    split at taken
    · rename_i b rest arrived
      rw [arrived] at answers
      obtain ⟨none, ahead, count, text⟩ := answers
      rw [ack] at none text
      have each : ∀ l ∈ List.replicate ahead okLine, l = okLine := fun l inside => List.eq_of_mem_replicate inside
      have complete := line_complete (fun l inside => each l inside ▸ by decide)
        (fun l inside => each l inside ▸ by decide) none text
      rcases complete with ⟨ends, later, same, onward⟩ | ⟨goesOn, none⟩
      · rw [if_pos ends] at taken
        cases taken
        cases ahead with
        | zero => cases same
        | succ ahead =>
          rw [List.replicate_succ] at same
          obtain ⟨-, rfl⟩ := List.cons.inj same
          have answers : Answers .readLine rest (x.replies + 1) x.oks :=
            ⟨List.not_mem_nil, ahead, by omega, onward⟩
          exact ⟨⟨left, rfl, input, replies⟩, answers, stream, fun leaves => absurd leaves leaving⟩
      · rw [if_neg goesOn] at taken
        cases taken
        have answers : Answers (.recvAck (line ++ [b])) rest x.replies x.oks :=
          ⟨none, ahead, count, by simpa [ack] using text⟩
        exact ⟨⟨left, rfl, input, replies⟩, answers, stream, fun leaves => absurd leaves leaving⟩
    · obtain ⟨ended, ⟨⟩⟩ := Option.ite_none_right_eq_some.mp taken
      rw [of_decide_eq_true ended] at leaving
      exact absurd trivial leaving
  · rename_i here
    rw [here] at position answers
    cases taken
    exact ⟨position, ⟨answers.clean, answers.text⟩, stream, fun _ => rfl⟩
  · cases taken

theorem Greeting.client {lines : List Bytes} {p : Pc} {x y : Link} (greeting : Greeting lines p x)
    (taken : clientStep (decide (p = .closed)) x = some y) : Invariant lines p y := by
  cases greeting with
  | connected => cases taken
  | @asked line toClient clean text =>
    cases toClient with
    | nil => cases taken
    | cons b rest =>
      cases taken
      have complete := line_complete (by decide) (by decide) clean text
      rcases complete with ⟨ends, later, same, rfl⟩ | ⟨goesOn, none⟩
      · obtain ⟨-, rfl⟩ := List.cons.inj same
        rw [if_pos ends]
        exact .inl .answering
      · rw [if_neg goesOn]
        exact .inl (.asked none (by simpa using text))
  | answering =>
    cases taken
    have stream : Stream (.recv .task []) (roleProducer ++ [10]) [] 0 [] :=
      .inl ⟨[], rfl, List.not_mem_nil, rfl, rfl, rfl⟩
    exact .inr ⟨⟨lines, rfl, rfl, rfl⟩, ⟨List.not_mem_nil, 0, rfl, rfl⟩, stream, False.elim⟩

theorem Greeting.session {lines : List Bytes} {p p' : Pc} {x : Link} {shared shared' : Shared} {c : Choice}
    {rest : Bytes} (greeting : Greeting lines p x) (gets : received p x = some (c, rest))
    (own : procStep shared p c = some (shared', p')) : Invariant lines p' (x.after p rest) := by
  cases greeting with
  | connected =>
    cases gets
    cases own
    exact .inl (.asked List.not_mem_nil rfl)
  | asked | answering => cases gets

/-- A producer gets nothing but OKs. -/
theorem Producing.message {p : Pc} (producing : Producing p) :
    message p = none ∧ okOf p = 0 ∨ message p = some (okLine ++ [10]) ∧ okOf p = 1 := by
  cases p <;> first | exact False.elim producing | exact .inl ⟨rfl, rfl⟩ | exact .inr ⟨rfl, rfl⟩

theorem Answers.after {p : Pc} {x : Link} (rest : Bytes)
    (message : message p = none ∧ okOf p = 0 ∨ message p = some (okLine ++ [10]) ∧ okOf p = 1)
    (answers : Answers x.client x.toClient x.replies x.oks) :
    Answers x.client (x.after p rest).toClient x.replies (x.after p rest).oks := by
  obtain ⟨clean, ahead, count, text⟩ := answers
  rcases message with ⟨nothing, zero⟩ | ⟨ok, one⟩
  · refine ⟨clean, ahead, ?_, ?_⟩
    · simp [Link.after, zero, count]
    · simp [Link.after, nothing, text]
  · refine ⟨clean, ahead + 1, ?_, ?_⟩
    · simp only [Link.after, one]
      omega
    · simp only [Link.after, ok, Option.getD_some, ← List.append_assoc, text]
      simp [List.replicate_succ']

theorem leaves_closed {p p' : Pc} {x : Link} {shared shared' : Shared} {c : Choice} {rest : Bytes}
    (producing : Producing p) (leaving : Leaving p → x.client = .closed) (gets : received p x = some (c, rest))
    (own : procStep shared p c = some (shared', p')) (leaves : Leaving p') : x.client = .closed := by
  cases p with
  | recv place buf =>
    cases place <;> try exact False.elim producing
    simp only [received] at gets
    split at gets
    · cases gets
      cases own
      simp only [afterLine] at leaves
      split_ifs at leaves <;> exact False.elim leaves
    · exact (Option.ite_none_right_eq_some.mp gets).1
  | lockOut | countOut | unlockOut | close => exact leaving trivial
  | _ =>
    first
      | exact False.elim producing
      | cases gets
        first | cases own | obtain ⟨positive, ⟨⟩⟩ := Option.ite_none_right_eq_some.mp own
        all_goals exact False.elim leaves

/-- Where the thread is when it has received these bytes of a line. -/
def receiving (place : Place) (buf : Bytes) : Pc :=
  if lineEnds MAX_LINE buf then afterLine place (lineOf buf) else .recv place buf

/-- The thread takes a byte of the role. -/
theorem Sending.role {lines : List Bytes} {x : Link} {buf rest : Bytes} {b : UInt8}
    (sending : Sending lines (.recv .task buf) x) (arrived : x.toServer = b :: rest) :
    Sending lines (receiving .task (buf ++ [b])) (x.after (.recv .task buf) rest) := by
  obtain ⟨position, answers, stream, leaving⟩ := sending
  have answers := answers.after rest (.inl ⟨rfl, rfl⟩ : message (.recv .task buf) = none ∧ _ ∨ _)
  rcases stream with ⟨buf, ⟨⟩, clean, text, noOk, noItem⟩ | ⟨chunks, taken⟩
  · rw [arrived, unlines_cons] at text
    by_cases newline : b = 10
    · subst newline
      obtain ⟨rfl, rfl⟩ := cut_unique clean (by decide) text
      have taken : Taken .lockIn (unlines 10 x.sent) x.sent 0 [] [] := by
        refine ⟨trivial, ?_, nothing_unfinished, rfl, rfl, rfl⟩
        intro c inside
        cases inside
      have next : receiving .task (roleProducer ++ [10]) = .lockIn := by decide
      rw [next]
      refine ⟨position, answers, .inr ⟨[], ?_⟩, False.elim⟩
      simpa [Link.after, okOf, itemOf, noOk, noItem] using taken
    · have shorter := part_of_first clean newline text
      have length : roleProducer.length = 8 := rfl
      have goesOn : ¬ lineEnds MAX_LINE (buf ++ [b]) := by
        rw [lineEnds, List.getLast?_concat, List.length_append, List.length_singleton, MAX_LINE]
        rintro (last | full)
        · exact newline (Option.some.inj last)
        · omega
      rw [receiving, if_neg goesOn]
      refine ⟨position, answers, .inl ⟨buf ++ [b], rfl, goes_on clean goesOn, ?_, ?_, ?_⟩, False.elim⟩
      · simpa [Link.after] using text
      · exact noOk
      · simp [Link.after, noItem, itemOf]
  · exact False.elim taken.producing

theorem Sending.session {lines : List Bytes} {p p' : Pc} {x : Link} {shared shared' : Shared} {c : Choice}
    {rest : Bytes} (sending : Sending lines p x) (gets : received p x = some (c, rest))
    (own : procStep shared p c = some (shared', p')) : Sending lines p' (x.after p rest) := by
  rcases sending.stream with ⟨buf, rfl, clean, text, -⟩ | ⟨chunks, taken⟩
  · simp only [received] at gets
    split at gets
    · rename_i b more arrived
      cases gets
      cases own
      exact sending.role arrived
    · rename_i nothing
      rw [nothing, List.append_nil] at text
      cases no_line clean text
  · obtain ⟨chunks', taken'⟩ := taken.next gets own
    exact ⟨sending.position, sending.answers.after rest taken.producing.message, .inr ⟨chunks', taken'⟩,
      leaves_closed (x := x) taken.producing sending.leaving gets own⟩

/-! ### Every run -/

section
variable {ι : Type} [DecidableEq ι] {i : ι} {lines : List Bytes}

theorem step_invariant (names : ∀ l ∈ lines, Name l) (s : Talk ι) (move : Move ι) (t : Talk ι)
    (inv : Invariant lines (s.server.pc i) s.link) (taken : step i s move = some t) :
    Invariant lines (t.server.pc i) t.link := by
  cases move with
  | client =>
    obtain ⟨link, moved, rfl⟩ := Option.map_eq_some_iff.mp taken
    rcases inv with greeting | sending
    · exact greeting.client moved
    · exact .inr (sending.client names moved)
  | session =>
    obtain ⟨⟨c, rest⟩, gets, moved⟩ := Option.bind_eq_some_iff.mp taken
    obtain ⟨server, ran, rfl⟩ := Option.map_eq_some_iff.mp moved
    obtain ⟨shared, p, own, rfl⟩ := Interleaving.step_cases ran
    dsimp only
    rw [Function.update_self]
    rcases inv with greeting | sending
    · exact greeting.session gets own
    · exact .inr (sending.session gets own)
  | other j c =>
    obtain ⟨different, moved⟩ := Option.ite_none_left_eq_some.mp taken
    obtain ⟨server, ran, rfl⟩ := Option.map_eq_some_iff.mp moved
    obtain ⟨shared, p, own, rfl⟩ := Interleaving.step_cases ran
    dsimp only
    rwa [Function.update_of_ne (Ne.symm different)]

theorem reachable_invariant (names : ∀ l ∈ lines, Name l) {s : Talk ι}
    (reached : Reachable (step i) (start ι lines) s) : Invariant lines (s.server.pc i) s.link :=
  reachable_kept (step_invariant names) (.inl .connected) reached

end

/-! ### Short lines -/

section
variable {lines : List Bytes} {p : Pc} {x : Link} (names : ∀ l ∈ lines, Name l)
  (short : ∀ l ∈ lines, l.length ≤ MAX_LINE - 2)
include names

theorem lineOf_names : ((lines.map fun l => l ++ [10]).map lineOf).filter (fun item => item ≠ []) = lines := by
  induction lines with
  | nil => rfl
  | cons line rest ih =>
    have name := names line (List.mem_cons_self ..)
    rw [List.map_cons, List.map_cons, name.lineOf_eq, List.filter_cons_of_pos (by simpa using name.nonempty),
      ih fun l inside => names l (List.mem_cons_of_mem _ inside)]

omit names in
theorem pending_length (p : Pc) : (pending p).length ≤ owed p := by
  cases p <;> first | exact Nat.zero_le _ | exact le_rfl

include short

/-- The lines sent are enqueued one by one, each before its OK. -/
theorem Stream.enqueued {toServer : Bytes} {oks : ℕ} {enqueued : List Bytes}
    (stream : Stream p toServer lines oks enqueued) : enqueued <+: lines ∧ oks ≤ enqueued.length := by
  rcases stream with ⟨-, -, -, -, rfl, rfl⟩ | ⟨chunks, taken⟩
  · exact ⟨List.nil_prefix, le_rfl⟩
  · obtain ⟨first, later, rfl, rfl, -⟩ :=
      chunks_eq_lines short (fun l inside => (names l inside).no_newline) taken.chunk taken.text
    have items := taken.items
    rw [lineOf_names fun l inside => names l (List.mem_append_left _ inside)] at items
    have length := congrArg List.length items
    have count := taken.oks
    have atMost := pending_length p
    rw [List.length_append] at length
    rw [List.length_map] at count
    refine ⟨?_, by omega⟩
    rw [← items, List.append_assoc]
    exact List.prefix_append ..

/-- When the client has read a reply for each line sent, there was one OK for each. -/
theorem Sending.settled (sending : Sending lines p x) (sent : x.sent <+: lines) (even : x.replies = x.sent.length) :
    x.enqueued = x.sent ∧ x.oks = x.sent.length ∧ x.toClient = [] := by
  obtain ⟨ahead, count, text⟩ := sending.answers.text
  obtain ⟨before, atMost⟩ := sending.stream.enqueued (fun l inside => names l (sent.subset inside))
    fun l inside => short l (sent.subset inside)
  have := before.length_le
  obtain rfl : ahead = 0 := by omega
  refine ⟨before.eq_of_length_le (by omega), by omega, ?_⟩
  exact (List.append_eq_nil_iff.mp text).2

/-- The exchange of short lines is in step. -/
theorem Invariant.inStep (inv : Invariant lines p x) : InStep lines x := by
  rcases inv with greeting | sending
  · cases greeting
    all_goals
      refine ⟨List.nil_prefix, ?_, ?_⟩
      · intro line here
        cases here
      · intro here
        rcases here with here | here <;> cases here
  · have settled := sending.settled names short
    have position := sending.position
    have sent : x.sent <+: lines := by
      unfold Position at position
      split at position
      · exact position.elim
      · exact position.elim
      · obtain ⟨left, rfl, -⟩ := position
        exact List.prefix_append ..
      · obtain ⟨left, rfl, -⟩ := position
        exact List.prefix_append ..
      · obtain ⟨left, rfl, -⟩ := position
        exact List.prefix_append ..
      · exact position.1 ▸ List.prefix_rfl
      · exact position.1 ▸ List.prefix_rfl
    refine ⟨?_, ?_, ?_⟩
    · exact (sending.stream.enqueued (fun l inside => names l (sent.subset inside))
        fun l inside => short l (sent.subset inside)).1.trans sent
    · intro line here
      rw [here] at position
      obtain ⟨left, -, -, even⟩ := position
      exact ⟨even, (settled sent even).2⟩
    · intro here
      have done : lines = x.sent ∧ x.replies = x.sent.length := by
        rcases here with here | here <;> rwa [here] at position
      rw [done.1]
      exact settled sent done.2

end

/-! ### A run with a consumer -/

/-- Where a producer, its client and a consumer are, with the semaphores and the counter. -/
def seen (s : Talk Bool) : (ℕ × ℕ × ℕ × ℤ × ℕ) × (Pc × Pc) × ClientPc × Bytes × Bytes × Bytes :=
  ((s.server.shared.semEmpty, s.server.shared.semFull, s.server.shared.semMutex, s.server.shared.producerCnt,
    s.server.shared.cntMutex), (s.server.pc true, s.server.pc false), s.link.client, s.link.input, s.link.toServer,
    s.link.toClient)

/-- Both clients tell their roles. -/
def telling : List (Move Bool) :=
  [[.session], List.replicate 7 .client, List.replicate 12 .session, [.other false .go],
    (roleConsumer ++ [10]).map fun b => .other false (.byte b)].flatten

/-- The producer puts a string into the queue in seven statements, and the consumer takes it in
    twelve and gets its acknowledgement. -/
def handing : List (Move Bool) :=
  [List.replicate 7 .session, List.replicate 12 (.other false .go),
    (okLine ++ [10]).map fun b => .other false (.byte b)].flatten

/-- Some run comes to where the queue is empty and the consumer is about to test it. -/
def Arrives (lines : List Bytes) (p : Pc) (client : ClientPc) (input toServer toClient : Bytes) : Prop :=
  ∃ s, Reachable (step true) (start Bool lines) s ∧
    seen s = ((BUFFER_SIZE, 0, 1, 1, 1), (p, .lockTest), client, input, toServer, toClient)

section
variable {lines : List Bytes} {p : Pc} {client : ClientPc} {input toServer toClient : Bytes}

theorem arrives_start (lines : List Bytes) : Arrives lines (.recv .item []) .readLine (unlines 10 lines) [] [] := by
  obtain ⟨s, run, arrived⟩ : ∃ s, exec (step true) (start Bool lines) telling = some s ∧
      seen s = ((BUFFER_SIZE, 0, 1, 1, 1), (.recv .item [], .lockTest), .readLine, unlines 10 lines, [], []) :=
    Option.map_eq_some_iff.mp rfl
  exact ⟨s, ⟨telling, run⟩, arrived⟩

theorem Arrives.item {item : Bytes} (arrives : Arrives lines (.waitEmpty item) client input toServer []) :
    Arrives lines (.recv .item []) client input toServer (okLine ++ [10]) := by
  obtain ⟨⟨⟨⟨queue, head, tail, semEmpty, semFull, semMutex, producerCnt, cntMutex⟩, pc⟩, link⟩, reached, here⟩ :=
    arrives
  simp only [seen, Prod.mk.injEq] at here
  obtain ⟨⟨rfl, rfl, rfl, rfl, rfl⟩, ⟨producer, consumer⟩, rfl, rfl, rfl, silent⟩ := here
  obtain rfl : pc = fun i => bif i then .waitEmpty item else .lockTest := by
    funext i
    cases i
    · exact consumer
    · exact producer
  obtain ⟨client, input, toServer, toClient, sent, replies, oks, enqueued⟩ := link
  cases silent
  let before : Talk Bool :=
    { server :=
        { shared := ⟨queue, head, tail, BUFFER_SIZE, 0, 1, 1, 1⟩
          pc := fun i => bif i then .waitEmpty item else .lockTest }
      link := ⟨client, input, toServer, [], sent, replies, oks, enqueued⟩ }
  obtain ⟨s, run, arrived⟩ : ∃ s, exec (step true) before handing = some s ∧ seen s =
      ((BUFFER_SIZE, 0, 1, 1, 1), (.recv .item [], .lockTest), client, input, toServer, okLine ++ [10]) :=
    Option.map_eq_some_iff.mp rfl
  exact ⟨s, reached.trans ⟨handing, run⟩, arrived⟩

/-- One statement of the client. -/
theorem Arrives.clientMove {client' : ClientPc} {input' toServer' toClient' : Bytes}
    (arrives : Arrives lines p client input toServer toClient)
    (moved : ∀ sent replies oks enqueued, ∃ y,
      clientStep (decide (p = .closed)) ⟨client, input, toServer, toClient, sent, replies, oks, enqueued⟩ = some y ∧
        (y.client, y.input, y.toServer, y.toClient) = (client', input', toServer', toClient')) :
    Arrives lines p client' input' toServer' toClient' := by
  obtain ⟨⟨⟨shared, pc⟩, ⟨client, input, toServer, toClient, sent, replies, oks, enqueued⟩⟩, reached, here⟩ := arrives
  simp only [seen, Prod.mk.injEq] at here
  obtain ⟨counters, ⟨producer, consumer⟩, rfl, rfl, rfl, rfl⟩ := here
  obtain ⟨y, own, there⟩ := moved sent replies oks enqueued
  refine ⟨⟨⟨shared, pc⟩, y⟩, reached.next (a := .client) ?_, ?_⟩
  · simp only [step, producer, own, Option.map_some]
  · simp only [Prod.mk.injEq] at there
    simp only [seen, Prod.mk.injEq]
    exact ⟨counters, ⟨producer, consumer⟩, there⟩

/-- One statement of the producer that leaves the shared state alone. -/
theorem Arrives.sessionMove {p' : Pc} {c : Choice} {rest : Bytes}
    (arrives : Arrives lines p client input toServer toClient)
    (gets : ∀ x : Link, x.client = client → x.toServer = toServer → received p x = some (c, rest))
    (own : ∀ shared, procStep shared p c = some (shared, p')) :
    Arrives lines p' client input rest (toClient ++ (message p).getD []) := by
  obtain ⟨⟨⟨shared, pc⟩, link⟩, reached, here⟩ := arrives
  simp only [seen, Prod.mk.injEq] at here
  obtain ⟨counters, ⟨producer, consumer⟩, rfl, rfl, rfl, rfl⟩ := here
  refine ⟨⟨⟨shared, Function.update pc true p'⟩, link.after p rest⟩, reached.next (a := .session) ?_, ?_⟩
  · simp only [step, producer, gets link rfl rfl, Option.bind_some, ChildServe.step, Interleaving.step, own,
      Option.map_some]
  · simp only [seen, Prod.mk.injEq, Function.update_self]
    exact ⟨counters, ⟨trivial, by simpa using consumer⟩, rfl, rfl, rfl, rfl⟩

theorem Arrives.byte {buf rest : Bytes} {b : UInt8}
    (arrives : Arrives lines (.recv .item buf) client input (b :: rest) toClient) :
    Arrives lines (receiving .item (buf ++ [b])) client input rest toClient := by
  have gets : ∀ x : Link, x.client = client → x.toServer = b :: rest →
      received (.recv .item buf) x = some (.byte b, rest) := by
    intro x _ arrived
    simp only [received, arrived]
  have arrives := arrives.sessionMove gets fun shared => rfl
  simpa [message, receiving] using arrives

/-- `recv_line` returns what it takes at once. -/
theorem Arrives.chunk {buf more rest : Bytes} (chunk : Chunk (buf ++ more)) (other : more ≠ [])
    (arrives : Arrives lines (.recv .item buf) client input (more ++ rest) toClient) :
    Arrives lines (afterLine .item (lineOf (buf ++ more))) client input rest toClient := by
  induction more generalizing buf with
  | nil => exact absurd rfl other
  | cons b more ih =>
    have next := arrives.byte
    by_cases last : more = []
    · subst last
      rwa [receiving, if_pos chunk.ends] at next
    · have goesOn : ¬ lineEnds MAX_LINE (buf ++ [b]) := by
        have clean := chunk.clean
        have fits := chunk.fits
        have positive := List.length_pos_of_ne_nil last
        rw [List.dropLast_append_of_ne_nil (List.cons_ne_nil _ _), List.dropLast_cons_of_ne_nil last] at clean
        rw [List.length_append, List.length_cons] at fits
        rw [lineEnds, List.getLast?_concat, List.length_append, List.length_singleton]
        rintro (newline | full)
        · exact clean (by simp [Option.some.inj newline])
        · omega
      rw [receiving, if_neg goesOn] at next
      have whole : buf ++ b :: more = (buf ++ [b]) ++ more := by simp
      rw [whole] at chunk ⊢
      exact ih chunk last next

/-- A chunk comes back as an OK. -/
theorem Arrives.serve {c rest : Bytes} (chunk : Chunk c)
    (arrives : Arrives lines (.recv .item []) client input (c ++ rest) []) :
    Arrives lines (.recv .item []) client input rest (okLine ++ [10]) := by
  have other : c ≠ [] := by
    rintro rfl
    exact nothing_unfinished.2 chunk.ends
  have whole : Chunk ([] ++ c) := chunk
  have taken := arrives.chunk whole other
  rw [List.nil_append] at taken
  by_cases empty : lineOf c = []
  · rw [afterLine, if_pos empty] at taken
    exact taken.sessionMove (c := .go) (fun x _ same => by rw [← same]; rfl) fun shared => rfl
  · rw [afterLine, if_neg empty] at taken
    exact taken.item

theorem Arrives.reads {line : Bytes} {left : List Bytes} (name : Name line)
    (arrives : Arrives lines p .readLine (unlines 10 (line :: left)) toServer toClient) :
    Arrives lines p (.sendLine line) (unlines 10 left) toServer toClient := by
  apply arrives.clientMove
  intro sent replies oks enqueued
  refine ⟨⟨.sendLine line, unlines 10 left, toServer, toClient, sent, replies, oks, enqueued⟩, ?_, rfl⟩
  simp only [clientStep, name.fgets_eq, name.stripped_eq, if_neg name.nonempty]

theorem Arrives.sends {line : Bytes} (name : Name line)
    (arrives : Arrives lines p (.sendLine line) input toServer toClient) :
    Arrives lines p (.recvAck []) input (toServer ++ (line ++ [10])) toClient := by
  apply arrives.clientMove
  intro sent replies oks enqueued
  refine ⟨_, rfl, ?_⟩
  rw [name.whole]

theorem Arrives.ok (arrives : Arrives lines p (.recvAck []) input toServer (okLine ++ [10])) :
    Arrives lines p .readLine input toServer [] := by
  have first : Arrives lines p (.recvAck [79]) input toServer [75, 10] :=
    arrives.clientMove fun _ _ _ _ => ⟨_, rfl, rfl⟩
  have second : Arrives lines p (.recvAck [79, 75]) input toServer [10] :=
    first.clientMove fun _ _ _ _ => ⟨_, rfl, rfl⟩
  exact second.clientMove fun _ _ _ _ => ⟨_, rfl, rfl⟩

theorem short_chunk {line : Bytes} (clean : 10 ∉ line) (short : line.length ≤ MAX_LINE - 2) : Chunk (line ++ [10]) := by
  refine ⟨.inl (List.getLast?_concat ..), ?_, ?_⟩
  · rwa [List.dropLast_concat]
  · rw [List.length_append, List.length_singleton]
    simp only [MAX_LINE] at *
    omega

theorem long_chunk {line : Bytes} (clean : 10 ∉ line) (long : MAX_LINE - 2 < line.length) :
    Chunk (line.take (MAX_LINE - 1)) := by
  have length : (line.take (MAX_LINE - 1)).length = MAX_LINE - 1 := List.length_take_of_le (Nat.succ_le_of_lt long)
  refine ⟨.inr ?_, ?_, ?_⟩
  · rw [length]
    exact le_rfl
  · exact fun inside => clean (List.mem_of_mem_take (List.mem_of_mem_dropLast inside))
  · rw [length]
    decide

/-- A short line goes through. -/
theorem Arrives.line {line : Bytes} {left : List Bytes} (name : Name line) (short : line.length ≤ MAX_LINE - 2)
    (arrives : Arrives lines (.recv .item []) .readLine (unlines 10 (line :: left)) [] []) :
    Arrives lines (.recv .item []) .readLine (unlines 10 left) [] [] := by
  have sent := (arrives.reads name).sends name
  have whole : [] ++ (line ++ [10]) = (line ++ [10]) ++ [] := by simp
  rw [whole] at sent
  exact (sent.serve (short_chunk name.no_newline short)).ok

/-- What is left of a long line comes back as a second OK, when the client has gone on. -/
theorem Arrives.second {line : Bytes} {left : List Bytes} (name : Name line) (names : ∀ l ∈ left, Name l)
    (long : MAX_LINE - 2 < line.length)
    (arrives : Arrives lines (.recv .item []) .readLine (unlines 10 (line :: left)) [] []) :
    ∃ client input toServer, Arrives lines (.recv .item []) client input toServer (okLine ++ [10]) ∧
      ((∃ next, client = .sendLine next) ∨ client = .close) := by
  have sent := (arrives.reads name).sends name
  let rest := line.drop (MAX_LINE - 1)
  have cut : [] ++ (line ++ [10]) = line.take (MAX_LINE - 1) ++ (rest ++ [10]) := by
    rw [List.nil_append, ← List.append_assoc, List.take_append_drop]
  rw [cut] at sent
  have goesOn := (sent.serve (long_chunk name.no_newline long)).ok
  have clean : 10 ∉ rest := fun inside => name.no_newline (List.mem_of_mem_drop inside)
  obtain ⟨c, more, chunk, text⟩ : ∃ c more, Chunk c ∧ rest ++ [10] = c ++ more := by
    by_cases short : rest.length ≤ MAX_LINE - 2
    · exact ⟨rest ++ [10], [], short_chunk clean short, (List.append_nil _).symm⟩
    · refine ⟨_, rest.drop (MAX_LINE - 1) ++ [10], long_chunk clean (not_le.mp short), ?_⟩
      rw [← List.append_assoc, List.take_append_drop]
  rw [text] at goesOn
  cases left with
  | nil =>
    have ends : Arrives lines (.recv .item []) .close [] (c ++ more) [] :=
      goesOn.clientMove fun _ _ _ _ => ⟨_, rfl, rfl⟩
    exact ⟨_, _, _, ends.serve chunk, .inr rfl⟩
  | cons next left =>
    have reads := goesOn.reads (names next (List.mem_cons_self ..))
    exact ⟨_, _, _, reads.serve chunk, .inl ⟨next, rfl⟩⟩

end

/-- With a line that is too long for the server, the client gets an OK that it does not wait for. -/
theorem unwaited_reached {lines left : List Bytes} (names : ∀ l ∈ left, Name l)
    (long : ∃ l ∈ left, MAX_LINE - 2 < l.length)
    (arrives : Arrives lines (.recv .item []) .readLine (unlines 10 left) [] []) :
    ∃ client input toServer, Arrives lines (.recv .item []) client input toServer (okLine ++ [10]) ∧
      ((∃ next, client = .sendLine next) ∨ client = .close) := by
  induction left with
  | nil =>
    obtain ⟨l, inside, -⟩ := long
    cases inside
  | cons line left ih =>
    have name := names line (List.mem_cons_self ..)
    have others : ∀ l ∈ left, Name l := fun l inside => names l (List.mem_cons_of_mem _ inside)
    by_cases short : line.length ≤ MAX_LINE - 2
    · refine ih others ?_ (arrives.line name short)
      obtain ⟨l, inside, longer⟩ := long
      rcases List.mem_cons.mp inside with rfl | inside
      · exact absurd longer (not_lt.mpr short)
      · exact ⟨l, inside, longer⟩
    · exact arrives.second name others (not_le.mp short)

/-- Short lines go through to the end of the file. -/
theorem arrives_end {lines left : List Bytes} (names : ∀ l ∈ left, Name l)
    (short : ∀ l ∈ left, l.length ≤ MAX_LINE - 2)
    (arrives : Arrives lines (.recv .item []) .readLine (unlines 10 left) [] []) :
    Arrives lines (.recv .item []) .closed [] [] [] := by
  induction left with
  | nil =>
    have ends : Arrives lines (.recv .item []) .close [] [] [] := arrives.clientMove fun _ _ _ _ => ⟨_, rfl, rfl⟩
    exact ends.clientMove fun _ _ _ _ => ⟨_, rfl, rfl⟩
  | cons line left ih =>
    have first := arrives.line (names line (List.mem_cons_self ..)) (short line (List.mem_cons_self ..))
    exact ih (fun l inside => names l (List.mem_cons_of_mem _ inside))
      (fun l inside => short l (List.mem_cons_of_mem _ inside)) first

theorem exchange_finishes {lines : List Bytes} (names : ∀ l ∈ lines, Name l)
    (short : ∀ l ∈ lines, l.length ≤ MAX_LINE - 2) :
    ∃ s, Reachable (step true) (start Bool lines) s ∧ s.link.client = .closed ∧ s.link.enqueued = lines := by
  obtain ⟨s, reached, here⟩ := arrives_end names short (arrives_start lines)
  simp only [seen, Prod.mk.injEq] at here
  have closed := here.2.2.1
  exact ⟨s, reached, closed, (((reachable_invariant names reached).inStep names short).finished (.inr closed)).1⟩

/-- The lines are enqueued one by one, each with one OK, exactly when each fits the buffer of the server. -/
theorem lines_enqueued_iff {lines : List Bytes} (names : ∀ l ∈ lines, Name l) :
    (∀ (ι : Type) [DecidableEq ι] (i : ι) (s : Talk ι), Reachable (step i) (start ι lines) s → InStep lines s.link) ↔
      ∀ l ∈ lines, l.length ≤ MAX_LINE - 2 := by
  constructor
  · intro inStep
    by_contra tooLong
    push Not at tooLong
    obtain ⟨client, input, toServer, ⟨s, reached, here⟩, waits⟩ := unwaited_reached names tooLong (arrives_start lines)
    simp only [seen, Prod.mk.injEq] at here
    obtain ⟨-, -, at_, -, -, unread⟩ := here
    have kept := inStep Bool true s reached
    have none : s.link.toClient = [] := by
      rcases waits with ⟨next, rfl⟩ | rfl
      · exact (kept.sending next at_).2.2
      · exact (kept.finished (.inl at_)).2.2
    cases unread.symm.trans none
  · intro short ι _ i s reached
    exact (reachable_invariant names reached).inStep names short

def adam : Bytes := ascii ['A', 'd', 'a', 'm']
def alexandra : Bytes := ascii ['A', 'l', 'e', 'x', 'a', 'n', 'd', 'r', 'a']

theorem lines_enqueued_iff_sample :
    ∃ s, Reachable (step true) (start Bool [adam]) s ∧ s.link.client = .closed ∧ InStep [adam] s.link := by
  have names : ∀ l ∈ [adam], Name l := by
    intro l inside
    rw [List.mem_singleton.mp inside]
    exact ⟨by decide, by simp [adam, ascii], by decide⟩
  let moves : List (Move Bool) :=
    [telling, List.replicate 2 .client, List.replicate 5 .session, handing, List.replicate 5 .client].flatten
  obtain ⟨s, run, closed⟩ : ∃ s, exec (step true) (start Bool [adam]) moves = some s ∧ s.link.client = .closed :=
    Option.map_eq_some_iff.mp rfl
  exact ⟨s, ⟨moves, run⟩, closed, (lines_enqueued_iff names).mpr (by decide) Bool true s ⟨moves, run⟩⟩

/-- A name of nine letters gets two OKs. -/
theorem name_acknowledged_twice :
    ¬ ∀ lines : List Bytes, (∀ l ∈ lines, Name l) → ∀ (ι : Type) [DecidableEq ι] (i : ι) (s : Talk ι),
      Reachable (step i) (start ι lines) s → InStep lines s.link := by
  intro always
  have names : ∀ l ∈ [alexandra], Name l := by
    intro l inside
    rw [List.mem_singleton.mp inside]
    exact ⟨by decide, by simp [alexandra, ascii], by decide⟩
  let moves : List (Move Bool) :=
    [telling, List.replicate 2 .client, List.replicate 9 .session, handing, List.replicate 4 .client,
      List.replicate 2 .session].flatten
  obtain ⟨s, run, twice⟩ : ∃ s, exec (step true) (start Bool [alexandra]) moves = some s ∧
      (s.link.client, s.link.oks) = (.close, 2) := Option.map_eq_some_iff.mp rfl
  simp only [Prod.mk.injEq] at twice
  have once := ((always _ names Bool true s ⟨moves, run⟩).finished (.inl twice.1)).2.1
  rw [twice.2] at once
  cases once

end OsyProg.Exchange
