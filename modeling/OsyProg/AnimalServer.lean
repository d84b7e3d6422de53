import OsyProg.CStrings
import OsyProg.Interleaving

/-!
The server of `animal_done/socket_srv.cpp`: a process for each client, which compiles
the animal that the client asks for into one file and sends the file in pieces. The
processes pass one semaphore around, from before the compilation to the end of the
sending. The semaphore and the processes that hold it are at most one, and the file is
the one that the sending process has compiled (`Invariant`). A client that hangs up
while it is sent something ends its process by SIGPIPE with the semaphore taken, and
nobody is served any more (`client_gone`). While no client does (`Stays`), the semaphore
and the processes that hold it are one, and a client gets all of its own file, or none
of it (`clients_served`).
-/
namespace OsyProg.AnimalServer
open OsyProg.Bytes OsyProg.CStrings OsyProg.Interleaving OsyProg.Runs

def LINE : ℕ := 1024
def SEND_BUF : ℕ := 4096

/-! ### The request -/

/-- The loop of `read_line_socket` with `left` places in the line. Behind the end of
    the stream the calls of `read` leave `c` as it is. -/
def readLineSocket : ℕ → UInt8 → Bytes → Bytes
  | 0, _, _ => []
  | left + 1, c, stream =>
    let c := stream.headD c
    if c = 10 then [] else c :: readLineSocket left c stream.tail

def isAnimalOk (a : Bytes) : Bool :=
  a = ascii ['C', 'A', 'T'] || a = ascii ['D', 'O', 'G'] || a = ascii ['L', 'I', 'O', 'N'] ||
    a = ascii ['S', 'N', 'A', 'K', 'E']

/-- What `client_handle` makes of the line it has read. -/
inductive Request
  | empty                        -- l_len <= 0
  | err
  | animal (lAnimal : Bytes)
  deriving DecidableEq

/-- The request in a stream; `c` is what the variable in `read_line_socket` starts with. -/
def request (stream : Bytes) (c : UInt8) : Request :=
  let line := readLineSocket (LINE - 1) c stream
  if line = [] then .empty
  else
    let (lCmd, rest) := scanWord 63 (cString line)
    let lAnimal := (scanWord 63 rest).1
    if lCmd ≠ ascii ['C', 'O', 'M', 'P', 'I', 'L', 'E'] ∨ isAnimalOk lAnimal = false then .err else .animal lAnimal

/-! ### The processes -/

/-- The semaphore and the file `animal`. -/
structure Shared where
  sem : ℕ
  animal : Bytes

/-- The statements of `client_handle`, `compile_animal` and `send_file_slow`. -/
inductive Pc
  | readLine                            -- read_line_socket, sscanf and the checks
  | writeErr                            -- write(lsc, "ERR\n", ..)
  | semWait (lAnimal : Bytes)           -- sem_wait(t_sem)
  | compile (lAnimal : Bytes)           -- compile_animal(l_animal), from fork to waitpid
  | writeFailed                         -- write(lsc, "COMPILATION_FAILED\n", ..)
  | read (pos : ℕ)                      -- read(fd, buf, sizeof(buf)), at this offset of fd
  | write (pos : ℕ) (buf : Bytes)       -- write(lsc, buf, r)
  | semPost                             -- sem_post(t_sem)
  | close                               -- close(lsc)
  | returned
  | killed                              -- by SIGPIPE: nothing handles or ignores it
  deriving DecidableEq

/-- A handler: what its client sends, the byte that `c` starts with, the exit status of
    the compiler, and what it has written to its client. -/
structure Handler where
  stream : Bytes
  c : UInt8
  pc : Pc
  lComp : Option UInt8
  output : Bytes

/-- How a statement goes on where it can in several ways: `sem_wait` may fail, the
    compiler writes to the file and exits, and a client that is written to has hung up. -/
inductive Choice
  | go
  | fail
  | hangup
  | writes (file : Bytes)
  | exits (status : UInt8) (file : Bytes)
  deriving DecidableEq

abbrev Server (ι : Type) := System Shared Handler ι

def errText : Bytes := ascii ['E', 'R', 'R', '\n']
def failedText : Bytes :=
  ascii ['C', 'O', 'M', 'P', 'I', 'L', 'A', 'T', 'I', 'O', 'N', '_', 'F', 'A', 'I', 'L', 'E', 'D', '\n']

section
variable (binary : Bytes → Bytes)

/-- Where the checks of the request lead. -/
def afterRequest : Request → Pc
  | .empty => .close
  | .err => .writeErr
  | .animal lAnimal => .semWait lAnimal

/-- A statement of a handler. `binary` is the file that the compiler makes of an animal
    when it exits with 0; before that, and otherwise, the file may hold anything. -/
def procStep (s : Shared) (p : Handler) (choice : Choice) : Option (Shared × Handler) :=
  match p.pc, choice with
  | .readLine, .go => some (s, { p with pc := afterRequest (request p.stream p.c) })
  | .writeErr, .go => some (s, { p with pc := .close, output := p.output ++ errText })
  | .writeErr, .hangup | .writeFailed, .hangup | .write .., .hangup => some (s, { p with pc := .killed })
  | .semWait lAnimal, .go =>
    if 0 < s.sem then some ({ s with sem := s.sem - 1 }, { p with pc := .compile lAnimal }) else none
  | .semWait _, .fail => some (s, { p with pc := .close })
  | .compile _, .writes file => some ({ s with animal := file }, p)
  | .compile lAnimal, .exits status file =>
    some ({ s with animal := if status = 0 then binary lAnimal else file },
      { p with pc := if status ≠ 0 then .writeFailed else .read 0, lComp := some status })
  | .writeFailed, .go => some (s, { p with pc := .semPost, output := p.output ++ failedText })
  | .read pos, .go =>
    -- The loop ends with an empty read, and `send_file_slow` returns 0 in any case.
    let buf := (s.animal.drop pos).take SEND_BUF
    some (s, { p with pc := if buf = [] then .semPost else .write (pos + buf.length) buf })
  | .write pos buf, .go => some (s, { p with pc := .read pos, output := p.output ++ buf })
  | .semPost, .go => some ({ s with sem := s.sem + 1 }, { p with pc := .close })
  | .close, .go => some (s, { p with pc := .returned })
  | _, _ => none

/-- No handler has done anything yet; the semaphore is 1. -/
def start {ι : Type} (file : Bytes) (clients : ι → Bytes × UInt8) : Server ι :=
  { shared := { sem := 1, animal := file }
    pc := fun i => { stream := (clients i).1, c := (clients i).2, pc := .readLine, lComp := none, output := [] } }

/-! ### What holds of a handler -/

/-- Between `sem_wait` and `sem_post`. -/
def Pc.between : Pc → Bool
  | .compile _ | .writeFailed | .read _ | .write .. | .semPost => true
  | .readLine | .writeErr | .semWait _ | .close | .returned | .killed => false

/-- The whole answer: the file after a compilation that has succeeded, the message
    after one that has not, and otherwise nothing or the error. -/
def Answered (p : Handler) : Prop :=
  match p.lComp with
  | none => p.output = [] ∨ request p.stream p.c = .err ∧ p.output = errText
  | some status =>
    if status = 0 then ∃ lAnimal, request p.stream p.c = .animal lAnimal ∧ p.output = binary lAnimal
    else p.output = failedText

/-- A handler that is sending has sent the file up to its position. -/
def SentTo (p : Handler) (pos : ℕ) (sent : Bytes) : Prop :=
  p.lComp = some 0 ∧ ∃ lAnimal, request p.stream p.c = .animal lAnimal ∧ pos ≤ (binary lAnimal).length ∧
    sent = (binary lAnimal).take pos

/-- What the client of a handler has got so far, by how its compilation has ended: a
    piece from the start of its file, and the whole file when the handler has
    returned; or only the message; or nothing but the error. -/
structure Received (client : Bytes × UInt8) (p : Handler) : Prop where
  file : p.lComp = some 0 → ∃ lAnimal, request client.1 client.2 = .animal lAnimal ∧
    p.output <+: binary lAnimal ∧ (p.pc = .returned → p.output = binary lAnimal)
  message : ∀ status, p.lComp = some status → status ≠ 0 →
    (p.output = [] ∨ p.output = failedText) ∧ (p.pc = .returned → p.output = failedText)
  neither : p.lComp = none → p.output = [] ∨ p.output = errText

/-- What a handler has done when it is at the given statement. -/
def Own (p : Handler) : Prop :=
  match p.pc with
  | .readLine => p.lComp = none ∧ p.output = []
  | .writeErr => p.lComp = none ∧ p.output = [] ∧ request p.stream p.c = .err
  | .semWait lAnimal | .compile lAnimal => p.lComp = none ∧ p.output = [] ∧ request p.stream p.c = .animal lAnimal
  | .writeFailed => (∃ status, p.lComp = some status ∧ status ≠ 0) ∧ p.output = []
  | .read pos => SentTo binary p pos p.output
  | .write pos buf => SentTo binary p pos (p.output ++ buf)
  | .semPost | .close | .returned => Answered binary p
  | .killed => Received binary (p.stream, p.c) p

/-- The file is the one that the handler sends. -/
def FileOk (s : Shared) (p : Handler) : Prop :=
  match p.pc with
  | .read _ | .write .. => ∀ lAnimal, request p.stream p.c = .animal lAnimal → s.animal = binary lAnimal
  | _ => True

def weight (p : Handler) : ℤ := if p.pc.between then 1 else 0

/-- No client has hung up when its handler, which has taken the semaphore, writes to it. -/
def Stays {ι : Type} (s : Server ι) (move : ι × Choice) : Prop := (s.pc move.1).pc.between = true → move.2 ≠ .hangup

instance {ι : Type} (s : Server ι) (move : ι × Choice) : Decidable (Stays s move) :=
  inferInstanceAs (Decidable (_ → _))

end

/-! ### A step of one handler -/

section
variable {binary : Bytes → Bytes} {s s' : Shared} {p p' : Handler} {choice : Choice}

/-- What each statement does with the shared memory and its handler. -/
inductive Executes (binary : Bytes → Bytes) (s : Shared) (p : Handler) : Shared → Handler → Prop
  | readLine (here : p.pc = .readLine) : Executes binary s p s { p with pc := afterRequest (request p.stream p.c) }
  | writeErr (here : p.pc = .writeErr) : Executes binary s p s { p with pc := .close, output := p.output ++ errText }
  | semWait (lAnimal : Bytes) (here : p.pc = .semWait lAnimal) (positive : 0 < s.sem) :
      Executes binary s p { s with sem := s.sem - 1 } { p with pc := .compile lAnimal }
  | semFails (lAnimal : Bytes) (here : p.pc = .semWait lAnimal) : Executes binary s p s { p with pc := .close }
  | compiles (lAnimal file : Bytes) (here : p.pc = .compile lAnimal) : Executes binary s p { s with animal := file } p
  | compiled (lAnimal : Bytes) (here : p.pc = .compile lAnimal) :
      Executes binary s p { s with animal := binary lAnimal } { p with pc := .read 0, lComp := some 0 }
  | compileFails (lAnimal file : Bytes) (status : UInt8) (here : p.pc = .compile lAnimal) (bad : status ≠ 0) :
      Executes binary s p { s with animal := file } { p with pc := .writeFailed, lComp := some status }
  | writeFailed (here : p.pc = .writeFailed) :
      Executes binary s p s { p with pc := .semPost, output := p.output ++ failedText }
  | readEnd (pos : ℕ) (here : p.pc = .read pos) (empty : (s.animal.drop pos).take SEND_BUF = []) :
      Executes binary s p s { p with pc := .semPost }
  | read (pos : ℕ) (buf : Bytes) (here : p.pc = .read pos) (more : buf ≠ []) (bytes : buf = (s.animal.drop pos).take SEND_BUF) :
      Executes binary s p s { p with pc := .write (pos + buf.length) buf }
  | write (pos : ℕ) (buf : Bytes) (here : p.pc = .write pos buf) :
      Executes binary s p s { p with pc := .read pos, output := p.output ++ buf }
  | semPost (here : p.pc = .semPost) : Executes binary s p { s with sem := s.sem + 1 } { p with pc := .close }
  | close (here : p.pc = .close) : Executes binary s p s { p with pc := .returned }
  | refused (here : p.pc = .writeErr) : Executes binary s p s { p with pc := .killed }
  | lost (here : p.pc = .writeFailed ∨ ∃ pos buf, p.pc = .write pos buf) : Executes binary s p s { p with pc := .killed }

theorem procStep_executes (taken : procStep binary s p choice = some (s', p')) : Executes binary s p s' p' := by
  cases here : p.pc <;> cases choice <;> simp only [procStep, here] at taken
  case semWait.go lAnimal =>
    obtain ⟨positive, ⟨⟩⟩ := Option.ite_none_right_eq_some.mp taken
    exact .semWait lAnimal here positive
  case compile.exits lAnimal status file =>
    cases taken
    by_cases ok : status = 0
    · subst ok
      exact .compiled lAnimal here
    · simp only [ok, ne_eq, not_false_eq_true, if_true, if_false]
      exact .compileFails lAnimal file status here ok
  case read.go pos =>
    cases taken
    split
    next empty => exact .readEnd pos here empty
    next more => exact .read pos _ here more rfl
  all_goals cases taken
  case readLine.go => exact .readLine here
  case writeErr.go => exact .writeErr here
  case semWait.fail lAnimal => exact .semFails lAnimal here
  case compile.writes lAnimal file => exact .compiles lAnimal file here
  case writeFailed.go => exact .writeFailed here
  case write.go pos buf => exact .write pos buf here
  case semPost.go => exact .semPost here
  case close.go => exact .close here
  case writeErr.hangup => exact .refused here
  case writeFailed.hangup => exact .lost (.inl here)
  case write.hangup pos buf => exact .lost (.inr ⟨pos, buf, here⟩)

/-- A handler is killed between the calls by a client that has hung up only. -/
theorem procStep_lost (taken : procStep binary s p choice = some (s', p')) (between : p.pc.between = true)
    (killed : p'.pc = .killed) : choice = .hangup := by
  by_contra other
  cases here : p.pc <;> cases choice <;> simp only [procStep, here] at taken
  case compile.exits lAnimal status file =>
    cases taken
    dsimp only at killed
    split at killed <;> cases killed
  case read.go pos =>
    cases taken
    dsimp only at killed
    split at killed <;> cases killed
  case compile.writes lAnimal file =>
    cases taken
    rw [here] at killed
    cases killed
  case writeFailed.hangup | write.hangup => exact other rfl
  case readLine.go | semWait.go | writeErr.hangup =>
    rw [here] at between
    cases between
  all_goals cases taken
  all_goals cases killed

/-- The semaphore is taken by the handler that goes between the calls, and given back, or lost
    with it. -/
theorem procStep_sem (taken : procStep binary s p choice = some (s', p')) :
    (s'.sem : ℤ) + weight p' = s.sem + weight p ∨
      p.pc.between = true ∧ p'.pc = .killed ∧ (s'.sem : ℤ) + weight p' + 1 = s.sem + weight p := by
  cases procStep_executes taken with
  | lost here =>
    right
    rcases here with here | ⟨pos, buf, here⟩ <;> simp [weight, here, Pc.between]
  | readLine here =>
    left
    cases asked : request p.stream p.c <;> simp [weight, here, afterRequest, Pc.between]
  | semWait lAnimal here positive =>
    left
    simp only [weight, here, Pc.between, if_true, Bool.false_eq_true, if_false]
    omega
  | compiles lAnimal file here => exact .inl rfl
  | semPost here =>
    left
    simp [weight, here, Pc.between]
  | _ => exact .inl (by simp_all [weight, Pc.between])

theorem procStep_conserves (taken : procStep binary s p choice = some (s', p'))
    (stays : p.pc.between = true → choice ≠ .hangup) : (s'.sem : ℤ) + weight p' = s.sem + weight p := by
  rcases procStep_sem taken with same | ⟨between, killed, -⟩
  · exact same
  · exact absurd (procStep_lost taken between killed) (stays between)

/-- Only the compiler writes to the file. -/
theorem procStep_animal (taken : procStep binary s p choice = some (s', p')) (outside : p.pc.between = false) :
    s'.animal = s.animal := by
  cases procStep_executes taken with
  | compiles lAnimal file here | compiled lAnimal here | compileFails lAnimal file status here =>
    rw [here] at outside
    cases outside
  | _ => rfl

theorem drop_take_length (data : Bytes) (pos : ℕ) :
    data.take pos ++ (data.drop pos).take SEND_BUF = data.take (pos + ((data.drop pos).take SEND_BUF).length) := by
  rw [List.take_add, List.length_take, ← List.take_take, List.take_length]

/-- A handler that sends the right file stays at the right place of it. -/
theorem sentTo_read {pos : ℕ} (sent : SentTo binary p pos p.output)
    (file : ∀ lAnimal, request p.stream p.c = .animal lAnimal → s.animal = binary lAnimal) :
    let buf := (s.animal.drop pos).take SEND_BUF
    if buf = [] then Answered binary p else SentTo binary p (pos + buf.length) (p.output ++ buf) := by
  obtain ⟨status, lAnimal, asked, inside, output⟩ := sent
  rw [file lAnimal asked]
  intro buf
  split
  next empty =>
    have behind : (binary lAnimal).length ≤ pos := by
      rcases List.take_eq_nil_iff.mp empty with none | all
      · cases none
      · exact List.drop_eq_nil_iff.mp all
    rw [Answered, status]
    refine (if_pos rfl).mpr ⟨lAnimal, asked, ?_⟩
    rw [output, List.take_of_length_le behind]
  next =>
    refine ⟨status, lAnimal, asked, ?_, ?_⟩
    · have : buf.length ≤ (binary lAnimal).length - pos := by
        rw [← List.length_drop]
        exact List.length_take_le' _ _
      omega
    · rw [output]
      exact drop_take_length _ _

theorem received_of_none {p : Handler} (client : Bytes × UInt8) (none : p.lComp = none)
    (output : p.output = [] ∨ p.output = errText) : Received binary client p where
  file := fun compiled => by rw [none] at compiled; cases compiled
  message := fun status failed => by rw [none] at failed; cases failed
  neither := fun _ => output

theorem received_of_answered {p : Handler} (answered : Answered binary p) : Received binary (p.stream, p.c) p where
  file := by
    intro compiled
    rw [Answered, compiled] at answered
    obtain ⟨lAnimal, asked, output⟩ := (if_pos rfl).mp answered
    exact ⟨lAnimal, asked, output ▸ List.prefix_refl _, fun _ => output⟩
  message := by
    intro status failed bad
    rw [Answered, failed] at answered
    have output := (if_neg bad).mp answered
    exact ⟨.inr output, fun _ => output⟩
  neither := by
    intro none
    rw [Answered, none] at answered
    exact answered.imp id And.right

theorem received_of_sentTo {p : Handler} {pos : ℕ} {sent : Bytes} (sending : SentTo binary p pos sent)
    (sofar : p.output <+: sent) (more : p.pc ≠ .returned) : Received binary (p.stream, p.c) p := by
  obtain ⟨compiled, lAnimal, asked, -, rfl⟩ := sending
  refine ⟨fun _ => ⟨lAnimal, asked, sofar.trans (List.take_prefix _ _), fun back => absurd back more⟩, ?_, ?_⟩
  · intro status same bad
    rw [compiled] at same
    exact absurd (Option.some.inj same).symm bad
  · intro none
    rw [compiled] at none
    cases none

theorem received {p : Handler} (own : Own binary p) : Received binary (p.stream, p.c) p := by
  cases here : p.pc with
  | readLine | writeErr | semWait | compile =>
    simp only [Own, here] at own
    first
    | exact received_of_none _ own.1 (.inl own.2)
    | exact received_of_none _ own.1 (.inl own.2.1)
  | writeFailed =>
    simp only [Own, here] at own
    obtain ⟨⟨status, failed, bad⟩, none⟩ := own
    refine ⟨?_, fun _ _ _ => ⟨.inl none, fun back => ?_⟩, ?_⟩
    · intro compiled
      rw [failed] at compiled
      exact absurd (Option.some.inj compiled) bad
    · rw [here] at back
      cases back
    · intro no
      rw [failed] at no
      cases no
  | read pos =>
    simp only [Own, here] at own
    exact received_of_sentTo own (List.prefix_refl _) (by simp [here])
  | write pos buf =>
    simp only [Own, here] at own
    exact received_of_sentTo own (List.prefix_append _ _) (by simp [here])
  | semPost | close | returned =>
    simp only [Own, here] at own
    exact received_of_answered own
  | killed =>
    simp only [Own, here] at own
    exact own

/-- A handler that is killed leaves its client with what it had got. -/
theorem received_killed {p : Handler} (own : Received binary (p.stream, p.c) p) :
    Received binary (p.stream, p.c) { p with pc := .killed } where
  file := fun compiled => by
    obtain ⟨lAnimal, asked, sofar, -⟩ := own.file compiled
    exact ⟨lAnimal, asked, sofar, fun back => by cases back⟩
  message := fun status failed bad => ⟨(own.message status failed bad).1, fun back => by cases back⟩
  neither := own.neither

theorem procStep_own (taken : procStep binary s p choice = some (s', p')) (own : Own binary p) (file : FileOk binary s p) :
    Own binary p' ∧ FileOk binary s' p' := by
  cases procStep_executes taken with
  | readLine here =>
    simp only [Own, here] at own
    cases asked : request p.stream p.c with
    | empty => exact ⟨by simp only [Own, afterRequest, Answered, own]; exact .inl trivial, trivial⟩
    | err => exact ⟨⟨own.1, own.2, asked⟩, trivial⟩
    | animal lAnimal => exact ⟨⟨own.1, own.2, asked⟩, trivial⟩
  | writeErr here =>
    simp only [Own, here] at own
    refine ⟨?_, trivial⟩
    simp only [Own, Answered, own.1, own.2.1]
    exact .inr ⟨own.2.2, rfl⟩
  | semWait lAnimal here positive =>
    simp only [Own, here] at own
    exact ⟨own, trivial⟩
  | semFails lAnimal here =>
    simp only [Own, here] at own
    refine ⟨?_, trivial⟩
    simp only [Own, Answered, own.1, own.2.1]
    exact .inl trivial
  | compiles lAnimal file here =>
    refine ⟨own, ?_⟩
    simp only [FileOk, here]
  | compiled lAnimal here =>
    simp only [Own, here] at own
    refine ⟨⟨rfl, lAnimal, own.2.2, Nat.zero_le _, own.2.1⟩, ?_⟩
    intro other asked
    rw [own.2.2] at asked
    cases asked
    rfl
  | compileFails lAnimal file status here bad =>
    simp only [Own, here] at own
    exact ⟨⟨⟨status, rfl, bad⟩, own.2.1⟩, trivial⟩
  | writeFailed here =>
    simp only [Own, here] at own
    obtain ⟨⟨status, failed, bad⟩, none⟩ := own
    refine ⟨?_, trivial⟩
    simp only [Own, Answered, failed, if_neg bad, none]
    rfl
  | readEnd pos here empty =>
    simp only [Own, here] at own
    simp only [FileOk, here] at file
    have answered := sentTo_read own file
    rw [if_pos empty] at answered
    exact ⟨answered, trivial⟩
  | read pos buf here more bytes =>
    subst bytes
    simp only [Own, here] at own
    simp only [FileOk, here] at file
    have further := sentTo_read own file
    rw [if_neg more] at further
    exact ⟨further, file⟩
  | write pos buf here =>
    simp only [Own, here] at own
    simp only [FileOk, here] at file
    exact ⟨own, file⟩
  | semPost here | close here =>
    simp only [Own, here] at own
    exact ⟨own, trivial⟩
  | refused here => exact ⟨received_killed (p := p) (received own), trivial⟩
  | lost here => exact ⟨received_killed (p := p) (received own), trivial⟩

/-- The client stays the same. -/
theorem procStep_client (taken : procStep binary s p choice = some (s', p')) : p'.stream = p.stream ∧ p'.c = p.c := by
  cases procStep_executes taken <;> exact ⟨rfl, rfl⟩

end

/-! ### All handlers together -/

section
variable {ι : Type} [DecidableEq ι] [Fintype ι] {binary : Bytes → Bytes} {clients : ι → Bytes × UInt8} {s t : Server ι}

/-- The semaphore and the handlers that hold it are at most one, and what holds of each handler. -/
structure Invariant (binary : Bytes → Bytes) (clients : ι → Bytes × UInt8) (s : Server ι) : Prop where
  sem : (s.shared.sem : ℤ) + total weight s.pc ≤ 1
  own : ∀ i, Own binary (s.pc i)
  file : ∀ i, FileOk binary s.shared (s.pc i)
  client : ∀ i, (s.pc i).stream = (clients i).1 ∧ (s.pc i).c = (clients i).2

omit [DecidableEq ι] in
theorem start_invariant (binary : Bytes → Bytes) (file : Bytes) (clients : ι → Bytes × UInt8) :
    Invariant binary clients (start file clients) where
  sem := by
    have outside : total weight (start file clients).pc = 0 := total_eq_zero fun i => if_neg Bool.false_ne_true
    rw [outside]
    exact le_refl 1
  own := fun i => ⟨rfl, rfl⟩
  file := fun i => trivial
  client := fun i => ⟨rfl, rfl⟩

theorem weight_nonneg (p : Handler) : 0 ≤ weight p := by
  unfold weight
  split <;> decide

theorem fileOk_of_outside {shared : Shared} {p : Handler} (outside : p.pc.between = false) : FileOk binary shared p := by
  unfold FileOk
  split
  next here => rw [here] at outside; cases outside
  next here => rw [here] at outside; cases outside
  next => trivial

/-- No other handler is between `sem_wait` and `sem_post`. -/
theorem Invariant.alone (inv : Invariant binary clients s) {i j : ι} (here : (s.pc i).pc.between = true) (other : j ≠ i) :
    (s.pc j).pc.between = false := by
  have alone : total weight s.pc ≤ weight (s.pc i) := by
    have := inv.sem
    rw [weight, if_pos here]
    omega
  by_contra there
  have none := zero_of_alone weight_nonneg alone other
  rw [weight, if_pos (by simpa using there)] at none
  cases none

theorem step_invariant {move : ι × Choice} (inv : Invariant binary clients s)
    (taken : step (procStep binary) s move = some t) : Invariant binary clients t := by
  obtain ⟨shared, p, moved, rfl⟩ := step_cases taken
  have after := procStep_own moved (inv.own move.1) (inv.file move.1)
  have sem : (shared.sem : ℤ) + weight p ≤ s.shared.sem + weight (s.pc move.1) := by
    rcases procStep_sem moved with same | ⟨-, -, less⟩ <;> omega
  have others := total_update weight s.pc move.1 p
  have before := inv.sem
  refine ⟨by dsimp only; omega, ?_, ?_, ?_⟩
  · exact forall_update (P := fun _ p => Own binary p) (fun j _ => inv.own j) after.1
  · refine forall_update (P := fun _ p => FileOk binary shared p) (fun j other => ?_) after.2
    by_cases between : (s.pc move.1).pc.between = true
    · exact fileOk_of_outside (inv.alone between other)
    · have same := procStep_animal moved (by simpa using between)
      have file := inv.file j
      unfold FileOk at file ⊢
      rwa [same]
  · refine forall_update (P := fun j (p : Handler) => p.stream = (clients j).1 ∧ p.c = (clients j).2) (fun j _ => inv.client j) ?_
    obtain ⟨stream, c⟩ := procStep_client moved
    rw [stream, c]
    exact inv.client move.1

/-! ### A handler that sends -/

/-- The steps that a handler which is sending has left, at most. -/
def stepsLeft (binary : Bytes → Bytes) (p : Handler) : ℕ :=
  let size := match request p.stream p.c with
    | .animal lAnimal => (binary lAnimal).length
    | .empty | .err => 0
  match p.pc with
  | .read pos => 2 * (size - pos) + 3
  | .write pos _ => 2 * (size - pos) + 4
  | .semPost => 2
  | .close => 1
  | _ => 0

/-- A handler whose compiler has succeeded is never held up. -/
theorem procStep_goes {s : Shared} {p : Handler} (own : Own binary p) (file : FileOk binary s p) (alive : p.pc ≠ .killed)
    (compiled : p.lComp = some 0) :
    p.pc = .returned ∨ ∃ s' p', procStep binary s p .go = some (s', p') ∧ p'.lComp = some 0 ∧
      stepsLeft binary p' < stepsLeft binary p := by
  cases here : p.pc with
  | returned => exact .inl rfl
  | killed => exact absurd here alive
  | readLine | writeErr | semWait | compile =>
    simp only [Own, here, compiled] at own
    cases own.1
  | writeFailed =>
    simp only [Own, here, compiled] at own
    obtain ⟨⟨status, same, bad⟩, -⟩ := own
    exact absurd (Option.some.inj same).symm bad
  | semPost =>
    have moved : procStep binary s p .go = some ({ s with sem := s.sem + 1 }, { p with pc := .close }) := by
      simp only [procStep, here]
    exact .inr ⟨_, _, moved, compiled, by simp [stepsLeft, here]⟩
  | close =>
    have moved : procStep binary s p .go = some (s, { p with pc := .returned }) := by
      simp only [procStep, here]
    exact .inr ⟨_, _, moved, compiled, by simp [stepsLeft, here]⟩
  | write pos buf =>
    have moved : procStep binary s p .go = some (s, { p with pc := .read pos, output := p.output ++ buf }) := by
      simp only [procStep, here]
    exact .inr ⟨_, _, moved, compiled, by simp [stepsLeft, here]⟩
  | read pos =>
    simp only [Own, here] at own
    simp only [FileOk, here] at file
    have next := sentTo_read own file
    generalize bufIs : (s.animal.drop pos).take SEND_BUF = buf at next
    have moved : procStep binary s p .go =
        some (s, { p with pc := if buf = [] then .semPost else .write (pos + buf.length) buf }) := by
      simp only [procStep, here, bufIs]
    refine .inr ⟨_, _, moved, compiled, ?_⟩
    obtain ⟨-, lAnimal, asked, inside, -⟩ := own
    by_cases empty : buf = []
    · simp [stepsLeft, here, empty]
    · rw [if_neg empty] at next
      obtain ⟨-, same, asked', further, -⟩ := next
      have more : 0 < buf.length := List.length_pos_of_ne_nil empty
      obtain rfl : lAnimal = same := Request.animal.inj (asked.symm.trans asked')
      simp only [stepsLeft, here, asked, if_neg empty]
      omega

/-- While no client hangs up, no semaphore is lost, and a handler that is killed has not compiled. -/
structure Held (s : Server ι) : Prop where
  one : (s.shared.sem : ℤ) + total weight s.pc = 1
  killed : ∀ i, (s.pc i).pc = .killed → (s.pc i).lComp = none

omit [DecidableEq ι] in
theorem start_held (file : Bytes) (clients : ι → Bytes × UInt8) : Held (start file clients) where
  one := by
    have outside : total weight (start file clients).pc = 0 := total_eq_zero fun i => if_neg Bool.false_ne_true
    rw [outside]
    rfl
  killed := fun _ _ => rfl

/-- A handler that is killed before it has taken the semaphore has not compiled. -/
theorem procStep_killed {s s' : Shared} {p p' : Handler} {choice : Choice} (own : Own binary p)
    (taken : procStep binary s p choice = some (s', p')) (stays : p.pc.between = true → choice ≠ .hangup)
    (killed : p'.pc = .killed) : p'.lComp = none := by
  cases procStep_executes taken with
  | refused here =>
    simp only [Own, here] at own
    exact own.1
  | lost here =>
    have between : p.pc.between = true := by rcases here with here | ⟨pos, buf, here⟩ <;> rw [here] <;> rfl
    exact absurd (procStep_lost taken between killed) (stays between)
  | readLine here => cases asked : request p.stream p.c <;> rw [asked] at killed <;> cases killed
  | compiles lAnimal file here =>
    rw [here] at killed
    cases killed
  | _ => cases killed

theorem step_held {move : ι × Choice} (inv : Invariant binary clients s) (held : Held s) (stays : Stays s move)
    (taken : step (procStep binary) s move = some t) : Held t := by
  obtain ⟨shared, p, moved, rfl⟩ := step_cases taken
  have conserved := procStep_conserves moved stays
  have others := total_update weight s.pc move.1 p
  have before := held.one
  refine ⟨by dsimp only; omega, ?_⟩
  exact forall_update (P := fun _ (p : Handler) => p.pc = .killed → p.lComp = none) (fun j _ => held.killed j)
    (procStep_killed (inv.own move.1) moved stays)

/-- By its own steps it returns, with the whole file sent. -/
theorem sends_all (inv : Invariant binary clients s) (held : Held s) {i : ι} (compiled : (s.pc i).lComp = some 0) :
    ∃ t, Reachable (fun s (_ : Unit) => step (procStep binary) s (i, .go)) s t ∧ (t.pc i).pc = .returned ∧
      (t.pc i).lComp = some 0 ∧ Invariant binary clients t := by
  let Sends (s : Server ι) : Prop := (Invariant binary clients s ∧ Held s) ∧ (s.pc i).lComp = some 0
  have goes : ∀ s : Server ι, Sends s →
      (s.pc i).pc = .returned ∨ ∃ t, step (procStep binary) s (i, .go) = some t ∧ (t.pc i).lComp = some 0 ∧
        stepsLeft binary (t.pc i) < stepsLeft binary (s.pc i) := by
    rintro s ⟨⟨inv, held⟩, compiled⟩
    have alive : (s.pc i).pc ≠ .killed := by
      intro killed
      rw [held.killed i killed] at compiled
      cases compiled
    rcases procStep_goes (inv.own i) (inv.file i) alive compiled with back | ⟨shared, p, moved, still, fewer⟩
    · exact .inl back
    · refine .inr ⟨_, by rw [step, moved]; rfl, ?_⟩
      simp only [Function.update_self]
      exact ⟨still, fewer⟩
  have stays : ∀ s (a : Unit) t, Sends s → step (procStep binary) s (i, .go) = some t →
      Sends t ∧ stepsLeft binary (t.pc i) < stepsLeft binary (s.pc i) := by
    intro s _ t sends taken
    rcases goes s sends with back | ⟨u, moved, still, fewer⟩
    · simp [step, procStep, back] at taken
    · obtain rfl := Option.some.inj (moved.symm.trans taken)
      obtain ⟨⟨inv, held⟩, -⟩ := sends
      exact ⟨⟨⟨step_invariant inv taken, step_held inv held (fun _ => Choice.noConfusion) taken⟩, still⟩, fewer⟩
  have first : Sends s := ⟨⟨inv, held⟩, compiled⟩
  obtain ⟨t, reached, stopped⟩ := exists_terminal (fun s a t sends taken => (stays s a t sends taken).1)
    (fun s a t sends taken => (stays s a t sends taken).2) first
  have last : Sends t := reachable_kept (fun s a t sends taken => (stays s a t sends taken).1) first reached
  rcases goes t last with back | ⟨u, moved, -⟩
  · exact ⟨t, reached, back, last.2, last.1.1⟩
  · rw [stopped ()] at moved
    cases moved

/-- The semaphore and the handlers between `sem_wait` and `sem_post` are one together; a
    client gets its file, the message or the error as `Received` says; and a handler whose
    compilation has succeeded can by its own steps send the whole file and return. -/
structure Served (binary : Bytes → Bytes) (clients : ι → Bytes × UInt8) (s : Server ι) : Prop where
  one : s.shared.sem + (Finset.univ.filter fun i => (s.pc i).pc.between = true).card = 1
  received : ∀ i, Received binary (clients i) (s.pc i)
  whole : ∀ i, (s.pc i).lComp = some 0 → ∃ t,
    Reachable (fun s (_ : Unit) => step (procStep binary) s (i, .go)) s t ∧ (t.pc i).pc = .returned ∧
      ∃ lAnimal, request (clients i).1 (clients i).2 = .animal lAnimal ∧ (t.pc i).output = binary lAnimal

theorem served (inv : Invariant binary clients s) (held : Held s) : Served binary clients s := by
  have gets : ∀ t : Server ι, Invariant binary clients t → ∀ i, Received binary (clients i) (t.pc i) := by
    intro t inv i
    have own := AnimalServer.received (inv.own i)
    rwa [(inv.client i).1, (inv.client i).2] at own
  refine ⟨?_, gets s inv, ?_⟩
  · have one := held.one
    have count : total weight s.pc = (Finset.univ.filter fun i => (s.pc i).pc.between = true).card :=
      total_eq_card (fun p : Handler => p.pc.between = true) s.pc
    omega
  · intro i compiled
    obtain ⟨t, onward, back, still, invT⟩ := sends_all inv held compiled
    obtain ⟨lAnimal, asked, -, whole⟩ := (gets t invT i).file still
    exact ⟨t, onward, back, lAnimal, asked, whole back⟩

/-- With any number of clients, while no client hangs up on a handler that has taken the semaphore. -/
theorem clients_served {file : Bytes} {moves : List (ι × Choice)}
    (stay : AllSteps (step (procStep binary)) Stays (start file clients) moves) :
    AllStates (step (procStep binary)) (Served binary clients) (start file clients) moves := by
  refine allStates_mono (P := fun s => Invariant binary clients s ∧ Held s) (fun s both => served both.1 both.2) ?_
  refine allStates_of ?_ ⟨start_invariant binary file clients, start_held file clients⟩ stay
  rintro s move t ⟨inv, held⟩ stays taken
  exact ⟨step_invariant inv taken, step_held inv held stays taken⟩

end

/-- Two clients, for a cat and for a dog. -/
def sampleClients (dog : Bool) : Bytes × UInt8 :=
  (ascii ['C', 'O', 'M', 'P', 'I', 'L', 'E', ' '] ++
    (if dog then ascii ['D', 'O', 'G', '\n'] else ascii ['C', 'A', 'T', '\n']), 0)

/-- The cat is compiled while the other client waits, and its file is read. -/
def sampleMoves : List (Bool × Choice) :=
  [(false, .go), (true, .go), (false, .go), (false, .writes [1]), (false, .exits 0 []), (false, .go)]

theorem clients_served_sample :
    ∃ s : Server Bool, exec (step (procStep fun lAnimal => lAnimal ++ lAnimal)) (start [] sampleClients)
        (sampleMoves ++ [(false, .go)]) = some s ∧
      (s.pc false).output = ascii ['C', 'A', 'T', 'C', 'A', 'T'] ∧ Served (fun lAnimal => lAnimal ++ lAnimal) sampleClients s := by
  have ends : (exec (step (procStep fun lAnimal => lAnimal ++ lAnimal)) (start [] sampleClients)
      (sampleMoves ++ [(false, .go)])).map (fun s => (s.pc false).output) = some (ascii ['C', 'A', 'T', 'C', 'A', 'T']) := by decide +kernel
  obtain ⟨s, run, output⟩ := Option.map_eq_some_iff.mp ends
  exact ⟨s, run, output, allStates_last (clients_served (by decide +kernel)) run⟩

/-- The client of the cat hangs up before its file is written: the handler ends with the semaphore taken. -/
theorem client_gone :
    ¬ ∀ (file : Bytes) (moves : List (Bool × Choice)),
      AllStates (step (procStep fun lAnimal => lAnimal ++ lAnimal)) (Served (fun lAnimal => lAnimal ++ lAnimal) sampleClients)
        (start file sampleClients) moves := by
  intro always
  have ends : (exec (step (procStep fun lAnimal => lAnimal ++ lAnimal)) (start [] sampleClients)
      (sampleMoves ++ [(false, .hangup)])).map
        (fun s => s.shared.sem + (Finset.univ.filter fun i => (s.pc i).pc.between = true).card) = some 0 := by decide +kernel
  obtain ⟨s, run, none'⟩ := Option.map_eq_some_iff.mp ends
  have one := (allStates_last (always [] _) run).one
  omega

end OsyProg.AnimalServer
