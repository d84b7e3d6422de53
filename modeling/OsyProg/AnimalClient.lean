import OsyProg.AnimalServer
import OsyProg.InputLines
import OsyProg.PartialWrites

/-!
The client of `animal_done/socket_cl.cpp`, from its request to the run of the file that it
has got. That the compilation has failed it is told in the place of the file, and it only
looks at what the first call of `read` has got, which may be less than the message:
`client_iff` says for which outcomes and reads it does the right thing. What the server
sends it is one of these outcomes (`served_reply`).
-/
namespace OsyProg.AnimalClient
open OsyProg.Bytes OsyProg.CStrings OsyProg.InputLines OsyProg.PartialWrites OsyProg.AnimalServer
open OsyProg.Interleaving OsyProg.Runs

/-- `l_req`, after `snprintf`. -/
def lReq (lAnimal : Bytes) : Bytes :=
  (ascii ['C', 'O', 'M', 'P', 'I', 'L', 'E', ' '] ++ lAnimal ++ [10]).take 127

/-- The server takes each request that the client makes for what it is. -/
theorem request_lReq {lAnimal : Bytes} (ok : isAnimalOk lAnimal = true) (c : UInt8) :
    request (lReq lAnimal) c = .animal lAnimal := by
  simp only [isAnimalOk, Bool.or_eq_true, decide_eq_true_eq] at ok
  rcases ok with ((rfl | rfl) | rfl) | rfl <;> rfl

/-! ### What the server sends -/

/-- The text at the beginning of a failure reply. -/
def marker : Bytes := ascii ['C', 'O', 'M', 'P', 'I', 'L', 'A', 'T', 'I', 'O', 'N', '_', 'F', 'A', 'I', 'L', 'E', 'D']

/-- A compiled file, which does not begin as a failure reply does. -/
structure Binary where
  bytes : Bytes
  unmarked : ¬ marker <+: bytes

/-- How a request ends: `sem_wait` fails; the compiler exits with 0; or it does not, and then
    `waitpid` gives a status and the file may hold anything. -/
inductive Outcome
  | semFails
  | compiled (binary : Binary)
  | failed (status : ℕ) (file : Bytes)

def wexitstatus (status : ℕ) : ℕ := status / 256 % 256

/-- What `send_file_slow` writes. -/
def sendFileSlow (file : Bytes) : Bytes :=
  if file.take SEND_BUF = [] then [] else file.take SEND_BUF ++ sendFileSlow (file.drop SEND_BUF)
termination_by file.length
decreasing_by
  rename_i more
  have some_ := List.length_pos_iff.mpr fun none : file = [] => more (congrArg (List.take SEND_BUF) none)
  rw [List.length_drop, SEND_BUF]
  omega

/-- All that `client_handle` writes after such an end. A compiler that a signal has ended, or
    that was not started, leaves a status that may pass for success. -/
def reply : Outcome → Bytes
  | .semFails => []
  | .compiled binary => sendFileSlow binary.bytes
  | .failed status file => if wexitstatus status ≠ 0 then failedText else sendFileSlow file

theorem sendFileSlow_eq (file : Bytes) : sendFileSlow file = file := by
  induction length : file.length using Nat.strongRecOn generalizing file with
  | ind n ih =>
    rw [sendFileSlow]
    split
    case isTrue empty =>
      have none : file = [] := by simpa [SEND_BUF] using empty
      exact none.symm
    case isFalse more =>
      have some_ := List.length_pos_iff.mpr fun none : file = [] => more (congrArg (List.take SEND_BUF) none)
      have shorter : (file.drop SEND_BUF).length < n := by rw [List.length_drop, SEND_BUF]; omega
      rw [ih _ shorter (file.drop SEND_BUF) rfl, List.take_append_drop]

/-! ### The client -/

/-- A call of `read`, and what the calls of `write` make of its bytes: the one with number `k`
    accepts `accepts k + 1` bytes, or all that are left. -/
structure Read where
  piece : Piece 4096
  accepts : ℕ → ℕ

/-- The loop that writes what was read; each call writes a byte at least. -/
def writeOut (r : Read) : Option Bytes :=
  (offer r.piece.bytes (fun k => .takes (r.accepts k)) r.piece.bytes.length).map Prod.snd

/-- How the client ends: it has removed the file and returned, or it runs the file (`chmod`,
    `fork` and `execl`). -/
inductive End
  | unlinks
  | runs (file : Bytes)
  deriving DecidableEq

/-- The test of the bytes that the first call of `read` has got. -/
def marked (lBuf : Bytes) : Prop := marker.length ≤ lBuf.length ∧ lBuf.take marker.length = marker

instance : DecidablePred marked := fun lBuf => by
  unfold marked
  infer_instance

/-- The loop over the calls of `read`, with `first` and the file; the list ends at the end of
    the stream. -/
def receive : Bool → Bytes → List Read → Option End
  | _, file, [] => some (.runs file)
  | first, file, r :: later =>
    if first ∧ marked r.piece.bytes then some .unlinks
    else (writeOut r).bind fun out => receive false (file ++ out) later

def client (reads : List Read) : Option End := receive true [] reads

/-- What the calls of `read` have got. -/
def received (reads : List Read) : Bytes := stream (reads.map Read.piece)

/-- The client runs the received file when the server has sent a compiled one, and only then;
    the file is what the server has sent; and after a failure reply nothing is left of it. -/
structure Correct (outcome : Outcome) (reads : List Read) : Prop where
  runs : (∃ file, client reads = some (.runs file)) ↔ ∃ binary, outcome = .compiled binary
  same : ∀ file, client reads = some (.runs file) → file = reply outcome
  failure : ∀ status file, outcome = .failed status file → wexitstatus status ≠ 0 → client reads = some .unlinks

section
variable {reads later : List Read} {r : Read} {file : Bytes}

theorem writeOut_eq (r : Read) : writeOut r = some r.piece.bytes := by
  rw [writeOut, offer_all, Option.map_some]

theorem marked_iff (lBuf : Bytes) : marked lBuf ↔ marker <+: lBuf := by
  constructor
  · rintro ⟨-, same⟩
    rw [← same]
    exact List.take_prefix _ _
  · intro front
    exact ⟨front.length_le, (List.prefix_iff_eq_take.mp front).symm⟩

theorem received_cons (r : Read) (later : List Read) : received (r :: later) = r.piece.bytes ++ received later := by
  rw [received, List.map_cons, stream, List.flatMap_cons, received, stream]

/-- After the first call of `read` everything is stored. -/
theorem receive_later (file : Bytes) (reads : List Read) : receive false file reads = some (.runs (file ++ received reads)) := by
  induction reads generalizing file with
  | nil => simp [receive, received, stream]
  | cons r later ih =>
    rw [receive, if_neg (by simp), writeOut_eq, Option.bind_some, ih, received_cons, List.append_assoc]

/-- The client runs what it has received, unless the first call of `read` has got the marker. -/
theorem client_cons (r : Read) (later : List Read) :
    client (r :: later) = some (if marker <+: r.piece.bytes then .unlinks else .runs (received (r :: later))) := by
  rw [client, receive, writeOut_eq, Option.bind_some, receive_later, List.nil_append, ← received_cons]
  by_cases front : marker <+: r.piece.bytes
  · rw [if_pos ⟨rfl, (marked_iff _).mpr front⟩, if_pos front]
  · rw [if_neg fun both => front ((marked_iff _).mp both.2), if_neg front]

/-- A part that is not shorter than the marker shows whether the whole begins with it. -/
theorem marker_iff {part more : Bytes} (long : marker.length ≤ part.length) : marker <+: part ++ more ↔ marker <+: part := by
  constructor
  · intro front
    exact List.prefix_of_prefix_length_le front (List.prefix_append part more) long
  · intro front
    exact front.trans (List.prefix_append part more)

end

/-! ### When the client is right -/

section
variable {outcome : Outcome} {reads : List Read}

/-- The server has sent a compiled file, or the first call of `read` gets the whole marker of
    its reply. -/
def Told (outcome : Outcome) (reads : List Read) : Prop :=
  (∃ binary, outcome = .compiled binary) ∨
    marker <+: reply outcome ∧ ∃ r later, reads = r :: later ∧ marker.length ≤ r.piece.bytes.length

theorem marker_failedText : marker <+: failedText := ⟨[10], rfl⟩

/-- A client that runs what it has received is right when that is a compiled file. -/
theorem correct_of_runs (cut : received reads = reply outcome) (ends : client reads = some (.runs (received reads))) :
    Correct outcome reads ↔ ∃ binary, outcome = .compiled binary := by
  constructor
  · intro correct
    exact correct.runs.mp ⟨_, ends⟩
  · rintro ⟨binary, rfl⟩
    refine ⟨⟨fun _ => ⟨binary, rfl⟩, fun _ => ⟨_, ends⟩⟩, ?_, ?_⟩
    · intro file runs
      rw [ends] at runs
      cases runs
      exact cut
    · intro status file same
      cases same

/-- A client that has removed the file is right when there was no compiled file. -/
theorem correct_of_unlinks (ends : client reads = some .unlinks) : Correct outcome reads ↔ ∀ binary, outcome ≠ .compiled binary := by
  have none : ¬ ∃ file, client reads = some (.runs file) := by
    rintro ⟨file, runs⟩
    rw [ends] at runs
    cases runs
  constructor
  · intro correct binary compiled
    exact none (correct.runs.mpr ⟨binary, compiled⟩)
  · intro other
    refine ⟨?_, ?_, ?_⟩
    · exact iff_of_false none fun ⟨binary, compiled⟩ => other binary compiled
    · intro file runs
      exact absurd ⟨file, runs⟩ none
    · intro status file _ _
      exact ends

/-- For every outcome and every way in which the reply is cut into reads. -/
theorem client_iff (cut : received reads = reply outcome) : Correct outcome reads ↔ Told outcome reads := by
  cases reads with
  | nil =>
    rw [correct_of_runs cut rfl]
    constructor
    · exact .inl
    · rintro (compiled | ⟨-, r, later, none, -⟩)
      · exact compiled
      · cases none
  | cons r later =>
    have ends := client_cons r later
    by_cases front : marker <+: r.piece.bytes
    · rw [if_pos front] at ends
      have marked : marker <+: reply outcome := by
        rw [← cut, received_cons]
        exact front.trans (List.prefix_append ..)
      rw [correct_of_unlinks ends]
      constructor
      · intro _
        exact .inr ⟨marked, r, later, rfl, front.length_le⟩
      · -- A compiled file does not begin as what was read does.
        rintro - binary rfl
        rw [reply, sendFileSlow_eq] at marked
        exact binary.unmarked marked
    · rw [if_neg front] at ends
      rw [correct_of_runs cut ends]
      constructor
      · exact .inl
      · rintro (compiled | ⟨marked, r', later', same, long⟩)
        · exact compiled
        · cases same
          rw [← cut, received_cons, marker_iff long] at marked
          exact absurd marked front

end

/-- The whole message in one read. -/
def message : Read := { piece := ⟨failedText, by decide, by decide⟩, accepts := fun _ => 0 }

theorem client_iff_sample : Correct (.failed 256 []) [message] :=
  (client_iff rfl).mpr (.inr ⟨marker_failedText, message, [], rfl, by decide⟩)

/-- The first read gets one byte of the message, and the client runs the message. -/
theorem client_runs_message : ¬ ∀ outcome reads, received reads = reply outcome → Correct outcome reads := by
  intro always
  let first : Read := { piece := ⟨ascii ['C'], by decide, by decide⟩, accepts := fun _ => 0 }
  let second : Read := { piece := ⟨failedText.drop 1, by decide, by decide⟩, accepts := fun _ => 0 }
  have correct := always (.failed 256 []) [first, second] rfl
  have removed := correct.failure 256 [] rfl (by decide)
  rw [client_cons] at removed
  exact absurd removed (by decide)

/-! ### The server of the client -/

section
variable {ι : Type} [DecidableEq ι] [Fintype ι] {binary : Bytes → Bytes} {clients : ι → Bytes × UInt8} {s : Server ι}

/-- With any number of clients: what a handler that has returned has written is the reply to
    one of the outcomes, and it is a compiled file exactly when the compiler has exited with 0. -/
theorem served_reply {file lAnimal : Bytes} {i : ι} (reached : Reachable (step (procStep binary)) (start file clients) s)
    (ok : isAnimalOk lAnimal = true) (asks : (clients i).1 = lReq lAnimal) (unmarked : ¬ marker <+: binary lAnimal)
    (back : (s.pc i).pc = .returned) :
    ∃ outcome, (s.pc i).output = reply outcome ∧ ((∃ b, outcome = .compiled b) ↔ (s.pc i).lComp = some 0) := by
  have inv : Invariant binary clients s :=
    reachable_kept (fun s move t inv taken => step_invariant inv taken) (start_invariant binary file clients) reached
  have asked : request (s.pc i).stream (s.pc i).c = .animal lAnimal := by
    rw [(inv.client i).1, asks]
    exact request_lReq ok _
  have answered := inv.own i
  rw [Own, back] at answered
  dsimp only at answered
  rw [Answered, asked] at answered
  cases comp : (s.pc i).lComp with
  | none =>
    rw [comp] at answered
    rcases answered with nothing | ⟨err, -⟩
    · exact ⟨.semFails, nothing, by simp⟩
    · cases err
  | some status =>
    rw [comp] at answered
    dsimp only at answered
    split at answered
    case isTrue zero =>
      obtain ⟨other, same, output⟩ := answered
      cases same
      refine ⟨.compiled ⟨binary lAnimal, unmarked⟩, ?_, by simp [zero]⟩
      rw [output, reply, sendFileSlow_eq]
    case isFalse bad =>
      have code : wexitstatus (status.toNat * 256) ≠ 0 := fun zero => bad (UInt8.toNat_inj.mp (by
        have below := status.toNat_lt
        rw [wexitstatus, Nat.mul_div_cancel _ (by decide)] at zero
        rw [Nat.mod_eq_of_lt below] at zero
        exact zero))
      refine ⟨.failed (status.toNat * 256) [], ?_, by simp [bad]⟩
      rw [answered, reply, if_pos code]

end

end OsyProg.AnimalClient
