import OsyProg.Bytes
import OsyProg.Interleaving
import OsyProg.PacedSending

/-!
The server of `cv_skuska/animal2`: a process for each client, which takes the semaphore,
has the animal compiled and sends the file. Unlike `animal_done` it does not give the
semaphore back in all cases: after a compilation that has failed the process ends, and
sending a file that is smaller than the buffer divides by zero (`PacedSending.tout`), or
is ended by the signal of a client that has hung up. While nothing of that happens
(`Released`), the semaphore and the processes between its two calls are one in every
state, and each process that has ended has given back what it took
(`semaphore_given_back`).
-/
namespace OsyProg.CompileLock
open OsyProg.Bytes OsyProg.Interleaving OsyProg.Runs OsyProg.PacedSending

/-- The semaphore and the file `animal`, which may not exist. -/
structure Shared where
  sem : ℕ
  animal : Option Bytes
  deriving DecidableEq

/-- The statements of `client_handle` and `send_data`. -/
inductive Pc
  | read                                -- read(scl, buf, sizeof(buf)) and strncmp
  | print (buf : Bytes)                 -- write(STDOUT_FILENO, buf, n)
  | semWait                             -- sem_wait(sem)
  | compile                             -- from fork to waitpid
  | openFile                            -- open("animal", ..), lseek and the division
  | readFile (pos : ℕ)                  -- read(f, file_buf, ..), at this offset
  | write (pos : ℕ) (buf : Bytes)       -- write(scl, file_buf, n) and usleep
  | semPost                             -- sem_post(sem)
  | close                               -- close(l_sock_client) and the end of the process
  | ended
  deriving DecidableEq

/-- A client process: where it is, what its client was sent, and how often it has called
    `sem_wait` and `sem_post`. -/
structure Handler where
  pc : Pc
  output : Bytes
  waits : ℕ
  posts : ℕ
  deriving DecidableEq

/-- How a statement goes on: what the client has sent, what the compiler writes and how
    it ends, a `fork` that fails, and a client that has hung up. -/
inductive Choice
  | go
  | request (buf : Bytes)
  | writes (file : Option Bytes)
  | exits (status : UInt8) (file : Option Bytes)
  | noFork
  | hangup
  deriving DecidableEq

/-- The size that `lseek` gives; it is -1 when the file could not be opened. -/
def fileSize (animal : Option Bytes) : ℤ := animal.elim (-1) fun file => file.length

/-- Between `sem_wait` and `sem_post`. -/
def Pc.between : Pc → Bool
  | .compile | .openFile | .readFile _ | .write .. | .semPost => true
  | .read | .print _ | .semWait | .close | .ended => false

section
variable (behind : Handler → Handler)

/-- A statement of a process; `behind` is what `buf[n] = 0` does to its variables when it
    stores behind the buffer. -/
def procStep (s : Shared) (p : Handler) (choice : Choice) : Option (Shared × Handler) :=
  match p.pc, choice with
  | .read, .request buf =>
    if buf.length ≤ 256 then
      some (s, { (if buf.length = 256 then behind p else p) with pc := if buf.take 7 = ascii ['C', 'O', 'M', 'P', 'I', 'L', 'E'] then .semWait else .print buf })
    else none
  | .print _, .go => some (s, { p with pc := .close })
  | .semWait, .go => if 0 < s.sem then some ({ s with sem := s.sem - 1 }, { p with pc := .compile, waits := p.waits + 1 }) else none
  | .compile, .writes file => some ({ s with animal := file }, p)
  | .compile, .exits status file => some ({ s with animal := file }, { p with pc := if status ≠ 0 then .ended else .openFile })
  | .compile, .noFork => some (s, { p with pc := .openFile })
  | .openFile, .go => some (s, { p with pc := if tout 5000 4096 (asInt (fileSize s.animal)) = none then .ended else .readFile 0 })
  | .readFile pos, .go =>
    let buf := ((s.animal.getD []).drop pos).take 4096
    some (s, { p with pc := if buf = [] then .semPost else .write (pos + buf.length) buf })
  | .write pos buf, .go => some (s, { p with pc := .readFile pos, output := p.output ++ buf })
  | .write .., .hangup => some (s, { p with pc := .ended })
  | .semPost, .go => some ({ s with sem := s.sem + 1 }, { p with pc := .close, posts := p.posts + 1 })
  | .close, .go => some (s, { p with pc := .ended })
  | _, _ => none

end

/-- Behind the buffer is none of these variables. -/
def Harmless (behind : Handler → Handler) : Prop := ∀ p, behind p = p

/-- No process has done anything yet. -/
def start {ι : Type} (animal : Option Bytes) : System Shared Handler ι :=
  { shared := { sem := 1, animal }, pc := fun _ => { pc := .read, output := [], waits := 0, posts := 0 } }

/-- The steps that do not end a process between the two calls: the compiler exits with
    zero, the size of the file, as an `int`, is none of those below a buffer, and the
    client is there when it is written to. -/
def Releases (s : Shared) (p : Handler) (choice : Choice) : Prop :=
  match p.pc, choice with
  | .compile, .exits status _ => status = 0
  | .openFile, .go => asInt (fileSize s.animal) < 0 ∨ 4096 ≤ asInt (fileSize s.animal)
  | .write .., .hangup => False
  | _, _ => True

instance (s : Shared) (p : Handler) (choice : Choice) : Decidable (Releases s p choice) := by
  unfold Releases
  split <;> infer_instance

def Released {ι : Type} (s : System Shared Handler ι) (move : ι × Choice) : Prop := Releases s.shared (s.pc move.1) move.2

instance {ι : Type} (s : System Shared Handler ι) (move : ι × Choice) : Decidable (Released s move) :=
  inferInstanceAs (Decidable (Releases ..))

/-! ### A step of one process -/

def weight (p : Handler) : ℤ := if p.pc.between then 1 else 0

/-- How often a process has made the two calls when it is at a statement. -/
def Own (p : Handler) : Prop :=
  match p.pc with
  | .read | .print _ | .semWait => p.waits = 0 ∧ p.posts = 0
  | .compile | .openFile | .readFile _ | .write .. | .semPost => p.waits = 1 ∧ p.posts = 0
  | .close | .ended => p.posts = p.waits ∧ p.waits ≤ 1

/-- The division is by zero for the sizes below a buffer only. -/
theorem tout_of_released {size : ℤ} (fine : asInt size < 0 ∨ 4096 ≤ asInt size) : tout 5000 4096 (asInt size) ≠ none := by
  have low : -2 ^ 31 ≤ asInt size := by
    rw [asInt, Int.bmod_def]
    split <;> omega
  have high : asInt size < 2 ^ 31 := by
    rw [asInt, Int.bmod_def]
    split <;> omega
  have whole : asSize (asInt size) / 4096 ≠ 0 := by
    rw [asSize]
    omega
  rw [tout, if_neg whole]
  exact Option.some_ne_none _

variable {behind : Handler → Handler} {s s' : Shared} {p p' : Handler} {choice : Choice}

/-- A step that ends no process between the two calls keeps the semaphore and the process
    together one, and counts the calls. -/
theorem procStep_kept (harmless : Harmless behind) (taken : procStep behind s p choice = some (s', p')) (fine : Releases s p choice) (own : Own p) :
    (s'.sem : ℤ) + weight p' = s.sem + weight p ∧ Own p' := by
  cases here : p.pc <;> cases choice <;> simp only [procStep, here] at taken <;> simp only [Own, here] at own
  case read.request buf =>
    rw [harmless, ite_self] at taken
    obtain ⟨-, ⟨⟩⟩ := Option.ite_none_right_eq_some.mp taken
    by_cases compile : buf.take 7 = ascii ['C', 'O', 'M', 'P', 'I', 'L', 'E'] <;> simp [weight, Own, here, compile, Pc.between, own]
  case semWait.go =>
    obtain ⟨positive, ⟨⟩⟩ := Option.ite_none_right_eq_some.mp taken
    simp only [weight, here, Pc.between, Own, own, if_true, Bool.false_eq_true, if_false, and_self, and_true]
    omega
  case compile.exits status file =>
    cases taken
    simp only [Releases, here] at fine
    simp [weight, Own, here, fine, Pc.between, own]
  case openFile.go =>
    cases taken
    simp only [Releases, here] at fine
    simp [weight, Own, here, tout_of_released fine, Pc.between, own]
  case readFile.go pos =>
    cases taken
    split <;> simp [weight, Own, here, Pc.between, own]
  case write.hangup pos buf =>
    simp only [Releases, here] at fine
  all_goals cases taken
  all_goals simp [weight, Own, here, Pc.between, own]

/-! ### Runs -/

section
variable {ι : Type} [Fintype ι] [DecidableEq ι]

/-- The semaphore and the processes between its calls are one. -/
structure Invariant (s : System Shared Handler ι) : Prop where
  one : (s.shared.sem : ℤ) + total weight s.pc = 1
  own : ∀ i, Own (s.pc i)

omit [DecidableEq ι] in
theorem invariant_start (animal : Option Bytes) : Invariant (start animal : System Shared Handler ι) where
  one := by
    have none : total weight (start animal : System Shared Handler ι).pc = 0 := total_eq_zero fun _ => rfl
    rw [none]
    rfl
  own := fun _ => ⟨rfl, rfl⟩

theorem step_kept (harmless : Harmless behind) (s : System Shared Handler ι) (move : ι × Choice)
    (t : System Shared Handler ι) (inv : Invariant s) (fine : Released s move)
    (taken : step (procStep behind) s move = some t) : Invariant t := by
  obtain ⟨shared, p, own, rfl⟩ := step_cases taken
  obtain ⟨one, its⟩ := procStep_kept harmless own fine (inv.own move.1)
  refine ⟨?_, forall_update (fun j _ => inv.own j) its⟩
  have moved := total_update weight s.pc move.1 p
  have before := inv.one
  dsimp only
  omega

/-- What is asked of every state: the semaphore and the number of processes between the
    two calls are 1, a process that has ended has called `sem_post` as often as
    `sem_wait`, at most once, and one that waits can go on when no process is between. -/
structure GivenBack (behind : Handler → Handler) (s : System Shared Handler ι) : Prop where
  one : s.shared.sem + (Finset.univ.filter fun i => (s.pc i).pc.between = true).card = 1
  balanced : ∀ i, (s.pc i).pc = .ended → (s.pc i).posts = (s.pc i).waits ∧ (s.pc i).waits ≤ 1
  goesOn : ∀ i, (s.pc i).pc = .semWait → (∀ j, (s.pc j).pc.between = false) → (step (procStep behind) s (i, .go)).isSome

theorem givenBack_of_invariant (s : System Shared Handler ι) (inv : Invariant s) : GivenBack behind s where
  one := by
    have count := total_eq_card (fun p : Handler => p.pc.between = true) s.pc
    have one := inv.one
    have weights : total weight s.pc = ((Finset.univ.filter fun i => (s.pc i).pc.between = true).card : ℤ) := count
    omega
  balanced := by
    intro i ended
    have own := inv.own i
    rw [Own, ended] at own
    exact own
  goesOn := by
    intro i waits none
    have zero : total weight s.pc = 0 := total_eq_zero fun j => by rw [weight, none j]; rfl
    have positive : 0 < s.shared.sem := by
      have one := inv.one
      omega
    simp [step, procStep, waits, positive]

/-- While no process ends between the two calls, the semaphore is given back. -/
theorem semaphore_given_back (harmless : Harmless behind) (animal : Option Bytes) {actions : List (ι × Choice)}
    (fine : AllSteps (step (procStep behind)) Released (start animal) actions) :
    AllStates (step (procStep behind)) (GivenBack behind) (start animal) actions :=
  allStates_mono givenBack_of_invariant (allStates_of (step_kept harmless) (invariant_start animal) fine)

end

/-- A client that asks for an animal, and its process behind `sem_wait`. -/
def asks (i : Bool) : List (Bool × Choice) :=
  [(i, .request (ascii ['C', 'O', 'M', 'P', 'I', 'L', 'E', ' ', 'D', 'O', 'G'])), (i, .go)]

/-- Two clients, one after the other; the compiler leaves no file for the first. -/
theorem semaphore_given_back_sample :
    AllStates (step (procStep id)) (GivenBack id) (start none) (asks false ++ [(false, .exits 0 none), (false, .go), (false, .go), (false, .go), (false, .go)] ++ asks true) :=
  semaphore_given_back (fun _ => rfl) none (by decide +kernel)

/-- A compilation that has failed: the process has ended, and the semaphore is 0. -/
theorem semaphore_kept : ¬ AllStates (step (procStep id)) (GivenBack id) (start none) (asks false ++ [(false, .exits 1 none)]) := by
  intro all
  have final : (exec (step (procStep id)) (start none) (asks false ++ [(false, .exits 1 none)])).map (fun t => t.pc false) =
      some { pc := .ended, output := [], waits := 1, posts := 0 } := by decide +kernel
  obtain ⟨t, run, ended⟩ := Option.map_eq_some_iff.mp final
  have balanced := ((allStates_last all run).balanced false (by rw [ended])).1
  rw [ended] at balanced
  exact absurd balanced (by decide)

end OsyProg.CompileLock
