import OsyProg.CStrings
import OsyProg.Lines
import OsyProg.Ring
import OsyProg.Runs
import Mathlib.Data.List.TakeWhile
import Mathlib.Tactic.SplitIfs

/-!
`cv_skuska/cv3_queue.cpp`: a producer that puts the lines of its input into a ring
buffer, and after the last one the line "quit", and a consumer that prints the lines
with their numbers until it takes a "quit". Both are threads, one statement a step. The
counter of the lines is an `int`.
-/
namespace OsyProg.LineQueue
open OsyProg.Bytes OsyProg.Lines OsyProg.Ring OsyProg.Runs
open OsyProg.CStrings (decimalInt decimalInt_natCast incInt)

def N : ℕ := 4
def MAX_STR : ℕ := 256
def MAX_MSG : ℕ := 8

/-- The statement of `producer` that comes next. The statements that put an item into the
    queue are there twice: for a line, and for the "quit" after the last one. -/
inductive ProducerPc
  | read                                        -- n = read(STDIN_FILENO, buf, sizeof(buf))
  | scan                                        -- for (int i = 0; i < n; i++)
  | waitEmpty (last : Bool)                     -- sem_wait(&empty)
  | waitMutex (last : Bool)                     -- sem_wait(&mutex)
  | copy (last : Bool)                          -- strncpy(queue[tail], line, line_len), strcpy(queue[tail], "quit")
  | advance (last : Bool)                       -- tail = (tail + 1) % N, line_len = 0
  | postMutex (last : Bool)                     -- sem_post(&mutex)
  | postFull (last : Bool)                      -- sem_post(&full)
  | ended
  deriving DecidableEq

/-- The statement of `consumer` that comes next. -/
inductive ConsumerPc
  | waitFull                                    -- sem_wait(&full)
  | waitMutex                                   -- sem_wait(&mutex)
  | look                                        -- if (strcmp(queue[head], "quit") == 0)
  | quitMutex                                   -- sem_post(&mutex)
  | quitEmpty                                   -- sem_post(&empty)
  | quitAdvance                                 -- head = (head + 1) % N
  | print                                       -- dprintf(STDOUT_FILENO, "C %d: %s\n", line_no, queue[head])
  | clear                                       -- queue[head][0] = 0
  | advance                                     -- head = (head + 1) % N
  | postMutex                                   -- sem_post(&mutex)
  | postEmpty                                   -- sem_post(&empty)
  | count                                       -- line_no++
  | ended
  deriving DecidableEq

/-- The queue and the semaphores, the threads with the variables of `producer`, what the
    reads will return, and what was printed. The last two fields are not in the code: all
    items put into the queue, and the number of those taken out. -/
structure State where
  buffer : ℕ → Bytes
  head : ℕ
  tail : ℕ
  lineNo : ℤ
  mutex : ℕ
  empty : ℕ
  full : ℕ
  producer : ProducerPc
  line : Bytes
  buf : Bytes
  input : List Bytes
  consumer : ConsumerPc
  output : Bytes
  items : List Bytes
  taken : ℕ

def quit : Bytes := ascii ['q', 'u', 'i', 't']

/-- `dprintf(STDOUT_FILENO, "C %d: %s\n", line_no, item)` -/
def shown (number : ℤ) (item : Bytes) : Bytes := ascii ['C', ' '] ++ decimalInt number ++ ascii [':', ' '] ++ item ++ [10]

/-- One statement of `producer`; none when it waits, has ended, or goes past the end of `line`. -/
def producerStep (s : State) : Option State :=
  match s.producer with
  | .read =>
    match s.input with
    | [] => some { s with producer := .waitEmpty true }
    | piece :: rest =>
      -- it returns some bytes, no more than it asked for
      if piece ≠ [] ∧ piece.length ≤ MAX_MSG then some { s with producer := .scan, buf := piece, input := rest }
      else none
  | .scan =>
    match s.buf with
    | [] => some { s with producer := .read }
    | b :: rest =>
      if b = 10 then some { s with producer := .waitEmpty false, buf := rest }
      else if s.line.length < MAX_STR then some { s with line := s.line ++ [b], buf := rest }
      else none
  | .waitEmpty last => if 0 < s.empty then some { s with producer := .waitMutex last, empty := s.empty - 1 } else none
  | .waitMutex last => if 0 < s.mutex then some { s with producer := .copy last, mutex := s.mutex - 1 } else none
  | .copy last =>
    -- the string ends at a zero in the line, if there is one
    let item := if last = true then quit else s.line.takeWhile fun b => b ≠ 0
    if last = true ∨ s.line.length < MAX_STR then
      some { s with
        producer := .advance last
        buffer := Function.update s.buffer s.tail item
        items := s.items ++ [item] }
    else none
  | .advance last => some { s with producer := .postMutex last, tail := (s.tail + 1) % N, line := [] }
  | .postMutex last => some { s with producer := .postFull last, mutex := s.mutex + 1 }
  | .postFull last =>
    some { s with producer := if last = true then .ended else .scan, full := s.full + 1 }
  | .ended => none

/-- One statement of `consumer`. -/
def consumerStep (s : State) : Option State :=
  match s.consumer with
  | .waitFull => if 0 < s.full then some { s with consumer := .waitMutex, full := s.full - 1 } else none
  | .waitMutex => if 0 < s.mutex then some { s with consumer := .look, mutex := s.mutex - 1 } else none
  | .look => some { s with consumer := if s.buffer s.head = quit then .quitMutex else .print }
  | .quitMutex => some { s with consumer := .quitEmpty, mutex := s.mutex + 1 }
  | .quitEmpty => some { s with consumer := .quitAdvance, empty := s.empty + 1 }
  | .quitAdvance => some { s with consumer := .ended, head := (s.head + 1) % N }
  | .print => some { s with consumer := .clear, output := s.output ++ shown s.lineNo (s.buffer s.head) }
  | .clear =>
    some { s with
      consumer := .advance
      buffer := Function.update s.buffer s.head []
      taken := s.taken + 1 }
  | .advance => some { s with consumer := .postMutex, head := (s.head + 1) % N }
  | .postMutex => some { s with consumer := .postEmpty, mutex := s.mutex + 1 }
  | .postEmpty => some { s with consumer := .count, empty := s.empty + 1 }
  | .count => some { s with consumer := .waitFull, lineNo := incInt s.lineNo }
  | .ended => none

inductive Thread
  | producer | consumer
  deriving DecidableEq

def step (s : State) : Thread → Option State
  | .producer => producerStep s
  | .consumer => consumerStep s

/-- The threads before their first statements; the reads will return the pieces. -/
def start (pieces : List Bytes) : State :=
  { buffer := fun _ => [], head := 0, tail := 0, lineNo := 0, mutex := 1, empty := N, full := 0,
    producer := .read, line := [], buf := [], input := pieces, consumer := .waitFull, output := [],
    items := [], taken := 0 }

/-- The output for some lines, the first of them with the number of `first`. -/
def printedFrom (number : ℕ → ℤ) (first : ℕ) : List Bytes → Bytes
  | [] => []
  | item :: rest => shown (number first) item ++ printedFrom number (first + 1) rest

/-- The lines numbered from 0. -/
def printed (lines : List Bytes) : Bytes := printedFrom Nat.cast 0 lines

/-- The number that `line_no` has after so many lines. -/
def asInt (number : ℕ) : ℤ := (number : ℤ).bmod (2 ^ 32)

section
variable {number : ℕ → ℤ}

theorem printedFrom_append (first : ℕ) (lines more : List Bytes) :
    printedFrom number first (lines ++ more) =
      printedFrom number first lines ++ printedFrom number (first + lines.length) more := by
  induction lines generalizing first with
  | nil => rfl
  | cons item rest ih =>
    rw [List.cons_append, printedFrom, printedFrom, ih, List.append_assoc, List.length_cons, Nat.add_right_comm,
      Nat.add_assoc]

theorem printedFrom_concat (lines : List Bytes) (item : Bytes) :
    printedFrom number 0 (lines ++ [item]) = printedFrom number 0 lines ++ shown (number lines.length) item := by
  rw [printedFrom_append, Nat.zero_add, printedFrom, printedFrom, List.append_nil]

theorem printedFrom_mono {first all : List Bytes} (part : first <+: all) :
    printedFrom number 0 first <+: printedFrom number 0 all := by
  obtain ⟨rest, rfl⟩ := part
  rw [printedFrom_append]
  exact List.prefix_append ..

theorem printedFrom_whole {first all : List Bytes} (part : first <+: all)
    (same : printedFrom number 0 first = printedFrom number 0 all) : first = all := by
  obtain ⟨rest, rfl⟩ := part
  rw [printedFrom_append] at same
  cases rest with
  | nil => exact (List.append_nil _).symm
  | cons item rest =>
    have none := List.self_eq_append_right.mp same
    simp [printedFrom, shown] at none

end

theorem incInt_asInt (number : ℕ) : incInt (asInt number) = asInt (number + 1) := by
  unfold incInt asInt
  rw [Int.bmod_add_bmod]
  exact congrArg (fun k : ℤ => k.bmod (2 ^ 32)) (Nat.cast_succ number).symm

theorem asInt_of_lt {number : ℕ} (small : number < 2 ^ 31) : asInt number = number := by
  unfold asInt
  rw [Int.bmod_def]
  split <;> omega

/-- An `int` numbers 2^31 lines. -/
theorem printed_asInt {first : ℕ} {lines : List Bytes} (few : first + lines.length ≤ 2 ^ 31) :
    printedFrom asInt first lines = printedFrom Nat.cast first lines := by
  induction lines generalizing first with
  | nil => rw [printedFrom, printedFrom]
  | cons item rest ih =>
    rw [List.length_cons] at few
    have here : asInt first = first := asInt_of_lt (by omega)
    rw [printedFrom, printedFrom, ih (by omega), here]

/-- The next line has a negative number. -/
theorem printed_overflow {first all : List Bytes} (part : first <+: all)
    (same : printedFrom asInt 0 first = printed all) : first = all ∧ all.length ≤ 2 ^ 31 := by
  by_cases few : first.length ≤ 2 ^ 31
  · rw [printed_asInt (by omega)] at same
    obtain rfl := printedFrom_whole part same
    exact ⟨rfl, few⟩
  · obtain ⟨more, rfl⟩ := part
    obtain ⟨item, rest, split⟩ := List.exists_cons_of_length_pos
      (show 0 < (first.drop (2 ^ 31)).length by rw [List.length_drop]; omega)
    have whole : first = first.take (2 ^ 31) ++ item :: rest := by rw [← split, List.take_append_drop]
    have length : (first.take (2 ^ 31)).length = 2 ^ 31 := List.length_take_of_le (by omega)
    rw [whole, printed, List.append_assoc, printedFrom_append, printedFrom_append, length,
      printed_asInt (by omega), List.append_cancel_left_eq, List.cons_append, printedFrom, printedFrom] at same
    have digit := congrArg (fun text => text[2]?) same
    have minus : decimalInt (asInt (0 + 2 ^ 31)) = 45 :: decimal (2 ^ 31) := rfl
    have plus : decimalInt ((0 + 2 ^ 31 : ℕ) : ℤ) = decimal (2 ^ 31) := decimalInt_natCast _
    obtain ⟨c, digits, number, other⟩ : ∃ c digits, decimal (2 ^ 31) = c :: digits ∧ c ≠ 45 := ⟨_, _, rfl, by decide⟩
    rw [shown, shown, minus, plus, number] at digit
    exact absurd (Option.some.inj digit).symm other

/-! ### What a step conserves -/

/-- In the critical section. -/
@[simp] def ProducerPc.inside : ProducerPc → ℤ
  | .copy _ | .advance _ | .postMutex _ => 1
  | _ => 0

@[simp] def ConsumerPc.inside : ConsumerPc → ℤ
  | .look | .quitMutex | .print | .clear | .advance | .postMutex => 1
  | _ => 0

/-- A place taken from `empty` and not filled. -/
@[simp] def ProducerPc.place : ProducerPc → ℤ
  | .waitMutex _ | .copy _ => 1
  | _ => 0

/-- A place whose item is taken, or not counted any more, and that is not posted to `empty`; less one that was posted
    with its item not taken. -/
@[simp] def ConsumerPc.place : ConsumerPc → ℤ
  | .advance | .postMutex | .postEmpty => 1
  | .quitAdvance | .ended => -1
  | _ => 0

/-- An item that is not posted to `full`. -/
@[simp] def ProducerPc.item : ProducerPc → ℤ
  | .advance _ | .postMutex _ | .postFull _ => 1
  | _ => 0

/-- An item got from `full` and not taken. -/
@[simp] def ConsumerPc.item : ConsumerPc → ℤ
  | .waitMutex | .look | .quitMutex | .quitEmpty | .quitAdvance | .print | .clear | .ended => 1
  | _ => 0

/-- The counters count. -/
structure Counts (s : State) : Prop where
  mutex : s.mutex + s.producer.inside + s.consumer.inside = 1
  empty : s.empty + s.producer.place + s.consumer.place + (s.items.length - s.taken) = N
  full : s.full + s.producer.item + s.consumer.item = s.items.length - s.taken

theorem producerStep_counts {s t : State} (counts : Counts s) (taken : producerStep s = some t) : Counts t := by
  obtain ⟨mutex, empty, full⟩ := counts
  cases here : s.producer <;> rw [here] at mutex empty full <;> simp only [producerStep, here] at taken
  case read =>
    split at taken
    · cases taken
      exact ⟨mutex, empty, full⟩
    · obtain ⟨-, ⟨⟩⟩ := Option.ite_none_right_eq_some.mp taken
      exact ⟨mutex, empty, full⟩
  case scan =>
    split at taken
    · cases taken
      exact ⟨mutex, empty, full⟩
    · split_ifs at taken <;> cases taken
      · exact ⟨mutex, empty, full⟩
      · exact ⟨mutex, empty, full⟩
  case waitEmpty | waitMutex =>
    obtain ⟨positive, ⟨⟩⟩ := Option.ite_none_right_eq_some.mp taken
    constructor <;> simp only [ProducerPc.inside, ProducerPc.place, ProducerPc.item] at * <;> omega
  case copy =>
    obtain ⟨-, ⟨⟩⟩ := Option.ite_none_right_eq_some.mp taken
    constructor <;> simp at * <;> omega
  case advance | postMutex =>
    cases taken
    constructor <;> simp only [ProducerPc.inside, ProducerPc.place, ProducerPc.item] at * <;> omega
  case postFull last =>
    cases taken
    cases last <;> constructor <;> simp at * <;> omega
  case ended => cases taken

theorem consumerStep_counts {s t : State} (counts : Counts s) (taken : consumerStep s = some t) : Counts t := by
  obtain ⟨mutex, empty, full⟩ := counts
  cases here : s.consumer <;> rw [here] at mutex empty full <;> simp only [consumerStep, here] at taken
  case waitFull | waitMutex =>
    obtain ⟨positive, ⟨⟩⟩ := Option.ite_none_right_eq_some.mp taken
    constructor <;> simp only [ConsumerPc.inside, ConsumerPc.place, ConsumerPc.item] at * <;> omega
  case look =>
    cases taken
    split_ifs <;> exact ⟨mutex, empty, full⟩
  case ended => cases taken
  all_goals
    cases taken
    constructor <;> simp only [ConsumerPc.inside, ConsumerPc.place, ConsumerPc.item] at * <;> omega

theorem ProducerPc.weights (p : ProducerPc) : 0 ≤ p.inside ∧ 0 ≤ p.place ∧ 0 ≤ p.item := by
  cases p <;> simp

theorem ConsumerPc.weights (p : ConsumerPc) : 0 ≤ p.inside ∧ -1 ≤ p.place ∧ 0 ≤ p.item := by
  cases p <;> decide

theorem taken_le {s : State} (counts : Counts s) : s.taken + s.consumer.item ≤ s.items.length := by
  have full := counts.full
  have := s.producer.weights
  omega

/-! ### The items -/

/-- The thread has put an item at the tail, or taken the one at the head, and not moved there. -/
@[simp] def ProducerPc.behind : ProducerPc → ℕ
  | .advance _ => 1
  | _ => 0

@[simp] def ConsumerPc.behind : ConsumerPc → ℕ
  | .advance => 1
  | _ => 0

/-- An item was taken and not counted in `line_no`. -/
@[simp] def ConsumerPc.uncounted : ConsumerPc → ℕ
  | .advance | .postMutex | .postEmpty | .count => 1
  | _ => 0

/-- The item at the head is known to be a line. -/
@[simp] def ConsumerPc.seen : ConsumerPc → ℕ
  | .print | .clear => 1
  | _ => 0

/-- The item at the head is printed. -/
@[simp] def ConsumerPc.ahead : ConsumerPc → ℕ
  | .clear => 1
  | _ => 0

/-- The consumer has taken a "quit". -/
@[simp] def ConsumerPc.Quit : ConsumerPc → Prop
  | .quitMutex | .quitEmpty | .quitAdvance | .ended => True
  | _ => False

/-- The consumer has given away the place of the "quit", and reads the queue no more. -/
@[simp] def ConsumerPc.Gone : ConsumerPc → Prop
  | .quitAdvance | .ended => True
  | _ => False

/-- The items are in their places, and those before the first "quit" are printed. -/
structure Items (s : State) : Prop where
  tail : s.tail < N ∧ (s.tail + s.producer.behind) % N = s.items.length % N
  head : ¬ s.consumer.Gone → s.head < N ∧ (s.head + s.consumer.behind) % N = s.taken % N
  stored : ¬ s.consumer.Gone → Stored N s.buffer s.items s.taken
  lineNo : ∃ k, s.lineNo = asInt k ∧ k + s.consumer.uncounted = s.taken
  output : s.output = printedFrom asInt 0 (s.items.take (s.taken + s.consumer.ahead))
  plain : ∀ item ∈ s.items.take (s.taken + s.consumer.seen), item ≠ quit
  last : s.consumer.Quit → s.items[s.taken]? = some quit

/-- The string at the head is the first item that is not taken. -/
theorem head_item {s : State} (counts : Counts s) (items : Items s) (here : ¬ s.consumer.Gone)
    (level : s.consumer.behind = 0) (has : s.consumer.item = 1) :
    s.head = s.taken % N ∧ s.items[s.taken]? = some (s.buffer s.head) := by
  obtain ⟨inRange, head⟩ := items.head here
  rw [level, Nat.add_zero, Nat.mod_eq_of_lt inRange] at head
  have := taken_le counts
  rw [head]
  exact ⟨rfl, items.stored here s.taken le_rfl (by omega)⟩

theorem producerStep_items {s t : State} (counts : Counts s) (items : Items s) (taken : producerStep s = some t) :
    Items t := by
  have atLeast := taken_le counts
  have empty := counts.empty
  obtain ⟨tail, head, stored, lineNo, output, plain, last⟩ := items
  cases here : s.producer <;> simp only [here, producerStep] at taken tail empty
  case read =>
    split at taken
    · cases taken
      exact ⟨tail, head, stored, lineNo, output, plain, last⟩
    · obtain ⟨-, ⟨⟩⟩ := Option.ite_none_right_eq_some.mp taken
      exact ⟨tail, head, stored, lineNo, output, plain, last⟩
  case scan =>
    split at taken
    · cases taken
      exact ⟨tail, head, stored, lineNo, output, plain, last⟩
    · split_ifs at taken <;> cases taken <;> exact ⟨tail, head, stored, lineNo, output, plain, last⟩
  case waitEmpty | waitMutex =>
    obtain ⟨positive, ⟨⟩⟩ := Option.ite_none_right_eq_some.mp taken
    exact ⟨tail, head, stored, lineNo, output, plain, last⟩
  case advance | postMutex =>
    cases taken
    refine ⟨?_, head, stored, lineNo, output, plain, last⟩
    simp [N] at *
    omega
  case postFull final =>
    cases taken
    cases final <;> exact ⟨tail, head, stored, lineNo, output, plain, last⟩
  case ended => cases taken
  case copy final =>
    obtain ⟨-, ⟨⟩⟩ := Option.ite_none_right_eq_some.mp taken
    generalize (if final = true then quit else s.line.takeWhile fun b => b ≠ 0) = item
    simp only [ProducerPc.behind, Nat.add_zero, Nat.mod_eq_of_lt tail.1] at tail
    have seen : s.taken + s.consumer.seen ≤ s.items.length ∧ s.taken + s.consumer.ahead ≤ s.items.length := by
      cases at' : s.consumer <;> simp [at'] at atLeast ⊢ <;> omega
    refine ⟨?_, head, ?_, lineNo, ?_, ?_, ?_⟩
    · refine ⟨tail.1, ?_⟩
      simp [tail.2]
    · intro stays
      have room : s.items.length < s.taken + N := by
        cases at' : s.consumer <;> simp [at'] at empty stays <;> omega
      simp only [tail.2]
      exact (stored stays).put room item
    · simp only [List.take_append_of_le_length seen.2]
      exact output
    · simp only [List.take_append_of_le_length seen.1]
      exact plain
    · intro quits
      exact (List.getElem?_append_left (List.getElem?_eq_some_iff.mp (last quits)).1).trans (last quits)

theorem consumerStep_items {s t : State} (counts : Counts s) (items : Items s) (taken : consumerStep s = some t) :
    Items t := by
  have atLeast := taken_le counts
  have full := counts.empty
  have room := s.producer.weights
  have first := head_item counts items
  obtain ⟨tail, head, stored, lineNo, output, plain, last⟩ := items
  cases here : s.consumer <;> simp only [here, consumerStep] at taken head stored lineNo output plain last first
  case waitFull | waitMutex =>
    obtain ⟨positive, ⟨⟩⟩ := Option.ite_none_right_eq_some.mp taken
    exact ⟨tail, head, stored, lineNo, output, plain, last⟩
  case quitMutex | postMutex | postEmpty =>
    cases taken
    exact ⟨tail, head, stored, lineNo, output, plain, last⟩
  case count =>
    cases taken
    obtain ⟨k, number, counted⟩ := lineNo
    refine ⟨tail, head, stored, ⟨k + 1, ?_, counted⟩, output, plain, last⟩
    rw [number, incInt_asInt]
  case quitEmpty | quitAdvance =>
    cases taken
    have gone : ∀ {P : Prop}, ¬ True → P := fun stays => absurd trivial stays
    exact ⟨tail, gone, gone, lineNo, output, plain, last⟩
  case advance =>
    cases taken
    refine ⟨tail, ?_, stored, lineNo, output, plain, last⟩
    simp [N] at *
    omega
  case look =>
    obtain ⟨-, next⟩ := first (by simp) rfl rfl
    cases taken
    split_ifs with quits
    · exact ⟨tail, head, stored, lineNo, output, plain, fun _ => by rw [next, quits]⟩
    · refine ⟨tail, head, stored, lineNo, output, ?_, last⟩
      simp only [ConsumerPc.seen, List.take_add_one, next, Option.toList_some, List.mem_append, List.mem_singleton] at *
      rintro item (inside | rfl)
      · exact plain item (by simpa using inside)
      · exact quits
  case print =>
    obtain ⟨-, next⟩ := first (by simp) rfl rfl
    cases taken
    refine ⟨tail, head, stored, lineNo, ?_, plain, last⟩
    have before : (s.items.take s.taken).length = s.taken := List.length_take_of_le (by simp [here] at atLeast; omega)
    obtain ⟨k, number, counted⟩ := lineNo
    simp only [ConsumerPc.ahead, ConsumerPc.uncounted, Nat.add_zero] at output counted ⊢
    rw [List.take_add_one, next, Option.toList_some, printedFrom_concat, ← output, before, ← counted, number]
  case clear =>
    obtain ⟨place, -⟩ := first (by simp) rfl rfl
    cases taken
    have fits : s.items.length ≤ s.taken + N := by
      rw [here] at full
      simp only [ConsumerPc.place] at full
      omega
    refine ⟨tail, ?_, ?_, ?_, output, plain, fun quits => quits.elim⟩
    · intro stays
      have inRange := head id
      refine ⟨inRange.1, ?_⟩
      simp only [ConsumerPc.behind, place, Nat.mod_add_mod]
    · intro stays
      simp only [place]
      exact (stored id).clear fits []
    · obtain ⟨k, number, counted⟩ := lineNo
      exact ⟨k, number, congrArg (· + 1) counted⟩
  case ended => cases taken

/-! ### The lines -/

/-- What is left of the input, with the part of a line that was read, is the text of the lines that are not in the
    queue. -/
def Reading (lines : List Bytes) (s : State) : Prop :=
  ∃ later, lines = s.items ++ later ∧ s.line ++ (s.buf ++ s.input.flatten) = unlines 10 later ∧ 10 ∉ s.line

/-- How far the producer is with the lines. -/
def Progress (lines : List Bytes) (s : State) : Prop :=
  match s.producer with
  | .read => s.buf = [] ∧ Reading lines s
  | .scan => Reading lines s
  | .waitEmpty false | .waitMutex false | .copy false =>
    ∃ later, lines = s.items ++ s.line :: later ∧ s.buf ++ s.input.flatten = unlines 10 later
  | .advance false => ∃ later, lines = s.items ++ later ∧ s.buf ++ s.input.flatten = unlines 10 later
  | .postMutex false | .postFull false =>
    s.line = [] ∧ ∃ later, lines = s.items ++ later ∧ s.buf ++ s.input.flatten = unlines 10 later
  | .waitEmpty true | .waitMutex true | .copy true => s.items = lines
  | .advance true | .postMutex true | .postFull true | .ended => s.items = lines ++ [quit]

/-- A line of the input: it has no zero and no newline, and fits the buffers. -/
structure Fits (line : Bytes) : Prop where
  zero : 0 ∉ line
  newline : 10 ∉ line
  short : line.length < MAX_STR

theorem producerStep_progress {lines : List Bytes} {s t : State} (fits : ∀ l ∈ lines, Fits l) (progress : Progress lines s)
    (taken : producerStep s = some t) : Progress lines t := by
  unfold Progress at progress
  cases here : s.producer <;> simp only [here, producerStep] at taken progress
  case read =>
    obtain ⟨empty, later, split, text, clean⟩ := progress
    split at taken
    · next noInput =>
      cases taken
      rw [empty, noInput, List.flatten_nil, List.append_nil, List.append_nil] at text
      obtain rfl := no_line clean text
      exact (split.trans (List.append_nil _)).symm
    · next piece rest input =>
      obtain ⟨-, ⟨⟩⟩ := Option.ite_none_right_eq_some.mp taken
      rw [empty, input, List.flatten_cons, List.nil_append] at text
      exact ⟨later, split, text, clean⟩
  case scan =>
    obtain ⟨later, split, text, clean⟩ := progress
    split at taken
    · next empty =>
      cases taken
      exact ⟨empty, later, split, text, clean⟩
    · next b rest buf =>
      rw [buf, List.cons_append] at text
      split_ifs at taken with newline
      · cases taken
        subst newline
        have others : ∀ l ∈ later, 10 ∉ l :=
          fun l inside => (fits l (by rw [split]; exact List.mem_append_right _ inside)).newline
        obtain ⟨after, rfl, text'⟩ := first_line others clean text
        exact ⟨after, split, text'⟩
      · cases taken
        refine ⟨later, split, by simpa using text, ?_⟩
        simpa [clean] using Ne.symm newline
  case waitEmpty last | waitMutex last =>
    obtain ⟨positive, ⟨⟩⟩ := Option.ite_none_right_eq_some.mp taken
    cases last <;> exact progress
  case copy last =>
    obtain ⟨-, ⟨⟩⟩ := Option.ite_none_right_eq_some.mp taken
    cases last with
    | true => exact congrArg (· ++ [quit]) progress
    | false =>
      obtain ⟨later, split, text⟩ := progress
      have plain : s.line.takeWhile (fun b => b ≠ 0) = s.line := by
        rw [List.takeWhile_eq_self_iff]
        intro b inside
        have := (fits s.line (by rw [split]; simp)).zero
        simpa using ne_of_mem_of_not_mem inside this
      refine ⟨later, ?_, text⟩
      simp only [Bool.false_eq_true, if_false, plain, List.append_assoc, List.singleton_append]
      exact split
  case advance last =>
    cases taken
    cases last with
    | true => exact progress
    | false => exact ⟨rfl, progress⟩
  case postMutex last =>
    cases taken
    cases last <;> exact progress
  case postFull last =>
    cases taken
    cases last with
    | true => exact progress
    | false =>
      obtain ⟨empty, later, split, text⟩ := progress
      exact ⟨later, split, by simpa [empty] using text, by simp [empty]⟩
  case ended => cases taken

/-! ### Runs -/

/-- What is left to do: 20 for a byte of the input and 2 for a piece of it, and 12 for an item in the queue. -/
def ProducerPc.work : ProducerPc → ℕ
  | .read => 20
  | .scan => 21
  | .waitEmpty last => if last = true then 19 else 40
  | .waitMutex last => if last = true then 18 else 39
  | .copy last => if last = true then 17 else 38
  | .advance last => if last = true then 4 else 25
  | .postMutex last => if last = true then 3 else 24
  | .postFull last => if last = true then 2 else 23
  | .ended => 0

def ConsumerPc.work : ConsumerPc → ℕ
  | .waitFull => 6
  | .waitMutex => 5
  | .look => 4
  | .quitMutex => 3
  | .quitEmpty => 2
  | .quitAdvance => 1
  | .print => 3
  | .clear => 2
  | .advance => 10
  | .postMutex => 9
  | .postEmpty => 8
  | .count => 7
  | .ended => 0

def work (s : State) : ℕ :=
  20 * (s.buf.length + s.input.flatten.length) + 2 * s.input.length + s.producer.work +
    12 * (s.items.length - s.taken) + s.consumer.work

structure Invariant (lines : List Bytes) (s : State) : Prop where
  counts : Counts s
  items : Items s
  progress : Progress lines s
  sizes : ∀ p ∈ s.input, p ≠ [] ∧ p.length ≤ MAX_MSG

/-- The consumer leaves alone what the producer reads and what it has made of it. -/
theorem consumerStep_frame {s t : State} (taken : consumerStep s = some t) :
    t.producer = s.producer ∧ t.items = s.items ∧ t.line = s.line ∧ t.buf = s.buf ∧ t.input = s.input := by
  unfold consumerStep at taken
  split at taken <;> first
    | (cases taken; done)
    | (cases taken; exact ⟨rfl, rfl, rfl, rfl, rfl⟩)
    | (obtain ⟨-, ⟨⟩⟩ := Option.ite_none_right_eq_some.mp taken; exact ⟨rfl, rfl, rfl, rfl, rfl⟩)

/-- The input only gets shorter. -/
theorem producerStep_input {s t : State} (taken : producerStep s = some t) : t.input <:+ s.input := by
  cases here : s.producer <;> simp only [here, producerStep] at taken
  case read =>
    split at taken
    · cases taken
      exact List.suffix_rfl
    · next piece rest input =>
      obtain ⟨-, ⟨⟩⟩ := Option.ite_none_right_eq_some.mp taken
      rw [input]
      exact List.suffix_cons ..
  case scan =>
    split at taken
    · cases taken
      exact List.suffix_rfl
    · split_ifs at taken <;> cases taken <;> exact List.suffix_rfl
  case waitEmpty | waitMutex | copy =>
    obtain ⟨-, ⟨⟩⟩ := Option.ite_none_right_eq_some.mp taken
    exact List.suffix_rfl
  case advance | postMutex | postFull =>
    cases taken
    exact List.suffix_rfl
  case ended => cases taken

section
variable {lines pieces : List Bytes}

theorem step_invariant (fits : ∀ l ∈ lines, Fits l) (s : State) (thread : Thread) (t : State)
    (inv : Invariant lines s) (taken : step s thread = some t) : Invariant lines t := by
  obtain ⟨counts, items, progress, sizes⟩ := inv
  cases thread with
  | producer =>
    exact ⟨producerStep_counts counts taken, producerStep_items counts items taken,
      producerStep_progress fits progress taken, fun p inside => sizes p ((producerStep_input taken).subset inside)⟩
  | consumer =>
    obtain ⟨producer, items', line, buf, input⟩ := consumerStep_frame taken
    refine ⟨consumerStep_counts counts taken, consumerStep_items counts items taken, ?_, by rwa [input]⟩
    simpa only [Progress, Reading, producer, items', line, buf, input] using progress

theorem start_invariant (text : pieces.flatten = unlines 10 lines) (sizes : ∀ p ∈ pieces, p ≠ [] ∧ p.length ≤ MAX_MSG) :
    Invariant lines (start pieces) := by
  refine ⟨⟨rfl, rfl, rfl⟩, ⟨by simp [start, N], fun _ => by simp [start, N], fun _ => stored_nil _ _ _, ⟨0, rfl, rfl⟩, rfl, ?_, ?_⟩,
    ?_, sizes⟩
  · simp [start]
  · exact fun quits => quits.elim
  · exact ⟨rfl, lines, rfl, text, List.not_mem_nil⟩

theorem producerStep_work {s t : State} (counts : Counts s) (taken : producerStep s = some t) : work t < work s := by
  have atLeast := taken_le counts
  have weights := s.consumer.weights
  cases here : s.producer <;> simp only [here, producerStep] at taken
  case read =>
    split at taken
    · cases taken
      simp [work, ProducerPc.work, here]
    · next piece rest input =>
      obtain ⟨-, ⟨⟩⟩ := Option.ite_none_right_eq_some.mp taken
      simp [work, ProducerPc.work, here, input]
      omega
  case scan =>
    split at taken
    · next empty =>
      cases taken
      simp [work, ProducerPc.work, here]
    · next b rest buf =>
      split_ifs at taken
      · cases taken
        simp [work, ProducerPc.work, here, buf]
        omega
      · cases taken
        simp [work, ProducerPc.work, here, buf]
  case waitEmpty last | waitMutex last =>
    obtain ⟨positive, ⟨⟩⟩ := Option.ite_none_right_eq_some.mp taken
    cases last <;> simp [work, ProducerPc.work, here]
  case copy last =>
    obtain ⟨-, ⟨⟩⟩ := Option.ite_none_right_eq_some.mp taken
    cases last <;> simp [work, ProducerPc.work, here] <;> omega
  case advance last | postMutex last | postFull last =>
    cases taken
    cases last <;> simp [work, ProducerPc.work, here]
  case ended => cases taken

theorem consumerStep_work {s t : State} (counts : Counts s) (taken : consumerStep s = some t) : work t < work s := by
  have atLeast := taken_le counts
  cases here : s.consumer <;> simp only [here, consumerStep] at taken
  case waitFull | waitMutex =>
    obtain ⟨positive, ⟨⟩⟩ := Option.ite_none_right_eq_some.mp taken
    simp [work, ConsumerPc.work, here]
  case look =>
    cases taken
    split_ifs <;> simp [work, ConsumerPc.work, here]
  case clear =>
    cases taken
    simp [here] at atLeast
    simp [work, ConsumerPc.work, here]
    omega
  case ended => cases taken
  all_goals
    cases taken
    simp [work, ConsumerPc.work, here]

theorem step_work (s : State) (thread : Thread) (t : State) (inv : Invariant lines s)
    (taken : step s thread = some t) : work t < work s := by
  cases thread with
  | producer => exact producerStep_work inv.counts taken
  | consumer => exact consumerStep_work inv.counts taken

/-! ### Where the threads stop -/

/-- A thread in the critical section can go on, so one that waits for it can in the end. -/
theorem producer_stops (fits : ∀ l ∈ lines, Fits l) {s : State} (inv : Invariant lines s)
    (stopped : producerStep s = none) :
    s.producer.inside = 0 ∧ s.producer.item = 0 ∧
      ((∃ last, s.producer = .waitEmpty last ∧ s.empty = 0) ∨ (∃ last, s.producer = .waitMutex last ∧ s.mutex = 0) ∨
        s.producer = .ended) := by
  have progress := inv.progress
  unfold Progress at progress
  cases here : s.producer <;> simp only [here, producerStep] at stopped progress
  case read =>
    split at stopped
    · cases stopped
    · next piece rest input =>
      rw [if_pos (inv.sizes piece (by rw [input]; exact List.mem_cons_self ..))] at stopped
      cases stopped
  case scan =>
    obtain ⟨later, split, text, clean⟩ := progress
    split at stopped
    · cases stopped
    · next b rest buf =>
      split_ifs at stopped with newline short
      rw [buf, List.cons_append] at text
      obtain ⟨l, inside, shorter⟩ := part_shorter clean newline text
      have := (fits l (by rw [split]; exact List.mem_append_right _ inside)).short
      omega
  case waitEmpty last =>
    split_ifs at stopped with positive
    exact ⟨rfl, rfl, .inl ⟨last, rfl, Nat.eq_zero_of_not_pos positive⟩⟩
  case waitMutex last =>
    split_ifs at stopped with positive
    exact ⟨rfl, rfl, .inr (.inl ⟨last, rfl, Nat.eq_zero_of_not_pos positive⟩)⟩
  case copy last =>
    split_ifs at stopped with room
    cases last with
    | true => exact absurd (.inl rfl) room
    | false =>
      obtain ⟨later, split, -⟩ := progress
      exact absurd (.inr (fits s.line (by rw [split]; simp)).short) room
  case ended => exact ⟨rfl, rfl, .inr (.inr rfl)⟩
  all_goals cases stopped

theorem consumer_stops {s : State} (stopped : consumerStep s = none) :
    s.consumer.inside = 0 ∧
      (s.consumer = .waitFull ∧ s.full = 0 ∨ s.consumer = .waitMutex ∧ s.mutex = 0 ∨ s.consumer = .ended) := by
  cases here : s.consumer <;> simp only [here, consumerStep] at stopped
  case waitFull =>
    split_ifs at stopped with positive
    exact ⟨rfl, .inl ⟨rfl, Nat.eq_zero_of_not_pos positive⟩⟩
  case waitMutex =>
    split_ifs at stopped with positive
    exact ⟨rfl, .inr (.inl ⟨rfl, Nat.eq_zero_of_not_pos positive⟩)⟩
  case ended => exact ⟨rfl, .inr (.inr rfl)⟩
  all_goals cases stopped

/-- When no thread can go on, each has ended or waits for the other. -/
theorem both_stop (fits : ∀ l ∈ lines, Fits l) {s : State} (inv : Invariant lines s)
    (stopped : ∀ thread, step s thread = none) :
    ((∃ last, s.producer = .waitEmpty last ∧ s.empty = 0) ∨ s.producer = .ended) ∧
      (s.consumer = .waitFull ∧ s.full = 0 ∨ s.consumer = .ended) := by
  obtain ⟨outP, -, producer⟩ := producer_stops fits inv (stopped .producer)
  obtain ⟨outC, consumer⟩ := consumer_stops (stopped .consumer)
  have mutex := inv.counts.mutex
  rw [outP, outC] at mutex
  refine ⟨?_, ?_⟩
  · rcases producer with full | ⟨last, -, zero⟩ | ended
    · exact .inl full
    · rw [zero] at mutex
      cases mutex
    · exact .inr ended
  · rcases consumer with waits | ⟨-, zero⟩ | ended
    · exact .inl waits
    · rw [zero] at mutex
      cases mutex
    · exact .inr ended

/-- The items are lines, until the "quit" comes after the last one. -/
theorem progress_items {s : State} (progress : Progress lines s) :
    s.items <+: lines ∧ s.producer ≠ .ended ∨ s.items = lines ++ [quit] ∧ ∀ last, s.producer ≠ .waitEmpty last := by
  unfold Progress at progress
  cases here : s.producer <;> simp only [here] at progress
  case read =>
    obtain ⟨-, later, rfl, -⟩ := progress
    exact .inl ⟨List.prefix_append .., by simp⟩
  case scan =>
    obtain ⟨later, rfl, -⟩ := progress
    exact .inl ⟨List.prefix_append .., by simp⟩
  case waitEmpty last | waitMutex last | copy last =>
    cases last with
    | true => exact .inl ⟨progress ▸ List.prefix_rfl, by simp⟩
    | false =>
      obtain ⟨later, rfl, -⟩ := progress
      exact .inl ⟨List.prefix_append .., by simp⟩
  case advance last =>
    cases last with
    | true => exact .inr ⟨progress, by simp⟩
    | false =>
      obtain ⟨later, rfl, -⟩ := progress
      exact .inl ⟨List.prefix_append .., by simp⟩
  case postMutex last | postFull last =>
    cases last with
    | true => exact .inr ⟨progress, by simp⟩
    | false =>
      obtain ⟨-, later, rfl, -⟩ := progress
      exact .inl ⟨List.prefix_append .., by simp⟩
  case ended => exact .inr ⟨progress, by simp⟩

/-- Without a line "quit" the consumer quits after the last line. -/
theorem quit_last {s : State} (inv : Invariant lines s) (none : quit ∉ lines) (quits : s.consumer.Quit) :
    (s.items = lines ++ [quit] ∧ ∀ last, s.producer ≠ .waitEmpty last) ∧ s.taken = lines.length := by
  have last := inv.items.last quits
  rcases progress_items inv.progress with ⟨part, -⟩ | whole
  · exact absurd (part.subset (List.mem_of_getElem? last)) none
  · refine ⟨whole, ?_⟩
    rw [whole.1] at last
    have inside := (List.getElem?_eq_some_iff.mp last).1
    rw [List.length_append, List.length_singleton] at inside
    by_contra other
    rw [List.getElem?_append_left (by omega)] at last
    exact none (List.mem_of_getElem? last)

/-! ### The output -/

/-- What is printed are lines, and none of them is "quit". -/
theorem printed_lines {s : State} (inv : Invariant lines s) :
    ∃ first, first <+: lines ∧ s.output = printedFrom asInt 0 first ∧ quit ∉ first := by
  have earlier : s.taken + s.consumer.ahead ≤ s.taken + s.consumer.seen := by cases s.consumer <;> simp
  have shorter : s.items.take (s.taken + s.consumer.ahead) <+: s.items.take (s.taken + s.consumer.seen) :=
    List.take_prefix_take_left earlier
  have plain : quit ∉ s.items.take (s.taken + s.consumer.ahead) :=
    fun inside => inv.items.plain quit (shorter.subset inside) rfl
  refine ⟨_, ?_, inv.items.output, plain⟩
  rcases progress_items inv.progress with ⟨part, -⟩ | ⟨whole, -⟩
  · exact (List.take_prefix ..).trans part
  · have known : s.items.take (s.taken + s.consumer.ahead) <+: lines ++ [quit] := whole ▸ List.take_prefix ..
    rcases List.prefix_concat_iff.mp known with same | part
    · rw [same] at plain
      exact absurd (by simp) plain
    · exact part

/-- In every run of the threads the lines are printed in order; when the threads can do no
    more, both have ended and all lines are printed; the producer does not wait for a place
    in the queue after the consumer has ended; and no run goes on for ever. -/
structure Printed (lines pieces : List Bytes) : Prop where
  ordered : ∀ s, Reachable step (start pieces) s → s.output <+: printed lines
  complete : ∀ s, Reachable step (start pieces) s → (∀ thread, step s thread = none) →
    s.producer = .ended ∧ s.consumer = .ended ∧ s.output = printed lines
  unblocked : ∀ s, Reachable step (start pieces) s → s.consumer = .ended → ∀ last, s.producer = .waitEmpty last → 0 < s.empty
  finite : ∃ bound, ∀ threads s, exec step (start pieces) threads = some s → threads.length ≤ bound

/-- When a line is "quit", or there are more lines than numbers, some run ends without them printed. -/
theorem printed_plain (fits : ∀ l ∈ lines, Fits l) (sizes : ∀ p ∈ pieces, p ≠ [] ∧ p.length ≤ MAX_MSG)
    (text : pieces.flatten = unlines 10 lines) (all : Printed lines pieces) : quit ∉ lines ∧ lines.length ≤ 2 ^ 31 := by
  have fresh : Invariant lines (start pieces) := start_invariant text sizes
  obtain ⟨s, reached, stopped⟩ := exists_terminal (step_invariant fits) step_work fresh
  obtain ⟨-, -, output⟩ := all.complete s reached stopped
  obtain ⟨first, part, same, plain⟩ := printed_lines (reachable_kept (step_invariant fits) fresh reached)
  obtain ⟨rfl, few⟩ := printed_overflow part (same.symm.trans output)
  exact ⟨plain, few⟩

/-- Every line of the input is printed once, in order, however the reads cut it and the threads
    take their turns, exactly when no line is "quit" and an `int` numbers them. -/
theorem lines_printed_iff (fits : ∀ l ∈ lines, Fits l) (sizes : ∀ p ∈ pieces, p ≠ [] ∧ p.length ≤ MAX_MSG)
    (text : pieces.flatten = unlines 10 lines) : Printed lines pieces ↔ quit ∉ lines ∧ lines.length ≤ 2 ^ 31 := by
  have fresh : Invariant lines (start pieces) := start_invariant text sizes
  have invariant : ∀ s, Reachable step (start pieces) s → Invariant lines s :=
    fun s reached => reachable_kept (step_invariant fits) fresh reached
  refine ⟨printed_plain fits sizes text, fun both => ?_⟩
  obtain ⟨none, few⟩ := both
  refine ⟨?_, ?_, ?_, work (start pieces), ?_⟩
  · intro s reached
    obtain ⟨first, part, same, -⟩ := printed_lines (invariant s reached)
    have shorter := part.length_le
    rw [same, printed_asInt (by omega)]
    exact printedFrom_mono part
  · intro s reached stopped
    have inv := invariant s reached
    obtain ⟨producer, consumer⟩ := both_stop fits inv stopped
    rcases consumer with ⟨waits, zero⟩ | ended
    · -- the queue is empty, so the producer does not wait for a place, and the last item was taken
      have level : s.taken = s.items.length := by
        have full := inv.counts.full
        rw [waits, zero, (producer_stops fits inv (stopped .producer)).2.1] at full
        simp at full
        omega
      have empty := inv.counts.empty
      rw [waits, level] at empty
      rcases producer with ⟨last, here, zero⟩ | ended
      · rw [here, zero] at empty
        simp [N] at empty
      · rcases progress_items inv.progress with ⟨-, other⟩ | ⟨whole, -⟩
        · exact absurd ended other
        · have plain := inv.items.plain quit
          have seen : ConsumerPc.waitFull.seen = 0 := rfl
          rw [waits, level, seen, Nat.add_zero, List.take_length, whole] at plain
          exact absurd rfl (plain (by simp))
    · obtain ⟨⟨whole, other⟩, taken⟩ := quit_last inv none (by rw [ended]; trivial)
      rcases producer with ⟨last, here, -⟩ | ended'
      · exact absurd here (other last)
      · refine ⟨ended', ended, ?_⟩
        have ahead : ConsumerPc.ended.ahead = 0 := rfl
        rw [inv.items.output, ended, ahead, Nat.add_zero, whole, taken, List.take_left, printed_asInt (by omega), printed]
  · intro s reached ended last here
    obtain ⟨⟨-, other⟩, -⟩ := quit_last (invariant s reached) none (by rw [ended]; trivial)
    exact absurd here (other last)
  · intro threads s run
    have := exec_length_le (step_invariant fits) step_work fresh run
    omega

theorem lines_printed_iff_sample : Printed [ascii ['a', 'b'], []] [ascii ['a'], ascii ['b', '\n', '\n']] := by
  have fits : ∀ l ∈ [ascii ['a', 'b'], []], Fits l := by
    intro l inside
    rcases List.mem_pair.mp inside with rfl | rfl
    · exact ⟨by simp [ascii], by simp [ascii], by decide⟩
    · exact ⟨by simp, by simp, by decide⟩
  exact (lines_printed_iff fits (by simp [ascii, MAX_MSG]) (by simp [ascii])).mpr ⟨by simp [quit, ascii], by decide⟩

/-- The first of two lines is "quit". -/
theorem quit_unprinted :
    ¬ ∀ lines pieces : List Bytes, (∀ l ∈ lines, Fits l) → (∀ p ∈ pieces, p ≠ [] ∧ p.length ≤ MAX_MSG) →
      pieces.flatten = unlines 10 lines → Printed lines pieces := by
  intro always
  have fits : ∀ l ∈ [quit, ascii ['a']], Fits l := by
    intro l inside
    rcases List.mem_pair.mp inside with rfl | rfl
    · exact ⟨by simp [quit, ascii], by simp [quit, ascii], by decide⟩
    · exact ⟨by simp [ascii], by simp [ascii], by decide⟩
  have sizes : ∀ p ∈ [quit ++ ascii ['\n', 'a', '\n']], p ≠ [] ∧ p.length ≤ MAX_MSG := by
    simp [quit, ascii, MAX_MSG]
  have text : [quit ++ ascii ['\n', 'a', '\n']].flatten = unlines 10 [quit, ascii ['a']] := by simp [quit, ascii]
  exact absurd (List.mem_cons_self ..) (printed_plain fits sizes text (always _ _ fits sizes text)).1

end

end OsyProg.LineQueue
