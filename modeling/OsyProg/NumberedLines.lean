import OsyProg.CStrings
import OsyProg.Clients
import OsyProg.Lines
import OsyProg.Ring
import Mathlib.Data.List.Enum

/-!
A producer session and a consumer session of `DU/DU05/socket_srv.cpp`, one statement a
step, in both modes: with a ring buffer in shared memory, and with a message queue, of
`N` items each. The consumer session writes each item with a number. In MODE_MQ it counts
the items that it gets itself, in MODE_SHM it reads a counter that the producer raises
for every item it puts in, so the number is that of the item only when the producer has
not gone on (`lines_numbered`). Both counters are of type `int`.
-/
namespace OsyProg.NumberedLines
open OsyProg.Bytes OsyProg.Lines OsyProg.Ring OsyProg.Runs
open OsyProg.Sessions (line)
open OsyProg.CStrings (decimalInt incInt incInt_of_lt)

def N : ℕ := 8
def MAX_STR : ℕ := 256

/-- `g_mode` -/
inductive Mode
  | shm | mq
  deriving DecidableEq

/-- The statement of `run_producer_client`, or of `producer`, that comes next. -/
inductive ProducerPc
  | readItem                                    -- read(sock, item, sizeof(item) - 1)
  | waitEmpty (item : Bytes)                    -- sem_wait(empty)
  | waitMutex (item : Bytes)                    -- sem_wait(mutex)
  | copy (item : Bytes)                         -- strncpy(g_shm->buffer[g_shm->tail], item, MAX_STR-1)
  | advance                                     -- g_shm->tail = (g_shm->tail+1) % N
  | count                                       -- g_shm->item_num++
  | postMutex                                   -- sem_post(mutex)
  | postFull                                    -- sem_post(full)
  | send (item : Bytes)                         -- mq_send(g_mq, item, len + 1, 0)
  | ok                                          -- write(sock, "Ok\n", 3)
  | ended
  deriving DecidableEq

/-- The statement of `run_consumer_client`, or of `consumer`, that comes next. -/
inductive ConsumerPc
  | waitFull                                    -- sem_wait(full)
  | waitMutex                                   -- sem_wait(mutex)
  | copy                                        -- strncpy(item, g_shm->buffer[g_shm->head], MAX_STR-1)
  | advance (item : Bytes)                      -- g_shm->head = (g_shm->head + 1) % N
  | postMutex (item : Bytes)                    -- sem_post(mutex)
  | postEmpty (item : Bytes)                    -- sem_post(empty)
  | receive                                     -- n = mq_receive(g_mq, item, MAX_STR, NULL)
  | number (item : Bytes)                       -- num_to_print = g_shm->item_num, or ++local_num
  | write (num : ℤ) (item : Bytes)              -- write(sock, sendbuf, strlen(sendbuf))
  | newline                                     -- write(sock, "\n", 1)
  | readAck                                     -- read(sock, ack, sizeof(ack) - 1)
  | ended
  deriving DecidableEq

/-- The shared memory with its semaphores, the message queue, and the two sessions: what the
    reads of the producer session will return, the counter of the consumer session, and what it
    has written. The last three fields are not in the code: the items put into the queue, the
    number of those taken out, and the number of those that have got their number. -/
structure State where
  buffer : ℕ → Bytes
  head : ℕ
  tail : ℕ
  itemNum : ℤ
  mutex : ℕ
  empty : ℕ
  full : ℕ
  messages : List Bytes
  producer : ProducerPc
  input : List Bytes
  consumer : ConsumerPc
  localNum : ℤ
  output : Bytes
  produced : List Bytes
  taken : ℕ
  numbered : ℕ

/-- The first statement of `producer`. -/
def callProducer : Mode → Bytes → ProducerPc
  | .shm, item => .waitEmpty item
  | .mq, item => .send item

/-- The first statement of `consumer`. -/
def callConsumer : Mode → ConsumerPc
  | .shm => .waitFull
  | .mq => .receive

/-- One statement of the producer session; none when it waits or has ended. -/
def producerStep (mode : Mode) (s : State) : Option State :=
  match mode, s.producer with
  | _, .readItem =>
    match s.input with
    | [] => some { s with producer := .ended }
    | piece :: rest =>
      -- it returns some bytes, no more than it asked for
      if piece ≠ [] ∧ piece.length ≤ 255 then
        some { s with producer := callProducer mode (line piece), input := rest }
      else none
  | .shm, .waitEmpty item => if 0 < s.empty then some { s with producer := .waitMutex item, empty := s.empty - 1 } else none
  | .shm, .waitMutex item => if 0 < s.mutex then some { s with producer := .copy item, mutex := s.mutex - 1 } else none
  | .shm, .copy item =>
    some { s with
      producer := .advance
      buffer := Function.update s.buffer s.tail (strncpy item (MAX_STR - 1))
      produced := s.produced ++ [item] }
  | .shm, .advance => some { s with producer := .count, tail := (s.tail + 1) % N }
  | .shm, .count => some { s with producer := .postMutex, itemNum := incInt s.itemNum }
  | .shm, .postMutex => some { s with producer := .postFull, mutex := s.mutex + 1 }
  | .shm, .postFull => some { s with producer := .ok, full := s.full + 1 }
  | .mq, .send item =>
    -- the message is what strnlen finds, with its zero
    if s.messages.length < N then
      some { s with
        producer := .ok
        messages := s.messages ++ [item.take (MAX_STR - 1) ++ [0]]
        produced := s.produced ++ [item] }
    else none
  | _, .ok => some { s with producer := .readItem }
  | _, _ => none

/-- The string that `item[n - 1] = 0` leaves of a message. -/
def received (message : Bytes) : Bytes := message.dropLast.takeWhile fun b => b ≠ 0

/-- A line without its newline: `snprintf(sendbuf, sizeof(sendbuf), "%d: %s", num_to_print, item)` when it fits. -/
def numberedLine (number : ℤ) (item : Bytes) : Bytes := decimalInt number ++ ascii [':', ' '] ++ item

/-- One statement of the consumer session. -/
def consumerStep (mode : Mode) (s : State) : Option State :=
  match mode, s.consumer with
  | .shm, .waitFull => if 0 < s.full then some { s with consumer := .waitMutex, full := s.full - 1 } else none
  | .shm, .waitMutex => if 0 < s.mutex then some { s with consumer := .copy, mutex := s.mutex - 1 } else none
  | .shm, .copy =>
    some { s with consumer := .advance (strncpy (s.buffer s.head) (MAX_STR - 1)), taken := s.taken + 1 }
  | .shm, .advance item => some { s with consumer := .postMutex item, head := (s.head + 1) % N }
  | .shm, .postMutex item => some { s with consumer := .postEmpty item, mutex := s.mutex + 1 }
  | .shm, .postEmpty item => some { s with consumer := .number item, empty := s.empty + 1 }
  | .mq, .receive =>
    match s.messages with
    | [] => none
    | message :: rest =>
      some { s with consumer := .number (received message), messages := rest, taken := s.taken + 1 }
  | .shm, .number item => some { s with consumer := .write s.itemNum item, numbered := s.numbered + 1 }
  | .mq, .number item =>
    some { s with
      consumer := .write (incInt s.localNum) item
      localNum := incInt s.localNum
      numbered := s.numbered + 1 }
  | _, .write num item =>
    some { s with consumer := .newline, output := s.output ++ (numberedLine num item).take (MAX_STR - 1) }
  | _, .newline => some { s with consumer := .readAck, output := s.output ++ [10] }
  | _, .readAck => some { s with consumer := callConsumer mode }
  | _, _ => none

/-- A session takes a step, or the consumer session reads that its client has hung up. -/
inductive Move
  | producer | consumer | hangup
  deriving DecidableEq

def step (mode : Mode) (s : State) : Move → Option State
  | .producer => producerStep mode s
  | .consumer => consumerStep mode s
  | .hangup => if s.consumer = .readAck then some { s with consumer := .ended } else none

/-- Fresh queues, and the sessions after their roles; the client of the producer session sends the items. -/
def start (mode : Mode) (items : List Bytes) : State :=
  { buffer := fun _ => [], head := 0, tail := 0, itemNum := 0, mutex := 1, empty := N, full := 0, messages := [],
    producer := .readItem, input := items.map fun item => item ++ [10], consumer := callConsumer mode, localNum := 0,
    output := [], produced := [], taken := 0, numbered := 0 }

/-- The lines of the items, with the numbers from 1 on. -/
def numberedLines (items : List Bytes) : List Bytes := (items.zipIdx 1).map fun (item, k) => numberedLine k item

/-- Items that are strings, without a newline, and short enough for the buffers with their numbers. -/
structure Sendable (items : List Bytes) : Prop where
  plain : ∀ item ∈ items, ∀ b ∈ item, b ≠ 0 ∧ b ≠ 13 ∧ b ≠ 10
  short : ∀ l ∈ numberedLines items, l.length < MAX_STR

/-- The consumer session has written the lines of the items in their order, and nothing else:
    those of the items that it has taken when it calls `consumer` again, and those of all items
    when in addition the producer session has ended and the queue is empty. -/
structure Printed (mode : Mode) (items : List Bytes) (s : State) : Prop where
  order : s.output <+: unlines 10 (numberedLines items)
  whole : s.consumer = callConsumer mode → s.output = unlines 10 (numberedLines (items.take s.taken))
  finished : s.consumer = callConsumer mode → s.producer = .ended → s.full = 0 → s.messages = [] →
    s.output = unlines 10 (numberedLines items)

/-- The producer counts an item only when the item before has got its number. -/
def Timely (mode : Mode) (s : State) (move : Move) : Prop :=
  mode = .shm → move = .producer → s.producer = .count → s.numbered = s.itemNum

instance (mode : Mode) (s : State) (move : Move) : Decidable (Timely mode s move) := by
  unfold Timely
  infer_instance

theorem numbered_concat (items : List Bytes) (item : Bytes) :
    numberedLines (items ++ [item]) = numberedLines items ++ [numberedLine (items.length + 1) item] := by
  simp [numberedLines, List.zipIdx_append, Nat.add_comm]

theorem numbered_mono {first items : List Bytes} (shorter : first <+: items) :
    numberedLines first <+: numberedLines items := by
  obtain ⟨more, rfl⟩ := shorter
  rw [numberedLines, numberedLines, List.zipIdx_append, List.map_append]
  exact List.prefix_append ..

/-! ### What a step keeps -/

/-- In the critical section. -/
@[simp] def ProducerPc.inside : ProducerPc → ℤ
  | .copy _ | .advance | .count | .postMutex => 1
  | _ => 0

@[simp] def ConsumerPc.inside : ConsumerPc → ℤ
  | .copy | .advance _ | .postMutex _ => 1
  | _ => 0

/-- A place that is in neither semaphore and has no item. -/
@[simp] def ProducerPc.place : ProducerPc → ℤ
  | .waitMutex _ | .copy _ => 1
  | _ => 0

@[simp] def ConsumerPc.place : ConsumerPc → ℤ
  | .advance _ | .postMutex _ | .postEmpty _ => 1
  | _ => 0

theorem ConsumerPc.place_nonneg (p : ConsumerPc) : 0 ≤ p.place := by
  cases p <;> simp

/-- An item that is in neither semaphore. -/
@[simp] def ProducerPc.item : ProducerPc → ℤ
  | .advance | .count | .postMutex | .postFull => 1
  | _ => 0

@[simp] def ConsumerPc.item : ConsumerPc → ℤ
  | .waitMutex | .copy => 1
  | _ => 0

/-- The session has put an item at the tail, or taken the one at the head, and not moved there. -/
@[simp] def ProducerPc.behind : ProducerPc → ℕ
  | .advance => 1
  | _ => 0

@[simp] def ConsumerPc.behind : ConsumerPc → ℕ
  | .advance _ => 1
  | _ => 0

/-- An item was put into the buffer and not counted. -/
@[simp] def ProducerPc.uncounted : ProducerPc → ℕ
  | .advance | .count => 1
  | _ => 0

/-- The shared memory: the semaphores count, the items are in their places, and `item_num` is their number. -/
structure Memory (s : State) : Prop where
  mutex : s.mutex + s.producer.inside + s.consumer.inside = 1
  empty : s.empty + s.producer.place + s.consumer.place + (s.produced.length - s.taken) = N
  full : s.full + s.producer.item + s.consumer.item = s.produced.length - s.taken
  tail : s.tail < N ∧ (s.tail + s.producer.behind) % N = s.produced.length % N
  head : s.head < N ∧ (s.head + s.consumer.behind) % N = s.taken % N
  stored : Stored N s.buffer s.produced s.taken
  itemNum : s.itemNum + s.producer.uncounted = s.produced.length

/-- The message queue: the messages are the items that are not taken. -/
structure Messages (s : State) : Prop where
  waiting : s.messages = (s.produced.drop s.taken).map fun item => item ++ [0]
  localNum : s.localNum = s.numbered

/-- The items that are not taken are in the queue of the mode. -/
def Queue : Mode → State → Prop
  | .shm => Memory
  | .mq => Messages

/-- An item that the producer session has read and not put into the queue. -/
def ProducerPc.pending : ProducerPc → List Bytes
  | .waitEmpty item | .waitMutex item | .copy item | .send item => [item]
  | _ => []

/-- The items are put into the queue in their order. -/
structure Source (items : List Bytes) (s : State) : Prop where
  left : ∃ left, items = s.produced ++ (s.producer.pending ++ left) ∧ s.input = left.map fun item => item ++ [10]
  ended : s.producer = .ended → s.input = []
  taken : s.taken ≤ s.produced.length

/-- An item that has no number yet. -/
@[simp] def ConsumerPc.unnumbered : ConsumerPc → ℕ
  | .advance _ | .postMutex _ | .postEmpty _ | .number _ => 1
  | _ => 0

/-- The item that the consumer session has taken and not written. -/
@[simp] def ConsumerPc.hand : ConsumerPc → Option Bytes
  | .advance item | .postMutex item | .postEmpty item | .number item | .write _ item => some item
  | _ => none

/-- What is missing of the line of the last item taken. -/
@[simp] def ConsumerPc.missing : ConsumerPc → ℕ → Bytes
  | .advance item, k | .postMutex item, k | .postEmpty item, k | .number item, k | .write _ item, k =>
    numberedLine k item ++ [10]
  | .newline, _ => [10]
  | _, _ => []

/-- The lines of the items taken are written, up to the part of the last one that is missing. -/
structure Written (s : State) : Prop where
  numbered : s.numbered + s.consumer.unnumbered = s.taken
  hand : ∀ item, s.consumer.hand = some item → numberedLine s.taken item ∈ numberedLines s.produced
  output : s.output ++ s.consumer.missing s.taken = unlines 10 (numberedLines (s.produced.take s.taken))
  num : ∀ num item, s.consumer = .write num item → num = s.taken

structure Invariant (mode : Mode) (items : List Bytes) (s : State) : Prop where
  source : Source items s
  queue : Queue mode s
  written : Written s
  -- the condition on the steps keeps `item_num` from going ahead
  level : mode = .shm → s.itemNum ≤ s.numbered + 1

theorem Sendable.fits {items : List Bytes} (sendable : Sendable items) {item : Bytes} (inside : item ∈ items) :
    item.length + 2 < MAX_STR := by
  obtain ⟨k, here⟩ := List.mem_iff_getElem?.mp inside
  have member : numberedLine (1 + k) item ∈ numberedLines items :=
    List.mem_map.mpr ⟨(item, 1 + k), List.mk_add_mem_zipIdx_iff_getElem?.mpr here, rfl⟩
  have short := sendable.short _ member
  simp only [numberedLine, List.length_append] at short
  have two : (ascii [':', ' ']).length = 2 := rfl
  omega

theorem received_message {item : Bytes} (plain : ∀ b ∈ item, b ≠ 0 ∧ b ≠ 13 ∧ b ≠ 10) :
    received (item ++ [0]) = item := by
  rw [received, List.dropLast_concat, List.takeWhile_eq_self_iff]
  intro b inside
  simpa using (plain b inside).1

section
variable {mode : Mode} {items : List Bytes} {s t : State}

omit s t in
@[simp] theorem callProducer_pending (mode : Mode) (item : Bytes) : (callProducer mode item).pending = [item] := by
  cases mode <;> rfl

attribute [local simp] producerStep consumerStep

theorem producer_source (sendable : Sendable items) (source : Source items s) (taken : producerStep mode s = some t) :
    Source items t := by
  obtain ⟨⟨left, whole, input⟩, -, le⟩ := source
  cases here : s.producer <;> rw [here] at whole
  case readItem =>
    simp only [producerStep, here] at taken
    split at taken
    · rename_i nothing
      cases taken
      exact ⟨⟨left, whole, input⟩, fun _ => nothing, le⟩
    · rename_i piece rest arrived
      obtain ⟨-, ⟨⟩⟩ := Option.ite_none_right_eq_some.mp taken
      rw [arrived] at input
      cases left with
      | nil => cases input
      | cons item left =>
        obtain ⟨rfl, rfl⟩ := List.cons.inj input
        have plain := sendable.plain item (by simp [whole])
        refine ⟨⟨left, ?_, rfl⟩, ?_, le⟩
        · rw [Clients.line_append plain, callProducer_pending]
          exact whole
        · intro ended
          cases mode <;> cases ended
  case ok =>
    simp only [producerStep, here] at taken
    cases taken
    exact ⟨⟨left, whole, input⟩, fun ended => (by cases ended), le⟩
  case ended => cases mode <;> simp [here] at taken
  case copy item =>
    cases mode <;> simp only [producerStep, here] at taken <;> cases taken
    refine ⟨⟨left, ?_, input⟩, fun ended => (by cases ended), ?_⟩
    · rw [whole, List.append_assoc]
      rfl
    · rw [List.length_append]
      exact Nat.le_add_right_of_le le
  case send item =>
    cases mode <;> simp only [producerStep, here] at taken
    · cases taken
    · obtain ⟨-, ⟨⟩⟩ := Option.ite_none_right_eq_some.mp taken
      refine ⟨⟨left, ?_, input⟩, fun ended => (by cases ended), ?_⟩
      · rw [whole, List.append_assoc]
        rfl
      · rw [List.length_append]
        exact Nat.le_add_right_of_le le
  all_goals
    cases mode <;> simp only [producerStep, here] at taken
    · first | cases taken | obtain ⟨-, ⟨⟩⟩ := Option.ite_none_right_eq_some.mp taken
      exact ⟨⟨left, whole, input⟩, fun ended => (by cases ended), le⟩
    · cases taken

/-- What the producer session leaves alone. -/
theorem producer_frame (taken : producerStep mode s = some t) :
    t.consumer = s.consumer ∧ t.taken = s.taken ∧ t.numbered = s.numbered ∧ t.output = s.output ∧
      t.localNum = s.localNum ∧ s.produced <+: t.produced := by
  unfold producerStep at taken
  split at taken
  all_goals
    first
      | split at taken
        · cases taken
          exact ⟨rfl, rfl, rfl, rfl, rfl, List.prefix_rfl⟩
        · obtain ⟨-, ⟨⟩⟩ := Option.ite_none_right_eq_some.mp taken
          exact ⟨rfl, rfl, rfl, rfl, rfl, List.prefix_rfl⟩
      | cases taken
        exact ⟨rfl, rfl, rfl, rfl, rfl, List.prefix_append ..⟩
      | cases taken
        exact ⟨rfl, rfl, rfl, rfl, rfl, List.prefix_rfl⟩
      | obtain ⟨-, ⟨⟩⟩ := Option.ite_none_right_eq_some.mp taken
        exact ⟨rfl, rfl, rfl, rfl, rfl, List.prefix_append ..⟩
      | obtain ⟨-, ⟨⟩⟩ := Option.ite_none_right_eq_some.mp taken
        exact ⟨rfl, rfl, rfl, rfl, rfl, List.prefix_rfl⟩
      | cases taken

theorem producer_memory (memory : Memory s) (few : s.produced.length < 2 ^ 31)
    (fits : ∀ item ∈ s.producer.pending, item.length ≤ MAX_STR - 1) (taken : producerStep .shm s = some t) :
    Memory t := by
  obtain ⟨mutex, empty, full, tail, head, stored, itemNum⟩ := memory
  cases here : s.producer <;> rw [here] at mutex empty full tail itemNum fits <;>
    simp only [producerStep, here] at taken
  case readItem =>
    split at taken
    · cases taken
      exact ⟨mutex, empty, full, tail, head, stored, itemNum⟩
    · obtain ⟨-, ⟨⟩⟩ := Option.ite_none_right_eq_some.mp taken
      exact ⟨mutex, empty, full, tail, head, stored, itemNum⟩
  case waitEmpty | waitMutex =>
    obtain ⟨positive, ⟨⟩⟩ := Option.ite_none_right_eq_some.mp taken
    refine ⟨?_, ?_, full, tail, head, stored, itemNum⟩ <;> simp only [ProducerPc.inside, ProducerPc.place] at * <;> omega
  case copy item =>
    cases taken
    have room : s.produced.length < s.taken + N := by
      have := s.consumer.place_nonneg
      simp only [ProducerPc.place] at empty
      omega
    have same : strncpy item (MAX_STR - 1) = item := List.take_of_length_le (fits item (List.mem_singleton_self item))
    simp only [ProducerPc.behind, Nat.add_zero, Nat.mod_eq_of_lt tail.1] at tail
    have longer : (s.produced ++ [item]).length = s.produced.length + 1 := List.length_append
    simp only [ProducerPc.place, ProducerPc.item, ProducerPc.uncounted] at empty full itemNum
    refine ⟨mutex, ?_, ?_, ⟨tail.1, ?_⟩, head, ?_, ?_⟩
    · simp only [ProducerPc.place, longer]
      omega
    · simp only [ProducerPc.item, longer]
      omega
    · simp [tail.2]
    · rw [same, tail.2]
      exact stored.put room item
    · simp only [ProducerPc.uncounted, longer]
      omega
  case advance =>
    cases taken
    refine ⟨mutex, empty, full, ?_, head, stored, itemNum⟩
    simp [N] at *
    omega
  case count =>
    cases taken
    simp only [ProducerPc.uncounted] at itemNum
    have next : incInt s.itemNum = s.itemNum + 1 := incInt_of_lt (by omega) (by omega)
    refine ⟨mutex, empty, full, tail, head, stored, ?_⟩
    simp only [ProducerPc.uncounted, next]
    omega
  case postMutex | postFull =>
    cases taken
    refine ⟨?_, empty, ?_, tail, head, stored, ?_⟩ <;>
      simp only [ProducerPc.inside, ProducerPc.item, ProducerPc.uncounted] at * <;> omega
  case ok =>
    cases taken
    exact ⟨mutex, empty, full, tail, head, stored, itemNum⟩
  case send | ended => cases taken

/-- An item that the consumer session has got from `full` is counted. -/
theorem Memory.counted (memory : Memory s) : s.taken + s.consumer.item ≤ s.itemNum := by
  have full := memory.full
  have itemNum := memory.itemNum
  cases here : s.producer <;> rw [here] at full itemNum <;>
    simp only [ProducerPc.item, ProducerPc.uncounted] at full itemNum <;> omega

theorem consumer_memory (memory : Memory s) (taken : consumerStep .shm s = some t) : Memory t := by
  obtain ⟨mutex, empty, full, tail, head, stored, itemNum⟩ := memory
  cases here : s.consumer <;> rw [here] at mutex empty full head <;> simp only [consumerStep, here] at taken
  case waitFull | waitMutex =>
    obtain ⟨positive, ⟨⟩⟩ := Option.ite_none_right_eq_some.mp taken
    refine ⟨?_, empty, ?_, tail, head, stored, itemNum⟩ <;> simp only [ConsumerPc.inside, ConsumerPc.item] at * <;> omega
  case copy =>
    cases taken
    simp only [ConsumerPc.behind, Nat.add_zero, Nat.mod_eq_of_lt head.1] at head
    simp only [ConsumerPc.place, ConsumerPc.item] at empty full
    refine ⟨mutex, ?_, ?_, tail, ⟨head.1, ?_⟩, stored.later (Nat.le_succ _), itemNum⟩
    · simp only [ConsumerPc.place]
      omega
    · simp only [ConsumerPc.item]
      omega
    · simp [head.2]
  case advance =>
    cases taken
    refine ⟨mutex, empty, full, tail, ?_, stored, itemNum⟩
    simp [N] at *
    omega
  case postMutex | postEmpty =>
    cases taken
    refine ⟨?_, ?_, full, tail, head, stored, itemNum⟩ <;> simp only [ConsumerPc.inside, ConsumerPc.place] at * <;> omega
  case receive | ended => cases taken
  case number | write | newline | readAck =>
    cases taken
    exact ⟨mutex, empty, full, tail, head, stored, itemNum⟩

theorem producer_messages (messages : Messages s) (le : s.taken ≤ s.produced.length)
    (fits : ∀ item ∈ s.producer.pending, item.length ≤ MAX_STR - 1) (taken : producerStep .mq s = some t) :
    Messages t := by
  obtain ⟨waiting, localNum⟩ := messages
  cases here : s.producer <;> rw [here] at fits <;> simp only [producerStep, here] at taken
  case readItem =>
    split at taken
    · cases taken
      exact ⟨waiting, localNum⟩
    · obtain ⟨-, ⟨⟩⟩ := Option.ite_none_right_eq_some.mp taken
      exact ⟨waiting, localNum⟩
  case send item =>
    obtain ⟨-, ⟨⟩⟩ := Option.ite_none_right_eq_some.mp taken
    refine ⟨?_, localNum⟩
    have same : item.take (MAX_STR - 1) = item := List.take_of_length_le (fits item (List.mem_singleton_self item))
    simp only [waiting, same, List.drop_append_of_le_length le, List.map_append]
    rfl
  case ok =>
    cases taken
    exact ⟨waiting, localNum⟩
  all_goals cases taken

/-- The first message is the first item that is not taken. -/
theorem Messages.next {message : Bytes} {rest : List Bytes} (messages : Messages s)
    (arrived : s.messages = message :: rest) : ∃ item, s.produced[s.taken]? = some item ∧ message = item ++ [0] ∧
      rest = (s.produced.drop (s.taken + 1)).map fun item => item ++ [0] := by
  have waiting := messages.waiting
  rw [arrived] at waiting
  cases left : s.produced.drop s.taken with
  | nil =>
    rw [left] at waiting
    cases waiting
  | cons item later =>
    rw [left] at waiting
    obtain ⟨rfl, rfl⟩ := List.cons.inj waiting
    refine ⟨item, ?_, rfl, ?_⟩
    · rw [← List.head?_drop, left, List.head?_cons]
    · rw [← List.tail_drop, left, List.tail_cons]

theorem consumer_messages (messages : Messages s) (few : s.numbered + s.consumer.unnumbered < 2 ^ 31) (taken : consumerStep .mq s = some t) : Messages t := by
  obtain ⟨waiting, localNum⟩ := id messages
  cases here : s.consumer <;> rw [here] at few <;> simp only [consumerStep, here] at taken
  case receive =>
    split at taken
    · cases taken
    · rename_i message rest arrived
      cases taken
      obtain ⟨item, -, -, later⟩ := messages.next arrived
      exact ⟨later, localNum⟩
  case number =>
    cases taken
    simp only [ConsumerPc.unnumbered] at few
    refine ⟨waiting, ?_⟩
    rw [incInt_of_lt (by omega) (by omega), localNum, Nat.cast_succ]
  case write | newline | readAck =>
    cases taken
    exact ⟨waiting, localNum⟩
  all_goals cases taken

/-- The item at the head is the first that is not taken. -/
theorem Memory.next (memory : Memory s) (here : s.consumer = .copy) :
    s.produced[s.taken]? = some (s.buffer s.head) := by
  obtain ⟨inRange, head⟩ := memory.head
  have counted := memory.counted
  have itemNum := memory.itemNum
  rw [here] at head counted
  simp only [ConsumerPc.behind, ConsumerPc.item, Nat.add_zero, Nat.mod_eq_of_lt inRange] at head counted
  rw [head]
  exact memory.stored s.taken le_rfl (by omega)

/-- The session takes the next item when the last line is written. -/
theorem Written.take {item : Bytes} (written : Written s) (nothing : s.consumer.missing s.taken = [])
    (next : s.produced[s.taken]? = some item) :
    numberedLine (s.taken + 1) item ∈ numberedLines s.produced ∧
      s.output ++ (numberedLine (s.taken + 1) item ++ [10]) =
        unlines 10 (numberedLines (s.produced.take (s.taken + 1))) := by
  have output := written.output
  rw [nothing, List.append_nil] at output
  have length : (s.produced.take s.taken).length = s.taken :=
    List.length_take_of_le (List.getElem?_eq_some_iff.mp next).1.le
  have lines : numberedLines (s.produced.take (s.taken + 1)) =
      numberedLines (s.produced.take s.taken) ++ [numberedLine (s.taken + 1) item] := by
    rw [List.take_add_one, next, Option.toList_some, numbered_concat, length]
  refine ⟨(numbered_mono (List.take_prefix (s.taken + 1) _)).subset ?_, ?_⟩
  · rw [lines]
    exact List.mem_append_right _ (List.mem_singleton_self _)
  · rw [lines, unlines_append, ← output]
    simp

theorem consumer_written (sendable : Sendable items) (few : items.length < 2 ^ 31) (source : Source items s) (queue : Queue mode s)
    (level : mode = .shm → s.itemNum ≤ s.numbered + 1) (written : Written s)
    (taken : consumerStep mode s = some t) : Written t := by
  obtain ⟨numbered, hand, output, num⟩ := id written
  have produced : s.produced <+: items := by
    obtain ⟨left, rfl, -⟩ := source.left
    exact List.prefix_append ..
  cases here : s.consumer <;> rw [here] at numbered hand output
  case waitFull | waitMutex =>
    cases mode <;> simp only [consumerStep, here] at taken
    · obtain ⟨positive, ⟨⟩⟩ := Option.ite_none_right_eq_some.mp taken
      exact ⟨numbered, hand, output, fun _ _ same => by cases same⟩
    · cases taken
  case copy =>
    cases mode <;> simp only [consumerStep, here] at taken <;> cases taken
    have next := Memory.next queue here
    have member := sendable.fits (produced.subset (List.mem_of_getElem? next))
    have same : strncpy (s.buffer s.head) (MAX_STR - 1) = s.buffer s.head := List.take_of_length_le (by omega)
    obtain ⟨member, line⟩ := written.take (by rw [here]; rfl) next
    refine ⟨?_, ?_, ?_, fun _ _ same => by cases same⟩
    · exact congrArg (· + 1) numbered
    · rw [same]
      rintro item ⟨⟩
      exact member
    · rw [same]
      exact line
  case receive =>
    cases mode <;> simp only [consumerStep, here] at taken
    · cases taken
    · split at taken
      · cases taken
      · rename_i message rest arrived
        cases taken
        obtain ⟨item, next, rfl, -⟩ := Messages.next queue arrived
        have same := received_message (sendable.plain item (produced.subset (List.mem_of_getElem? next)))
        obtain ⟨member, line⟩ := written.take (by rw [here]; rfl) next
        refine ⟨?_, ?_, ?_, fun _ _ same => by cases same⟩
        · exact congrArg (· + 1) numbered
        · rw [same]
          rintro item ⟨⟩
          exact member
        · rw [same]
          exact line
  case advance | postMutex | postEmpty =>
    cases mode <;> simp only [consumerStep, here] at taken <;> cases taken
    exact ⟨numbered, hand, output, fun _ _ same => by cases same⟩
  case number item =>
    simp only [ConsumerPc.unnumbered] at numbered
    cases mode <;> simp only [consumerStep, here] at taken <;> cases taken
    · have counted := Memory.counted queue
      have atMost := level rfl
      rw [here] at counted
      simp only [ConsumerPc.item] at counted
      refine ⟨numbered, hand, output, ?_⟩
      rintro _ _ ⟨⟩
      dsimp only
      omega
    · have localNum := Messages.localNum queue
      have all := produced.length_le
      have le := source.taken
      refine ⟨numbered, hand, output, ?_⟩
      rintro _ _ ⟨⟩
      rw [incInt_of_lt (by omega) (by omega)]
      dsimp only
      omega
  case write number item =>
    simp only [consumerStep, here] at taken
    cases taken
    obtain rfl := num number item here
    have short := sendable.short _ ((numbered_mono produced).subset (hand item rfl))
    refine ⟨numbered, ?_, ?_, fun _ _ same => by cases same⟩
    · rintro item ⟨⟩
    · rw [List.take_of_length_le (Nat.le_sub_one_of_lt short)]
      simpa using output
  case newline =>
    simp only [consumerStep, here] at taken
    cases taken
    exact ⟨numbered, hand, by simpa using output, fun _ _ same => by cases same⟩
  case readAck =>
    simp only [consumerStep, here] at taken
    cases taken
    cases mode <;> exact ⟨numbered, hand, output, fun _ _ same => by cases same⟩
  case ended => cases mode <;> simp [here] at taken

/-! ### Every run -/

theorem consumer_frame (taken : consumerStep mode s = some t) :
    t.producer = s.producer ∧ t.input = s.input ∧ t.produced = s.produced ∧ t.itemNum = s.itemNum ∧
      s.numbered ≤ t.numbered := by
  unfold consumerStep at taken
  split at taken
  all_goals
    first
      | obtain ⟨-, ⟨⟩⟩ := Option.ite_none_right_eq_some.mp taken
        exact ⟨rfl, rfl, rfl, rfl, le_rfl⟩
      | split at taken
        · cases taken
        · cases taken
          exact ⟨rfl, rfl, rfl, rfl, le_rfl⟩
      | cases taken
        exact ⟨rfl, rfl, rfl, rfl, le_rfl⟩
      | cases taken
        exact ⟨rfl, rfl, rfl, rfl, Nat.le_succ _⟩
      | cases taken

/-- The items of the queue were put into it. -/
theorem consumer_le (queue : Queue mode s) (le : s.taken ≤ s.produced.length) (taken : consumerStep mode s = some t) :
    t.taken ≤ t.produced.length := by
  cases mode with
  | shm =>
    have memory := consumer_memory queue taken
    have counted := memory.counted
    have itemNum := memory.itemNum
    have nonneg : 0 ≤ t.consumer.item := by cases t.consumer <;> simp
    omega
  | mq =>
    cases here : s.consumer <;> simp only [consumerStep, here] at taken
    case receive =>
      split at taken
      · cases taken
      · rename_i message rest arrived
        cases taken
        obtain ⟨item, next, -⟩ := Messages.next queue arrived
        exact (List.getElem?_eq_some_iff.mp next).1
    case number | write | newline | readAck =>
      cases taken
      exact le
    all_goals cases taken

theorem producer_written (written : Written s) (le : s.taken ≤ s.produced.length)
    (taken : producerStep mode s = some t) : Written t := by
  obtain ⟨consumer, sameTaken, sameNumbered, sameOutput, -, more⟩ := producer_frame taken
  obtain ⟨numbered, hand, output, num⟩ := written
  have first : t.produced.take s.taken = s.produced.take s.taken := by
    obtain ⟨new, whole⟩ := more
    rw [← whole, List.take_append_of_le_length le]
  rw [← consumer, ← sameTaken] at numbered hand output num
  rw [← sameTaken] at first
  refine ⟨sameNumbered ▸ numbered, fun item here => (numbered_mono more).subset (hand item here), ?_, num⟩
  rw [sameOutput, first]
  exact output

/-- `item_num` is raised by one statement only. -/
theorem producer_itemNum (taken : producerStep mode s = some t) :
    t.itemNum = s.itemNum ∨ mode = .shm ∧ s.producer = .count ∧ t.itemNum = incInt s.itemNum := by
  cases here : s.producer
  case count =>
    cases mode <;> simp only [producerStep, here] at taken <;> cases taken
    exact .inr ⟨rfl, rfl, rfl⟩
  case readItem =>
    refine .inl ?_
    simp only [producerStep, here] at taken
    split at taken
    · cases taken
      rfl
    · obtain ⟨-, ⟨⟩⟩ := Option.ite_none_right_eq_some.mp taken
      rfl
  all_goals
    refine .inl ?_
    cases mode <;> simp only [producerStep, here] at taken
    all_goals first | cases taken; rfl | cases taken | obtain ⟨-, ⟨⟩⟩ := Option.ite_none_right_eq_some.mp taken; rfl

theorem start_invariant (mode : Mode) (items : List Bytes) : Invariant mode items (start mode items) := by
  refine ⟨⟨⟨items, rfl, rfl⟩, fun ended => (by cases ended), le_rfl⟩, ?_, ⟨?_, ?_, ?_, ?_⟩, fun _ => by simp [start]⟩
  · cases mode
    · exact ⟨rfl, rfl, rfl, ⟨Nat.succ_pos 7, rfl⟩, ⟨Nat.succ_pos 7, rfl⟩, stored_nil N _ 0, rfl⟩
    · exact ⟨rfl, rfl⟩
  · cases mode <;> rfl
  · cases mode <;> rintro item ⟨⟩
  · cases mode <;> rfl
  · cases mode <;> rintro num item ⟨⟩

theorem step_invariant (sendable : Sendable items) (few : items.length < 2 ^ 31) (s : State) (move : Move) (t : State)
    (inv : Invariant mode items s) (timely : Timely mode s move) (taken : step mode s move = some t) :
    Invariant mode items t := by
  obtain ⟨source, queue, written, level⟩ := inv
  have room : s.produced.length ≤ items.length := by
    obtain ⟨left, whole, -⟩ := source.left
    rw [whole, List.length_append]
    exact Nat.le_add_right ..
  cases move with
  | producer =>
    have fits : ∀ item ∈ s.producer.pending, item.length ≤ MAX_STR - 1 := by
      intro item inside
      obtain ⟨left, whole, -⟩ := source.left
      have := sendable.fits (by rw [whole]; simp [inside] : item ∈ items)
      omega
    refine ⟨producer_source sendable source taken, ?_, producer_written written source.taken taken, ?_⟩
    · cases mode with
      | shm => exact producer_memory queue (by omega) fits taken
      | mq => exact producer_messages queue source.taken fits taken
    · intro shm
      have atMost := level shm
      obtain ⟨-, -, numbered, -⟩ := producer_frame taken
      rcases producer_itemNum taken with same | ⟨-, here, raised⟩
      · omega
      · have level := timely shm rfl here
        subst shm
        have counted := Memory.itemNum queue
        rw [here] at counted
        simp only [ProducerPc.uncounted] at counted
        rw [raised, incInt_of_lt (by omega) (by omega)]
        omega
  | consumer =>
    obtain ⟨producer, input, produced, itemNum, numbered⟩ := consumer_frame taken
    refine ⟨⟨?_, ?_, consumer_le queue source.taken taken⟩, ?_,
      consumer_written sendable few source queue level written taken, fun shm => ?_⟩
    · rw [producer, input, produced]
      exact source.left
    · rw [producer, input]
      exact source.ended
    · cases mode with
      | shm => exact consumer_memory queue taken
      | mq =>
        have numbered := written.numbered
        have le := source.taken
        exact consumer_messages queue (by omega) taken
    · have := level shm
      omega
  | hangup =>
    obtain ⟨here, ⟨⟩⟩ := Option.ite_none_right_eq_some.mp taken
    obtain ⟨numbered, hand, output, num⟩ := written
    rw [here] at numbered hand output
    have written : Written { s with consumer := .ended } := ⟨numbered, hand, output, fun _ _ same => by cases same⟩
    refine ⟨⟨source.left, source.ended, source.taken⟩, ?_, written, level⟩
    cases mode with
    | shm =>
      obtain ⟨mutex, empty, full, tail, head, stored, itemNum⟩ := queue
      rw [here] at mutex empty full head
      exact ⟨mutex, empty, full, tail, head, stored, itemNum⟩
    | mq =>
      obtain ⟨waiting, localNum⟩ := queue
      exact ⟨waiting, localNum⟩

theorem Invariant.printed (inv : Invariant mode items s) : Printed mode items s := by
  obtain ⟨source, queue, written, -⟩ := inv
  obtain ⟨⟨left, whole, input⟩, noInput, le⟩ := source
  have produced : s.produced <+: items := whole ▸ List.prefix_append ..
  have first : s.produced.take s.taken = items.take s.taken := by
    rw [whole, List.take_append_of_le_length le]
  have output := written.output
  rw [first] at output
  have lines : s.consumer = callConsumer mode → s.output = unlines 10 (numberedLines (items.take s.taken)) := by
    intro here
    rw [here] at output
    cases mode <;> simpa [callConsumer] using output
  refine ⟨?_, lines, ?_⟩
  · have mono : unlines 10 (numberedLines (items.take s.taken)) <+: unlines 10 (numberedLines items) := by
      obtain ⟨more, same⟩ := numbered_mono (List.take_prefix s.taken items)
      rw [← same, unlines_append]
      exact List.prefix_append ..
    exact (output ▸ List.prefix_append ..).trans mono
  · intro here ended noFull noMessage
    rw [lines here]
    rw [noInput ended] at input
    obtain rfl : left = [] := List.map_eq_nil_iff.mp input.symm
    rw [ended] at whole
    have all : items = s.produced := whole.trans (List.append_nil _)
    have taken : s.produced.length ≤ s.taken := by
      cases mode with
      | shm =>
        have full := Memory.full queue
        rw [here, ended, noFull] at full
        simp only [callConsumer, ProducerPc.item, ConsumerPc.item] at full
        omega
      | mq =>
        have waiting := Messages.waiting queue
        rw [noMessage] at waiting
        exact List.drop_eq_nil_iff.mp (List.map_eq_nil_iff.mp waiting.symm)
    rw [all, List.take_of_length_le taken]

end

/-- In both modes the lines are those of the items, numbered in their order, when an `int` counts them and the producer
    counts no item before the one before has got its number. -/
theorem lines_numbered {mode : Mode} {items : List Bytes} (sendable : Sendable items) (few : items.length < 2 ^ 31)
    {moves : List Move}
    (timely : AllSteps (step mode) (Timely mode) (start mode items) moves) :
    AllStates (step mode) (Printed mode items) (start mode items) moves :=
  allStates_mono (fun _ => Invariant.printed)
    (allStates_of (step_invariant sendable few) (start_invariant mode items) timely)

def two : List Bytes := [ascii ['a'], ascii ['b']]

theorem two_sendable : Sendable two := by
  refine ⟨?_, by decide⟩
  intro item inside
  rcases List.mem_pair.mp inside with rfl | rfl <;> simp [ascii]

/-- The consumer session writes each item before the next one is put into the buffer. -/
theorem lines_numbered_sample :
    ∃ s, Reachable (step .shm) (start .shm two) s ∧ s.output = unlines 10 (numberedLines two) := by
  let moves : List Move :=
    [List.replicate 9 .producer, List.replicate 10 .consumer, List.replicate 9 .producer, List.replicate 10 .consumer,
      [.producer]].flatten
  obtain ⟨s, run, last⟩ : ∃ s, exec (step .shm) (start .shm two) moves = some s ∧
      (s.consumer, s.producer, s.full, s.messages) = (.waitFull, .ended, 0, []) := Option.map_eq_some_iff.mp (by decide)
  simp only [Prod.mk.injEq] at last
  have timely : AllSteps (step .shm) (Timely .shm) (start .shm two) moves := by decide
  have printed := allStates_last (lines_numbered two_sendable (by decide) timely) run
  exact ⟨s, ⟨moves, run⟩, printed.finished last.1 last.2.1 last.2.2.1 last.2.2.2⟩

/-- The producer is one item ahead. -/
theorem number_ahead :
    ¬ ∀ (mode : Mode) (items : List Bytes), Sendable items → ∀ s, Reachable (step mode) (start mode items) s →
      Printed mode items s := by
  intro always
  let moves : List Move := [List.replicate 18 .producer, List.replicate 10 .consumer].flatten
  obtain ⟨s, run, last⟩ : ∃ s, exec (step .shm) (start .shm two) moves = some s ∧
      (s.consumer, s.taken, s.output) = (.waitFull, 1, ascii ['2', ':', ' ', 'a', '\n']) :=
    Option.map_eq_some_iff.mp (by decide)
  simp only [Prod.mk.injEq] at last
  have written := (always .shm two two_sendable s ⟨moves, run⟩).whole last.1
  rw [last.2.1, last.2.2] at written
  exact absurd written (by decide)

end OsyProg.NumberedLines
