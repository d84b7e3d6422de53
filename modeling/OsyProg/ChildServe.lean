import OsyProg.Bytes
import OsyProg.Interleaving
import Mathlib.Tactic.Ring

/-!
The server of `DU/DU04`: `child_serve` for any number of clients, each in a thread of its
own, one statement a step, over the queue with its three semaphores and the counter of
the producers. The clients send any bytes, and hang up when they want. A consumer ends
when it sees that no producer is connected and the queue is empty, but what it sees may
have changed when it waits for an item: `waiting_supplied` says when that does no harm.
-/
namespace OsyProg.ChildServe
open OsyProg.Bytes OsyProg.Interleaving OsyProg.Runs

def MAX_LINE : ℕ := 10
def BUFFER_SIZE : ℕ := 10

/-! ### `recv_line` -/

/-- The loop of `recv_line` ends after these bytes. -/
def lineEnds (cap : ℕ) (buf : Bytes) : Prop := buf.getLast? = some 10 ∨ cap ≤ buf.length + 1

instance (cap : ℕ) : DecidablePred (lineEnds cap) := fun buf => by
  unfold lineEnds
  infer_instance

/-- The string that `recv_line` leaves in its buffer: a newline at the end and a CR before the
    last byte are made zeros. -/
def lineOf (buf : Bytes) : Bytes :=
  let i := buf.length
  let buf := if buf[i - 1]? = some 10 then buf.set (i - 1) 0 else buf
  let buf := if 1 < i ∧ buf[i - 2]? = some 13 then buf.set (i - 2) 0 else buf
  buf.takeWhile fun b => b ≠ 0

/-! ### The threads -/

/-- The queue with its semaphores, and the counter of the producers with its mutex. -/
structure Shared where
  queue : ℕ → Bytes
  head : ℕ
  tail : ℕ
  semEmpty : ℕ
  semFull : ℕ
  semMutex : ℕ
  producerCnt : ℤ
  cntMutex : ℕ

/-- The call of `recv_line`: of the task, of an item, or of an acknowledgement. -/
inductive Place
  | task | item | ack
  deriving DecidableEq

/-- The statement of `child_serve`, or of what it calls, that comes next. -/
inductive Pc
  | sendTask                                    -- send_str(l_sock_client, "Task?\n")
  | recv (place : Place) (buf : Bytes)          -- recv(fd, &c, 1, 0) in recv_line
  | lockIn                                      -- pthread_mutex_lock(&g_cnt_mutex)
  | countIn                                     -- g_producer_cnt++
  | unlockIn                                    -- pthread_mutex_unlock(&g_cnt_mutex)
  | sendEmptyOk                                 -- send_str(l_sock_client, "OK\n") for an empty line
  | waitEmpty (item : Bytes)                    -- sem_wait(&g_sem_empty)
  | waitMutex (item : Bytes)                    -- sem_wait(&g_sem_mutex)
  | copyIn (item : Bytes)                       -- strncpy(g_queue[g_q_tail], item, MAX_LINE - 1)
  | advanceTail                                 -- g_q_tail = (g_q_tail + 1) % BUFFER_SIZE
  | postMutex                                   -- sem_post(&g_sem_mutex)
  | postFull                                    -- sem_post(&g_sem_full)
  | sendOk                                      -- send_str(l_sock_client, "OK\n")
  | lockOut                                     -- pthread_mutex_lock(&g_cnt_mutex)
  | countOut                                    -- g_producer_cnt--
  | unlockOut                                   -- pthread_mutex_unlock(&g_cnt_mutex)
  | lockTest                                    -- pthread_mutex_lock(&g_cnt_mutex)
  | loadCnt                                     -- local_cnt = g_producer_cnt
  | unlockTest (cnt : ℤ)                        -- pthread_mutex_unlock(&g_cnt_mutex)
  | getValue (cnt : ℤ)                          -- sem_getvalue(&g_sem_empty, &empty_val)
  | test (cnt : ℤ) (value : ℕ)                  -- if (local_cnt == 0 && empty_val == BUFFER_SIZE) break
  | waitFull                                    -- sem_wait(&g_sem_full)
  | waitMutexOut                                -- sem_wait(&g_sem_mutex)
  | copyOut                                     -- strncpy(out, g_queue[g_q_head], MAX_LINE - 1)
  | advanceHead (item : Bytes)                  -- g_q_head = (g_q_head + 1) % BUFFER_SIZE
  | postMutexOut (item : Bytes)                 -- sem_post(&g_sem_mutex)
  | postEmpty (item : Bytes)                    -- sem_post(&g_sem_empty)
  | sendItem (item : Bytes)                     -- send_str(l_sock_client, out)
  | close                                       -- close(l_sock_client)
  | closed
  deriving DecidableEq

/-- What a statement gets from the client where it gets something: a byte, or the end of the stream. -/
inductive Choice
  | go
  | byte (b : UInt8)
  | hangup
  deriving DecidableEq

def roleProducer : Bytes := ascii ['p', 'r', 'o', 'd', 'u', 'c', 'e', 'r']
def roleConsumer : Bytes := ascii ['c', 'o', 'n', 's', 'u', 'm', 'e', 'r']

/-- The statement after `recv_line` has returned a line. -/
def afterLine : Place → Bytes → Pc
  | .task, line => if line = roleProducer then .lockIn else if line = roleConsumer then .lockTest else .close
  | .item, line => if line = [] then .sendEmptyOk else .waitEmpty line
  | .ack, _ => .lockTest

/-- The statement after `recv_line` has returned 0. -/
def afterHangup : Place → Pc
  | .task | .ack => .close
  | .item => .lockOut

/-- What a statement sends to the client, when it sends something. -/
def message : Pc → Option Bytes
  | .sendTask => some (ascii ['T', 'a', 's', 'k', '?', '\n'])
  | .sendEmptyOk | .sendOk => some (ascii ['O', 'K', '\n'])
  | .sendItem item => some ((item ++ [10]).take (MAX_LINE + 3))
  | _ => none

/-- One statement of a thread; none when it waits. -/
def procStep (s : Shared) : Pc → Choice → Option (Shared × Pc)
  | .sendTask, .go => some (s, .recv .task [])
  | .recv place buf, .byte b =>
    some (s, if lineEnds MAX_LINE (buf ++ [b]) then afterLine place (lineOf (buf ++ [b])) else .recv place (buf ++ [b]))
  | .recv place _, .hangup => some (s, afterHangup place)
  | .lockIn, .go => if 0 < s.cntMutex then some ({ s with cntMutex := s.cntMutex - 1 }, .countIn) else none
  | .countIn, .go => some ({ s with producerCnt := s.producerCnt + 1 }, .unlockIn)
  | .unlockIn, .go => some ({ s with cntMutex := s.cntMutex + 1 }, .recv .item [])
  | .sendEmptyOk, .go => some (s, .recv .item [])
  | .waitEmpty item, .go =>
    if 0 < s.semEmpty then some ({ s with semEmpty := s.semEmpty - 1 }, .waitMutex item) else none
  | .waitMutex item, .go => if 0 < s.semMutex then some ({ s with semMutex := s.semMutex - 1 }, .copyIn item) else none
  | .copyIn item, .go =>
    some ({ s with queue := Function.update s.queue s.tail (strncpy item (MAX_LINE - 1)) }, .advanceTail)
  | .advanceTail, .go => some ({ s with tail := (s.tail + 1) % BUFFER_SIZE }, .postMutex)
  | .postMutex, .go => some ({ s with semMutex := s.semMutex + 1 }, .postFull)
  | .postFull, .go => some ({ s with semFull := s.semFull + 1 }, .sendOk)
  | .sendOk, .go => some (s, .recv .item [])
  | .lockOut, .go => if 0 < s.cntMutex then some ({ s with cntMutex := s.cntMutex - 1 }, .countOut) else none
  | .countOut, .go => some ({ s with producerCnt := s.producerCnt - 1 }, .unlockOut)
  | .unlockOut, .go => some ({ s with cntMutex := s.cntMutex + 1 }, .close)
  | .lockTest, .go => if 0 < s.cntMutex then some ({ s with cntMutex := s.cntMutex - 1 }, .loadCnt) else none
  | .loadCnt, .go => some (s, .unlockTest s.producerCnt)
  | .unlockTest cnt, .go => some ({ s with cntMutex := s.cntMutex + 1 }, .getValue cnt)
  | .getValue cnt, .go => some (s, .test cnt s.semEmpty)
  | .test cnt value, .go => some (s, if cnt = 0 ∧ value = BUFFER_SIZE then .close else .waitFull)
  | .waitFull, .go => if 0 < s.semFull then some ({ s with semFull := s.semFull - 1 }, .waitMutexOut) else none
  | .waitMutexOut, .go => if 0 < s.semMutex then some ({ s with semMutex := s.semMutex - 1 }, .copyOut) else none
  | .copyOut, .go => some (s, .advanceHead (strncpy (s.queue s.head) (MAX_LINE - 1)))
  | .advanceHead item, .go => some ({ s with head := (s.head + 1) % BUFFER_SIZE }, .postMutexOut item)
  | .postMutexOut item, .go => some ({ s with semMutex := s.semMutex + 1 }, .postEmpty item)
  | .postEmpty item, .go => some ({ s with semEmpty := s.semEmpty + 1 }, .sendItem item)
  | .sendItem _, .go => some (s, .recv .ack [])
  | .close, .go => some (s, .closed)
  | _, _ => none

/-- The fresh semaphores, and no producer. -/
def fresh : Shared :=
  { queue := fun _ => [], head := 0, tail := 0, semEmpty := BUFFER_SIZE, semFull := 0, semMutex := 1,
    producerCnt := 0, cntMutex := 1 }

abbrev Server (ι : Type) := System Shared Pc ι

abbrev step {ι : Type} [DecidableEq ι] : Server ι → ι × Choice → Option (Server ι) := Interleaving.step procStep

/-- Every client has just connected. -/
def start (ι : Type) : Server ι := { shared := fresh, pc := fun _ => .sendTask }

/-! ### What a step conserves -/

/-- A place of the queue that is in neither semaphore. -/
def slot : Pc → ℤ
  | .waitMutex _ | .copyIn _ | .advanceTail | .postMutex | .postFull => 1
  | .waitMutexOut | .copyOut | .advanceHead _ | .postMutexOut _ | .postEmpty _ => 1
  | _ => 0

/-- A producer that is counted. -/
def counted : Pc → ℤ
  | .unlockIn | .recv .item _ | .sendEmptyOk | .waitEmpty _ | .waitMutex _ | .copyIn _ => 1
  | .advanceTail | .postMutex | .postFull | .sendOk | .lockOut | .countOut => 1
  | _ => 0

/-- A consumer that has passed the test and got no item. -/
def hungry : Pc → ℤ
  | .waitFull => 1
  | _ => 0

theorem slot_nonneg (p : Pc) : 0 ≤ slot p := by
  unfold slot
  split <;> decide

theorem counted_nonneg (p : Pc) : 0 ≤ counted p := by
  unfold counted
  split <;> decide

theorem hungry_nonneg (p : Pc) : 0 ≤ hungry p := by
  unfold hungry
  split <;> decide

theorem afterLine_weights (place : Place) (line : Bytes) :
    slot (afterLine place line) = 0 ∧ hungry (afterLine place line) = 0 ∧
      counted (afterLine place line) = if place = .item then 1 else 0 := by
  cases place <;> simp only [afterLine] <;> split_ifs <;> simp_all [slot, hungry, counted]

/-- A place is in a semaphore or with a thread, and the counter counts. -/
structure Conserves (s s' : Shared) (p p' : Pc) : Prop where
  slots : (s'.semEmpty + s'.semFull : ℤ) + slot p' = s.semEmpty + s.semFull + slot p
  counts : s'.producerCnt - counted p' = s.producerCnt - counted p

theorem procStep_conserves {s s' : Shared} {p p' : Pc} {c : Choice} (own : procStep s p c = some (s', p')) :
    Conserves s s' p p' := by
  cases p with
  | recv place buf =>
    cases c with
    | go => cases own
    | hangup =>
      cases own
      cases place <;> exact ⟨rfl, rfl⟩
    | byte b =>
      cases own
      obtain ⟨noSlot, -, count⟩ := afterLine_weights place (lineOf (buf ++ [b]))
      split_ifs
      · refine ⟨?_, ?_⟩
        · rw [noSlot]
          rfl
        · rw [count]
          cases place <;> rfl
      · refine ⟨rfl, ?_⟩
        cases place <;> rfl
  | test cnt value =>
    cases c <;> cases own
    split_ifs <;> exact ⟨rfl, rfl⟩
  | _ =>
    cases c <;> first | cases own | obtain ⟨positive, ⟨⟩⟩ := Option.ite_none_right_eq_some.mp own
    all_goals constructor <;> simp only [slot, counted] <;> omega

/-- Only a consumer that passes the test becomes hungry, and it is fed from `g_sem_full`. -/
theorem procStep_hungry {s s' : Shared} {p p' : Pc} {c : Choice} (own : procStep s p c = some (s', p')) :
    hungry p' - s'.semFull ≤ hungry p - s.semFull ∨
      ∃ cnt value, p = .test cnt value ∧ ¬ (cnt = 0 ∧ value = BUFFER_SIZE) ∧ p' = .waitFull ∧ s' = s := by
  cases p with
  | recv place buf =>
    refine .inl ?_
    cases c with
    | go => cases own
    | hangup =>
      cases own
      cases place <;> exact le_rfl
    | byte b =>
      cases own
      obtain ⟨-, none, -⟩ := afterLine_weights place (lineOf (buf ++ [b]))
      split_ifs
      · rw [none]
        rfl
      · rfl
  | test cnt value =>
    cases c <;> cases own
    split_ifs with ends
    · exact .inl le_rfl
    · exact .inr ⟨cnt, value, rfl, ends, rfl, rfl⟩
  | _ =>
    refine .inl ?_
    cases c <;> first | cases own | obtain ⟨positive, ⟨⟩⟩ := Option.ite_none_right_eq_some.mp own
    all_goals simp only [hungry]
    all_goals omega

/-- The counter is lowered by one statement only. -/
theorem procStep_cnt {s s' : Shared} {p p' : Pc} {c : Choice} (own : procStep s p c = some (s', p')) :
    s.producerCnt ≤ s'.producerCnt ∨ p = .countOut ∧ s'.producerCnt = s.producerCnt - 1 := by
  unfold procStep at own
  split at own
  all_goals first | cases own | obtain ⟨positive, ⟨⟩⟩ := Option.ite_none_right_eq_some.mp own
  all_goals first
    | exact .inl le_rfl
    | exact .inr ⟨rfl, rfl⟩
    | exact .inl (Int.le_add_one le_rfl)

/-! ### Waiting for an item -/

section
variable {ι : Type} [DecidableEq ι] [Fintype ι]

/-- No producer is connected, the queue is empty, and a consumer waits for an item. -/
def Starved (s : Server ι) : Prop :=
  s.shared.producerCnt = 0 ∧ s.shared.semEmpty = BUFFER_SIZE ∧ ∃ i, s.pc i = .waitFull

/-- A consumer passes the test only while a producer is counted or an item is left for it, and
    the last producer leaves only when there is an item for each consumer that has passed. -/
def Supplied (s : Server ι) (move : ι × Choice) : Prop :=
  match s.pc move.1 with
  | .test cnt value =>
    ¬ (cnt = 0 ∧ value = BUFFER_SIZE) → 0 < s.shared.producerCnt ∨ total hungry s.pc < s.shared.semFull
  | .countOut => s.shared.producerCnt = 1 → total hungry s.pc ≤ s.shared.semFull
  | _ => True

instance (s : Server ι) (move : ι × Choice) : Decidable (Supplied s move) := by
  unfold Supplied
  split <;> infer_instance

/-- A consumer that waits has a producer or an item to wait for. -/
structure Invariant (s : Server ι) : Prop where
  slots : (s.shared.semEmpty + s.shared.semFull : ℤ) + total slot s.pc = BUFFER_SIZE
  counts : s.shared.producerCnt - total counted s.pc = 0
  supplied : 0 < s.shared.producerCnt ∨ total hungry s.pc ≤ s.shared.semFull

omit [DecidableEq ι] in
theorem start_invariant : Invariant (start ι) := by
  have zero : ∀ weight : Pc → ℤ, weight .sendTask = 0 → total weight (start ι).pc = 0 :=
    fun weight idle => total_eq_zero fun _ => idle
  refine ⟨?_, ?_, .inr ?_⟩
  · rw [zero slot rfl]
    rfl
  · rw [zero counted rfl]
    rfl
  · rw [zero hungry rfl]
    exact Int.natCast_nonneg _

theorem step_invariant (s : Server ι) (move : ι × Choice) (t : Server ι) (inv : Invariant s) (supplied : Supplied s move)
    (taken : step s move = some t) : Invariant t := by
  obtain ⟨slots, counts, enough⟩ := inv
  obtain ⟨shared, p, own, rfl⟩ := step_cases taken
  have conserved := procStep_conserves own
  have slotsMove := total_update slot s.pc move.1 p
  have countsMove := total_update counted s.pc move.1 p
  have hungryMove := total_update hungry s.pc move.1 p
  refine ⟨?_, ?_, ?_⟩
  · have := conserved.slots
    dsimp only
    omega
  · have := conserved.counts
    dsimp only
    omega
  · dsimp only
    rcases procStep_cnt own with more | ⟨here, fewer⟩
    · rcases procStep_hungry own with fed | ⟨cnt, value, here, passes, rfl, rfl⟩
      · rcases enough with positive | enough
        · exact .inl (by omega)
        · exact .inr (by omega)
      · rw [Supplied, here] at supplied
        rw [here] at hungryMove
        simp only [hungry] at hungryMove
        rcases supplied passes with positive | left
        · exact .inl positive
        · exact .inr (by omega)
    · rw [Supplied, here] at supplied
      have counted' := le_total counted_nonneg s.pc move.1
      rw [here] at counted'
      simp only [counted] at counted'
      rcases procStep_hungry own with fed | ⟨cnt, value, here', -⟩
      · by_cases last : s.shared.producerCnt = 1
        · have := supplied last
          exact .inr (by omega)
        · exact .inl (by omega)
      · rw [here] at here'
        cases here'

omit [DecidableEq ι] in
theorem not_starved {s : Server ι} (inv : Invariant s) : ¬ Starved s := by
  rintro ⟨noProducer, emptied, i, waits⟩
  have slots := inv.slots
  have someone := le_total hungry_nonneg s.pc i
  have others := total_nonneg slot_nonneg s.pc
  rw [waits] at someone
  simp only [hungry] at someone
  rcases inv.supplied with positive | enough <;> omega

/-- In a run in which the consumers and the last producer take these statements with an item for
    each consumer, no consumer ever waits for an item that nobody will bring. -/
theorem waiting_supplied {moves : List (ι × Choice)} (supplied : AllSteps step Supplied (start ι) moves) :
    AllStates step (fun s => ¬ Starved s) (start ι) moves :=
  allStates_mono (fun _ => not_starved) (allStates_of step_invariant start_invariant supplied)

end

/-- A client connects and tells its role. -/
def connects (i : Bool) (role : Bytes) : List (Bool × Choice) :=
  (i, .go) :: (role ++ [10]).map fun b => (i, .byte b)

/-- The consumer passes the test while the producer is counted, and then the producer leaves. -/
def passing : List (Bool × Choice) :=
  connects false roleProducer ++ List.replicate 3 (false, .go) ++ connects true roleConsumer ++
    List.replicate 5 (true, .go)

theorem waiting_supplied_sample :
    ∃ s, exec step (start Bool) passing = some s ∧ s.pc true = .waitFull ∧ ¬ Starved s := by
  obtain ⟨s, run, waits⟩ : ∃ s, exec step (start Bool) passing = some s ∧ s.pc true = .waitFull :=
    Option.map_eq_some_iff.mp (by decide)
  have supplied : AllSteps step Supplied (start Bool) passing := by decide
  have last := allStates_last (waiting_supplied supplied) run
  exact ⟨s, run, waits, last⟩

theorem starved_reached :
    ¬ ∀ (ι : Type) [DecidableEq ι] [Fintype ι] (s : Server ι), Reachable step (start ι) s → ¬ Starved s := by
  intro always
  let moves : List (Bool × Choice) := passing ++ [(false, .hangup), (false, .go), (false, .go)]
  obtain ⟨s, run, seen⟩ : ∃ s, exec step (start Bool) moves = some s ∧
      (s.shared.producerCnt, s.shared.semEmpty, s.pc true) = (0, BUFFER_SIZE, .waitFull) :=
    Option.map_eq_some_iff.mp (by decide)
  simp only [Prod.mk.injEq] at seen
  exact always Bool s ⟨moves, run⟩ ⟨seen.1, seen.2.1, true, seen.2.2⟩

end OsyProg.ChildServe
