import OsyProg.Bytes
import OsyProg.Interleaving
import OsyProg.Ring
import Mathlib.Data.BitVec
import Mathlib.Data.ZMod.Basic
import Mathlib.Tactic.FinCases
import Mathlib.Tactic.Ring

/-!
The queue of `DU05_test/socket_srv.cpp` in MODE_SHM: `producer` and `consumer`, one
statement a step, in any number of processes that share the segment and the
semaphores. A process may also hold `mutex` for the counters of clients, as
`handle_client` does, and pause and resume the consumers, as `main` does.
-/
namespace OsyProg.ShmQueue
open OsyProg.Bytes OsyProg.Interleaving OsyProg.Ring OsyProg.Runs

def N : ℕ := 8
def MAX_STR : ℕ := 8192

/-- The segment, the semaphores, and all items ever copied in and copied out. -/
structure Shared where
  buffer : ℕ → Bytes
  head : ℕ
  tail : ℕ
  itemNum : ℤ
  totalProduced : BitVec 32
  totalConsumed : BitVec 32
  mutex : ℕ
  empty : ℕ
  full : ℕ
  pauseSem : ℕ
  produced : List Bytes
  consumed : List Bytes

/-- Where a process is: the statement of `producer` or `consumer` that comes next,
    with the string it has at hand. -/
inductive Pc
  | idle
  | waitEmpty (item : Bytes)                    -- sem_wait(empty)
  | waitMutex (item : Bytes)                    -- sem_wait(mutex)
  | countIn (item : Bytes)                      -- total_produced++
  | format (item : Bytes)                       -- snprintf(tmp, sizeof(tmp), "%s", item)
  | copyIn (tmp : Bytes)                        -- strncpy(buffer[tail], tmp, MAX_STR - 1)
  | advanceTail                                 -- tail = (tail + 1) % N
  | addItem                                     -- item_num++
  | postMutexIn                                 -- sem_post(mutex)
  | postFull                                    -- sem_post(full)
  | waitPause                                   -- sem_wait(pause_sem)
  | postPause                                   -- sem_post(pause_sem)
  | clock                                       -- clock_gettime(CLOCK_REALTIME, &ts)
  | timedWait                                   -- sem_timedwait(full, &ts)
  | waitMutexOut                                -- sem_wait(mutex)
  | copyOut                                     -- strncpy(item, buffer[head], MAX_STR - 1)
  | advanceHead (item : Bytes)                  -- head = (head + 1) % N
  | dropItem (item : Bytes)                     -- item_num--
  | countOut (item : Bytes)                     -- total_consumed++
  | postMutexOut (item : Bytes)                 -- sem_post(mutex)
  | postEmpty (item : Bytes)                    -- sem_post(empty)
  | returned (result : ℤ) (item : Bytes)        -- the result of consumer
  | holding                                     -- handle_client between sem_wait(mutex) and sem_post(mutex)
  deriving DecidableEq

/-- What a process does next, where it has a choice: the call it makes, or how
    `clock_gettime` and `sem_timedwait` end. -/
inductive Choice
  | go
  | produce (item : Bytes)
  | consume
  | lock
  | pause
  | resume
  | timeout
  | fail
  deriving DecidableEq

/-- One statement of a process; none when it waits, or when the choice is not one it has. -/
def procStep (s : Shared) : Pc → Choice → Option (Shared × Pc)
  | .idle, .produce item => some (s, .waitEmpty item)
  | .idle, .consume => some (s, .waitPause)
  | .idle, .lock => if 0 < s.mutex then some ({ s with mutex := s.mutex - 1 }, .holding) else none
  | .idle, .pause => if 0 < s.pauseSem then some ({ s with pauseSem := s.pauseSem - 1 }, .idle) else none
  | .idle, .resume => some ({ s with pauseSem := s.pauseSem + 1 }, .idle)
  | .holding, .go => some ({ s with mutex := s.mutex + 1 }, .idle)
  | .waitEmpty item, .go => if 0 < s.empty then some ({ s with empty := s.empty - 1 }, .waitMutex item) else none
  | .waitMutex item, .go => if 0 < s.mutex then some ({ s with mutex := s.mutex - 1 }, .countIn item) else none
  | .countIn item, .go => some ({ s with totalProduced := s.totalProduced + 1 }, .format item)
  | .format item, .go => some (s, .copyIn (item.take (MAX_STR - 1)))
  | .copyIn tmp, .go =>
    let item := strncpy tmp (MAX_STR - 1)
    some ({ s with buffer := Function.update s.buffer s.tail item, produced := s.produced ++ [item] }, .advanceTail)
  | .advanceTail, .go => some ({ s with tail := (s.tail + 1) % N }, .addItem)
  | .addItem, .go => some ({ s with itemNum := s.itemNum + 1 }, .postMutexIn)
  | .postMutexIn, .go => some ({ s with mutex := s.mutex + 1 }, .postFull)
  | .postFull, .go => some ({ s with full := s.full + 1 }, .idle)
  | .waitPause, .go => if 0 < s.pauseSem then some ({ s with pauseSem := s.pauseSem - 1 }, .postPause) else none
  | .postPause, .go => some ({ s with pauseSem := s.pauseSem + 1 }, .clock)
  | .clock, .go => some (s, .timedWait)
  | .clock, .fail => some (s, .returned (-2) [])
  | .timedWait, .go => if 0 < s.full then some ({ s with full := s.full - 1 }, .waitMutexOut) else none
  | .timedWait, .timeout => some (s, .returned (-1) [])
  | .timedWait, .fail => some (s, .returned (-2) [])
  | .waitMutexOut, .go => if 0 < s.mutex then some ({ s with mutex := s.mutex - 1 }, .copyOut) else none
  | .copyOut, .go =>
    let item := strncpy (s.buffer s.head) (MAX_STR - 1)
    some ({ s with consumed := s.consumed ++ [item] }, .advanceHead item)
  | .advanceHead item, .go => some ({ s with head := (s.head + 1) % N }, .dropItem item)
  | .dropItem item, .go => some ({ s with itemNum := s.itemNum - 1 }, .countOut item)
  | .countOut item, .go => some ({ s with totalConsumed := s.totalConsumed + 1 }, .postMutexOut item)
  | .postMutexOut item, .go => some ({ s with mutex := s.mutex + 1 }, .postEmpty item)
  | .postEmpty item, .go => some ({ s with empty := s.empty + 1 }, .returned 0 item)
  | .returned _ _, .go => some (s, .idle)
  | _, _ => none

/-- The fresh segment and semaphores. -/
def fresh : Shared :=
  { buffer := fun _ => [], head := 0, tail := 0, itemNum := 0, totalProduced := 0, totalConsumed := 0,
    mutex := 1, empty := N, full := 0, pauseSem := 1, produced := [], consumed := [] }

/-- The segment and the processes. -/
abbrev Queue (ι : Type) := System Shared Pc ι

/-- A statement of one process. -/
abbrev step {ι : Type} [DecidableEq ι] : Queue ι → ι × Choice → Option (Queue ι) := Interleaving.step procStep

/-- The fresh queue, no process in a call. -/
def start (ι : Type) : Queue ι := { shared := fresh, pc := fun _ => .idle }

/-- The point is between `sem_wait(mutex)` and `sem_post(mutex)`. -/
def InCriticalSection : Pc → Prop
  | .countIn _ | .format _ | .copyIn _ | .advanceTail | .addItem | .postMutexIn => True
  | .copyOut | .advanceHead _ | .dropItem _ | .countOut _ | .postMutexOut _ => True
  | .holding => True
  | _ => False

instance : DecidablePred InCriticalSection := fun p => by
  cases p <;> first | exact isTrue trivial | exact isFalse id

/-- The statement that copies an item into the buffer. -/
def CopiesIn : Pc → Prop
  | .copyIn _ => True
  | _ => False

instance : DecidablePred CopiesIn := fun p => by
  cases p <;> first | exact isTrue trivial | exact isFalse id

/-! ### What a step conserves -/

/-- The unread items. -/
def unread (s : Shared) : ℤ := s.produced.length - s.consumed.length

/-- In the critical section. -/
def inside (p : Pc) : ℤ := if InCriticalSection p then 1 else 0

/-- An item copied in and not posted to `full` yet, or taken from `full` and not copied out yet. -/
def inHand : Pc → ℤ
  | .advanceTail | .addItem | .postMutexIn | .postFull => 1
  | .waitMutexOut | .copyOut => 1
  | _ => 0

/-- A place taken from `empty` and not filled yet, or left and not posted to `empty` yet. -/
def placeInHand : Pc → ℤ
  | .waitMutex _ | .countIn _ | .format _ | .copyIn _ => 1
  | .advanceHead _ | .dropItem _ | .countOut _ | .postMutexOut _ | .postEmpty _ => 1
  | _ => 0

/-- What `item_num` lags behind the unread items. -/
def itemsBehind : Pc → ℤ
  | .advanceTail | .addItem => 1
  | .advanceHead _ | .dropItem _ => -1
  | _ => 0

/-- What `total_produced` falls short of the items copied in, and `total_consumed` is ahead of those copied out. -/
def producedShort (s : Shared) : BitVec 32 := s.produced.length - s.totalProduced
def consumedOver (s : Shared) : BitVec 32 := s.totalConsumed - s.consumed.length

/-- What `total_produced` is ahead of the items copied in, and `total_consumed` behind those copied out. -/
def producedAhead : Pc → BitVec 32
  | .format _ | .copyIn _ => 1
  | _ => 0

def consumedBehind : Pc → BitVec 32
  | .advanceHead _ | .dropItem _ | .countOut _ => 1
  | _ => 0

/-- What `tail` and `head` lag behind them. -/
def tailBehind : Pc → ZMod N
  | .advanceTail => 1
  | _ => 0

def headBehind : Pc → ZMod N
  | .advanceHead _ => 1
  | _ => 0

/-- The balances that a step of a process keeps. -/
structure Conserves (s : Shared) (p : Pc) (s' : Shared) (p' : Pc) : Prop where
  mutex : s'.mutex + inside p' = s.mutex + inside p
  full : (s'.full - unread s') + inHand p' = (s.full - unread s) + inHand p
  empty : (s'.empty + unread s') + placeInHand p' = (s.empty + unread s) + placeInHand p
  itemNum : (s'.itemNum - unread s') + itemsBehind p' = (s.itemNum - unread s) + itemsBehind p
  totalProduced : producedShort s' + producedAhead p' = producedShort s + producedAhead p
  totalConsumed : consumedOver s' + consumedBehind p' = consumedOver s + consumedBehind p
  tail : ((s'.tail : ZMod N) - s'.produced.length) + tailBehind p' =
    ((s.tail : ZMod N) - s.produced.length) + tailBehind p
  head : ((s'.head : ZMod N) - s'.consumed.length) + headBehind p' =
    ((s.head : ZMod N) - s.consumed.length) + headBehind p

theorem procStep_conserves {s s' : Shared} {p p' : Pc} {c : Choice} (taken : procStep s p c = some (s', p')) :
    Conserves s p s' p' := by
  unfold procStep at taken
  split at taken
  all_goals first | cases taken | obtain ⟨positive, ⟨⟩⟩ := Option.ite_none_right_eq_some.mp taken
  -- a statement leaves most balances as they are
  all_goals constructor <;> try rfl
  all_goals
    simp [inside, InCriticalSection, unread, producedShort, consumedOver, inHand, placeInHand, itemsBehind,
      producedAhead, consumedBehind, tailBehind, headBehind]
  all_goals first | omega | ring1

/-- What a step does to the items: it copies one in, copies one out, or leaves them alone. -/
theorem procStep_items {s s' : Shared} {p p' : Pc} {c : Choice} (taken : procStep s p c = some (s', p')) :
    (∃ tmp, p = .copyIn tmp ∧ s'.buffer = Function.update s.buffer s.tail (strncpy tmp (MAX_STR - 1)) ∧
        s'.produced = s.produced ++ [strncpy tmp (MAX_STR - 1)] ∧ s'.consumed = s.consumed) ∨
      (p = .copyOut ∧ p' = .advanceHead (strncpy (s.buffer s.head) (MAX_STR - 1)) ∧ s'.buffer = s.buffer ∧
        s'.produced = s.produced ∧ s'.consumed = s.consumed ++ [strncpy (s.buffer s.head) (MAX_STR - 1)]) ∨
      ((∀ tmp, p ≠ .copyIn tmp) ∧ p ≠ .copyOut ∧ s'.buffer = s.buffer ∧ s'.produced = s.produced ∧
        s'.consumed = s.consumed) := by
  unfold procStep at taken
  split at taken
  all_goals first | cases taken | obtain ⟨positive, ⟨⟩⟩ := Option.ite_none_right_eq_some.mp taken
  all_goals first
    | exact .inl ⟨_, rfl, rfl, rfl, rfl⟩
    | exact .inr (.inl ⟨rfl, rfl, rfl, rfl, rfl⟩)
    | exact .inr (.inr ⟨fun _ => Pc.noConfusion, Pc.noConfusion, rfl, rfl, rfl⟩)

theorem procStep_inRange {s s' : Shared} {p p' : Pc} {c : Choice} (taken : procStep s p c = some (s', p'))
    (inRange : s.tail < N ∧ s.head < N) : s'.tail < N ∧ s'.head < N := by
  have wraps : ∀ k, k % N < N := fun k => Nat.mod_lt k (by decide)
  unfold procStep at taken
  split at taken
  all_goals first | cases taken | obtain ⟨positive, ⟨⟩⟩ := Option.ite_none_right_eq_some.mp taken
  all_goals first | exact inRange | exact ⟨wraps _, inRange.2⟩ | exact ⟨inRange.1, wraps _⟩

/-! ### The invariant -/

/-- The items copied out come first, and the unread ones are in their places. -/
structure ItemsOk (s : Shared) : Prop where
  order : s.consumed = s.produced.take s.consumed.length
  stored : ∀ k, s.consumed.length ≤ k → k < s.produced.length → s.produced[k]? = some (s.buffer (k % N))
  fits : ∀ item ∈ s.produced, strncpy item (MAX_STR - 1) = item

section
variable {ι : Type} [DecidableEq ι] [Fintype ι]

/-- The balances over all processes, and the items. -/
structure Invariant (s : Queue ι) : Prop where
  mutex : s.shared.mutex + total inside s.pc = 1
  full : (s.shared.full - unread s.shared) + total inHand s.pc = 0
  empty : (s.shared.empty + unread s.shared) + total placeInHand s.pc = N
  itemNum : (s.shared.itemNum - unread s.shared) + total itemsBehind s.pc = 0
  totalProduced : producedShort s.shared + total producedAhead s.pc = 0
  totalConsumed : consumedOver s.shared + total consumedBehind s.pc = 0
  tail : ((s.shared.tail : ZMod N) - s.shared.produced.length) + total tailBehind s.pc = 0
  head : ((s.shared.head : ZMod N) - s.shared.consumed.length) + total headBehind s.pc = 0
  inRange : s.shared.tail < N ∧ s.shared.head < N
  items : ItemsOk s.shared

theorem inside_nonneg (p : Pc) : 0 ≤ inside p := by
  unfold inside
  split <;> decide

theorem inHand_nonneg (p : Pc) : 0 ≤ inHand p := by
  unfold inHand
  split <;> decide

theorem placeInHand_nonneg (p : Pc) : 0 ≤ placeInHand p := by
  unfold placeInHand
  split <;> decide

omit [DecidableEq ι] in
theorem unread_bounds {s : Queue ι} (holds : Invariant s) : 0 ≤ unread s.shared ∧ unread s.shared ≤ N := by
  have full := holds.full
  have empty := holds.empty
  have := total_nonneg inHand_nonneg s.pc
  have := total_nonneg placeInHand_nonneg s.pc
  constructor <;> omega

/-- Only one process is in the critical section, so a weight that is zero outside it has the total of that process. -/
theorem total_of_inside {s : Queue ι} (holds : Invariant s) {A : Type} [AddCommGroup A] {weight : Pc → A}
    (outside : ∀ p, ¬ InCriticalSection p → weight p = 0) {i : ι} (here : InCriticalSection (s.pc i)) :
    total weight s.pc = weight (s.pc i) := by
  have alone : total inside s.pc ≤ inside (s.pc i) := by
    have := holds.mutex
    rw [inside, if_pos here]
    omega
  refine total_eq_of_alone inside_nonneg (fun p zero => outside p fun within => ?_) alone
  simp [inside, within] at zero

/-- No two processes are in the critical section. -/
theorem inside_unique {s : Queue ι} (holds : Invariant s) {i j : ι} (here : InCriticalSection (s.pc i))
    (there : InCriticalSection (s.pc j)) : i = j := by
  by_contra apart
  have alone : total inside s.pc ≤ inside (s.pc i) := by
    have := holds.mutex
    rw [inside, if_pos here]
    omega
  have none := zero_of_alone inside_nonneg alone (Ne.symm apart)
  simp [inside, there] at none

omit [DecidableEq ι] in
/-- With nobody in the critical section the weight is zero in total. -/
theorem total_of_outside {s : Queue ι} {A : Type} [AddCommGroup A] {weight : Pc → A}
    (outside : ∀ p, ¬ InCriticalSection p → weight p = 0) (free : ∀ i, ¬ InCriticalSection (s.pc i)) :
    total weight s.pc = 0 :=
  total_eq_zero fun i => outside _ (free i)

/-- Outside the critical section the indices and the counts are not behind. -/
theorem behind_outside (p : Pc) (outside : ¬ InCriticalSection p) :
    itemsBehind p = 0 ∧ producedAhead p = 0 ∧ consumedBehind p = 0 ∧ tailBehind p = 0 ∧ headBehind p = 0 := by
  cases p <;> first | exact ⟨rfl, rfl, rfl, rfl, rfl⟩ | exact absurd trivial outside

/-- `tail` and `head` are right when the process in the critical section uses them. -/
theorem tail_eq {s : Queue ι} (holds : Invariant s) {i : ι} {tmp : Bytes} (here : s.pc i = .copyIn tmp) :
    s.shared.tail = s.shared.produced.length % N := by
  have none : total tailBehind s.pc = 0 := by
    rw [total_of_inside holds (fun p out => (behind_outside p out).2.2.2.1) (by rw [here]; trivial), here]
    rfl
  have tail := holds.tail
  rw [none, add_zero, sub_eq_zero, ZMod.natCast_eq_natCast_iff'] at tail
  rwa [Nat.mod_eq_of_lt holds.inRange.1] at tail

theorem head_eq {s : Queue ι} (holds : Invariant s) {i : ι} (here : s.pc i = .copyOut) :
    s.shared.head = s.shared.consumed.length % N := by
  have none : total headBehind s.pc = 0 := by
    rw [total_of_inside holds (fun p out => (behind_outside p out).2.2.2.2) (by rw [here]; trivial), here]
    rfl
  have head := holds.head
  rw [none, add_zero, sub_eq_zero, ZMod.natCast_eq_natCast_iff'] at head
  rwa [Nat.mod_eq_of_lt holds.inRange.2] at head

omit [DecidableEq ι] in
theorem place_left {s : Queue ι} (holds : Invariant s) {i : ι} {tmp : Bytes} (here : s.pc i = .copyIn tmp) :
    s.shared.produced.length < s.shared.consumed.length + N := by
  have empty := holds.empty
  have one := le_total placeInHand_nonneg s.pc i
  rw [here] at one
  simp only [placeInHand] at one
  unfold unread at empty
  omega

/-- A new item goes to a place that holds no unread one. -/
theorem copyIn_items {s : Queue ι} (holds : Invariant s) {i : ι} {tmp : Bytes} (here : s.pc i = .copyIn tmp)
    {t : Shared} (buffer : t.buffer = Function.update s.shared.buffer s.shared.tail (strncpy tmp (MAX_STR - 1)))
    (produced : t.produced = s.shared.produced ++ [strncpy tmp (MAX_STR - 1)])
    (consumed : t.consumed = s.shared.consumed) : ItemsOk t := by
  have read : s.shared.consumed.length ≤ s.shared.produced.length := by
    have := (unread_bounds holds).1
    unfold unread at this
    omega
  have stored : Stored N s.shared.buffer s.shared.produced s.shared.consumed.length := holds.items.stored
  refine ⟨?_, ?_, ?_⟩
  · rw [produced, consumed, List.take_append_of_le_length read]
    exact holds.items.order
  · rw [produced, consumed, buffer, tail_eq holds here]
    exact stored.put (place_left holds here) _
  · intro item known
    rw [produced, List.mem_append, List.mem_singleton] at known
    rcases known with old | rfl
    · exact holds.items.fits item old
    · simp [strncpy, List.take_take]

/-- The item copied out is the next one in the order of production. -/
theorem copyOut_items {s : Queue ι} (holds : Invariant s) {i : ι} (here : s.pc i = .copyOut) {t : Shared}
    (buffer : t.buffer = s.shared.buffer) (produced : t.produced = s.shared.produced)
    (consumed : t.consumed = s.shared.consumed ++ [strncpy (s.shared.buffer s.shared.head) (MAX_STR - 1)]) :
    ItemsOk t := by
  have waiting : s.shared.consumed.length < s.shared.produced.length := by
    have full := holds.full
    have one := le_total inHand_nonneg s.pc i
    rw [here] at one
    simp only [inHand] at one
    unfold unread at full
    omega
  have stored : Stored N s.shared.buffer s.shared.produced s.shared.consumed.length := holds.items.stored
  have next := stored.take_next waiting
  have inside := List.mem_of_getElem? (stored _ le_rfl waiting)
  rw [← head_eq holds here] at next inside
  rw [holds.items.fits _ inside] at consumed
  refine ⟨?_, ?_, ?_⟩
  · rw [consumed, produced, List.length_append, List.length_singleton, ← next, ← holds.items.order]
  · rw [consumed, produced, buffer, List.length_append]
    exact stored.later (Nat.le_add_right ..)
  · rw [produced]
    exact holds.items.fits

theorem step_items {s t : Queue ι} {move : ι × Choice} (holds : Invariant s) (taken : step s move = some t) :
    ItemsOk t.shared := by
  obtain ⟨shared, p, own, rfl⟩ := step_cases taken
  rcases procStep_items own with ⟨tmp, here, buffer, produced, consumed⟩ |
    ⟨here, -, buffer, produced, consumed⟩ | ⟨-, -, buffer, produced, consumed⟩
  · exact copyIn_items holds here buffer produced consumed
  · exact copyOut_items holds here buffer produced consumed
  · refine ⟨?_, ?_, ?_⟩
    · rw [produced, consumed]; exact holds.items.order
    · rw [produced, consumed, buffer]; exact holds.items.stored
    · rw [produced]; exact holds.items.fits

/-- The items copied in and out by a step: a list of them only grows, by an item at the end, and the item copied
    out is the next one that was copied in. -/
theorem step_history {s t : Queue ι} {move : ι × Choice} (holds : Invariant s) (taken : step s move = some t) :
    s.shared.produced <+: t.shared.produced ∧
      (CopiesIn (s.pc move.1) → t.shared.produced.length = s.shared.produced.length + 1) ∧
      (s.pc move.1 ≠ .copyOut → t.shared.consumed.length = s.shared.consumed.length) ∧
      (s.pc move.1 = .copyOut → t.shared.consumed.length = s.shared.consumed.length + 1 ∧
        ∃ item, t.pc move.1 = .advanceHead item ∧ t.shared.produced[s.shared.consumed.length]? = some item) := by
  have items := step_items holds taken
  obtain ⟨shared, p, own, rfl⟩ := step_cases taken
  rcases procStep_items own with ⟨tmp, here, buffer, produced, consumed⟩ |
    ⟨here, pointed, buffer, produced, consumed⟩ | ⟨notIn, notOut, buffer, produced, consumed⟩
  · refine ⟨by simp [produced], fun _ => by simp [produced], fun _ => by simp [consumed], ?_⟩
    intro out
    rw [here] at out
    cases out
  · refine ⟨by simp [produced], ?_, fun other => absurd here other, fun _ => ⟨by simp [consumed], ?_⟩⟩
    · intro copies
      rw [here] at copies
      exact copies.elim
    · refine ⟨_, (Function.update_self ..).trans pointed, ?_⟩
      have order := items.order
      have last : shared.consumed[s.shared.consumed.length]? =
          some (strncpy (s.shared.buffer s.shared.head) (MAX_STR - 1)) := by
        rw [consumed, List.getElem?_concat_length]
      rw [order, List.getElem?_take] at last
      split_ifs at last
      exact last
  · refine ⟨by simp [produced], ?_, fun _ => by simp [consumed], ?_⟩
    · intro copies
      cases here : s.pc move.1 with
      | copyIn tmp => exact absurd here (notIn tmp)
      | _ =>
        rw [here] at copies
        exact copies.elim
    · intro out
      exact absurd out notOut

-- the balances of tail and head are in ZMod N, which is not to be unfolded
attribute [local irreducible] N in
theorem step_invariant (s : Queue ι) (move : ι × Choice) (t : Queue ι) (holds : Invariant s)
    (taken : step s move = some t) : Invariant t := by
  have inRange : t.shared.tail < N ∧ t.shared.head < N := by
    obtain ⟨shared, p, own, rfl⟩ := step_cases taken
    exact procStep_inRange own holds.inRange
  exact
    { mutex := (step_conserves (fun s => (s.mutex : ℤ)) inside
        (fun _ _ _ _ _ own => (procStep_conserves own).mutex) taken).trans holds.mutex
      full := (step_conserves (fun s => (s.full : ℤ) - unread s) inHand
        (fun _ _ _ _ _ own => (procStep_conserves own).full) taken).trans holds.full
      empty := (step_conserves (fun s => (s.empty : ℤ) + unread s) placeInHand
        (fun _ _ _ _ _ own => (procStep_conserves own).empty) taken).trans holds.empty
      itemNum := (step_conserves (fun s => s.itemNum - unread s) itemsBehind
        (fun _ _ _ _ _ own => (procStep_conserves own).itemNum) taken).trans holds.itemNum
      totalProduced := (step_conserves producedShort producedAhead
        (fun _ _ _ _ _ own => (procStep_conserves own).totalProduced) taken).trans holds.totalProduced
      totalConsumed := (step_conserves consumedOver consumedBehind
        (fun _ _ _ _ _ own => (procStep_conserves own).totalConsumed) taken).trans holds.totalConsumed
      tail := (step_conserves (fun s => (s.tail : ZMod N) - s.produced.length) tailBehind
        (fun _ _ _ _ _ own => (procStep_conserves own).tail) taken).trans holds.tail
      head := (step_conserves (fun s => (s.head : ZMod N) - s.consumed.length) headBehind
        (fun _ _ _ _ _ own => (procStep_conserves own).head) taken).trans holds.head
      inRange
      items := step_items holds taken }

omit [DecidableEq ι] in
theorem start_invariant : Invariant (start ι) := by
  have zero : ∀ {A : Type} [AddCommGroup A] (weight : Pc → A), weight .idle = 0 → total weight (start ι).pc = 0 :=
    fun weight idle => total_eq_zero fun _ => idle
  exact
    { mutex := by rw [zero inside rfl]; rfl
      full := by rw [zero inHand rfl]; rfl
      empty := by rw [zero placeInHand rfl]; rfl
      itemNum := by rw [zero itemsBehind rfl]; rfl
      totalProduced := by rw [zero producedAhead rfl]; simp [start, fresh, producedShort]
      totalConsumed := by rw [zero consumedBehind rfl]; simp [start, fresh, consumedOver]
      tail := by rw [zero tailBehind rfl]; simp [start, fresh]
      head := by rw [zero headBehind rfl]; simp [start, fresh]
      inRange := by simp [start, fresh, N]
      items := ⟨rfl, fun k _ stored => absurd stored (Nat.not_lt_zero k), fun item known => by cases known⟩ }

omit [DecidableEq ι] in
/-- With nobody in the critical section `item_num` and the totals count the unread items. -/
theorem counts_of_free {s : Queue ι} (holds : Invariant s) (free : ∀ i, ¬ InCriticalSection (s.pc i)) :
    (s.shared.totalProduced - s.shared.totalConsumed).toInt = s.shared.itemNum ∧
      s.shared.itemNum = unread s.shared := by
  have itemNum : s.shared.itemNum = unread s.shared := by
    have := holds.itemNum
    rw [total_of_outside (fun p out => (behind_outside p out).1) free] at this
    omega
  refine ⟨?_, itemNum⟩
  have produced := holds.totalProduced
  rw [total_of_outside (fun p out => (behind_outside p out).2.1) free, add_zero, producedShort, sub_eq_zero] at produced
  have consumed := holds.totalConsumed
  rw [total_of_outside (fun p out => (behind_outside p out).2.2.1) free, add_zero, consumedOver, sub_eq_zero]
    at consumed
  obtain ⟨atLeast, atMost⟩ := unread_bounds holds
  obtain ⟨count, few, length⟩ : ∃ count, count ≤ N ∧
      s.shared.produced.length = s.shared.consumed.length + count := by
    refine ⟨s.shared.produced.length - s.shared.consumed.length, ?_, ?_⟩ <;> unfold unread at * <;> omega
  have difference : s.shared.totalProduced - s.shared.totalConsumed = (count : BitVec 32) := by
    rw [← produced, consumed, length, Nat.cast_add]
    exact add_sub_cancel_left _ _
  rw [difference, itemNum, unread, length]
  have small : ∀ count ≤ N, ((count : BitVec 32)).toInt = count := by decide
  rw [small count few]
  omega

/-! ### A consumer call that fails -/

/-- A process that has not got past `sem_timedwait(full)`, or whose `consumer` returned an error. -/
def Fruitless : Pc → Prop
  | .waitPause | .postPause | .clock | .timedWait => True
  | .returned result _ => result ≠ 0
  | _ => False

/-- The post of `pause_sem` that a process still has to make. -/
def pauseOwed : Pc → ℕ
  | .postPause => 1
  | _ => 0

/-- The segment with some more posts of `pause_sem`. -/
def Shared.resume (s : Shared) (more : ℕ) : Shared := { s with pauseSem := s.pauseSem + more }

/-- The state in which process `i` has not made the call it is in. -/
def without (i : ι) (s : Queue ι) : Queue ι :=
  { shared := s.shared.resume (pauseOwed (s.pc i)), pc := Function.update s.pc i .idle }

/-- More posts of `pause_sem` keep no process from its step. -/
theorem procStep_resume {s s' : Shared} {p p' : Pc} {c : Choice} (more : ℕ)
    (taken : procStep s p c = some (s', p')) : procStep (s.resume more) p c = some (s'.resume more, p') := by
  unfold procStep at taken
  split at taken
  all_goals first | cases taken | obtain ⟨positive, ⟨⟩⟩ := Option.ite_none_right_eq_some.mp taken
  all_goals simp [procStep, Shared.resume, *]
  all_goals omega

/-- A post that is still owed makes up for what the process has taken. -/
theorem resume_taken {s : Shared} (positive : 0 < s.pauseSem) :
    { s with pauseSem := s.pauseSem - 1 }.resume 1 = s.resume 0 := by
  simp only [Shared.resume, Nat.sub_add_cancel positive, add_zero]

/-- Before the last step of a call that fails the process is in such a call too, and
    the step changes nothing but its own post of `pause_sem`. -/
theorem procStep_fruitless {s s' : Shared} {p p' : Pc} {c : Choice} (taken : procStep s p c = some (s', p'))
    (called : p ≠ .idle) (fruitless : Fruitless p') :
    Fruitless p ∧ s'.resume (pauseOwed p') = s.resume (pauseOwed p) := by
  unfold procStep at taken
  split at taken
  all_goals first | cases taken | obtain ⟨positive, ⟨⟩⟩ := Option.ite_none_right_eq_some.mp taken
  all_goals first
    | exact absurd rfl called
    | exact absurd rfl fruitless
    | exact fruitless.elim
    | exact ⟨trivial, rfl⟩
    | exact ⟨trivial, resume_taken positive⟩

omit [Fintype ι] in
/-- The steps of the call of `i` cannot be seen without it, and those of the others can be made without it. -/
theorem step_without {s t : Queue ι} {i : ι} {move : ι × Choice} (called : s.pc i ≠ .idle)
    (fruitless : Fruitless (t.pc i)) (taken : step s move = some t) :
    Fruitless (s.pc i) ∧
      if move.1 = i then without i t = without i s else step (without i s) move = some (without i t) := by
  obtain ⟨shared, p, own, rfl⟩ := step_cases taken
  by_cases its : move.1 = i
  · subst its
    simp only [Function.update_self] at fruitless
    obtain ⟨before, same⟩ := procStep_fruitless own called fruitless
    refine ⟨before, ?_⟩
    rw [if_pos rfl]
    simp only [without, Function.update_self, same, Function.update_idem]
  · simp only [Function.update_of_ne (Ne.symm its)] at fruitless
    refine ⟨fruitless, ?_⟩
    rw [if_neg its]
    have own' := procStep_resume (pauseOwed (s.pc i)) own
    simp only [step, Interleaving.step, without, Function.update_of_ne its, Function.update_of_ne (Ne.symm its), own',
      Option.map_some, Function.update_comm its]

omit [Fintype ι] in
/-- A run in which process `i` stays in one call that fails can be made without the steps of `i`. -/
theorem exec_without {s t : Queue ι} {i : ι} {moves : List (ι × Choice)} (run : exec step s moves = some t)
    (called : AllStates step (fun u => u.pc i ≠ .idle) s moves) (fruitless : Fruitless (t.pc i)) :
    Fruitless (s.pc i) ∧ exec step (without i s) (moves.filter fun m => m.1 ≠ i) = some (without i t) := by
  induction moves generalizing s with
  | nil =>
    cases run
    exact ⟨fruitless, rfl⟩
  | cons move rest ih =>
    obtain ⟨u, taken, onward⟩ := exec_cons_iff.mp run
    obtain ⟨later, others⟩ := ih onward (called.2 u taken)
    obtain ⟨before, hidden⟩ := step_without called.1 later taken
    refine ⟨before, ?_⟩
    by_cases its : move.1 = i
    · rw [if_pos its] at hidden
      rw [List.filter_cons_of_neg (by simp [its]), ← hidden]
      exact others
    · rw [if_neg its] at hidden
      rw [List.filter_cons_of_pos (by simp [its])]
      exact exec_cons_iff.mpr ⟨_, hidden, others⟩

/-! ### The queue -/

/-- In every reachable state the items copied out are the first of those copied in, in their order; the unread
    ones are in their places, and the place that is filled next is none of theirs; outside the critical section
    `item_num` and the totals count them; and a run in which a `consumer` call fails ends as the run without it. -/
theorem queue_correct {s : Queue ι} (reached : Reachable step (start ι) s) :
    s.shared.consumed <+: s.shared.produced ∧
      (∀ k, s.shared.consumed.length ≤ k → k < s.shared.produced.length →
        s.shared.produced[k]? = some (s.shared.buffer (k % N)) ∧
          ∀ i tmp, s.pc i = .copyIn tmp → s.shared.tail ≠ k % N) ∧
      ((∀ i, ¬ InCriticalSection (s.pc i)) →
        (s.shared.totalProduced - s.shared.totalConsumed).toInt = s.shared.itemNum ∧
          s.shared.itemNum = unread s.shared ∧ 0 ≤ s.shared.itemNum ∧ s.shared.itemNum ≤ N) ∧
      ∀ i moves u t result item, s.pc i = .idle → step s (i, .consume) = some u →
        AllStates step (fun v => v.pc i ≠ .idle) u moves → exec step u moves = some t →
        t.pc i = .returned result item → result ≠ 0 →
        exec step s (moves.filter fun m => m.1 ≠ i) = some { t with pc := Function.update t.pc i .idle } := by
  have holds : Invariant s := reachable_kept step_invariant start_invariant reached
  refine ⟨?_, fun k readLater stored => ⟨holds.items.stored k readLater stored, ?_⟩, ?_, ?_⟩
  · rw [holds.items.order]
    exact List.take_prefix ..
  · intro i tmp here
    rw [tail_eq holds here]
    exact place_free readLater stored (place_left holds here)
  · intro free
    obtain ⟨totals, itemNum⟩ := counts_of_free holds free
    obtain ⟨atLeast, atMost⟩ := unread_bounds holds
    exact ⟨totals, itemNum, itemNum ▸ atLeast, itemNum ▸ atMost⟩
  · intro i moves u t result item idle called inCall run returned failed
    have fruitless : Fruitless (t.pc i) := by
      rw [returned]
      exact failed
    have apart := (exec_without run inCall fruitless).2
    have before : without i u = s := by
      simp only [step, Interleaving.step, idle, procStep, Option.map_some, Option.some.injEq] at called
      subst called
      simp only [without, Function.update_self, Function.update_idem, pauseOwed, Shared.resume, add_zero]
      rw [← idle, Function.update_eq_self]
    have after : without i t = { t with pc := Function.update t.pc i .idle } := by
      simp [without, returned, pauseOwed, Shared.resume]
    rwa [before, after] at apart

theorem queue_correct_sample :
    (∃ s : Queue (Fin 3), s.shared.produced = [ascii ['a']] ∧ s.shared.consumed <+: s.shared.produced ∧
      s.shared.itemNum = unread s.shared) ∧
    ∃ t : Queue (Fin 3), exec step (start (Fin 3)) [(1, .consume), (1, .go), (0, .consume), (1, .go), (1, .fail)] =
        some t ∧ exec step (start (Fin 3)) [(0, .consume)] = some { t with pc := Function.update t.pc 1 .idle } := by
  constructor
  · let produce : List (Fin 3 × Choice) := (0, .produce (ascii ['a'])) :: List.replicate 9 (0, .go)
    obtain ⟨s, run, seen⟩ : ∃ s, exec step (start (Fin 3)) produce = some s ∧
        (s.shared.produced, s.pc 0, s.pc 1, s.pc 2) = ([ascii ['a']], .idle, .idle, .idle) :=
      Option.map_eq_some_iff.mp (by decide)
    simp only [Prod.mk.injEq] at seen
    obtain ⟨one, idle0, idle1, idle2⟩ := seen
    obtain ⟨first, -, counts, -⟩ := queue_correct ⟨produce, run⟩
    refine ⟨s, one, first, (counts fun i => ?_).2.1⟩
    fin_cases i
    · simp [idle0, InCriticalSection]
    · simp [idle1, InCriticalSection]
    · simp [idle2, InCriticalSection]
  · let moves : List (Fin 3 × Choice) := [(1, .go), (0, .consume), (1, .go), (1, .fail)]
    obtain ⟨u, called, inCall⟩ : ∃ u, step (start (Fin 3)) (1, .consume) = some u ∧
        decide (AllStates step (fun v => v.pc 1 ≠ .idle) u moves) = true :=
      Option.map_eq_some_iff.mp (by decide)
    obtain ⟨t, run, failed⟩ : ∃ t, exec step (start (Fin 3)) ((1, .consume) :: moves) = some t ∧
        t.pc 1 = .returned (-2) [] :=
      Option.map_eq_some_iff.mp (by decide)
    obtain ⟨u', called', onward⟩ := exec_cons_iff.mp run
    obtain rfl := Option.some.inj (called.symm.trans called')
    refine ⟨t, run, ?_⟩
    exact (queue_correct (s := start (Fin 3)) ⟨[], rfl⟩).2.2.2 1 moves u t (-2) [] rfl called
      (of_decide_eq_true inCall) onward failed (by decide)

end

end OsyProg.ShmQueue
