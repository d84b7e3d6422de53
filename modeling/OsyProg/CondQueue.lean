import OsyProg.Conditions
import OsyProg.Ring
import Mathlib.Data.ZMod.Basic
import Mathlib.Algebra.BigOperators.Intervals
import Mathlib.Tactic.Ring

/-!
The queue with condition variables of `helper-threads.cpp`: `queue_push` and
`queue_pop`, one statement a step, in one `producer_fn` and any number of
`consumer_fn`. `queue_push` signals one waiter only, and that is enough: while some
consumer waits there are no more items than consumers that are awake in `queue_pop`
(`Invariant.heard`). So no state is a deadlock, and when all threads have returned
each consumer has popped one end marker and each value was popped once
(`demo_ends`). This is so unless `produce_n` is `INT_MAX`: then `i <= produce_n` holds for
every `int`, and the loop goes on to an `++i` that has no value (`producer_consumer`).
-/
namespace OsyProg.CondQueue
open OsyProg.Conditions OsyProg.Interleaving OsyProg.Ring OsyProg.Runs

def QSIZE : ℕ := 16

def INT_MAX : ℕ := 2 ^ 31 - 1

/-- The queue with its mutex, and all values ever pushed and popped. -/
structure Queue where
  buf : ℕ → ℤ
  head : ℕ
  tail : ℕ
  count : ℤ
  locked : Bool
  pushed : List ℤ
  popped : List ℤ

/-- The two loops of `producer_fn`, with their counters. -/
inductive Loop
  | value (i : ℕ)                               -- for (int i = 1; i <= c->produce_n; ++i)
  | marker (k : ℕ)                              -- for (int k = 0; k < c->consumers; ++k)
  deriving DecidableEq

def Loop.item : Loop → ℤ
  | .value i => i
  | .marker _ => -1

/-- `++i` and `++k`: behind `INT_MAX` an `int` has no value. -/
def Loop.next : Loop → Option Loop
  | .value i => if i < INT_MAX then some (.value (i + 1)) else none
  | .marker k => if k < INT_MAX then some (.marker (k + 1)) else none

/-- The statement of `queue_push` that comes next. -/
inductive PushPc
  | lock                                        -- pthread_mutex_lock(&q->m)
  | test                                        -- while (q->count == QSIZE) ... pthread_cond_wait releases the mutex
  | waiting                                     -- in pthread_cond_wait(&q->not_full, &q->m)
  | relock                                      -- woken, before it has the mutex again
  | store                                       -- q->buf[q->tail] = v
  | advance                                     -- q->tail = (q->tail + 1) % QSIZE
  | count                                       -- q->count++
  | signal                                      -- pthread_cond_signal(&q->not_empty)
  | unlock                                      -- pthread_mutex_unlock(&q->m)
  deriving DecidableEq

/-- The statement of `queue_pop` that comes next, with the value it has at hand. -/
inductive PopPc
  | lock                                        -- pthread_mutex_lock(&q->m)
  | test                                        -- while (q->count == 0) ... pthread_cond_wait releases the mutex
  | waiting                                     -- in pthread_cond_wait(&q->not_empty, &q->m)
  | relock                                      -- woken, before it has the mutex again
  | load                                        -- int v = q->buf[q->head]
  | advance (v : ℤ)                             -- q->head = (q->head + 1) % QSIZE
  | count (v : ℤ)                               -- q->count--
  | signal (v : ℤ)                              -- pthread_cond_signal(&q->not_full)
  | unlock (v : ℤ)                              -- pthread_mutex_unlock(&q->m)
  deriving DecidableEq

/-- Where a thread is. A consumer has its `sum`, and the list of the values it has
    popped, which is not in the code. -/
inductive Pc
  | loop (l : Loop)
  | push (l : Loop) (p : PushPc)
  | next (l : Loop)                             -- ++i, ++k
  | pop (sum : ℤ) (taken : List ℤ) (p : PopPc)
  | got (sum : ℤ) (taken : List ℤ) (v : ℤ)      -- if (v == -1) break; sum += v
  | ended                                       -- producer_fn has returned
  | returned (sum : ℤ) (taken : List ℤ)         -- consumer_fn has returned its sum
  deriving DecidableEq

/-- The condition variables. -/
inductive Cond
  | notEmpty | notFull
  deriving DecidableEq

/-- A statement of a thread that is no signal; `n` is `produce_n`. -/
def own (n consumers : ℕ) (s : Queue) : Pc → Option (Queue × Pc)
  | .loop (.value i) => some (s, if i ≤ n then .push (.value i) .lock else .loop (.marker 0))
  | .loop (.marker k) => some (s, if k < consumers then .push (.marker k) .lock else .ended)
  | .push l .lock | .push l .relock => if s.locked then none else some ({ s with locked := true }, .push l .test)
  | .push l .test =>
    if s.count = QSIZE then some ({ s with locked := false }, .push l .waiting) else some (s, .push l .store)
  | .push l .store =>
    some ({ s with buf := Function.update s.buf s.tail l.item, pushed := s.pushed ++ [l.item] }, .push l .advance)
  | .push l .advance => some ({ s with tail := (s.tail + 1) % QSIZE }, .push l .count)
  | .push l .count => some ({ s with count := s.count + 1 }, .push l .signal)
  | .push l .unlock => some ({ s with locked := false }, .next l)
  | .next l => l.next.map fun l => (s, .loop l)
  | .pop sum taken .lock | .pop sum taken .relock =>
    if s.locked then none else some ({ s with locked := true }, .pop sum taken .test)
  | .pop sum taken .test =>
    if s.count = 0 then some ({ s with locked := false }, .pop sum taken .waiting) else some (s, .pop sum taken .load)
  | .pop sum taken .load =>
    let v := s.buf s.head
    some ({ s with popped := s.popped ++ [v] }, .pop sum (taken ++ [v]) (.advance v))
  | .pop sum taken (.advance v) => some ({ s with head := (s.head + 1) % QSIZE }, .pop sum taken (.count v))
  | .pop sum taken (.count v) => some ({ s with count := s.count - 1 }, .pop sum taken (.signal v))
  | .pop sum taken (.unlock v) => some ({ s with locked := false }, .got sum taken v)
  | .got sum taken v => some (s, if v = -1 then .returned sum taken else .pop (sum + v) taken .lock)
  | _ => none

def waitsFor : Pc → Option Cond
  | .push _ .waiting => some .notFull
  | .pop _ _ .waiting => some .notEmpty
  | _ => none

def woken : Pc → Pc
  | .push l .waiting => .push l .relock
  | .pop sum taken .waiting => .pop sum taken .relock
  | p => p

def signals : Pc → Option Cond
  | .push _ .signal => some .notEmpty
  | .pop _ _ (.signal _) => some .notFull
  | _ => none

def signalled : Pc → Pc
  | .push l .signal => .push l .unlock
  | .pop sum taken (.signal v) => .pop sum taken (.unlock v)
  | p => p

/-- `producer_fn` and `consumer_fn` for `produce_n = n` and the given number of consumers. -/
def threads (n consumers : ℕ) : Monitor Queue Pc Cond where
  own := own n consumers
  waitsFor := waitsFor
  woken := woken
  signals := signals
  signalled := signalled
  apart p := by
    intro waits
    cases p with
    | push l p => cases p <;> first | rfl | cases waits
    | pop sum taken p => cases p <;> first | rfl | cases waits
    | _ => rfl

/-- The queue and its threads: the producer, and the consumers. -/
abbrev Demo (ι : Type) := System Queue Pc (Option ι)

section
variable {ι : Type} [DecidableEq ι] [Fintype ι]

def step (n : ℕ) : Demo ι → Move (Option ι) → Option (Demo ι) := Conditions.step (threads n (Fintype.card ι))

omit [DecidableEq ι] [Fintype ι] in
/-- The state after `queue_init`, with every thread created. -/
def start : Demo ι where
  shared := { buf := fun _ => 0, head := 0, tail := 0, count := 0, locked := false, pushed := [], popped := [] }
  pc
    | none => .loop (.value 1)
    | some _ => .pop 0 [] .lock

end

/-! ### What a statement conserves -/

/-- In the critical section. -/
def inside : Pc → ℤ
  | .push _ .test | .push _ .store | .push _ .advance | .push _ .count | .push _ .signal | .push _ .unlock => 1
  | .pop _ _ .test | .pop _ _ .load | .pop _ _ (.advance _) | .pop _ _ (.count _) => 1
  | .pop _ _ (.signal _) | .pop _ _ (.unlock _) => 1
  | _ => 0

/-- What `count` lags behind the values in the queue, and `tail` and `head` behind their places. -/
def behind : Pc → ℤ
  | .push _ .advance | .push _ .count => 1
  | .pop _ _ (.advance _) | .pop _ _ (.count _) => -1
  | _ => 0

def tailBehind : Pc → ZMod QSIZE
  | .push _ .advance => 1
  | _ => 0

def headBehind : Pc → ZMod QSIZE
  | .pop _ _ (.advance _) => 1
  | _ => 0

/-- The values that a consumer has popped. -/
def takenOf : Pc → List ℤ
  | .pop _ taken _ | .got _ taken _ | .returned _ taken => taken
  | _ => []

/-- The balances that a statement keeps. -/
structure Conserves (s : Queue) (p : Pc) (s' : Queue) (p' : Pc) : Prop where
  lock : -(if s'.locked then 1 else 0 : ℤ) + inside p' = -(if s.locked then 1 else 0 : ℤ) + inside p
  count : (s'.count - (s'.pushed.length - s'.popped.length)) + behind p' =
    (s.count - (s.pushed.length - s.popped.length)) + behind p
  tail : ((s'.tail : ZMod QSIZE) - s'.pushed.length) + tailBehind p' =
    ((s.tail : ZMod QSIZE) - s.pushed.length) + tailBehind p
  head : ((s'.head : ZMod QSIZE) - s'.popped.length) + headBehind p' =
    ((s.head : ZMod QSIZE) - s.popped.length) + headBehind p
  taken : ∀ v, -(s'.popped.count v : ℤ) + (takenOf p').count v = -(s.popped.count v : ℤ) + (takenOf p).count v

section
variable {n consumers : ℕ} {s s' : Queue} {p p' : Pc}

/-- The statements that `own` models, each with its condition. -/
inductive Statement (n consumers : ℕ) (s : Queue) : Pc → Queue → Pc → Prop
  | value {i : ℕ} (runs : i ≤ n) : Statement n consumers s (.loop (.value i)) s (.push (.value i) .lock)
  | values {i : ℕ} (ends : ¬ i ≤ n) : Statement n consumers s (.loop (.value i)) s (.loop (.marker 0))
  | marker {k : ℕ} (runs : k < consumers) : Statement n consumers s (.loop (.marker k)) s (.push (.marker k) .lock)
  | markers {k : ℕ} (ends : ¬ k < consumers) : Statement n consumers s (.loop (.marker k)) s .ended
  | pushLock {l : Loop} (free : ¬ s.locked = true) :
      Statement n consumers s (.push l .lock) { s with locked := true } (.push l .test)
  | pushRelock {l : Loop} (free : ¬ s.locked = true) :
      Statement n consumers s (.push l .relock) { s with locked := true } (.push l .test)
  | pushWait {l : Loop} (full : s.count = QSIZE) :
      Statement n consumers s (.push l .test) { s with locked := false } (.push l .waiting)
  | pushGo {l : Loop} (room : ¬ s.count = QSIZE) : Statement n consumers s (.push l .test) s (.push l .store)
  | store {l : Loop} :
      Statement n consumers s (.push l .store)
        { s with buf := Function.update s.buf s.tail l.item, pushed := s.pushed ++ [l.item] } (.push l .advance)
  | tail {l : Loop} :
      Statement n consumers s (.push l .advance) { s with tail := (s.tail + 1) % QSIZE } (.push l .count)
  | more {l : Loop} : Statement n consumers s (.push l .count) { s with count := s.count + 1 } (.push l .signal)
  | pushUnlock {l : Loop} : Statement n consumers s (.push l .unlock) { s with locked := false } (.next l)
  | next {l l' : Loop} (fits : l.next = some l') : Statement n consumers s (.next l) s (.loop l')
  | popLock {sum : ℤ} {values : List ℤ} (free : ¬ s.locked = true) :
      Statement n consumers s (.pop sum values .lock) { s with locked := true } (.pop sum values .test)
  | popRelock {sum : ℤ} {values : List ℤ} (free : ¬ s.locked = true) :
      Statement n consumers s (.pop sum values .relock) { s with locked := true } (.pop sum values .test)
  | popWait {sum : ℤ} {values : List ℤ} (empty : s.count = 0) :
      Statement n consumers s (.pop sum values .test) { s with locked := false } (.pop sum values .waiting)
  | popGo {sum : ℤ} {values : List ℤ} (nonempty : ¬ s.count = 0) :
      Statement n consumers s (.pop sum values .test) s (.pop sum values .load)
  | load {sum : ℤ} {values : List ℤ} :
      Statement n consumers s (.pop sum values .load) { s with popped := s.popped ++ [s.buf s.head] }
        (.pop sum (values ++ [s.buf s.head]) (.advance (s.buf s.head)))
  | head {sum : ℤ} {values : List ℤ} {v : ℤ} :
      Statement n consumers s (.pop sum values (.advance v)) { s with head := (s.head + 1) % QSIZE } (.pop sum values (.count v))
  | less {sum : ℤ} {values : List ℤ} {v : ℤ} :
      Statement n consumers s (.pop sum values (.count v)) { s with count := s.count - 1 } (.pop sum values (.signal v))
  | popUnlock {sum : ℤ} {values : List ℤ} {v : ℤ} :
      Statement n consumers s (.pop sum values (.unlock v)) { s with locked := false } (.got sum values v)
  | last {sum : ℤ} {values : List ℤ} {v : ℤ} (marker : v = -1) :
      Statement n consumers s (.got sum values v) s (.returned sum values)
  | add {sum : ℤ} {values : List ℤ} {v : ℤ} (other : ¬ v = -1) :
      Statement n consumers s (.got sum values v) s (.pop (sum + v) values .lock)

theorem own_cases (taken : own n consumers s p = some (s', p')) : Statement n consumers s p s' p' := by
  unfold own at taken
  split at taken
  case h_10 l =>
    obtain ⟨l', fits, same⟩ := Option.map_eq_some_iff.mp taken
    cases same
    exact .next fits
  all_goals (try split_ifs at taken) <;> cases taken
  -- in the order of `own`
  exacts [.value ‹_›, .values ‹_›, .marker ‹_›, .markers ‹_›, .pushLock ‹_›, .pushRelock ‹_›, .pushWait ‹_›,
    .pushGo ‹_›, .store, .tail, .more, .pushUnlock, .popLock ‹_›, .popRelock ‹_›, .popWait ‹_›, .popGo ‹_›,
    .load, .head, .less, .popUnlock, .last ‹_›, .add ‹_›]

/-- Nobody unlocks a mutex that is not locked. -/
theorem own_conserves (taken : own n consumers s p = some (s', p')) (held : inside p = 1 → s.locked = true) :
    Conserves s p s' p' := by
  cases own_cases taken
  all_goals constructor <;> try first | rfl | exact fun _ => rfl
  all_goals simp_all [inside, behind, tailBehind, headBehind, takenOf, List.count_append]
  all_goals first | omega | ring1

/-! ### What a statement does to `count` -/

/-- There is room for the value that a thread pushes, or a value for it to pop. -/
def Room (count : ℤ) : Pc → Prop
  | .push _ .store | .push _ .advance | .push _ .count => count < QSIZE
  | .pop _ _ .load | .pop _ _ (.advance _) | .pop _ _ (.count _) => 0 < count
  | _ => True

theorem own_room (taken : own n consumers s p = some (s', p')) (bounds : 0 ≤ s.count ∧ s.count ≤ QSIZE)
    (room : Room s.count p) : Room s'.count p' ∧ 0 ≤ s'.count ∧ s'.count ≤ QSIZE := by
  cases own_cases taken
  all_goals first
    | exact ⟨trivial, bounds⟩
    | exact ⟨room, bounds⟩
    | (simp [Room] at room ⊢; omega)

/-- Only in the critical section is `count` changed. -/
theorem own_count (taken : own n consumers s p = some (s', p')) : s'.count = s.count ∨ inside p = 1 := by
  cases own_cases taken
  all_goals first | exact .inl rfl | exact .inr rfl

/-- A consumer that waits for a value. -/
def hungry : Pc → ℤ
  | .pop _ _ .waiting => 1
  | _ => 0

/-- A consumer that is awake in `queue_pop` and has not counted its value, or a producer about to signal. -/
def awake : Pc → ℤ
  | .push _ .signal => 1
  | .pop _ _ .relock | .pop _ _ .test | .pop _ _ .load | .pop _ _ (.advance _) | .pop _ _ (.count _) => 1
  | _ => 0

/-- A consumer about to signal that there is room. -/
def leaving : Pc → ℤ
  | .pop _ _ (.signal _) => 1
  | _ => 0

/-- A consumer starts to wait only when there is no value, and no statement but the wait
    makes more values than there are consumers awake. -/
theorem own_heard (taken : own n consumers s p = some (s', p')) :
    (hungry p' ≤ hungry p ∧ s'.count - awake p' ≤ s.count - awake p) ∨ s'.count = 0 := by
  cases own_cases taken
  all_goals simp_all [hungry, awake]

/-- The producer starts to wait only when there is no room. -/
theorem own_full (taken : own n consumers s p = some (s', p')) (waits : waitsFor p' = some .notFull) :
    s'.count = QSIZE := by
  cases own_cases taken
  all_goals first | assumption | cases waits

/-- A consumer that makes room signals it next. -/
theorem own_leaving (taken : own n consumers s p = some (s', p')) (plain : signals p = none)
    (pops : ∀ l q, p ≠ .push l q) : leaving p ≤ leaving p' ∧ (s'.count = s.count ∨ leaving p' = 1) := by
  cases own_cases taken
  all_goals first
    | exact ⟨le_rfl, .inl rfl⟩
    | exact ⟨zero_le_one, .inr rfl⟩
    | exact absurd rfl (pops _ _)

/-! ### What the threads push and pop -/

/-- What `producer_fn` pushes. -/
def values (n consumers : ℕ) : List ℤ :=
  (List.range n).map (fun i : ℕ => (i : ℤ) + 1) ++ List.replicate consumers (-1)

/-- The number of values that are pushed before this turn of the loops. -/
def Loop.index (n : ℕ) : Loop → ℕ
  | .value i => i - 1
  | .marker k => n + k

/-- The loop condition holds, for a counter that is in range. -/
def Loop.Runs (n consumers : ℕ) : Loop → Prop
  | .value i => 1 ≤ i ∧ i ≤ n
  | .marker k => k < consumers

/-- The counter is in range. -/
def Loop.InRange (n consumers : ℕ) : Loop → Prop
  | .value i => 1 ≤ i ∧ i ≤ n + 1
  | .marker k => k ≤ consumers

/-- One when the value at hand has been stored. -/
def storedBy : PushPc → ℕ
  | .advance | .count | .signal | .unlock => 1
  | _ => 0

/-- The producer has pushed the first values, as many as its turns of the loops. -/
def ProducerOk (n consumers : ℕ) (pushed : List ℤ) : Pc → Prop
  | .loop l => l.InRange n consumers ∧ pushed = (values n consumers).take (l.index n)
  | .push l p => l.Runs n consumers ∧ pushed = (values n consumers).take (l.index n + storedBy p)
  | .next l => l.Runs n consumers ∧ pushed = (values n consumers).take (l.index n + 1)
  | .ended => pushed = values n consumers
  | _ => False

/-- A consumer has the sum of the values it has popped, and goes on until it pops a marker. -/
def ConsumerOk : Pc → Prop
  | .pop sum taken (.advance v) | .pop sum taken (.count v) | .pop sum taken (.signal v)
  | .pop sum taken (.unlock v) | .got sum taken v => ∃ before, taken = before ++ [v] ∧ -1 ∉ before ∧ sum = before.sum
  | .pop sum taken _ => -1 ∉ taken ∧ sum = taken.sum
  | .returned sum taken => ∃ before, taken = before ++ [-1] ∧ -1 ∉ before ∧ sum = before.sum
  | _ => False

theorem values_value {i : ℕ} (positive : 1 ≤ i) (inside : i ≤ n) : (values n consumers)[i - 1]? = some (i : ℤ) := by
  rw [values, List.getElem?_append_left (by simp; omega)]
  rw [List.getElem?_map, List.getElem?_range (by omega), Option.map_some]
  exact congrArg some (by omega)

theorem values_marker {k : ℕ} (inside : k < consumers) : (values n consumers)[n + k]? = some (-1) := by
  rw [values, List.getElem?_append_right (by simp)]
  simp [inside]

/-- The value of a turn of the loops is the next one. -/
theorem values_next {l : Loop} (runs : l.Runs n consumers) : (values n consumers)[l.index n]? = some l.item := by
  cases l with
  | value i => exact values_value runs.1 runs.2
  | marker k => exact values_marker runs

theorem own_producer (taken : own n consumers s p = some (s', p'))
    (ok : ProducerOk n consumers s.pushed p) : ProducerOk n consumers s'.pushed p' ∧ s'.popped = s.popped := by
  cases own_cases taken with
  | value runs => exact ⟨⟨⟨ok.1.1, runs⟩, ok.2⟩, rfl⟩
  | @values i ends =>
    obtain ⟨inRange, pushed⟩ := ok
    refine ⟨⟨Nat.zero_le _, ?_⟩, rfl⟩
    obtain rfl : i = n + 1 := by
      have := inRange.2
      omega
    exact pushed
  | marker runs => exact ⟨⟨runs, ok.2⟩, rfl⟩
  | @markers k ends =>
    obtain ⟨inRange, pushed⟩ := ok
    refine ⟨?_, rfl⟩
    obtain rfl : k = consumers := le_antisymm inRange (not_lt.mp ends)
    show s.pushed = _
    rw [pushed, List.take_of_length_le]
    simp [values, Loop.index]
  | @store l =>
    obtain ⟨runs, pushed⟩ := ok
    refine ⟨⟨runs, ?_⟩, rfl⟩
    show s.pushed ++ [l.item] = (values n consumers).take (l.index n + 1)
    rw [List.take_add_one, values_next runs, pushed]
    rfl
  | @next l l' fits =>
    obtain ⟨runs, pushed⟩ := ok
    refine ⟨?_, rfl⟩
    cases l with
    | value i =>
      obtain ⟨positive, inside⟩ := runs
      obtain ⟨-, same⟩ := Option.ite_none_right_eq_some.mp fits
      cases same
      refine ⟨⟨by omega, by omega⟩, ?_⟩
      have index : i - 1 + 1 = i + 1 - 1 := by omega
      rw [pushed]
      exact congrArg (fun k => (values n consumers).take k) index
    | marker k =>
      obtain ⟨-, same⟩ := Option.ite_none_right_eq_some.mp fits
      cases same
      exact ⟨runs, pushed⟩
  | pushLock | pushRelock | pushWait | pushGo | tail | more | pushUnlock => exact ⟨ok, rfl⟩
  | _ => exact ok.elim

theorem own_consumer (taken : own n consumers s p = some (s', p')) (ok : ConsumerOk p) :
    ConsumerOk p' ∧ s'.pushed = s.pushed := by
  cases own_cases taken with
  | load => exact ⟨⟨_, rfl, ok.1, ok.2⟩, rfl⟩
  | last marker =>
    obtain ⟨before, rfl, none, rfl⟩ := ok
    subst marker
    exact ⟨⟨before, rfl, none, rfl⟩, rfl⟩
  | add other =>
    obtain ⟨before, rfl, none, rfl⟩ := ok
    refine ⟨⟨?_, by simp⟩, rfl⟩
    simp [none, Ne.symm other]
  | popLock | popRelock | popWait | popGo | head | less | popUnlock => exact ⟨ok, rfl⟩
  | _ => exact ok.elim

/-- What a statement does to the values: it stores one, loads one, or leaves them alone. -/
theorem own_items (taken : own n consumers s p = some (s', p')) :
    (∃ l, p = .push l .store ∧ s'.buf = Function.update s.buf s.tail l.item ∧ s'.pushed = s.pushed ++ [l.item] ∧
        s'.popped = s.popped) ∨
      (∃ sum values, p = .pop sum values .load ∧ s'.buf = s.buf ∧ s'.pushed = s.pushed ∧
        s'.popped = s.popped ++ [s.buf s.head]) ∨
      (s'.buf = s.buf ∧ s'.pushed = s.pushed ∧ s'.popped = s.popped) := by
  cases own_cases taken
  all_goals first
    | exact .inl ⟨_, rfl, rfl, rfl, rfl⟩
    | exact .inr (.inl ⟨_, _, rfl, rfl, rfl, rfl⟩)
    | exact .inr (.inr ⟨rfl, rfl, rfl⟩)

theorem own_inRange (taken : own n consumers s p = some (s', p')) (inRange : s.tail < QSIZE ∧ s.head < QSIZE) :
    s'.tail < QSIZE ∧ s'.head < QSIZE := by
  have wraps : ∀ k, k % QSIZE < QSIZE := fun k => Nat.mod_lt k (by decide)
  cases own_cases taken
  all_goals first | exact inRange | exact ⟨wraps _, inRange.2⟩ | exact ⟨inRange.1, wraps _⟩

/-! ### Signals and wake-ups -/

theorem signals_notEmpty (signal : signals p = some .notEmpty) : ∃ l, p = .push l .signal := by
  cases p with
  | push l p => cases p <;> first | exact ⟨l, rfl⟩ | cases signal
  | pop sum values p => cases p <;> cases signal
  | _ => cases signal

theorem signals_notFull (signal : signals p = some .notFull) : ∃ sum values v, p = .pop sum values (.signal v) := by
  cases p with
  | push l p => cases p <;> cases signal
  | pop sum values p => cases p <;> first | exact ⟨sum, values, _, rfl⟩ | cases signal
  | _ => cases signal

theorem waits_notEmpty (waits : waitsFor p = some .notEmpty) : ∃ sum values, p = .pop sum values .waiting := by
  cases p with
  | push l p => cases p <;> cases waits
  | pop sum values p => cases p <;> first | exact ⟨sum, values, rfl⟩ | cases waits
  | _ => cases waits

theorem waits_notFull (waits : waitsFor p = some .notFull) : ∃ l, p = .push l .waiting := by
  cases p with
  | push l p => cases p <;> first | exact ⟨l, rfl⟩ | cases waits
  | pop sum values p => cases p <;> cases waits
  | _ => cases waits

/-- A thread that is woken, or has signalled, is where it was for its part of the queue. -/
structure SamePlace (n consumers : ℕ) (p p' : Pc) : Prop where
  inside : inside p' = inside p
  behind : behind p' = behind p
  tailBehind : tailBehind p' = tailBehind p
  headBehind : headBehind p' = headBehind p
  taken : takenOf p' = takenOf p
  room : ∀ count, Room count p'
  producer : ∀ pushed, ProducerOk n consumers pushed p → ProducerOk n consumers pushed p'
  consumer : ConsumerOk p → ConsumerOk p'
  awake : waitsFor p' = none

theorem signalled_place (signal : (signals p).isSome) : SamePlace n consumers p (signalled p) := by
  obtain ⟨c, signal⟩ := Option.isSome_iff_exists.mp signal
  cases c with
  | notEmpty =>
    obtain ⟨l, rfl⟩ := signals_notEmpty signal
    exact ⟨rfl, rfl, rfl, rfl, rfl, fun _ => trivial, fun _ ok => ok, id, rfl⟩
  | notFull =>
    obtain ⟨sum, values, v, rfl⟩ := signals_notFull signal
    exact ⟨rfl, rfl, rfl, rfl, rfl, fun _ => trivial, fun _ ok => ok, id, rfl⟩

theorem woken_place (waits : (waitsFor p).isSome) : SamePlace n consumers p (woken p) := by
  obtain ⟨c, waits⟩ := Option.isSome_iff_exists.mp waits
  cases c with
  | notEmpty =>
    obtain ⟨sum, values, rfl⟩ := waits_notEmpty waits
    exact ⟨rfl, rfl, rfl, rfl, rfl, fun _ => trivial, fun _ ok => ok, id, rfl⟩
  | notFull =>
    obtain ⟨l, rfl⟩ := waits_notFull waits
    exact ⟨rfl, rfl, rfl, rfl, rfl, fun _ => trivial, fun _ ok => ok, id, rfl⟩

end

/-! ### The invariant -/

section
variable {ι : Type} [DecidableEq ι] [Fintype ι] {n : ℕ} {s t : Demo ι}

/-- The balances over all threads, the values in the queue, and who waits for what. -/
structure Invariant (n : ℕ) (s : Demo ι) : Prop where
  lock : -(if s.shared.locked then 1 else 0 : ℤ) + total inside s.pc = 0
  count : (s.shared.count - (s.shared.pushed.length - s.shared.popped.length)) + total behind s.pc = 0
  tail : ((s.shared.tail : ZMod QSIZE) - s.shared.pushed.length) + total tailBehind s.pc = 0
  head : ((s.shared.head : ZMod QSIZE) - s.shared.popped.length) + total headBehind s.pc = 0
  taken : ∀ v, -(s.shared.popped.count v : ℤ) + total (fun p => ((takenOf p).count v : ℤ)) s.pc = 0
  inRange : s.shared.tail < QSIZE ∧ s.shared.head < QSIZE
  order : s.shared.popped = s.shared.pushed.take s.shared.popped.length
  stored : Stored QSIZE s.shared.buf s.shared.pushed s.shared.popped.length
  bounds : 0 ≤ s.shared.count ∧ s.shared.count ≤ QSIZE
  room : ∀ i, Room s.shared.count (s.pc i)
  producer : ProducerOk n (Fintype.card ι) s.shared.pushed (s.pc none)
  consumers : ∀ i, ConsumerOk (s.pc (some i))
  heard : 0 < total hungry s.pc → s.shared.count ≤ total awake s.pc
  full : waitsFor (s.pc none) = some .notFull → s.shared.count = QSIZE ∨ 0 < total leaving s.pc

theorem inside_nonneg (p : Pc) : 0 ≤ inside p := by
  unfold inside
  split <;> decide

theorem hungry_nonneg (p : Pc) : 0 ≤ hungry p := by
  unfold hungry
  split <;> decide

theorem awake_nonneg (p : Pc) : 0 ≤ awake p := by
  unfold awake
  split <;> decide

theorem leaving_nonneg (p : Pc) : 0 ≤ leaving p := by
  unfold leaving
  split <;> decide

omit [DecidableEq ι] in
theorem locked_of_inside (inv : Invariant n s) {i : Option ι} (here : inside (s.pc i) = 1) : s.shared.locked = true := by
  have lock := inv.lock
  have atLeast := le_total inside_nonneg s.pc i
  by_contra free
  rw [if_neg free] at lock
  omega

omit [DecidableEq ι] in
/-- The thread in the critical section is alone there. -/
theorem alone_inside (inv : Invariant n s) {i : Option ι} (here : inside (s.pc i) = 1) :
    total inside s.pc ≤ inside (s.pc i) := by
  have lock := inv.lock
  rw [if_pos (locked_of_inside inv here)] at lock
  omega

/-- Outside the critical section nothing is behind. -/
theorem behind_outside (p : Pc) (outside : inside p = 0) : behind p = 0 ∧ tailBehind p = 0 ∧ headBehind p = 0 := by
  cases p with
  | push l p => cases p <;> first | exact ⟨rfl, rfl, rfl⟩ | cases outside
  | pop sum values p => cases p <;> first | exact ⟨rfl, rfl, rfl⟩ | cases outside
  | _ => exact ⟨rfl, rfl, rfl⟩

theorem count_eq (inv : Invariant n s) {i : Option ι} (here : inside (s.pc i) = 1) (level : behind (s.pc i) = 0) :
    s.shared.count = s.shared.pushed.length - s.shared.popped.length := by
  have count := inv.count
  rw [total_eq_of_alone inside_nonneg (fun p out => (behind_outside p out).1) (alone_inside inv here), level] at count
  omega

theorem tail_eq (inv : Invariant n s) {i : Option ι} (here : inside (s.pc i) = 1) (level : tailBehind (s.pc i) = 0) :
    s.shared.tail = s.shared.pushed.length % QSIZE := by
  have tail := inv.tail
  rw [total_eq_of_alone inside_nonneg (fun p out => (behind_outside p out).2.1) (alone_inside inv here), level,
    add_zero, sub_eq_zero, ZMod.natCast_eq_natCast_iff'] at tail
  rwa [Nat.mod_eq_of_lt inv.inRange.1] at tail

theorem head_eq (inv : Invariant n s) {i : Option ι} (here : inside (s.pc i) = 1) (level : headBehind (s.pc i) = 0) :
    s.shared.head = s.shared.popped.length % QSIZE := by
  have head := inv.head
  rw [total_eq_of_alone inside_nonneg (fun p out => (behind_outside p out).2.2) (alone_inside inv here), level,
    add_zero, sub_eq_zero, ZMod.natCast_eq_natCast_iff'] at head
  rwa [Nat.mod_eq_of_lt inv.inRange.2] at head

/-- A value is stored in a free place, and the value loaded is the first in the queue. -/
theorem own_stored (inv : Invariant n s) {i : Option ι} {shared : Queue} {p : Pc}
    (taken : own n (Fintype.card ι) s.shared (s.pc i) = some (shared, p)) :
    shared.popped = shared.pushed.take shared.popped.length ∧
      Stored QSIZE shared.buf shared.pushed shared.popped.length := by
  have room := inv.room i
  have read : s.shared.popped.length ≤ s.shared.pushed.length := by
    have := congrArg List.length inv.order
    rw [List.length_take] at this
    omega
  rcases own_items taken with ⟨l, here, buf, pushed, popped⟩ | ⟨sum, values, here, buf, pushed, popped⟩ |
    ⟨buf, pushed, popped⟩
  · rw [here] at room
    have count := count_eq inv (i := i) (by rw [here]; rfl) (by rw [here]; rfl)
    have tail := tail_eq inv (i := i) (by rw [here]; rfl) (by rw [here]; rfl)
    have free : s.shared.pushed.length < s.shared.popped.length + QSIZE := by
      simp only [Room] at room
      omega
    rw [buf, pushed, popped, tail]
    refine ⟨?_, inv.stored.put free l.item⟩
    rw [List.take_append_of_le_length read]
    exact inv.order
  · rw [here] at room
    have count := count_eq inv (i := i) (by rw [here]; rfl) (by rw [here]; rfl)
    have head := head_eq inv (i := i) (by rw [here]; rfl) (by rw [here]; rfl)
    have waiting : s.shared.popped.length < s.shared.pushed.length := by
      simp only [Room] at room
      omega
    rw [buf, pushed, popped, head, List.length_append, List.length_singleton]
    refine ⟨?_, inv.stored.later (Nat.le_succ _)⟩
    rw [← inv.stored.take_next waiting, ← inv.order]
  · rw [buf, pushed, popped]
    exact ⟨inv.order, inv.stored⟩

omit [DecidableEq ι] in
theorem conserves (inv : Invariant n s) (i : Option ι) (shared : Queue) (p : Pc)
    (taken : own n (Fintype.card ι) s.shared (s.pc i) = some (shared, p)) : Conserves s.shared (s.pc i) shared p :=
  own_conserves taken fun here => locked_of_inside inv here

theorem steady {A : Type} [AddCommGroup A] {consumers : ℕ} {weight : Pc → A}
    (same : ∀ p p', SamePlace n consumers p p' → weight p' = weight p) : Steady (threads n consumers) weight :=
  ⟨fun p signal => same p _ (signalled_place signal), fun p waits => same p _ (woken_place waits)⟩

/-- What each thread has pushed or popped. -/
def Own (n consumers : ℕ) (pushed : List ℤ) : Option ι → Pc → Prop
  | none, p => ProducerOk n consumers pushed p
  | some _, p => ConsumerOk p

omit [DecidableEq ι] in
theorem Invariant.own (inv : Invariant n s) (i : Option ι) :
    Own n (Fintype.card ι) s.shared.pushed i (s.pc i) := by
  cases i with
  | none => exact inv.producer
  | some i => exact inv.consumers i

omit [DecidableEq ι] [Fintype ι] in
theorem SamePlace.own {consumers : ℕ} {p p' : Pc} {pushed : List ℤ} (same : SamePlace n consumers p p') {i : Option ι}
    (holds : Own n consumers pushed i p) : Own n consumers pushed i p' := by
  cases i with
  | none => exact same.producer pushed holds
  | some i => exact same.consumer holds

/-- Each thread goes on with its part. -/
theorem step_own (inv : Invariant n s) {move : Move (Option ι)} (taken : step n s move = some t) :
    ∀ i, Own n (Fintype.card ι) t.shared.pushed i (t.pc i) := by
  rcases step_quiet inv.own (fun i p signal holds => (signalled_place signal).own holds)
    (fun i p waits holds => (woken_place waits).own holds) taken with ⟨i, shared, p, -, moved, rfl⟩ | ⟨same, each⟩
  · cases i with
    | none =>
      refine forall_update (P := Own n (Fintype.card ι) shared.pushed) (fun j other => ?_) (own_producer moved inv.producer).1
      cases j with
      | none => exact absurd rfl other
      | some j => exact inv.consumers j
    | some i =>
      obtain ⟨after, pushed⟩ := own_consumer moved (inv.consumers i)
      refine forall_update (P := Own n (Fintype.card ι) shared.pushed) (fun j _ => ?_) after
      rw [pushed]
      exact inv.own j
  · rw [same]
    exact each

/-- A thread keeps its room, since `count` is changed by the thread in the critical section only. -/
theorem step_room (inv : Invariant n s) {move : Move (Option ι)} (taken : step n s move = some t) :
    (0 ≤ t.shared.count ∧ t.shared.count ≤ QSIZE) ∧ ∀ i, Room t.shared.count (t.pc i) := by
  rcases step_quiet (P := fun _ p => Room s.shared.count p) inv.room
    (fun i p signal _ => (signalled_place signal : SamePlace n 0 p _).room _)
    (fun i p waits _ => (woken_place waits : SamePlace n 0 p _).room _) taken with
    ⟨i, shared, p, -, moved, rfl⟩ | ⟨same, each⟩
  · obtain ⟨room, bounds⟩ := own_room moved inv.bounds (inv.room i)
    refine ⟨bounds, forall_update (P := fun _ p => Room shared.count p) (fun j other => ?_) room⟩
    rcases own_count moved with same | here
    · rw [same]
      exact inv.room j
    · have outside : inside (s.pc j) = 0 := zero_of_alone inside_nonneg (alone_inside inv here) other
      generalize s.pc j = now at outside
      cases now with
      | push l p => cases p <;> first | trivial | cases outside
      | pop sum values p => cases p <;> first | trivial | cases outside
      | _ => trivial
  · rw [same]
    exact ⟨inv.bounds, each⟩

/-- While a consumer waits, there are no more values than consumers awake. -/
theorem step_heard (inv : Invariant n s) {move : Move (Option ι)} (taken : step n s move = some t) :
    0 < total hungry t.pc → t.shared.count ≤ total awake t.pc := by
  intro waiting
  cases step_cases taken with
  | @own i shared p plain moved =>
    have hungryAfter := total_update hungry s.pc i p
    have awakeAfter := total_update awake s.pc i p
    have some' := total_nonneg awake_nonneg (Function.update s.pc i p)
    rcases own_heard moved with ⟨less, slack⟩ | none
    · have before := inv.heard (by simp only at waiting; omega)
      simp only
      omega
    · simp only [none]
      exact some'
  | @unheard i c signal nobody =>
    have hungryAfter := total_update hungry s.pc i (signalled (s.pc i))
    have awakeAfter := total_update awake s.pc i (signalled (s.pc i))
    simp only [threads] at waiting ⊢
    cases c with
    | notEmpty =>
      obtain ⟨l, here⟩ := signals_notEmpty signal
      have none : total hungry s.pc = 0 := total_eq_zero fun w => by
        have deaf := nobody w
        generalize s.pc w = now at deaf
        cases now with
        | pop sum values p => cases p <;> first | rfl | exact absurd rfl deaf
        | _ => rfl
      rw [here] at hungryAfter waiting
      simp only [signalled, hungry] at hungryAfter waiting
      omega
    | notFull =>
      obtain ⟨sum, values, v, here⟩ := signals_notFull signal
      rw [here] at hungryAfter awakeAfter waiting ⊢
      simp only [signalled, hungry, awake] at hungryAfter awakeAfter waiting ⊢
      have before := inv.heard (by omega)
      omega
  | @heard i w c signal waits other =>
    have hungryAfter := total_update_two hungry s.pc other (signalled (s.pc i)) (woken (s.pc w))
    have awakeAfter := total_update_two awake s.pc other (signalled (s.pc i)) (woken (s.pc w))
    simp only [threads] at waiting ⊢
    cases c with
    | notEmpty =>
      obtain ⟨l, here⟩ := signals_notEmpty signal
      obtain ⟨sum, values, there⟩ := waits_notEmpty waits
      rw [here, there] at hungryAfter awakeAfter waiting ⊢
      simp only [signalled, woken, hungry, awake] at hungryAfter awakeAfter waiting ⊢
      have before := inv.heard (by omega)
      omega
    | notFull =>
      obtain ⟨sum, values, v, here⟩ := signals_notFull signal
      obtain ⟨l, there⟩ := waits_notFull waits
      rw [here, there] at hungryAfter awakeAfter waiting ⊢
      simp only [signalled, woken, hungry, awake] at hungryAfter awakeAfter waiting ⊢
      have before := inv.heard (by omega)
      omega
  | @spurious w c waits =>
    have hungryAfter := total_update hungry s.pc w (woken (s.pc w))
    have awakeAfter := total_update awake s.pc w (woken (s.pc w))
    simp only [threads] at waiting ⊢
    cases c with
    | notEmpty =>
      obtain ⟨sum, values, there⟩ := waits_notEmpty waits
      rw [there] at hungryAfter awakeAfter waiting ⊢
      simp only [woken, hungry, awake] at hungryAfter awakeAfter waiting ⊢
      have before := inv.heard (by omega)
      omega
    | notFull =>
      obtain ⟨l, there⟩ := waits_notFull waits
      rw [there] at hungryAfter awakeAfter waiting ⊢
      simp only [woken, hungry, awake] at hungryAfter awakeAfter waiting ⊢
      have before := inv.heard (by omega)
      omega

omit [DecidableEq ι] in
/-- A consumer waits for no room. -/
theorem consumer_waits (inv : Invariant n s) {i : ι} (waits : waitsFor (s.pc (some i)) = some .notFull) : False := by
  obtain ⟨l, here⟩ := waits_notFull waits
  have ok := inv.consumers i
  rw [here] at ok
  exact ok

/-- While the producer waits there is no room, or a consumer is about to signal it. -/
theorem step_full (inv : Invariant n s) {move : Move (Option ι)} (taken : step n s move = some t) :
    waitsFor (t.pc none) = some .notFull → t.shared.count = QSIZE ∨ 0 < total leaving t.pc := by
  intro waiting
  have wakes : ∀ {p p' : Pc}, SamePlace n 0 p p' → waitsFor p' = some .notFull → False := by
    intro p p' same waits
    rw [same.awake] at waits
    cases waits
  cases step_cases taken with
  | @own i shared p plain moved =>
    cases i with
    | none =>
      simp only [Function.update_self] at waiting
      exact .inl (own_full moved waiting)
    | some i =>
      have pops : ∀ l q, s.pc (some i) ≠ .push l q := by
        intro l q here
        have ok := inv.consumers i
        rw [here] at ok
        exact ok
      have leavingAfter := total_update leaving s.pc (some i) p
      have others := le_total leaving_nonneg (Function.update s.pc (some i) p) (some i)
      rw [Function.update_self] at others
      obtain ⟨atLeast, count⟩ := own_leaving moved plain pops
      have before := inv.full (by simpa using waiting)
      simp only
      rcases count with same | signals
      · rw [same]
        omega
      · omega
  | @unheard i c signal nobody =>
    have waited : waitsFor (s.pc none) = some .notFull := by
      by_cases its : none = i
      · subst its
        simp only [Function.update_self] at waiting
        exact (wakes (signalled_place (Option.isSome_of_eq_some signal)) waiting).elim
      · simpa only [Function.update_of_ne its] using waiting
    cases c with
    | notEmpty =>
      have leavingAfter := total_update leaving s.pc i (signalled (s.pc i))
      obtain ⟨l, here⟩ := signals_notEmpty signal
      simp only [threads]
      rw [here] at leavingAfter ⊢
      simp only [signalled, leaving] at leavingAfter ⊢
      have before := inv.full waited
      omega
    | notFull => exact absurd waited (nobody none)
  | @heard i w c signal waits other =>
    cases w with
    | none =>
      simp only [Function.update_self] at waiting
      exact (wakes (woken_place (Option.isSome_of_eq_some waits)) waiting).elim
    | some w =>
      simp only [Function.update_of_ne (Option.some_ne_none w).symm] at waiting
      cases c with
      | notFull => exact (consumer_waits inv waits).elim
      | notEmpty =>
        cases i with
        | none =>
          rw [Function.update_self] at waiting
          exact (wakes (signalled_place (Option.isSome_of_eq_some signal)) waiting).elim
        | some i =>
          obtain ⟨l, here⟩ := signals_notEmpty signal
          have ok := inv.consumers i
          rw [here] at ok
          exact ok.elim
  | @spurious w c waits =>
    cases w with
    | none =>
      simp only [Function.update_self] at waiting
      exact (wakes (woken_place (Option.isSome_of_eq_some waits)) waiting).elim
    | some w =>
      have leavingAfter := total_update leaving s.pc (some w) (woken (s.pc (some w)))
      cases c with
      | notFull => exact (consumer_waits inv waits).elim
      | notEmpty =>
        obtain ⟨sum, values, there⟩ := waits_notEmpty waits
        have before := inv.full (by simpa using waiting)
        simp only [threads]
        rw [there] at leavingAfter ⊢
        simp only [woken, leaving] at leavingAfter ⊢
        omega

theorem step_invariant (s : Demo ι) (move : Move (Option ι)) (t : Demo ι) (inv : Invariant n s)
    (taken : step n s move = some t) : Invariant n t := by
  have moved : ∀ {A : Type} [AddCommGroup A] (law : Queue → A) (weight : Pc → A),
      (∀ p p', SamePlace n (Fintype.card ι) p p' → weight p' = weight p) →
      (∀ i shared p, Conserves s.shared (s.pc i) shared p → law shared + weight p = law s.shared + weight (s.pc i)) →
      law s.shared + total weight s.pc = 0 → law t.shared + total weight t.pc = 0 := by
    intro A _ law weight same conserved zero
    rw [← zero]
    exact step_conserves law weight (steady same) (fun i shared p own => conserved i shared p (conserves inv i shared p own))
      taken
  have items : t.shared.popped = t.shared.pushed.take t.shared.popped.length ∧
      Stored QSIZE t.shared.buf t.shared.pushed t.shared.popped.length ∧
      t.shared.tail < QSIZE ∧ t.shared.head < QSIZE := by
    rcases step_quiet (P := fun _ _ => True) (fun _ => trivial) (fun _ _ _ _ => trivial) (fun _ _ _ _ => trivial) taken with
      ⟨i, shared, p, -, own, rfl⟩ | ⟨same, -⟩
    · obtain ⟨order, stored⟩ := own_stored inv own
      exact ⟨order, stored, own_inRange own inv.inRange⟩
    · rw [same]
      exact ⟨inv.order, inv.stored, inv.inRange⟩
  obtain ⟨order, stored, inRange⟩ := items
  obtain ⟨bounds, room⟩ := step_room inv taken
  have each := step_own inv taken
  exact
    { lock := moved (fun s => -(if s.locked then 1 else 0 : ℤ)) inside (fun _ _ same => same.inside)
        (fun _ _ _ own => own.lock) inv.lock
      count := moved (fun s => s.count - (s.pushed.length - s.popped.length)) behind (fun _ _ same => same.behind)
        (fun _ _ _ own => own.count) inv.count
      tail := moved (fun s => (s.tail : ZMod QSIZE) - s.pushed.length) tailBehind (fun _ _ same => same.tailBehind)
        (fun _ _ _ own => own.tail) inv.tail
      head := moved (fun s => (s.head : ZMod QSIZE) - s.popped.length) headBehind (fun _ _ same => same.headBehind)
        (fun _ _ _ own => own.head) inv.head
      taken := fun v => moved (fun s => -(s.popped.count v : ℤ)) (fun p => ((takenOf p).count v : ℤ))
        (fun _ _ same => by rw [same.taken]) (fun _ _ _ own => own.taken v) (inv.taken v)
      inRange
      order
      stored
      bounds
      room
      producer := each none
      consumers := fun i => each (some i)
      heard := step_heard inv taken
      full := step_full inv taken }

omit [DecidableEq ι] in
theorem start_invariant : Invariant n (start (ι := ι)) := by
  have zero : ∀ {A : Type} [AddCommGroup A] (weight : Pc → A), weight (.loop (.value 1)) = 0 →
      weight (.pop 0 [] .lock) = 0 → total weight (start (ι := ι)).pc = 0 := by
    intro A _ weight producer consumer
    apply total_eq_zero
    intro i
    cases i with
    | none => exact producer
    | some i => exact consumer
  exact
    { lock := by rw [zero inside rfl rfl]; rfl
      count := by rw [zero behind rfl rfl]; rfl
      tail := by rw [zero tailBehind rfl rfl]; simp [start]
      head := by rw [zero headBehind rfl rfl]; simp [start]
      taken := fun v => by rw [zero _ rfl rfl]; rfl
      inRange := by simp [start, QSIZE]
      order := rfl
      stored := stored_nil _ _ _
      bounds := by simp [start, QSIZE]
      room := fun i => by cases i <;> trivial
      producer := ⟨⟨le_rfl, by omega⟩, rfl⟩
      consumers := fun i => ⟨by simp, rfl⟩
      heard := by
        intro waiting
        rw [zero hungry rfl rfl] at waiting
        exact absurd waiting (lt_irrefl _)
      full := fun waiting => by cases waiting }

end

/-! ### No deadlock -/

/-- The thread has returned. -/
def Finished : Pc → Prop
  | .ended | .returned _ _ => True
  | _ => False

/-- A thread that cannot go on by itself, with the mutex free. -/
def Resting (p : Pc) : Prop := (waitsFor p).isSome ∨ Finished p

theorem resting_zero {p : Pc} (rests : Resting p) : behind p = 0 ∧ awake p = 0 ∧ leaving p = 0 := by
  rcases rests with waits | finished
  · cases p with
    | push l p => cases p <;> first | exact ⟨rfl, rfl, rfl⟩ | cases waits
    | pop sum values p => cases p <;> first | exact ⟨rfl, rfl, rfl⟩ | cases waits
    | _ => cases waits
  · cases p <;> first | exact ⟨rfl, rfl, rfl⟩ | exact finished.elim

theorem inside_goesOn {n consumers : ℕ} {s : Queue} {p : Pc} (here : inside p ≠ 0) (plain : signals p = none) :
    (own n consumers s p).isSome := by
  cases p with
  | push l p =>
    cases p with
    | test =>
      simp only [own]
      split_ifs <;> rfl
    | store | advance | count | unlock => rfl
    | signal => cases plain
    | lock | waiting | relock => exact absurd rfl here
  | pop sum values p =>
    cases p with
    | test =>
      simp only [own]
      split_ifs <;> rfl
    | load | advance | count | unlock => rfl
    | signal => cases plain
    | lock | waiting | relock => exact absurd rfl here
  | _ => exact absurd rfl here

theorem free_goesOn {n consumers : ℕ} {s : Queue} {p : Pc} (free : s.locked = false) (plain : signals p = none)
    (fits : ∀ l, p = .next l → l.next.isSome) : Resting p ∨ (own n consumers s p).isSome := by
  by_cases here : inside p = 0
  · cases p with
    | loop l => cases l <;> exact .inr rfl
    | next l => exact .inr (by simpa [own] using fits l rfl)
    | push l p | pop sum values p =>
      cases p with
      | waiting => exact .inl (.inl rfl)
      | lock | relock => exact .inr (by simp [own, free])
      | signal => cases plain
      | _ => cases here
    | got sum values v => exact .inr rfl
    | ended | returned => exact .inl (.inr trivial)
  · exact .inr (inside_goesOn here plain)

theorem index_lt {n consumers : ℕ} {l : Loop} (runs : l.Runs n consumers) (some' : 0 < consumers) :
    l.index n < n + consumers := by
  cases l with
  | value i =>
    obtain ⟨positive, inside⟩ := runs
    simp only [Loop.index]
    omega
  | marker k => exact Nat.add_lt_add_left runs n

/-- The markers among the first values. -/
theorem count_marker {n consumers m : ℕ} (inside : m ≤ n + consumers) :
    ((values n consumers).take m).count (-1) = m - n := by
  have none : (((List.range n).map fun i : ℕ => (i : ℤ) + 1).take m).count (-1) = 0 := by
    refine List.count_eq_zero.mpr fun known => ?_
    obtain ⟨i, -, same⟩ := List.mem_map.mp (List.mem_of_mem_take known)
    omega
  rw [values, List.take_append, List.count_append, none, List.take_replicate, List.count_replicate_self]
  simp only [List.length_map, List.length_range]
  omega

section
variable {ι : Type} [DecidableEq ι] [Fintype ι] {n : ℕ} {s : Demo ι}

omit [DecidableEq ι] in
theorem popped_first (inv : Invariant n s) : s.shared.popped <+: s.shared.pushed := by
  rw [inv.order]
  exact List.take_prefix ..

/-- The markers that a thread has popped. -/
def markers (p : Pc) : ℤ := (takenOf p).count (-1)

/-- A consumer has popped a marker when it has returned, and none while it waits. -/
theorem markers_consumer {p : Pc} (ok : ConsumerOk p) (rests : Resting p) :
    markers p + hungry p = 1 ∧ (Finished p ∨ hungry p = 1) := by
  cases p with
  | pop sum taken p =>
    cases p with
    | waiting =>
      have none : taken.count (-1) = 0 := List.count_eq_zero.mpr ok.1
      exact ⟨by simp [markers, takenOf, none, hungry], .inr rfl⟩
    | _ => exact absurd rests (by simp [Resting, waitsFor, Finished])
  | returned sum taken =>
    obtain ⟨before, rfl, clean, -⟩ := ok
    have none : before.count (-1) = 0 := List.count_eq_zero.mpr clean
    exact ⟨by simp [markers, takenOf, List.count_append, none, hungry], .inl trivial⟩
  | got => exact absurd rests (by simp [Resting, waitsFor, Finished])
  | _ => exact ok.elim

theorem markers_producer {pushed : List ℤ} {consumers : ℕ} {p : Pc} (ok : ProducerOk n consumers pushed p) :
    markers p = 0 ∧ hungry p = 0 := by
  cases p <;> first | exact ⟨rfl, rfl⟩ | exact ok.elim

omit [DecidableEq ι] in
/-- With every thread at rest, the markers popped and the consumers that wait make up the consumers. -/
theorem markers_resting (inv : Invariant n s) (rests : ∀ i, Resting (s.pc i)) :
    (s.shared.popped.count (-1) : ℤ) + total hungry s.pc = Fintype.card ι := by
  have taken := inv.taken (-1)
  have each : ∀ i, markers (s.pc (some i)) + hungry (s.pc (some i)) = 1 :=
    fun i => (markers_consumer (inv.consumers i) (rests _)).1
  obtain ⟨none, idle⟩ := markers_producer inv.producer
  have all : total markers s.pc + total hungry s.pc = Fintype.card ι := by
    simp only [total, Fintype.sum_option, none, idle, zero_add, ← Finset.sum_add_distrib, each]
    simp
  change -(s.shared.popped.count (-1) : ℤ) + total markers s.pc = 0 at taken
  omega

omit [DecidableEq ι] in
/-- Once the producer has returned it has pushed everything. -/
theorem pushed_all (inv : Invariant n s) (finished : Finished (s.pc none)) :
    s.shared.pushed = values n (Fintype.card ι) := by
  have producer := inv.producer
  generalize s.pc none = now at producer finished
  cases now with
  | ended => exact producer
  | returned => exact producer.elim
  | _ => exact finished.elim

omit [DecidableEq ι] in
/-- The counters of the loops stay below `INT_MAX`. -/
theorem next_fits (inv : Invariant n s) (below : n < INT_MAX) (few : Fintype.card ι ≤ INT_MAX) {i : Option ι} {l : Loop}
    (here : s.pc i = .next l) : l.next.isSome := by
  have own := inv.own i
  rw [here] at own
  cases i with
  | none =>
    obtain ⟨runs, -⟩ := own
    cases l with
    | value j =>
      have fits : j < INT_MAX := runs.2.trans_lt below
      rw [Loop.next, if_pos fits]
      rfl
    | marker k =>
      have fits : k < INT_MAX := lt_of_lt_of_le runs few
      rw [Loop.next, if_pos fits]
      rfl
  | some i => exact own.elim

/-- Some thread that has not returned can go on, without a spurious wake-up. -/
theorem enabled [Nonempty ι] (inv : Invariant n s) (below : n < INT_MAX) (few : Fintype.card ι ≤ INT_MAX)
    (unfinished : ∃ i, ¬ Finished (s.pc i)) :
    ∃ move : Move (Option ι), ¬ move.Spurious ∧ (step n s move).isSome := by
  by_contra stuck
  have plain : ∀ i, signals (s.pc i) = none := by
    intro i
    by_contra signals
    obtain ⟨c, signals⟩ := Option.ne_none_iff_exists'.mp signals
    exact stuck (signal_enabled (m := threads n (Fintype.card ι)) signals)
  have blocked : ∀ i, ¬ (own n (Fintype.card ι) s.shared (s.pc i)).isSome :=
    fun i goesOn => stuck (own_enabled (m := threads n (Fintype.card ι)) (plain i) goesOn)
  have outside : ∀ i, inside (s.pc i) = 0 := by
    intro i
    by_contra here
    exact blocked i (inside_goesOn here (plain i))
  have free : s.shared.locked = false := by
    have lock := inv.lock
    rw [total_eq_zero outside] at lock
    by_contra locked
    rw [Bool.not_eq_false] at locked
    rw [if_pos locked] at lock
    omega
  have rests : ∀ i, Resting (s.pc i) := fun i =>
    (free_goesOn free (plain i) fun l here => next_fits inv below few here).resolve_right (blocked i)
  have level : s.shared.count = s.shared.pushed.length - s.shared.popped.length := by
    have count := inv.count
    rw [total_eq_zero fun i => (resting_zero (rests i)).1] at count
    omega
  have asleep : total awake s.pc = 0 := total_eq_zero fun i => (resting_zero (rests i)).2.1
  have nobody : total leaving s.pc = 0 := total_eq_zero fun i => (resting_zero (rests i)).2.2
  have marked := markers_resting inv rests
  have someone : 0 < Fintype.card ι := Fintype.card_pos
  have fewer := (popped_first inv).sublist.count_le (-1)
  have bounds := inv.bounds
  rcases rests none with waits | finished
  · obtain ⟨c, waits⟩ := Option.isSome_iff_exists.mp waits
    have producer := inv.producer
    obtain ⟨l, here⟩ : ∃ l, s.pc none = .push l .waiting := by
      cases c with
      | notFull => exact waits_notFull waits
      | notEmpty =>
        obtain ⟨sum, values, here⟩ := waits_notEmpty waits
        rw [here] at producer
        exact producer.elim
    have full := inv.full (by rw [here]; rfl)
    rw [here] at producer
    obtain ⟨runs, pushed⟩ := producer
    -- with no room left no consumer waits, so all of them have popped a marker, and not all are pushed
    have satisfied : ¬ 0 < total hungry s.pc := by
      intro waiting
      have heard := inv.heard waiting
      simp only [QSIZE] at full
      omega
    have count := count_marker (n := n) (index_lt runs someone).le
    rw [pushed, show storedBy .waiting = 0 from rfl, add_zero, count] at fewer
    have := total_nonneg hungry_nonneg s.pc
    have := index_lt runs someone
    omega
  · have all := pushed_all inv finished
    obtain ⟨i, unfinished⟩ := unfinished
    cases i with
    | none => exact unfinished finished
    | some i =>
      -- a consumer waits, so the queue is empty and every marker has been popped, by the other consumers
      have waits := (markers_consumer (inv.consumers i) (rests (some i))).2.resolve_left unfinished
      have atLeast := le_total hungry_nonneg s.pc (some i)
      have heard := inv.heard (by omega)
      have same : s.shared.popped = s.shared.pushed :=
        (popped_first inv).eq_of_length (by omega)
      have count := count_marker (n := n) (le_refl (n + Fintype.card ι))
      rw [List.take_of_length_le (by simp [values])] at count
      rw [same, all, count] at marked
      omega

/-! ### The results -/

omit [DecidableEq ι] [Fintype ι] in
/-- What a consumer returns. -/
def result : Pc → ℤ
  | .returned sum _ => sum
  | _ => 0

theorem finished_hungry {p : Pc} (finished : Finished p) : hungry p = 0 := by
  cases p <;> first | rfl | exact finished.elim

theorem taken_producer {consumers : ℕ} {pushed : List ℤ} {p : Pc} (ok : ProducerOk n consumers pushed p) :
    takenOf p = [] := by
  cases p <;> first | rfl | exact ok.elim

/-- A consumer that has returned has popped one marker, last, and returns the sum of the rest. -/
theorem finished_consumer {p : Pc} (ok : ConsumerOk p) (finished : Finished p) :
    (takenOf p).count (-1) = 1 ∧ result p = (takenOf p).sum + 1 := by
  cases p with
  | returned sum taken =>
    obtain ⟨before, rfl, clean, rfl⟩ := ok
    have none : before.count (-1) = 0 := List.count_eq_zero.mpr clean
    simp [takenOf, result, List.count_append, none]
  | ended => exact ok.elim
  | _ => exact finished.elim

theorem sum_numbers (n : ℕ) : 2 * ((List.range n).map fun i : ℕ => (i : ℤ) + 1).sum = n * (n + 1) := by
  induction n with
  | zero => rfl
  | succ n ih =>
    rw [List.range_succ, List.map_append, List.sum_append, mul_add, ih]
    simp only [List.map_cons, List.map_nil, List.sum_singleton]
    push_cast
    ring

theorem sum_values (n consumers : ℕ) : (values n consumers).sum + consumers = n * (n + 1) / 2 := by
  have twice := sum_numbers n
  rw [values, List.sum_append, List.sum_replicate, nsmul_eq_mul, mul_neg_one, neg_add_cancel_right]
  exact (Int.ediv_eq_of_eq_mul_right (by decide) twice.symm).symm

theorem count_value {v consumers : ℕ} (positive : 1 ≤ v) (inside : v ≤ n) : (values n consumers).count (v : ℤ) = 1 := by
  have once : ((List.range n).map fun i : ℕ => (i : ℤ) + 1).count (v : ℤ) = 1 := by
    refine List.count_eq_one_of_mem (List.nodup_range.map fun i j same => ?_) (List.mem_map.mpr ⟨v - 1, ?_, ?_⟩)
    · omega
    · rw [List.mem_range]
      omega
    · omega
  have none : (List.replicate consumers (-1 : ℤ)).count (v : ℤ) = 0 := by
    refine List.count_eq_zero.mpr fun known => ?_
    have := List.eq_of_mem_replicate known
    omega
  rw [values, List.count_append, once, none]

omit [DecidableEq ι] in
/-- Lists that have the values of one list among them have its sum. -/
theorem sum_of_counts {parts : ι → List ℤ} {whole : List ℤ} (counts : ∀ v, ∑ i, (parts i).count v = whole.count v) :
    ∑ i, (parts i).sum = whole.sum := by
  have same : ∑ i, (parts i : Multiset ℤ) = (whole : Multiset ℤ) := by
    refine Multiset.ext.mpr fun v => ?_
    simpa [Multiset.count_sum'] using counts v
  have sums := congrArg Multiset.sumAddMonoidHom same
  rw [map_sum] at sums
  exact sums

omit [DecidableEq ι] in
/-- The values popped are those that the consumers have. -/
theorem count_taken (inv : Invariant n s) (v : ℤ) :
    ∑ i : ι, (takenOf (s.pc (some i))).count v = s.shared.popped.count v := by
  have taken := inv.taken v
  simp only [total, Fintype.sum_option, taken_producer inv.producer] at taken
  have equal : ((∑ i : ι, (takenOf (s.pc (some i))).count v : ℕ) : ℤ) = s.shared.popped.count v := by
    push_cast
    simp only [List.count_nil, Nat.cast_zero, zero_add] at taken
    omega
  exact_mod_cast equal

omit [DecidableEq ι] in
/-- When all threads have returned, all values have been popped. -/
theorem popped_all [Nonempty ι] (inv : Invariant n s) (finished : ∀ i, Finished (s.pc i)) :
    s.shared.popped = values n (Fintype.card ι) := by
  have none : total hungry s.pc = 0 := total_eq_zero fun i => finished_hungry (finished i)
  have marked := markers_resting inv fun i => .inr (finished i)
  have someone : 0 < Fintype.card ι := Fintype.card_pos
  have order := inv.order
  have length := (popped_first inv).length_le
  have whole : (values n (Fintype.card ι)).length = n + Fintype.card ι := by simp [values]
  rw [pushed_all inv (finished _)] at order length
  have count : ((values n (Fintype.card ι)).take s.shared.popped.length).count (-1) = s.shared.popped.length - n :=
    count_marker (by omega)
  rw [← order] at count
  rw [order]
  exact List.take_of_length_le (by omega)

omit [DecidableEq ι] [Fintype ι] in
/-- `sum` of a consumer. -/
def sumOf : Pc → ℤ
  | .pop sum _ _ | .got sum _ _ | .returned sum _ => sum
  | _ => 0

theorem sum_before {p : Pc} (ok : ConsumerOk p) :
    ∃ before, before <+: takenOf p ∧ -1 ∉ before ∧ sumOf p = before.sum := by
  cases p with
  | pop sum taken p =>
    cases p with
    | advance v | count v | signal v | unlock v =>
      obtain ⟨before, rfl, clean, same⟩ := ok
      exact ⟨before, List.prefix_append .., clean, same⟩
    | _ => exact ⟨taken, List.prefix_rfl, ok⟩
  | got sum taken v =>
    obtain ⟨before, rfl, clean, same⟩ := ok
    exact ⟨before, List.prefix_append .., clean, same⟩
  | returned sum taken =>
    obtain ⟨before, rfl, clean, same⟩ := ok
    exact ⟨before, List.prefix_append .., clean, same⟩
  | _ => exact ok.elim

omit [DecidableEq ι] in
/-- A `sum` stays between 0 and the sum of all values, so a `long` of 64 bits holds it for every `produce_n`. -/
theorem sum_fits (inv : Invariant n s) (i : ι) :
    0 ≤ sumOf (s.pc (some i)) ∧ sumOf (s.pc (some i)) ≤ n * (n + 1) / 2 := by
  obtain ⟨before, part, clean, same⟩ := sum_before (inv.consumers i)
  let numbers : List ℤ := (List.range n).map fun i : ℕ => (i : ℤ) + 1
  have pushed : s.shared.pushed <+: values n (Fintype.card ι) := by
    have producer := inv.producer
    cases at' : s.pc none <;> rw [at'] at producer <;> first
      | exact producer.elim
      | (rw [producer.2]; exact List.take_prefix ..)
      | (rw [producer])
  have among : (before : Multiset ℤ) ≤ numbers := by
    refine Multiset.le_iff_count.mpr fun v => ?_
    rw [Multiset.coe_count, Multiset.coe_count]
    by_cases marker : v = -1
    · rw [marker, List.count_eq_zero.mpr clean]
      exact Nat.zero_le _
    · have none : (List.replicate (Fintype.card ι) (-1 : ℤ)).count v = 0 :=
        List.count_eq_zero.mpr fun known => marker (List.eq_of_mem_replicate known)
      calc before.count v
          ≤ (takenOf (s.pc (some i))).count v := part.sublist.count_le v
        _ ≤ ∑ j : ι, (takenOf (s.pc (some j))).count v :=
            Finset.single_le_sum (f := fun j => (takenOf (s.pc (some j))).count v) (fun _ _ => Nat.zero_le _)
              (Finset.mem_univ i)
        _ = s.shared.popped.count v := count_taken inv v
        _ ≤ (values n (Fintype.card ι)).count v := ((popped_first inv).trans pushed).sublist.count_le v
        _ = numbers.count v := by rw [values, List.count_append, none, add_zero]
  obtain ⟨rest, split⟩ := Multiset.le_iff_exists_add.mp among
  have positive : ∀ v ∈ (numbers : Multiset ℤ), 0 ≤ v := by
    intro v known
    obtain ⟨j, -, rfl⟩ := List.mem_map.mp (Multiset.mem_coe.mp known)
    omega
  have sums := congrArg Multiset.sum split
  rw [Multiset.sum_add, Multiset.sum_coe, Multiset.sum_coe] at sums
  have twice : 2 * numbers.sum = n * (n + 1) := sum_numbers n
  have first : 0 ≤ before.sum := List.sum_nonneg fun v known =>
    positive v (by rw [split]; exact Multiset.mem_add.mpr (.inl known))
  have second : 0 ≤ rest.sum := Multiset.sum_nonneg fun v known =>
    positive v (by rw [split]; exact Multiset.mem_add.mpr (.inr known))
  have whole : (n * (n + 1) / 2 : ℤ) = numbers.sum := Int.ediv_eq_of_eq_mul_right (by decide) twice.symm
  rw [same, whole]
  exact ⟨first, by omega⟩

/-- While a thread has not returned some thread can go on, without a spurious wake-up. -/
def GoesOn (n : ℕ) (s : Demo ι) : Prop :=
  (∃ i, ¬ Finished (s.pc i)) → ∃ move : Move (Option ι), ¬ move.Spurious ∧ (step n s move).isSome

/-- When all threads have returned, the results add up to the sum of all values, each of which was popped once, and
    each consumer has popped one marker. -/
def AllPopped (n : ℕ) (s : Demo ι) : Prop :=
  (∀ i, Finished (s.pc i)) →
    ∑ i : ι, result (s.pc (some i)) = n * (n + 1) / 2 ∧
      (∀ v : ℕ, 1 ≤ v → v ≤ n → ∑ i : ι, (takenOf (s.pc (some i))).count (v : ℤ) = 1) ∧
      ∀ i : ι, (takenOf (s.pc (some i))).count (-1) = 1

omit [DecidableEq ι] in
theorem all_popped [Nonempty ι] (inv : Invariant n s) : AllPopped n s := by
  refine fun finished => ⟨?_, ?_, ?_⟩
  · calc ∑ i : ι, result (s.pc (some i))
        = ∑ i : ι, ((takenOf (s.pc (some i))).sum + 1) :=
          Finset.sum_congr rfl fun i _ => (finished_consumer (inv.consumers i) (finished _)).2
      _ = s.shared.popped.sum + Fintype.card ι := by
          rw [Finset.sum_add_distrib, sum_of_counts (count_taken inv)]
          simp
      _ = n * (n + 1) / 2 := by rw [popped_all inv finished, sum_values]
  · intro v positive inside
    rw [count_taken inv, popped_all inv finished, count_value positive inside]
  · exact fun i => (finished_consumer (inv.consumers i) (finished _)).1

theorem demo_ends [Nonempty ι] (below : n < INT_MAX) (few : Fintype.card ι ≤ INT_MAX)
    (reached : Reachable (step n) start s) : GoesOn n s ∧ AllPopped n s := by
  have inv : Invariant n s := reachable_kept step_invariant start_invariant reached
  exact ⟨enabled inv below few, all_popped inv⟩

/-! ### The last `int` -/

omit [DecidableEq ι] [Fintype ι] in
/-- The queue is empty, and every consumer waits for a value. -/
structure Idle (s : Demo ι) : Prop where
  free : s.shared.locked = false
  empty : s.shared.count = 0
  level : s.shared.head = s.shared.tail
  consumers : ∀ i : ι, ∃ sum taken, s.pc (some i) = .pop sum taken .waiting

/-- A statement of one thread at the end of a run. -/
theorem reach_own {first : Demo ι} {q q' : Queue} {pc : Option ι → Pc} {i : Option ι} {p p' : Pc}
    (reached : Reachable (step n) first { shared := q, pc := Function.update pc i p }) (plain : signals p = none)
    (taken : own n (Fintype.card ι) q p = some (q', p')) :
    Reachable (step n) first { shared := q', pc := Function.update pc i p' } := by
  refine reached.next (a := .run i) ?_
  simp [step, Conditions.step, threads, plain, taken]

/-- A signal that wakes a thread. -/
theorem reach_wake {first : Demo ι} {q : Queue} {pc : Option ι → Pc} {i w : Option ι} {p : Pc} {c : Cond}
    (reached : Reachable (step n) first { shared := q, pc := Function.update pc i p }) (signal : signals p = some c)
    (other : w ≠ i) (waits : waitsFor (pc w) = some c) :
    Reachable (step n) first
      { shared := q, pc := Function.update (Function.update pc w (woken (pc w))) i (signalled p) } := by
  refine reached.next (a := .wake i w) ?_
  simp only [step, Conditions.step, threads, Function.update_self, Function.update_of_ne other, signal, waits, ne_eq,
    reduceCtorEq, not_false_eq_true, and_self, if_true, Function.update_idem]
  rw [Function.update_comm other]

/-- A signal that nobody waits for. -/
theorem reach_signal {first : Demo ι} {q : Queue} {pc : Option ι → Pc} {i : Option ι} {p : Pc} {c : Cond}
    (reached : Reachable (step n) first { shared := q, pc := Function.update pc i p }) (signal : signals p = some c)
    (nobody : ∀ w, waitsFor (Function.update pc i p w) ≠ some c) :
    Reachable (step n) first { shared := q, pc := Function.update pc i (signalled p) } := by
  refine reached.next (a := .run i) ?_
  have silent : ¬ ∃ w, waitsFor (Function.update pc i p w) = some c := not_exists.mpr nobody
  simp only [step, Conditions.step, threads, Function.update_self, signal, silent, if_false, Function.update_idem]

/-- The consumers come to wait before the producer pushes anything. -/
theorem reach_idle : ∃ s : Demo ι, Reachable (step n) start s ∧ Idle s ∧ s.pc none = .loop (.value 1) := by
  have each : ∀ some' : Finset ι, ∃ s : Demo ι, Reachable (step n) start s ∧ s.shared = (start : Demo ι).shared ∧
      s.pc none = .loop (.value 1) ∧ ∀ i, s.pc (some i) = .pop 0 [] (if i ∈ some' then .waiting else .lock) := by
    intro some'
    induction some' using Finset.induction_on with
    | empty => exact ⟨start, ⟨[], rfl⟩, rfl, rfl, fun i => rfl⟩
    | insert j before out ih =>
      obtain ⟨s, reached, shared, producer, consumers⟩ := ih
      have r0 : Reachable (step n) start { s with pc := Function.update s.pc (some j) (.pop 0 [] .lock) } := by
        rwa [show Function.update s.pc (some j) (.pop 0 [] .lock) = s.pc from
          Function.update_eq_iff.mpr ⟨by rw [consumers j, if_neg out], fun _ _ => rfl⟩]
      rw [shared] at r0
      have r1 := reach_own r0 rfl rfl
      have r2 := reach_own r1 rfl rfl
      refine ⟨_, r2, rfl, ?_, fun i => ?_⟩
      · show Function.update s.pc (some j) (.pop 0 [] .waiting) none = _
        rw [Function.update_of_ne (Option.some_ne_none j).symm, producer]
      · show Function.update s.pc (some j) (.pop 0 [] .waiting) (some i) = _
        by_cases its : i = j
        · subst its
          rw [Function.update_self, if_pos (Finset.mem_insert_self ..)]
        · have same : i ∈ insert j before ↔ i ∈ before := by simp [its]
          rw [Function.update_of_ne (by simpa using its), consumers i]
          simp only [same]
  obtain ⟨s, reached, shared, producer, consumers⟩ := each Finset.univ
  refine ⟨s, reached, ⟨by rw [shared]; rfl, by rw [shared]; rfl, by rw [shared]; rfl, fun i => ⟨0, [], ?_⟩⟩, producer⟩
  rw [consumers i, if_pos (Finset.mem_univ i)]

section
variable {first : Demo ι} {buf : ℕ → ℤ} {head tail : ℕ} {pushed popped : List ℤ} {pc : Option ι → Pc}

/-- `queue_push` with an empty queue, up to its signal. -/
theorem push_run {i : ℕ} (runs : i ≤ n) (reached : Reachable (step n) first
      ⟨⟨buf, head, tail, 0, false, pushed, popped⟩, Function.update pc none (.loop (.value i))⟩) :
    Reachable (step n) first ⟨⟨Function.update buf tail i, head, (tail + 1) % QSIZE, 1, true, pushed ++ [(i : ℤ)], popped⟩,
      Function.update pc none (.push (.value i) .signal)⟩ := by
  have locking := reach_own reached rfl (by rw [own, if_pos runs])
  have testing := reach_own locking rfl rfl
  have storing := reach_own testing rfl rfl
  have advancing := reach_own storing rfl rfl
  have counting := reach_own advancing rfl rfl
  exact reach_own counting rfl rfl

/-- `queue_pop` of a consumer that was woken, up to its signal. -/
theorem pop_run {i : Option ι} {sum : ℤ} {taken : List ℤ} (reached : Reachable (step n) first
      ⟨⟨buf, head, tail, 1, false, pushed, popped⟩, Function.update pc i (.pop sum taken .relock)⟩) :
    Reachable (step n) first ⟨⟨buf, (head + 1) % QSIZE, tail, 0, true, pushed, popped ++ [buf head]⟩,
      Function.update pc i (.pop sum (taken ++ [buf head]) (.signal (buf head)))⟩ := by
  have testing := reach_own reached rfl rfl
  have loading := reach_own testing rfl rfl
  have advancing := reach_own loading rfl rfl
  have counting := reach_own advancing rfl rfl
  exact reach_own counting rfl rfl

/-- It adds the value to its `sum`, and waits for the next one. -/
theorem wait_run {i : Option ι} {sum v : ℤ} {taken : List ℤ} (value : v ≠ -1) (reached : Reachable (step n) first
      ⟨⟨buf, head, tail, 0, true, pushed, popped⟩, Function.update pc i (.pop sum taken (.unlock v))⟩) :
    Reachable (step n) first ⟨⟨buf, head, tail, 0, false, pushed, popped⟩,
      Function.update pc i (.pop (sum + v) taken .waiting)⟩ := by
  have adding := reach_own reached rfl rfl
  have locking := reach_own adding rfl (by rw [own, if_neg value])
  have testing := reach_own locking rfl rfl
  exact reach_own testing rfl rfl

end

/-- A thread is where it is. -/
theorem reach_at {first s : Demo ι} {i : Option ι} {p : Pc} (reached : Reachable (step n) first s)
    (here : s.pc i = p) : Reachable (step n) first { s with pc := Function.update s.pc i p } := by
  rwa [Function.update_eq_iff.mpr ⟨here.symm, fun _ _ => rfl⟩]

/-- One value goes from the producer to a consumer that waits, and this consumer waits again. -/
theorem reach_next [Nonempty ι] (idle : Idle s) {i : ℕ} (producer : s.pc none = .loop (.value i)) (runs : i ≤ n) :
    ∃ t : Demo ι, Reachable (step n) s t ∧ Idle t ∧ t.pc none = .next (.value i) := by
  obtain ⟨w⟩ : Nonempty ι := inferInstance
  have begins := reach_at (n := n) ⟨[], rfl⟩ producer
  obtain ⟨⟨buf, head, tail, count, locked, pushed, popped⟩, pc⟩ := s
  obtain ⟨free, empty, level, consumers⟩ := idle
  simp only at free empty level consumers begins
  subst free empty level
  obtain ⟨sum, taken, waits⟩ := consumers w
  have other : (some w : Option ι) ≠ none := Option.some_ne_none w
  have value : Function.update buf head (i : ℤ) head ≠ -1 := by
    rw [Function.update_self]
    omega
  have woken := reach_wake (push_run runs begins) rfl other (by rw [waits]; rfl)
  rw [waits] at woken
  have unlocked := reach_own woken rfl rfl
  rw [Function.update_comm other] at unlocked
  -- the producer does not wait
  have signalled := reach_signal (pop_run unlocked) rfl fun j => by
    by_cases its : j = some w
    · rw [its, Function.update_self]
      simp [waitsFor]
    · rw [Function.update_of_ne its]
      cases j with
      | none => simp [waitsFor]
      | some j =>
        obtain ⟨sum, taken, here⟩ := consumers j
        rw [Function.update_of_ne (Option.some_ne_none j), here]
        simp [waitsFor]
  refine ⟨_, wait_run value signalled, ⟨rfl, rfl, rfl, fun j => ?_⟩, ?_⟩
  · by_cases its : some j = some w
    · simp only [its, Function.update_self]
      exact ⟨_, _, rfl⟩
    · simp only [Function.update_of_ne its, Function.update_of_ne (Option.some_ne_none j)]
      exact consumers j
  · simp only [Function.update_of_ne other.symm, Function.update_self]

/-- The producer comes to every value. -/
theorem reach_value [Nonempty ι] {i : ℕ} (inside : i < n) (int : i < INT_MAX) :
    ∃ s : Demo ι, Reachable (step n) start s ∧ Idle s ∧ s.pc none = .loop (.value (i + 1)) := by
  induction i with
  | zero => exact reach_idle
  | succ i ih =>
    obtain ⟨s, reached, idle, producer⟩ := ih (by omega) (by omega)
    obtain ⟨t, onward, rests, next⟩ := reach_next (n := n) idle producer (by omega)
    have counted := reach_own (reach_at (reached.trans onward) next) rfl (by rw [own, Loop.next, if_pos (by omega)]; rfl)
    refine ⟨_, counted, ⟨rests.free, rests.empty, rests.level, fun j => ?_⟩, ?_⟩
    · simpa only [Function.update_of_ne (Option.some_ne_none j)] using rests.consumers j
    · simp only [Function.update_self]

/-- With `INT_MAX` values the producer comes to an `++i` that has no value, while every consumer waits. -/
theorem reach_stuck [Nonempty ι] : ∃ s : Demo ι, Reachable (step INT_MAX) start s ∧ ¬ GoesOn INT_MAX s := by
  obtain ⟨s, reached, idle, producer⟩ :=
    reach_value (ι := ι) (n := INT_MAX) (i := INT_MAX - 1) (by decide) (by decide)
  obtain ⟨t, onward, rests, next⟩ := reach_next (n := INT_MAX) idle producer (by decide)
  refine ⟨t, reached.trans onward, fun goesOn => ?_⟩
  obtain ⟨move, real, enabled⟩ := goesOn ⟨none, by rw [next]; exact id⟩
  cases move with
  | run i =>
    cases i with
    | none => simp [step, Conditions.step, threads, next, signals, own, Loop.next, INT_MAX] at enabled
    | some i =>
      obtain ⟨sum, taken, waits⟩ := rests.consumers i
      simp [step, Conditions.step, threads, waits, signals, own] at enabled
  | wake i w =>
    have plain : signals (t.pc i) = none := by
      cases i with
      | none => rw [next]; rfl
      | some i =>
        obtain ⟨sum, taken, waits⟩ := rests.consumers i
        rw [waits]
        rfl
    simp [step, Conditions.step, threads, plain] at enabled
  | spurious w => exact real trivial

/-- For numbers that an `int` holds: in every state that the threads reach, the demo goes on until all threads have
    returned, and then every value was popped, exactly when `produce_n` is not `INT_MAX`. -/
theorem producer_consumer [Nonempty ι] (int : n ≤ INT_MAX) (few : Fintype.card ι ≤ INT_MAX) :
    (∀ s : Demo ι, Reachable (step n) start s → GoesOn n s ∧ AllPopped n s) ↔ n ≠ INT_MAX := by
  constructor
  · rintro all rfl
    obtain ⟨s, reached, stuck⟩ := reach_stuck (ι := ι)
    exact stuck (all s reached).1
  · exact fun other s reached => demo_ends (lt_of_le_of_ne int other) few reached

theorem producer_consumer_sample :
    (∀ s : Demo (Fin 4), Reachable (step 100000) start s → GoesOn 100000 s ∧ AllPopped 100000 s) ↔ 100000 ≠ INT_MAX :=
  producer_consumer (by decide) (by decide)

/-- With one consumer and `produce_n` of `INT_MAX`. -/
theorem last_int_stuck : ¬ ∀ s : Demo (Fin 1), Reachable (step INT_MAX) start s → GoesOn INT_MAX s ∧ AllPopped INT_MAX s := by
  intro all
  obtain ⟨s, reached, stuck⟩ := reach_stuck (ι := Fin 1)
  exact stuck (all s reached).1

end

end OsyProg.CondQueue
