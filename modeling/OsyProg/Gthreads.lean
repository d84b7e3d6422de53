import OsyProg.Bytes
import OsyProg.Cyclic
import Mathlib.Algebra.GroupWithZero.Nat
import Mathlib.Logic.Function.Basic
import Mathlib.Data.Fintype.Basic

/-!
The thread table of `osy-gthreads-main/gthr.c` and the functions that change it,
each as one step. The size of the table is a parameter `n` for `MaxGThreads`; the
saved registers are in `OsyProg.ContextSwitch`. The scan of `gt_yield` always ends
and finds the first ready slot in cyclic order, or counts the blocked and
suspended ones (`scan_spec`); all that a yield does to the table is
`gtYield_cases`.
-/
namespace OsyProg.Gthreads
open OsyProg.Bytes OsyProg.Cyclic

/-- `gt_thread_state_t` -/
inductive ThreadState
  | Unused | Running | Ready | Blocked | Suspended
  deriving DecidableEq, Repr

/-- `struct gt_context_t` without the saved registers. -/
structure Context where
  threadState : ThreadState
  id : ℤ
  delayTicks : ℤ
  name : Bytes
  deriving DecidableEq

/-- `g_gttbl` and `g_gtcur` -/
structure Table (n : ℕ) where
  gttbl : Fin n → Context
  gtcur : Fin n

/-- The two builds: `GT_PREEMPTIVE` is 0, or not. -/
inductive Build
  | cooperative | preemptive
  deriving DecidableEq, Repr

def TimePeriod : ℤ := 10
/-- `sizeof( p->name )` -/
def nameSize : ℕ := 32

namespace Table
variable {n : ℕ}

/-- The table with the context of one slot replaced. -/
def set (s : Table n) (p : Fin n) (context : Context) : Table n :=
  { s with gttbl := Function.update s.gttbl p context }

/-- `p->thread_state = state` -/
def setState (s : Table n) (p : Fin n) (state : ThreadState) : Table n :=
  s.set p { s.gttbl p with threadState := state }

/-- The state of a slot. -/
def stateOf (s : Table n) (p : Fin n) : ThreadState := (s.gttbl p).threadState

@[simp] theorem set_gtcur (s : Table n) (p : Fin n) (context : Context) : (s.set p context).gtcur = s.gtcur := rfl

theorem set_gttbl (s : Table n) (p i : Fin n) (context : Context) :
    (s.set p context).gttbl i = if i = p then context else s.gttbl i :=
  Function.update_apply ..

@[simp] theorem setState_gtcur (s : Table n) (p : Fin n) (state : ThreadState) :
    (s.setState p state).gtcur = s.gtcur := rfl

theorem setState_stateOf (s : Table n) (p i : Fin n) (state : ThreadState) :
    (s.setState p state).stateOf i = if i = p then state else s.stateOf i := by
  rw [stateOf, setState, set_gttbl]
  split <;> rfl

@[simp] theorem setState_delayTicks (s : Table n) (p i : Fin n) (state : ThreadState) :
    ((s.setState p state).gttbl i).delayTicks = (s.gttbl i).delayTicks := by
  rw [setState, set_gttbl]
  split
  next same => rw [same]
  next => rfl

@[simp] theorem setState_id (s : Table n) (p i : Fin n) (state : ThreadState) :
    ((s.setState p state).gttbl i).id = (s.gttbl i).id := by
  rw [setState, set_gttbl]
  split
  next same => rw [same]
  next => rfl

end Table

/-! ### The functions of gthr.c -/

section
variable {n : ℕ}

/-- `gt_init` -/
def gtInit (n : ℕ) [NeZero n] : Table n :=
  let cleared : Table n := { gttbl := fun i => ⟨.Unused, i.val, 0, []⟩, gtcur := 0 }
  cleared.set 0 ⟨.Running, 0, 0, ascii ['M', 'a', 'i', 'n']⟩

/-- How the scan of `gt_yield` ends: at a ready slot, or back at the current one
    with the number of blocked and suspended slots. -/
inductive Scan (n : ℕ)
  | found (p : Fin n)
  | noReady (count : ℕ)
  deriving DecidableEq

/-- A blocked or suspended slot. -/
def Waiting (s : Table n) (p : Fin n) : Prop := s.stateOf p = .Blocked ∨ s.stateOf p = .Suspended

instance (s : Table n) : DecidablePred (Waiting s) := fun _ => inferInstanceAs (Decidable (_ ∨ _))

/-- The `while` loop of `gt_yield`, with at most the given number of rounds. -/
def scan (s : Table n) : ℕ → Fin n → ℕ → Option (Scan n)
  | 0, _, _ => none
  | rounds + 1, p, noReady =>
    if s.stateOf p = .Ready then some (.found p)
    else
      let noReady := if Waiting s p then noReady + 1 else noReady
      let p := next p
      if p = s.gtcur then some (.noReady noReady) else scan s rounds p noReady

/-- The rest of `gt_yield` once the scan has found a ready slot. -/
def switchTo (s : Table n) (p : Fin n) : Table n :=
  let s := if s.stateOf s.gtcur = .Running then s.setState s.gtcur .Ready else s
  let s := s.setState p .Running
  { s with gtcur := p }

/-- `gt_yield`: the table when it returns, or when another thread goes on, and
    the result. The scan never runs out of rounds (`scan_spec`). -/
def gtYield (s : Table n) : Table n × ℤ :=
  match scan s n s.gtcur 0 with
  | some (.found p) => (switchTo s p, 1)
  | some (.noReady count) => (s, -count)
  | none => (s, 0)

/-- The first `for` loop of `gt_go`: the first unused slot. -/
def findUnused (s : Table n) : Option (Fin n) :=
  (List.finRange n).find? fun p => s.stateOf p = .Unused

/-- The name `gt_go` gives to the thread in slot `idx`. -/
def threadName (tName : Option Bytes) (idx : ℕ) : Bytes :=
  match tName with
  | some name => strncpy name (nameSize - 1)
  | none => (ascii ['T'] ++ decimal idx).take (nameSize - 1)

/-- `gt_go`; `stack` tells whether `malloc` gives the stack. -/
def gtGo (s : Table n) (tName : Option Bytes) (stack : Bool) : Table n × ℤ :=
  match findUnused s with
  | none => (s, -1)
  | some p =>
    if stack then
      (s.set p { threadState := .Ready, delayTicks := 0, id := p.val, name := threadName tName p.val }, p.val)
    else (s, -1)

/-- `gt_stop`, up to the assertion after its `gt_yield`, and the result of that. -/
def gtStop [NeZero n] (s : Table n) : Table n × Option ℤ :=
  if s.gtcur ≠ 0 then
    let (s, result) := gtYield (s.setState s.gtcur .Unused)
    (s, some result)
  else (s, none)

/-- `gt_suspend`, and the result of its `gt_yield`, which it ignores. -/
def gtSuspend (s : Table n) : Table n × Option ℤ :=
  let (s, result) := gtYield (s.setState s.gtcur .Suspended)
  (s, some result)

/-- The ticks `gt_delay` waits. -/
def delayOf (tMs : ℤ) : ℤ :=
  let ticks := tMs.tdiv TimePeriod
  if ticks ≤ 0 then 1 else ticks

/-- `gt_delay` before it yields. -/
def block (s : Table n) (ticks : ℤ) : Table n :=
  s.set s.gtcur { s.gttbl s.gtcur with delayTicks := ticks, threadState := .Blocked }

/-- `gt_delay`, and the result of its `gt_yield`, which it ignores. -/
def gtDelay (s : Table n) (tMs : ℤ) : Table n × Option ℤ :=
  if tMs ≤ 0 then (s, none)
  else
    let (s, result) := gtYield (block s (delayOf tMs))
    (s, some result)

/-- `gt_resume` for an id inside the table. -/
def gtResume (s : Table n) (tId : Fin n) : Table n :=
  if s.stateOf tId = .Suspended then s.setState tId .Ready else s

/-- What `gt_manage_timers` does to one context. -/
def tick (context : Context) : Context :=
  if context.threadState = .Blocked ∧ context.delayTicks > 0 then
    let context := { context with delayTicks := context.delayTicks - 1 }
    if context.delayTicks ≤ 0 then { context with delayTicks := 0, threadState := .Ready } else context
  else context

/-- `gt_manage_timers` -/
def gtManageTimers (s : Table n) : Table n :=
  (List.finRange n).foldl (fun s i => s.set i (tick (s.gttbl i))) s

/-- `gt_sig_handle`, and the value it gives to `g_gt_yield_status`. -/
def gtSigHandle (s : Table n) : Table n × ℤ := gtYield (gtManageTimers s)

theorem gtInit_gttbl [NeZero n] (i : Fin n) :
    (gtInit n).gttbl i = if i = 0 then ⟨.Running, 0, 0, ascii ['M', 'a', 'i', 'n']⟩ else ⟨.Unused, i.val, 0, []⟩ :=
  Table.set_gttbl ..

theorem gtInit_stateOf [NeZero n] (i : Fin n) : (gtInit n).stateOf i = if i = 0 then .Running else .Unused := by
  rw [Table.stateOf, gtInit_gttbl]
  split <;> rfl

/-! ### The scan of gt_yield -/

/-- The number of blocked and suspended slots from the given gap on. -/
def waitingFrom (s : Table n) (k : ℕ) : ℕ :=
  (Finset.univ.filter fun r => Waiting s r ∧ k ≤ gap s.gtcur r).card

theorem waitingFrom_eq (s : Table n) (p : Fin n) :
    waitingFrom s (gap s.gtcur p) =
      (if Waiting s p then 1 else 0) + waitingFrom s (gap s.gtcur p + 1) := by
  have split : (Finset.univ.filter fun r => Waiting s r ∧ gap s.gtcur p ≤ gap s.gtcur r) =
      (Finset.univ.filter fun r => Waiting s r ∧ r = p) ∪
        (Finset.univ.filter fun r => Waiting s r ∧ gap s.gtcur p + 1 ≤ gap s.gtcur r) := by
    ext r
    have : gap s.gtcur p = gap s.gtcur r ↔ r = p := ⟨fun same => (gap_inj same).symm, fun same => by rw [same]⟩
    simp only [Finset.mem_filter, Finset.mem_univ, true_and, Finset.mem_union, ← and_or_left, ← this]
    exact and_congr_right fun _ => by omega
  have apart : Disjoint (Finset.univ.filter fun r => Waiting s r ∧ r = p)
      (Finset.univ.filter fun r => Waiting s r ∧ gap s.gtcur p + 1 ≤ gap s.gtcur r) := by
    rw [Finset.disjoint_filter]
    rintro r - ⟨-, rfl⟩ ⟨-, later⟩
    omega
  have single : (Finset.univ.filter fun r => Waiting s r ∧ r = p).card = if Waiting s p then 1 else 0 := by
    by_cases waits : Waiting s p
    · rw [if_pos waits, Finset.card_eq_one]
      refine ⟨p, ?_⟩
      ext r
      simp only [Finset.mem_filter, Finset.mem_univ, true_and, Finset.mem_singleton]
      exact ⟨fun h => h.2, fun same => ⟨same ▸ waits, same⟩⟩
    · rw [if_neg waits, Finset.card_eq_zero, Finset.filter_eq_empty_iff]
      rintro r - ⟨other, rfl⟩
      exact waits other
  rw [waitingFrom, split, Finset.card_union_of_disjoint apart, single, waitingFrom]

theorem waitingFrom_end (s : Table n) {k : ℕ} (past : n ≤ k) : waitingFrom s k = 0 := by
  rw [waitingFrom, Finset.card_eq_zero, Finset.filter_eq_empty_iff]
  rintro r - ⟨-, later⟩
  have := gap_lt s.gtcur r
  omega

/-- What the scan gives from a slot on, with a round left for each slot up to
    the current one. -/
def ScanSpec (s : Table n) (k count : ℕ) : Option (Scan n) → Prop
  | some (.found q) => s.stateOf q = .Ready ∧ k ≤ gap s.gtcur q ∧
      ∀ r, s.stateOf r = .Ready → k ≤ gap s.gtcur r → gap s.gtcur q ≤ gap s.gtcur r
  | some (.noReady total) => (∀ r, s.stateOf r = .Ready → gap s.gtcur r < k) ∧ total = count + waitingFrom s k
  | none => False

theorem scan_from (s : Table n) (rounds : ℕ) (p : Fin n) (count : ℕ) (enough : rounds + gap s.gtcur p = n) :
    ScanSpec s (gap s.gtcur p) count (scan s rounds p count) := by
  induction rounds generalizing p count with
  | zero => have := gap_lt s.gtcur p; omega
  | succ rounds ih =>
    rw [scan]
    by_cases ready : s.stateOf p = .Ready
    · rw [if_pos ready]
      exact ⟨ready, le_rfl, fun r _ later => later⟩
    · simp only [ready, if_false]
      have counted : (if Waiting s p then count + 1 else count) + waitingFrom s (gap s.gtcur p + 1) =
          count + waitingFrom s (gap s.gtcur p) := by
        rw [waitingFrom_eq s p]
        split <;> omega
      -- A ready slot from `p` on is one after `p`.
      have after : ∀ r, s.stateOf r = .Ready → gap s.gtcur p ≤ gap s.gtcur r → gap s.gtcur p + 1 ≤ gap s.gtcur r := by
        intro r readyR later
        have : gap s.gtcur p ≠ gap s.gtcur r := fun same => ready (gap_inj same ▸ readyR)
        omega
      by_cases back : next p = s.gtcur
      · rw [if_pos back]
        have last := next_eq_iff.mp back
        constructor
        · intro r readyR
          have := gap_lt s.gtcur r
          by_contra later
          have := after r readyR (by omega)
          omega
        · rw [← counted, waitingFrom_end s (by omega)]
          rfl
      · rw [if_neg back]
        have step := gap_next back
        have spec := ih (next p) (if Waiting s p then count + 1 else count) (by omega)
        rw [step] at spec
        cases outcome : scan s rounds (next p) (if Waiting s p then count + 1 else count) with
        | none => rw [outcome] at spec; exact spec.elim
        | some result =>
          rw [outcome] at spec
          cases result with
          | found q =>
            obtain ⟨readyQ, afterQ, least⟩ := spec
            exact ⟨readyQ, by omega, fun r readyR later => least r readyR (after r readyR later)⟩
          | noReady total =>
            obtain ⟨none, sum⟩ := spec
            refine ⟨?_, by rw [sum, counted]⟩
            intro r readyR
            by_contra later
            have := after r readyR (by omega)
            have := none r readyR
            omega

/-- The scan ends within `n` rounds: at the first ready slot in cyclic order from
    the current one, or, when no slot is ready, with the number of blocked and
    suspended slots. -/
theorem scan_spec (s : Table n) :
    (∃ q, scan s n s.gtcur 0 = some (.found q) ∧ First (fun r => s.stateOf r = .Ready) s.gtcur q) ∨
      (scan s n s.gtcur 0 = some (.noReady (Finset.univ.filter (Waiting s)).card) ∧
        ∀ r, s.stateOf r ≠ .Ready) := by
  have spec := scan_from s n s.gtcur 0 (by simp)
  rw [gap_self] at spec
  cases outcome : scan s n s.gtcur 0 with
  | none => rw [outcome] at spec; exact spec.elim
  | some result =>
    rw [outcome] at spec
    cases result with
    | found q => exact .inl ⟨q, rfl, spec.1, fun r ready => spec.2.2 r ready (Nat.zero_le _)⟩
    | noReady total =>
      refine .inr ⟨?_, fun r ready => absurd (spec.1 r ready) (Nat.not_lt_zero _)⟩
      have total0 : total = (Finset.univ.filter (Waiting s)).card := by
        rw [spec.2, Nat.zero_add, waitingFrom]
        simp
      rw [total0]

/-- All that `gt_yield` does: it switches to the first ready slot in cyclic
    order, or finds none and changes nothing. -/
theorem gtYield_cases (s : Table n) :
    (∃ p, First (fun r => s.stateOf r = .Ready) s.gtcur p ∧ gtYield s = (switchTo s p, 1)) ∨
      ((∀ r, s.stateOf r ≠ .Ready) ∧ gtYield s = (s, -((Finset.univ.filter (Waiting s)).card : ℤ))) := by
  rcases scan_spec s with ⟨q, found, first⟩ | ⟨counted, none⟩
  · exact .inl ⟨q, first, by rw [gtYield, found]⟩
  · exact .inr ⟨none, by rw [gtYield, counted]⟩

/-! ### What a switch does to each slot -/

@[simp] theorem switchTo_gtcur (s : Table n) (p : Fin n) : (switchTo s p).gtcur = p := rfl

theorem switchTo_stateOf (s : Table n) (p i : Fin n) :
    (switchTo s p).stateOf i =
      if i = p then .Running
      else if i = s.gtcur ∧ s.stateOf i = .Running then .Ready else s.stateOf i := by
  show ((if s.stateOf s.gtcur = .Running then s.setState s.gtcur .Ready else s).setState p .Running).stateOf i = _
  rw [Table.setState_stateOf]
  by_cases new : i = p
  · simp [new]
  · rw [if_neg new, if_neg new]
    by_cases runs : s.stateOf s.gtcur = .Running
    · rw [if_pos runs, Table.setState_stateOf]
      by_cases old : i = s.gtcur
      · simp [old, runs]
      · simp [old]
    · rw [if_neg runs]
      by_cases old : i = s.gtcur
      · simp [old, runs]
      · simp [old]

@[simp] theorem switchTo_delayTicks (s : Table n) (p i : Fin n) :
    ((switchTo s p).gttbl i).delayTicks = (s.gttbl i).delayTicks := by
  show (((if s.stateOf s.gtcur = .Running then s.setState s.gtcur .Ready else s).setState p .Running).gttbl
    i).delayTicks = _
  rw [Table.setState_delayTicks]
  split <;> simp

@[simp] theorem switchTo_id (s : Table n) (p i : Fin n) : ((switchTo s p).gttbl i).id = (s.gttbl i).id := by
  show (((if s.stateOf s.gtcur = .Running then s.setState s.gtcur .Ready else s).setState p .Running).gttbl i).id = _
  rw [Table.setState_id]
  split <;> simp

/-! ### Timers, creation and waking -/

/-- The loop of `gt_manage_timers` treats each slot on its own. -/
theorem gtManageTimers_gttbl (s : Table n) (i : Fin n) : (gtManageTimers s).gttbl i = tick (s.gttbl i) := by
  have loop : ∀ (slots : List (Fin n)) (t : Table n), slots.Nodup →
      (slots.foldl (fun s i => s.set i (tick (s.gttbl i))) t).gttbl i =
        if i ∈ slots then tick (t.gttbl i) else t.gttbl i := by
    intro slots
    induction slots with
    | nil => intro t _; rfl
    | cons j rest ih =>
      intro t distinct
      rw [List.nodup_cons] at distinct
      rw [List.foldl_cons, ih _ distinct.2, Table.set_gttbl]
      by_cases here : i = j
      · subst here; simp [distinct.1]
      · simp [here]
  rw [gtManageTimers, loop _ s (List.nodup_finRange n), if_pos (List.mem_finRange i)]

@[simp] theorem gtManageTimers_gtcur (s : Table n) : (gtManageTimers s).gtcur = s.gtcur := by
  have loop : ∀ (slots : List (Fin n)) (t : Table n),
      (slots.foldl (fun s i => s.set i (tick (s.gttbl i))) t).gtcur = t.gtcur := by
    intro slots
    induction slots with
    | nil => intro t; rfl
    | cons j rest ih => intro t; rw [List.foldl_cons, ih, Table.set_gtcur]
  exact loop _ s

/-- The timers change the state of blocked slots only, and only to ready, when
    the last tick of the delay has passed. -/
theorem tick_cases (c : Context) :
    tick c = c ∨
      (c.threadState = .Blocked ∧ 1 < c.delayTicks ∧ tick c = { c with delayTicks := c.delayTicks - 1 }) ∨
      (c.threadState = .Blocked ∧ c.delayTicks = 1 ∧ tick c = { c with delayTicks := 0, threadState := .Ready }) := by
  unfold tick
  by_cases counts : c.threadState = .Blocked ∧ c.delayTicks > 0
  · obtain ⟨blocked, positive⟩ := counts
    by_cases last : c.delayTicks = 1
    · exact .inr (.inr ⟨blocked, last, by simp [blocked, last]⟩)
    · refine .inr (.inl ⟨blocked, by omega, ?_⟩)
      have more : ¬ c.delayTicks - 1 ≤ 0 := by omega
      simp [blocked, positive, more]
  · exact .inl (if_neg counts)

/-- A blocked slot with ticks left loses one, and is ready after the last. -/
theorem tick_counts {c : Context} (blocked : c.threadState = .Blocked) (positive : 0 < c.delayTicks) :
    tick c = if c.delayTicks = 1 then { c with delayTicks := 0, threadState := .Ready }
      else { c with delayTicks := c.delayTicks - 1 } := by
  unfold tick
  by_cases last : c.delayTicks = 1
  · simp [blocked, last]
  · have more : ¬ c.delayTicks - 1 ≤ 0 := by omega
    simp [blocked, positive, more, last]

@[simp] theorem tick_id (c : Context) : (tick c).id = c.id := by
  rcases tick_cases c with same | ⟨-, -, same⟩ | ⟨-, -, same⟩ <;> rw [same]

theorem gtManageTimers_stateOf_eq (s : Table n) (i : Fin n) (awake : s.stateOf i ≠ .Blocked) :
    (gtManageTimers s).stateOf i = s.stateOf i := by
  rw [Table.stateOf, gtManageTimers_gttbl]
  rcases tick_cases (s.gttbl i) with same | ⟨blocked, -⟩ | ⟨blocked, -⟩
  · rw [same]; rfl
  · exact absurd blocked awake
  · exact absurd blocked awake

/-- After the timers a slot is as before, or it was blocked for one more tick and
    has become ready. -/
theorem gtManageTimers_stateOf (s : Table n) (i : Fin n) :
    (gtManageTimers s).stateOf i = s.stateOf i ∨
      (s.stateOf i = .Blocked ∧ (s.gttbl i).delayTicks = 1 ∧ (gtManageTimers s).stateOf i = .Ready) := by
  rw [Table.stateOf, Table.stateOf, gtManageTimers_gttbl]
  rcases tick_cases (s.gttbl i) with same | ⟨-, -, same⟩ | ⟨blocked, last, same⟩
  · exact .inl (by rw [same])
  · exact .inl (by rw [same])
  · exact .inr ⟨blocked, last, by rw [same]⟩

/-- `gt_go` fails and changes nothing, or fills an unused slot. -/
theorem gtGo_cases (s : Table n) (tName : Option Bytes) (stack : Bool) :
    gtGo s tName stack = (s, -1) ∨
      ∃ p, s.stateOf p = .Unused ∧ gtGo s tName stack =
        (s.set p { threadState := .Ready, delayTicks := 0, id := p.val, name := threadName tName p.val },
          (p.val : ℤ)) := by
  unfold gtGo
  cases search : findUnused s with
  | none => exact .inl rfl
  | some p =>
    cases stack with
    | false => exact .inl rfl
    | true => exact .inr ⟨p, by simpa using List.find?_some search, rfl⟩

theorem gtResume_stateOf (s : Table n) (tId i : Fin n) :
    (gtResume s tId).stateOf i = if i = tId ∧ s.stateOf i = .Suspended then .Ready else s.stateOf i := by
  unfold gtResume
  by_cases suspended : s.stateOf tId = .Suspended
  · rw [if_pos suspended, Table.setState_stateOf]
    by_cases same : i = tId
    · simp [same, suspended]
    · simp [same]
  · rw [if_neg suspended, if_neg]
    rintro ⟨rfl, other⟩
    exact suspended other

@[simp] theorem gtResume_gtcur (s : Table n) (tId : Fin n) : (gtResume s tId).gtcur = s.gtcur := by
  unfold gtResume
  split <;> rfl

end

end OsyProg.Gthreads
