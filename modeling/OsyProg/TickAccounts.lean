import OsyProg.Runs
import OsyProg.YieldVariants
import Mathlib.Algebra.BigOperators.Fin

/-!
The tick counters of `osy-gthreads-main_test` over whole runs. While only the timer
handler yields, the ticks of the threads add up to the number of handler runs
(`perform_good`). `g_sys_ticks` is raised a second time by every yield that
switches, so it equals that number, and the times of `gt_task_list` are the time
elapsed, as long as no handler run finds a ready slot, and no longer
(`time_elapsed_iff`).
-/
namespace OsyProg.TickAccounts
open OsyProg.Bytes OsyProg.Cyclic OsyProg.Gthreads OsyProg.Runs OsyProg.YieldVariants

abbrev MaxGThreads : ℕ := 12
/-- `(uint64_t)TimePeriod` -/
def period : UInt64 := 10

/-- What the running thread may call, and the timer signal. -/
inductive Op
  | go (tName : Option Bytes) (stack : Bool)
  | yield
  | stop
  | suspend
  | delay (tMs : ℤ)
  | resume (tId : ℤ)
  | taskList
  | sigHandle
  deriving DecidableEq

/-- A line of `gt_task_list`: the mark of the current thread, the id, the state, the
    two numbers and the name. -/
structure TaskLine where
  mark : Bool
  id : ℤ
  state : ThreadState
  ticks : UInt64
  ms : UInt64
  name : Bytes

/-- What `gt_task_list` shows: the threads, and the numbers of the last line. -/
structure TaskList where
  threads : List TaskLine
  ticks : UInt64
  cpuTicks : UInt64
  time : UInt64

section
variable {n : ℕ} [NeZero n]

/-! ### The functions of osy-gthreads-main_test -/

/-- `gt_init` -/
def gtInit (n : ℕ) [NeZero n] : Ticked n :=
  { toTable := Gthreads.gtInit n, cpuTicks := fun _ => 0, sysTicks := 0 }

omit [NeZero n] in
/-- `gt_go`, which also clears the ticks of the slot. -/
def gtGo (s : Ticked n) (tName : Option Bytes) (stack : Bool) : Ticked n × ℤ :=
  let (t, idx) := Gthreads.gtGo s.toTable tName stack
  ({ s with toTable := t, cpuTicks := fun i => if (i.val : ℤ) = idx then 0 else s.cpuTicks i }, idx)

/-- `gt_stop` -/
def gtStop (s : Ticked n) : Ticked n :=
  if s.gtcur ≠ 0 then (gtYieldTicked { s with toTable := s.setState s.gtcur .Unused }).1 else s

/-- `gt_suspend` -/
def gtSuspend (s : Ticked n) : Ticked n := (gtYieldTicked { s with toTable := s.setState s.gtcur .Suspended }).1

/-- `gt_delay` -/
def gtDelay (s : Ticked n) (tMs : ℤ) : Ticked n :=
  if tMs ≤ 0 then s else (gtYieldTicked { s with toTable := block s.toTable (delayOf tMs) }).1

/-- `gt_resume` -/
def gtResume (s : Ticked n) (tId : ℤ) : Ticked n :=
  if inside : 0 ≤ tId ∧ tId < n then
    { s with toTable := Gthreads.gtResume s.toTable ⟨tId.toNat, by omega⟩ }
  else s

/-- `gt_manage_timers` -/
def gtManageTimers (s : Ticked n) : Ticked n := { s with toTable := Gthreads.gtManageTimers s.toTable }

/-- `gt_sig_handle`, without `g_gt_yield_status`. -/
def gtSigHandle (s : Ticked n) : Ticked n := (gtYieldTicked (gtManageTimers s)).1

/-- `gt_task_list` -/
def gtTaskList (s : Ticked n) : TaskList :=
  { threads := (List.finRange n).filterMap fun i =>
      if s.stateOf i ≠ .Unused then
        some { mark := i = s.gtcur, id := (s.gttbl i).id, state := s.stateOf i, ticks := s.sysTicks,
               ms := s.cpuTicks i * period, name := (s.gttbl i).name }
      else none
    ticks := s.sysTicks
    cpuTicks := s.cpuTicks s.gtcur
    time := s.sysTicks * period }

/-- One operation of the running thread, or the timer signal. -/
def perform (s : Ticked n) : Op → Ticked n
  | .go tName stack => (gtGo s tName stack).1
  | .yield => (gtYieldTicked s).1
  | .stop => gtStop s
  | .suspend => gtSuspend s
  | .delay tMs => gtDelay s tMs
  | .resume tId => gtResume s tId
  | .taskList => s
  | .sigHandle => gtSigHandle s

def step (s : Ticked n) (op : Op) : Option (Ticked n) := some (perform s op)

/-- The operation calls `gt_yield` outside of the timer handler. -/
def YieldsItself (s : Ticked n) : Op → Prop
  | .yield => True
  | .stop => s.gtcur ≠ 0
  | .suspend => True
  | .delay tMs => 0 < tMs
  | _ => False

instance (s : Ticked n) : ∀ op, Decidable (YieldsItself s op)
  | .yield => isTrue trivial
  | .stop => inferInstanceAs (Decidable (_ ≠ _))
  | .suspend => isTrue trivial
  | .delay _ => inferInstanceAs (Decidable (_ < _))
  | .go _ _ => isFalse id
  | .resume _ => isFalse id
  | .taskList => isFalse id
  | .sigHandle => isFalse id

/-- A run of the handler finds no slot that is ready. -/
def NothingReady (s : Ticked n) (op : Op) : Prop :=
  op = .sigHandle → ∀ r, (gtManageTimers s).stateOf r ≠ .Ready

instance (s : Ticked n) (op : Op) : Decidable (NothingReady s op) := inferInstanceAs (Decidable (_ → _))

/-- The number of handler runs among the operations. -/
def handlerRuns (ops : List Op) : ℕ := ops.count .sigHandle

/-- The accounts after `k` handler runs: `g_sys_ticks` is their number and the sum of
    the ticks of the threads, and what `gt_task_list` shows is the time elapsed, of
    the system and in the sum of the threads. -/
structure Accounts (s : Ticked n) (k : ℕ) : Prop where
  sys : s.sysTicks = UInt64.ofNat k
  cpu : ∑ i, s.cpuTicks i = s.sysTicks
  time : (gtTaskList s).time = UInt64.ofNat k * period
  times : ((gtTaskList s).threads.map TaskLine.ms).sum = (gtTaskList s).time

/-! ### What every run keeps -/

/-- The current thread is running, an unused slot has no ticks, and the ticks of all
    slots add up to the number of handler runs. -/
structure Good (s : Ticked n) (k : ℕ) : Prop where
  current : s.stateOf s.gtcur = .Running
  unused : ∀ i, s.stateOf i = .Unused → s.cpuTicks i = 0
  cpu : ∑ i, s.cpuTicks i = UInt64.ofNat k

omit [NeZero n] in
theorem sum_update_add_one (f : Fin n → UInt64) (c : Fin n) : ∑ i, Function.update f c (f c + 1) i = ∑ i, f i + 1 := by
  rw [Finset.sum_update_of_mem (Finset.mem_univ c), ← Finset.add_sum_erase _ f (Finset.mem_univ c),
    Finset.sdiff_singleton_eq_erase]
  exact add_right_comm _ _ _

omit [NeZero n] in
/-- The threads that are shown have all the ticks. -/
theorem shown_sum (s : Ticked n) (unused : ∀ i, s.stateOf i = .Unused → s.cpuTicks i = 0) :
    ((gtTaskList s).threads.map TaskLine.ms).sum = (∑ i, s.cpuTicks i) * period := by
  have shown : ∀ slots : List (Fin n), ((slots.filterMap fun i =>
      if s.stateOf i ≠ .Unused then
        some { mark := i = s.gtcur, id := (s.gttbl i).id, state := s.stateOf i, ticks := s.sysTicks,
               ms := s.cpuTicks i * period, name := (s.gttbl i).name : TaskLine }
      else none).map TaskLine.ms).sum = (slots.map fun i => s.cpuTicks i * period).sum := by
    intro slots
    induction slots with
    | nil => rfl
    | cons i rest ih =>
      by_cases free : s.stateOf i = .Unused
      · rw [List.filterMap_cons_none (by simp [free]), ih, List.map_cons, List.sum_cons, unused i free, zero_mul, zero_add]
      · rw [List.filterMap_cons_some (by simp only [ne_eq, free, not_false_eq_true, if_true]; rfl), List.map_cons,
          List.sum_cons, ih, List.map_cons, List.sum_cons]
  rw [Finset.sum_mul, Fin.sum_univ_def]
  exact shown (List.finRange n)

omit [NeZero n] in
/-- With the ticks of the threads in order, the accounts depend on `g_sys_ticks` alone. -/
theorem accounts_iff {s : Ticked n} {k : ℕ} (good : Good s k) : Accounts s k ↔ s.sysTicks = UInt64.ofNat k := by
  constructor
  · exact Accounts.sys
  · intro same
    have total : ∑ i, s.cpuTicks i = s.sysTicks := good.cpu.trans same.symm
    refine ⟨same, total, ?_, ?_⟩
    · rw [← same]
      rfl
    · rw [shown_sum s good.unused, total]
      rfl

theorem gtInit_good : Good (gtInit n) 0 := by
  refine ⟨?_, fun _ _ => rfl, Finset.sum_const_zero⟩
  show (Gthreads.gtInit n).stateOf 0 = .Running
  simp [gtInit_stateOf]

omit [NeZero n] in
/-- The tick at the start of `gt_yield` goes to the running thread and to the system. -/
theorem countTick_good {s : Ticked n} {k : ℕ} (good : Good s k) :
    Good (countTick s) (k + 1) ∧ (countTick s).sysTicks = s.sysTicks + 1 := by
  obtain ⟨current, unused, cpu⟩ := good
  have ticks : (countTick s).cpuTicks = Function.update s.cpuTicks s.gtcur (s.cpuTicks s.gtcur + 1) := by
    simp only [countTick, current, if_true]
  refine ⟨⟨?_, ?_, ?_⟩, ?_⟩
  · rw [countTick_toTable]
    exact current
  · intro i free
    rw [countTick_toTable] at free
    have other : i ≠ s.gtcur := by
      rintro rfl
      rw [current] at free
      cases free
    rw [ticks, Function.update_of_ne other]
    exact unused i free
  · rw [ticks, sum_update_add_one, cpu, UInt64.ofNat_add]
    rfl
  · unfold countTick
    split <;> rfl

omit [NeZero n] in
/-- A run of the handler counts one tick of a thread, and one of the system or, when
    it switches, two. -/
theorem sigHandle_good {s : Ticked n} {k : ℕ} (good : Good s k) :
    Good (gtSigHandle s) (k + 1) ∧
      ((∀ r, (gtManageTimers s).stateOf r ≠ .Ready) ∧ (gtSigHandle s).sysTicks = s.sysTicks + 1 ∨
        (∃ r, (gtManageTimers s).stateOf r = .Ready) ∧ (gtSigHandle s).sysTicks = s.sysTicks + 1 + 1) := by
  have timers : Good (gtManageTimers s) k := by
    refine ⟨?_, ?_, good.cpu⟩
    · show (Gthreads.gtManageTimers s.toTable).stateOf (Gthreads.gtManageTimers s.toTable).gtcur = .Running
      rw [gtManageTimers_gtcur, gtManageTimers_stateOf_eq s.toTable _ (by simp [good.current])]
      exact good.current
    · intro i free
      apply good.unused
      rcases gtManageTimers_stateOf s.toTable i with same | ⟨-, -, ready⟩
      · exact same.symm.trans free
      · exact absurd (ready.symm.trans free) (by simp)
  obtain ⟨⟨current, unused, cpu⟩, sys⟩ := countTick_good timers
  rw [countTick_toTable] at current unused
  -- A switch leaves its slot running, and unused slots as they were.
  have switched : ∀ (p : Fin n) (sysTicks : UInt64), (gtManageTimers s).stateOf p = .Ready →
      Good { countTick (gtManageTimers s) with toTable := switchTo (gtManageTimers s).toTable p, sysTicks := sysTicks }
        (k + 1) := by
    intro p sysTicks ready
    refine ⟨?_, ?_, cpu⟩
    · show (switchTo _ p).stateOf (switchTo _ p).gtcur = .Running
      rw [switchTo_gtcur, switchTo_stateOf, if_pos rfl]
    · intro i free
      apply unused
      have free : (switchTo (gtManageTimers s).toTable p).stateOf i = .Unused := free
      rw [switchTo_stateOf] at free
      split at free
      next => cases free
      next =>
        split at free
        next => cases free
        next => exact free
  unfold gtSigHandle
  rcases gtYieldTicked_cases (gtManageTimers s) with ⟨p, first, yields⟩ | ⟨p, -, ready, -, yields⟩ | ⟨none, yields⟩
  · rw [yields]
    refine ⟨switched p _ first.1.2, .inr ⟨⟨p, first.1.2⟩, ?_⟩⟩
    simp only [sys]
    rfl
  · rw [yields]
    refine ⟨switched p _ ready, .inr ⟨⟨p, ready⟩, ?_⟩⟩
    simp only [sys]
    rfl
  · rw [yields]
    refine ⟨⟨by rw [countTick_toTable]; exact current, by rw [countTick_toTable]; exact unused, cpu⟩,
      .inl ⟨none, sys⟩⟩

/-- An operation that does not yield leaves the ticks as they are. -/
theorem quiet_good {s : Ticked n} {op : Op} {k : ℕ} (good : Good s k) (quiet : ¬ YieldsItself s op)
    (other : op ≠ .sigHandle) : Good (perform s op) k ∧ (perform s op).sysTicks = s.sysTicks := by
  cases op with
  | yield | suspend => exact absurd trivial quiet
  | sigHandle => exact absurd rfl other
  | taskList => exact ⟨good, rfl⟩
  | stop =>
    have main : ¬ s.gtcur ≠ 0 := quiet
    have same : perform s .stop = s := if_neg main
    rw [same]
    exact ⟨good, rfl⟩
  | delay tMs =>
    have short : tMs ≤ 0 := not_lt.mp quiet
    have same : perform s (.delay tMs) = s := if_pos short
    rw [same]
    exact ⟨good, rfl⟩
  | resume tId =>
    rw [perform, gtResume]
    split
    next inside =>
      refine ⟨⟨?_, ?_, good.cpu⟩, rfl⟩
      · show (Gthreads.gtResume s.toTable _).stateOf (Gthreads.gtResume s.toTable _).gtcur = .Running
        rw [gtResume_gtcur, gtResume_stateOf, if_neg fun both => by simp [good.current] at both]
        exact good.current
      · intro i free
        apply good.unused
        have free : (Gthreads.gtResume s.toTable _).stateOf i = .Unused := free
        rw [gtResume_stateOf] at free
        split at free
        next => cases free
        next => exact free
    next => exact ⟨good, rfl⟩
  | go tName stack =>
    rw [perform, gtGo]
    rcases gtGo_cases s.toTable tName stack with fails | ⟨p, unused, fills⟩
    · have noSlot : ∀ i : Fin n, ¬ (i.val : ℤ) = -1 := fun i => by omega
      simp only [fails, noSlot, if_false, and_true]
      exact good
    · -- The slot was unused, so its ticks were zero before.
      have ticks : (fun i : Fin n => if (i.val : ℤ) = (p.val : ℤ) then 0 else s.cpuTicks i) = s.cpuTicks := by
        funext i
        split
        next same => rw [good.unused i (by rw [Fin.ext (Int.natCast_inj.mp same)]; exact unused)]
        next => rfl
      simp only [fills, ticks, and_true]
      refine ⟨?_, ?_, good.cpu⟩
      · have elsewhere : s.gtcur ≠ p := by
          intro here
          rw [← here, good.current] at unused
          cases unused
        show (Table.set _ p _).stateOf _ = .Running
        rw [Table.stateOf, Table.set_gttbl, Table.set_gtcur, if_neg elsewhere]
        exact good.current
      · intro i free
        apply good.unused
        have free : (Table.set _ p _).stateOf i = .Unused := free
        rw [Table.stateOf, Table.set_gttbl] at free
        split at free
        next => cases free
        next => exact free

/-- What one operation does to the accounts. -/
theorem perform_good {s : Ticked n} {op : Op} {k : ℕ} (good : Good s k) (quiet : ¬ YieldsItself s op) :
    Good (perform s op) (k + handlerRuns [op]) ∧
      (Accounts s k → (Accounts (perform s op) (k + handlerRuns [op]) ↔ NothingReady s op)) := by
  by_cases handler : op = .sigHandle
  · subst handler
    have one : handlerRuns [.sigHandle] = 1 := rfl
    obtain ⟨after, sys⟩ := sigHandle_good good
    rw [one]
    refine ⟨after, ?_⟩
    intro accounts
    rw [accounts_iff (s := perform s .sigHandle) after, UInt64.ofNat_add, ← accounts.sys]
    rcases sys with ⟨none, once⟩ | ⟨⟨r, ready⟩, twice⟩
    · exact ⟨fun _ _ => none, fun _ => once⟩
    · constructor
      · intro same
        have same := twice.symm.trans same
        rw [show UInt64.ofNat 1 = 1 from rfl, add_eq_left] at same
        exact absurd same (by decide)
      · intro none
        exact absurd ready (none rfl r)
  · have zero : handlerRuns [op] = 0 := by simp [handlerRuns, List.count_eq_zero, Ne.symm handler]
    obtain ⟨after, sys⟩ := quiet_good good quiet handler
    rw [zero, Nat.add_zero]
    refine ⟨after, ?_⟩
    intro accounts
    rw [accounts_iff after, sys]
    exact ⟨fun _ same => absurd same handler, fun _ => accounts.sys⟩

/-- The accounts are right after every prefix of a run. -/
def AccountsThroughout (s : Ticked n) (k : ℕ) (ops : List Op) : Prop :=
  ∀ before after t, ops = before ++ after → exec step s before = some t → Accounts t (k + handlerRuns before)

theorem accounts_run {ops : List Op} {s : Ticked n} {k : ℕ} (good : Good s k) (accounts : Accounts s k)
    (only : AllSteps step (fun s op => ¬ YieldsItself s op) s ops) :
    AccountsThroughout s k ops ↔ AllSteps step NothingReady s ops := by
  induction ops generalizing s k with
  | nil =>
    refine ⟨fun _ => trivial, ?_⟩
    intro _ before after t split run
    obtain ⟨rfl, rfl⟩ := List.append_eq_nil_iff.mp split.symm
    cases run
    exact accounts
  | cons op rest ih =>
    obtain ⟨after, here⟩ := perform_good good only.1
    have here := here accounts
    have onward := only.2 _ rfl
    have counts : ∀ before, handlerRuns (op :: before) = handlerRuns [op] + handlerRuns before :=
      fun before => by rw [← List.singleton_append, handlerRuns, List.count_append]; rfl
    constructor
    · intro all
      have next : Accounts (perform s op) (k + handlerRuns [op]) := all [op] rest _ rfl rfl
      refine ⟨here.mp next, ?_⟩
      intro t taken
      cases taken
      refine (ih after next onward).mp ?_
      intro before more t split run
      have whole := all (op :: before) more t (by rw [split]; rfl) run
      rwa [counts, ← Nat.add_assoc] at whole
    · rintro ⟨nothing, later⟩ before more t split run
      cases before with
      | nil =>
        cases run
        exact accounts
      | cons first before =>
        obtain ⟨rfl, rfl⟩ := List.cons.inj split
        rw [counts, ← Nat.add_assoc]
        exact (ih after (here.mpr nothing) onward).mpr (later _ rfl) before more t rfl run

/-- In a run from `gt_init` in which only the timer handler calls `gt_yield`:
    `g_sys_ticks` is at every point the number of handler runs and the sum of the
    ticks of all slots, and `gt_task_list` shows the time elapsed, if and only if no
    handler run finds a ready slot. -/
theorem time_elapsed_iff {ops : List Op} (only : AllSteps step (fun s op => ¬ YieldsItself s op) (gtInit n) ops) :
    AccountsThroughout (gtInit n) 0 ops ↔ AllSteps step NothingReady (gtInit n) ops := by
  have good := gtInit_good (n := n)
  exact accounts_run good ((accounts_iff good).mpr rfl) only

/-- One thread is created and never runs, since the handler does not. -/
theorem time_elapsed_iff_sample :
    AccountsThroughout (gtInit MaxGThreads) 0 [.sigHandle, .sigHandle, .taskList, .go none true] := by
  have only : AllSteps step (fun s op => ¬ YieldsItself s op) (gtInit MaxGThreads)
      [.sigHandle, .sigHandle, .taskList, .go none true] := by decide
  exact (time_elapsed_iff only).mpr (by decide)

/-- A thread is created and the handler runs once: it switches, and `g_sys_ticks` is 2. -/
theorem switch_counts_twice :
    AllSteps step (fun s op => ¬ YieldsItself s op) (gtInit MaxGThreads) [.go none true, .sigHandle] ∧
      ¬ AccountsThroughout (gtInit MaxGThreads) 0 [.go none true, .sigHandle] ∧
      (exec step (gtInit MaxGThreads) [.go none true, .sigHandle]).map (fun t => (t.sysTicks, t.cpuTicks 0)) =
        some (2, 1) := by
  have last : (exec step (gtInit MaxGThreads) [.go none true, .sigHandle]).map (fun t => (t.sysTicks, t.cpuTicks 0)) =
      some (2, 1) := by decide
  refine ⟨by decide, ?_, last⟩
  intro all
  obtain ⟨t, run, seen⟩ := Option.map_eq_some_iff.mp last
  have sys := (all _ [] t (List.append_nil _).symm run).sys
  rw [(Prod.mk.inj seen).1] at sys
  exact absurd sys (by decide)

end

end OsyProg.TickAccounts
