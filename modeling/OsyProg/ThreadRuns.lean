import OsyProg.Gthreads
import OsyProg.Runs

/-!
Runs of the thread library with every operation one atomic step of the current
thread. Beside the table, a state knows where each switched-out thread goes on
(`Frame`), so that a run shows which call returns when a thread is selected, and
whether the assertion in `gt_stop` is met. All that an operation can do is
`perform_cases`. As long as thread 0 does not block itself, `Invariant` holds in
every state (`step_invariant`).
-/
namespace OsyProg.ThreadRuns
open OsyProg.Bytes OsyProg.Cyclic OsyProg.Gthreads OsyProg.Runs

/-- Where a switched-out thread goes on: in its run function, or after the
    `gt_yield` that it called itself or through the function named. -/
inductive Frame
  | entry | yield | suspend | delay | stop | handler
  deriving DecidableEq, Repr

/-- The table, where each switched-out thread goes on, and whether the assertion
    after the `gt_yield` of `gt_stop` has been met. -/
structure Threads (n : ℕ) extends Table n where
  frame : Fin n → Frame
  aborted : Bool

/-- What the running thread may call, and the timer signal. -/
inductive Op (n : ℕ)
  | go (tName : Option Bytes) (stack : Bool)
  | yield
  | stop
  | suspend
  | delay (tMs : ℤ)
  | resume (tId : Fin n)
  | sigHandle

/-- The operations by which a thread blocks itself. -/
def Op.blocking {n : ℕ} : Op n → Bool
  | .suspend => true
  | .delay _ => true
  | _ => false

section
variable {n : ℕ}

/-- The state after a call of `gt_yield` in the given frame, from the table and
    the result it leaves, and the frame that goes on with the result it sees. The
    thread of the selected slot goes on after the `gt_yield` that switched it out. -/
def goOn (s : Threads n) (here : Frame) (t : Table n) : Option ℤ → Threads n × Option (Frame × ℤ)
  | none => ({ s with toTable := t }, none)
  | some result =>
    if result = 1 then
      let frame := Function.update s.frame s.gtcur here
      let back := frame t.gtcur
      ({ toTable := t, frame := frame, aborted := back = .stop }, some (back, result))
    else ({ s with toTable := t, aborted := here = .stop }, some (here, result))

theorem goOn_switched (s : Threads n) (here : Frame) (t : Table n) :
    goOn s here t (some 1) =
      ({ toTable := t, frame := Function.update s.frame s.gtcur here,
         aborted := Function.update s.frame s.gtcur here t.gtcur = .stop },
        some (Function.update s.frame s.gtcur here t.gtcur, 1)) := rfl

theorem goOn_stayed (s : Threads n) (here : Frame) (t : Table n) {result : ℤ} (none : result ≠ 1) :
    goOn s here t (some result) = ({ s with toTable := t, aborted := here = .stop }, some (here, result)) :=
  if_neg none

end

section
variable {n : ℕ} [NeZero n]

/-- One operation: the next state, and which call of `gt_yield` has returned at
    its end with which result. -/
def perform (s : Threads n) : Op n → Threads n × Option (Frame × ℤ)
  | .go tName stack =>
    let (t, idx) := gtGo s.toTable tName stack
    ({ s with toTable := t, frame := fun i => if (i.val : ℤ) = idx then .entry else s.frame i }, none)
  | .yield =>
    let (t, result) := gtYield s.toTable
    goOn s .yield t (some result)
  | .stop =>
    let (t, result) := gtStop s.toTable
    goOn s .stop t result
  | .suspend =>
    let (t, result) := gtSuspend s.toTable
    goOn s .suspend t result
  | .delay tMs =>
    let (t, result) := gtDelay s.toTable tMs
    goOn s .delay t result
  | .resume tId => ({ s with toTable := gtResume s.toTable tId }, none)
  | .sigHandle =>
    let (t, result) := gtSigHandle s.toTable
    goOn s .handler t (some result)

/-- The program goes on until the assertion ends it. -/
def step (s : Threads n) (op : Op n) : Option (Threads n) :=
  if s.aborted then none else some (perform s op).1

/-- The state `gt_init` leaves. -/
def start (n : ℕ) [NeZero n] : Threads n :=
  { toTable := gtInit n, frame := fun _ => .entry, aborted := false }

/-- The slot that the `gt_yield` of an operation switches to. -/
def switchedTo (s : Threads n) (op : Op n) : Option (Fin n) :=
  match (perform s op).2 with
  | some (_, result) => if result = 1 then some (perform s op).1.gtcur else none
  | none => none

/-- Only a program whose assertion has not failed goes on. -/
theorem step_cases {s t : Threads n} {op : Op n} (taken : step s op = some t) :
    s.aborted = false ∧ (perform s op).1 = t := by
  unfold step at taken
  split at taken
  next => cases taken
  next alive => exact ⟨Bool.eq_false_iff.mpr alive, Option.some.inj taken⟩

/-! ### What one operation does -/

/-- The call of `gt_yield` that an operation makes: its frame and the table that
    it finds. -/
def calls (s : Table n) : Op n → Option (Frame × Table n)
  | .yield => some (.yield, s)
  | .stop => if s.gtcur ≠ 0 then some (.stop, s.setState s.gtcur .Unused) else none
  | .suspend => some (.suspend, s.setState s.gtcur .Suspended)
  | .delay tMs => if tMs ≤ 0 then none else some (.delay, block s (delayOf tMs))
  | .sigHandle => some (.handler, gtManageTimers s)
  | .go _ _ => none
  | .resume _ => none

theorem perform_calls {s : Threads n} {op : Op n} {here : Frame} {m : Table n}
    (made : calls s.toTable op = some (here, m)) :
    perform s op = goOn s here (gtYield m).1 (some (gtYield m).2) := by
  cases op with
  | yield => cases made; rfl
  | suspend => cases made; rfl
  | sigHandle => cases made; rfl
  | stop =>
    by_cases main : s.gtcur ≠ 0
    · simp only [calls, if_pos main, Option.some.injEq, Prod.mk.injEq] at made
      obtain ⟨rfl, rfl⟩ := made
      simp only [perform, gtStop, if_pos main]
    · simp [calls, main] at made
  | delay tMs =>
    by_cases short : tMs ≤ 0
    · simp [calls, short] at made
    · simp only [calls, if_neg short, Option.some.injEq, Prod.mk.injEq] at made
      obtain ⟨rfl, rfl⟩ := made
      simp only [perform, gtDelay, if_neg short]
  | go | resume => cases made

/-- All that an operation can do: nothing; create a thread in an unused slot; wake
    a suspended one; or call `gt_yield`, which switches to the first ready slot, or
    returns at once when there is none. -/
theorem perform_cases (s : Threads n) (op : Op n) :
    (calls s.toTable op = none ∧ (perform s op).1.toTable = s.toTable ∧ (perform s op).1.frame = s.frame ∧
        (perform s op).1.aborted = s.aborted ∧ (perform s op).2 = none) ∨
      (∃ tName p, s.stateOf p = .Unused ∧ perform s op =
        ({ s with toTable := s.set p { threadState := .Ready, delayTicks := 0, id := p.val,
                                       name := threadName tName p.val },
                  frame := Function.update s.frame p .entry }, none)) ∨
      (∃ tId, op = .resume tId ∧ perform s op = ({ s with toTable := gtResume s.toTable tId }, none)) ∨
      (∃ here m p, calls s.toTable op = some (here, m) ∧ First (fun r => m.stateOf r = .Ready) m.gtcur p ∧
        perform s op = ({ toTable := switchTo m p, frame := Function.update s.frame s.gtcur here,
                          aborted := Function.update s.frame s.gtcur here p = .stop },
          some (Function.update s.frame s.gtcur here p, 1))) ∨
      (∃ here m, calls s.toTable op = some (here, m) ∧ (∀ r, m.stateOf r ≠ .Ready) ∧
        perform s op = ({ s with toTable := m, aborted := here = .stop },
          some (here, -((Finset.univ.filter (Waiting m)).card : ℤ)))) := by
  cases made : calls s.toTable op with
  | some call =>
    obtain ⟨here, m⟩ := call
    rcases gtYield_cases m with ⟨p, first, yields⟩ | ⟨none, yields⟩
    · refine .inr (.inr (.inr (.inl ⟨here, m, p, rfl, first, ?_⟩)))
      rw [perform_calls made, yields, goOn_switched, switchTo_gtcur]
    · refine .inr (.inr (.inr (.inr ⟨here, m, rfl, none, ?_⟩)))
      rw [perform_calls made, yields, goOn_stayed]
      simp only
      omega
  | none =>
    cases op with
    | yield | suspend | sigHandle => cases made
    | stop =>
      have main : ¬ s.gtcur ≠ 0 := by
        intro other
        simp [calls, other] at made
      refine .inl ⟨rfl, ?_⟩
      simp only [perform, gtStop, if_neg main, goOn, and_self]
    | delay tMs =>
      have short : tMs ≤ 0 := by
        by_contra long
        simp [calls, long] at made
      refine .inl ⟨rfl, ?_⟩
      simp only [perform, gtDelay, if_pos short, goOn, and_self]
    | resume tId => exact .inr (.inr (.inl ⟨tId, rfl, rfl⟩))
    | go tName stack =>
      rcases gtGo_cases s.toTable tName stack with fails | ⟨p, unused, fills⟩
      · refine .inl ⟨rfl, ?_⟩
        have noSlot : ∀ i : Fin n, ¬ (i.val : ℤ) = -1 := fun i => by omega
        simp only [perform, fails, noSlot, if_false, and_self]
      · refine .inr (.inl ⟨tName, p, unused, ?_⟩)
        have slot : (fun i : Fin n => if (i.val : ℤ) = (p.val : ℤ) then Frame.entry else s.frame i) =
            Function.update s.frame p .entry := by
          funext i
          simp only [Function.update_apply, Fin.ext_iff, Int.natCast_inj]
        simp only [perform, fills, slot]

/-! ### The invariant -/

/-- Thread 0 does not call `gt_suspend` or `gt_delay`. -/
def MainNeverBlocks (s : Threads n) (op : Op n) : Prop := s.gtcur = 0 → op.blocking = false

instance (s : Threads n) (op : Op n) : Decidable (MainNeverBlocks s op) :=
  inferInstanceAs (Decidable (_ → _))

/-- What `gt_yield` relies on when it is called, and keeps. -/
structure TableOk (s : Table n) : Prop where
  main : s.stateOf 0 = .Running ∨ s.stateOf 0 = .Ready
  delayed : ∀ i, s.stateOf i = .Blocked ↔ 0 < (s.gttbl i).delayTicks
  ids : ∀ i, (s.gttbl i).id = i.val
  running : ∀ i, s.stateOf i = .Running → i = s.gtcur

/-- What holds between two operations. -/
structure Invariant (s : Threads n) : Prop where
  table : TableOk s.toTable
  current : s.stateOf s.gtcur = .Running
  stopped : ∀ i, i ≠ s.gtcur → s.frame i = .stop → s.stateOf i = .Unused
  alive : s.aborted = false

/-- Slot 0 is ready while another slot is current. -/
theorem TableOk.main_ready {s : Table n} (ok : TableOk s) (other : s.gtcur ≠ 0) : s.stateOf 0 = .Ready :=
  ok.main.resolve_left fun runs => other (ok.running 0 runs).symm

theorem switchTo_ok {s : Table n} (ok : TableOk s) {p : Fin n} (ready : s.stateOf p = .Ready) :
    TableOk (switchTo s p) where
  main := by
    rw [switchTo_stateOf]
    by_cases new : (0 : Fin n) = p
    · exact .inl (if_pos new)
    · rw [if_neg new]
      rcases ok.main with runs | idle
      · exact .inr (if_pos ⟨ok.running 0 runs, runs⟩)
      · exact .inr (by simp [idle])
  delayed i := by
    rw [switchTo_stateOf, switchTo_delayTicks, ← ok.delayed i]
    by_cases new : i = p
    · simp [new, ready]
    · by_cases old : i = s.gtcur ∧ s.stateOf i = .Running
      · rw [if_neg new, if_pos old, old.2]; simp
      · rw [if_neg new, if_neg old]
  ids i := by rw [switchTo_id, ok.ids i]
  running i := by
    rw [switchTo_stateOf, switchTo_gtcur]
    intro runs
    by_contra other
    rw [if_neg other] at runs
    by_cases old : i = s.gtcur ∧ s.stateOf i = .Running
    · rw [if_pos old] at runs; cases runs
    · rw [if_neg old] at runs
      exact old ⟨ok.running i runs, runs⟩

theorem delayOf_pos (tMs : ℤ) : 0 < delayOf tMs := by
  unfold delayOf
  simp only
  split <;> omega

omit [NeZero n] in
theorem block_stateOf (s : Table n) (ticks : ℤ) (i : Fin n) :
    (block s ticks).stateOf i = if i = s.gtcur then .Blocked else s.stateOf i := by
  rw [Table.stateOf, block, Table.set_gttbl]
  split <;> rfl

omit [NeZero n] in
@[simp] theorem block_gtcur (s : Table n) (ticks : ℤ) : (block s ticks).gtcur = s.gtcur := rfl

theorem gtManageTimers_ok {s : Table n} (ok : TableOk s) : TableOk (gtManageTimers s) where
  main := by
    have awake : s.stateOf 0 ≠ .Blocked := by rcases ok.main with h | h <;> simp [h]
    rw [gtManageTimers_stateOf_eq s 0 awake]
    exact ok.main
  delayed i := by
    have before := ok.delayed i
    rw [Table.stateOf] at before ⊢
    rw [gtManageTimers_gttbl]
    rcases tick_cases (s.gttbl i) with same | ⟨blocked, more, same⟩ | ⟨-, -, same⟩
    · rw [same]; exact before
    · rw [same]; simp only [blocked, true_iff]; omega
    · simp [same]
  ids i := by rw [gtManageTimers_gttbl, tick_id, ok.ids i]
  running i := by
    rw [gtManageTimers_gtcur]
    intro runs
    rcases gtManageTimers_stateOf s i with same | ⟨-, -, ready⟩
    · exact ok.running i (same ▸ runs)
    · rw [ready] at runs; cases runs

/-- A slot of the current thread may be given any state but `Blocked`, as long as
    slot 0 stays running. -/
theorem setState_ok {s : Table n} (ok : TableOk s) (current : s.stateOf s.gtcur = .Running) (other : s.gtcur ≠ 0)
    {state : ThreadState} (awake : state ≠ .Blocked) : TableOk (s.setState s.gtcur state) where
  main := by rw [Table.setState_stateOf, if_neg (Ne.symm other)]; exact ok.main
  delayed i := by
    rw [Table.setState_stateOf, Table.setState_delayTicks]
    by_cases here : i = s.gtcur
    · have := ok.delayed s.gtcur
      simp only [here, if_true, ← this, current, awake, reduceCtorEq]
    · rw [if_neg here]; exact ok.delayed i
  ids i := by rw [Table.setState_id, ok.ids i]
  running i := by
    rw [Table.setState_stateOf, Table.setState_gtcur]
    intro runs
    by_contra elsewhere
    rw [if_neg elsewhere] at runs
    exact elsewhere (ok.running i runs)

theorem block_ok {s : Table n} (ok : TableOk s) (other : s.gtcur ≠ 0) {ticks : ℤ} (positive : 0 < ticks) :
    TableOk (block s ticks) where
  main := by rw [block_stateOf, if_neg (Ne.symm other)]; exact ok.main
  delayed i := by
    rw [block_stateOf]
    unfold block
    rw [Table.set_gttbl]
    by_cases here : i = s.gtcur
    · simp only [here, if_true, positive]
    · rw [if_neg here, if_neg here]; exact ok.delayed i
  ids i := by
    unfold block
    rw [Table.set_gttbl]
    split
    next same => rw [same]; exact ok.ids _
    next => exact ok.ids i
  running i := by
    rw [block_stateOf, block_gtcur]
    intro runs
    by_contra elsewhere
    rw [if_neg elsewhere] at runs
    exact elsewhere (ok.running i runs)

theorem gtInit_ok : TableOk (gtInit n) := by
  refine ⟨.inl ?_, ?_, ?_, ?_⟩
  · simp [gtInit_stateOf]
  · intro i
    rw [gtInit_stateOf, gtInit_gttbl]; split <;> simp
  · intro i
    rw [gtInit_gttbl]
    split
    next main => simp [main]
    next => rfl
  · intro i
    rw [gtInit_stateOf]
    split
    next main => exact fun _ => main
    next => simp

/-! ### One operation keeps the invariant -/

/-- The five calls of `gt_yield`: the table that each of them finds. -/
theorem calls_cases {s m : Table n} {op : Op n} {here : Frame} (made : calls s op = some (here, m)) :
    (op = .yield ∧ here = .yield ∧ m = s) ∨
      (op = .stop ∧ here = .stop ∧ s.gtcur ≠ 0 ∧ m = s.setState s.gtcur .Unused) ∨
      (op = .suspend ∧ here = .suspend ∧ m = s.setState s.gtcur .Suspended) ∨
      (∃ tMs, op = .delay tMs ∧ here = .delay ∧ 0 < tMs ∧ m = block s (delayOf tMs)) ∨
      (op = .sigHandle ∧ here = .handler ∧ m = gtManageTimers s) := by
  cases op with
  | yield => cases made; exact .inl ⟨rfl, rfl, rfl⟩
  | stop =>
    by_cases main : s.gtcur ≠ 0
    · simp only [calls, if_pos main, Option.some.injEq, Prod.mk.injEq] at made
      exact .inr (.inl ⟨rfl, made.1.symm, main, made.2.symm⟩)
    · simp [calls, main] at made
  | suspend => cases made; exact .inr (.inr (.inl ⟨rfl, rfl, rfl⟩))
  | delay tMs =>
    by_cases short : tMs ≤ 0
    · simp [calls, short] at made
    · simp only [calls, if_neg short, Option.some.injEq, Prod.mk.injEq] at made
      exact .inr (.inr (.inr (.inl ⟨tMs, rfl, made.1.symm, by omega, made.2.symm⟩)))
  | sigHandle => cases made; exact .inr (.inr (.inr (.inr ⟨rfl, rfl, rfl⟩)))
  | go | resume => cases made

/-- Before an operation calls `gt_yield` it leaves the other slots alone, apart
    from the timers, which wake a slot at its last tick. -/
theorem calls_other {s m : Table n} {op : Op n} {here : Frame} (made : calls s op = some (here, m)) :
    m.gtcur = s.gtcur ∧ ∀ i, i ≠ s.gtcur → m.stateOf i = s.stateOf i ∨
      (op = .sigHandle ∧ s.stateOf i = .Blocked ∧ (s.gttbl i).delayTicks = 1 ∧ m.stateOf i = .Ready) := by
  rcases calls_cases made with ⟨-, -, rfl⟩ | ⟨-, -, -, rfl⟩ | ⟨-, -, rfl⟩ | ⟨tMs, -, -, -, rfl⟩ | ⟨rfl, -, rfl⟩
  · exact ⟨rfl, fun _ _ => .inl rfl⟩
  · exact ⟨rfl, fun i other => .inl (by rw [Table.setState_stateOf, if_neg other])⟩
  · exact ⟨rfl, fun i other => .inl (by rw [Table.setState_stateOf, if_neg other])⟩
  · exact ⟨rfl, fun i other => .inl (by rw [block_stateOf, if_neg other])⟩
  · refine ⟨gtManageTimers_gtcur s, ?_⟩
    intro i _
    rcases gtManageTimers_stateOf s i with same | ⟨blocked, last, ready⟩
    · exact .inl same
    · exact .inr ⟨rfl, blocked, last, ready⟩

theorem calls_keeps {s m : Table n} {op : Op n} {here : Frame} (made : calls s op = some (here, m)) {i : Fin n}
    (other : i ≠ s.gtcur) (awake : s.stateOf i ≠ .Blocked) : m.stateOf i = s.stateOf i :=
  ((calls_other made).2 i other).resolve_right fun wakes => awake wakes.2.1

/-- The table that the `gt_yield` of an operation finds. -/
theorem calls_ok {s m : Table n} {op : Op n} {here : Frame} (ok : TableOk s) (current : s.stateOf s.gtcur = .Running)
    (free : s.gtcur = 0 → op.blocking = false) (made : calls s op = some (here, m)) :
    TableOk m ∧ m.stateOf s.gtcur ≠ .Ready ∧ (s.gtcur = 0 → m.stateOf s.gtcur = .Running) ∧
      (here = .stop → m.stateOf s.gtcur = .Unused) := by
  rcases calls_cases made with ⟨-, rfl, rfl⟩ | ⟨-, rfl, main, rfl⟩ | ⟨rfl, rfl, rfl⟩ | ⟨tMs, rfl, rfl, -, rfl⟩ |
    ⟨-, rfl, rfl⟩
  · exact ⟨ok, by simp [current], fun _ => current, by simp⟩
  · have unused : (s.setState s.gtcur .Unused).stateOf s.gtcur = .Unused := by
      rw [Table.setState_stateOf, if_pos rfl]
    exact ⟨setState_ok ok current main (by simp), by simp [unused], fun zero => absurd zero main, fun _ => unused⟩
  · have main : s.gtcur ≠ 0 := fun zero => by simpa [Op.blocking] using free zero
    refine ⟨setState_ok ok current main (by simp), ?_, fun zero => absurd zero main, by simp⟩
    rw [Table.setState_stateOf, if_pos rfl]
    simp
  · have main : s.gtcur ≠ 0 := fun zero => by simpa [Op.blocking] using free zero
    refine ⟨block_ok ok main (delayOf_pos tMs), ?_, fun zero => absurd zero main, by simp⟩
    rw [block_stateOf, if_pos rfl]
    simp
  · have runs : (gtManageTimers s).stateOf s.gtcur = .Running := by
      rw [gtManageTimers_stateOf_eq s _ (by simp [current]), current]
    exact ⟨gtManageTimers_ok ok, by simp [runs], fun _ => runs, by simp⟩

theorem gtResume_ok {s : Table n} (ok : TableOk s) (tId : Fin n) : TableOk (gtResume s tId) where
  main := by
    have awake : s.stateOf 0 ≠ .Suspended := by rcases ok.main with h | h <;> simp [h]
    rw [gtResume_stateOf, if_neg fun both => awake both.2]
    exact ok.main
  delayed i := by
    have ticks : ((gtResume s tId).gttbl i).delayTicks = (s.gttbl i).delayTicks := by
      unfold gtResume
      split <;> simp
    rw [gtResume_stateOf, ticks, ← ok.delayed i]
    split
    next wakes => simp [wakes.2]
    next => rfl
  ids i := by
    have same : ((gtResume s tId).gttbl i).id = (s.gttbl i).id := by
      unfold gtResume
      split <;> simp
    rw [same, ok.ids i]
  running i := by
    rw [gtResume_stateOf, gtResume_gtcur]
    intro runs
    split at runs
    next => cases runs
    next => exact ok.running i runs

theorem create_ok {s : Table n} (ok : TableOk s) (p : Fin n) (name : Bytes) :
    TableOk (s.set p { threadState := .Ready, delayTicks := 0, id := p.val, name := name }) where
  main := by
    rw [Table.stateOf, Table.set_gttbl]
    split
    next => exact .inr rfl
    next => exact ok.main
  delayed i := by
    rw [Table.stateOf, Table.set_gttbl]
    split
    next => simp
    next => exact ok.delayed i
  ids i := by
    rw [Table.set_gttbl]
    split
    next same => rw [same]
    next => exact ok.ids i
  running i := by
    rw [Table.stateOf, Table.set_gttbl]
    split
    next => simp
    next => exact ok.running i

/-- Every operation keeps the invariant, as long as thread 0 does not block itself. -/
theorem step_invariant (s : Threads n) (op : Op n) (t : Threads n) (inv : Invariant s) (free : MainNeverBlocks s op)
    (taken : step s op = some t) : Invariant t := by
  obtain ⟨ok, current, stopped, alive⟩ := inv
  obtain ⟨-, rfl⟩ := step_cases taken
  rcases perform_cases s op with ⟨-, table, frame, aborted, -⟩ | ⟨tName, p, unused, same⟩ | ⟨tId, -, same⟩ |
    ⟨here, m, p, made, first, same⟩ | ⟨here, m, made, none, same⟩
  · exact ⟨table ▸ ok, table ▸ current, by rw [table, frame]; exact stopped, aborted ▸ alive⟩
  · rw [same]
    have elsewhere : s.gtcur ≠ p := fun here => by rw [here, unused] at current; cases current
    refine ⟨create_ok ok p _, ?_, ?_, alive⟩
    · rw [Table.stateOf, Table.set_gttbl, Table.set_gtcur, if_neg elsewhere]
      exact current
    · intro i other stops
      by_cases new : i = p
      · simp [new] at stops
      · rw [Table.stateOf, Table.set_gttbl, if_neg new]
        exact stopped i other (by simpa [new] using stops)
  · rw [same]
    refine ⟨gtResume_ok ok tId, ?_, ?_, alive⟩
    · rw [gtResume_stateOf, gtResume_gtcur, if_neg fun both => by simp [current] at both]
      exact current
    · intro i other stops
      have unused := stopped i (by simpa using other) stops
      rw [gtResume_stateOf, if_neg fun both => by simp [unused] at both]
      exact unused
  · obtain ⟨okM, -, -, stopsHere⟩ := calls_ok ok current free made
    have keepsUnused : ∀ i, i ≠ s.gtcur → s.frame i = .stop → m.stateOf i = .Unused := by
      intro i old stops
      have unused := stopped i old stops
      rw [calls_keeps made old (by simp [unused]), unused]
    rw [same]
    have readyP : m.stateOf p = .Ready := first.1
    refine ⟨switchTo_ok okM readyP, ?_, ?_, ?_⟩
    · rw [switchTo_stateOf, switchTo_gtcur, if_pos rfl]
    · intro i other stops
      rw [switchTo_gtcur] at other
      rw [switchTo_stateOf, if_neg other]
      -- The thread switched out stopped itself, or the slot had stopped before.
      have unused : m.stateOf i = .Unused := by
        by_cases old : i = s.gtcur
        · subst old
          exact stopsHere (by simpa using stops)
        · exact keepsUnused i old (by simpa [old] using stops)
      rw [if_neg fun both => by simp [unused] at both]
      exact unused
    · -- A slot that stopped is unused, so it is not the one selected.
      have goesOn : Function.update s.frame s.gtcur here p ≠ .stop := by
        intro stops
        have unused : m.stateOf p = .Unused := by
          by_cases old : p = s.gtcur
          · subst old
            exact stopsHere (by simpa using stops)
          · exact keepsUnused p old (by simpa [old] using stops)
        rw [unused] at readyP
        cases readyP
      simpa using goesOn
  · obtain ⟨okM, -, mainRuns, stopsHere⟩ := calls_ok ok current free made
    have curM := (calls_other made).1
    -- Nothing is ready, so slot 0 is not, and it is the current one.
    have main : s.gtcur = 0 := by
      by_contra other
      exact none 0 (okM.main_ready (by rw [curM]; exact other))
    have runs := mainRuns main
    rw [same]
    refine ⟨okM, by rw [curM]; exact runs, ?_, ?_⟩
    · intro i other stops
      have away : i ≠ s.gtcur := fun h => other (by simp [curM, h])
      have unused := stopped i away stops
      rw [calls_keeps made away (by simp [unused]), unused]
    · have goesOn : here ≠ .stop := by
        intro stops
        rw [stopsHere stops] at runs
        cases runs
      simpa using goesOn

theorem start_invariant : Invariant (start n) := by
  have ok := gtInit_ok (n := n)
  refine ⟨ok, ?_, by simp [start], rfl⟩
  show (gtInit n).stateOf 0 = .Running
  simp [gtInit_stateOf]

/-- The invariant holds in every state of a run in which thread 0 does not block
    itself. -/
theorem run_invariant {ops : List (Op n)} {t : Threads n} (free : AllSteps step MainNeverBlocks (start n) ops)
    (run : exec step (start n) ops = some t) : Invariant t :=
  exec_kept_of (fun s op t inv free taken => step_invariant s op t inv free taken) start_invariant free run

/-- When another slot than 0 is current, every operation that calls `gt_yield` switches. -/
theorem gtYield_switches {s : Threads n} (inv : Invariant s) (other : s.gtcur ≠ 0) {op : Op n} {here : Frame} {m : Table n}
    (made : calls s.toTable op = some (here, m)) :
    (gtYield m).2 = 1 ∧ (gtYield m).1.gtcur ≠ s.gtcur := by
  obtain ⟨ok, notReady, -⟩ := calls_ok inv.table inv.current (fun zero => absurd zero other) made
  rcases gtYield_cases m with ⟨p, first, same⟩ | ⟨none, -⟩
  · rw [same]
    refine ⟨rfl, ?_⟩
    rw [switchTo_gtcur]
    rintro rfl
    exact notReady first.1
  · have away : m.gtcur ≠ 0 := by
      rw [(calls_other made).1]
      exact other
    exact absurd (ok.main_ready away) (none 0)

/-- In every run in which thread 0 does not block itself: exactly one slot is
    running, the current one; slot 0 is running or ready; a slot is blocked when
    and only when it has ticks to wait; slot `i` has id `i`; every `gt_yield` of another
    slot than 0 switches, also the one that `gt_suspend`, `gt_delay`, `gt_stop` or the timer
    handler calls; and the assertion in `gt_stop` is not met. -/
theorem table_invariant {ops : List (Op n)} {t : Threads n} (free : AllSteps step MainNeverBlocks (start n) ops)
    (run : exec step (start n) ops = some t) :
    (∃! i, t.stateOf i = .Running) ∧ t.stateOf t.gtcur = .Running ∧
      (t.stateOf 0 = .Running ∨ t.stateOf 0 = .Ready) ∧
      (∀ i, t.stateOf i = .Blocked ↔ 0 < (t.gttbl i).delayTicks) ∧
      (∀ i, (t.gttbl i).id = i.val) ∧
      (t.gtcur ≠ 0 → ∀ op here m, calls t.toTable op = some (here, m) →
        (gtYield m).2 = 1 ∧ (gtYield m).1.gtcur ≠ t.gtcur) ∧
      t.aborted = false := by
  have inv := run_invariant free run
  refine ⟨⟨t.gtcur, inv.current, fun i runs => inv.table.running i runs⟩, inv.current, inv.table.main,
    inv.table.delayed, inv.table.ids, fun other op here m made => gtYield_switches inv other made, inv.alive⟩

/-- A run with three slots: both threads are created and started, one waits for two
    ticks and the other suspends itself, and the timer brings the first one back,
    which wakes the other and stops. -/
def sampleOps : List (Op 3) :=
  [.go none true, .go none false, .go none true, .yield, .delay 20, .suspend, .sigHandle, .sigHandle, .resume 2, .stop]

theorem table_invariant_sample :
    ∃ t : Threads 3, exec step (start 3) sampleOps = some t ∧ t.stateOf 2 = .Running ∧ t.aborted = false := by
  have free : AllSteps step MainNeverBlocks (start 3) sampleOps := by decide
  have ends : (exec step (start 3) sampleOps).map (fun t => t.stateOf 2) = some .Running := by decide
  obtain ⟨t, run, last⟩ := Option.map_eq_some_iff.mp ends
  exact ⟨t, run, last, (table_invariant free run).2.2.2.2.2.2⟩

end

end OsyProg.ThreadRuns
