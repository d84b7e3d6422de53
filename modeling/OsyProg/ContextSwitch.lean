import OsyProg.Gthreads
import OsyProg.Runs
import Mathlib.Data.Fintype.Basic

/-!
The switch of `gtswtch.S` under the thread table. Each slot has the words of its
`gt_regs`, laid out by the C structure of the build (`offsetOf`); the instructions
use fixed offsets, and those of the entry of a build are the ones of its structure
(`entry_saves`, `entry_loads`). A switch saves and loads the registers of the structure
and leaves every other one (`swtch_memory`, `swtch_regs`), so what a waiting thread
gets back follows from what its slot holds (`Invariant`): always its stack and
base pointer, and in the cooperative build all that the comment in `gtswtch.S`
promises. In the preemptive build the rest is whatever the other thread left
(`registers_kept`).
-/
namespace OsyProg.ContextSwitch
open OsyProg.Bytes OsyProg.Gthreads OsyProg.Runs

abbrev Word := BitVec 64

/-- The general registers, without the two that hold the arguments of the switch. -/
inductive Reg
  | rax | rbx | rcx | rdx | rbp | rsp | r8 | r9 | r10 | r11 | r12 | r13 | r14 | r15
  deriving DecidableEq, Repr

/-- The registers the called routine is expected to preserve. -/
def calleeSaved : List Reg := [.rsp, .rbp, .rbx, .r12, .r13, .r14, .r15]

/-- `struct gt_regs`, eight bytes a field. -/
def gtRegs : Build → List Reg
  | .preemptive => [.rsp, .rbp]
  | .cooperative => [.rsp, .rbp, .r15, .r14, .r13, .r12, .rbx]

/-- The offset of a register in `struct gt_regs`. -/
def offsetOf (build : Build) (r : Reg) : Option ℕ := ((gtRegs build).idxOf? r).map (8 * ·)

inductive Instr
  | save (offset : ℕ) (r : Reg)                 -- mov [ rdi + offset ], r
  | load (r : Reg) (offset : ℕ)                 -- mov r, [ rsi + offset ]
  | ret
  deriving DecidableEq

def gtPreeSwtch : List Instr :=
  [.save 0x00 .rsp, .save 0x08 .rbp, .load .rsp 0x00, .load .rbp 0x08, .ret]

/-- `gt_swtch` runs on into `gt_pree_swtch`. -/
def gtSwtch : List Instr :=
  [.save 0x10 .r15, .save 0x18 .r14, .save 0x20 .r13, .save 0x28 .r12, .save 0x30 .rbx,
   .load .r15 0x10, .load .r14 0x18, .load .r13 0x20, .load .r12 0x28, .load .rbx 0x30] ++ gtPreeSwtch

/-- The entry that `gt_yield` calls. -/
def entry : Build → List Instr
  | .preemptive => gtPreeSwtch
  | .cooperative => gtSwtch

/-- The registers, the words of each context by their offset, and the contexts
    that `rdi` and `rsi` point to. -/
structure Cpu (n : ℕ) where
  regs : Reg → Word
  memory : Fin n → ℕ → Word
  rdi : Fin n
  rsi : Fin n

section
variable {n : ℕ}

/-- `call` puts the return address on the stack, and `ret` takes it off. -/
def push (regs : Reg → Word) : Reg → Word := Function.update regs .rsp (regs .rsp - 8)
def pop (regs : Reg → Word) : Reg → Word := Function.update regs .rsp (regs .rsp + 8)

def Cpu.run (cpu : Cpu n) : Instr → Cpu n
  | .save offset r =>
    let context := Function.update (cpu.memory cpu.rdi) offset (cpu.regs r)
    { cpu with memory := Function.update cpu.memory cpu.rdi context }
  | .load r offset => { cpu with regs := Function.update cpu.regs r (cpu.memory cpu.rsi offset) }
  | .ret => { cpu with regs := pop cpu.regs }

/-- The call of the entry of the build, up to its `ret`. -/
def Cpu.swtch (build : Build) (cpu : Cpu n) : Cpu n :=
  (entry build).foldl Cpu.run { cpu with regs := push cpu.regs }

/-- The thread table, the registers of the thread that runs, the words of the
    contexts, and the registers each thread had at its last call of `gt_yield`. -/
structure Machine (n : ℕ) where
  table : Table n
  regs : Reg → Word
  memory : Fin n → ℕ → Word
  called : Fin n → Option (Reg → Word)

/-- What the running thread does; `go` has the top of the stack it allocates, if
    there is one, and `timers` is one `gt_manage_timers`. -/
inductive Action (n : ℕ)
  | work (regs : Reg → Word)
  | go (tName : Option Bytes) (stack : Option Word)
  | resume (tId : Fin n)
  | timers
  | yield
  | suspend
  | delay (tMs : ℤ)
  | stop

/-- The table with which the action calls `gt_yield`, if it does. -/
def yieldsWith [NeZero n] (s : Table n) : Action n → Option (Table n)
  | .yield => some s
  | .suspend => some (s.setState s.gtcur .Suspended)
  | .delay tMs => if tMs ≤ 0 then none else some (block s (delayOf tMs))
  | .stop => if s.gtcur ≠ 0 then some (s.setState s.gtcur .Unused) else none
  | _ => none

/-- `gt_yield` called with the table `s`: when it finds a thread, the switch saves
    into the old context and loads from the new one. -/
def yield (build : Build) (m : Machine n) (s : Table n) : Machine n :=
  let (t, result) := gtYield s
  if result = 1 then
    let cpu := Cpu.swtch build { regs := m.regs, memory := m.memory, rdi := s.gtcur, rsi := t.gtcur }
    { table := t, regs := cpu.regs, memory := cpu.memory,
      called := Function.update m.called s.gtcur (some m.regs) }
  else { m with table := t }

/-- `gt_go`, which sets `regs.rsp`, the first field. -/
def create (m : Machine n) (tName : Option Bytes) (stack : Option Word) : Machine n :=
  let t := (gtGo m.table tName stack.isSome).1
  match findUnused m.table, stack with
  | some p, some top =>
    { m with
      table := t
      memory := Function.update m.memory p (Function.update (m.memory p) 0x00 top)
      called := Function.update m.called p none }
  | _, _ => { m with table := t }

/-- An action that does not yield. -/
def inPlace (m : Machine n) : Action n → Machine n
  | .work regs => { m with regs }
  | .go tName stack => create m tName stack
  | .resume tId => { m with table := gtResume m.table tId }
  | .timers => { m with table := gtManageTimers m.table }
  | _ => m

/-- One action. When the `gt_yield` of `gt_stop` returns, the assertion after it ends the program. -/
def step [NeZero n] (build : Build) (m : Machine n) (a : Action n) : Option (Machine n) :=
  match yieldsWith m.table a, a with
  | some s, .stop => if (gtYield s).2 = 1 then some (yield build m s) else none
  | some s, _ => some (yield build m s)
  | none, _ => some (inPlace m a)

/-- The state that `gt_init` leaves. -/
def start (n : ℕ) [NeZero n] (regs : Reg → Word) : Machine n :=
  { table := gtInit n, regs, memory := fun _ _ => 0, called := fun _ => none }

/-- The registers at the call of `gt_yield` that returns with this action, if one
    that switched away does. -/
def resumed [NeZero n] (m : Machine n) (a : Action n) : Option (Reg → Word) :=
  (yieldsWith m.table a).bind fun s =>
    let (t, result) := gtYield s
    if result = 1 then Function.update m.called s.gtcur (some m.regs) t.gtcur else none

/-- The `gt_yield` that returns with this action keeps what the called routine is
    expected to preserve. -/
def Preserves [NeZero n] (build : Build) (m : Machine n) (a : Action n) : Prop :=
  ∀ t, step build m a = some t → ∀ before ∈ resumed m a, ∀ r ∈ calleeSaved, t.regs r = before r

/-- The thread that yields leaves the registers that `gt_regs` does not have as
    they were when the thread it switches to made its call. -/
def Undamaged [NeZero n] (build : Build) (m : Machine n) (a : Action n) : Prop :=
  ∀ before ∈ resumed m a, ∀ r ∈ calleeSaved, offsetOf build r = none → m.regs r = before r

/-! ### The switch -/

theorem offsetOf_preemptive (r : Reg) :
    offsetOf .preemptive r = match r with
      | .rsp => some 0x00
      | .rbp => some 0x08
      | _ => none := by
  cases r <;> rfl

theorem offsetOf_cooperative (r : Reg) :
    offsetOf .cooperative r = match r with
      | .rsp => some 0x00
      | .rbp => some 0x08
      | .r15 => some 0x10
      | .r14 => some 0x18
      | .r13 => some 0x20
      | .r12 => some 0x28
      | .rbx => some 0x30
      | _ => none := by
  cases r <;> rfl

/-- The registers an entry saves, and the offsets it uses, are the fields of the
    structure of its build. -/
theorem entry_saves (build : Build) (r : Reg) (offset : ℕ) :
    .save offset r ∈ entry build ↔ offsetOf build r = some offset := by
  cases build with
  | preemptive => rw [offsetOf_preemptive]; cases r <;> simp [entry, gtPreeSwtch, eq_comm]
  | cooperative => rw [offsetOf_cooperative]; cases r <;> simp [entry, gtSwtch, gtPreeSwtch, eq_comm]

theorem entry_loads (build : Build) (r : Reg) (offset : ℕ) :
    .load r offset ∈ entry build ↔ offsetOf build r = some offset := by
  cases build with
  | preemptive => rw [offsetOf_preemptive]; cases r <;> simp [entry, gtPreeSwtch, eq_comm]
  | cooperative => rw [offsetOf_cooperative]; cases r <;> simp [entry, gtSwtch, gtPreeSwtch, eq_comm]

/-- The switch saves the fields into the old context. -/
theorem swtch_memory (build : Build) (cpu : Cpu n) {r : Reg} {offset : ℕ} (field : offsetOf build r = some offset)
    (i : Fin n) :
    (cpu.swtch build).memory i offset = if i = cpu.rdi then push cpu.regs r else cpu.memory i offset := by
  cases build with
  | preemptive =>
    rw [offsetOf_preemptive] at field
    cases r <;> cases field <;>
      by_cases old : i = cpu.rdi <;> simp [Cpu.swtch, entry, gtPreeSwtch, Cpu.run, Function.update, old]
  | cooperative =>
    rw [offsetOf_cooperative] at field
    cases r <;> cases field <;>
      by_cases old : i = cpu.rdi <;> simp [Cpu.swtch, entry, gtSwtch, gtPreeSwtch, Cpu.run, Function.update, old]

/-- It loads them from the new context, and keeps the other registers. -/
theorem swtch_regs (build : Build) (cpu : Cpu n) (r : Reg) :
    (cpu.swtch build).regs r =
      pop (fun r => match offsetOf build r with
        | some offset => (cpu.swtch build).memory cpu.rsi offset
        | none => push cpu.regs r) r := by
  cases build with
  | preemptive =>
    simp only [offsetOf_preemptive]
    cases r <;> by_cases same : cpu.rsi = cpu.rdi <;>
      simp [Cpu.swtch, entry, gtPreeSwtch, Cpu.run, pop, Function.update, same]
  | cooperative =>
    simp only [offsetOf_cooperative]
    cases r <;> by_cases same : cpu.rsi = cpu.rdi <;>
      simp [Cpu.swtch, entry, gtSwtch, gtPreeSwtch, Cpu.run, pop, Function.update, same]

theorem pop_eq {regs before : Reg → Word} {r : Reg} (pushed : regs r = push before r) : pop regs r = before r := by
  by_cases top : r = .rsp
  · subst top
    rw [pop, Function.update_self, pushed, push, Function.update_self, BitVec.sub_add_cancel]
  · rw [pop, Function.update_of_ne top, pushed, push, Function.update_of_ne top]

/-- A register with a field comes back as it was when the new context was saved. -/
theorem swtch_field (build : Build) (cpu : Cpu n) {r : Reg} {offset : ℕ} (field : offsetOf build r = some offset)
    {before : Reg → Word} (itself : cpu.rsi = cpu.rdi → before = cpu.regs)
    (saved : cpu.rsi ≠ cpu.rdi → cpu.memory cpu.rsi offset = push before r) :
    (cpu.swtch build).regs r = before r := by
  rw [swtch_regs]
  apply pop_eq
  rw [field]
  show (cpu.swtch build).memory cpu.rsi offset = push before r
  rw [swtch_memory build cpu field]
  split
  · next same => rw [itself same]
  · next apart => exact saved apart

/-- A register without one is as the old thread left it. -/
theorem swtch_noField (build : Build) (cpu : Cpu n) {r : Reg} (noField : offsetOf build r = none) :
    (cpu.swtch build).regs r = cpu.regs r := by
  rw [swtch_regs]
  apply pop_eq
  rw [noField]

/-! ### The invariant -/

/-- The context of a thread that is not current holds its registers at its call of `gt_yield`. -/
def Invariant (build : Build) (m : Machine n) : Prop :=
  ∀ i before, i ≠ m.table.gtcur → m.called i = some before →
    ∀ r offset, offsetOf build r = some offset → m.memory i offset = push before r

variable [NeZero n]

theorem yieldsWith_gtcur {s t : Table n} {a : Action n} (calls : yieldsWith s a = some t) : t.gtcur = s.gtcur := by
  cases a with
  | work | go | resume | timers => cases calls
  | yield => cases calls; rfl
  | suspend => cases calls; rfl
  | delay tMs =>
    rw [yieldsWith] at calls
    split at calls
    · cases calls
    · cases calls; rfl
  | stop =>
    rw [yieldsWith] at calls
    split at calls
    · cases calls; rfl
    · cases calls

/-- All that an action does: a yield, or a change of the table and of registers in place. -/
theorem step_cases {build : Build} {m t : Machine n} {a : Action n} (taken : step build m a = some t) :
    (∃ s, yieldsWith m.table a = some s ∧ t = yield build m s) ∨
      (yieldsWith m.table a = none ∧ t = inPlace m a) := by
  cases calls : yieldsWith m.table a with
  | none =>
    refine .inr ⟨rfl, ?_⟩
    simp only [step, calls] at taken
    exact (Option.some.inj taken).symm
  | some s =>
    refine .inl ⟨s, rfl, ?_⟩
    cases a with
    | work | go | resume | timers => cases calls
    | yield | suspend | delay =>
      simp only [step, calls] at taken
      exact (Option.some.inj taken).symm
    | stop =>
      simp only [step, calls] at taken
      split at taken
      · exact (Option.some.inj taken).symm
      · cases taken

omit [NeZero n] in
theorem yield_switches (build : Build) (m : Machine n) {s t : Table n} (finds : gtYield s = (t, 1)) :
    yield build m s =
      let cpu := Cpu.swtch build { regs := m.regs, memory := m.memory, rdi := s.gtcur, rsi := t.gtcur }
      { table := t, regs := cpu.regs, memory := cpu.memory,
        called := Function.update m.called s.gtcur (some m.regs) } := by
  rw [yield, finds]
  exact if_pos rfl

omit [NeZero n] in
theorem yield_stays (build : Build) (m : Machine n) {s : Table n} (none : ∀ r, s.stateOf r ≠ .Ready) :
    yield build m s = { m with table := s } := by
  rcases gtYield_cases s with ⟨p, first, -⟩ | ⟨-, same⟩
  · exact absurd first.1 (none p)
  · rw [yield, same]
    exact if_neg (by omega)

omit [NeZero n] in
theorem create_invariant {build : Build} {m : Machine n} (holds : Invariant build m) (tName : Option Bytes)
    (stack : Option Word) : Invariant build (create m tName stack) := by
  have current : (gtGo m.table tName stack.isSome).1.gtcur = m.table.gtcur := by
    rcases gtGo_cases m.table tName stack.isSome with same | ⟨p, -, same⟩
    · rw [same]
    · rw [same, Table.set_gtcur]
  have idle : Invariant build { m with table := (gtGo m.table tName stack.isSome).1 } := by
    intro i before apart
    exact holds i before (current ▸ apart)
  unfold create
  split
  · next p top _ =>
    intro i before apart waits r offset field
    have waits : Function.update m.called p none i = some before := waits
    by_cases fresh : i = p
    · rw [fresh, Function.update_self] at waits
      cases waits
    · rw [Function.update_of_ne fresh] at waits
      show Function.update m.memory p _ i offset = _
      rw [Function.update_of_ne fresh]
      exact idle i before apart waits r offset field
  · exact idle

omit [NeZero n] in
theorem inPlace_invariant {build : Build} {m : Machine n} (holds : Invariant build m) (a : Action n) :
    Invariant build (inPlace m a) := by
  cases a with
  | work | yield | suspend | delay | stop => exact holds
  | go tName stack => exact create_invariant holds tName stack
  | resume tId =>
    intro i before apart
    rw [inPlace, gtResume_gtcur] at apart
    exact holds i before apart
  | timers =>
    intro i before apart
    rw [inPlace, gtManageTimers_gtcur] at apart
    exact holds i before apart

theorem step_invariant (build : Build) (m : Machine n) (a : Action n) (t : Machine n) (holds : Invariant build m)
    (taken : step build m a = some t) : Invariant build t := by
  rcases step_cases taken with ⟨s, calls, rfl⟩ | ⟨-, rfl⟩
  · have current := yieldsWith_gtcur calls
    rcases gtYield_cases s with ⟨p, -, finds⟩ | ⟨none, -⟩
    · rw [yield_switches build m finds]
      intro i before apart waits r offset field
      show (Cpu.swtch build _).memory i offset = _
      rw [swtch_memory build _ field]
      have waits : Function.update m.called s.gtcur (some m.regs) i = some before := waits
      rw [Function.update_apply] at waits
      split
      · next old =>
        rw [if_pos old] at waits
        rw [Option.some.inj waits]
      · next other =>
        rw [if_neg other] at waits
        exact holds i before (current ▸ other) waits r offset field
    · rw [yield_stays build m none]
      intro i before apart
      exact holds i before (current ▸ apart)
  · exact inPlace_invariant holds a

/-- The registers when a `gt_yield` returns: those with a field are as they were at its call, and the others
    as the thread that switched away left them. -/
theorem resumed_regs {build : Build} {m : Machine n} {a : Action n} (holds : Invariant build m)
    {before : Reg → Word} (returns : before ∈ resumed m a) :
    ∃ t, step build m a = some t ∧ (∀ r, (offsetOf build r).isSome → t.regs r = before r) ∧
      ∀ r, offsetOf build r = none → t.regs r = m.regs r := by
  obtain ⟨s, calls, waits⟩ := Option.bind_eq_some_iff.mp returns
  have current := yieldsWith_gtcur calls
  rcases gtYield_cases s with ⟨p, -, finds⟩ | ⟨none, same⟩
  · rw [finds] at waits
    have waits : Function.update m.called s.gtcur (some m.regs) p = some before := waits
    refine ⟨yield build m s, ?_, ?_⟩
    · cases a <;> simp only [step, calls, finds, if_true]
    rw [yield_switches build m finds]
    constructor
    · intro r hasField
      obtain ⟨offset, field⟩ := Option.isSome_iff_exists.mp hasField
      refine swtch_field build _ field (fun same => ?_) fun apart => ?_
      · have same : p = s.gtcur := same
        rw [same, Function.update_self] at waits
        exact (Option.some.inj waits).symm
      · have apart : p ≠ s.gtcur := apart
        rw [Function.update_of_ne apart] at waits
        exact holds p before (current ▸ apart) waits r offset field
    · intro r noField
      exact swtch_noField build _ noField
  · rw [same] at waits
    simp only at waits
    rw [if_neg (by omega)] at waits
    cases waits

theorem preserves_iff {build : Build} {m : Machine n} (holds : Invariant build m) (a : Action n) :
    Preserves build m a ↔ Undamaged build m a := by
  constructor
  · intro preserves before returns r callee noField
    obtain ⟨t, taken, -, left⟩ := resumed_regs holds returns
    rw [← left r noField]
    exact preserves t taken before returns r callee
  · intro undamaged t taken before returns r callee
    obtain ⟨u, taken', restored, left⟩ := resumed_regs holds returns
    obtain rfl := Option.some.inj (taken.symm.trans taken')
    cases field : offsetOf build r with
    | some offset => exact restored r (by simp [field])
    | none => rw [left r field]; exact undamaged before returns r callee field

/-! ### Runs -/

theorem start_invariant (build : Build) (regs : Reg → Word) : Invariant build (start n regs) := by
  intro i before _ waits
  cases waits

/-- The structure of the cooperative build has all the callee-saved registers. -/
theorem undamaged_cooperative (m : Machine n) (a : Action n) : Undamaged .cooperative m a := by
  intro before _ r callee noField
  have all : ∀ r ∈ calleeSaved, offsetOf .cooperative r ≠ none := by decide
  exact absurd noField (all r callee)

/-- Every `gt_yield` that returns in a run keeps the callee-saved registers if and only if the build is the
    cooperative one, or each time the other thread had left those without a field alone. -/
theorem registers_kept (build : Build) (regs : Reg → Word) (actions : List (Action n)) :
    AllSteps (step build) (Preserves build) (start n regs) actions ↔
      build = .cooperative ∨ AllSteps (step build) (Undamaged build) (start n regs) actions := by
  have holds := start_invariant (n := n) build regs
  constructor
  · intro preserved
    exact .inr (allSteps_of (fun m a t inv _ taken => step_invariant build m a t inv taken)
      (fun m a inv => (preserves_iff inv a).mp) holds preserved)
  · intro undamaged
    have undamaged : AllSteps (step build) (Undamaged build) (start n regs) actions := by
      rcases undamaged with rfl | undamaged
      · exact allSteps_all undamaged_cooperative _ actions
      · exact undamaged
    exact allSteps_of (fun m a t inv _ taken => step_invariant build m a t inv taken)
      (fun m a inv => (preserves_iff inv a).mpr) holds undamaged

theorem registers_kept_sample :
    AllSteps (step .cooperative) (Preserves .cooperative) (start 5 fun _ => 0)
      [.go none (some 0x400000), .work fun _ => 1, .yield, .work fun _ => 2, .yield] :=
  (registers_kept .cooperative _ _).mpr (.inl rfl)

/-- In the preemptive build a thread that puts 2 into every register before it yields leaves it in `rbx` to the
    thread that had 1 there when it called `gt_yield`. -/
theorem registers_lost :
    let actions : List (Action 5) :=
      [.go none (some 0x400000), .work fun _ => 1, .yield, .work fun _ => 2, .yield]
    ¬ AllSteps (step .preemptive) (Preserves .preemptive) (start 5 fun _ => 0) actions := by
  intro actions preserved
  obtain ⟨m, run, seen⟩ : ∃ m, exec (step .preemptive) (start 5 fun _ => 0) (actions.take 4) = some m ∧
      ((step .preemptive m .yield).map fun t => t.regs .rbx, (resumed m .yield).map fun before => before .rbx) =
        (some 2, some 1) :=
    Option.map_eq_some_iff.mp (by decide)
  rw [Prod.mk.injEq, Option.map_eq_some_iff, Option.map_eq_some_iff] at seen
  obtain ⟨⟨t, taken, after⟩, before, returns, had⟩ := seen
  have preserved : AllSteps (step .preemptive) (Preserves .preemptive) _ (actions.take 4 ++ [.yield]) := preserved
  have last := (allSteps_append.mp preserved).2 m run
  have same := last.1 t taken before returns .rbx (by decide)
  rw [after, had] at same
  exact absurd same (by decide)

end

end OsyProg.ContextSwitch
