import OsyProg.Gthreads
import OsyProg.Runs

/-!
The preemptive build, statement by statement. Every execution is a stack of
frames (`Frame`), and SIGALRM may start `gt_sig_handle` on top of any of them, also
on top of another handler. Without a signal the statements of `gt_yield` do what
`gtYield` does in one step (`yield_uninterrupted`). A signal between the `if` that
makes the old thread ready and `g_gtcur = p` finds the table half changed, and leaves
two slots running (`yield_disturbed`); when none comes there, every `g_gtcur = p`
leaves the current slot the only one that is running (`yield_alone`).
-/
namespace OsyProg.Preemption
open OsyProg.Bytes OsyProg.Cyclic OsyProg.Gthreads OsyProg.Runs

/-- The statement of `gt_yield` that comes next, with the locals it needs. -/
inductive YieldPc (n : ℕ)
  | clearCount                                  -- l_no_ready = 0
  | start (noReady : ℕ)                         -- p = g_gtcur
  | test (p : Fin n) (noReady : ℕ)              -- while ( p -> thread_state != Ready )
  | count (p : Fin n) (noReady : ℕ)             -- if ( Blocked || Suspended ) l_no_ready++
  | advance (p : Fin n) (noReady : ℕ)           -- if ( ++p == end ) p = & g_gttbl[ 0 ]
  | testBack (p : Fin n) (noReady : ℕ)          -- if ( p == g_gtcur ) return - l_no_ready
  | testOld (p : Fin n)                         -- if ( g_gtcur -> thread_state == Running )
  | readyOld (p : Fin n)                        -- g_gtcur -> thread_state = Ready
  | runNew (p : Fin n)                          -- p -> thread_state = Running
  | takeOld (p : Fin n)                         -- l_old = & g_gtcur -> regs
  | takeNew (p old : Fin n)                     -- l_new = & p -> regs
  | setCur (p old new : Fin n)                  -- g_gtcur = p
  | switch (old new : Fin n)                    -- gt_pree_swtch( l_old, l_new )
  | returnOne                                   -- return 1
  deriving DecidableEq

inductive DelayPc
  | test (tMs : ℤ) | divide (tMs : ℤ) | clamp (ticks : ℤ) | setTicks (ticks : ℤ) | setBlocked | call | back
  deriving DecidableEq

inductive SuspendPc
  | setSuspended | call | back
  deriving DecidableEq

inductive StopPc
  | test | setUnused | call | check
  deriving DecidableEq

inductive HandlerPc
  | maskReset | timers | call | called | setStatus (result : ℤ) | back
  deriving DecidableEq

/-- One activation on the stack of an execution; `user` is the code of the thread
    that was created for slot `owner`. -/
inductive Frame (n : ℕ)
  | user (owner : Fin n)
  | yield (pc : YieldPc n)
  | delay (pc : DelayPc)
  | suspend (pc : SuspendPc)
  | stop (pc : StopPc)
  | handler (pc : HandlerPc)
  deriving DecidableEq

/-- The table, `g_gt_yield_status`, the frames of the running execution, innermost
    first, and those saved for each slot. -/
structure Machine (n : ℕ) where
  table : Table n
  yieldStatus : ℤ
  stack : List (Frame n)
  saved : Fin n → List (Frame n)

/-- What the code of a thread may call. -/
inductive Call (n : ℕ)
  | go (tName : Option Bytes) (stack : Bool)
  | yield
  | stop
  | suspend
  | delay (tMs : ℤ)
  | resume (tId : Fin n)

/-- The next statement of the innermost function, a call made by the code of the
    running thread, or SIGALRM. -/
inductive Move (n : ℕ)
  | run
  | call (c : Call n)
  | signal

section
variable {n : ℕ}

/-- `gt_yield` returns to the frame below it. -/
def returned (result : ℤ) : List (Frame n) → List (Frame n)
  | .handler .called :: rest => .handler (.setStatus result) :: rest
  | rest => rest

/-- One statement of `gt_yield`, called from the frames `rest`. -/
def runYield (m : Machine n) (rest : List (Frame n)) : YieldPc n → Machine n
  | .clearCount => { m with stack := .yield (.start 0) :: rest }
  | .start noReady => { m with stack := .yield (.test m.table.gtcur noReady) :: rest }
  | .test p noReady =>
    if m.table.stateOf p = .Ready then { m with stack := .yield (.testOld p) :: rest }
    else { m with stack := .yield (.count p noReady) :: rest }
  | .count p noReady =>
    { m with stack := .yield (.advance p (if Waiting m.table p then noReady + 1 else noReady)) :: rest }
  | .advance p noReady => { m with stack := .yield (.testBack (next p) noReady) :: rest }
  | .testBack p noReady =>
    if p = m.table.gtcur then { m with stack := returned (-noReady) rest }
    else { m with stack := .yield (.test p noReady) :: rest }
  | .testOld p =>
    if m.table.stateOf m.table.gtcur = .Running then { m with stack := .yield (.readyOld p) :: rest }
    else { m with stack := .yield (.runNew p) :: rest }
  | .readyOld p => { m with table := m.table.setState m.table.gtcur .Ready, stack := .yield (.runNew p) :: rest }
  | .runNew p => { m with table := m.table.setState p .Running, stack := .yield (.takeOld p) :: rest }
  | .takeOld p => { m with stack := .yield (.takeNew p m.table.gtcur) :: rest }
  | .takeNew p old => { m with stack := .yield (.setCur p old p) :: rest }
  | .setCur p old new => { m with table := { m.table with gtcur := p }, stack := .yield (.switch old new) :: rest }
  | .switch old new =>
    let saved := Function.update m.saved old (.yield .returnOne :: rest)
    { m with stack := saved new, saved := saved }
  | .returnOne => { m with stack := returned 1 rest }

/-- The next statement of the innermost function. There is none when the assertion
    in `gt_stop` ends the program, or when the code of the thread runs. -/
def runNext [NeZero n] (m : Machine n) : Option (Machine n) :=
  match m.stack with
  | .yield pc :: rest => some (runYield m rest pc)
  | .delay (.test tMs) :: rest =>
    some { m with stack := if tMs ≤ 0 then rest else .delay (.divide tMs) :: rest }
  | .delay (.divide tMs) :: rest => some { m with stack := .delay (.clamp (tMs.tdiv TimePeriod)) :: rest }
  | .delay (.clamp ticks) :: rest =>
    some { m with stack := .delay (.setTicks (if ticks ≤ 0 then 1 else ticks)) :: rest }
  | .delay (.setTicks ticks) :: rest =>
    let cur := m.table.gtcur
    some { m with table := m.table.set cur { m.table.gttbl cur with delayTicks := ticks },
                  stack := .delay .setBlocked :: rest }
  | .delay .setBlocked :: rest =>
    some { m with table := m.table.setState m.table.gtcur .Blocked, stack := .delay .call :: rest }
  | .delay .call :: rest => some { m with stack := .yield .clearCount :: .delay .back :: rest }
  | .delay .back :: rest => some { m with stack := rest }
  | .suspend .setSuspended :: rest =>
    some { m with table := m.table.setState m.table.gtcur .Suspended, stack := .suspend .call :: rest }
  | .suspend .call :: rest => some { m with stack := .yield .clearCount :: .suspend .back :: rest }
  | .suspend .back :: rest => some { m with stack := rest }
  | .stop .test :: rest => some { m with stack := if m.table.gtcur ≠ 0 then .stop .setUnused :: rest else rest }
  | .stop .setUnused :: rest =>
    some { m with table := m.table.setState m.table.gtcur .Unused, stack := .stop .call :: rest }
  | .stop .call :: rest => some { m with stack := .yield .clearCount :: .stop .check :: rest }
  | .stop .check :: _ => none
  | .handler .maskReset :: rest => some { m with stack := .handler .timers :: rest }
  | .handler .timers :: rest =>
    some { m with table := gtManageTimers m.table, stack := .handler .call :: rest }
  | .handler .call :: rest => some { m with stack := .yield .clearCount :: .handler .called :: rest }
  | .handler .called :: _ => none
  | .handler (.setStatus result) :: rest => some { m with yieldStatus := result, stack := .handler .back :: rest }
  | .handler .back :: rest => some { m with stack := rest }
  | .user _ :: _ => none
  | [] => none

/-- A call made by the code of a thread; thread 0 does not block itself. `gt_go` and
    `gt_resume` are one step. -/
def makeCall [NeZero n] (m : Machine n) (c : Call n) : Option (Machine n) :=
  match m.stack with
  | .user owner :: _ =>
    match c with
    | .yield => some { m with stack := .yield .clearCount :: m.stack }
    | .stop => some { m with stack := .stop .test :: m.stack }
    | .suspend => if owner = 0 then none else some { m with stack := .suspend .setSuspended :: m.stack }
    | .delay tMs => if owner = 0 then none else some { m with stack := .delay (.test tMs) :: m.stack }
    | .resume tId => some { m with table := gtResume m.table tId }
    | .go tName stack =>
      let (t, idx) := gtGo m.table tName stack
      some { m with table := t, saved := fun i => if (i.val : ℤ) = idx then [.user i] else m.saved i }
  | _ => none

/-- SIGALRM is blocked from the entry of the handler to `gt_sig_mask_reset`. -/
def deliver (m : Machine n) : Option (Machine n) :=
  match m.stack with
  | .handler .maskReset :: _ => none
  | _ => some { m with stack := .handler .maskReset :: m.stack }

def step [NeZero n] (m : Machine n) : Move n → Option (Machine n)
  | .run => runNext m
  | .call c => makeCall m c
  | .signal => deliver m

/-- The state `gt_init` leaves, in the code of thread 0. -/
def start (n : ℕ) [NeZero n] : Machine n :=
  { table := gtInit n, yieldStatus := 1, stack := [.user 0], saved := fun _ => [] }

/-- The current slot is running, and no other one. -/
def CurrentAlone (t : Table n) : Prop := t.stateOf t.gtcur = .Running ∧ ∀ i, t.stateOf i = .Running → i = t.gtcur

/-- No slot but the current one is marked running. -/
def NoneLeft (t : Table n) : Prop := ∀ i, t.stateOf i = .Running → i = t.gtcur

/-- The next statement is `g_gtcur = p`. -/
def Assigns (m : Machine n) : Prop := ∃ p old new rest, m.stack = .yield (.setCur p old new) :: rest

/-- The frame is not between the `if` of `gt_yield` that makes the old thread ready
    and the assignment `g_gtcur = p`. -/
def Calm : Frame n → Prop
  | .yield (.runNew _) | .yield (.takeOld _) | .yield (.takeNew _ _) | .yield (.setCur _ _ _) => False
  | _ => True

instance : DecidablePred (Calm (n := n))
  | .yield pc => by cases pc <;> first | exact isTrue trivial | exact isFalse id
  | .user _ | .delay _ | .suspend _ | .stop _ | .handler _ => isTrue trivial

/-- A signal comes only while the innermost frame is not in that part of `gt_yield`. -/
def Undisturbed (m : Machine n) : Move n → Prop
  | .signal => ∀ f ∈ m.stack.head?, Calm f
  | _ => True

instance (m : Machine n) : ∀ move : Move n, Decidable (Undisturbed m move)
  | .signal => inferInstanceAs (Decidable (∀ f ∈ m.stack.head?, Calm f))
  | .run | .call _ => isTrue trivial

/-! ### The invariant -/

/-- What the innermost frame says about the running slots. -/
def Marks (t : Table n) : Option (Frame n) → Prop
  | some (.yield (.runNew _)) => ∀ i, t.stateOf i ≠ .Running
  | some (.yield (.takeOld p)) | some (.yield (.takeNew p _)) | some (.yield (.setCur p _ _)) =>
    ∀ i, t.stateOf i = .Running ↔ i = p
  | _ => NoneLeft t

/-- The innermost frame knows the running slots, and every other frame is calm. -/
structure Invariant (m : Machine n) : Prop where
  top : Marks m.table m.stack.head?
  below : ∀ f ∈ m.stack.tail, Calm f
  saved : ∀ i, ∀ f ∈ m.saved i, Calm f

theorem marks_calm {t : Table n} {top : Option (Frame n)} (calm : ∀ f ∈ top, Calm f) : Marks t top ↔ NoneLeft t := by
  rcases top with _ | (owner | pc | pc | pc | pc | pc)
  · exact Iff.rfl
  · exact Iff.rfl
  · cases pc <;> first | exact Iff.rfl | exact (calm _ rfl).elim
  all_goals exact Iff.rfl

/-- A stack of calm frames over a table in which only the current slot may run. -/
theorem invariant_calm {m : Machine n} (calm : ∀ f ∈ m.stack, Calm f) (left : NoneLeft m.table)
    (saved : ∀ i, ∀ f ∈ m.saved i, Calm f) : Invariant m where
  top := (marks_calm fun f inside => calm f (List.mem_of_mem_head? inside)).mpr left
  below f inside := calm f (List.mem_of_mem_tail inside)
  saved := saved

theorem noneLeft_setState {t : Table n} (left : NoneLeft t) (p : Fin n) {state : ThreadState}
    (idle : state ≠ .Running) : NoneLeft (t.setState p state) := by
  intro i runs
  rw [Table.setState_stateOf] at runs
  split at runs
  · exact absurd runs idle
  · exact left i runs

theorem noneLeft_ticks {t : Table n} (left : NoneLeft t) (p : Fin n) (ticks : ℤ) :
    NoneLeft (t.set p { t.gttbl p with delayTicks := ticks }) := by
  intro i runs
  rw [Table.stateOf, Table.set_gttbl] at runs
  split at runs
  · next same => exact left i (same ▸ runs)
  · exact left i runs

theorem noneLeft_timers {t : Table n} (left : NoneLeft t) : NoneLeft (gtManageTimers t) := by
  intro i runs
  rw [gtManageTimers_gtcur]
  rcases gtManageTimers_stateOf t i with same | ⟨-, -, ready⟩
  · exact left i (same ▸ runs)
  · simp [ready] at runs

theorem noneLeft_resume {t : Table n} (left : NoneLeft t) (tId : Fin n) : NoneLeft (gtResume t tId) := by
  intro i runs
  rw [gtResume_gtcur]
  rw [gtResume_stateOf] at runs
  split at runs
  · simp at runs
  · exact left i runs

theorem noneLeft_go {t : Table n} (left : NoneLeft t) (tName : Option Bytes) (stack : Bool) :
    NoneLeft (gtGo t tName stack).1 := by
  rcases gtGo_cases t tName stack with same | ⟨p, -, same⟩
  · rw [same]; exact left
  · rw [same]
    intro i runs
    rw [Table.stateOf, Table.set_gttbl] at runs
    split at runs
    · simp at runs
    · exact left i runs

theorem returned_calm (result : ℤ) {rest : List (Frame n)} (calm : ∀ f ∈ rest, Calm f) :
    ∀ f ∈ returned result rest, Calm f := by
  unfold returned
  split
  · intro f inside
    rcases List.mem_cons.mp inside with rfl | further
    · trivial
    · exact calm f (List.mem_cons_of_mem _ further)
  · exact calm

/-- A frame that may be innermost, over calm ones. -/
theorem invariant_push {m : Machine n} {f : Frame n} {rest : List (Frame n)} {t : Table n} (marks : Marks t (some f))
    (calm : ∀ g ∈ rest, Calm g) (saved : ∀ i, ∀ g ∈ m.saved i, Calm g) :
    Invariant { m with table := t, stack := f :: rest } where
  top := marks
  below := calm
  saved := saved

theorem runYield_invariant {m : Machine n} {pc : YieldPc n} {rest : List (Frame n)}
    (stack : m.stack = .yield pc :: rest) (holds : Invariant m) : Invariant (runYield m rest pc) := by
  have marks : Marks m.table (some (.yield pc)) := by simpa [stack] using holds.top
  have calm : ∀ f ∈ rest, Calm f := by simpa [stack] using holds.below
  cases pc with
  | clearCount | start | count | advance => exact invariant_push marks calm holds.saved
  | test p noReady =>
    rw [runYield]
    split
    · exact invariant_push marks calm holds.saved
    · exact invariant_push marks calm holds.saved
  | testBack p noReady =>
    rw [runYield]
    split
    · exact invariant_calm (returned_calm _ calm) marks holds.saved
    · exact invariant_push marks calm holds.saved
  | testOld p =>
    rw [runYield]
    split
    · exact invariant_push marks calm holds.saved
    · next idle =>
      refine invariant_push ?_ calm holds.saved
      intro i runs
      exact idle (marks i runs ▸ runs)
  | readyOld p =>
    refine invariant_push ?_ calm holds.saved
    intro i runs
    rw [Table.setState_stateOf] at runs
    split at runs
    · simp at runs
    · next other => exact other (marks i runs)
  | runNew p =>
    refine invariant_push ?_ calm holds.saved
    intro i
    rw [Table.setState_stateOf]
    split
    · next same => simp [same]
    · next other => simp [other, marks i]
  | takeOld p | takeNew p old => exact invariant_push marks calm holds.saved
  | setCur p old new =>
    refine invariant_push ?_ calm holds.saved
    intro i runs
    exact (marks i).mp runs
  | switch old new =>
    have saved : ∀ i, ∀ f ∈ Function.update m.saved old (.yield .returnOne :: rest) i, Calm f := by
      intro i f inside
      rw [Function.update_apply] at inside
      split at inside
      · rcases List.mem_cons.mp inside with rfl | further
        · trivial
        · exact calm f further
      · exact holds.saved i f inside
    exact invariant_calm (saved new) marks saved
  | returnOne => exact invariant_calm (returned_calm _ calm) marks holds.saved

/-- A calm innermost frame replaced by calm frames. -/
theorem invariant_replace {m : Machine n} {f : Frame n} {rest : List (Frame n)} (stack : m.stack = f :: rest)
    (calm : Calm f) (holds : Invariant m) {t : Table n} (left : NoneLeft m.table → NoneLeft t) (status : ℤ)
    {frames : List (Frame n)} (onward : (∀ g ∈ rest, Calm g) → ∀ g ∈ frames, Calm g) :
    Invariant { table := t, yieldStatus := status, stack := frames, saved := m.saved } := by
  have marks : NoneLeft m.table := (marks_calm (by simpa [stack] using calm)).mp holds.top
  have below : ∀ g ∈ rest, Calm g := by simpa [stack] using holds.below
  exact invariant_calm (onward below) (left marks) holds.saved

variable [NeZero n]

/-- Outside `gt_yield` a statement finds only calm frames and leaves only calm ones. -/
theorem runNext_invariant {m t : Machine n} (taken : runNext m = some t) (holds : Invariant m) : Invariant t := by
  have one : ∀ {f : Frame n} {rest : List (Frame n)}, Calm f → (∀ g ∈ rest, Calm g) → ∀ g ∈ f :: rest, Calm g :=
    fun calm below => List.forall_mem_cons.mpr ⟨calm, below⟩
  have two : ∀ {f g : Frame n} {rest : List (Frame n)}, Calm f → Calm g → (∀ h ∈ rest, Calm h) →
      ∀ h ∈ f :: g :: rest, Calm h := fun calm calm' below => one calm (one calm' below)
  unfold runNext at taken
  split at taken
  · next pc rest stack =>
    obtain rfl := Option.some.inj taken
    exact runYield_invariant stack holds
  all_goals cases taken
  -- gt_delay
  · next tMs rest stack =>
    apply invariant_replace stack trivial holds id _
    intro below
    split
    · exact below
    · exact one trivial below
  · next tMs rest stack => exact invariant_replace stack trivial holds id _ (one trivial)
  · next ticks rest stack => exact invariant_replace stack trivial holds id _ (one (by split <;> trivial))
  · next ticks rest stack =>
    exact invariant_replace stack trivial holds (fun left => noneLeft_ticks left _ ticks) _ (one trivial)
  · next stack =>
    exact invariant_replace stack trivial holds (fun left => noneLeft_setState left _ (by simp)) _ (one trivial)
  · next stack => exact invariant_replace stack trivial holds id _ (two trivial trivial)
  · next stack => exact invariant_replace stack trivial holds id _ id
  -- gt_suspend
  · next stack =>
    exact invariant_replace stack trivial holds (fun left => noneLeft_setState left _ (by simp)) _ (one trivial)
  · next stack => exact invariant_replace stack trivial holds id _ (two trivial trivial)
  · next stack => exact invariant_replace stack trivial holds id _ id
  -- gt_stop
  · next rest stack =>
    apply invariant_replace stack trivial holds id _
    intro below
    split
    · exact one trivial below
    · exact below
  · next stack =>
    exact invariant_replace stack trivial holds (fun left => noneLeft_setState left _ (by simp)) _ (one trivial)
  · next stack => exact invariant_replace stack trivial holds id _ (two trivial trivial)
  -- gt_sig_handle
  · next stack => exact invariant_replace stack trivial holds id _ (one trivial)
  · next stack => exact invariant_replace stack trivial holds noneLeft_timers _ (one trivial)
  · next stack => exact invariant_replace stack trivial holds id _ (two trivial trivial)
  · next stack => exact invariant_replace stack trivial holds id _ (one trivial)
  · next stack => exact invariant_replace stack trivial holds id _ id

/-- A call adds one calm frame, or changes the table without running a slot. -/
theorem makeCall_invariant {m t : Machine n} {c : Call n} (taken : makeCall m c = some t) (holds : Invariant m) :
    Invariant t := by
  unfold makeCall at taken
  split at taken
  swap
  · cases taken
  next owner rest stack =>
  have below : ∀ g ∈ rest, Calm g := by simpa [stack] using holds.below
  have calm : ∀ g ∈ m.stack, Calm g := by
    rw [stack]
    exact List.forall_mem_cons.mpr ⟨trivial, below⟩
  have left : NoneLeft m.table := (marks_calm (by simp [stack, Calm])).mp holds.top
  have push : ∀ f : Frame n, Calm f → Invariant { m with stack := f :: m.stack } := by
    intro f calmF
    exact invariant_calm (List.forall_mem_cons.mpr ⟨calmF, calm⟩) left holds.saved
  cases c with
  | yield => cases taken; exact push _ trivial
  | stop => cases taken; exact push _ trivial
  | suspend =>
    simp only at taken
    split at taken
    · cases taken
    · cases taken; exact push _ trivial
  | delay tMs =>
    simp only at taken
    split at taken
    · cases taken
    · cases taken; exact push _ trivial
  | resume tId => cases taken; exact invariant_calm calm (noneLeft_resume left tId) holds.saved
  | go tName stack =>
    cases taken
    refine invariant_calm calm (noneLeft_go left tName stack) fun i f inside => ?_
    have kept : f ∈ if (i.val : ℤ) = (gtGo m.table tName stack).2 then [Frame.user i] else m.saved i := inside
    by_cases fresh : (i.val : ℤ) = (gtGo m.table tName stack).2
    · rw [if_pos fresh] at kept
      obtain rfl := List.mem_singleton.mp kept
      trivial
    · rw [if_neg fresh] at kept
      exact holds.saved i f kept

omit [NeZero n] in
/-- A signal adds the frame of its handler, on top of a calm one. -/
theorem deliver_invariant {m t : Machine n} (quiet : Undisturbed m .signal) (taken : deliver m = some t)
    (holds : Invariant m) : Invariant t := by
  have pushed : t = { m with stack := .handler .maskReset :: m.stack } := by
    unfold deliver at taken
    split at taken
    · cases taken
    · exact (Option.some.inj taken).symm
  have left : NoneLeft m.table := (marks_calm quiet).mp holds.top
  have calm : ∀ f ∈ m.stack, Calm f := by
    intro f inside
    cases stack : m.stack with
    | nil => simp [stack] at inside
    | cons g rest =>
      have below := holds.below
      rw [stack] at inside below
      rcases List.mem_cons.mp inside with rfl | further
      · exact quiet f (by simp [stack])
      · exact below f further
  rw [pushed]
  exact invariant_calm (List.forall_mem_cons.mpr ⟨trivial, calm⟩) left holds.saved

theorem step_invariant (m : Machine n) (move : Move n) (t : Machine n) (holds : Invariant m)
    (quiet : Undisturbed m move) (taken : step m move = some t) : Invariant t := by
  cases move with
  | run => exact runNext_invariant taken holds
  | call c => exact makeCall_invariant taken holds
  | signal => exact deliver_invariant quiet taken holds

theorem start_invariant : Invariant (start n) := by
  refine invariant_calm (by simp [start, Calm]) (fun i runs => ?_) (by simp [start])
  rw [start, gtInit_stateOf] at runs
  split at runs
  · next main => exact main
  · cases runs

/-! ### Runs -/

/-- In a run without a signal in that part of `gt_yield` no slot but the current one is marked running while the
    innermost frame is calm, and every `g_gtcur = p` leaves the current slot the only one that is running. -/
theorem yield_alone {moves : List (Move n)} {m : Machine n} (quiet : AllSteps step Undisturbed (start n) moves)
    (run : exec step (start n) moves = some m) :
    ((∀ f ∈ m.stack.head?, Calm f) → NoneLeft m.table) ∧
      (Assigns m → ∀ t, step m .run = some t → CurrentAlone t.table) := by
  have holds : Invariant m := exec_kept_of step_invariant start_invariant quiet run
  constructor
  · intro calm
    exact (marks_calm calm).mp holds.top
  · rintro ⟨p, old, new, rest, stack⟩ t taken
    have marks : Marks m.table (some (.yield (.setCur p old new))) := by simpa [stack] using holds.top
    simp only [step, runNext, stack, runYield] at taken
    obtain rfl := Option.some.inj taken
    exact ⟨(marks p).mpr rfl, fun i runs => (marks i).mp runs⟩

theorem yield_alone_sample :
    ∃ m : Machine 5, Assigns m ∧ ((∀ f ∈ m.stack.head?, Calm f) → NoneLeft m.table) ∧
      (Assigns m → ∀ t, step m .run = some t → CurrentAlone t.table) := by
  let moves : List (Move 5) :=
    [.call (.go none true), .signal] ++ List.replicate 15 .run
  obtain ⟨m, run, stack⟩ : ∃ m, exec step (start 5) moves = some m ∧
      m.stack = [.yield (.setCur 1 0 1), .handler .called, .user 0] :=
    Option.map_eq_some_iff.mp (by decide)
  have quiet : AllSteps step Undisturbed (start 5) moves := by decide
  exact ⟨m, ⟨1, 0, 1, _, stack⟩, yield_alone quiet run⟩

/-- A signal before `g_gtcur = p` finds the new thread running and the old one ready, and switches from the
    old thread to itself: two slots are running then, and one of them is not current. -/
theorem yield_disturbed :
    let moves : List (Move 5) :=
      [.call (.go none true), .call .yield] ++ List.replicate 10 .run ++ [.signal] ++ List.replicate 10 .run
    ∃ m, exec step (start 5) moves = some m ∧ Assigns m ∧
      ¬ ∀ t, step m .run = some t → CurrentAlone t.table := by
  intro moves
  obtain ⟨m, run, seen⟩ : ∃ m, exec step (start 5) moves = some m ∧
      (m.stack, (step m .run).map fun t => (t.table.gtcur, t.table.stateOf 1)) =
        ([.yield (.setCur 0 0 0), .handler .called, .yield (.takeOld 1), .user 0], some (0, .Running)) :=
    Option.map_eq_some_iff.mp (by decide)
  rw [Prod.mk.injEq, Option.map_eq_some_iff] at seen
  obtain ⟨stack, t, taken, marks⟩ := seen
  refine ⟨m, run, ⟨0, 0, 0, _, stack⟩, ?_⟩
  intro alone
  obtain ⟨current, running⟩ := Prod.mk.injEq .. ▸ marks
  have same := (alone t taken).2 1 running
  rw [current] at same
  cases same

/-! ### Without a signal -/

/-- What the statements of `gt_yield` from the scan on come to. -/
def scanned (m : Machine n) (rest : List (Frame n)) : Scan n → Machine n
  | .found p => { m with stack := .yield (.testOld p) :: rest }
  | .noReady count => { m with stack := returned (-count) rest }

/-- One round of the loop, at a slot that is not ready. -/
theorem round_uninterrupted (m : Machine n) (rest : List (Frame n)) (p : Fin n) (count : ℕ)
    (idle : m.table.stateOf p ≠ .Ready) :
    exec step { m with stack := .yield (.test p count) :: rest } (List.replicate 4 .run) =
      some { m with
        stack :=
          if (next p) = m.table.gtcur then returned (-(if Waiting m.table p then count + 1 else count : ℕ)) rest
          else .yield (.test (next p) (if Waiting m.table p then count + 1 else count)) :: rest } := by
  simp only [List.replicate, exec, step, runNext, runYield, idle, if_false, Option.bind_some, Option.some.injEq]
  split <;> rfl

/-- The statements of the loop do what `scan` does. -/
theorem scan_uninterrupted (rounds : ℕ) (m : Machine n) (rest : List (Frame n)) (p : Fin n) (count : ℕ)
    {outcome : Scan n} (ends : scan m.table rounds p count = some outcome) :
    ∃ steps, exec step { m with stack := .yield (.test p count) :: rest } (List.replicate steps .run) =
      some (scanned m rest outcome) := by
  induction rounds generalizing p count with
  | zero => cases ends
  | succ rounds ih =>
    rw [scan] at ends
    by_cases ready : m.table.stateOf p = .Ready
    · rw [if_pos ready] at ends
      cases ends
      exact ⟨1, by simp [exec, step, runNext, runYield, ready, scanned]⟩
    · rw [if_neg ready] at ends
      simp only at ends
      have round := round_uninterrupted m rest p count ready
      by_cases back : next p = m.table.gtcur
      · rw [if_pos back] at ends round
        cases ends
        exact ⟨4, round⟩
      · rw [if_neg back] at ends round
        obtain ⟨steps, onward⟩ := ih (next p) _ ends
        refine ⟨4 + steps, ?_⟩
        rw [List.replicate_add]
        exact exec_append_iff.mpr ⟨_, round, onward⟩

/-- From a ready slot on, the statements do what `switchTo` does, and leave the
    frames of the old thread with its slot. -/
theorem switch_uninterrupted (m : Machine n) (rest : List (Frame n)) (p : Fin n) :
    ∃ steps, exec step { m with stack := .yield (.testOld p) :: rest } (List.replicate steps .run) =
      some { m with
        table := switchTo m.table p
        stack := Function.update m.saved m.table.gtcur (.yield .returnOne :: rest) p
        saved := Function.update m.saved m.table.gtcur (.yield .returnOne :: rest) } := by
  let before : Machine n := { m with stack := .yield (.testOld p) :: rest }
  by_cases runs : m.table.stateOf m.table.gtcur = .Running
  · have tested : step before .run = some { m with stack := .yield (.readyOld p) :: rest } := by
      simp only [before, step, runNext, runYield, runs, if_true]
    have table : switchTo m.table p =
        { (m.table.setState m.table.gtcur .Ready).setState p .Running with gtcur := p } := by
      simp only [switchTo, runs, if_true]
    refine ⟨7, exec_cons_iff.mpr ⟨_, tested, ?_⟩⟩
    rw [table]
    rfl
  · have tested : step before .run = some { m with stack := .yield (.runNew p) :: rest } := by
      simp only [before, step, runNext, runYield, runs, if_false]
    have table : switchTo m.table p = { m.table.setState p .Running with gtcur := p } := by
      simp only [switchTo, runs, if_false]
    refine ⟨6, exec_cons_iff.mpr ⟨_, tested, ?_⟩⟩
    rw [table]
    rfl

/-- Left alone, the statements of `gt_yield` end at the switch, in the frames of the first ready slot, or return
    to the caller; the table and the result are those of `gtYield`. -/
theorem yield_uninterrupted {m : Machine n} {rest : List (Frame n)} (called : m.stack = .yield .clearCount :: rest) :
    ∃ steps t, exec step m (List.replicate steps .run) = some t ∧ t.table = (gtYield m.table).1 ∧
      ((gtYield m.table).2 = 1 ∧ t.saved = Function.update m.saved m.table.gtcur (.yield .returnOne :: rest) ∧
          t.stack = t.saved t.table.gtcur ∨
        t.saved = m.saved ∧ t.stack = returned (gtYield m.table).2 rest) := by
  have entry : exec step m (List.replicate 2 .run) = some { m with stack := .yield (.test m.table.gtcur 0) :: rest } := by
    simp [List.replicate, exec, step, runNext, runYield, called]
  rcases scan_spec m.table with ⟨p, found, -⟩ | ⟨counted, none⟩
  · have result : gtYield m.table = (switchTo m.table p, 1) := by rw [gtYield, found]
    obtain ⟨looped, scan⟩ := scan_uninterrupted n m rest m.table.gtcur 0 found
    obtain ⟨more, switched⟩ := switch_uninterrupted m rest p
    have run := exec_append_iff.mpr ⟨_, entry, exec_append_iff.mpr ⟨_, scan, switched⟩⟩
    rw [← List.replicate_add, ← List.replicate_add] at run
    exact ⟨_, _, run, by rw [result], .inl ⟨by rw [result], rfl, rfl⟩⟩
  · have result : gtYield m.table = (m.table, -((Finset.univ.filter (Waiting m.table)).card : ℤ)) := by
      rw [gtYield, counted]
    obtain ⟨looped, scan⟩ := scan_uninterrupted n m rest m.table.gtcur 0 counted
    have run := exec_append_iff.mpr ⟨_, entry, scan⟩
    rw [← List.replicate_add] at run
    exact ⟨_, _, run, by rw [result]; rfl, .inr ⟨rfl, by rw [result]; rfl⟩⟩

end

end OsyProg.Preemption
