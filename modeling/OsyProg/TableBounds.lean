import OsyProg.Gthreads
import OsyProg.Runs

/-!
The functions of `osy-gthreads-main/gthr.c` on pointers. Here `g_gttbl` lies in a
memory that goes on before and behind it, every pointer is an index that may be
outside, and the indices that are used are kept (`Memory`). Each function does what
it does to the table of `OsyProg.Gthreads` and stays inside (`Represents`,
`perform_represents`), except `gt_resume` with an id outside the table. Such an id is
the -1 of a `gt_go` without success, which a program passes on unchecked
(`inside_iff`).
-/
namespace OsyProg.TableBounds
open OsyProg.Bytes OsyProg.Cyclic OsyProg.Runs
open OsyProg.Gthreads (ThreadState Context Table tick delayOf threadName)

/-- The memory around `g_gttbl` as slots, `g_gtcur` as an index, every index that was
    used, and what the calls of `gt_go` have returned. -/
structure Memory where
  gttbl : ℤ → Context
  gtcur : ℤ
  used : List ℤ
  returned : List ℤ

namespace Memory

/-- A use of the slot at `p`. -/
def touch (s : Memory) (p : ℤ) : Memory := { s with used := s.used ++ [p] }

/-- A use of the slot at `p` that changes it. -/
def store (s : Memory) (p : ℤ) (context : Context) : Memory :=
  { s.touch p with gttbl := Function.update s.gttbl p context }

def stateOf (s : Memory) (p : ℤ) : ThreadState := (s.gttbl p).threadState

/-- `p->thread_state = state` -/
def setState (s : Memory) (p : ℤ) (state : ThreadState) : Memory := s.store p { s.gttbl p with threadState := state }

end Memory

/-! ### The functions of gthr.c -/

section
variable (n : ℕ)

/-- `gt_init` -/
def gtInit (s : Memory) : Memory :=
  let s := (List.range n).foldl (fun (s : Memory) (i : ℕ) => s.store i ⟨.Unused, i, 0, []⟩) s
  { s with gtcur := 0 }.store 0 ⟨.Running, 0, 0, ascii ['M', 'a', 'i', 'n']⟩

inductive Scan
  | found (p : ℤ)
  | noReady (count : ℕ)
  deriving DecidableEq

/-- The `while` loop of `gt_yield`, with at most the given number of rounds, and the
    indices it uses. -/
def scan (s : Memory) : ℕ → ℤ → ℕ → Option Scan × List ℤ
  | 0, _, _ => (none, [])
  | rounds + 1, p, noReady =>
    if s.stateOf p = .Ready then (some (.found p), [p])
    else
      let noReady := if s.stateOf p = .Blocked ∨ s.stateOf p = .Suspended then noReady + 1 else noReady
      let next := if p + 1 = n then 0 else p + 1
      if next = s.gtcur then (some (.noReady noReady), [p])
      else
        let (result, used) := scan s rounds next noReady
        (result, p :: used)

/-- The rest of `gt_yield` once the scan has found a ready slot; the registers are
    saved into the old slot and loaded from the new one. -/
def switchTo (s : Memory) (p : ℤ) : Memory :=
  let old := s.gtcur
  let s := s.touch old
  let s := if s.stateOf old = .Running then s.setState old .Ready else s
  let s := s.setState p .Running
  ({ s with gtcur := p }.touch old).touch p

/-- `gt_yield` -/
def gtYield (s : Memory) : Memory × ℤ :=
  let (result, used) := scan n s n s.gtcur 0
  let s := { s with used := s.used ++ used }
  match result with
  | some (.found p) => (switchTo s p, 1)
  | some (.noReady count) => (s, -count)
  | none => (s, 0)

/-- The first `for` loop of `gt_go`, with at most the given number of rounds. -/
def findUnused (s : Memory) : ℕ → ℤ → Option ℤ × List ℤ
  | 0, _ => (none, [])
  | rounds + 1, p =>
    if p = n then (none, [])
    else if s.stateOf p = .Unused then (some p, [p])
    else
      let (result, used) := findUnused s rounds (p + 1)
      (result, p :: used)

/-- `gt_go`; `stack` tells whether `malloc` gives the stack. -/
def gtGo (s : Memory) (tName : Option Bytes) (stack : Bool) : Memory × ℤ :=
  let (slot, used) := findUnused n s (n + 1) 0
  let s := { s with used := s.used ++ used }
  match slot with
  | none => (s, -1)
  | some p =>
    if stack then
      (s.store p { threadState := .Ready, delayTicks := 0, id := p, name := threadName tName p.toNat }, p)
    else (s, -1)

/-- `gt_stop`, up to the assertion after its `gt_yield`. -/
def gtStop (s : Memory) : Memory :=
  if s.gtcur ≠ 0 then (gtYield n (s.setState s.gtcur .Unused)).1 else s

/-- `gt_suspend` -/
def gtSuspend (s : Memory) : Memory := (gtYield n (s.setState s.gtcur .Suspended)).1

/-- `gt_delay` -/
def gtDelay (s : Memory) (tMs : ℤ) : Memory :=
  if tMs ≤ 0 then s
  else (gtYield n (s.store s.gtcur { s.gttbl s.gtcur with delayTicks := delayOf tMs, threadState := .Blocked })).1

/-- `gt_resume`, for any id. -/
def gtResume (s : Memory) (tId : ℤ) : Memory :=
  let s := s.touch tId
  if s.stateOf tId = .Suspended then s.setState tId .Ready else s

/-- `gt_manage_timers` -/
def gtManageTimers (s : Memory) : Memory :=
  (List.range n).foldl (fun (s : Memory) (i : ℕ) => s.store i (tick (s.gttbl i))) s

/-- `gt_sig_handle` -/
def gtSigHandle (s : Memory) : Memory := (gtYield n (gtManageTimers n s)).1

/-- A line of `gt_task_list`: the mark of the current thread, the id, the state and
    the name. -/
structure TaskLine where
  mark : Bool
  id : ℤ
  state : ThreadState
  name : Bytes
  deriving DecidableEq

/-- `gt_task_list` -/
def gtTaskList (s : Memory) : Memory × List TaskLine :=
  (List.range n).foldl (fun (s, lines) (i : ℕ) =>
    let c := s.gttbl i
    (s.touch i, if c.threadState ≠ .Unused then lines ++ [⟨i = s.gtcur, c.id, c.threadState, c.name⟩] else lines)) (s, [])

/-! ### Runs -/

/-- What the program may call, and the timer signal. -/
inductive Op
  | go (tName : Option Bytes) (stack : Bool)
  | yield
  | stop
  | suspend
  | delay (tMs : ℤ)
  | resume (tId : ℤ)
  | manageTimers
  | sigHandle
  | taskList
  deriving DecidableEq

def perform (s : Memory) : Op → Memory
  | .go tName stack =>
    let (s, idx) := gtGo n s tName stack
    { s with returned := s.returned ++ [idx] }
  | .yield => (gtYield n s).1
  | .stop => gtStop n s
  | .suspend => gtSuspend n s
  | .delay tMs => gtDelay n s tMs
  | .resume tId => gtResume s tId
  | .manageTimers => gtManageTimers n s
  | .sigHandle => gtSigHandle n s
  | .taskList => (gtTaskList n s).1

def step (s : Memory) (op : Op) : Option Memory := some (perform n s op)

/-- The state after `gt_init`, in any memory. -/
def start (gttbl : ℤ → Context) : Memory := gtInit n { gttbl, gtcur := 0, used := [], returned := [] }

end

/-! ### Staying inside the table -/

/-- An index into `g_gttbl`. -/
def InTable (n : ℕ) (p : ℤ) : Prop := 0 ≤ p ∧ p < n

instance (n : ℕ) (p : ℤ) : Decidable (InTable n p) := inferInstanceAs (Decidable (_ ∧ _))

/-- What a `gt_go` without success returns. -/
def failure : ℤ := -1

/-- The memory holds the table, only slots of it were used, and `gt_go` has returned
    nothing else but -1. -/
structure Represents {n : ℕ} (s : Memory) (t : Table n) : Prop where
  gtcur : s.gtcur = t.gtcur.val
  slots : ∀ i : Fin n, s.gttbl i.val = t.gttbl i
  inside : ∀ p ∈ s.used, InTable n p
  returned : ∀ tId ∈ s.returned, tId = failure ∨ InTable n tId

section
variable {n : ℕ} {s : Memory} {t : Table n}

theorem inTable_val (i : Fin n) : InTable n i.val := ⟨Int.natCast_nonneg _, Int.ofNat_lt.mpr i.isLt⟩

theorem InTable.exists_fin {p : ℤ} (inside : InTable n p) : ∃ i : Fin n, p = i.val := by
  obtain ⟨low, high⟩ := inside
  exact ⟨⟨p.toNat, by omega⟩, by simp [low]⟩

theorem Represents.stateOf (represents : Represents s t) (i : Fin n) : s.stateOf i.val = t.stateOf i := by
  rw [Memory.stateOf, represents.slots]
  rfl

theorem Represents.uses (represents : Represents s t) {used : List ℤ} (inside : ∀ p ∈ used, InTable n p) :
    Represents { s with used := s.used ++ used } t where
  gtcur := represents.gtcur
  slots := represents.slots
  inside := fun p among => (List.mem_append.mp among).elim (represents.inside p) (inside p)
  returned := represents.returned

theorem Represents.touch (represents : Represents s t) (i : Fin n) : Represents (s.touch i.val) t :=
  represents.uses fun p among => by
    rw [List.mem_singleton.mp among]
    exact inTable_val i

theorem Represents.store (represents : Represents s t) (i : Fin n) (context : Context) :
    Represents (s.store i.val context) (t.set i context) where
  gtcur := represents.gtcur
  slots := by
    intro j
    show Function.update s.gttbl i.val context j.val = (t.set i context).gttbl j
    rw [Table.set_gttbl]
    by_cases same : j = i
    · rw [if_pos same, same, Function.update_self]
    · have other : (j.val : ℤ) ≠ i.val := fun equal => same (Fin.ext (Int.ofNat_inj.mp equal))
      rw [if_neg same, Function.update_of_ne other]
      exact represents.slots j
  inside := (represents.touch i).inside
  returned := represents.returned

theorem Represents.setState (represents : Represents s t) (i : Fin n) (state : ThreadState) :
    Represents (s.setState i.val state) (t.setState i state) := by
  rw [Memory.setState, represents.slots]
  exact represents.store i _

/-- The scan of the memory ends as the scan of the table does. -/
theorem scan_represents (represents : Represents s t) (rounds : ℕ) (p : Fin n) (count : ℕ) :
    (scan n s rounds p.val count).1 = (Gthreads.scan t rounds p count).map (fun
        | .found q => .found q.val
        | .noReady total => .noReady total) ∧
      ∀ q ∈ (scan n s rounds p.val count).2, InTable n q := by
  induction rounds generalizing p count with
  | zero => exact ⟨rfl, fun q among => by cases among⟩
  | succ rounds ih =>
    have here : ∀ q ∈ [(p.val : ℤ)], InTable n q := by
      intro q among
      rw [List.mem_singleton.mp among]
      exact inTable_val p
    have wraps : (if (p.val : ℤ) + 1 = n then 0 else (p.val : ℤ) + 1) = (next p).val := by
      unfold next
      by_cases last : p.val + 1 = n
      · rw [if_pos (by omega), dif_pos last]
        rfl
      · rw [if_neg (by omega), dif_neg last]
        rfl
    have met : ((next p).val : ℤ) = s.gtcur ↔ next p = t.gtcur := by
      rw [represents.gtcur, Int.ofNat_inj, Fin.ext_iff]
    rw [scan, Gthreads.scan, represents.stateOf, wraps]
    by_cases ready : t.stateOf p = .Ready
    · rw [if_pos ready, if_pos ready]
      exact ⟨rfl, here⟩
    · rw [if_neg ready, if_neg ready]
      by_cases back : next p = t.gtcur
      · simp only [if_pos (met.mpr back), if_pos back]
        exact ⟨rfl, here⟩
      · simp only [if_neg (mt met.mp back), if_neg back]
        obtain ⟨same, inside⟩ := ih (next p) (if Gthreads.Waiting t p then count + 1 else count)
        refine ⟨same, ?_⟩
        intro q among
        rcases List.mem_cons.mp among with rfl | later
        · exact inTable_val p
        · exact inside q later

theorem switchTo_represents (represents : Represents s t) (p : Fin n) :
    Represents (switchTo s p.val) (Gthreads.switchTo t p) := by
  have current := represents.gtcur
  have old : Represents (if s.stateOf s.gtcur = .Running then (s.touch s.gtcur).setState s.gtcur .Ready else s.touch s.gtcur)
      (if t.stateOf t.gtcur = .Running then t.setState t.gtcur .Ready else t) := by
    rw [current, represents.stateOf]
    split
    next => exact (represents.touch t.gtcur).setState t.gtcur _
    next => exact represents.touch t.gtcur
  have new := old.setState p .Running
  have switched : Represents { (if s.stateOf s.gtcur = .Running then (s.touch s.gtcur).setState s.gtcur .Ready
      else s.touch s.gtcur).setState p.val .Running with gtcur := p.val } (Gthreads.switchTo t p) :=
    ⟨rfl, new.slots, new.inside, new.returned⟩
  have saved := (switched.touch t.gtcur).touch p
  rw [← current] at saved
  exact saved

theorem gtYield_represents (represents : Represents s t) :
    Represents (gtYield n s).1 (Gthreads.gtYield t).1 ∧ (gtYield n s).2 = (Gthreads.gtYield t).2 := by
  obtain ⟨same, inside⟩ := scan_represents represents n t.gtcur 0
  rw [← represents.gtcur] at same inside
  have used := represents.uses inside
  unfold gtYield Gthreads.gtYield
  simp only [same]
  cases Gthreads.scan t n t.gtcur 0 with
  | none => exact ⟨used, rfl⟩
  | some result =>
    cases result with
    | found p => exact ⟨switchTo_represents used p, rfl⟩
    | noReady count => exact ⟨used, rfl⟩

/-- The loop of `gt_go` goes through the slots in order and ends behind the last one. -/
theorem findUnused_represents (represents : Represents s t) {rounds k : ℕ} (enough : rounds + k = n + 1) (within : k ≤ n) :
    (findUnused n s rounds k).1 =
        (((List.finRange n).drop k).find? fun p => t.stateOf p = .Unused).map (fun p : Fin n => (p.val : ℤ)) ∧
      ∀ q ∈ (findUnused n s rounds k).2, InTable n q := by
  induction rounds generalizing k with
  | zero => omega
  | succ rounds ih =>
    rw [findUnused]
    by_cases last : k = n
    · rw [if_pos (by omega), List.drop_of_length_le (by rw [List.length_finRange]; omega)]
      exact ⟨rfl, fun q among => by cases among⟩
    · have inside : k < (List.finRange n).length := by rw [List.length_finRange]; omega
      let slot : Fin n := ⟨k, by omega⟩
      have slotIs : s.stateOf (k : ℤ) = t.stateOf slot := represents.stateOf slot
      rw [if_neg (by omega), List.drop_eq_getElem_cons inside, List.getElem_finRange, slotIs]
      by_cases unused : t.stateOf slot = .Unused
      · rw [if_pos unused, List.find?_cons_of_pos (by simpa using unused)]
        refine ⟨rfl, ?_⟩
        intro q among
        rw [List.mem_singleton.mp among]
        exact inTable_val slot
      · rw [if_neg unused, List.find?_cons_of_neg (by simpa using unused)]
        obtain ⟨same, later⟩ := ih (k := k + 1) (by omega) (by omega)
        refine ⟨same, ?_⟩
        intro q among
        rcases List.mem_cons.mp among with rfl | behind
        · exact inTable_val slot
        · exact later q behind

theorem gtGo_represents (represents : Represents s t) (tName : Option Bytes) (stack : Bool) :
    Represents (gtGo n s tName stack).1 (Gthreads.gtGo t tName stack).1 ∧
      (gtGo n s tName stack).2 = (Gthreads.gtGo t tName stack).2 := by
  obtain ⟨same, inside⟩ := findUnused_represents represents (show n + 1 + 0 = n + 1 from rfl) (Nat.zero_le n)
  have used := represents.uses inside
  rw [List.drop_zero] at same
  unfold gtGo Gthreads.gtGo Gthreads.findUnused
  simp only [Int.natCast_zero] at same used ⊢
  simp only [same]
  cases (List.finRange n).find? fun p => t.stateOf p = .Unused with
  | none => exact ⟨used, rfl⟩
  | some p =>
    cases stack with
    | false => exact ⟨used, rfl⟩
    | true => exact ⟨used.store p _, rfl⟩

/-- A loop over the indices of the table, which may keep more than the memory. -/
theorem represents_loop {State : Type} (view : State → Memory) (body : State → ℕ → State) (slot : Table n → Fin n → Table n)
    (each : ∀ (s : State) t (i : Fin n), Represents (view s) t → Represents (view (body s i.val)) (slot t i)) {s : State}
    (represents : Represents (view s) t) :
    Represents (view ((List.range n).foldl body s)) ((List.finRange n).foldl slot t) := by
  rw [← List.map_coe_finRange_eq_range, List.foldl_map]
  induction List.finRange n generalizing s t with
  | nil => exact represents
  | cons i rest ih => exact ih (each s t i represents)

theorem gtManageTimers_represents (represents : Represents s t) :
    Represents (gtManageTimers n s) (Gthreads.gtManageTimers t) :=
  represents_loop id _ _ (fun s t i (here : Represents s t) => by
    show Represents (s.store i.val (tick (s.gttbl i.val))) (t.set i (tick (t.gttbl i)))
    rw [here.slots]
    exact here.store i _) represents

theorem gtTaskList_represents (represents : Represents s t) : Represents (gtTaskList n s).1 t := by
  have looped := represents_loop Prod.fst
    (fun (s, lines) (i : ℕ) =>
      let c := s.gttbl i
      (s.touch i, if c.threadState ≠ .Unused then lines ++ [⟨i = s.gtcur, c.id, c.threadState, c.name⟩] else lines))
    (fun t _ => t) (fun s t i here => here.touch i) (s := (s, ([] : List TaskLine))) represents
  have still : ∀ slots : List (Fin n), slots.foldl (fun t _ => t) t = t := by
    intro slots
    induction slots with
    | nil => rfl
    | cons i rest ih => exact ih
  rwa [still] at looped

theorem gtResume_represents (represents : Represents s t) (p : Fin n) :
    Represents (gtResume s p.val) (Gthreads.gtResume t p) := by
  have used := represents.touch p
  unfold gtResume Gthreads.gtResume
  simp only [used.stateOf]
  split
  next => exact used.setState p _
  next => exact used

/-- Outside the table `gt_resume` leaves the slots alone. -/
theorem gtResume_outside {p : ℤ} (outside : ¬ InTable n p) {i : ℤ} (slot : InTable n i) : (gtResume s p).gttbl i = s.gttbl i := by
  have other : i ≠ p := fun same => outside (same ▸ slot)
  unfold gtResume
  simp only
  split
  next => exact Function.update_of_ne other ..
  next => rfl

end

/-- What a loop that fills slots leaves in each of them. -/
theorem foldl_set_gttbl (fill : Fin n → Context) (slots : List (Fin n)) (t : Table n) (i : Fin n) :
    (slots.foldl (fun t i => t.set i (fill i)) t).gttbl i = if i ∈ slots then fill i else t.gttbl i := by
  induction slots generalizing t with
  | nil => rfl
  | cons j rest ih =>
    rw [List.foldl_cons, ih, Table.set_gttbl]
    by_cases here : i = j
    · subst here
      simp
    · simp [here]

theorem toNat_lt {n : ℕ} {tId : ℤ} (inside : 0 ≤ tId ∧ tId < n) : tId.toNat < n := by
  omega

section
variable {n : ℕ} [NeZero n] {s : Memory} {t : Table n}

theorem start_represents (gttbl : ℤ → Context) : Represents (start n gttbl) (Gthreads.gtInit n) := by
  let before : Table n := { gttbl := fun i => gttbl i.val, gtcur := 0 }
  have memory : Represents { gttbl, gtcur := 0, used := [], returned := [] } before :=
    ⟨rfl, fun i => rfl, fun p among => (by cases among), fun tId among => (by cases among)⟩
  have looped := represents_loop id (fun (s : Memory) (i : ℕ) => s.store i ⟨.Unused, i, 0, []⟩)
    (fun t i => t.set i ⟨.Unused, i.val, 0, []⟩) (fun s t i here => here.store i _) memory
  have cleared : Represents
      { (List.range n).foldl (fun (s : Memory) (i : ℕ) => s.store i ⟨.Unused, i, 0, []⟩)
          { gttbl, gtcur := 0, used := [], returned := [] } with gtcur := 0 }
      { gttbl := fun i : Fin n => ⟨.Unused, i.val, 0, []⟩, gtcur := 0 } := by
    refine ⟨rfl, ?_, looped.inside, looped.returned⟩
    intro i
    refine (looped.slots i).trans ?_
    rw [foldl_set_gttbl, if_pos (List.mem_finRange i)]
  exact cleared.store 0 _

/-- What an operation does to the table, unless it is a `gt_resume` outside. -/
def onTable (t : Table n) : Op → Option (Table n)
  | .go tName stack => some (Gthreads.gtGo t tName stack).1
  | .yield => some (Gthreads.gtYield t).1
  | .stop => some (Gthreads.gtStop t).1
  | .suspend => some (Gthreads.gtSuspend t).1
  | .delay tMs => some (Gthreads.gtDelay t tMs).1
  | .resume tId => if inside : 0 ≤ tId ∧ tId < n then some (Gthreads.gtResume t ⟨tId.toNat, toNat_lt inside⟩) else none
  | .manageTimers => some (Gthreads.gtManageTimers t)
  | .sigHandle => some (Gthreads.gtSigHandle t).1
  | .taskList => some t

/-- The functions on pointers do to the table what the functions on the table do, and
    use slots of it only. -/
theorem perform_represents (represents : Represents s t) {op : Op} {after : Table n} (moved : onTable t op = some after) :
    Represents (perform n s op) after := by
  cases op with
  | go tName stack =>
    cases moved
    obtain ⟨made, idx⟩ := gtGo_represents represents tName stack
    refine ⟨made.gtcur, made.slots, made.inside, ?_⟩
    intro tId among
    rcases List.mem_append.mp among with old | new
    · exact made.returned tId old
    · have value : tId = (gtGo n s tName stack).2 := List.mem_singleton.mp new
      rw [value, idx]
      rcases Gthreads.gtGo_cases t tName stack with failed | ⟨p, -, filled⟩
      · rw [failed]
        exact .inl rfl
      · rw [filled]
        exact .inr (inTable_val p)
  | yield =>
    cases moved
    exact (gtYield_represents represents).1
  | stop =>
    cases moved
    have first : s.gtcur = 0 ↔ t.gtcur = 0 := by
      rw [represents.gtcur, Fin.ext_iff]
      exact Int.ofNat_inj
    show Represents (gtStop n s) _
    unfold gtStop Gthreads.gtStop
    by_cases zero : t.gtcur = 0
    · rw [if_neg (not_not.mpr (first.mpr zero)), if_neg (not_not.mpr zero)]
      exact represents
    · rw [if_pos (mt first.mp zero), if_pos zero, represents.gtcur]
      exact (gtYield_represents (represents.setState t.gtcur _)).1
  | suspend =>
    cases moved
    show Represents (gtSuspend n s) _
    unfold gtSuspend
    rw [represents.gtcur]
    exact (gtYield_represents (represents.setState t.gtcur _)).1
  | delay tMs =>
    cases moved
    show Represents (gtDelay n s tMs) _
    unfold gtDelay Gthreads.gtDelay
    split
    next => exact represents
    next =>
      rw [represents.gtcur, represents.slots]
      exact (gtYield_represents (represents.store t.gtcur _)).1
  | resume tId =>
    simp only [onTable] at moved
    split at moved
    next inside =>
      cases moved
      obtain ⟨p, rfl⟩ := InTable.exists_fin inside
      exact gtResume_represents represents p
    next => cases moved
  | manageTimers =>
    cases moved
    exact gtManageTimers_represents represents
  | sigHandle =>
    cases moved
    exact (gtYield_represents (gtManageTimers_represents represents)).1
  | taskList =>
    cases moved
    exact gtTaskList_represents represents

/-! ### The ids that are passed on -/

/-- `gt_resume` gets a value that some call of `gt_go` has returned before. -/
def ResumesReturned (s : Memory) (op : Op) : Prop := ∀ tId, op = .resume tId → tId ∈ s.returned

instance (s : Memory) : ∀ op, Decidable (ResumesReturned s op)
  | .resume tId => decidable_of_iff (tId ∈ s.returned) ⟨fun passed _ same => Op.resume.inj same ▸ passed, fun all => all tId rfl⟩
  | .go .. | .yield | .stop | .suspend | .delay _ | .manageTimers | .sigHandle | .taskList =>
    isTrue fun _ same => (by cases same)

/-- A `gt_resume` with the id of a `gt_go` without success changes no slot. -/
def FailedHarmless (n : ℕ) (s : Memory) (op : Op) : Prop :=
  op = .resume failure → ∀ i, InTable n i → (perform n s op).gttbl i = s.gttbl i

/-- Some table is represented. -/
def Sound (n : ℕ) (s : Memory) : Prop := ∃ t : Table n, Represents s t

theorem resume_used (s : Memory) (tId : ℤ) : tId ∈ (gtResume s tId).used := by
  have here : tId ∈ (s.touch tId).used := List.mem_append_right _ (List.mem_singleton.mpr rfl)
  unfold gtResume
  simp only
  split
  next => exact List.mem_append_left _ here
  next => exact here

omit [NeZero n] in
theorem failure_outside : ¬ InTable n failure := fun inside => absurd inside.1 (by decide)

theorem step_sound (s : Memory) (op : Op) (t : Memory) (sound : Sound n s)
    (passed : ResumesReturned s op ∧ op ≠ .resume failure) (taken : step n s op = some t) : Sound n t := by
  obtain ⟨table, represents⟩ := sound
  obtain rfl := Option.some.inj taken
  have moves : ∃ after, onTable table op = some after := by
    cases op with
    | resume tId =>
      have inside : InTable n tId := (represents.returned tId (passed.1 tId rfl)).resolve_left fun failed =>
        passed.2 (by rw [failed])
      exact ⟨_, dif_pos inside⟩
    | _ => exact ⟨_, rfl⟩
  obtain ⟨after, moved⟩ := moves
  exact ⟨after, perform_represents represents moved⟩

/-- In a run that passes on what `gt_go` has returned: every index that is used lies in
    the table, and the id of a `gt_go` without success changes no slot, if and only if
    no `gt_resume` gets such an id. -/
theorem inside_iff (gttbl : ℤ → Context) {ops : List Op} (passes : AllSteps (step n) ResumesReturned (start n gttbl) ops) :
    (AllStates (step n) (fun s => ∀ p ∈ s.used, InTable n p) (start n gttbl) ops ∧
        AllSteps (step n) (FailedHarmless n) (start n gttbl) ops) ↔
      ∀ op ∈ ops, op ≠ .resume failure := by
  constructor
  · rintro ⟨inside, -⟩
    generalize start n gttbl = s at inside
    clear passes
    induction ops generalizing s with
    | nil => exact fun op among => by cases among
    | cons op rest ih =>
      intro other among
      rcases List.mem_cons.mp among with rfl | later
      · rintro rfl
        have after := allStates_head (inside.2 _ rfl)
        exact failure_outside (after failure (resume_used _ failure))
      · exact ih _ (inside.2 _ rfl) other later
  · intro unfailed
    have never : AllSteps (step n) (fun _ op => op ≠ .resume failure) (start n gttbl) ops := allSteps_mem _ unfailed
    refine ⟨allStates_mono ?_ (allStates_of step_sound ⟨_, start_represents gttbl⟩ (allSteps_and passes never)), ?_⟩
    · rintro s ⟨table, represents⟩
      exact represents.inside
    · exact allSteps_of (fun _ _ _ (_ : True) _ _ => trivial) (fun s op _ other same => absurd same other)
        trivial never

end

/-- The memory when the program begins. -/
def blank : ℤ → Context := fun _ => ⟨.Unused, 0, 0, []⟩

/-- One thread is made and resumed. -/
theorem inside_iff_sample :
    AllStates (step 5) (fun s => ∀ p ∈ s.used, InTable 5 p) (start 5 blank) [.go none true, .resume 1] :=
  ((inside_iff blank (by decide +kernel)).mpr (by decide)).1

/-- The fifth `gt_go` finds no slot, and its result is given to `gt_resume`. -/
theorem failed_resumed :
    let ops := [.go none true, .go none true, .go none true, .go none true, .go none true, .resume (-1)]
    AllSteps (step 5) ResumesReturned (start 5 blank) ops ∧
      ¬ AllStates (step 5) (fun s => ∀ p ∈ s.used, InTable 5 p) (start 5 blank) ops := by
  decide +kernel

end OsyProg.TableBounds
