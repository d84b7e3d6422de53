import OsyProg.Runs
import Mathlib.Data.List.Perm.Basic
import Mathlib.Data.List.Nodup
import Mathlib.Data.List.Range

/-!
How the game servers give the forked children their index: `index = count; count++`
in shared memory, with no lock. The parent of three of the servers admits as many
clients as there are semaphores; `piskvorky` admits everyone. The children of a run
get different indices below the number of semaphores, and are all counted, exactly
when no child reads `count` while another one is between its read and its write
(`assigned_iff`); otherwise two children may share an index (`shared_index`).
-/
namespace OsyProg.IndexRace
open OsyProg.Runs

/-- The servers, each with a parent that forks and children that take an index. -/
inductive Server
  | piskvorky
  | piskvorky2
  | skuskaPiskvorky
  | simultan
  deriving DecidableEq

/-- The length of `players`, of `client` in `02_simultan`. -/
def Server.size : Server → ℕ
  | .piskvorky | .piskvorky2 | .skuskaPiskvorky => 2
  | .simultan => 3

/-- The parent's test before `fork`, on its number of clients so far (`client_num`,
    `counter`, `c`). -/
def Server.admits : Server → ℕ → Bool
  | .piskvorky, _ => true
  | .piskvorky2, clientNum => clientNum < 2
  | .skuskaPiskvorky, counter => counter < 2
  | .simultan, c => c < 3

/-- How far a child is in `index = count; count++`. -/
inductive Child
  | forked                          -- int index = count
  | indexed (index : ℕ)             -- count++, the read
  | loaded (index value : ℕ)        -- count++, the write
  | assigned (index : ℕ)
  deriving DecidableEq

structure State where
  clientNum : ℕ
  count : ℕ
  children : List Child
  deriving DecidableEq

/-- A connection attempt, for which `fork` may fail, or a step of a child. -/
inductive Move
  | connect (forks : Bool)
  | run (child : ℕ)
  deriving DecidableEq

def childStep (count : ℕ) : Child → Option (ℕ × Child)
  | .forked => some (count, .indexed count)
  | .indexed index => some (count, .loaded index count)
  | .loaded index value => some (value + 1, .assigned index)
  | .assigned _ => none

def step (server : Server) (s : State) : Move → Option State
  | .connect forks =>
    if server.admits s.clientNum then
      some { s with clientNum := s.clientNum + 1, children := s.children ++ if forks then [.forked] else [] }
    else some s
  | .run k =>
    s.children[k]?.bind fun child =>
      (childStep s.count child).map fun (count, child) => { s with count, children := s.children.set k child }

/-- `count` is 0 when the first client connects. -/
def start : State := { clientNum := 0, count := 0, children := [] }

/-! ### What the indices are for -/

/-- The index that the child has read. -/
def Child.index? : Child → Option ℕ
  | .forked => none
  | .indexed index | .loaded index _ | .assigned index => some index

/-- The child has read `count` and not yet written it. -/
def Child.between : Child → Bool
  | .indexed _ | .loaded .. => true
  | .forked | .assigned _ => false

def Child.done : Child → Bool
  | .assigned _ => true
  | _ => false

/-- The indices that the children hold. -/
def indices (children : List Child) : List ℕ := children.filterMap Child.index?

/-- The children hold different indices, all inside the array, and are all counted
    once they have all got theirs. -/
structure Assigned (server : Server) (s : State) : Prop where
  distinct : (indices s.children).Nodup
  inside : ∀ index ∈ indices s.children, index < server.size
  counted : (∀ child ∈ s.children, child.done = true) → s.count = s.children.length

/-- A child that reads its index does so while no other one is between its read and
    its write; in `piskvorky` only the first two children do. -/
def Alone (server : Server) (s : State) : Move → Prop
  | .connect _ => True
  | .run k => s.children[k]? = some .forked →
      (∀ child ∈ s.children, child.between = false) ∧ (server = .piskvorky → s.count < 2)

/-! ### Taking numbers one at a time -/

/-- The children before and after the given one. -/
theorem children_split {children : List Child} {k : ℕ} {child : Child} (here : children[k]? = some child) (after : Child) :
    ∃ first rest, children = first ++ child :: rest ∧ children.set k after = first ++ after :: rest := by
  obtain ⟨inside, rfl⟩ := List.getElem?_eq_some_iff.mp here
  refine ⟨children.take k, children.drop (k + 1), ?_, ?_⟩
  · rw [← List.drop_eq_getElem_cons inside, List.take_append_drop]
  · exact List.set_eq_take_append_cons_drop.trans (if_pos inside)

/-- Every step is a new child, a child's step, or nothing. -/
theorem step_cases {server : Server} {s t : State} {move : Move} (taken : step server s move = some t) :
    (∃ fresh : List Child, (fresh = [] ∨ fresh = [.forked]) ∧ server.admits s.clientNum = true ∧
        t = { s with clientNum := s.clientNum + 1, children := s.children ++ fresh }) ∨ t = s ∨
      ∃ k first child rest count after, move = .run k ∧ s.children[k]? = some child ∧
        s.children = first ++ child :: rest ∧ childStep s.count child = some (count, after) ∧
        t = { s with count, children := first ++ after :: rest } := by
  cases move with
  | connect forks =>
    simp only [step] at taken
    split at taken
    next admitted =>
      cases taken
      refine .inl ⟨if forks then [.forked] else [], ?_, admitted, rfl⟩
      cases forks
      · exact .inl rfl
      · exact .inr rfl
    next =>
      cases taken
      exact .inr (.inl rfl)
  | run k =>
    obtain ⟨child, here, moves⟩ := Option.bind_eq_some_iff.mp taken
    obtain ⟨⟨count, after⟩, own, rfl⟩ := Option.map_eq_some_iff.mp moves
    obtain ⟨first, rest, split, set⟩ := children_split here after
    refine .inr (.inr ⟨k, first, child, rest, count, after, rfl, here, split, own, ?_⟩)
    simp only [set]

/-- The children that are between their read and their write. -/
def busy (children : List Child) : ℕ := children.countP Child.between

/-- A child that is between its read and its write holds the number that `count` has,
    and will write the next one. -/
def Holds (count : ℕ) : Child → Prop
  | .indexed index => index = count
  | .loaded index value => index = count ∧ value = count
  | .forked | .assigned _ => True

/-- At most one child is between its read and its write, and the indices are the
    numbers up to it. -/
structure Numbered (server : Server) (s : State) : Prop where
  numbers : (indices s.children).Perm (List.range (s.count + busy s.children))
  single : busy s.children ≤ 1
  holds : ∀ child ∈ s.children, Holds s.count child
  admitted : s.children.length ≤ s.clientNum ∧ (server ≠ .piskvorky → s.clientNum ≤ server.size)
  fits : s.count + busy s.children ≤ server.size

theorem start_numbered (server : Server) : Numbered server start where
  numbers := .refl _
  single := Nat.zero_le _
  holds := fun child inside => by cases inside
  admitted := ⟨le_refl _, fun _ => Nat.zero_le _⟩
  fits := Nat.zero_le _

theorem indices_length_le (children : List Child) : (indices children).length ≤ children.length :=
  List.length_filterMap_le _ _

/-- When every child has its index and none is between, each is counted. -/
theorem indices_length_of_done {children : List Child} (done : ∀ child ∈ children, child.done = true) :
    (indices children).length = children.length ∧ busy children = 0 := by
  constructor
  · induction children with
    | nil => rfl
    | cons child rest ih =>
      have here := done child (List.mem_cons_self ..)
      have later := ih fun c inside => done c (List.mem_cons_of_mem _ inside)
      cases child with
      | assigned index => simpa [indices, Child.index?] using later
      | forked | indexed | loaded => cases here
  · refine List.countP_eq_zero.mpr fun child inside => ?_
    have here := done child inside
    cases child with
    | assigned index => simp [Child.between]
    | forked | indexed | loaded => cases here

theorem Numbered.assigned {server : Server} {s : State} (numbered : Numbered server s) : Assigned server s where
  distinct := numbered.numbers.nodup_iff.mpr List.nodup_range
  inside := by
    intro index held
    have := List.mem_range.mp (numbered.numbers.mem_iff.mp held)
    have := numbered.fits
    omega
  counted := by
    intro done
    obtain ⟨all, none⟩ := indices_length_of_done done
    have length := numbered.numbers.length_eq
    rw [List.length_range] at length
    omega

/-- Another parent's step: nobody gets an index. -/
theorem admit_numbered {server : Server} {s : State} {fresh : List Child} (numbered : Numbered server s)
    (new : fresh = [] ∨ fresh = [.forked]) (admits : server.admits s.clientNum = true) :
    Numbered server { s with clientNum := s.clientNum + 1, children := s.children ++ fresh } := by
  have none : indices fresh = [] ∧ busy fresh = 0 ∧ fresh.length ≤ 1 ∧ ∀ child ∈ fresh, Holds s.count child := by
    rcases new with rfl | rfl
    · exact ⟨rfl, rfl, Nat.zero_le _, fun child inside => by cases inside⟩
    · refine ⟨rfl, rfl, le_refl _, ?_⟩
      intro child inside
      rw [List.mem_singleton.mp inside]
      trivial
  have same : indices (s.children ++ fresh) = indices s.children := by
    rw [indices, List.filterMap_append]
    exact (congrArg _ none.1).trans (List.append_nil _)
  have still : busy (s.children ++ fresh) = busy s.children := by
    rw [busy, List.countP_append]
    exact congrArg _ none.2.1
  constructor
  · simp only [same, still]
    exact numbered.numbers
  · simp only [still]
    exact numbered.single
  · intro child inside
    rcases List.mem_append.mp inside with old | added
    · exact numbered.holds child old
    · exact none.2.2.2 child added
  · obtain ⟨length, limit⟩ := numbered.admitted
    refine ⟨?_, ?_⟩
    · rw [List.length_append]
      exact Nat.add_le_add length none.2.2.1
    · intro other
      cases server with
      | piskvorky => exact absurd rfl other
      | piskvorky2 | skuskaPiskvorky | simultan => exact Nat.succ_le_of_lt (by simpa [Server.admits, Server.size] using admits)
  · simp only [still]
    exact numbered.fits

theorem busy_middle (first rest : List Child) (child : Child) :
    busy (first ++ child :: rest) = busy (first ++ rest) + if child.between then 1 else 0 := by
  simp only [busy, List.countP_append, List.countP_cons]
  omega

theorem indices_middle (first rest : List Child) (child : Child) :
    (indices (first ++ child :: rest)).Perm (child.index?.toList ++ indices (first ++ rest)) := by
  cases held : child.index? with
  | none =>
    have : indices (first ++ child :: rest) = indices (first ++ rest) := by
      simp only [indices, List.filterMap_append, List.filterMap_cons_none held]
    rw [this]
    exact .refl _
  | some index =>
    simp only [indices, List.filterMap_append, List.filterMap_cons_some held]
    exact List.perm_middle

theorem range_succ_perm (m : ℕ) : (m :: List.range m).Perm (List.range (m + 1)) := by
  rw [List.range_succ]
  exact (List.perm_append_singleton m _).symm

theorem holds_middle {count : ℕ} {first rest : List Child} {child : Child} :
    (∀ c ∈ first ++ child :: rest, Holds count c) ↔ Holds count child ∧ ∀ c ∈ first ++ rest, Holds count c := by
  simp only [List.forall_mem_append, List.forall_mem_cons]
  exact and_left_comm

theorem length_middle (first rest : List Child) (child after : Child) :
    (first ++ after :: rest).length = (first ++ child :: rest).length := by simp

section
variable {server : Server} {s : State} {first rest : List Child}

/-- A child reads its index while no other one is between its read and its write. -/
theorem read_numbered (numbered : Numbered server s) (split : s.children = first ++ .forked :: rest)
    (nobody : ∀ child ∈ s.children, child.between = false) (two : server = .piskvorky → s.count < 2) :
    Numbered server { s with children := first ++ .indexed s.count :: rest } := by
  obtain ⟨numbers, -, holds, ⟨length, limit⟩, -⟩ := numbered
  have none : busy (first ++ rest) = 0 := by
    have zero : busy s.children = 0 := List.countP_eq_zero.mpr fun c inside => by simp [nobody c inside]
    rw [split, busy_middle] at zero
    exact (Nat.add_eq_zero_iff.mp zero).1
  rw [split] at numbers holds length
  simp only [busy_middle, none, Child.between] at numbers
  have grown : (indices (first ++ .indexed s.count :: rest)).Perm (List.range (s.count + 1)) :=
    (indices_middle ..).trans ((((indices_middle ..).symm.trans numbers).cons s.count).trans (range_succ_perm _))
  constructor
  · simp only [busy_middle, none]
    exact grown
  · simp only [busy_middle, none]
    exact le_refl _
  · exact holds_middle.mpr ⟨rfl, (holds_middle.mp holds).2⟩
  · exact ⟨(length_middle ..).le.trans length, limit⟩
  · simp only [busy_middle, none]
    show s.count + 1 ≤ server.size
    by_cases everyone : server = .piskvorky
    · rw [everyone]
      exact two everyone
    · -- There are no more numbers than children, nor more children than places.
      have enough := grown.length_eq
      have most := indices_length_le (first ++ .indexed s.count :: rest)
      rw [List.length_range] at enough
      rw [length_middle first rest .forked] at most
      have := limit everyone
      omega

/-- The child that is between them reads the number it is going to raise. -/
theorem load_numbered {index : ℕ} (numbered : Numbered server s) (split : s.children = first ++ .indexed index :: rest) :
    Numbered server { s with children := first ++ .loaded index s.count :: rest } := by
  obtain ⟨numbers, single, holds, ⟨length, limit⟩, fits⟩ := numbered
  rw [split] at numbers single holds length fits
  rw [busy_middle] at numbers single fits
  obtain ⟨held, others⟩ := holds_middle.mp holds
  constructor
  · simp only [busy_middle]
    exact (indices_middle ..).trans ((indices_middle _ _ (.indexed index)).symm.trans numbers)
  · simp only [busy_middle]
    exact single
  · exact holds_middle.mpr ⟨⟨held, rfl⟩, others⟩
  · exact ⟨(length_middle ..).le.trans length, limit⟩
  · simp only [busy_middle]
    exact fits

/-- It writes the next number, and none is between any more. -/
theorem store_numbered {index value : ℕ} (numbered : Numbered server s)
    (split : s.children = first ++ .loaded index value :: rest) :
    Numbered server { s with count := value + 1, children := first ++ .assigned index :: rest } := by
  obtain ⟨numbers, single, holds, ⟨length, limit⟩, fits⟩ := numbered
  rw [split] at numbers single holds length fits
  rw [busy_middle] at numbers single fits
  obtain ⟨⟨-, value⟩, -⟩ := holds_middle.mp holds
  have none : busy (first ++ rest) = 0 := by simpa [Child.between] using single
  simp only [Child.between, none, if_true] at numbers fits
  constructor
  · simp only [busy_middle, none, value]
    exact (indices_middle ..).trans ((indices_middle _ _ (.loaded index _)).symm.trans numbers)
  · simp only [busy_middle, none]
    exact Nat.zero_le _
  · refine holds_middle.mpr ⟨trivial, fun c inside => ?_⟩
    have still := List.countP_eq_zero.mp none c inside
    cases c with
    | forked | assigned => trivial
    | indexed | loaded => exact absurd rfl still
  · exact ⟨(length_middle ..).le.trans length, limit⟩
  · simp only [busy_middle, none, value]
    exact fits

/-- A step of a child that is taken alone. -/
theorem run_numbered {k count : ℕ} {child after : Child} (numbered : Numbered server s)
    (alone : Alone server s (.run k)) (here : s.children[k]? = some child) (split : s.children = first ++ child :: rest)
    (own : childStep s.count child = some (count, after)) :
    Numbered server { s with count, children := first ++ after :: rest } := by
  cases child with
  | forked =>
    cases own
    obtain ⟨nobody, two⟩ := alone here
    exact read_numbered numbered split nobody two
  | indexed index =>
    cases own
    exact load_numbered numbered split
  | loaded index value =>
    cases own
    exact store_numbered numbered split
  | assigned index => cases own

end

theorem step_numbered {server : Server} {s t : State} {move : Move} (numbered : Numbered server s)
    (alone : Alone server s move) (taken : step server s move = some t) : Numbered server t := by
  rcases step_cases taken with ⟨fresh, new, admits, rfl⟩ | rfl | ⟨k, first, child, rest, count, after, rfl, here, split, own, rfl⟩
  · exact admit_numbered numbered new admits
  · exact numbered
  · exact run_numbered numbered alone here split own

/-- A child that reads while another one is between its read and its write gets the
    index of the other. -/
theorem step_alone {server : Server} {s : State} {move : Move} (numbered : Numbered server s)
    (after : ∀ t, step server s move = some t → Assigned server t) : Alone server s move := by
  cases move with
  | connect forks => trivial
  | run k =>
    intro here
    obtain ⟨first, rest, split, set⟩ := children_split here (.indexed s.count)
    have taken : step server s (.run k) = some { s with children := first ++ .indexed s.count :: rest } := by
      simp [step, here, childStep, set]
    obtain ⟨distinct, inside, -⟩ := after _ taken
    have gets : (indices (first ++ .indexed s.count :: rest)).Perm (s.count :: indices (first ++ rest)) := indices_middle ..
    constructor
    · intro child among
      by_contra between
      have other : child ∈ first ++ rest := by
        rw [split] at among
        rcases List.mem_append.mp among with before | behind
        · exact List.mem_append_left _ before
        · rcases List.mem_cons.mp behind with rfl | behind
          · exact absurd rfl between
          · exact List.mem_append_right _ behind
      have index : child.index? = some s.count := by
        have held := numbered.holds child among
        cases child with
        | forked | assigned => exact absurd rfl between
        | indexed index => exact congrArg some held
        | loaded index value => exact congrArg some held.1
      have twice := (List.nodup_cons.mp (gets.nodup_iff.mp distinct)).1
      exact twice (List.mem_filterMap.mpr ⟨child, other, index⟩)
    · intro noLimit
      have below := inside s.count (gets.mem_iff.mpr (List.mem_cons_self ..))
      rwa [noLimit] at below

/-- The children of a run have different indices inside the array, and are counted, in
    every state of the run exactly when each child has read its index while no other
    one was between its read and its write, and in `piskvorky` only two of them. -/
theorem assigned_iff (server : Server) (moves : List Move) :
    AllStates (step server) (Assigned server) start moves ↔ AllSteps (step server) (Alone server) start moves := by
  constructor
  · intro all
    have next : AllSteps (step server) (fun s move => ∀ t, step server s move = some t → Assigned server t) start moves :=
      allSteps_of_states (fun s move _ after => after) all
    exact allSteps_of (fun s move t numbered after taken => step_numbered numbered (step_alone numbered after) taken)
      (fun s move => step_alone) (start_numbered server) next
  · intro all
    exact allStates_mono (fun s => Numbered.assigned)
      (allStates_of (fun s move t numbered alone taken => step_numbered numbered alone taken) (start_numbered server) all)

/-- Two children read before either has written. -/
def raceMoves : List Move := [.connect true, .connect true, .run 0, .run 1, .run 0, .run 1, .run 0, .run 1]

/-- Both have the index 0, and one of them is not counted. -/
theorem race_ends (server : Server) :
    exec (step server) start raceMoves = some { clientNum := 2, count := 1, children := [.assigned 0, .assigned 0] } := by
  cases server <;> decide

theorem race_wrong (server : Server) : ¬ AllStates (step server) (Assigned server) start raceMoves := by
  intro all
  have last := (allStates_last all (race_ends server)).distinct
  revert last
  decide

theorem shared_index :
    ¬ AllStates (step .piskvorky) (Assigned .piskvorky) start raceMoves ∧
      ¬ AllStates (step .piskvorky2) (Assigned .piskvorky2) start raceMoves ∧
      ¬ AllStates (step .skuskaPiskvorky) (Assigned .skuskaPiskvorky) start raceMoves ∧
      ¬ AllStates (step .simultan) (Assigned .simultan) start raceMoves :=
  ⟨race_wrong _, race_wrong _, race_wrong _, race_wrong _⟩

end OsyProg.IndexRace
