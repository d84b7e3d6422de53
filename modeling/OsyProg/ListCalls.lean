import Mathlib.Algebra.Ring.Nat
import Mathlib.Data.List.Rotate
import OsyProg.KernelLists
import OsyProg.Runs

/-!
Runs of calls of the functions of `list.c`, on any lists and items in any order. `Lists` says
without links what they are for: each list that was initialised is a circular list with a
cursor, and each item that was initialised is in one list or in none. Every run of calls that
uses lists and items as documented has a result, and the memory shows the lists after it
(`exec_represents`). So a list that is only inserted into by value is sorted, items of the
same value in the order in which they came (`contents_sorted`), and items that stay in a
list have their turns in a fixed order (`owners_round`).
-/
namespace OsyProg.ListCalls
open OsyProg.Cursors OsyProg.KernelLists Function
open OsyProg.Runs (exec trace exec_simulates exec_kept_of AllSteps)
set_option linter.unusedSectionVars false

inductive Call (Item ListId TickType : Type)
  | vListInitialise (pxList : ListId)
  | vListInitialiseItem (pxItem : Item)
  | setListItemValue (pxListItem : Item) (xValue : TickType)
  | vListInsertEnd (pxList : ListId) (pxNewListItem : Item)
  | vListInsert (pxList : ListId) (pxNewListItem : Item)
  | uxListRemove (pxItemToRemove : Item)
  | getOwnerOfNextEntry (pxList : ListId)

/-- What a call returns: how many items are left, or the item that has its turn in a list. -/
inductive Result (Item ListId : Type)
  | left (uxNumberOfItems : ℕ)
  | owner (pxList : ListId) (pxItem : Item)
  deriving DecidableEq

variable {Item ListId TickType : Type} [DecidableEq Item] [DecidableEq ListId] [LinearOrder TickType] [OrderTop TickType]

/-- A call on the memory, and what it returns. -/
def call (m : Memory Item ListId TickType) :
    Call Item ListId TickType → Option (Memory Item ListId TickType × List (Result Item ListId))
  | .vListInitialise l => some (m.vListInitialise l, [])
  | .vListInitialiseItem i => some (m.vListInitialiseItem i, [])
  | .setListItemValue i v => some (m.setListItemValue i v, [])
  | .vListInsertEnd l i => some (m.vListInsertEnd l i, [])
  | .vListInsert l i => (m.vListInsert l i).map (·, [])
  | .uxListRemove i => (m.uxListRemove i).map fun (n, m) => (m, [.left n])
  | .getOwnerOfNextEntry l => (m.getOwnerOfNextEntry l).map fun (i, m) => (m, [.owner l i])

def step (m : Memory Item ListId TickType) (a : Call Item ListId TickType) : Option (Memory Item ListId TickType) :=
  (call m a).map Prod.fst

def returned (m : Memory Item ListId TickType) (a : Call Item ListId TickType) : List (Result Item ListId) :=
  ((call m a).map Prod.snd).getD []

/-! ### The lists without links -/

/-- What is initialised: the lists, and where each item is; the values of the items; how many
    calls there were, and how many before an item came into its list. -/
structure Lists (Item ListId TickType : Type) where
  list : ListId → Option (Cursor Item)
  place : Item → Option (Option ListId)
  value : Item → TickType
  calls : ℕ
  since : Item → ℕ

namespace Lists

/-- The item is in a list now. -/
def put (a : Lists Item ListId TickType) (l : ListId) (i : Item) (c : Cursor Item) : Lists Item ListId TickType :=
  { a with
    list := update a.list l (some c)
    place := update a.place i (some (some l))
    since := update a.since i a.calls }

/-- A call as documented: a list and an item are initialised once and before they are used, an
    item is put into a list when it is in none and removed when it is in one, and only a list
    with items is asked for the next one. -/
def call (a : Lists Item ListId TickType) :
    Call Item ListId TickType → Option (Lists Item ListId TickType × List (Result Item ListId))
  | .vListInitialise l =>
    match a.list l with
    | none => some ({ a with list := update a.list l (some .empty) }, [])
    | some _ => none
  | .vListInitialiseItem i =>
    match a.place i with
    | none => some ({ a with place := update a.place i (some none) }, [])
    | some _ => none
  | .setListItemValue i v => some ({ a with value := update a.value i v }, [])
  | .vListInsertEnd l i =>
    match a.list l, a.place i with
    | some c, some none => some (a.put l i (c.insertBefore i), [])
    | _, _ => none
  | .vListInsert l i =>
    match a.list l, a.place i with
    | some c, some none => some (a.put l i (c.insertOrdered (fun i j => a.value i < a.value j) i), [])
    | _, _ => none
  | .uxListRemove i =>
    match a.place i with
    | some (some l) => (a.list l).map fun c =>
      let c := c.remove i
      ({ a with list := update a.list l (some c), place := update a.place i (some none) }, [.left c.items.length])
    | _ => none
  | .getOwnerOfNextEntry l =>
    ((a.list l).bind Cursor.advance).map fun (i, c) =>
      ({ a with list := update a.list l (some c) }, [.owner l i])

def step (a : Lists Item ListId TickType) (c : Call Item ListId TickType) : Option (Lists Item ListId TickType) :=
  (a.call c).map fun (b, _) => { b with calls := a.calls + 1 }

def returned (a : Lists Item ListId TickType) (c : Call Item ListId TickType) : List (Result Item ListId) :=
  ((a.call c).map Prod.snd).getD []

/-- Nothing is initialised; the values are those that the memory happens to have. -/
def start (m : Memory Item ListId TickType) : Lists Item ListId TickType where
  list := fun _ => none
  place := fun _ => none
  value := fun i => m.xItemValue (.item i)
  calls := 0
  since := fun _ => 0

end Lists

/-! ### The memory shows the lists -/

/-- The memory shows each list, and the items know where they are. -/
structure Represents (m : Memory Item ListId TickType) (a : Lists Item ListId TickType) : Prop where
  holds : ∀ l c, a.list l = some c → m.Holds l c
  inside : ∀ l c, a.list l = some c → ∀ i, i ∈ c.items ↔ a.place i = some (some l)
  home : ∀ i l, a.place i = some (some l) → ∃ c, a.list l = some c
  container : ∀ i p, a.place i = some p → m.pxContainer i = p
  value : ∀ i, m.xItemValue (.item i) = a.value i

theorem start_represents (m : Memory Item ListId TickType) : Represents m (Lists.start m) := by
  refine ⟨?_, ?_, ?_, ?_, fun i => rfl⟩
  · intro l c missing
    cases missing
  · intro l c missing
    cases missing
  · intro i l missing
    cases missing
  · intro i p missing
    cases missing

section
variable {m m' : Memory Item ListId TickType} {a : Lists Item ListId TickType} {l l' : ListId} {c c' : Cursor Item} {i : Item}

/-- The items of two lists are different ones. -/
theorem Represents.apart (shows : Represents m a) (here : a.list l = some c) (there : a.list l' = some c') (ne : l' ≠ l) :
    ∀ j ∈ c'.items, j ∉ c.items := by
  intro j inside again
  have first := (shows.inside l' c' there j).mp inside
  have second := (shows.inside l c here j).mp again
  rw [first] at second
  exact ne (Option.some.inj (Option.some.inj second))

/-- An item in no list is not among the items of one. -/
theorem Represents.fresh (shows : Represents m a) (free : a.place i = some none) (there : a.list l = some c) :
    i ∉ c.items := by
  intro inside
  rw [(shows.inside l c there i).mp inside] at free
  cases free

theorem Represents.put (shows : Represents m a) (here : a.list l = some c) (free : a.place i = some none)
    {front back : List Item} (linked : Memory.Linked m m' l i front back) (parts : c.items = front ++ back)
    (items : c'.items = front ++ i :: back) (head : c'.behind.head? = c.behind.head?) :
    Represents m' (a.put l i c') := by
  refine ⟨?_, ?_, ?_, ?_, ?_⟩
  · intro l' d there
    by_cases same : l' = l
    · subst same
      cases (update_self ..).symm.trans there
      exact linked.holds (shows.holds _ c here) (shows.fresh free here) parts items head
    · have old : a.list l' = some d := (update_of_ne same ..).symm.trans there
      exact linked.frame parts (shows.holds l' d old) same (shows.fresh free old) (shows.apart here old same)
  · intro l' d there j
    by_cases same : l' = l
    · subst same
      cases (update_self ..).symm.trans there
      by_cases new : j = i
      · simp [Lists.put, new, items]
      · have old := shows.inside _ c here j
        rw [parts] at old
        simpa [Lists.put, new, items, or_assoc] using old
    · have old : a.list l' = some d := (update_of_ne same ..).symm.trans there
      by_cases new : j = i
      · subst new
        simp [Lists.put, shows.fresh free old, Ne.symm same]
      · simpa [Lists.put, new] using shows.inside l' d old j
  · intro j l' there
    by_cases same : l' = l
    · exact ⟨c', by rw [same]; exact update_self ..⟩
    · have new : j ≠ i := by
        rintro rfl
        cases (update_self ..).symm.trans there
        exact same rfl
      obtain ⟨d, old⟩ := shows.home j l' ((update_of_ne new ..).symm.trans there)
      exact ⟨d, (update_of_ne same ..).trans old⟩
  · intro j p there
    rw [linked.pxContainer]
    by_cases new : j = i
    · subst new
      cases (update_self ..).symm.trans there
      exact update_self ..
    · rw [update_of_ne new]
      exact shows.container j p ((update_of_ne new ..).symm.trans there)
  · intro j
    rw [linked.xItemValue]
    exact shows.value j

theorem Represents.remove (shows : Represents m a) (here : a.list l = some c) (taken : a.place i = some (some l)) :
    Represents (m.removeFrom i l)
      { a with list := update a.list l (some (c.remove i)), place := update a.place i (some none) } := by
  have there : i ∈ c.items := (shows.inside l c here i).mpr taken
  obtain ⟨values, container, -⟩ := m.removeFrom_fields i l
  refine ⟨?_, ?_, ?_, ?_, ?_⟩
  · intro l' d found
    by_cases same : l' = l
    · subst same
      cases (update_self ..).symm.trans found
      exact Memory.removeFrom_holds (shows.holds _ c here) there
    · have old : a.list l' = some d := (update_of_ne same ..).symm.trans found
      exact Memory.removeFrom_frame (shows.holds l c here) there (shows.holds l' d old) same (shows.apart here old same)
  · intro l' d found j
    by_cases same : l' = l
    · subst same
      cases (update_self ..).symm.trans found
      rw [Cursor.remove_items]
      by_cases gone : j = i
      · simp [gone]
      · simpa [gone] using shows.inside _ c here j
    · have old : a.list l' = some d := (update_of_ne same ..).symm.trans found
      by_cases gone : j = i
      · subst gone
        simp only [update_self, Option.some.injEq, reduceCtorEq, iff_false]
        exact fun inside => shows.apart here old same j inside there
      · simpa [gone] using shows.inside l' d old j
  · intro j l' found
    by_cases gone : j = i
    · subst gone
      cases (update_self ..).symm.trans found
    · obtain ⟨d, old⟩ := shows.home j l' ((update_of_ne gone ..).symm.trans found)
      by_cases same : l' = l
      · exact ⟨c.remove i, by rw [same]; exact update_self ..⟩
      · exact ⟨d, (update_of_ne same ..).trans old⟩
  · intro j p found
    rw [container]
    by_cases gone : j = i
    · subst gone
      cases (update_self ..).symm.trans found
      exact update_self ..
    · rw [update_of_ne gone]
      exact shows.container j p ((update_of_ne gone ..).symm.trans found)
  · intro j
    rw [values]
    exact shows.value j

theorem Represents.initialise (shows : Represents m a) (new : a.list l = none) :
    Represents (m.vListInitialise l) { a with list := update a.list l (some .empty) } := by
  have nowhere : ∀ i, a.place i ≠ some (some l) := by
    intro i there
    obtain ⟨c, found⟩ := shows.home i l there
    rw [new] at found
    cases found
  refine ⟨?_, ?_, ?_, shows.container, ?_⟩
  · intro l' d found
    by_cases same : l' = l
    · subst same
      cases (update_self ..).symm.trans found
      exact Memory.vListInitialise_holds m _
    · have old : a.list l' = some d := (update_of_ne same ..).symm.trans found
      refine (shows.holds l' d old).congr ?_ (update_of_ne same ..) (update_of_ne same ..) ?_
      · intro n inside
        have other : n ≠ .xListEnd l := by
          rintro rfl
          simp [Memory.nodes, Ne.symm same] at inside
        exact ⟨update_of_ne other .., update_of_ne other ..⟩
      · have other : (Node.xListEnd l' : Node Item ListId) ≠ .xListEnd l := fun eq => same (Node.xListEnd.inj eq)
        exact update_of_ne other ..
  · intro l' d found j
    by_cases same : l' = l
    · subst same
      cases (update_self ..).symm.trans found
      simp [nowhere j]
    · exact shows.inside l' d ((update_of_ne same ..).symm.trans found) j
  · intro j l' found
    by_cases same : l' = l
    · exact absurd (same ▸ found) (nowhere j)
    · obtain ⟨d, old⟩ := shows.home j l' found
      exact ⟨d, (update_of_ne same ..).trans old⟩
  · intro j
    have other : (Node.item j : Node Item ListId) ≠ .xListEnd l := by simp
    exact (update_of_ne other ⊤ m.xItemValue).trans (shows.value j)

theorem Represents.initialiseItem (shows : Represents m a) (new : a.place i = none) :
    Represents (m.vListInitialiseItem i) { a with place := update a.place i (some none) } := by
  refine ⟨?_, ?_, ?_, ?_, shows.value⟩
  · intro l c found
    have holds := shows.holds l c found
    exact ⟨holds.ring, holds.index, holds.count, holds.marker⟩
  · intro l c found j
    by_cases same : j = i
    · subst same
      have outside := shows.inside l c found j
      rw [new] at outside
      simpa using outside
    · simpa [same] using shows.inside l c found j
  · intro j l found
    by_cases same : j = i
    · subst same
      cases (update_self ..).symm.trans found
    · exact shows.home j l ((update_of_ne same ..).symm.trans found)
  · intro j p found
    by_cases same : j = i
    · subst same
      cases (update_self ..).symm.trans found
      exact update_self ..
    · exact (update_of_ne same ..).trans (shows.container j p ((update_of_ne same ..).symm.trans found))

theorem Represents.setValue (shows : Represents m a) (i : Item) (v : TickType) :
    Represents (m.setListItemValue i v) { a with value := update a.value i v } := by
  refine ⟨?_, shows.inside, shows.home, shows.container, ?_⟩
  · intro l c found
    have holds := shows.holds l c found
    have other : (Node.xListEnd l : Node Item ListId) ≠ .item i := by simp
    exact ⟨holds.ring, holds.index, holds.count, (update_of_ne other v m.xItemValue).trans holds.marker⟩
  · intro j
    by_cases same : j = i
    · subst same
      exact (update_self (Node.item j) v m.xItemValue).trans (update_self j v a.value).symm
    · have other : (Node.item j : Node Item ListId) ≠ .item i := fun eq => same (Node.item.inj eq)
      have old := (update_of_ne same v a.value).symm
      exact ((update_of_ne other v m.xItemValue).trans (shows.value j)).trans old

theorem Represents.advance (shows : Represents m a) (here : a.list l = some c) (moved : c.advance = some (i, c')) :
    Represents { m with pxIndex := update m.pxIndex l (.item i) } { a with list := update a.list l (some c') } := by
  refine ⟨?_, ?_, ?_, shows.container, shows.value⟩
  · intro l' d found
    by_cases same : l' = l
    · subst same
      cases (update_self ..).symm.trans found
      exact Memory.getOwnerOfNextEntry_holds (shows.holds _ c here) moved
    · have holds := shows.holds l' d ((update_of_ne same ..).symm.trans found)
      exact ⟨holds.ring, (update_of_ne same ..).trans holds.index, holds.count, holds.marker⟩
  · intro l' d found j
    by_cases same : l' = l
    · subst same
      cases (update_self ..).symm.trans found
      rw [Cursor.advance_items moved]
      exact shows.inside _ c here j
    · exact shows.inside l' d ((update_of_ne same ..).symm.trans found) j
  · intro j l' found
    by_cases same : l' = l
    · exact ⟨c', by rw [same]; exact update_self ..⟩
    · obtain ⟨d, old⟩ := shows.home j l' found
      exact ⟨d, (update_of_ne same ..).trans old⟩

end

/-- A call as documented has a result, the memory shows the lists after it, and the same is returned. -/
theorem call_represents (m : Memory Item ListId TickType) (a b : Lists Item ListId TickType)
    (c : Call Item ListId TickType) (r : List (Result Item ListId)) (shows : Represents m a)
    (taken : a.call c = some (b, r)) : ∃ m', call m c = some (m', r) ∧ Represents m' b := by
  cases c with
  | vListInitialise l =>
    simp only [Lists.call] at taken
    split at taken
    case h_1 new =>
      cases taken
      exact ⟨_, rfl, shows.initialise new⟩
    case h_2 => cases taken
  | vListInitialiseItem i =>
    simp only [Lists.call] at taken
    split at taken
    case h_1 new =>
      cases taken
      exact ⟨_, rfl, shows.initialiseItem new⟩
    case h_2 => cases taken
  | setListItemValue i v =>
    cases taken
    exact ⟨_, rfl, shows.setValue i v⟩
  | vListInsertEnd l i =>
    simp only [Lists.call] at taken
    split at taken
    case h_1 c here free =>
      cases taken
      obtain ⟨front, back, parts, items, linked⟩ := Memory.vListInsertEnd_linked (shows.holds l c here) (shows.fresh free here)
      exact ⟨_, rfl, shows.put here free linked parts items (c.insertBefore_head i)⟩
    case h_2 => cases taken
  | vListInsert l i =>
    simp only [Lists.call] at taken
    split at taken
    case h_1 c here free =>
      cases taken
      obtain ⟨front, back, m', parts, inserted, result, linked⟩ :=
        Memory.vListInsert_linked (shows.holds l c here) (shows.fresh free here)
      have items := c.insertOrdered_items (r := fun i j => a.value i < a.value j) i
      simp only [shows.value] at inserted
      exact ⟨m', by rw [call, result]; rfl, shows.put here free linked parts (items.trans inserted) (c.insertOrdered_head i)⟩
    case h_2 => cases taken
  | uxListRemove i =>
    simp only [Lists.call] at taken
    split at taken
    case h_1 l place =>
      obtain ⟨c, here, rest⟩ := Option.map_eq_some_iff.mp taken
      cases rest
      have after := shows.remove here place
      have count := (after.holds l _ (update_self ..)).count
      refine ⟨m.removeFrom i l, ?_, after⟩
      rw [call, Memory.uxListRemove, shows.container i _ place, Option.map_some, Option.map_some]
      simp only [count]
    case h_2 => cases taken
  | getOwnerOfNextEntry l =>
    obtain ⟨⟨i, c'⟩, moved, rest⟩ := Option.map_eq_some_iff.mp taken
    obtain ⟨c, here, moved⟩ := Option.bind_eq_some_iff.mp moved
    cases rest
    refine ⟨_, ?_, shows.advance here moved⟩
    rw [call, Memory.getOwnerOfNextEntry_eq (shows.holds l c here) moved, Option.map_some]

theorem step_represents (m : Memory Item ListId TickType) (a : Lists Item ListId TickType)
    (c : Call Item ListId TickType) (b : Lists Item ListId TickType) (shows : Represents m a)
    (taken : a.step c = some b) : ∃ m', step m c = some m' ∧ Represents m' b ∧ returned m c = a.returned c := by
  obtain ⟨⟨b', r⟩, result, rest⟩ := Option.map_eq_some_iff.mp taken
  obtain ⟨m', same, after⟩ := call_represents m a b' c r shows result
  cases rest
  refine ⟨m', ?_, ⟨after.holds, after.inside, after.home, after.container, after.value⟩, ?_⟩
  · rw [step, same, Option.map_some]
  · rw [returned, same, Lists.returned, result]
    rfl

/-- Every run of calls as documented has a result: the memory shows the lists at its end, and the calls returned what
    they return on the lists. -/
theorem exec_represents (m : Memory Item ListId TickType) (calls : List (Call Item ListId TickType))
    (a : Lists Item ListId TickType) (run : exec Lists.step (Lists.start m) calls = some a) :
    ∃ m', exec step m calls = some m' ∧ Represents m' a ∧
      trace step returned m calls = trace Lists.step Lists.returned (Lists.start m) calls :=
  exec_simulates step_represents (start_represents m) run

instance ticks_neZero : NeZero (2 ^ 64) := ⟨by decide⟩

/-- Some memory before anything is initialised. -/
def garbage : Memory ℕ Bool (Fin (2 ^ 64)) where
  pxNext := id
  pxPrevious := id
  xItemValue := fun _ => 7
  pxContainer := fun _ => some true
  pxIndex := fun _ => .item 0
  uxNumberOfItems := fun _ => 5

/-- The first list and all items are initialised. -/
def initialising : List (Call ℕ Bool (Fin (2 ^ 64))) :=
  [.vListInitialise false, .vListInitialiseItem 0, .vListInitialiseItem 1, .vListInitialiseItem 2]

/-- Items are inserted in both ways, have their turns and are removed. -/
def mixedCalls : List (Call ℕ Bool (Fin (2 ^ 64))) :=
  [.vListInsertEnd false 2, .vListInsert false 1, .getOwnerOfNextEntry false, .vListInsertEnd false 0, .uxListRemove 2,
    .getOwnerOfNextEntry false]

theorem exec_represents_sample :
    ∃ m' a, exec step garbage (initialising ++ mixedCalls) = some m' ∧ Represents m' a ∧
      trace step returned garbage (initialising ++ mixedCalls) =
        trace Lists.step Lists.returned (Lists.start garbage) (initialising ++ mixedCalls) := by
  obtain ⟨m', shown⟩ := exec_represents garbage (initialising ++ mixedCalls) _ rfl
  exact ⟨m', _, shown⟩

example : trace step returned garbage (initialising ++ mixedCalls) = [.owner false 2, .left 2, .owner false 1] := by decide

/-! ### Lists in order -/

/-- The list is only inserted into by value, and the values of its items stay as they are. -/
def Ordered (l : ListId) (a : Lists Item ListId TickType) : Call Item ListId TickType → Prop
  | .vListInsertEnd l' _ => l' ≠ l
  | .setListItemValue i _ => a.place i ≠ some (some l)
  | _ => True

instance (l : ListId) (a : Lists Item ListId TickType) : (c : Call Item ListId TickType) → Decidable (Ordered l a c)
  | .vListInsertEnd l' _ => inferInstanceAs (Decidable (l' ≠ l))
  | .setListItemValue i _ => inferInstanceAs (Decidable (a.place i ≠ some (some l)))
  | .vListInitialise _ => isTrue trivial
  | .vListInitialiseItem _ => isTrue trivial
  | .vListInsert _ _ => isTrue trivial
  | .uxListRemove _ => isTrue trivial
  | .getOwnerOfNextEntry _ => isTrue trivial

/-- One item comes before another: its value is less, or the values are the same and it came first. -/
def Before (a : Lists Item ListId TickType) (i j : Item) : Prop :=
  a.value i < a.value j ∨ a.value i = a.value j ∧ a.since i < a.since j

/-- The list is in order. -/
structure InOrder (a : Lists Item ListId TickType) (l : ListId) : Prop where
  shown : ∃ m, Represents m a
  sorted : ∀ c, a.list l = some c → c.items.Pairwise (Before a)
  since : ∀ c, a.list l = some c → ∀ i ∈ c.items, a.since i < a.calls

/-- Items may go as long as those that stay are as they were. -/
theorem InOrder.frame {a b : Lists Item ListId TickType} {l : ListId} (inOrder : InOrder a l)
    (shown : ∃ m, Represents m b) (later : a.calls ≤ b.calls)
    (fewer : ∀ c', b.list l = some c' → ∃ c, a.list l = some c ∧ c'.items.Sublist c.items ∧
      ∀ i ∈ c'.items, b.value i = a.value i ∧ b.since i = a.since i) : InOrder b l := by
  refine ⟨shown, ?_, ?_⟩
  · intro c' found
    obtain ⟨c, old, sub, same⟩ := fewer c' found
    refine ((inOrder.sorted c old).sublist sub).imp_of_mem ?_
    intro i j inside inside' before
    rw [Before, (same i inside).1, (same i inside).2, (same j inside').1, (same j inside').2]
    exact before
  · intro c' found i inside
    obtain ⟨c, old, sub, same⟩ := fewer c' found
    have before := inOrder.since c old i (sub.subset inside)
    rw [(same i inside).2]
    omega

theorem before_trans (a : Lists Item ListId TickType) (i j k : Item) (first : Before a i j) (second : Before a j k) :
    Before a i k := by
  rcases first with less | ⟨same, first⟩
  · rcases second with less' | ⟨same', -⟩
    · exact .inl (less.trans less')
    · exact .inl (same' ▸ less)
  · rcases second with less' | ⟨same', second⟩
    · exact .inl (same ▸ less')
    · exact .inr ⟨same.trans same', first.trans second⟩

/-- The new item comes after those of no greater value, since they all came earlier. -/
theorem InOrder.insert {a : Lists Item ListId TickType} {l : ListId} {c : Cursor Item} {i : Item} (inOrder : InOrder a l)
    (fresh : i ∉ c.items) (here : a.list l = some c) :
    (c.insertOrdered (fun i j => a.value i < a.value j) i).items.Pairwise
        (Before (a.put l i (c.insertOrdered (fun i j => a.value i < a.value j) i))) ∧
      ∀ j ∈ (c.insertOrdered (fun i j => a.value i < a.value j) i).items,
        (a.put l i (c.insertOrdered (fun i j => a.value i < a.value j) i)).since j < a.calls + 1 := by
  have old : ∀ j ∈ c.items, update a.since i a.calls j = a.since j := by
    intro j inside
    refine update_of_ne ?_ _ _
    rintro rfl
    exact fresh inside
  rw [Cursor.insertOrdered_items]
  refine ⟨Cursor.orderedInsert_pairwise (before_trans _) ?_ ?_ ?_, ?_⟩
  · refine (inOrder.sorted c here).imp_of_mem ?_
    intro j k inside inside' before
    simp only [Before, Lists.put, old j inside, old k inside']
    exact before
  · intro j inside early
    simp only [Before, Lists.put, old j inside, update_self]
    rcases lt_or_eq_of_le (not_lt.mp early) with less | same
    · exact .inl less
    · exact .inr ⟨same, inOrder.since c here j inside⟩
  · intro j inside late
    exact .inl late
  · intro j inside
    rcases (List.mem_orderedInsert _).mp inside with rfl | inside
    · simp [Lists.put]
    · have before := inOrder.since c here j inside
      simp only [Lists.put, old j inside]
      omega

theorem inOrder_call (l : ListId) (a : Lists Item ListId TickType) (c : Call Item ListId TickType)
    (b : Lists Item ListId TickType) (r : List (Result Item ListId)) (inOrder : InOrder a l) (ordered : Ordered l a c)
    (taken : a.call c = some (b, r)) : InOrder { b with calls := a.calls + 1 } l := by
  obtain ⟨m, shows⟩ := inOrder.shown
  obtain ⟨m', -, after⟩ := call_represents m a b c r shows taken
  have shown : ∃ m, Represents m { b with calls := a.calls + 1 } :=
    ⟨m', after.holds, after.inside, after.home, after.container, after.value⟩
  cases c with
  | vListInitialise l' =>
    simp only [Lists.call] at taken
    split at taken
    case h_1 new =>
      cases taken
      by_cases same : l = l'
      · subst same
        refine ⟨shown, ?_, ?_⟩
        · intro c' found
          cases (update_self ..).symm.trans found
          exact .nil
        · intro c' found i inside
          cases (update_self ..).symm.trans found
          cases inside
      · refine inOrder.frame shown (Nat.le_succ _) ?_
        intro c' found
        exact ⟨c', (update_of_ne same ..).symm.trans found, .refl _, fun i _ => ⟨rfl, rfl⟩⟩
    case h_2 => cases taken
  | vListInitialiseItem i =>
    simp only [Lists.call] at taken
    split at taken
    case h_1 new =>
      cases taken
      exact inOrder.frame shown (Nat.le_succ _) fun c' found => ⟨c', found, .refl _, fun i _ => ⟨rfl, rfl⟩⟩
    case h_2 => cases taken
  | setListItemValue i v =>
    cases taken
    refine inOrder.frame shown (Nat.le_succ _) ?_
    intro c' found
    refine ⟨c', found, .refl _, ?_⟩
    intro j inside
    have other : j ≠ i := by
      rintro rfl
      exact ordered ((shows.inside l c' found j).mp inside)
    exact ⟨update_of_ne other .., rfl⟩
  | vListInsertEnd l' i =>
    simp only [Lists.call] at taken
    split at taken
    case h_1 c here free =>
      cases taken
      refine inOrder.frame shown (Nat.le_succ _) ?_
      intro c' found
      have old : a.list l = some c' := (update_of_ne (Ne.symm ordered) ..).symm.trans found
      refine ⟨c', old, .refl _, ?_⟩
      intro j inside
      have other : j ≠ i := by
        rintro rfl
        exact shows.fresh free old inside
      exact ⟨rfl, update_of_ne other ..⟩
    case h_2 => cases taken
  | vListInsert l' i =>
    simp only [Lists.call] at taken
    split at taken
    case h_1 c here free =>
      cases taken
      by_cases same : l = l'
      · subst same
        obtain ⟨sorted, since⟩ := inOrder.insert (shows.fresh free here) here
        refine ⟨shown, ?_, ?_⟩
        · intro c' found
          cases (update_self ..).symm.trans found
          exact sorted
        · intro c' found
          cases (update_self ..).symm.trans found
          exact since
      · refine inOrder.frame shown (Nat.le_succ _) ?_
        intro c' found
        have old : a.list l = some c' := (update_of_ne same ..).symm.trans found
        refine ⟨c', old, .refl _, ?_⟩
        intro j inside
        have other : j ≠ i := by
          rintro rfl
          exact shows.fresh free old inside
        exact ⟨rfl, update_of_ne other ..⟩
    case h_2 => cases taken
  | uxListRemove i =>
    simp only [Lists.call] at taken
    split at taken
    case h_1 l' place =>
      obtain ⟨c, here, rest⟩ := Option.map_eq_some_iff.mp taken
      cases rest
      refine inOrder.frame shown (Nat.le_succ _) ?_
      intro c' found
      by_cases same : l = l'
      · subst same
        cases (update_self ..).symm.trans found
        refine ⟨c, here, ?_, fun i _ => ⟨rfl, rfl⟩⟩
        rw [Cursor.remove_items]
        exact List.filter_sublist
      · exact ⟨c', (update_of_ne same ..).symm.trans found, .refl _, fun i _ => ⟨rfl, rfl⟩⟩
    case h_2 => cases taken
  | getOwnerOfNextEntry l' =>
    obtain ⟨⟨i, d⟩, asked, rest⟩ := Option.map_eq_some_iff.mp taken
    obtain ⟨c, here, moved⟩ := Option.bind_eq_some_iff.mp asked
    cases rest
    refine inOrder.frame shown (Nat.le_succ _) ?_
    intro c' found
    by_cases same : l = l'
    · subst same
      cases (update_self ..).symm.trans found
      exact ⟨c, here, Cursor.advance_items moved ▸ .refl _, fun i _ => ⟨rfl, rfl⟩⟩
    · exact ⟨c', (update_of_ne same ..).symm.trans found, .refl _, fun i _ => ⟨rfl, rfl⟩⟩

theorem inOrder_kept (l : ListId) (a : Lists Item ListId TickType) (c : Call Item ListId TickType)
    (b : Lists Item ListId TickType) (inOrder : InOrder a l) (ordered : Ordered l a c) (taken : a.step c = some b) :
    InOrder b l := by
  obtain ⟨⟨b', r⟩, result, rest⟩ := Option.map_eq_some_iff.mp taken
  cases rest
  exact inOrder_call l a c b' r inOrder ordered result

theorem start_inOrder (m : Memory Item ListId TickType) (l : ListId) : InOrder (Lists.start m) l :=
  ⟨⟨m, start_represents m⟩, nofun, nofun⟩

/-- However the calls are mixed, a list that is only inserted into by value is found along its links in the order of
    the values, items of the same value in the order in which they were inserted. -/
theorem contents_sorted (m : Memory Item ListId TickType) (l : ListId) (calls : List (Call Item ListId TickType))
    (a : Lists Item ListId TickType) (run : exec Lists.step (Lists.start m) calls = some a)
    (ordered : AllSteps Lists.step (Ordered l) (Lists.start m) calls) (initialised : a.list l ≠ none) :
    ∃ m', exec step m calls = some m' ∧ (m'.contents l).Pairwise fun i j =>
      m'.xItemValue (.item i) < m'.xItemValue (.item j) ∨
        m'.xItemValue (.item i) = m'.xItemValue (.item j) ∧ a.since i < a.since j := by
  obtain ⟨c, here⟩ := Option.ne_none_iff_exists'.mp initialised
  obtain ⟨m', ran, shows, -⟩ := exec_simulates step_represents (start_represents m) run
  have inOrder := exec_kept_of (inOrder_kept l) (start_inOrder m l) ordered run
  refine ⟨m', ran, ?_⟩
  simp only [shows.value, (shows.holds l c here).contents_eq]
  exact inOrder.sorted c here

/-- The item of the least value is inserted second, the others have the same value. -/
def orderedCalls : List (Call ℕ Bool (Fin (2 ^ 64))) :=
  [.setListItemValue 1 3, .vListInsert false 2, .vListInsert false 1, .vListInsert false 0]

theorem contents_sorted_sample :
    ∃ m', ∃ a : Lists ℕ Bool (Fin (2 ^ 64)), exec step garbage (initialising ++ orderedCalls) = some m' ∧
      (m'.contents false).Pairwise fun i j =>
        m'.xItemValue (.item i) < m'.xItemValue (.item j) ∨
          m'.xItemValue (.item i) = m'.xItemValue (.item j) ∧ a.since i < a.since j := by
  obtain ⟨m', sorted⟩ := contents_sorted garbage false (initialising ++ orderedCalls) _ rfl (by decide) (by decide)
  exact ⟨m', _, sorted⟩

example : (exec step garbage (initialising ++ orderedCalls)).map (·.contents false) = some [1, 2, 0] := by decide

/-! ### Turns -/

/-- The item that had its turn in the list. -/
def ownerIn (l : ListId) : Result Item ListId → Option Item
  | .left _ => none
  | .owner l' i => if l' = l then some i else none

/-- The items that have their turns in the list, those that satisfy the predicate. -/
def owners (l : ListId) (p : Item → Bool) (results : List (Result Item ListId)) : List Item :=
  (results.filterMap (ownerIn l)).filter p

/-- One call: an item of those that stay has its turn, the first in order, and is the last one then; or none has and
    the order stays the same. -/
theorem turns_call {a b : Lists Item ListId TickType} {call : Call Item ListId TickType} {r : List (Result Item ListId)}
    {l : ListId} {c : Cursor Item} {p : Item → Bool} (here : a.list l = some c)
    (inside : ∀ i, p i = true → a.place i = some (some l)) (stay : ∀ i, p i = true → call ≠ .uxListRemove i)
    (taken : a.call call = some (b, r)) :
    ∃ c', b.list l = some c' ∧ (∀ i, p i = true → b.place i = some (some l)) ∧
      ((∃ i rest, owners l p r = [i] ∧ c.turns.filter p = i :: rest ∧ c'.turns.filter p = rest ++ [i]) ∨
        owners l p r = [] ∧ c'.turns.filter p = c.turns.filter p) := by
  -- an item that is somewhere else is not one of those that stay
  have elsewhere : ∀ i q, a.place i = q → q ≠ some (some l) → p i = false := by
    intro i q place ne
    by_contra staying
    exact ne (place.symm.trans (inside i (by simpa using staying)))
  have kept : ∀ i q, p i = false → ∀ j, p j = true → update a.place i q j = some (some l) := by
    intro i q other j staying
    rw [update_of_ne (by rintro rfl; simp [other] at staying)]
    exact inside j staying
  cases call with
  | vListInitialise l' =>
    simp only [Lists.call] at taken
    split at taken
    case h_1 new =>
      cases taken
      have ne : l ≠ l' := by
        rintro rfl
        rw [new] at here
        cases here
      exact ⟨c, (update_of_ne ne ..).trans here, inside, .inr ⟨rfl, rfl⟩⟩
    case h_2 => cases taken
  | vListInitialiseItem i =>
    simp only [Lists.call] at taken
    split at taken
    case h_1 new =>
      cases taken
      exact ⟨c, here, kept i _ (elsewhere i _ new nofun), .inr ⟨rfl, rfl⟩⟩
    case h_2 => cases taken
  | setListItemValue i v =>
    cases taken
    exact ⟨c, here, inside, .inr ⟨rfl, rfl⟩⟩
  | vListInsertEnd l' i =>
    simp only [Lists.call] at taken
    split at taken
    case h_1 d there free =>
      cases taken
      have other := elsewhere i _ free nofun
      by_cases same : l = l'
      · subst same
        cases here.symm.trans there
        exact ⟨_, update_self .., kept i _ other, .inr ⟨rfl, Cursor.insertBefore_turns other c⟩⟩
      · exact ⟨c, (update_of_ne same ..).trans here, kept i _ other, .inr ⟨rfl, rfl⟩⟩
    case h_2 => cases taken
  | vListInsert l' i =>
    simp only [Lists.call] at taken
    split at taken
    case h_1 d there free =>
      cases taken
      have other := elsewhere i _ free nofun
      by_cases same : l = l'
      · subst same
        cases here.symm.trans there
        exact ⟨_, update_self .., kept i _ other, .inr ⟨rfl, Cursor.insertOrdered_turns other c⟩⟩
      · exact ⟨c, (update_of_ne same ..).trans here, kept i _ other, .inr ⟨rfl, rfl⟩⟩
    case h_2 => cases taken
  | uxListRemove i =>
    have other : p i = false := by
      by_contra staying
      exact stay i (by simpa using staying) rfl
    simp only [Lists.call] at taken
    split at taken
    case h_1 l' place =>
      obtain ⟨d, there, rest⟩ := Option.map_eq_some_iff.mp taken
      cases rest
      by_cases same : l = l'
      · subst same
        cases here.symm.trans there
        exact ⟨_, update_self .., kept i _ other, .inr ⟨rfl, Cursor.remove_turns other c⟩⟩
      · exact ⟨c, (update_of_ne same ..).trans here, kept i _ other, .inr ⟨rfl, rfl⟩⟩
    case h_2 => cases taken
  | getOwnerOfNextEntry l' =>
    obtain ⟨⟨i, d'⟩, asked, rest⟩ := Option.map_eq_some_iff.mp taken
    obtain ⟨d, there, moved⟩ := Option.bind_eq_some_iff.mp asked
    cases rest
    by_cases same : l = l'
    · subst same
      cases here.symm.trans there
      obtain ⟨rest, turns, after⟩ := Cursor.advance_turns moved
      refine ⟨d', update_self .., inside, ?_⟩
      by_cases staying : p i = true
      · refine .inl ⟨i, rest.filter p, ?_, ?_, ?_⟩
        · simp [owners, ownerIn, staying]
        · rw [turns, List.filter_cons_of_pos staying]
        · rw [after, List.filter_append, List.filter_cons_of_pos staying, List.filter_nil]
      · refine .inr ⟨?_, ?_⟩
        · simp [owners, ownerIn, staying]
        · rw [turns, after, List.filter_append, List.filter_cons_of_neg staying, List.filter_cons_of_neg staying,
            List.filter_nil, List.append_nil]
    · refine ⟨c, (update_of_ne same ..).trans here, inside, .inr ⟨?_, rfl⟩⟩
      simp [owners, ownerIn, Ne.symm same]

theorem owners_append (l : ListId) (p : Item → Bool) (first second : List (Result Item ListId)) :
    owners l p (first ++ second) = owners l p first ++ owners l p second := by
  rw [owners, List.filterMap_append, List.filter_append, owners, owners]

/-- In a run the items that stay have their turns in their order, again and again. -/
theorem owners_run {p : Item → Bool} {l : ListId} (calls : List (Call Item ListId TickType))
    (a b : Lists Item ListId TickType) (c : Cursor Item) (here : a.list l = some c)
    (inside : ∀ i, p i = true → a.place i = some (some l)) (stay : ∀ i, p i = true → Call.uxListRemove i ∉ calls)
    (run : exec Lists.step a calls = some b) (k : ℕ)
    (lt : k < (owners l p (trace Lists.step Lists.returned a calls)).length) :
    (owners l p (trace Lists.step Lists.returned a calls))[k]? =
      (c.turns.filter p)[k % (c.turns.filter p).length]? := by
  induction calls generalizing a c k with
  | nil => simp [trace, owners] at lt
  | cons call calls ih =>
    obtain ⟨a', taken, onward⟩ := OsyProg.Runs.exec_cons_iff.mp run
    obtain ⟨⟨a'', r⟩, result, rest⟩ := Option.map_eq_some_iff.mp taken
    have staying : ∀ i, p i = true → call ≠ .uxListRemove i := fun i q same => stay i q (same ▸ .head _)
    have returned : a.returned call = r := by rw [Lists.returned, result]; rfl
    obtain ⟨c', here', inside', turn⟩ := turns_call here inside staying result
    have later := ih a' c' (by rw [← rest]; exact here') (by rw [← rest]; exact inside')
      (fun i q there => stay i q (.tail _ there)) onward
    rw [trace, taken, Option.elim_some, returned, owners_append] at lt ⊢
    rcases turn with ⟨i, others, now, order, after⟩ | ⟨now, order⟩
    · rw [now] at lt ⊢
      rw [after] at later
      have turned : others ++ [i] = (i :: others).rotate 1 := by rw [List.rotate_cons_succ, List.rotate_zero]
      rw [order]
      cases k with
      | zero => rfl
      | succ k =>
        simp only [List.singleton_append, List.length_cons, Nat.add_lt_add_iff_right] at lt
        have short : k % (i :: others).length < (i :: others).length := Nat.mod_lt _ (Nat.succ_pos _)
        rw [List.singleton_append, List.getElem?_cons_succ, later k lt, turned, List.length_rotate,
          List.getElem?_rotate short, Nat.mod_add_mod]
    · rw [now, List.nil_append] at lt ⊢
      rw [later k lt, order]

/-- Items that stay in a list have their turns one after the other in a fixed order, each of them once in every round,
    whatever else is inserted and removed in between. -/
theorem owners_round (m : Memory Item ListId TickType) (before calls : List (Call Item ListId TickType))
    (a b : Lists Item ListId TickType) (start : exec Lists.step (Lists.start m) before = some a)
    (run : exec Lists.step a calls = some b) (l : ListId) (stay : List Item)
    (inside : ∀ i ∈ stay, a.place i = some (some l)) (staying : ∀ i ∈ stay, Call.uxListRemove i ∉ calls) :
    ∃ m₁ m₂, exec step m before = some m₁ ∧ exec step m₁ calls = some m₂ ∧
      ∃ order : List Item, order.Nodup ∧ (∀ i, i ∈ order ↔ i ∈ stay) ∧
        ∀ k, k < (owners l (· ∈ stay) (trace step returned m₁ calls)).length →
          (owners l (· ∈ stay) (trace step returned m₁ calls))[k]? = order[k % order.length]? := by
  obtain ⟨m₁, ran, shows, -⟩ := exec_simulates step_represents (start_represents m) start
  obtain ⟨m₂, onward, -, same⟩ := exec_simulates step_represents shows run
  refine ⟨m₁, m₂, ran, onward, ?_⟩
  rw [same]
  cases stay with
  | nil => exact ⟨[], .nil, fun i => .rfl, fun k lt => by simp [owners] at lt⟩
  | cons i rest =>
    obtain ⟨c, here⟩ := shows.home i l (inside i (.head _))
    have holds := shows.holds l c here
    refine ⟨c.turns.filter (· ∈ i :: rest), ?_, ?_, ?_⟩
    · exact ((c.turns_perm.nodup_iff).mpr holds.nodup).filter _
    · intro j
      simp only [List.mem_filter, Cursor.mem_turns, decide_eq_true_eq, and_iff_right_iff_imp]
      exact fun there => (shows.inside l c here j).mpr (inside j there)
    · exact owners_run calls a b c here (fun j q => inside j (by simpa using q)) (fun j q => staying j (by simpa using q)) run

theorem owners_round_sample :
    ∃ m₁ m₂, exec step garbage (initialising ++ [.vListInsertEnd false 0, .vListInsertEnd false 1]) = some m₁ ∧
      exec step m₁ [.getOwnerOfNextEntry false, .vListInsertEnd false 2, .getOwnerOfNextEntry false, .getOwnerOfNextEntry false,
        .getOwnerOfNextEntry false] = some m₂ ∧
      ∃ order : List ℕ, order.Nodup ∧ (∀ i, i ∈ order ↔ i ∈ [0, 1]) ∧
        ∀ k, k < (owners false (· ∈ [0, 1]) (trace step returned m₁ [.getOwnerOfNextEntry false, .vListInsertEnd false 2,
            .getOwnerOfNextEntry false, .getOwnerOfNextEntry false, .getOwnerOfNextEntry false])).length →
          (owners false (· ∈ [0, 1]) (trace step returned m₁ [.getOwnerOfNextEntry false, .vListInsertEnd false 2,
            .getOwnerOfNextEntry false, .getOwnerOfNextEntry false, .getOwnerOfNextEntry false]))[k]? = order[k % order.length]? :=
  owners_round garbage (initialising ++ [.vListInsertEnd false 0, .vListInsertEnd false 1]) _ _ _ rfl rfl false [0, 1] (by decide)
    (by simp)

end OsyProg.ListCalls
