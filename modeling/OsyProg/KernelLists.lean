import Mathlib.Data.List.TakeWhile
import Mathlib.Order.BoundedOrder.Basic
import OsyProg.Cursors
import OsyProg.Rings

/-!
The lists of the kernel, `list.c` and the macros of `list.h`: every list is a ring of items
around its end marker, with an index that walks through it, in a memory that all lists
share. The functions work on the links (`Memory`). What they do is said without links: the
memory shows a circular list with a cursor (`Holds`), each function changes it in one way
(`vListInsertEnd_linked`, `vListInsert_linked`, `removeFrom_holds`,
`getOwnerOfNextEntry_eq`), and the other lists stay as they are. The search for the place of
an item always comes to an end (`insertionPoint_eq`).
-/
namespace OsyProg.KernelLists
open OsyProg.Rings OsyProg.Cursors Function
set_option linter.unusedSectionVars false

/-! ### list.c -/

/-- `ListItem_t *`: an item, or the end marker of a list. -/
inductive Node (Item ListId : Type)
  | item (i : Item)
  | xListEnd (l : ListId)
  deriving DecidableEq

/-- The fields of all lists and items; `portMAX_DELAY` is the greatest `TickType_t`. -/
structure Memory (Item ListId TickType : Type) where
  pxNext : Node Item ListId → Node Item ListId
  pxPrevious : Node Item ListId → Node Item ListId
  xItemValue : Node Item ListId → TickType
  pxContainer : Item → Option ListId
  pxIndex : ListId → Node Item ListId
  uxNumberOfItems : ListId → ℕ

namespace Memory
variable {Item ListId TickType : Type} [DecidableEq Item] [DecidableEq ListId]

def vListInitialise [Top TickType] (m : Memory Item ListId TickType) (pxList : ListId) : Memory Item ListId TickType :=
  { m with
    pxIndex := update m.pxIndex pxList (.xListEnd pxList)
    xItemValue := update m.xItemValue (.xListEnd pxList) ⊤
    pxNext := update m.pxNext (.xListEnd pxList) (.xListEnd pxList)
    pxPrevious := update m.pxPrevious (.xListEnd pxList) (.xListEnd pxList)
    uxNumberOfItems := update m.uxNumberOfItems pxList 0 }

def vListInitialiseItem (m : Memory Item ListId TickType) (pxItem : Item) : Memory Item ListId TickType :=
  { m with pxContainer := update m.pxContainer pxItem none }

/-- `listSET_LIST_ITEM_VALUE` -/
def setListItemValue (m : Memory Item ListId TickType) (pxListItem : Item) (xValue : TickType) :
    Memory Item ListId TickType :=
  { m with xItemValue := update m.xItemValue (.item pxListItem) xValue }

/-- The item is in the list, and the list counts it. -/
def addItem (m : Memory Item ListId TickType) (pxList : ListId) (pxNewListItem : Item) : Memory Item ListId TickType :=
  { m with
    pxContainer := update m.pxContainer pxNewListItem (some pxList)
    uxNumberOfItems := update m.uxNumberOfItems pxList (m.uxNumberOfItems pxList + 1) }

def vListInsertEnd (m : Memory Item ListId TickType) (pxList : ListId) (pxNewListItem : Item) :
    Memory Item ListId TickType :=
  let pxIndex := m.pxIndex pxList
  let m := { m with pxNext := update m.pxNext (.item pxNewListItem) pxIndex }
  let m := { m with pxPrevious := update m.pxPrevious (.item pxNewListItem) (m.pxPrevious pxIndex) }
  let m := { m with pxNext := update m.pxNext (m.pxPrevious pxIndex) (.item pxNewListItem) }
  let m := { m with pxPrevious := update m.pxPrevious pxIndex (.item pxNewListItem) }
  m.addItem pxList pxNewListItem

/-- The loop of `vListInsert`, at most so many rounds. -/
def insertionPoint [LinearOrder TickType] (m : Memory Item ListId TickType) (xValueOfInsertion : TickType) :
    ℕ → Node Item ListId → Option (Node Item ListId)
  | 0, _ => none
  | rounds + 1, pxIterator =>
    if m.xItemValue (m.pxNext pxIterator) ≤ xValueOfInsertion then
      insertionPoint m xValueOfInsertion rounds (m.pxNext pxIterator)
    else some pxIterator

/-- Where `vListInsert` puts an item: behind this one. There is a round of the loop for each item of the
    list; no result when they do not suffice. -/
def iterator [LinearOrder TickType] [OrderTop TickType] (m : Memory Item ListId TickType) (pxList : ListId)
    (xValueOfInsertion : TickType) : Option (Node Item ListId) :=
  if xValueOfInsertion = ⊤ then some (m.pxPrevious (.xListEnd pxList))
  else m.insertionPoint xValueOfInsertion (m.uxNumberOfItems pxList + 1) (.xListEnd pxList)

/-- The rest of `vListInsert`. -/
def insertBehind (m : Memory Item ListId TickType) (pxList : ListId) (pxNewListItem : Item)
    (pxIterator : Node Item ListId) : Memory Item ListId TickType :=
  let m := { m with pxNext := update m.pxNext (.item pxNewListItem) (m.pxNext pxIterator) }
  let m := { m with pxPrevious := update m.pxPrevious (m.pxNext (.item pxNewListItem)) (.item pxNewListItem) }
  let m := { m with pxPrevious := update m.pxPrevious (.item pxNewListItem) pxIterator }
  let m := { m with pxNext := update m.pxNext pxIterator (.item pxNewListItem) }
  m.addItem pxList pxNewListItem

def vListInsert [LinearOrder TickType] [OrderTop TickType] (m : Memory Item ListId TickType) (pxList : ListId)
    (pxNewListItem : Item) : Option (Memory Item ListId TickType) :=
  (m.iterator pxList (m.xItemValue (.item pxNewListItem))).map (m.insertBehind pxList pxNewListItem)

/-- `uxListRemove` for an item whose container is the list. -/
def removeFrom (m : Memory Item ListId TickType) (pxItemToRemove : Item) (pxList : ListId) :
    Memory Item ListId TickType :=
  let x := Node.item pxItemToRemove
  let m := { m with pxPrevious := update m.pxPrevious (m.pxNext x) (m.pxPrevious x) }
  let m := { m with pxNext := update m.pxNext (m.pxPrevious x) (m.pxNext x) }
  let m := if m.pxIndex pxList = x then { m with pxIndex := update m.pxIndex pxList (m.pxPrevious x) } else m
  { m with
    pxContainer := update m.pxContainer pxItemToRemove none
    uxNumberOfItems := update m.uxNumberOfItems pxList (m.uxNumberOfItems pxList - 1) }

/-- The number of items left, and the memory. No result for an item that is in no list: the code follows a null
    pointer then. -/
def uxListRemove (m : Memory Item ListId TickType) (pxItemToRemove : Item) : Option (ℕ × Memory Item ListId TickType) :=
  (m.pxContainer pxItemToRemove).map fun pxList =>
    let m := m.removeFrom pxItemToRemove pxList
    (m.uxNumberOfItems pxList, m)

/-- `listGET_OWNER_OF_NEXT_ENTRY`; no result where the end marker's owner would be read, which it does not have. -/
def getOwnerOfNextEntry (m : Memory Item ListId TickType) (pxList : ListId) :
    Option (Item × Memory Item ListId TickType) :=
  let m := { m with pxIndex := update m.pxIndex pxList (m.pxNext (m.pxIndex pxList)) }
  let m :=
    if m.pxIndex pxList = .xListEnd pxList then
      { m with pxIndex := update m.pxIndex pxList (m.pxNext (m.pxIndex pxList)) }
    else m
  match m.pxIndex pxList with
  | .item i => some (i, m)
  | .xListEnd _ => none

def links (m : Memory Item ListId TickType) : Links (Node Item ListId) := ⟨m.pxNext, m.pxPrevious⟩

/-! ### What the functions do to the links -/

theorem vListInsertEnd_links {m : Memory Item ListId TickType} {l : ListId} {i : Item} (other : m.pxIndex l ≠ .item i) :
    (m.vListInsertEnd l i).links = linkBetween m.links (m.pxPrevious (m.pxIndex l)) (.item i) (m.pxIndex l) := by
  simp only [links, linkBetween, vListInsertEnd, addItem, update_of_ne other]

theorem insertBehind_links {m : Memory Item ListId TickType} (l : ListId) {i : Item} {p : Node Item ListId}
    (other : m.pxNext p ≠ .item i) :
    (m.insertBehind l i p).links = linkBetween m.links p (.item i) (m.pxNext p) := by
  simp only [links, linkBetween, insertBehind, addItem, update_self]
  rw [update_comm other]

theorem removeFrom_links {m : Memory Item ListId TickType} {i : Item} (l : ListId) (other : m.pxNext (.item i) ≠ .item i) :
    (m.removeFrom i l).links = unlink m.links (.item i) := by
  unfold removeFrom
  by_cases index : m.pxIndex l = .item i
  · simp only [index, if_true, links, unlink, update_of_ne other.symm]
  · simp only [index, if_false, links, unlink, update_of_ne other.symm]

theorem removeFrom_pxIndex {m : Memory Item ListId TickType} {i : Item} (l : ListId) (other : m.pxNext (.item i) ≠ .item i) :
    (m.removeFrom i l).pxIndex =
      if m.pxIndex l = .item i then update m.pxIndex l (m.pxPrevious (.item i)) else m.pxIndex := by
  unfold removeFrom
  by_cases index : m.pxIndex l = .item i
  · simp only [index, if_true, update_of_ne other.symm]
  · simp only [index, if_false]

theorem removeFrom_fields (m : Memory Item ListId TickType) (i : Item) (l : ListId) :
    (m.removeFrom i l).xItemValue = m.xItemValue ∧ (m.removeFrom i l).pxContainer = update m.pxContainer i none ∧
      (m.removeFrom i l).uxNumberOfItems = update m.uxNumberOfItems l (m.uxNumberOfItems l - 1) := by
  unfold removeFrom
  by_cases index : m.pxIndex l = .item i
  · simp only [index, if_true, and_self]
  · simp only [index, if_false, and_self]

/-! ### What the memory shows -/

/-- The nodes of a list. -/
def nodes (l : ListId) (c : Cursor Item) : List (Node Item ListId) := .xListEnd l :: c.items.map .item

/-- The memory shows the list. -/
structure Holds [Top TickType] (m : Memory Item ListId TickType) (l : ListId) (c : Cursor Item) : Prop where
  ring : Ring m.links (.xListEnd l) (c.items.map .item)
  index : m.pxIndex l = (c.behind.map .item).headD (.xListEnd l)
  count : m.uxNumberOfItems l = c.items.length
  marker : m.xItemValue (.xListEnd l) = ⊤

theorem item_mem_nodes {l : ListId} {c : Cursor Item} {i : Item} : Node.item i ∈ nodes l c ↔ i ∈ c.items := by
  simp [nodes]

theorem nodes_apart {l l' : ListId} {c c' : Cursor Item} (ne : l' ≠ l) (apart : ∀ j ∈ c'.items, j ∉ c.items) :
    ∀ n ∈ nodes l' c', n ∉ nodes l c := by
  rintro (i | e) inside
  · rw [item_mem_nodes] at inside ⊢
    exact apart i inside
  · simp only [nodes, List.mem_cons, Node.xListEnd.injEq, List.mem_map, reduceCtorEq, and_false, exists_false,
      or_false] at inside ⊢
    rintro rfl
    exact ne inside.symm

/-- The item is linked in between two parts of the list. -/
structure Linked (m m' : Memory Item ListId TickType) (l : ListId) (i : Item) (front back : List Item) : Prop where
  links : m'.links = linkBetween m.links ((front.map .item).getLastD (.xListEnd l)) (.item i)
    ((back.map .item).headD (.xListEnd l))
  pxIndex : m'.pxIndex = m.pxIndex
  xItemValue : m'.xItemValue = m.xItemValue
  pxContainer : m'.pxContainer = update m.pxContainer i (some l)
  uxNumberOfItems : m'.uxNumberOfItems = update m.uxNumberOfItems l (m.uxNumberOfItems l + 1)

section
variable [Top TickType] {m m' : Memory Item ListId TickType} {l l' : ListId} {c c' : Cursor Item} {i : Item}
  {front back : List Item}

theorem Holds.congr (holds : m.Holds l c)
    (links : ∀ n ∈ nodes l c, m'.links.next n = m.links.next n ∧ m'.links.prev n = m.links.prev n)
    (index : m'.pxIndex l = m.pxIndex l) (count : m'.uxNumberOfItems l = m.uxNumberOfItems l)
    (marker : m'.xItemValue (.xListEnd l) = m.xItemValue (.xListEnd l)) : m'.Holds l c :=
  ⟨holds.ring.congr links, index.trans holds.index, count.trans holds.count, marker.trans holds.marker⟩

theorem Holds.parts (holds : m.Holds l c) (parts : c.items = front ++ back) :
    Ring m.links (.xListEnd l) (front.map .item ++ back.map .item) := by
  rw [← List.map_append, ← parts]
  exact holds.ring

theorem Holds.nodup (holds : m.Holds l c) : c.items.Nodup := (List.nodup_cons.mp holds.ring.distinct).2.of_map _

/-- The neighbours of the place between the two parts. -/
theorem parts_mem_nodes (l : ListId) (parts : c.items = front ++ back) :
    (front.map .item).getLastD (.xListEnd l) ∈ nodes l c ∧ (back.map .item).headD (.xListEnd l) ∈ nodes l c := by
  rw [nodes, parts, List.map_append]
  refine ⟨?_, ?_⟩
  · exact List.cons_subset_cons _ (List.subset_append_left ..) List.getLastD_mem_cons
  · cases back with
    | nil => exact .head _
    | cons j back => exact .tail _ (List.mem_append_right _ (.head _))

theorem Linked.holds (step : Linked m m' l i front back) (holds : m.Holds l c) (fresh : i ∉ c.items)
    (parts : c.items = front ++ back) (items : c'.items = front ++ i :: back)
    (head : c'.behind.head? = c.behind.head?) : m'.Holds l c' := by
  have new : Node.item i ∉ Node.xListEnd l :: (front.map .item ++ back.map .item) := by
    rw [← List.map_append, ← parts]
    exact mt item_mem_nodes.mp fresh
  refine ⟨?_, ?_, ?_, ?_⟩
  · rw [step.links, items, List.map_append, List.map_cons]
    exact ring_insert (holds.parts parts) new
  · rw [step.pxIndex, holds.index, List.headD_eq_head?_getD, List.headD_eq_head?_getD, List.head?_map, List.head?_map,
      head]
  · rw [step.uxNumberOfItems, update_self, holds.count, parts, items]
    simp [Nat.add_assoc]
  · rw [step.xItemValue, holds.marker]

/-- What is linked in does not change the other lists. -/
theorem Linked.frame (step : Linked m m' l i front back) (parts : c.items = front ++ back) (other : m.Holds l' c')
    (ne : l' ≠ l) (fresh : i ∉ c'.items) (apart : ∀ j ∈ c'.items, j ∉ c.items) : m'.Holds l' c' := by
  refine other.congr ?_ (by rw [step.pxIndex]) (by rw [step.uxNumberOfItems, update_of_ne ne]) (by rw [step.xItemValue])
  intro n inside
  obtain ⟨before, after⟩ := parts_mem_nodes l parts
  have away := nodes_apart ne apart n inside
  rw [step.links]
  refine linkBetween_frame ?_ ?_ ?_
  · rintro rfl
    exact away before
  · rintro rfl
    exact fresh (item_mem_nodes.mp inside)
  · rintro rfl
    exact away after

/-! ### What the functions are for -/

theorem vListInitialise_holds (m : Memory Item ListId TickType) (l : ListId) : (m.vListInitialise l).Holds l .empty := by
  refine ⟨ring_nil ?_ ?_, ?_, ?_, ?_⟩
  · exact update_self ..
  · exact update_self ..
  · exact update_self ..
  · exact update_self ..
  · exact update_self ..

theorem vListInsertEnd_linked (holds : m.Holds l c) (fresh : i ∉ c.items) :
    ∃ front back, c.items = front ++ back ∧ (c.insertBefore i).items = front ++ i :: back ∧
      Linked m (m.vListInsertEnd l i) l i front back := by
  obtain ⟨front, back, parts, items, head⟩ := c.insertBefore_items i
  have after : m.pxIndex l = (back.map .item).headD (.xListEnd l) := by
    rw [holds.index, List.headD_eq_head?_getD, List.headD_eq_head?_getD, List.head?_map, List.head?_map, head]
  have other : m.pxIndex l ≠ .item i := by
    intro same
    have inside := (parts_mem_nodes l parts).2
    rw [← after, same, item_mem_nodes] at inside
    exact fresh inside
  have before : m.pxPrevious (m.pxIndex l) = (front.map .item).getLastD (.xListEnd l) := by
    rw [after]
    exact (holds.parts parts).prev_eq
  refine ⟨front, back, parts, items, ⟨?_, rfl, rfl, rfl, rfl⟩⟩
  rw [vListInsertEnd_links other, before, after]

/-- The node of the index is the last one that the cursor has passed. -/
theorem Holds.index_eq (holds : m.Holds l c) : m.pxIndex l = (c.behind.reverse.map .item).getLastD (.xListEnd l) := by
  rw [holds.index, List.headD_eq_head?_getD, List.getLastD_eq_getLast?, List.map_reverse, List.getLast?_reverse]

/-- The item behind the index, or behind the end marker, has its turn. -/
theorem getOwnerOfNextEntry_eq (holds : m.Holds l c) (moved : c.advance = some (i, c')) :
    m.getOwnerOfNextEntry l = some (i, { m with pxIndex := update m.pxIndex l (.item i) }) := by
  have next : m.pxNext (m.pxIndex l) = (c.ahead.map .item).headD (.xListEnd l) := by
    rw [holds.index_eq]
    exact (holds.parts rfl).next_eq
  have first : m.pxNext (.xListEnd l) = (c.items.map .item).headD (.xListEnd l) := (@Ring.next_eq _ _ [] _ _ holds.ring)
  obtain ⟨behind, ahead⟩ := c
  cases ahead with
  | cons j rest =>
    obtain ⟨rfl, -⟩ := Prod.mk.inj (Option.some.inj moved)
    simp only [List.map_cons, List.headD_cons] at next
    simp only [getOwnerOfNextEntry, next, update_self, reduceCtorEq, if_false]
  | nil =>
    simp only [Cursor.advance] at moved
    split at moved
    case h_1 j rest whole =>
      obtain ⟨rfl, -⟩ := Prod.mk.inj (Option.some.inj moved)
      simp only [List.map_nil, List.headD_nil] at next
      simp only [Cursor.items, whole, List.cons_append, List.map_cons, List.headD_cons] at first
      simp only [getOwnerOfNextEntry, next, update_self, if_true, first, update_idem]
    case h_2 => cases moved

theorem getOwnerOfNextEntry_holds (holds : m.Holds l c) (moved : c.advance = some (i, c')) :
    Holds { m with pxIndex := update m.pxIndex l (.item i) } l c' := by
  have head : c'.behind.head? = some i := Cursor.advance_head moved
  have items := Cursor.advance_items moved
  refine ⟨items ▸ holds.ring, ?_, items ▸ holds.count, holds.marker⟩
  rw [List.headD_eq_head?_getD, List.head?_map, head]
  exact update_self ..

/-- An item is not linked to itself. -/
theorem Holds.next_ne (holds : m.Holds l c) (inside : i ∈ c.items) : m.pxNext (.item i) ≠ .item i := by
  obtain ⟨front, back, parts⟩ := List.append_of_mem inside
  have next : m.pxNext (.item i) = (back.map .item).headD (.xListEnd l) := by
    have ring := holds.parts parts
    rw [List.map_cons] at ring
    exact ring.neighbours.2
  have distinct := holds.nodup
  rw [parts, List.nodup_middle, List.nodup_cons] at distinct
  intro same
  rw [next] at same
  cases back with
  | nil => cases same
  | cons j back =>
    cases same
    exact distinct.1 (by simp)

theorem removeFrom_holds (holds : m.Holds l c) (inside : i ∈ c.items) : (m.removeFrom i l).Holds l (c.remove i) := by
  have other := holds.next_ne inside
  have distinct := holds.nodup
  obtain ⟨values, -, count⟩ := m.removeFrom_fields i l
  obtain ⟨front, back, parts, items⟩ := Cursor.remove_split distinct inside
  refine ⟨?_, ?_, ?_, ?_⟩
  · have ring := holds.parts parts
    rw [List.map_cons] at ring
    rw [removeFrom_links l other, items, List.map_append]
    exact ring_remove ring
  · rw [removeFrom_pxIndex l other]
    by_cases here : m.pxIndex l = .item i
    · -- the index steps back, as the cursor does
      rw [if_pos here, update_self]
      obtain ⟨behind, ahead⟩ := c
      cases behind with
      | nil => simp [holds.index] at here
      | cons j passed =>
        obtain rfl : j = i := Node.item.inj (holds.index.symm.trans here)
        have ring := @Holds.parts _ _ _ _ _ _ m l ⟨j :: passed, ahead⟩ passed.reverse (j :: ahead) holds (by simp [Cursor.items])
        rw [List.map_cons] at ring
        have before : m.pxPrevious (.item j) = (passed.reverse.map .item).getLastD (.xListEnd l) := ring.neighbours.1
        rw [before, Cursor.remove_behind distinct, List.headD_eq_head?_getD, List.getLastD_eq_getLast?,
          List.map_reverse, List.getLast?_reverse]
    · have away : c.behind.head? ≠ some i := by
        intro same
        rw [holds.index, List.headD_eq_head?_getD, List.head?_map, same] at here
        exact here rfl
      rw [if_neg here, holds.index, List.headD_eq_head?_getD, List.headD_eq_head?_getD, List.head?_map, List.head?_map,
        Cursor.remove_head away]
  · rw [count, update_self, holds.count, parts, items]
    simp
  · rw [values, holds.marker]

/-- What is taken out does not change the other lists. -/
theorem removeFrom_frame (holds : m.Holds l c) (inside : i ∈ c.items) (other : m.Holds l' c') (ne : l' ≠ l)
    (apart : ∀ j ∈ c'.items, j ∉ c.items) : (m.removeFrom i l).Holds l' c' := by
  have notSelf := holds.next_ne inside
  obtain ⟨values, -, count⟩ := m.removeFrom_fields i l
  obtain ⟨front, back, parts⟩ := List.append_of_mem inside
  have ring := holds.parts parts
  rw [List.map_cons] at ring
  obtain ⟨before, after⟩ := ring.neighbours
  refine other.congr ?_ ?_ ?_ ?_
  · intro n there
    have away := nodes_apart ne apart n there
    rw [removeFrom_links l notSelf]
    refine unlink_frame ?_ ?_
    · rintro rfl
      exact away (before ▸ (parts_mem_nodes l parts).1)
    · rintro rfl
      have behind : c.items = (front ++ [i]) ++ back := by rw [parts, List.append_assoc]; rfl
      exact away (after ▸ (parts_mem_nodes l behind).2)
  · rw [removeFrom_pxIndex l notSelf]
    split
    · rw [update_of_ne ne]
    · rfl
  · rw [count, update_of_ne ne]
  · rw [values]

end

section
variable [LinearOrder TickType] [OrderTop TickType] {m : Memory Item ListId TickType} {l : ListId} {c : Cursor Item}
  {i : Item}

/-- The loop passes over the items with no greater value. -/
theorem insertionPoint_eq {v : TickType} (low : v ≠ ⊤) (marker : m.xItemValue (.xListEnd l) = ⊤) (rounds : ℕ)
    (front back : List Item) (enough : back.length < rounds)
    (ring : Ring m.links (.xListEnd l) (front.map .item ++ back.map .item)) :
    m.insertionPoint v rounds ((front.map .item).getLastD (.xListEnd l)) =
      some (((front ++ back.takeWhile fun j => ¬ v < m.xItemValue (.item j)).map .item).getLastD (.xListEnd l)) := by
  induction back generalizing front rounds with
  | nil =>
    obtain ⟨rounds, rfl⟩ := Nat.exists_eq_add_of_lt enough
    have stop : ¬ m.xItemValue (m.pxNext ((front.map .item).getLastD (.xListEnd l))) ≤ v := by
      have next : m.pxNext ((front.map .item).getLastD (.xListEnd l)) = .xListEnd l := ring.next_eq
      rw [next, marker, top_le_iff]
      exact low
    simp only [insertionPoint, stop, if_false, List.takeWhile_nil, List.append_nil]
  | cons j back ih =>
    obtain ⟨rounds, rfl⟩ := Nat.exists_eq_add_of_lt enough
    have next : m.pxNext ((front.map .item).getLastD (.xListEnd l)) = .item j := ring.next_eq
    have onward : Ring m.links (.xListEnd l) ((front ++ [j]).map .item ++ back.map .item) := by
      simpa using ring
    by_cases beyond : v < m.xItemValue (.item j)
    · have stop : ¬ m.xItemValue (.item j) ≤ v := not_le.mpr beyond
      simp only [insertionPoint, next, stop, if_false, List.takeWhile_cons, beyond, not_true, decide_false,
        Bool.false_eq_true, List.append_nil]
    · have here : ((front ++ [j]).map .item).getLastD (.xListEnd l) = Node.item j := by
        rw [List.map_append, List.map_singleton, List.getLastD_concat]
      have rest := ih (back.length + 1 + rounds) (front ++ [j]) (by omega) onward
      rw [here, List.append_assoc] at rest
      simp only [List.length_cons, insertionPoint, next, not_lt.mp beyond, if_true, List.takeWhile_cons, beyond, not_false_iff,
        decide_true]
      exact rest

theorem iterator_eq (holds : m.Holds l c) (v : TickType) :
    m.iterator l v =
      some (((c.items.takeWhile fun j => ¬ v < m.xItemValue (.item j)).map .item).getLastD (.xListEnd l)) := by
  unfold iterator
  by_cases top : v = ⊤
  · have last : m.pxPrevious (.xListEnd l) = (c.items.map .item).getLastD (.xListEnd l) :=
      (holds.parts (List.append_nil c.items).symm).prev_eq
    have all : (c.items.takeWhile fun j => ¬ v < m.xItemValue (.item j)) = c.items := by
      rw [List.takeWhile_eq_self_iff]
      simp [top]
    rw [if_pos top, last, all]
  · have rounds : c.items.length < m.uxNumberOfItems l + 1 := by
      rw [holds.count]
      exact Nat.lt_succ_self _
    rw [if_neg top]
    exact insertionPoint_eq top holds.marker _ [] c.items rounds holds.ring

/-- `vListInsert` puts an item in front of the first one with a greater value. -/
theorem vListInsert_linked (holds : m.Holds l c) (fresh : i ∉ c.items) :
    ∃ front back m', c.items = front ++ back ∧
      c.items.orderedInsert (fun a b => m.xItemValue (.item a) < m.xItemValue (.item b)) i = front ++ i :: back ∧
      m.vListInsert l i = some m' ∧ Linked m m' l i front back := by
  have place := iterator_eq holds (m.xItemValue (.item i))
  have parts := @List.takeWhile_append_dropWhile _ (fun j => ¬ m.xItemValue (.item i) < m.xItemValue (.item j)) c.items
  have inserted := List.orderedInsert_eq_take_drop (fun a b => m.xItemValue (.item a) < m.xItemValue (.item b)) i c.items
  generalize (c.items.takeWhile fun j => ¬ m.xItemValue (.item i) < m.xItemValue (.item j)) = front at place parts inserted
  generalize (c.items.dropWhile fun j => ¬ m.xItemValue (.item i) < m.xItemValue (.item j)) = back at parts inserted
  have next : m.pxNext ((front.map .item).getLastD (.xListEnd l)) = (back.map .item).headD (.xListEnd l) :=
    (holds.parts parts.symm).next_eq
  have other : m.pxNext ((front.map .item).getLastD (.xListEnd l)) ≠ .item i := by
    intro same
    have inside := (parts_mem_nodes l parts.symm).2
    rw [← next, same, item_mem_nodes] at inside
    exact fresh inside
  refine ⟨front, back, m.insertBehind l i ((front.map .item).getLastD (.xListEnd l)), parts.symm, inserted, ?_, ?_⟩
  · rw [vListInsert, place, Option.map_some]
  · refine ⟨?_, rfl, rfl, rfl, rfl⟩
    rw [insertBehind_links l other, next]

end

/-- The items of a list, as many as it counts, along the links from the end marker on. -/
def walk (m : Memory Item ListId TickType) : ℕ → Node Item ListId → List Item
  | 0, _ => []
  | rounds + 1, n =>
    match m.pxNext n with
    | .item i => i :: walk m rounds (.item i)
    | .xListEnd _ => []

def contents (m : Memory Item ListId TickType) (l : ListId) : List Item := m.walk (m.uxNumberOfItems l) (.xListEnd l)

theorem walk_eq {m : Memory Item ListId TickType} {l : ListId} (front back : List Item)
    (ring : Ring m.links (.xListEnd l) (front.map .item ++ back.map .item)) :
    m.walk back.length ((front.map .item).getLastD (.xListEnd l)) = back := by
  induction back generalizing front with
  | nil => rfl
  | cons j back ih =>
    have next : m.pxNext ((front.map .item).getLastD (.xListEnd l)) = .item j := ring.next_eq
    have onward : Ring m.links (.xListEnd l) ((front ++ [j]).map .item ++ back.map .item) := by
      simpa using ring
    have rest := ih (front ++ [j]) onward
    rw [List.map_append, List.map_singleton, List.getLastD_concat] at rest
    rw [List.length_cons, walk, next]
    exact congrArg _ rest

theorem Holds.contents_eq [Top TickType] {m : Memory Item ListId TickType} {l : ListId} {c : Cursor Item}
    (holds : m.Holds l c) : m.contents l = c.items := by
  rw [contents, holds.count]
  exact walk_eq [] c.items holds.ring

end Memory

end OsyProg.KernelLists
