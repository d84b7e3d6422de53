import Mathlib.Data.List.Basic
import Mathlib.Data.List.Nodup
import Mathlib.Data.List.Perm.Basic
import Mathlib.Data.List.Sort

/-!
A circular list with a cursor that walks through it again and again (`advance`). The items
stand in their order from a mark on, those up to the cursor and those ahead of it; the
order in which they have their turns starts behind the cursor (`turns`). An item is put
right before the cursor (`insertBefore`), or by an order of the items (`insertOrdered`), and taken
out again (`remove`). A turn puts an item behind all others (`advance_turns`), and what else
happens leaves the order of the items that stay as it was (`insertBefore_turns`,
`insertOrdered_turns`, `remove_turns`).
-/
namespace OsyProg.Cursors
universe u

variable {α : Type u}

/-- The items up to the cursor, its own first, and those ahead of it. -/
structure Cursor (α : Type u) where
  behind : List α
  ahead : List α
  deriving DecidableEq

namespace Cursor

def empty : Cursor α := ⟨[], []⟩

/-- The items from the mark on. -/
def items (c : Cursor α) : List α := c.behind.reverse ++ c.ahead

/-- The items in the order of their next turns. -/
def turns (c : Cursor α) : List α := c.ahead ++ c.behind.reverse

/-- The cursor steps to the next item and passes over the mark. -/
def advance (c : Cursor α) : Option (α × Cursor α) :=
  match c.ahead with
  | x :: rest => some (x, ⟨x :: c.behind, rest⟩)
  | [] =>
    match c.behind.reverse with
    | x :: rest => some (x, ⟨[x], rest⟩)
    | [] => none

/-- Right before the item of the cursor, or before the mark. -/
def insertBefore (x : α) (c : Cursor α) : Cursor α :=
  match c.behind with
  | [] => ⟨[], c.ahead ++ [x]⟩
  | y :: passed => ⟨y :: x :: passed, c.ahead⟩

/-- In front of the first item that it is related to. -/
def insertOrdered (r : α → α → Prop) [DecidableRel r] (x : α) (c : Cursor α) : Cursor α :=
  if ∀ y ∈ c.behind, ¬ r x y then ⟨c.behind, c.ahead.orderedInsert r x⟩
  else ⟨(c.behind.reverse.orderedInsert r x).reverse, c.ahead⟩

def remove [DecidableEq α] (x : α) (c : Cursor α) : Cursor α :=
  ⟨c.behind.filter (· ≠ x), c.ahead.filter (· ≠ x)⟩

@[simp] theorem items_empty : (empty : Cursor α).items = [] := rfl

/-! ### The items -/

theorem turns_perm (c : Cursor α) : c.turns.Perm c.items := List.perm_append_comm

theorem mem_turns {c : Cursor α} {x : α} : x ∈ c.turns ↔ x ∈ c.items := c.turns_perm.mem_iff

theorem advance_items {c c' : Cursor α} {x : α} (moved : c.advance = some (x, c')) : c'.items = c.items := by
  obtain ⟨behind, ahead⟩ := c
  cases ahead with
  | cons y rest =>
    obtain ⟨-, rfl⟩ := Prod.mk.inj (Option.some.inj moved)
    simp [items]
  | nil =>
    simp only [advance] at moved
    split at moved
    case h_1 y rest whole =>
      obtain ⟨-, rfl⟩ := Prod.mk.inj (Option.some.inj moved)
      simp [items, whole]
    case h_2 => cases moved

theorem advance_head {c c' : Cursor α} {x : α} (moved : c.advance = some (x, c')) : c'.behind.head? = some x := by
  unfold advance at moved
  split at moved
  case h_1 =>
    obtain ⟨rfl, rfl⟩ := Prod.mk.inj (Option.some.inj moved)
    rfl
  case h_2 =>
    split at moved
    case h_1 =>
      obtain ⟨rfl, rfl⟩ := Prod.mk.inj (Option.some.inj moved)
      rfl
    case h_2 => cases moved

/-- Where the new item stands: between what is in front of the cursor and the rest. -/
theorem insertBefore_items (x : α) (c : Cursor α) :
    ∃ front back, c.items = front ++ back ∧ (insertBefore x c).items = front ++ x :: back ∧
      back.head? = c.behind.head? := by
  obtain ⟨behind, ahead⟩ := c
  cases behind with
  | nil => exact ⟨ahead, [], by simp [items], by simp [items, insertBefore], rfl⟩
  | cons y passed => exact ⟨passed.reverse, y :: ahead, by simp [items], by simp [items, insertBefore], rfl⟩

theorem insertBefore_head (x : α) (c : Cursor α) : (insertBefore x c).behind.head? = c.behind.head? := by
  obtain ⟨behind, ahead⟩ := c
  cases behind with
  | nil => rfl
  | cons y passed => rfl

section
variable {r : α → α → Prop} [DecidableRel r]

theorem orderedInsert_append_of_pos {x : α} {front back : List α} (early : ∀ y ∈ front, ¬ r x y) :
    (front ++ back).orderedInsert r x = front ++ back.orderedInsert r x := by
  induction front with
  | nil => rfl
  | cons y front ih =>
    rw [List.cons_append, List.orderedInsert, if_neg (early y (.head _)), ih fun z inside => early z (.tail _ inside)]
    rfl

theorem orderedInsert_append_of_neg {x : α} {front back : List α} (late : ∃ y ∈ front, r x y) :
    (front ++ back).orderedInsert r x = front.orderedInsert r x ++ back := by
  induction front with
  | nil => simp at late
  | cons y front ih =>
    rw [List.cons_append, List.orderedInsert, List.orderedInsert]
    by_cases here : r x y
    · rw [if_pos here, if_pos here]
      rfl
    · obtain ⟨z, inside, later⟩ := late
      have next : z ∈ front := (List.mem_cons.mp inside).resolve_left (by rintro rfl; exact here later)
      rw [if_neg here, if_neg here, ih ⟨z, next, later⟩]
      rfl

theorem insertOrdered_items (x : α) (c : Cursor α) : (insertOrdered r x c).items = c.items.orderedInsert r x := by
  unfold insertOrdered
  by_cases early : ∀ y ∈ c.behind, ¬ r x y
  · rw [if_pos early, items, items, orderedInsert_append_of_pos (by simpa using early)]
  · have late : ∃ y ∈ c.behind.reverse, r x y := by simpa using early
    rw [if_neg early, items, items, orderedInsert_append_of_neg late, List.reverse_reverse]

theorem orderedInsert_getLast? {x : α} {l : List α} (late : ∃ y ∈ l, r x y) :
    (l.orderedInsert r x).getLast? = l.getLast? := by
  induction l with
  | nil => simp at late
  | cons y l ih =>
    rw [List.orderedInsert]
    by_cases here : r x y
    · rw [if_pos here, List.getLast?_cons_cons]
    · obtain ⟨z, inside, later⟩ := late
      have next : z ∈ l := (List.mem_cons.mp inside).resolve_left (by rintro rfl; exact here later)
      rw [if_neg here, List.getLast?_cons, List.getLast?_cons, ih ⟨z, next, later⟩]

/-- The cursor stays with its item. -/
theorem insertOrdered_head (x : α) (c : Cursor α) : (insertOrdered r x c).behind.head? = c.behind.head? := by
  unfold insertOrdered
  by_cases early : ∀ y ∈ c.behind, ¬ r x y
  · rw [if_pos early]
  · have late : ∃ y ∈ c.behind.reverse, r x y := by simpa using early
    rw [if_neg early, List.head?_reverse, orderedInsert_getLast? late, List.getLast?_reverse]

/-- What holds between the new item and each of the others, and of the others already, holds of all. -/
theorem orderedInsert_pairwise {s : α → α → Prop} {x : α} {l : List α} (through : ∀ a b c, s a b → s b c → s a c)
    (pairs : l.Pairwise s) (early : ∀ y ∈ l, ¬ r x y → s y x) (late : ∀ y ∈ l, r x y → s x y) :
    (l.orderedInsert r x).Pairwise s := by
  induction l with
  | nil => exact List.pairwise_singleton s x
  | cons y l ih =>
    obtain ⟨first, rest⟩ := List.pairwise_cons.mp pairs
    rw [List.orderedInsert]
    by_cases here : r x y
    · have next := late y (.head _) here
      rw [if_pos here]
      refine List.pairwise_cons.mpr ⟨?_, pairs⟩
      intro z inside
      rcases List.mem_cons.mp inside with rfl | inside
      · exact next
      · exact through x y z next (first z inside)
    · rw [if_neg here]
      refine List.pairwise_cons.mpr ⟨?_, ih rest (fun z h => early z (.tail _ h)) (fun z h => late z (.tail _ h))⟩
      intro z inside
      rcases (List.mem_orderedInsert r).mp inside with rfl | inside
      · exact early y (.head _) here
      · exact first z inside

theorem filter_orderedInsert {p : α → Bool} {x : α} (other : p x = false) (l : List α) :
    (l.orderedInsert r x).filter p = l.filter p := by
  induction l with
  | nil => simp [other]
  | cons y l ih =>
    rw [List.orderedInsert]
    split
    · rw [List.filter_cons_of_neg (by simp [other])]
    · rw [List.filter_cons, List.filter_cons, ih]

/-! ### The turns -/

/-- The first item has its turn and is behind all others then. -/
theorem advance_turns {c c' : Cursor α} {x : α} (moved : c.advance = some (x, c')) :
    ∃ rest, c.turns = x :: rest ∧ c'.turns = rest ++ [x] := by
  obtain ⟨behind, ahead⟩ := c
  cases ahead with
  | cons y rest =>
    obtain ⟨rfl, rfl⟩ := Prod.mk.inj (Option.some.inj moved)
    exact ⟨rest ++ behind.reverse, rfl, by simp [turns]⟩
  | nil =>
    simp only [advance] at moved
    split at moved
    case h_1 y rest whole =>
      obtain ⟨rfl, rfl⟩ := Prod.mk.inj (Option.some.inj moved)
      exact ⟨rest, by simp [turns, whole], by simp [turns]⟩
    case h_2 => cases moved

theorem advance_isSome {c : Cursor α} (full : c.items ≠ []) : ∃ x c', c.advance = some (x, c') := by
  obtain ⟨behind, ahead⟩ := c
  cases ahead with
  | cons y rest => exact ⟨_, _, rfl⟩
  | nil =>
    cases whole : behind.reverse with
    | nil => simp [items, whole] at full
    | cons y rest => exact ⟨y, ⟨[y], rest⟩, by simp [advance, whole]⟩

theorem insertBefore_turns {p : α → Bool} {x : α} (other : p x = false) (c : Cursor α) :
    (insertBefore x c).turns.filter p = c.turns.filter p := by
  obtain ⟨behind, ahead⟩ := c
  cases behind with
  | nil => simp [insertBefore, turns, other]
  | cons y passed => simp [insertBefore, turns, other]

theorem insertOrdered_turns {p : α → Bool} {x : α} (other : p x = false) (c : Cursor α) :
    (insertOrdered r x c).turns.filter p = c.turns.filter p := by
  unfold insertOrdered
  split
  · simp only [turns, List.filter_append, filter_orderedInsert other]
  · simp only [turns, List.filter_append, List.reverse_reverse, filter_orderedInsert other]

end

section
variable [DecidableEq α]

theorem remove_items (x : α) (c : Cursor α) : (remove x c).items = c.items.filter (· ≠ x) := by
  simp [remove, items]

/-- The item that is taken out, and what is left. -/
theorem remove_split {x : α} {c : Cursor α} (distinct : c.items.Nodup) (inside : x ∈ c.items) :
    ∃ front back, c.items = front ++ x :: back ∧ (remove x c).items = front ++ back := by
  obtain ⟨front, back, parts⟩ := List.append_of_mem inside
  refine ⟨front, back, parts, ?_⟩
  rw [parts, List.nodup_middle, List.nodup_cons] at distinct
  have others : ∀ y ∈ front ++ back, y ≠ x := fun y there same => distinct.1 (same ▸ there)
  rw [remove_items, parts, List.filter_append, List.filter_cons_of_neg (by simp), ← List.filter_append,
    List.filter_eq_self]
  intro y there
  exact decide_eq_true (others y there)

/-- The cursor steps back from the item that is taken out. -/
theorem remove_behind {x : α} {passed ahead : List α} (distinct : (items ⟨x :: passed, ahead⟩).Nodup) :
    (remove x ⟨x :: passed, ahead⟩).behind = passed := by
  have reversed : (x :: passed).reverse.Nodup := distinct.of_append_left
  have fresh := (List.nodup_cons.mp (List.nodup_reverse.mp reversed)).1
  rw [remove, List.filter_cons_of_neg (by simp), List.filter_eq_self]
  intro y inside
  exact decide_eq_true fun same => fresh (same ▸ inside)

theorem remove_head {x : α} {c : Cursor α} (other : c.behind.head? ≠ some x) :
    (remove x c).behind.head? = c.behind.head? := by
  obtain ⟨behind, ahead⟩ := c
  cases behind with
  | nil => rfl
  | cons y passed =>
    have ne : y ≠ x := fun same => other (congrArg some same)
    rw [remove, List.filter_cons_of_pos (by simpa using ne)]
    rfl

theorem remove_turns {p : α → Bool} {x : α} (other : p x = false) (c : Cursor α) :
    (remove x c).turns.filter p = c.turns.filter p := by
  have both : ∀ y, (p y && decide (y ≠ x)) = p y := by
    intro y
    by_cases same : y = x
    · rw [same, other, Bool.false_and]
    · simp [same]
  simp only [turns, remove, ← List.filter_reverse, ← List.filter_append, List.filter_filter, both]

end

end Cursor

end OsyProg.Cursors
