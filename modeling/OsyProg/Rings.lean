import Mathlib.Data.List.Basic
import Mathlib.Data.List.Chain
import Mathlib.Data.List.Nodup
import Mathlib.Logic.Function.Basic

/-!
Circular doubly linked lists: a mark and the items behind it, each node linked to the one
behind it in both directions, the last item to the mark again (`Ring`). A node is put
between two neighbours (`linkBetween`, `ring_insert`) and taken out again (`unlink`,
`ring_remove`), and links that a ring does not use may be anything (`Ring.congr`).
-/
namespace OsyProg.Rings
open Function
universe u

variable {Node : Type u}

/-- The links of all nodes. -/
structure Links (Node : Type u) where
  next : Node → Node
  prev : Node → Node

def Adjacent (m : Links Node) (x y : Node) : Prop := m.next x = y ∧ m.prev y = x

/-- The items in their order, from the mark on and back to it. -/
structure Ring (m : Links Node) (mark : Node) (items : List Node) : Prop where
  distinct : (mark :: items).Nodup
  linked : (mark :: items ++ [mark]).IsChain (Adjacent m)

/-- Links may change where a chain does not use them. -/
theorem chain_congr {m m' : Links Node} {l : List Node} (chain : l.IsChain (Adjacent m))
    (nexts : ∀ x ∈ l.dropLast, m'.next x = m.next x) (prevs : ∀ y ∈ l.tail, m'.prev y = m.prev y) :
    l.IsChain (Adjacent m') := by
  induction l with
  | nil => exact .nil
  | cons x l ih =>
    cases l with
    | nil => exact .singleton x
    | cons y l =>
      obtain ⟨⟨forward, backward⟩, rest⟩ := List.isChain_cons_cons.mp chain
      refine List.isChain_cons_cons.mpr ⟨⟨?_, ?_⟩, ih rest ?_ ?_⟩
      · rw [nexts x (by simp), forward]
      · rw [prevs y (by simp), backward]
      · intro z inside
        exact nexts z (by simp [inside])
      · intro z inside
        exact prevs z (by simp [List.mem_of_mem_tail inside])

theorem Ring.congr {m m' : Links Node} {mark : Node} {items : List Node} (ring : Ring m mark items)
    (same : ∀ x ∈ mark :: items, m'.next x = m.next x ∧ m'.prev x = m.prev x) : Ring m' mark items := by
  refine ⟨ring.distinct, chain_congr ring.linked ?_ ?_⟩
  · intro x inside
    rw [List.dropLast_concat] at inside
    exact (same x inside).1
  · intro y inside
    rw [List.cons_append, List.tail_cons, List.mem_append, List.mem_singleton] at inside
    rcases inside with inside | rfl
    · exact (same y (.tail _ inside)).2
    · exact (same y (.head _)).2

/-- A mark that is linked to itself. -/
theorem ring_nil {m : Links Node} {mark : Node} (forward : m.next mark = mark) (backward : m.prev mark = mark) :
    Ring m mark [] :=
  ⟨List.nodup_singleton mark, List.isChain_pair.mpr ⟨forward, backward⟩⟩

/-! ### A place in a ring -/

section
variable {mark : Node} {front back : List Node}

theorem cons_eq_append_getLastD (mark : Node) (front : List Node) :
    mark :: front = (mark :: front).dropLast ++ [front.getLastD mark] := by
  rw [← List.getLast_eq_getLastD (List.cons_ne_nil mark front), List.dropLast_append_getLast]

theorem append_eq_headD_cons (mark : Node) (back : List Node) :
    back ++ [mark] = back.headD mark :: (back ++ [mark]).tail := by
  cases back <;> rfl

/-- A ring as the way to the last node of its front part, the link from there to the first
    node of its back part, and the way back to the mark. -/
theorem linked_split (m : Links Node) (mark : Node) (front back : List Node) :
    (mark :: (front ++ back) ++ [mark]).IsChain (Adjacent m) ↔
      (mark :: front).IsChain (Adjacent m) ∧ Adjacent m (front.getLastD mark) (back.headD mark) ∧
        (back ++ [mark]).IsChain (Adjacent m) := by
  have whole : mark :: (front ++ back) ++ [mark] =
      (mark :: front).dropLast ++ front.getLastD mark :: back.headD mark :: (back ++ [mark]).tail := by
    rw [← append_eq_headD_cons, List.append_cons _ (front.getLastD mark), ← cons_eq_append_getLastD]
    simp only [List.cons_append, List.append_assoc]
  rw [whole, List.isChain_append_cons_cons, ← cons_eq_append_getLastD, ← append_eq_headD_cons]

namespace Ring

variable {m : Links Node} (ring : Ring m mark (front ++ back))

include ring

theorem next_eq : m.next (front.getLastD mark) = back.headD mark :=
  ((linked_split m mark front back).mp ring.linked).2.1.1

theorem prev_eq : m.prev (back.headD mark) = front.getLastD mark :=
  ((linked_split m mark front back).mp ring.linked).2.1.2

end Ring

/-- The neighbours of an item. -/
theorem Ring.neighbours {m : Links Node} {x : Node} (ring : Ring m mark (front ++ x :: back)) :
    m.prev x = front.getLastD mark ∧ m.next x = back.headD mark := by
  have behind : Ring m mark ((front ++ [x]) ++ back) := by rwa [List.append_assoc]
  refine ⟨ring.prev_eq, ?_⟩
  rw [← behind.next_eq, List.getLastD_concat]

/-- What the nodes of a ring being distinct says about the two parts. -/
theorem parts_distinct (distinct : (mark :: (front ++ back)).Nodup) :
    front.getLastD mark ∉ (mark :: front).dropLast ∧ front.getLastD mark ∉ back ∧
      back.headD mark ∉ front ∧ back.headD mark ∉ (back ++ [mark]).tail := by
  have way : (mark :: front).Nodup ∧ back.Nodup ∧ (mark :: front).Disjoint back :=
    List.nodup_append'.mp (List.cons_append ▸ distinct)
  have onward : front.Nodup ∧ (back ++ [mark]).Nodup ∧ front.Disjoint (back ++ [mark]) := by
    rw [← List.nodup_append', ← List.append_assoc]
    exact (List.perm_append_singleton mark (front ++ back)).nodup_iff.mpr distinct
  refine ⟨?_, way.2.2 List.getLastD_mem_cons, ?_, ?_⟩
  · have last := way.1
    rw [cons_eq_append_getLastD] at last
    exact fun inside => (List.nodup_append'.mp last).2.2 inside (.head _)
  · have head : back.headD mark ∈ back ++ [mark] := by
      rw [append_eq_headD_cons]
      exact .head _
    exact fun inside => onward.2.2 inside head
  · have first := onward.2.1
    rw [append_eq_headD_cons] at first
    exact (List.nodup_cons.mp first).1

/-! ### A node is put in and taken out -/

variable [DecidableEq Node]

/-- `x` is put between the neighbours `p` and `q`. -/
def linkBetween (m : Links Node) (p x q : Node) : Links Node where
  next := update (update m.next x q) p x
  prev := update (update m.prev x p) q x

/-- The neighbours of `x` are linked to each other. -/
def unlink (m : Links Node) (x : Node) : Links Node where
  next := update m.next (m.prev x) (m.next x)
  prev := update m.prev (m.next x) (m.prev x)

theorem ring_insert {m : Links Node} {x : Node} (ring : Ring m mark (front ++ back)) (fresh : x ∉ mark :: (front ++ back)) :
    Ring (linkBetween m (front.getLastD mark) x (back.headD mark)) mark (front ++ x :: back) := by
  obtain ⟨distinct, linked⟩ := ring
  obtain ⟨way, -, onward⟩ := (linked_split m mark front back).mp linked
  obtain ⟨notWay, notBack, notFront, notOnward⟩ := parts_distinct distinct
  have inWay : x ∉ mark :: front := fun inside => fresh (List.mem_append_left back inside)
  have inOnward : x ∉ back ++ [mark] := by
    intro inside
    rcases List.mem_append.mp inside with inside | inside
    · exact fresh (.tail _ (List.mem_append_right front inside))
    · exact fresh (by simp [List.mem_singleton.mp inside])
  have before : front.getLastD mark ≠ x := fun same => inWay (same ▸ List.getLastD_mem_cons)
  have after : back.headD mark ≠ x := by
    rintro rfl
    rw [append_eq_headD_cons] at inOnward
    exact inOnward (.head _)
  refine ⟨(@List.nodup_middle _ x (mark :: front) back).mpr (List.nodup_cons.mpr ⟨fresh, distinct⟩), ?_⟩
  refine (linked_split _ mark front (x :: back)).mpr ⟨chain_congr way ?_ ?_, ⟨?_, ?_⟩, ?_⟩
  · intro y inside
    have other : y ≠ front.getLastD mark := by rintro rfl; exact notWay inside
    have old : y ≠ x := by rintro rfl; exact inWay (List.dropLast_subset _ inside)
    simp only [linkBetween, update_of_ne other, update_of_ne old]
  · intro y inside
    have other : y ≠ back.headD mark := by rintro rfl; exact notFront inside
    have old : y ≠ x := by rintro rfl; exact inWay (.tail _ inside)
    simp only [linkBetween, update_of_ne other, update_of_ne old]
  · exact update_self ..
  · simp only [linkBetween, List.headD_cons, update_of_ne after.symm, update_self]
  · rw [List.cons_append, append_eq_headD_cons]
    refine List.isChain_cons_cons.mpr ⟨⟨?_, update_self ..⟩, ?_⟩
    · simp only [linkBetween, update_of_ne before.symm, update_self]
    rw [← append_eq_headD_cons]
    refine chain_congr onward ?_ ?_
    · intro y inside
      rw [List.dropLast_concat] at inside
      have other : y ≠ front.getLastD mark := by rintro rfl; exact notBack inside
      have old : y ≠ x := by rintro rfl; exact inOnward (List.mem_append_left _ inside)
      simp only [linkBetween, update_of_ne other, update_of_ne old]
    · intro y inside
      have other : y ≠ back.headD mark := by rintro rfl; exact notOnward inside
      have old : y ≠ x := by rintro rfl; exact inOnward (List.mem_of_mem_tail inside)
      simp only [linkBetween, update_of_ne other, update_of_ne old]

theorem ring_remove {m : Links Node} {x : Node} (ring : Ring m mark (front ++ x :: back)) :
    Ring (unlink m x) mark (front ++ back) := by
  obtain ⟨before, after⟩ := ring.neighbours
  have fresh := List.nodup_cons.mp ((@List.nodup_middle _ x (mark :: front) back).mp ring.distinct)
  obtain ⟨notWay, notBack, notFront, notOnward⟩ := parts_distinct fresh.2
  obtain ⟨way, -, onward⟩ := (linked_split m mark front (x :: back)).mp ring.linked
  refine ⟨fresh.2, (linked_split _ mark front back).mpr ⟨chain_congr way ?_ ?_, ⟨?_, ?_⟩, chain_congr onward.tail ?_ ?_⟩⟩
  · intro y inside
    have other : y ≠ front.getLastD mark := by rintro rfl; exact notWay inside
    simp only [unlink, before, update_of_ne other]
  · intro y inside
    have other : y ≠ back.headD mark := by rintro rfl; exact notFront inside
    simp only [unlink, after, update_of_ne other]
  · simp only [unlink, before, after, update_self]
  · simp only [unlink, before, after, update_self]
  · intro y inside
    rw [List.dropLast_concat] at inside
    have other : y ≠ front.getLastD mark := by rintro rfl; exact notBack inside
    simp only [unlink, before, update_of_ne other]
  · intro y inside
    have other : y ≠ back.headD mark := by rintro rfl; exact notOnward inside
    simp only [unlink, after, update_of_ne other]

/-- The nodes whose links change. -/
theorem linkBetween_frame {m : Links Node} {p x q y : Node} (notP : y ≠ p) (notX : y ≠ x) (notQ : y ≠ q) :
    (linkBetween m p x q).next y = m.next y ∧ (linkBetween m p x q).prev y = m.prev y := by
  simp only [linkBetween, update_of_ne notP, update_of_ne notX, update_of_ne notQ, and_self]

theorem unlink_frame {m : Links Node} {x y : Node} (notPrev : y ≠ m.prev x) (notNext : y ≠ m.next x) :
    (unlink m x).next y = m.next y ∧ (unlink m x).prev y = m.prev y := by
  simp only [unlink, update_of_ne notPrev, update_of_ne notNext, and_self]

end

end OsyProg.Rings
