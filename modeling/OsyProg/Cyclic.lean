import Mathlib.Data.Fin.Basic
import Mathlib.Data.Fintype.Card
import Mathlib.Data.Finset.Card
import Mathlib.Data.Finset.Max

/-!
The positions of a table in cyclic order. `next` steps a pointer forward and
wraps at the end; `gap a b` is the number of steps from `a` to `b`. The gaps from
a fixed position number all positions (`gap_inj`, `gap_lt`), stepping adds one to
the gap until the start is met again (`gap_next`, `next_eq_iff`), and gaps along
the way add up (`gap_sub`). The first position with a property in cyclic order is
the one with the least gap (`First`, `first_exists`, `first_unique`).
-/
namespace OsyProg.Cyclic

variable {n : ℕ}

/-- The position after `p`, the first one after the last. -/
def next (p : Fin n) : Fin n :=
  if h : p.val + 1 = n then ⟨0, by omega⟩ else ⟨p.val + 1, by omega⟩

/-- The number of steps forward from one position to another. -/
def gap (a b : Fin n) : ℕ := (b.val + (n - a.val)) % n

theorem gap_of_le {a b : Fin n} (le : a ≤ b) : gap a b = b.val - a.val := by
  have := a.isLt
  have := b.isLt
  have le' : a.val ≤ b.val := le
  rw [gap, show b.val + (n - a.val) = (b.val - a.val) + n by omega, Nat.add_mod_right]
  exact Nat.mod_eq_of_lt (by omega)

theorem gap_of_lt {a b : Fin n} (lt : b < a) : gap a b = b.val + n - a.val := by
  have := a.isLt
  have lt' : b.val < a.val := lt
  rw [gap, show b.val + (n - a.val) = b.val + n - a.val by omega]
  exact Nat.mod_eq_of_lt (by omega)

theorem gap_lt (a b : Fin n) : gap a b < n := Nat.mod_lt _ (by have := a.isLt; omega)

@[simp] theorem gap_self (a : Fin n) : gap a a = 0 := by rw [gap_of_le le_rfl]; omega

theorem gap_inj {a b c : Fin n} (same : gap a b = gap a c) : b = c := by
  have := b.isLt
  have := c.isLt
  apply Fin.ext
  rcases le_or_gt a b with hb | hb <;> rcases le_or_gt a c with hc | hc
  · rw [gap_of_le hb, gap_of_le hc] at same; omega
  · rw [gap_of_le hb, gap_of_lt hc] at same; omega
  · rw [gap_of_lt hb, gap_of_le hc] at same; omega
  · rw [gap_of_lt hb, gap_of_lt hc] at same; omega

theorem gap_eq_zero {a b : Fin n} : gap a b = 0 ↔ b = a :=
  ⟨fun zero => gap_inj (zero.trans (gap_self a).symm), fun same => by rw [same, gap_self]⟩

theorem gap_pos {a b : Fin n} (ne : b ≠ a) : 0 < gap a b := by
  have := mt gap_eq_zero.mp ne
  omega

/-- The start is met again after the last gap. -/
theorem next_eq_iff {a b : Fin n} : next b = a ↔ gap a b + 1 = n := by
  have ha := a.isLt
  have hb := b.isLt
  rw [Fin.ext_iff, next]
  rcases le_or_gt a b with le | lt
  · rw [gap_of_le le]
    have : a.val ≤ b.val := le
    split <;> simp only <;> omega
  · rw [gap_of_lt lt]
    have : b.val < a.val := lt
    split <;> simp only <;> omega

/-- Before the start is met again, a step adds one to the gap. -/
theorem gap_next {a b : Fin n} (ne : next b ≠ a) : gap a (next b) = gap a b + 1 := by
  have short : gap a b + 1 ≠ n := mt next_eq_iff.mpr ne
  have := gap_lt a b
  have hb := b.isLt
  rcases le_or_gt a b with le | lt
  · have le' : a.val ≤ b.val := le
    rw [gap_of_le le] at short ⊢
    by_cases wraps : b.val + 1 = n
    · have value : (next b).val = 0 := by rw [next, dif_pos wraps]
      have below : next b < a := by rw [Fin.lt_def, value]; omega
      rw [gap_of_lt below, value]; omega
    · have value : (next b).val = b.val + 1 := by rw [next, dif_neg wraps]
      have above : a ≤ next b := by rw [Fin.le_def, value]; omega
      rw [gap_of_le above, value]; omega
  · have lt' : b.val < a.val := lt
    have ha := a.isLt
    rw [gap_of_lt lt] at short ⊢
    have value : (next b).val = b.val + 1 := by rw [next, dif_neg (by omega)]
    have below : next b < a := by
      rw [Fin.lt_def, value]
      have : (next b).val ≠ a.val := fun same => ne (Fin.ext same)
      omega
    rw [gap_of_lt below, value]; omega

/-- On the way from `a` to `c`, the gap left from `b` is what remains. -/
theorem gap_sub {a b c : Fin n} (le : gap a b ≤ gap a c) : gap b c = gap a c - gap a b := by
  have := a.isLt
  have := b.isLt
  have := c.isLt
  rcases le_or_gt a b with hb | hb <;> rcases le_or_gt a c with hc | hc <;> rcases le_or_gt b c with hbc | hbc
  all_goals
    simp only [gap_of_le, gap_of_lt, hb, hc, hbc] at le ⊢
    simp only [Fin.le_def, Fin.lt_def] at hb hc hbc
    omega

/-- Gaps add up as long as they stay within one round. -/
theorem gap_add {a b c : Fin n} (short : gap a b + gap b c < n) : gap a c = gap a b + gap b c := by
  have := a.isLt
  have := b.isLt
  have := c.isLt
  rcases le_or_gt a b with hb | hb <;> rcases le_or_gt a c with hc | hc <;> rcases le_or_gt b c with hbc | hbc
  all_goals
    simp only [gap_of_le, gap_of_lt, hb, hc, hbc] at short ⊢
    simp only [Fin.le_def, Fin.lt_def] at hb hc hbc
    omega

/-- `q` is the first position from `a` on with the property, in cyclic order. -/
def First (P : Fin n → Prop) (a q : Fin n) : Prop := P q ∧ ∀ r, P r → gap a q ≤ gap a r

theorem first_exists {P : Fin n → Prop} (a : Fin n) (some : ∃ r, P r) : ∃ q, First P a q := by
  classical
  obtain ⟨r, holds⟩ := some
  have nonempty : (Finset.univ.filter P).Nonempty := ⟨r, by simpa using holds⟩
  obtain ⟨q, inside, least⟩ := Finset.exists_min_image _ (gap a) nonempty
  exact ⟨q, by simpa using inside, fun r holds => least r (by simpa using holds)⟩

/-- From the first position on, cyclic order is the order of the positions. -/
theorem gap_zero (a b : Fin n) (first : a.val = 0) : gap a b = b.val := by
  rw [gap_of_le (Fin.le_def.mpr (by omega)), first, Nat.sub_zero]

/-- A search through the positions in order finds the least one. -/
theorem find?_least {p : Fin n → Bool} {q : Fin n} (found : (List.finRange n).find? p = some q) :
    p q = true ∧ ∀ r, p r = true → q ≤ r := by
  obtain ⟨holds, before, after, split, none⟩ := List.find?_eq_some_iff_append.mp found
  refine ⟨holds, ?_⟩
  intro r holdsR
  have sorted := List.pairwise_lt_finRange n
  rw [split] at sorted
  have inside : r ∈ before ++ q :: after := split ▸ List.mem_finRange r
  rcases List.mem_append.mp inside with early | late
  · have := none r early
    simp [holdsR] at this
  · rcases List.mem_cons.mp late with same | later
    · exact same.ge
    · exact (List.rel_of_pairwise_cons (List.pairwise_append.mp sorted).2.1 later).le

theorem first_unique {P : Fin n → Prop} {a q r : Fin n} (left : First P a q) (right : First P a r) : q = r :=
  gap_inj (le_antisymm (left.2 r right.1) (right.2 q left.1))

end OsyProg.Cyclic
