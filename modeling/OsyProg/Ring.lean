import Mathlib.Data.Int.ModEq
import Mathlib.Data.List.Basic
import Mathlib.Data.List.Range

/-!
A ring buffer of `N` places: the item put in as number `k` is in place `k % N`, until
`N` more items have been put in. The items that are still in the buffer are those from
a number `first` on (`Stored`); a new item hits none of them (`Stored.put`), and the
first of them is the next one of the list of all items (`Stored.take_next`). Successive
items are in two pieces of the buffer at most (`places_pieces`), and the distance of two
indices is found with no division (`index_distance`, `index_space`).
-/
namespace OsyProg.Ring
universe u

variable {α : Type u} {N first : ℕ} {buffer : ℕ → α} {items more : List α}

/-- The items from number `first` on are in their places. -/
def Stored (N : ℕ) (buffer : ℕ → α) (items : List α) (first : ℕ) : Prop :=
  ∀ k, first ≤ k → k < items.length → items[k]? = some (buffer (k % N))

theorem stored_nil (N : ℕ) (buffer : ℕ → α) (first : ℕ) : Stored N buffer [] first :=
  fun k _ inside => absurd inside (Nat.not_lt_zero k)

/-- The place of a new item is the place of none that is still in the buffer. -/
theorem place_free {k count : ℕ} (kept : first ≤ k) (inside : k < count) (room : count < first + N) :
    count % N ≠ k % N := by
  intro same
  have divides : N ∣ count - k := (Nat.modEq_iff_dvd' inside.le).mp same.symm
  have := Nat.le_of_dvd (by omega) divides
  omega

/-- A new item goes to the place of its number. -/
theorem Stored.put (stored : Stored N buffer items first) (room : items.length < first + N) (item : α) :
    Stored N (Function.update buffer (items.length % N) item) (items ++ [item]) first := by
  intro k kept inside
  rw [List.length_append, List.length_singleton] at inside
  by_cases last : k = items.length
  · rw [last, Function.update_self, List.getElem?_concat_length]
  · have earlier : k < items.length := by omega
    rw [List.getElem?_append_left earlier, Function.update_of_ne (place_free kept earlier room).symm]
    exact stored k kept earlier

/-- The place of the first item may be overwritten when that item is taken. -/
theorem Stored.clear (stored : Stored N buffer items first) (room : items.length ≤ first + N) (item : α) :
    Stored N (Function.update buffer (first % N) item) items (first + 1) := by
  intro k kept inside
  rw [Function.update_of_ne (place_free le_rfl kept (by omega))]
  exact stored k (by omega) inside

theorem Stored.later {next : ℕ} (stored : Stored N buffer items first) (le : first ≤ next) :
    Stored N buffer items next :=
  fun k kept => stored k (Nat.le_trans le kept)

/-- What is in the place of the first item comes next after those before it. -/
theorem Stored.take_next (stored : Stored N buffer items first) (waiting : first < items.length) :
    items.take first ++ [buffer (first % N)] = items.take (first + 1) := by
  rw [List.take_add_one, stored first le_rfl waiting, Option.toList_some]

theorem Stored.before (stored : Stored N buffer (items ++ more) first) : Stored N buffer items first := by
  intro k kept inside
  rw [← stored k kept (by rw [List.length_append]; omega), List.getElem?_append_left inside]

/-! ### Places in two pieces -/

/-- The places of as many items, from number `first` on. -/
def places (N first count : ℕ) : List ℕ := (List.range' first count).map (· % N)

@[simp] theorem length_places (N first count : ℕ) : (places N first count).length = count := by
  rw [places, List.length_map, List.length_range']

theorem places_succ (N first count : ℕ) : places N first (count + 1) = first % N :: places N (first + 1) count := rfl

theorem places_append (N first m n : ℕ) : places N first (m + n) = places N first m ++ places N (first + m) n := by
  rw [places, ← List.range'_append_1, List.map_append, places, places]

/-- The index goes back to the start when it gets to the end. -/
theorem index_wraps (first : ℕ) {n : ℕ} (short : n ≤ N) (positive : 0 < N) :
    (if first % N + n ≥ N then first % N + n - N else first % N + n) = (first + n) % N := by
  have below := Nat.mod_lt first positive
  rw [← Nat.mod_add_mod first N n]
  split
  next past =>
    have wrapped : first % N + n - N < N := by omega
    rw [Nat.mod_eq_sub_mod past, Nat.mod_eq_of_lt wrapped]
  next within => exact (Nat.mod_eq_of_lt (by omega)).symm

/-- As many places as there are up to the end, and the others from the start on. -/
theorem places_pieces {n : ℕ} (short : n ≤ N) (positive : 0 < N) :
    List.range' (first % N) (min (N - first % N) n) ++ List.range (n - min (N - first % N) n) = places N first n := by
  have below := Nat.mod_lt first positive
  obtain ⟨k, size⟩ : ∃ k, k = min (N - first % N) n := ⟨_, rfl⟩
  have upTo : ∀ i ∈ List.range k, first % N + i = (first + i) % N := by
    intro i inside
    have := List.mem_range.mp inside
    have within : first % N + i < N := by omega
    rw [← Nat.mod_add_mod, Nat.mod_eq_of_lt within]
  have behind : ∀ i ∈ List.range (n - k), i = (first + k + i) % N := by
    intro i inside
    have := List.mem_range.mp inside
    have rest : first % N + (k + i) = i + N := by omega
    have within : i < N := by omega
    rw [Nat.add_assoc, ← Nat.mod_add_mod, rest, Nat.add_mod_right, Nat.mod_eq_of_lt within]
  have whole : n = k + (n - k) := by omega
  rw [← size, whole, places_append, ← whole, places, places, List.range'_eq_map_range, List.range'_eq_map_range,
    List.range'_eq_map_range, List.map_map, List.map_map]
  congr 1
  · exact List.map_congr_left upTo
  · exact (List.map_id _).symm.trans (List.map_congr_left behind)

/-- The distance from one index to a later one, less than a round ahead. -/
theorem index_distance {last : ℕ} (le : first ≤ last) (near : last < first + N) :
    (if N + last % N - first % N ≥ N then N + last % N - first % N - N else N + last % N - first % N) =
      last - first := by
  have positive : 0 < N := by omega
  have below := Nat.mod_lt first positive
  have index := index_wraps first (show last - first ≤ N by omega) positive
  rw [Nat.add_sub_cancel' le] at index
  rw [← index]
  split <;> split <;> omega

/-- What a round leaves behind the later index, when one place stays free. -/
theorem index_space {last : ℕ} (le : first ≤ last) (near : last < first + N) :
    (if N + first % N - last % N - 1 ≥ N then N + first % N - last % N - 1 - N else N + first % N - last % N - 1) =
      N - 1 - (last - first) := by
  have positive : 0 < N := by omega
  have below := Nat.mod_lt first positive
  have index := index_wraps first (show last - first ≤ N by omega) positive
  rw [Nat.add_sub_cancel' le] at index
  rw [← index]
  split <;> split <;> omega

end OsyProg.Ring
