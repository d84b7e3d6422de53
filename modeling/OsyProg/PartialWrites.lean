import Mathlib.Data.List.Basic

/-!
A loop that offers what is left of its data, until nothing is left, to a receiver that
takes a part of it at a time. What the receiver does is an infinite sequence of results,
one for each offer: it takes some elements, it takes none and may be asked again, or it
fails. When the loop ends well, everything has been taken, in order and once
(`offer_done`); when the receiver fails, something is left (`offer_failed`); the loop ends
unless the receiver asks for another offer again and again (`offer_ends`); and a receiver
that takes something of every offer takes everything (`offer_all`).
-/
namespace OsyProg.PartialWrites
universe u

variable {α : Type u}

/-- What comes of an offer; `takes more` is `more + 1` elements, or all when there are fewer. -/
inductive Result
  | takes (more : ℕ)
  | again
  | fails
  deriving DecidableEq

/-- Whether all that was left has been taken, and what has been taken, when the loop ends
    within the given number of offers. -/
def offer (rest : List α) (results : ℕ → Result) : ℕ → Option (Bool × List α)
  | 0 => if rest = [] then some (true, []) else none
  | calls + 1 =>
    if rest = [] then some (true, [])
    else
      match results 0 with
      | .takes more =>
        (offer (rest.drop (more + 1)) (fun k => results (k + 1)) calls).map fun (done, taken) => (done, rest.take (more + 1) ++ taken)
      | .again => offer rest (fun k => results (k + 1)) calls
      | .fails => some (false, [])

@[simp] theorem offer_nil (results : ℕ → Result) (calls : ℕ) : offer ([] : List α) results calls = some (true, []) := by
  cases calls <;> rfl

variable {rest taken : List α} {results : ℕ → Result} {calls : ℕ}

theorem offer_takes {more : ℕ} (some_ : rest ≠ []) (first : results 0 = .takes more) :
    offer rest results (calls + 1) =
      (offer (rest.drop (more + 1)) (fun k => results (k + 1)) calls).map fun (done, taken) => (done, rest.take (more + 1) ++ taken) := by
  simp only [offer, if_neg some_, first]

theorem offer_again (some_ : rest ≠ []) (first : results 0 = .again) :
    offer rest results (calls + 1) = offer rest (fun k => results (k + 1)) calls := by
  simp only [offer, if_neg some_, first]

theorem offer_fails (some_ : rest ≠ []) (first : results 0 = .fails) : offer rest results (calls + 1) = some (false, []) := by
  simp only [offer, if_neg some_, first]

/-- What has been taken is the beginning of the data, and nothing is left behind it only
    when the loop ends well. -/
theorem offer_prefix {done : Bool} (ends : offer rest results calls = some (done, taken)) :
    ∃ left, taken ++ left = rest ∧ (done = true ↔ left = []) := by
  induction calls generalizing rest taken results with
  | zero =>
    obtain ⟨empty, ⟨⟩⟩ := Option.ite_none_right_eq_some.mp ends
    exact ⟨[], by rw [empty, List.append_nil], by simp⟩
  | succ calls ih =>
    by_cases empty : rest = []
    · subst empty
      rw [offer_nil] at ends
      cases ends
      exact ⟨[], rfl, by simp⟩
    · cases first : results 0 with
      | takes more =>
        rw [offer_takes empty first] at ends
        obtain ⟨⟨done', taken'⟩, later, ⟨⟩⟩ := Option.map_eq_some_iff.mp ends
        obtain ⟨left, whole, all⟩ := ih later
        exact ⟨left, by rw [List.append_assoc, whole, List.take_append_drop], all⟩
      | again =>
        rw [offer_again empty first] at ends
        exact ih ends
      | fails =>
        rw [offer_fails empty first] at ends
        cases ends
        exact ⟨rest, rfl, by simpa using empty⟩

theorem offer_done (ends : offer rest results calls = some (true, taken)) : taken = rest := by
  obtain ⟨left, whole, all⟩ := offer_prefix ends
  rwa [all.mp rfl, List.append_nil] at whole

theorem offer_failed (ends : offer rest results calls = some (false, taken)) : ∃ left, left ≠ [] ∧ taken ++ left = rest := by
  obtain ⟨left, whole, all⟩ := offer_prefix ends
  exact ⟨left, fun empty => Bool.noConfusion (all.mpr empty), whole⟩

/-- After the last result that asks for another offer, every result takes an element or ends the loop. -/
theorem offer_ends {last : ℕ} (few : ∀ k, last ≤ k → results k ≠ .again) : (offer rest results (last + rest.length)).isSome := by
  induction size : last + rest.length generalizing last rest results with
  | zero =>
    have empty : rest = [] := List.length_eq_zero_iff.mp (by omega)
    rw [empty, offer_nil, Option.isSome_some]
  | succ calls ih =>
    by_cases empty : rest = []
    · rw [empty, offer_nil, Option.isSome_some]
    · have later : ∀ k, last - 1 ≤ k → results (k + 1) ≠ .again := fun k behind => few (k + 1) (by omega)
      have nonempty := List.length_pos_iff.mpr empty
      cases first : results 0 with
      | takes more =>
        rw [offer_takes empty first, Option.isSome_map]
        -- The rest is shorter by at least one, so there are calls enough even when `last` is 0.
        have fewer : ∀ k, calls - (rest.drop (more + 1)).length ≤ k → results (k + 1) ≠ .again := fun k behind =>
          later k (by rw [List.length_drop] at behind; omega)
        exact ih fewer (by rw [List.length_drop]; omega)
      | again =>
        have some_ : last ≠ 0 := fun none => few 0 (by omega) first
        rw [offer_again empty first]
        exact ih later (by omega)
      | fails => rw [offer_fails empty first, Option.isSome_some]

/-- The loop ends well when the receiver does not fail. -/
theorem offer_unfailing {done : Bool} (never : ∀ k, results k ≠ .fails) (ends : offer rest results calls = some (done, taken)) :
    done = true := by
  induction calls generalizing rest taken results with
  | zero =>
    obtain ⟨-, ⟨⟩⟩ := Option.ite_none_right_eq_some.mp ends
    rfl
  | succ calls ih =>
    have later : ∀ k, results (k + 1) ≠ .fails := fun k => never (k + 1)
    by_cases empty : rest = []
    · rw [empty, offer_nil] at ends
      cases ends
      rfl
    · cases first : results 0 with
      | takes more =>
        rw [offer_takes empty first] at ends
        obtain ⟨⟨done', taken'⟩, onward, ⟨⟩⟩ := Option.map_eq_some_iff.mp ends
        exact ih later onward
      | again =>
        rw [offer_again empty first] at ends
        exact ih later ends
      | fails => exact absurd first (never 0)

/-- A receiver that takes something of every offer takes everything. -/
theorem offer_all (accepts : ℕ → ℕ) (rest : List α) : offer rest (fun k => .takes (accepts k)) rest.length = some (true, rest) := by
  have few : ∀ k, 0 ≤ k → Result.takes (accepts k) ≠ .again := fun _ _ again => by cases again
  obtain ⟨⟨done, taken⟩, ends⟩ := Option.isSome_iff_exists.mp (@offer_ends _ rest _ _ few)
  rw [Nat.zero_add] at ends
  obtain rfl := offer_unfailing (fun _ failed => by cases failed) ends
  rw [ends, offer_done ends]

end OsyProg.PartialWrites
