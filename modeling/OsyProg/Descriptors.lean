import Mathlib.Data.List.Basic

/-!
The descriptor table of a process: what each number stands for, when it is open.
A new descriptor is the lowest number that is not open (`lowest_spec`), as POSIX
has it for `open` and `pipe`; a table is known by what each number stands for
(`lookup_alloc`, `lookup_close`).
-/
namespace OsyProg.Descriptors
universe u

/-- The open descriptors: the entry at position `fd`, if it is there and open. -/
abbrev Fds (α : Type u) := List (Option α)

section
variable {α : Type u}

/-- What a descriptor stands for. -/
def lookup (t : Fds α) (fd : ℕ) : Option α := t[fd]?.join

/-- The lowest number that is not open. -/
def lowest (t : Fds α) : ℕ := t.findIdx Option.isNone

/-- The table with the lowest descriptor opened, and its number. -/
def alloc (t : Fds α) (a : α) : Fds α × ℕ :=
  (if lowest t < t.length then t.set (lowest t) (some a) else t ++ [some a], lowest t)

def close (t : Fds α) (fd : ℕ) : Fds α := t.set fd none

/-- `pipe`: the descriptor of the read end, then that of the write end. -/
def pipe (t : Fds α) (readEnd writeEnd : α) : Fds α × ℕ × ℕ :=
  let (t, r) := alloc t readEnd
  let (t, w) := alloc t writeEnd
  (t, r, w)

theorem lowest_le (t : Fds α) : lowest t ≤ t.length := List.findIdx_le_length

theorem lookup_close (t : Fds α) (fd k : ℕ) : lookup (close t fd) k = if k = fd then none else lookup t k := by
  rw [lookup, close, List.getElem?_set]
  split
  · next same =>
    rw [if_pos same.symm]
    split <;> rfl
  · next other => rw [if_neg (Ne.symm other), lookup]

/-- The new descriptor is closed before, and every lower one is open. -/
theorem lowest_spec (t : Fds α) : lookup t (lowest t) = none ∧ ∀ k < lowest t, lookup t k ≠ none := by
  constructor
  · by_cases inside : lowest t < t.length
    · have closed : t[lowest t].isNone := List.findIdx_getElem (p := Option.isNone) (w := inside)
      rw [lookup, List.getElem?_eq_getElem inside]
      exact Option.isNone_iff_eq_none.mp closed
    · rw [lookup, List.getElem?_eq_none (by omega)]
      rfl
  · intro k below
    have opened := List.not_of_lt_findIdx below
    rw [lookup, List.getElem?_eq_getElem (by have := lowest_le t; omega)]
    simpa [Option.isSome_iff_ne_none] using opened

theorem lowest_eq {t : Fds α} {fd : ℕ} (closed : lookup t fd = none) (opened : ∀ k < fd, lookup t k ≠ none) :
    lowest t = fd := by
  obtain ⟨closed', opened'⟩ := lowest_spec t
  rcases Nat.lt_trichotomy (lowest t) fd with less | same | more
  · exact absurd closed' (opened _ less)
  · exact same
  · exact absurd closed (opened' _ more)

theorem lookup_alloc (t : Fds α) (a : α) (k : ℕ) :
    lookup (alloc t a).1 k = if k = lowest t then some a else lookup t k := by
  show lookup (if lowest t < t.length then t.set (lowest t) (some a) else t ++ [some a]) k = _
  by_cases inside : lowest t < t.length
  · rw [if_pos inside, lookup, List.getElem?_set]
    split
    · next same => rw [if_pos same.symm]; rfl
    · next other => rw [if_neg (Ne.symm other), lookup]
  · have last : lowest t = t.length := by have := lowest_le t; omega
    rw [if_neg inside, last]
    rcases Nat.lt_trichotomy k t.length with less | same | more
    · rw [lookup, List.getElem?_append_left less, if_neg (by omega), lookup]
    · rw [same, if_pos rfl, lookup, List.getElem?_concat_length]
      rfl
    · rw [if_neg (by omega), lookup, lookup, List.getElem?_eq_none (by simp; omega), List.getElem?_eq_none (by omega)]

end

end OsyProg.Descriptors
