import Mathlib.Data.List.Basic

/-!
A text that consists of lines, each followed by a newline. Where the first newline is,
the first line ends (`cut_unique`), so what was read of a text up to a newline is its
first line (`first_line`), and a text without a newline has no line (`no_line`). Every
text consists of its lines and of what is left behind the last newline (`linesOf`,
`restOf`, `unlines_linesOf`).
-/
namespace OsyProg.Lines
universe u

variable {α : Type u} {newline : α} {lines : List (List α)} {line more : List α}

/-- The lines, each with its newline. -/
def unlines (newline : α) (lines : List (List α)) : List α := lines.flatMap fun line => line ++ [newline]

@[simp] theorem unlines_nil (newline : α) : unlines newline [] = [] := rfl

@[simp] theorem unlines_cons (newline : α) (line : List α) (lines : List (List α)) :
    unlines newline (line :: lines) = line ++ newline :: unlines newline lines := by
  simp [unlines]

@[simp] theorem unlines_append (newline : α) (first second : List (List α)) :
    unlines newline (first ++ second) = unlines newline first ++ unlines newline second :=
  List.flatMap_append

/-- Each line has a newline at least. -/
theorem length_le_unlines (newline : α) (lines : List (List α)) : lines.length ≤ (unlines newline lines).length := by
  induction lines with
  | nil => exact Nat.zero_le _
  | cons line lines ih =>
    rw [unlines_cons, List.length_append, List.length_cons, List.length_cons]
    omega

/-- Where the first newline is, is one way to cut. -/
theorem cut_unique {first second more others : List α} (clean : newline ∉ first) (clean' : newline ∉ second)
    (same : first ++ newline :: more = second ++ newline :: others) : first = second ∧ more = others := by
  induction first generalizing second with
  | nil =>
    cases second with
    | nil => exact ⟨rfl, (List.cons.inj same).2⟩
    | cons b rest =>
      obtain ⟨rfl, -⟩ := List.cons.inj same
      exact absurd (List.mem_cons_self ..) clean'
  | cons a rest ih =>
    cases second with
    | nil =>
      obtain ⟨rfl, -⟩ := List.cons.inj same
      exact absurd (List.mem_cons_self ..) clean
    | cons b others =>
      obtain ⟨rfl, onward⟩ := List.cons.inj same
      obtain ⟨rfl, later⟩ := ih (fun inside => clean (List.mem_cons_of_mem _ inside))
        (fun inside => clean' (List.mem_cons_of_mem _ inside)) onward
      exact ⟨rfl, later⟩

/-- What comes before the first newline of a text is its first line. -/
theorem first_line (clean : ∀ l ∈ lines, newline ∉ l) (none : newline ∉ line)
    (text : line ++ newline :: more = unlines newline lines) :
    ∃ later, lines = line :: later ∧ more = unlines newline later := by
  cases lines with
  | nil => simp at text
  | cons first later =>
    rw [unlines_cons] at text
    obtain ⟨rfl, rfl⟩ := cut_unique none (clean first (List.mem_cons_self ..)) text
    exact ⟨later, rfl, rfl⟩

/-- A part of the first line, with the byte after it that is no newline, is shorter than the line. -/
theorem part_of_first {b : α} {first others : List α} (none : newline ∉ line) (other : b ≠ newline)
    (text : line ++ b :: more = first ++ newline :: others) : line.length < first.length := by
  rcases List.append_eq_append_iff.mp text with ⟨m, rfl, onward⟩ | ⟨m, rfl, onward⟩
  · cases m with
    | nil => exact absurd (List.cons.inj onward).1 other
    | cons c m => simp
  · cases m with
    | nil => exact absurd (List.cons.inj onward).1.symm other
    | cons c m =>
      obtain ⟨rfl, -⟩ := List.cons.inj onward
      exact absurd (by simp) none

theorem part_shorter {b : α} (none : newline ∉ line) (other : b ≠ newline)
    (text : line ++ b :: more = unlines newline lines) : ∃ l ∈ lines, line.length < l.length := by
  cases lines with
  | nil => simp at text
  | cons first later =>
    rw [unlines_cons] at text
    exact ⟨first, List.mem_cons_self .., part_of_first none other text⟩

theorem no_line (none : newline ∉ line) (text : line = unlines newline lines) : lines = [] := by
  cases lines with
  | nil => rfl
  | cons first later =>
    rw [text, unlines_cons] at none
    exact absurd (by simp) none

/-- A text ends with a newline, so nothing of it is left after its last one. -/
theorem nothing_left {before : List α} (none : newline ∉ line) (text : before ++ line = unlines newline lines) :
    line = [] := by
  rcases List.eq_nil_or_concat lines with rfl | ⟨earlier, last, rfl⟩
  · rw [unlines_nil, List.append_eq_nil_iff] at text
    exact text.2
  · rw [List.concat_eq_append] at text
    rcases List.eq_nil_or_concat line with rfl | ⟨part, b, rfl⟩
    · rfl
    · rw [List.concat_eq_append, unlines_append, unlines_cons, unlines_nil, ← List.append_assoc,
        ← List.append_assoc] at text
      have same : b = newline := by simpa using (List.append_inj' text rfl).2
      exact absurd (by simp [same]) none

/-! ### The lines of any text -/

variable [DecidableEq α]

/-- The lines of a text that end with a newline, and what is left behind the last of them. -/
def linesOf (newline : α) (text : List α) : List (List α) := (text.splitOn newline).dropLast
def restOf (newline : α) (text : List α) : List α := (text.splitOn newline).getLastD []

variable {rest text : List α}

theorem splitOn_unlines (clean : ∀ l ∈ lines, newline ∉ l) (none : newline ∉ rest) :
    (unlines newline lines ++ rest).splitOn newline = lines ++ [rest] := by
  induction lines with
  | nil => exact List.splitOn_eq_singleton none
  | cons first later ih =>
    rw [unlines_cons, List.append_assoc, List.cons_append,
      List.splitOn_append_cons_self_of_not_mem (clean first (List.mem_cons_self ..)),
      ih fun l inside => clean l (List.mem_cons_of_mem _ inside), List.cons_append]

theorem linesOf_unlines (clean : ∀ l ∈ lines, newline ∉ l) (none : newline ∉ rest) :
    linesOf newline (unlines newline lines ++ rest) = lines ∧ restOf newline (unlines newline lines ++ rest) = rest := by
  rw [linesOf, restOf, splitOn_unlines clean none]
  simp

theorem exists_lines (newline : α) (text : List α) :
    ∃ lines rest, text = unlines newline lines ++ rest ∧ (∀ l ∈ lines, newline ∉ l) ∧ newline ∉ rest := by
  induction text with
  | nil => exact ⟨[], [], rfl, by simp, by simp⟩
  | cons c text ih =>
    obtain ⟨lines, rest, rfl, clean, none⟩ := ih
    by_cases ends : c = newline
    · subst ends
      exact ⟨[] :: lines, rest, by simp, by simpa using clean, none⟩
    · cases lines with
      | nil => exact ⟨[], c :: rest, by simp, by simp, by simp [none, Ne.symm ends]⟩
      | cons first later =>
        refine ⟨(c :: first) :: later, rest, by simp, ?_, none⟩
        intro l inside
        rcases List.mem_cons.mp inside with rfl | inLater
        · simp [clean first (List.mem_cons_self ..), Ne.symm ends]
        · exact clean l (List.mem_cons_of_mem _ inLater)

theorem linesOf_clean (newline : α) (text : List α) : (∀ l ∈ linesOf newline text, newline ∉ l) ∧ newline ∉ restOf newline text := by
  obtain ⟨lines, rest, rfl, clean, none⟩ := exists_lines newline text
  rw [(linesOf_unlines clean none).1, (linesOf_unlines clean none).2]
  exact ⟨clean, none⟩

/-- A text is its lines, and what is left. -/
theorem unlines_linesOf (newline : α) (text : List α) : unlines newline (linesOf newline text) ++ restOf newline text = text := by
  obtain ⟨lines, rest, rfl, clean, none⟩ := exists_lines newline text
  rw [(linesOf_unlines clean none).1, (linesOf_unlines clean none).2]

/-- The first line of a text that goes on continues what was left. -/
theorem linesOf_append (newline : α) (text more : List α) :
    linesOf newline (text ++ more) = linesOf newline text ++
      match linesOf newline more with
      | [] => []
      | first :: later => (restOf newline text ++ first) :: later := by
  obtain ⟨lines, rest, rfl, clean, none⟩ := exists_lines newline text
  obtain ⟨lines', rest', rfl, clean', none'⟩ := exists_lines newline more
  rw [(linesOf_unlines clean none).1, (linesOf_unlines clean none).2, (linesOf_unlines clean' none').1]
  cases lines' with
  | nil =>
    have left : newline ∉ rest ++ rest' := fun there => (List.mem_append.mp there).elim none none'
    rw [unlines_nil, List.nil_append, List.append_assoc, (linesOf_unlines clean left).1, List.append_nil]
  | cons first later =>
    have all : ∀ l ∈ lines ++ (rest ++ first) :: later, newline ∉ l := by
      obtain ⟨cleanFirst, cleanLater⟩ := List.forall_mem_cons.mp clean'
      refine List.forall_mem_append.mpr ⟨clean, List.forall_mem_cons.mpr ⟨fun there => ?_, cleanLater⟩⟩
      exact (List.mem_append.mp there).elim none cleanFirst
    have whole : unlines newline lines ++ rest ++ (unlines newline (first :: later) ++ rest') =
        unlines newline (lines ++ (rest ++ first) :: later) ++ rest' := by
      simp
    rw [whole, (linesOf_unlines all none').1]

/-- A newline ends the line that was left. -/
theorem linesOf_newline (newline : α) (text : List α) :
    linesOf newline (text ++ [newline]) = linesOf newline text ++ [restOf newline text] ∧ restOf newline (text ++ [newline]) = [] := by
  obtain ⟨lines, rest, rfl, clean, none⟩ := exists_lines newline text
  have all : ∀ l ∈ lines ++ [rest], newline ∉ l := by simpa [or_imp, forall_and, none] using clean
  have whole : unlines newline lines ++ rest ++ [newline] = unlines newline (lines ++ [rest]) ++ [] := by simp
  rw [whole, (linesOf_unlines all (List.not_mem_nil)).1, (linesOf_unlines all (List.not_mem_nil)).2,
    (linesOf_unlines clean none).1, (linesOf_unlines clean none).2]
  exact ⟨rfl, rfl⟩

/-- Any other element goes on with the line that was left. -/
theorem linesOf_other {c : α} (other : c ≠ newline) (text : List α) :
    linesOf newline (text ++ [c]) = linesOf newline text ∧ restOf newline (text ++ [c]) = restOf newline text ++ [c] := by
  obtain ⟨lines, rest, rfl, clean, none⟩ := exists_lines newline text
  have noneRest : newline ∉ rest ++ [c] := by simp [none, Ne.symm other]
  rw [List.append_assoc, (linesOf_unlines clean noneRest).1, (linesOf_unlines clean noneRest).2, (linesOf_unlines clean none).1,
    (linesOf_unlines clean none).2]
  exact ⟨rfl, rfl⟩

end OsyProg.Lines
