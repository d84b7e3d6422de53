import OsyProg.InputLines
import Mathlib.Data.List.DropRight

/-!
Functions of the C library on an array, which have no result when they go outside of it:
`strlen`, `strchr` and `strncpy` read until a zero, and a string without a zero in the
array leads them out of it. Each has one lemma that says what it does with a string in an
array. `trim` takes bytes off the end of a string; the loop that does so with zeros is
`trimLoop_eq`.
-/
namespace OsyProg.CArrays
open OsyProg.Bytes OsyProg.InputLines

/-- `strlen` of the string at the beginning of the array. -/
def strlen : Bytes → Option ℕ
  | [] => none
  | b :: rest => if b = 0 then some 0 else (strlen rest).map (· + 1)

/-- `strchr` of the string at the beginning of the array: the position of the byte, where the
    array itself begins at `p`, or that there is no such byte in the string. -/
def strchr (c : UInt8) : ℕ → Bytes → Option (Option ℕ)
  | _, [] => none
  | p, b :: rest => if b = c then some (some p) else if b = 0 then some none else strchr c (p + 1) rest

/-- The `n` bytes that `strncpy` writes for the string at the beginning of an array. -/
def copy : ℕ → Bytes → Option Bytes
  | 0, _ => some []
  | _ + 1, [] => none
  | n + 1, b :: rest => if b = 0 then some (List.replicate (n + 1) 0) else (copy n rest).map (b :: ·)

/-- `strncpy( dst, src, n )`. -/
def strncpy (dst src : Bytes) (n : ℕ) : Option Bytes :=
  if n ≤ dst.length then (copy n src).map (· ++ dst.drop n) else none

/-- `while ( n && .. ) { s[--n] = 0; }` for the bytes that `unwanted` holds of. -/
def trimLoop (unwanted : UInt8 → Bool) (s : Bytes) : ℕ → Option Bytes
  | 0 => some s
  | n + 1 => s[n]?.bind fun c => if unwanted c then (store s n 0).bind fun s => trimLoop unwanted s n else some s

/-- A string, with zeros behind it in an array of the given size. -/
def padded (size : ℕ) (text : Bytes) : Bytes := text ++ List.replicate (size - text.length) 0

section
variable {text more : Bytes} {c : UInt8}

theorem strlen_string (plain : 0 ∉ text) (more : Bytes) : strlen (text ++ 0 :: more) = some text.length := by
  induction text with
  | nil => rfl
  | cons b text ih =>
    rw [List.mem_cons, not_or] at plain
    rw [List.cons_append, strlen, if_neg (Ne.symm plain.1), ih plain.2, Option.map_some, List.length_cons]

theorem strchr_found (clean : c ∉ text) (plain : 0 ∉ text) (p : ℕ) (more : Bytes) :
    strchr c p (text ++ c :: more) = some (some (p + text.length)) := by
  induction text generalizing p with
  | nil => simp [strchr]
  | cons b text ih =>
    rw [List.mem_cons, not_or] at clean plain
    rw [List.cons_append, strchr, if_neg (Ne.symm clean.1), if_neg (Ne.symm plain.1), ih clean.2 plain.2, List.length_cons]
    congr 2
    omega

theorem strchr_end (clean : c ∉ text) (plain : 0 ∉ text) (other : c ≠ 0) (p : ℕ) (more : Bytes) :
    strchr c p (text ++ 0 :: more) = some none := by
  induction text generalizing p with
  | nil => simp [strchr, Ne.symm other]
  | cons b text ih =>
    rw [List.mem_cons, not_or] at clean plain
    rw [List.cons_append, strchr, if_neg (Ne.symm clean.1), if_neg (Ne.symm plain.1), ih clean.2 plain.2]

theorem copy_string (plain : 0 ∉ text) {n : ℕ} (fits : text.length ≤ n) (more : Bytes) :
    copy n (text ++ 0 :: more) = some (padded n text) := by
  induction text generalizing n with
  | nil => cases n <;> rfl
  | cons b text ih =>
    rw [List.mem_cons, not_or] at plain
    rw [List.length_cons] at fits
    obtain ⟨m, rfl⟩ : ∃ m, n = m + 1 := ⟨n - 1, by omega⟩
    rw [List.cons_append, copy, if_neg (Ne.symm plain.1), ih plain.2 (by omega), Option.map_some, padded, padded, List.length_cons,
      Nat.add_sub_add_right, List.cons_append]

theorem strncpy_string {dst : Bytes} {n : ℕ} (room : n ≤ dst.length) (plain : 0 ∉ text) (fits : text.length ≤ n) (more : Bytes) :
    strncpy dst (text ++ 0 :: more) n = some (padded n text ++ dst.drop n) := by
  rw [strncpy, if_pos room, copy_string plain fits, Option.map_some]

theorem length_padded {size : ℕ} (fits : text.length ≤ size) : (padded size text).length = size := by
  rw [padded, List.length_append, List.length_replicate]
  omega

theorem cString_padded (plain : 0 ∉ text) (size : ℕ) : CStrings.cString (padded size text) = text := by
  rw [padded, CStrings.cString_zeros, CStrings.cString_self plain]

/-- The loop writes zeros over the unwanted bytes at the end of the string. -/
theorem trimLoop_eq (unwanted : UInt8 → Bool) (text more : Bytes) :
    trimLoop unwanted (text ++ more) text.length = some (padded text.length (text.rdropWhile unwanted) ++ more) := by
  induction text using List.reverseRecOn generalizing more with
  | nil => rfl
  | append_singleton text c ih =>
    have last : (text ++ [c] ++ more)[text.length]? = some c := by simp
    rw [List.length_append, List.length_singleton, trimLoop, last, Option.bind_some, List.rdropWhile_concat]
    by_cases goes : unwanted c = true
    · have stored : store (text ++ [c] ++ more) text.length 0 = some (text ++ 0 :: more) := by
        rw [store, if_pos (by simp), List.append_assoc, List.set_append_right _ _ (Nat.le_refl _), Nat.sub_self]
        rfl
      have shorter : (text.rdropWhile unwanted).length ≤ text.length := (List.rdropWhile_prefix unwanted text).length_le
      have one : padded (text.length + 1) (text.rdropWhile unwanted) ++ more =
          padded text.length (text.rdropWhile unwanted) ++ 0 :: more := by
        rw [padded, padded, Nat.succ_sub shorter, List.replicate_succ', List.append_assoc, List.append_assoc, List.append_assoc]
        rfl
      rw [if_pos goes, if_pos goes, stored, Option.bind_some, ih, one]
    · rw [if_neg goes, if_neg goes, padded, List.length_append, List.length_singleton, Nat.sub_self, List.replicate_zero,
        List.append_nil]

end

end OsyProg.CArrays
