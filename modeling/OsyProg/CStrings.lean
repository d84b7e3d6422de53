import OsyProg.Bytes
import Mathlib.Algebra.Ring.Int.Defs
import Mathlib.Algebra.Ring.Nat
import Mathlib.Data.List.TakeWhile

/-!
Functions of the C library on strings. A buffer is the list of its bytes, and a
string in it ends before the first zero (`cString`). `strtok` gives the position of
a token, the buffer with the zero it has written, and the position it has saved.
`strtol` and `atoi` read back the decimal text of a number that their type can hold
(`strtol_decimalInt`, `atoi_decimalInt`). `scanInt` is a number of `sscanf`, which what
comes after it changes only where it is at the end of its text (`scanInt_append`,
`scanInt_digit`).
-/
namespace OsyProg.CStrings
open OsyProg.Bytes

/-- The string that starts at the beginning of a buffer. -/
def cString (buf : Bytes) : Bytes := buf.takeWhile fun c => c ≠ 0

/-- A span of bytes ends at the first byte that does not belong to it. -/
theorem takeWhile_span {p : UInt8 → Bool} {span rest : Bytes} (inside : ∀ c ∈ span, p c = true)
    (ends : ∀ c, rest.head? = some c → p c = false) : (span ++ rest).takeWhile p = span := by
  rw [List.takeWhile_append_of_pos inside]
  cases rest with
  | nil => exact List.append_nil span
  | cons c more => rw [List.takeWhile_cons_of_neg (by rw [ends c rfl]; exact Bool.false_ne_true), List.append_nil]

/-- A text begins with a span of the bytes that belong to it. -/
theorem exists_span (p : UInt8 → Bool) (text : Bytes) :
    ∃ span rest, text = span ++ rest ∧ (∀ c ∈ span, p c = true) ∧ ∀ c, rest.head? = some c → p c = false := by
  refine ⟨text.takeWhile p, text.dropWhile p, List.takeWhile_append_dropWhile.symm, fun c => List.mem_takeWhile_imp, ?_⟩
  intro c first
  have ends := List.head?_dropWhile_not p text
  rw [first] at ends
  simpa using ends

/-- A string is empty when its first byte is zero or behind the buffer. -/
theorem cString_eq_nil {text : Bytes} (zero : text.getD 0 0 = 0) : cString text = [] := by
  cases text with
  | nil => rfl
  | cons c rest =>
    have first : c = 0 := zero
    simp [cString, first]

/-- What is behind the zero of a string does not belong to it. -/
theorem cString_zero (text more : Bytes) : cString (text ++ 0 :: more) = cString text := by
  induction text with
  | nil => rfl
  | cons c rest ih =>
    simp only [cString, List.cons_append, List.takeWhile_cons] at ih ⊢
    rw [ih]

theorem cString_zeros (text : Bytes) (k : ℕ) : cString (text ++ List.replicate k 0) = cString text := by
  cases k with
  | zero => rw [List.replicate_zero, List.append_nil]
  | succ k => exact cString_zero text (List.replicate k 0)

/-- Nothing behind a text with a zero belongs to its string. -/
theorem cString_append {text : Bytes} (zero : 0 ∈ text) (more : Bytes) : cString (text ++ more) = cString text := by
  obtain ⟨first, rest, rfl⟩ := List.append_of_mem zero
  rw [List.append_assoc, List.cons_append, cString_zero, cString_zero]

/-- A text without a zero goes on behind itself. -/
theorem cString_plain {text : Bytes} (plain : 0 ∉ text) (more : Bytes) : cString (text ++ more) = text ++ cString more := by
  refine List.takeWhile_append_of_pos fun c inside => ?_
  have other : c ≠ 0 := fun zero => plain (zero ▸ inside)
  simpa using other

theorem cString_self {text : Bytes} (plain : 0 ∉ text) : cString text = text := by
  have whole := cString_plain plain []
  rwa [List.append_nil, show cString [] = [] from rfl, List.append_nil] at whole

/-- The string ends at a zero, or at the end of the buffer. -/
theorem getD_length_cString (buf : Bytes) : buf.getD (cString buf).length 0 = 0 := by
  induction buf with
  | nil => rfl
  | cons c rest ih =>
    by_cases zero : c = 0
    · simp [cString, zero]
    · simpa [cString, zero] using ih

/-! ### Tokens -/

/-- `strtok`: `start` is the beginning of the string, or the position saved by the
    call before when the first argument is NULL. -/
def strtok (buf delim : Bytes) (start : ℕ) : Option ℕ × Bytes × ℕ :=
  let skipped := (buf.drop start).takeWhile fun c => delim.contains c
  let first := start + skipped.length
  let token := (buf.drop first).takeWhile fun c => c ≠ 0 && !delim.contains c
  let stop := first + token.length
  if token = [] then (none, buf, first)
  else if buf.getD stop 0 = 0 then (some first, buf, stop)
  else (some first, buf.set stop 0, stop + 1)

section
variable {before token rest delim : Bytes} {stop : UInt8}

/-- A token begins with no delimiter. -/
theorem takeWhile_delim (nonempty : token ≠ []) (plain : ∀ c ∈ token, c ≠ 0 ∧ delim.contains c = false) (tail : Bytes) :
    (token ++ tail).takeWhile (fun c => delim.contains c) = [] := by
  obtain ⟨c, more, rfl⟩ := List.exists_cons_of_ne_nil nonempty
  rw [List.cons_append, List.takeWhile_cons_of_neg]
  rw [(plain c (List.mem_cons_self ..)).2]
  simp

/-- A token at the given position ends at a delimiter, which is overwritten, or at the
    end of the string. -/
theorem strtok_token (nonempty : token ≠ []) (plain : ∀ c ∈ token, c ≠ 0 ∧ delim.contains c = false)
    (ends : stop = 0 ∨ delim.contains stop = true) :
    strtok (before ++ (token ++ stop :: rest)) delim before.length =
      if stop = 0 then (some before.length, before ++ (token ++ stop :: rest), before.length + token.length)
      else (some before.length, before ++ (token ++ 0 :: rest), before.length + token.length + 1) := by
  obtain ⟨c, more, rfl⟩ := List.exists_cons_of_ne_nil nonempty
  have skipped := takeWhile_delim (List.cons_ne_nil c more) plain (stop :: rest)
  have whole : (c :: more ++ stop :: rest).takeWhile (fun c => c ≠ 0 && !delim.contains c) = c :: more := by
    refine takeWhile_span (fun d inside => by simpa using plain d inside) fun d first => ?_
    obtain rfl : stop = d := Option.some.inj first
    rcases ends with zero | delimiter
    · simp [zero]
    · rw [delimiter, Bool.not_true, Bool.and_false]
  have at_stop : (before ++ (c :: more ++ stop :: rest)).getD (before.length + (c :: more).length) 0 = stop := by
    simp [List.getD_eq_getElem?_getD]
  have overwritten : (before ++ (c :: more ++ stop :: rest)).set (before.length + (c :: more).length) 0 =
      before ++ (c :: more ++ 0 :: rest) := by
    rw [List.set_append_right _ _ (by omega), List.set_append_right _ _ (by omega)]
    simp
  simp only [strtok, List.drop_left, skipped, List.length_nil, Nat.add_zero, whole, at_stop, overwritten, reduceCtorEq,
    if_false]

end

/-- The delimiters in front of a token are passed over. -/
theorem strtok_skip {lead delim : Bytes} (skipped : ∀ d ∈ lead, delim.contains d = true) (before rest : Bytes) :
    strtok (before ++ (lead ++ rest)) delim before.length = strtok (before ++ (lead ++ rest)) delim (before.length + lead.length) := by
  have behind : (before ++ (lead ++ rest)).drop (before.length + lead.length) = rest := by
    rw [← List.drop_drop, List.drop_left, List.drop_left]
  have first : before.length + (lead ++ rest.takeWhile fun c => delim.contains c).length =
      before.length + lead.length + (rest.takeWhile fun c => delim.contains c).length := by
    rw [List.length_append, Nat.add_assoc]
  simp only [strtok, List.drop_left, behind, List.takeWhile_append_of_pos skipped, first]

/-- A token at the end of the string. -/
theorem strtok_last {token rest delim : Bytes} (nonempty : token ≠ []) (plain : ∀ c ∈ token, c ≠ 0 ∧ delim.contains c = false)
    (zero : rest.getD 0 0 = 0) (before : Bytes) :
    strtok (before ++ (token ++ rest)) delim before.length =
      (some before.length, before ++ (token ++ rest), before.length + token.length) := by
  have skipped := takeWhile_delim nonempty plain rest
  have whole : (token ++ rest).takeWhile (fun c => c ≠ 0 && !delim.contains c) = token := by
    refine takeWhile_span (fun d inside => by simpa using plain d inside) fun d first => ?_
    rw [List.getD_eq_getElem?_getD, ← List.head?_eq_getElem?, first, Option.getD_some] at zero
    rw [zero]
    rfl
  have stop : (before ++ (token ++ rest)).getD (before.length + token.length) 0 = 0 := by
    rw [← List.append_assoc, ← List.length_append, List.getD_eq_getElem?_getD, List.getElem?_append_right (Nat.le_refl _), Nat.sub_self,
      ← List.getD_eq_getElem?_getD, zero]
  simp only [strtok, List.drop_left, skipped, List.length_nil, Nat.add_zero, whole, if_neg nonempty, stop, if_true]

/-- At the end of the string there is no token. -/
theorem strtok_end {rest delim : Bytes} (zero : rest.getD 0 0 = 0) (other : delim.contains 0 = false) (before : Bytes) :
    strtok (before ++ rest) delim before.length = (none, before ++ rest, before.length) := by
  cases rest with
  | nil => simp [strtok]
  | cons c more =>
    obtain rfl : c = 0 := zero
    have nothing : (0 :: more).takeWhile (fun c => delim.contains c) = [] := by
      rw [List.takeWhile_cons_of_neg]
      rw [other]
      simp
    have empty : (0 :: more).takeWhile (fun c => c ≠ 0 && !delim.contains c) = [] := by
      rw [List.takeWhile_cons_of_neg]
      simp
    simp only [strtok, List.drop_left, nothing, List.length_nil, Nat.add_zero, empty, if_true]

/-- Without delimiters the token is all that is left of the string. -/
theorem strtok_all (buf : Bytes) (start : ℕ) :
    strtok buf [] start =
      if cString (buf.drop start) = [] then (none, buf, start)
      else (some start, buf, start + (cString (buf.drop start)).length) := by
  have nothing : (buf.drop start).takeWhile (fun c => ([] : Bytes).contains c) = [] := by
    cases buf.drop start <;> rfl
  have word : (buf.drop start).takeWhile (fun c => c ≠ 0 && !([] : Bytes).contains c) = cString (buf.drop start) := by
    simp [cString]
  have stop : buf.getD (start + (cString (buf.drop start)).length) 0 = 0 := by
    have here := getD_length_cString (buf.drop start)
    rwa [List.getD_eq_getElem?_getD, List.getElem?_drop, ← List.getD_eq_getElem?_getD] at here
  simp only [strtok, nothing, List.length_nil, Nat.add_zero, word, stop, if_true]

/-- A token that begins with the given text leaves it as it is. -/
theorem strtok_longer (before : Bytes) {token delim : Bytes} (nonempty : token ≠ [])
    (plain : ∀ c ∈ token, c ≠ 0 ∧ delim.contains c = false) (tail : Bytes) :
    ∃ tail' saved, strtok (before ++ (token ++ tail)) delim before.length = (some before.length, before ++ (token ++ tail'), saved) := by
  obtain ⟨c, more, rfl⟩ := List.exists_cons_of_ne_nil nonempty
  have skipped := takeWhile_delim (List.cons_ne_nil c more) plain tail
  have whole : (c :: more ++ tail).takeWhile (fun c => c ≠ 0 && !delim.contains c) =
      c :: more ++ tail.takeWhile fun c => c ≠ 0 && !delim.contains c := by
    refine List.takeWhile_append_of_pos fun d inside => ?_
    simpa using plain d inside
  have some_ : c :: more ++ (tail.takeWhile fun c => c ≠ 0 && !delim.contains c) ≠ [] := List.cons_ne_nil _ _
  simp only [strtok, List.drop_left, skipped, List.length_nil, Nat.add_zero, whole, if_neg some_]
  split
  · exact ⟨_, _, rfl⟩
  · rw [List.set_append_right _ _ (by omega), List.set_append_right _ _ (by rw [List.length_append]; omega)]
    exact ⟨_, _, rfl⟩

/-- The buffer that `strtok` works on, and the position it has saved. -/
structure Tokens where
  buf : Bytes
  saved : ℕ
  deriving DecidableEq

namespace Tokens

/-- A call of `strtok`, which goes on at the saved position when its first argument is
    NULL. -/
def strtok (s : Tokens) (str : Option ℕ) (delim : Bytes) : Option ℕ × Tokens :=
  let (token, buf, saved) := CStrings.strtok s.buf delim (str.getD s.saved)
  (token, { buf, saved })

/-- The string at a pointer into the buffer. -/
def text (s : Tokens) (p : ℕ) : Bytes := cString (s.buf.drop p)

variable {before token rest delim : Bytes} {stop : UInt8} {saved : ℕ} {str : Option ℕ}

theorem strtok_stop (here : str.getD saved = before.length) (nonempty : token ≠ [])
    (plain : ∀ c ∈ token, c ≠ 0 ∧ delim.contains c = false) (ends : delim.contains stop = true) (other : stop ≠ 0) :
    strtok { buf := before ++ (token ++ stop :: rest), saved } str delim =
      (some before.length, { buf := before ++ (token ++ 0 :: rest), saved := before.length + token.length + 1 }) := by
  simp only [strtok, here, strtok_token nonempty plain (.inr ends), if_neg other]

theorem strtok_last (here : str.getD saved = before.length) (nonempty : token ≠ [])
    (plain : ∀ c ∈ token, c ≠ 0 ∧ delim.contains c = false) (zero : rest.getD 0 0 = 0) :
    strtok { buf := before ++ (token ++ rest), saved } str delim =
      (some before.length, { buf := before ++ (token ++ rest), saved := before.length + token.length }) := by
  simp only [strtok, here, CStrings.strtok_last nonempty plain zero]

theorem text_token (plain : ∀ c ∈ token, c ≠ 0) : text { buf := before ++ (token ++ 0 :: rest), saved } before.length = token := by
  rw [text, List.drop_left]
  refine takeWhile_span (fun c inside => by simpa using plain c inside) fun c first => ?_
  rw [← Option.some.inj first]
  rfl

/-- The delimiters in front of a token are passed over. -/
theorem strtok_skip {lead : Bytes} (here : str.getD saved = before.length) (skipped : ∀ d ∈ lead, delim.contains d = true) :
    strtok { buf := before ++ (lead ++ rest), saved } str delim =
      strtok { buf := before ++ lead ++ rest, saved := (before ++ lead).length } none delim := by
  simp only [strtok, here, CStrings.strtok_skip skipped, Option.getD_none, List.append_assoc, List.length_append]

/-- At the end of the string there is no token. -/
theorem strtok_none (here : str.getD saved = before.length) (zero : rest.getD 0 0 = 0) (other : delim.contains 0 = false) :
    strtok { buf := before ++ rest, saved } str delim = (none, { buf := before ++ rest, saved := before.length }) := by
  simp only [strtok, here, strtok_end zero other]

/-- A token that begins with the given text leaves it as it is. -/
theorem strtok_longer (here : str.getD saved = before.length) (nonempty : token ≠ [])
    (plain : ∀ c ∈ token, c ≠ 0 ∧ delim.contains c = false) (tail : Bytes) :
    ∃ tail' saved', strtok { buf := before ++ (token ++ tail), saved } str delim =
      (some before.length, { buf := before ++ (token ++ tail'), saved := saved' }) := by
  obtain ⟨tail', saved', longer⟩ := CStrings.strtok_longer before nonempty plain tail
  exact ⟨tail', saved', by simp only [strtok, here, longer]⟩

/-- Without delimiters all that is left of the string is taken. -/
theorem strtok_all (s : Tokens) :
    s.strtok none [] =
      if cString (s.buf.drop s.saved) = [] then (none, s)
      else (some s.saved, { s with saved := s.saved + (cString (s.buf.drop s.saved)).length }) := by
  simp only [strtok, Option.getD_none, CStrings.strtok_all]
  split <;> rfl

/-- Taking all that is left, and then a token of it, is the same as taking the token. -/
theorem strtok_rest (s : Tokens) (delim : Bytes) :
    (s.strtok none []).2.strtok (s.strtok none []).1 delim = s.strtok none delim := by
  rw [strtok_all]
  split <;> rfl

end Tokens

/-! ### Pieces -/

/-- The pieces of a text between the delimiters, without the empty ones. -/
def pieces (delim : UInt8) (t : Bytes) : List Bytes := (t.splitOn delim).filter (· ≠ [])

section
variable {delim : UInt8} {token rest : Bytes}

theorem pieces_plain (delim : UInt8) (t : Bytes) : ∀ piece ∈ pieces delim t, delim ∉ piece := by
  have each : ∀ piece ∈ t.splitOn delim, delim ∉ piece := by
    induction t with
    | nil => simp
    | cons c rest ih =>
      rw [List.splitOn_cons_eq_if_modifyHead]
      split
      · simpa using ih
      next other =>
        obtain ⟨first, more, split⟩ := List.exists_cons_of_ne_nil (List.splitOn_ne_nil delim rest)
        rw [split] at ih ⊢
        intro piece inside
        rcases List.mem_cons.mp inside with rfl | later
        · intro found
          rcases List.mem_cons.mp found with rfl | inFirst
          · exact other (beq_self_eq_true _)
          · exact ih first (List.mem_cons_self ..) inFirst
        · exact ih piece (List.mem_cons_of_mem _ later)
  exact fun piece inside => each piece (List.mem_filter.mp inside).1

theorem pieces_cons_delim (delim : UInt8) (rest : Bytes) : pieces delim (delim :: rest) = pieces delim rest := by
  have split := List.splitOn_append_cons_self (a := delim) [] rest
  rw [List.nil_append, List.splitOn_nil] at split
  rw [pieces, split, List.singleton_append, List.filter_cons_of_neg (by simp), pieces]

theorem pieces_token (nonempty : token ≠ []) (plain : delim ∉ token) : pieces delim token = [token] := by
  rw [pieces, List.splitOn_eq_singleton plain, List.filter_cons_of_pos (by simpa using nonempty), List.filter_nil]

theorem pieces_token_cons (nonempty : token ≠ []) (plain : delim ∉ token) (rest : Bytes) :
    pieces delim (token ++ delim :: rest) = token :: pieces delim rest := by
  rw [pieces, List.splitOn_append_cons_self_of_not_mem plain, List.filter_cons_of_pos (by simpa using nonempty), pieces]

end

/-! ### Words and numbers -/

/-- `isspace` -/
def isSpace (c : UInt8) : Bool := c = 32 || 9 ≤ c && c ≤ 13

/-- A conversion `%s` of `scanf` with a width: the word and what is behind it. -/
def scanWord (width : ℕ) (text : Bytes) : Bytes × Bytes :=
  let text := text.dropWhile isSpace
  let word := (text.takeWhile fun c => !isSpace c).take width
  (word, text.drop word.length)

section
variable {width : ℕ} {blank word rest : Bytes} {stop : UInt8}

/-- A word that fits into the width is read up to the space behind it. -/
theorem scanWord_word (spaces : ∀ c ∈ blank, isSpace c = true) (nonempty : word ≠ []) (plain : ∀ c ∈ word, ¬ isSpace c = true)
    (fits : word.length ≤ width) (ends : isSpace stop = true) :
    scanWord width (blank ++ (word ++ stop :: rest)) = (word, stop :: rest) := by
  obtain ⟨c, more, rfl⟩ := List.exists_cons_of_ne_nil nonempty
  have skipped : (blank ++ (c :: more ++ stop :: rest)).dropWhile isSpace = c :: more ++ stop :: rest := by
    rw [List.dropWhile_append_of_pos spaces]
    exact List.dropWhile_cons_of_neg (plain c (List.mem_cons_self ..))
  have whole : (c :: more ++ stop :: rest).takeWhile (fun c => !isSpace c) = c :: more := by
    refine takeWhile_span (fun d inside => by simpa using plain d inside) fun d first => ?_
    rw [← Option.some.inj first, ends]
    rfl
  simp only [scanWord, skipped, whole, List.take_of_length_le fits, List.drop_left]

theorem scanWord_blank (spaces : ∀ c ∈ blank, isSpace c = true) : scanWord width blank = ([], []) := by
  have skipped : blank.dropWhile isSpace = [] := List.dropWhile_eq_nil_iff.mpr spaces
  simp [scanWord, skipped]

end

/-- `isdigit` -/
def isDigit (c : UInt8) : Bool := 48 ≤ c && c ≤ 57

/-- The number that digits stand for. -/
def number (digits : Bytes) : ℕ := digits.foldl (fun value c => 10 * value + (c.toNat - 48)) 0

/-- `strtol( s, &end, 10 )`, the number it returns. -/
def strtol (s : Bytes) : ℤ :=
  let text := s.dropWhile isSpace
  let negative := text.head? = some 45
  let digits := (if negative ∨ text.head? = some 43 then text.tail else text).takeWhile isDigit
  let value : ℤ := if negative then -number digits else number digits
  max (-2 ^ 63) (min value (2 ^ 63 - 1))

/-- `atoi`, which is `(int) strtol( s, NULL, 10 )`. -/
def atoi (s : Bytes) : ℤ := (strtol s).bmod (2 ^ 32)

/-- `%ld` of `printf`. -/
def decimalInt (value : ℤ) : Bytes := if value < 0 then 45 :: decimal value.natAbs else decimal value.natAbs

/-- `%010ld` of `printf`. -/
def ld010 (S : ℤ) : Bytes :=
  let digits := decimal S.natAbs
  if S < 0 then 45 :: (List.replicate (9 - digits.length) 48 ++ digits) else List.replicate (10 - digits.length) 48 ++ digits

/-- `value + 1` in an `int`, which goes on with the smallest number behind the largest one. -/
def incInt (value : ℤ) : ℤ := (value + 1).bmod (2 ^ 32)

theorem incInt_of_lt {value : ℤ} (low : -1 ≤ value) (high : value + 1 < 2 ^ 31) : incInt value = value + 1 := by
  rw [incInt, Int.bmod_def]
  split <;> omega

/-! ### The decimal text of a number is read back -/

theorem isDigit_char {c : Char} (digit : c.isDigit = true) :
    isDigit c.toNat.toUInt8 = true ∧ c.toNat.toUInt8.toNat = c.toNat := by
  have range : 48 ≤ c.toNat ∧ c.toNat ≤ 57 := by
    simp only [Char.isDigit, Bool.and_eq_true, decide_eq_true_eq, ge_iff_le] at digit
    exact ⟨digit.1, digit.2⟩
  have value : c.toNat.toUInt8.toNat = c.toNat := Nat.mod_eq_of_lt (by omega)
  refine ⟨?_, value⟩
  simp only [isDigit, Bool.and_eq_true, decide_eq_true_eq, UInt8.le_iff_toNat_le, value]
  exact range

theorem decimalInt_natCast (value : ℕ) : decimalInt value = decimal value := by
  rw [decimalInt, if_neg (by omega), Int.natAbs_natCast]

theorem decimal_digits (value : ℕ) : ∀ c ∈ decimal value, isDigit c = true := by
  intro c inside
  obtain ⟨d, digit, rfl⟩ := List.mem_map.mp inside
  exact (isDigit_char (Nat.isDigit_of_mem_toDigits (by decide) (by decide) digit)).1

theorem number_decimal (value : ℕ) : number (decimal value) = value := by
  have fold : ∀ (chars : List Char) (sofar : ℕ), (∀ c ∈ chars, c.isDigit = true) →
      (ascii chars).foldl (fun value c => 10 * value + (c.toNat - 48)) sofar = Nat.ofDigitChars 10 chars sofar := by
    intro chars
    induction chars with
    | nil => intro sofar _; rfl
    | cons c rest ih =>
      intro sofar digits
      have code := (isDigit_char (digits c (List.mem_cons_self ..))).2
      rw [ascii, List.map_cons, List.foldl_cons, code, Nat.ofDigitChars_cons]
      exact ih _ fun d inside => digits d (List.mem_cons_of_mem _ inside)
  rw [number, decimal, fold _ 0 fun c inside => Nat.isDigit_of_mem_toDigits (by decide) (by decide) inside]
  exact Nat.ofDigitChars_ten_toDigits

theorem decimal_ne_nil (value : ℕ) : decimal value ≠ [] := by
  simp [decimal, ascii]

theorem zero_decimalInt (value : ℤ) : 0 ∉ decimalInt value := by
  have digits : 0 ∉ decimal value.natAbs := fun inside => Bool.false_ne_true (decimal_digits _ 0 inside)
  unfold decimalInt
  split <;> simp [digits]

theorem takeWhile_all {digits : Bytes} (all : ∀ c ∈ digits, isDigit c = true) : digits.takeWhile isDigit = digits :=
  List.takeWhile_eq_self_iff.mpr all

theorem ld010_plain (S : ℤ) : 10 ∉ ld010 S := by
  have digits : 10 ∉ decimal S.natAbs := fun inside => Bool.false_ne_true (decimal_digits _ 10 inside)
  unfold ld010
  split <;> simp [digits]

theorem isDigit_start {c : UInt8} (digit : isDigit c = true) : ¬ isSpace c = true ∧ c ≠ 45 ∧ c ≠ 43 := by
  have range : 48 ≤ c ∧ c ≤ 57 := by simpa [isDigit] using digit
  refine ⟨?_, ?_, ?_⟩
  · simp only [isSpace, Bool.or_eq_true, Bool.and_eq_true, decide_eq_true_eq]
    rintro (rfl | ⟨-, small⟩)
    · exact absurd range.1 (by decide)
    · exact absurd (UInt8.le_trans range.1 small) (by decide)
  · rintro rfl
    exact absurd range.1 (by decide)
  · rintro rfl
    exact absurd range.1 (by decide)

/-- Digits without a sign are read up to the first byte that is none. -/
theorem strtol_digits {digits rest : Bytes} (nonempty : digits ≠ []) (all : ∀ c ∈ digits, isDigit c = true)
    (other : rest.takeWhile isDigit = []) : strtol (digits ++ rest) = min (number digits) (2 ^ 63 - 1) := by
  obtain ⟨d, more, rfl⟩ := List.exists_cons_of_ne_nil nonempty
  obtain ⟨notSpace, minus, plus⟩ := isDigit_start (all d (List.mem_cons_self ..))
  have start : (d :: more ++ rest).dropWhile isSpace = d :: more ++ rest := List.dropWhile_cons_of_neg notSpace
  have whole : (d :: more ++ rest).takeWhile isDigit = d :: more := by
    rw [List.takeWhile_append_of_pos all, other, List.append_nil]
  have unsigned : (d :: more ++ rest).head? = some d := rfl
  simp only [strtol, start, unsigned, Option.some.injEq, minus, plus, or_self, if_false, whole]
  omega

theorem strtol_decimalInt {value : ℤ} (low : -2 ^ 63 ≤ value) (high : value < 2 ^ 63) : strtol (decimalInt value) = value := by
  have digits := decimal_digits value.natAbs
  by_cases negative : value < 0
  · have start : (decimalInt value).dropWhile isSpace = 45 :: decimal value.natAbs := by
      rw [decimalInt, if_pos negative, List.dropWhile_cons_of_neg (by decide)]
    simp only [strtol, start, List.head?_cons, List.tail_cons, true_or, if_true, takeWhile_all digits, number_decimal]
    omega
  · have read : strtol (decimal value.natAbs ++ []) = _ := strtol_digits (decimal_ne_nil value.natAbs) digits rfl
    rw [List.append_nil, number_decimal] at read
    rw [decimalInt, if_neg negative, read]
    omega

theorem ld010_natCast (S : ℕ) : ld010 S = List.replicate (10 - (decimal S).length) 48 ++ decimal S := by
  rw [ld010, if_neg (by omega), Int.natAbs_natCast]

theorem ld010_digits (S : ℕ) : ∀ c ∈ ld010 S, isDigit c = true := by
  intro c inside
  rw [ld010_natCast] at inside
  rcases List.mem_append.mp inside with zero | digit
  · rw [(List.mem_replicate.mp zero).2]
    rfl
  · exact decimal_digits S c digit

theorem ld010_ne_nil (S : ℕ) : ld010 S ≠ [] := by
  rw [ld010_natCast]
  exact List.append_ne_nil_of_right_ne_nil _ (decimal_ne_nil S)

/-- A number of ten digits at most fills the width. -/
theorem length_ld010 {S : ℕ} (ten : S < 10 ^ 10) : (ld010 S).length = 10 := by
  have digits : (decimal S).length ≤ 10 := by
    rw [decimal, ascii, List.length_map]
    exact (Nat.length_toDigits_le_iff (by decide) (by decide)).mpr ten
  rw [ld010_natCast, List.length_append, List.length_replicate]
  omega

/-- The zeros in front of a number make no difference. -/
theorem strtol_ld010 {S : ℕ} (small : S < 2 ^ 63) : strtol (ld010 S) = S := by
  have zeros : ∀ k, (List.replicate k (48 : UInt8)).foldl (fun value c => 10 * value + (c.toNat - 48)) 0 = 0 := by
    intro k
    induction k with
    | zero => rfl
    | succ k ih => rw [List.replicate_succ, List.foldl_cons]; exact ih
  have value : number (ld010 S) = S := by
    rw [ld010_natCast, number, List.foldl_append, zeros]
    exact number_decimal S
  have read : strtol (ld010 S ++ []) = _ := strtol_digits (ld010_ne_nil S) (ld010_digits S) rfl
  rw [List.append_nil, value] at read
  rw [read]
  omega

theorem atoi_decimalInt {value : ℤ} (low : -2 ^ 63 ≤ value) (high : value < 2 ^ 63) :
    atoi (decimalInt value) = value.bmod (2 ^ 32) := by
  rw [atoi, strtol_decimalInt low high]

/-- A digit followed by something else stands for its value. -/
theorem atoi_digit {d : ℕ} (small : d < 10) {rest : Bytes} (other : rest.takeWhile isDigit = []) :
    atoi ((48 + d).toUInt8 :: rest) = d := by
  have code : ((48 + d).toUInt8).toNat = 48 + d := Nat.mod_eq_of_lt (by omega)
  have digits : ∀ c ∈ [(48 + d).toUInt8], isDigit c = true := by
    simp only [List.forall_mem_singleton, isDigit, Bool.and_eq_true, decide_eq_true_eq, UInt8.le_iff_toNat_le, code]
    exact ⟨Nat.le_add_right 48 d, by show 48 + d ≤ 57; omega⟩
  have read := strtol_digits (List.cons_ne_nil _ []) digits other
  have one : number [(48 + d).toUInt8] = d := by
    simp only [number, List.foldl_cons, List.foldl_nil, code]
    omega
  have value : strtol ((48 + d).toUInt8 :: rest) = d := by
    rw [one] at read
    exact read.trans (by omega)
  rw [atoi, value, Int.bmod_eq_of_le] <;> omega

/-! ### Texts with one delimiter -/

section
variable {delim : UInt8} {token : Bytes}

theorem contains_singleton (plain : ∀ d ∈ token, d ≠ 0 ∧ d ≠ delim) : ∀ d ∈ token, d ≠ 0 ∧ [delim].contains d = false := by
  intro d inside
  refine ⟨(plain d inside).1, ?_⟩
  simpa using (plain d inside).2

/-- A text that does not begin with the delimiter begins with a token, which goes up to the
    next delimiter or to the end. -/
theorem first_token {c : UInt8} {text : Bytes} (nul : 0 ∉ c :: text) (other : c ≠ delim) :
    ∃ token behind, c :: text = token ++ behind ∧ token ≠ [] ∧ (∀ d ∈ token, d ≠ 0 ∧ d ≠ delim) ∧
      (behind = [] ∨ ∃ rest, behind = delim :: rest ∧ 0 ∉ rest ∧ token.length + rest.length = text.length) := by
  obtain ⟨token, behind, split, inToken, ends⟩ := exists_span (fun d => d ≠ delim) (c :: text)
  refine ⟨token, behind, split, ?_, ?_, ?_⟩
  · rintro rfl
    rw [List.nil_append] at split
    rw [← split] at ends
    exact other (by simpa using ends c rfl)
  · intro d inside
    refine ⟨?_, by simpa using inToken d inside⟩
    rintro rfl
    exact nul (by rw [split]; exact List.mem_append_left _ inside)
  · cases behind with
    | nil => exact .inl rfl
    | cons d rest =>
      obtain rfl : d = delim := by simpa using ends d rfl
      refine .inr ⟨rest, rfl, fun inside => nul (by rw [split]; simp [inside]), ?_⟩
      have length := congrArg List.length split
      simp only [List.length_append, List.length_cons] at length
      omega

end

/-! ### Numbers in a text -/

/-- The number that the digits at the beginning of a text stand for, and what follows
    them. -/
def scanDigits (negative : Bool) (text : Bytes) : Option (ℤ × Bytes) :=
  let digits := text.takeWhile isDigit
  if digits = [] then none else some (if negative then -(number digits : ℤ) else number digits, text.dropWhile isDigit)

/-- `%d` of `sscanf`: the number at the beginning of a text, before it is stored as an
    `int`, and what follows it. -/
def scanInt (text : Bytes) : Option (ℤ × Bytes) :=
  let word := text.dropWhile isSpace
  if word.head? = some 45 then scanDigits true word.tail
  else if word.head? = some 43 then scanDigits false word.tail
  else scanDigits false word

/-- White space, a sign or none, and digits are the number at the beginning of a text. -/
structure Numeral (text : Bytes) (value : ℤ) (rest blank sign digits : Bytes) : Prop where
  split : text = blank ++ (sign ++ (digits ++ rest))
  spaces : ∀ c ∈ blank, isSpace c = true
  signed : sign = [] ∨ sign = [43] ∨ sign = [45]
  nonempty : digits ≠ []
  all : ∀ c ∈ digits, isDigit c = true
  ends : ∀ c, rest.head? = some c → isDigit c = false
  value_eq : value = if sign = [45] then -(number digits : ℤ) else number digits

theorem scanDigits_iff {negative : Bool} {text rest : Bytes} {value : ℤ} :
    scanDigits negative text = some (value, rest) ↔
      ∃ digits, text = digits ++ rest ∧ digits ≠ [] ∧ (∀ c ∈ digits, isDigit c = true) ∧
        (∀ c, rest.head? = some c → isDigit c = false) ∧ value = if negative then -(number digits : ℤ) else number digits := by
  constructor
  · intro read
    have parts := List.takeWhile_append_dropWhile (p := isDigit) (l := text)
    have ends := List.head?_dropWhile_not isDigit text
    rw [scanDigits] at read
    split at read
    next => cases read
    next nonempty =>
      obtain ⟨rfl, rfl⟩ := Prod.mk.inj (Option.some.inj read)
      refine ⟨_, parts.symm, nonempty, fun c => List.mem_takeWhile_imp, ?_, rfl⟩
      intro c first
      rw [first] at ends
      simpa using ends
  · rintro ⟨digits, rfl, nonempty, all, ends, rfl⟩
    have taken : (digits ++ rest).takeWhile isDigit = digits := takeWhile_span all ends
    have dropped : (digits ++ rest).dropWhile isDigit = rest := by
      have parts := List.takeWhile_append_dropWhile (p := isDigit) (l := digits ++ rest)
      rw [taken] at parts
      exact List.append_cancel_left parts
    simp only [scanDigits, taken, if_neg nonempty, dropped]

theorem scanInt_iff {text rest : Bytes} {value : ℤ} :
    scanInt text = some (value, rest) ↔ ∃ blank sign digits, Numeral text value rest blank sign digits := by
  constructor
  · intro read
    have words := List.takeWhile_append_dropWhile (p := isSpace) (l := text)
    have spaces : ∀ c ∈ text.takeWhile isSpace, isSpace c = true := fun c => List.mem_takeWhile_imp
    rw [scanInt] at read
    split at read
    next minus =>
      obtain ⟨digits, split, nonempty, all, ends, rfl⟩ := scanDigits_iff.mp read
      rw [← List.cons_head?_tail minus, split] at words
      exact ⟨_, [45], digits, words.symm, spaces, .inr (.inr rfl), nonempty, all, ends, rfl⟩
    next =>
      split at read
      next plus =>
        obtain ⟨digits, split, nonempty, all, ends, rfl⟩ := scanDigits_iff.mp read
        rw [← List.cons_head?_tail plus, split] at words
        exact ⟨_, [43], digits, words.symm, spaces, .inr (.inl rfl), nonempty, all, ends, rfl⟩
      next =>
        obtain ⟨digits, split, nonempty, all, ends, rfl⟩ := scanDigits_iff.mp read
        rw [split] at words
        exact ⟨_, [], digits, words.symm, spaces, .inl rfl, nonempty, all, ends, rfl⟩
  · rintro ⟨blank, sign, digits, rfl, spaces, signed, nonempty, all, ends, rfl⟩
    obtain ⟨d, more, rfl⟩ := List.exists_cons_of_ne_nil nonempty
    obtain ⟨notSpace, minus, plus⟩ := isDigit_start (all d (List.mem_cons_self ..))
    rw [scanInt, List.dropWhile_append_of_pos spaces]
    rcases signed with rfl | rfl | rfl
    · have word : ([] ++ (d :: more ++ rest)).dropWhile isSpace = d :: (more ++ rest) := List.dropWhile_cons_of_neg notSpace
      simp only [word, List.head?_cons, Option.some.injEq, minus, plus, if_false]
      exact scanDigits_iff.mpr ⟨_, rfl, nonempty, all, ends, rfl⟩
    · have word : ([43] ++ (d :: more ++ rest)).dropWhile isSpace = 43 :: (d :: more ++ rest) := List.dropWhile_cons_of_neg (by decide)
      have plus : ¬ (43 : UInt8) = 45 := by decide
      simp only [word, List.head?_cons, Option.some.injEq, plus, if_false, if_true]
      exact scanDigits_iff.mpr ⟨_, rfl, nonempty, all, ends, rfl⟩
    · have word : ([45] ++ (d :: more ++ rest)).dropWhile isSpace = 45 :: (d :: more ++ rest) := List.dropWhile_cons_of_neg (by decide)
      simp only [word, List.head?_cons, if_true]
      exact scanDigits_iff.mpr ⟨_, rfl, nonempty, all, ends, rfl⟩

theorem scanInt_decimalInt (value : ℤ) {rest : Bytes} (ends : ∀ c, rest.head? = some c → isDigit c = false) :
    scanInt (decimalInt value ++ rest) = some (value, rest) := by
  have nothing : ∀ c ∈ ([] : Bytes), isSpace c = true := fun c inside => absurd inside List.not_mem_nil
  have digits := decimal_digits value.natAbs
  have nonempty := decimal_ne_nil value.natAbs
  by_cases negative : value < 0
  · refine scanInt_iff.mpr ⟨[], [45], decimal value.natAbs, ?_, nothing, .inr (.inr rfl), nonempty, digits, ends, ?_⟩
    · rw [decimalInt, if_pos negative]
      rfl
    · rw [if_pos rfl, number_decimal]
      omega
  · refine scanInt_iff.mpr ⟨[], [], decimal value.natAbs, ?_, nothing, .inl rfl, nonempty, digits, ends, ?_⟩
    · rw [decimalInt, if_neg negative]
      rfl
    · rw [if_neg (by decide), number_decimal]
      omega

/-- A number that something follows is not changed by what comes later. -/
theorem scanInt_append {text rest : Bytes} {value : ℤ} (read : scanInt text = some (value, rest)) {more : Bytes}
    (ends : rest ≠ [] ∨ more = []) : scanInt (text ++ more) = some (value, rest ++ more) := by
  rcases ends with some | rfl
  · obtain ⟨blank, sign, digits, rfl, spaces, signed, nonempty, all, other, value_eq⟩ := scanInt_iff.mp read
    obtain ⟨c, rest, rfl⟩ := List.exists_cons_of_ne_nil some
    refine scanInt_iff.mpr ⟨blank, sign, digits, ?_, spaces, signed, nonempty, all, fun e first => other e first, value_eq⟩
    simp only [List.append_assoc]
  · rw [List.append_nil, List.append_nil, read]

/-- A digit behind a number at the end of a text is part of the number. -/
theorem scanInt_digit {text : Bytes} {value : ℤ} (read : scanInt text = some (value, [])) {d : UInt8} (digit : isDigit d = true) :
    ∃ longer, scanInt (text ++ [d]) = some (longer, []) ∧ (2 ∣ longer ↔ 2 ∣ d.toNat - 48) := by
  obtain ⟨blank, sign, digits, rfl, spaces, signed, nonempty, all, other, value_eq⟩ := scanInt_iff.mp read
  have longer : number (digits ++ [d]) = 10 * number digits + (d.toNat - 48) := by
    rw [number, List.foldl_append]
    rfl
  refine ⟨if sign = [45] then -(number (digits ++ [d]) : ℤ) else number (digits ++ [d]), ?_, ?_⟩
  · refine scanInt_iff.mpr ⟨blank, sign, digits ++ [d], ?_, spaces, signed, List.append_ne_nil_of_left_ne_nil nonempty _, ?_, other, rfl⟩
    · simp only [List.append_assoc, List.append_nil]
    · intro c inside
      rcases List.mem_append.mp inside with before | last
      · exact all c before
      · rwa [List.mem_singleton.mp last]
  · rw [longer]
    split <;> omega

end OsyProg.CStrings
