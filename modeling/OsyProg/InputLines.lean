import OsyProg.CStrings
import OsyProg.Lines

/-!
`cv1_done`: the lines of the standard input are written with their numbers. `read` cuts
the input into pieces of any sizes, a line is put together in an array over several of
them, and what an overlong line has behind the room of the array is dropped. Stores go
through `store`, which has no result outside its array. What the loop has done with the
input that it has read is described by the lines of that input (`Numbered`), so the way
in which `read` cuts it makes no difference (`main_numbers_lines`).
-/
namespace OsyProg.InputLines
open OsyProg.Bytes OsyProg.CStrings OsyProg.Lines

/-! ### Pieces and arrays -/

/-- What a call of `read` has put into a buffer of the given size. -/
structure Piece (size : ℕ) where
  bytes : Bytes
  nonempty : bytes ≠ []
  fits : bytes.length ≤ size

/-- All that the calls have read. -/
def stream {size : ℕ} (pieces : List (Piece size)) : Bytes := pieces.flatMap Piece.bytes

/-- A new array, which holds anything. -/
abbrev Fresh (size : ℕ) := { bytes : Bytes // bytes.length = size }

/-- `array[index] = c`, which has no meaning outside the array. -/
def store (array : Bytes) (index : ℕ) (c : UInt8) : Option Bytes :=
  if index < array.length then some (array.set index c) else none

/-- A store inside the array leaves what is in front of it. -/
theorem store_inside {array : Bytes} {index : ℕ} (inside : index < array.length) (c : UInt8) :
    ∃ stored, store array index c = some stored ∧ stored.length = array.length ∧ stored.take index = array.take index ∧
      stored.take (index + 1) = array.take index ++ [c] := by
  refine ⟨array.set index c, if_pos inside, List.length_set, List.take_set_of_le (Nat.le_refl _), ?_⟩
  have within : index < (array.set index c).length := by rwa [List.length_set]
  rw [List.take_succ_eq_append_getElem within, List.take_set_of_le (Nat.le_refl _), List.getElem_set_self]

theorem store_outside {array : Bytes} {index : ℕ} (outside : array.length ≤ index) (c : UInt8) : store array index c = none :=
  if_neg (Nat.not_lt.mpr outside)

/-! ### cv1_done -/

/-- The loop that puts the digits of `x` behind the first `t` bytes of `tmp`, the lowest
    first, as long as there is room. -/
def fillTmp (x t : ℕ) (tmp : Bytes) : ℕ → Option (Bytes × ℕ)
  | 0 => some (tmp, t)
  | room + 1 =>
    if 0 < x then (store tmp t (48 + x % 10).toUInt8).bind fun tmp => fillTmp (x / 10) (t + 1) tmp room
    else some (tmp, t)

/-- The loop that takes the first `t` bytes of `tmp` from the last to the first. -/
def reverseTmp (tmp : Bytes) (max : ℕ) : ℕ → Bytes → ℕ → Option (Bytes × ℕ)
  | 0, out, len => some (out, len)
  | t + 1, out, len =>
    if len + 1 < max then tmp[t]?.bind fun c => (store out len c).bind fun out => reverseTmp tmp max t out (len + 1)
    else some (out, len)

/-- `int_to_str` of a number that is not negative: what it leaves in `out`, and the length. -/
def intToStr (tmp : Fresh 32) (x : ℕ) (out : Bytes) (max : ℕ) : Option (Bytes × ℕ) :=
  if max = 0 then some (out, 0)
  else if x = 0 then
    if max < 2 then some (out, 0)
    else (store out 0 48).bind fun out => (store out 1 0).map fun out => (out, 1)
  else
    (fillTmp x 0 tmp.val 32).bind fun (tmp, t) =>
      (reverseTmp tmp max t out 0).bind fun (out, len) => (store out len 0).map fun out => (out, len)

def LINE : ℕ := 1024

/-- What the arrays hold when they are new: `num` and `tmp` are new for every line number. -/
structure Junk where
  line : Fresh LINE
  num : ℕ → Fresh 32
  tmp : ℕ → Fresh 32

/-- The variables of `main`, and what has been written. -/
structure Scan where
  line : Bytes
  lineLen : ℕ
  lineNo : ℕ
  written : Bytes

/-- The number and the text of a line. -/
def writeLine (junk : Junk) (s : Scan) : Option Scan :=
  (store s.line s.lineLen 0).bind fun line =>
    (intToStr (junk.tmp s.lineNo) s.lineNo (junk.num s.lineNo).val 32).map fun (num, numLen) =>
      { s with
        line
        written := s.written ++ (if 0 < numLen then num.take numLen else []) ++ ascii [':', ' '] ++
          (if 0 < s.lineLen then line.take s.lineLen else []) ++ [10] }

/-- The body of the loop over the bytes of `buf`; `line_no` is an `int`. -/
def byteStep (junk : Junk) (s : Scan) (c : UInt8) : Option Scan :=
  if c = 10 then
    (writeLine junk s).bind fun s =>
      if s.lineNo + 1 < 2 ^ 31 then some { s with lineLen := 0, lineNo := s.lineNo + 1 } else none
  else if s.lineLen < LINE - 1 then
    (store s.line s.lineLen c).map fun line => { s with line, lineLen := s.lineLen + 1 }
  else some s

/-- The loop over the calls of `read`. -/
def readLoop (junk : Junk) (s : Scan) : List (Piece 8) → Option Scan
  | [] => some s
  | buf :: later => (buf.bytes.foldlM (byteStep junk) s).bind fun s => readLoop junk s later

/-- What `main` writes. -/
def main (junk : Junk) (pieces : List (Piece 8)) : Option Bytes :=
  (readLoop junk { line := junk.line.val, lineLen := 0, lineNo := 1, written := [] } pieces).bind fun s =>
    if 0 < s.lineLen then (writeLine junk s).map Scan.written else some s.written

/-! ### The digits of the line number -/

/-- The digits of a number, the lowest first; zero has none. -/
def lowFirst (x : ℕ) : Bytes := if x = 0 then [] else (decimal x).reverse

theorem lowFirst_pos {x : ℕ} (pos : 0 < x) : lowFirst x = (48 + x % 10).toUInt8 :: lowFirst (x / 10) := by
  have code : ∀ d < 10, (Nat.digitChar d).toNat.toUInt8 = (48 + d).toUInt8 := by
    intro d below
    rw [Nat.toNat_digitChar_of_lt_ten below]
  rw [lowFirst, if_neg (Nat.ne_of_gt pos), decimal, Nat.toDigits_eq_if (by decide)]
  split
  case isTrue below => simp [lowFirst, Nat.div_eq_of_lt below, Nat.mod_eq_of_lt below, ascii, code x below]
  case isFalse above =>
    have more : x / 10 ≠ 0 := by omega
    have last := code (x % 10) (Nat.mod_lt x (by decide))
    simp [lowFirst, more, decimal, ascii, last]

/-- The digits are put behind what `tmp` holds. -/
theorem fillTmp_digits {tmp : Bytes} {t room : ℕ} {x : ℕ} (size : t + room = tmp.length) (fits : (lowFirst x).length ≤ room) :
    ∃ filled, fillTmp x t tmp room = some (filled, t + (lowFirst x).length) ∧ filled.length = tmp.length ∧
      filled.take (t + (lowFirst x).length) = tmp.take t ++ lowFirst x := by
  induction room generalizing x t tmp with
  | zero =>
    have none : lowFirst x = [] := List.eq_nil_of_length_eq_zero (Nat.le_zero.mp fits)
    exact ⟨tmp, by simp [fillTmp, none], rfl, by simp [none]⟩
  | succ room ih =>
    rcases Nat.eq_zero_or_pos x with rfl | pos
    · exact ⟨tmp, by simp [fillTmp, lowFirst], rfl, by simp [lowFirst]⟩
    · obtain ⟨stored, put, same, _, taken⟩ := store_inside (show t < tmp.length by omega) (48 + x % 10).toUInt8
      rw [lowFirst_pos pos, List.length_cons] at fits
      obtain ⟨filled, run, length, digits⟩ := @ih stored (t + 1) (x / 10) (by omega) (by omega)
      have place : t + (lowFirst x).length = t + 1 + (lowFirst (x / 10)).length := by
        rw [lowFirst_pos pos, List.length_cons]
        omega
      refine ⟨filled, ?_, length.trans same, ?_⟩
      · rw [fillTmp, if_pos pos, put, Option.bind_some, run, place]
      · rw [place, digits, taken, lowFirst_pos pos, List.append_assoc, List.singleton_append]

/-- The bytes of `tmp` come in the other order. -/
theorem reverseTmp_reverse {tmp out : Bytes} {t len : ℕ} (filled : t ≤ tmp.length) (room : len + t < out.length) :
    ∃ turned, reverseTmp tmp out.length t out len = some (turned, len + t) ∧ turned.length = out.length ∧
      turned.take (len + t) = out.take len ++ (tmp.take t).reverse := by
  induction t generalizing out len with
  | zero => exact ⟨out, rfl, rfl, by simp⟩
  | succ t ih =>
    have inside : t < tmp.length := by omega
    obtain ⟨stored, put, same, _, taken⟩ := store_inside (show len < out.length by omega) tmp[t]
    obtain ⟨turned, run, length, bytes⟩ := @ih stored (len + 1) (by omega) (by omega)
    rw [same] at run
    refine ⟨turned, ?_, length.trans same, ?_⟩
    · rw [reverseTmp, if_pos (by omega), List.getElem?_eq_getElem inside, Option.bind_some, put, Option.bind_some, run]
      congr 2
      omega
    · rw [show len + (t + 1) = len + 1 + t by omega, bytes, taken, List.take_succ_eq_append_getElem inside, List.reverse_append,
        List.reverse_singleton, List.append_assoc]

/-- `int_to_str` of a number that an `int` holds. -/
theorem intToStr_decimal (tmp out : Fresh 32) {x : ℕ} (pos : 0 < x) (int : x < 2 ^ 31) :
    ∃ num, intToStr tmp x out.val 32 = some (num, (decimal x).length) ∧ num.take (decimal x).length = decimal x := by
  have digits : lowFirst x = (decimal x).reverse := if_neg (Nat.ne_of_gt pos)
  have ten : (decimal x).length ≤ 10 := by
    rw [decimal, ascii, List.length_map]
    exact (Nat.length_toDigits_le_iff (by decide) (by decide)).mpr (by omega)
  have fits : (lowFirst x).length ≤ 32 := by rw [digits, List.length_reverse]; omega
  obtain ⟨filled, fill, size, low⟩ := @fillTmp_digits tmp.val 0 32 x tmp.property.symm fits
  rw [Nat.zero_add, digits, List.length_reverse] at fill low
  rw [tmp.property] at size
  obtain ⟨turned, turn, length, high⟩ := @reverseTmp_reverse filled out.val
    (decimal x).length 0 (by omega) (by rw [out.property]; omega)
  rw [out.property, Nat.zero_add] at turn
  rw [out.property] at length
  rw [Nat.zero_add, low, List.take_zero, List.take_zero, List.nil_append, List.nil_append, List.reverse_reverse] at high
  obtain ⟨num, put, _, kept, _⟩ := store_inside (show (decimal x).length < turned.length by omega) 0
  refine ⟨num, ?_, kept.trans high⟩
  simp only [intToStr, Nat.ne_of_gt pos, if_false, OfNat.ofNat_ne_zero, fill, Option.bind_some, turn, put, Option.map_some]

/-! ### The lines of the input -/

/-- The lines with their numbers, each as far as it fits into the array with a zero. -/
def numbered (lines : List Bytes) : Bytes :=
  (lines.zipIdx 1).flatMap fun (line, n) => decimal n ++ ascii [':', ' '] ++ line.take (LINE - 1) ++ [10]

/-- The lines of a text; the last one may lack its newline. -/
def allLines (text : Bytes) : List Bytes := linesOf 10 text ++ if restOf 10 text = [] then [] else [restOf 10 text]

theorem numbered_concat (lines : List Bytes) (line : Bytes) :
    numbered (lines ++ [line]) = numbered lines ++ (decimal (lines.length + 1) ++ ascii [':', ' '] ++ line.take (LINE - 1) ++ [10]) := by
  rw [numbered, List.zipIdx_append, List.flatMap_append, ← numbered, Nat.add_comm 1]
  simp

/-- What the loop has done with the bytes it has read. -/
structure Numbered (text : Bytes) (s : Scan) : Prop where
  array : s.line.length = LINE
  lineLen : s.lineLen = min (restOf 10 text).length (LINE - 1)
  kept : s.line.take s.lineLen = (restOf 10 text).take (LINE - 1)
  lineNo : s.lineNo = (linesOf 10 text).length + 1
  written : s.written = numbered (linesOf 10 text)

variable {text : Bytes} {s : Scan}

theorem writeLine_numbered (junk : Junk) (inv : Numbered text s) (few : (linesOf 10 text).length + 1 < 2 ^ 31) :
    ∃ line, line.length = LINE ∧
      writeLine junk s = some { s with line, written := numbered (linesOf 10 text ++ [restOf 10 text]) } := by
  have room : s.lineLen < s.line.length := by rw [inv.array, inv.lineLen, LINE]; omega
  obtain ⟨line, put, same, kept, _⟩ := store_inside room 0
  obtain ⟨num, conv, digits⟩ := @intToStr_decimal (junk.tmp s.lineNo) (junk.num s.lineNo) s.lineNo (by rw [inv.lineNo]; omega) (by rw [inv.lineNo]; exact few)
  have number : 0 < (decimal s.lineNo).length := List.length_pos_iff.mpr (decimal_ne_nil _)
  have shown : (if 0 < s.lineLen then line.take s.lineLen else []) = (restOf 10 text).take (LINE - 1) := by
    rw [kept, inv.kept]
    split
    · rfl
    · rename_i none
      rw [← inv.kept, Nat.le_zero.mp (Nat.not_lt.mp none), List.take_zero]
  refine ⟨line, same.trans inv.array, ?_⟩
  rw [numbered_concat, writeLine, put, Option.bind_some, conv, Option.map_some]
  dsimp only
  rw [if_pos number, digits, shown, inv.written, inv.lineNo]
  simp only [List.append_assoc]

theorem byteStep_numbered (junk : Junk) (inv : Numbered text s) (c : UInt8)
    (few : (linesOf 10 (text ++ [c])).length + 1 < 2 ^ 31) : ∃ s', byteStep junk s c = some s' ∧ Numbered (text ++ [c]) s' := by
  by_cases ends : c = 10
  · subst ends
    obtain ⟨lines, rest⟩ := linesOf_newline 10 text
    rw [lines, List.length_append, List.length_singleton] at few
    obtain ⟨line, size, wrote⟩ := writeLine_numbered junk inv (by omega)
    refine ⟨{ s with line, lineLen := 0, lineNo := s.lineNo + 1, written := numbered (linesOf 10 text ++ [restOf 10 text]) }, ?_,
      ⟨size, ?_, ?_, ?_, ?_⟩⟩
    · rw [byteStep, if_pos rfl, wrote, Option.bind_some, if_pos (by rw [inv.lineNo]; exact few)]
    · rw [rest]; rfl
    · rw [rest]; rfl
    · rw [lines, List.length_append, List.length_singleton, inv.lineNo]
    · rw [lines]
  · obtain ⟨lines, rest⟩ := linesOf_other ends text
    by_cases room : s.lineLen < LINE - 1
    · -- the line is not longer than what has been kept of it
      have short : s.lineLen = (restOf 10 text).length := by have := inv.lineLen; omega
      obtain ⟨line, put, same, _, taken⟩ := store_inside (show s.lineLen < s.line.length by rw [inv.array]; omega) c
      refine ⟨{ s with line, lineLen := s.lineLen + 1 }, ?_, ⟨same.trans inv.array, ?_, ?_, ?_, ?_⟩⟩
      · rw [byteStep, if_neg ends, if_pos room, put, Option.map_some]
      · rw [rest, List.length_append, List.length_singleton, short]
        exact (Nat.min_eq_left (show (restOf 10 text).length + 1 ≤ LINE - 1 by omega)).symm
      · rw [taken, inv.kept, rest, List.take_of_length_le (by omega), List.take_of_length_le]
        rw [List.length_append, List.length_singleton]
        omega
      · rw [lines, inv.lineNo]
      · rw [lines, inv.written]
    · have long : LINE - 1 ≤ (restOf 10 text).length := by have := inv.lineLen; omega
      refine ⟨s, by rw [byteStep, if_neg ends, if_neg room], ⟨inv.array, ?_, ?_, ?_, ?_⟩⟩
      · rw [rest, List.length_append, inv.lineLen]
        omega
      · rw [rest, List.take_append_of_le_length long, inv.kept]
      · rw [lines, inv.lineNo]
      · rw [lines, inv.written]

theorem numbered_start (junk : Junk) :
    Numbered [] { line := junk.line.val, lineLen := 0, lineNo := 1, written := [] } :=
  ⟨junk.line.property, rfl, rfl, rfl, rfl⟩

/-- A text that goes on has at least the lines that it had. -/
theorem lines_le (text more : Bytes) : (linesOf 10 text).length ≤ (linesOf 10 (text ++ more)).length := by
  induction more generalizing text with
  | nil => rw [List.append_nil]
  | cons c more ih =>
    have next : (linesOf 10 text).length ≤ (linesOf 10 (text ++ [c])).length := by
      by_cases ends : c = 10
      · subst ends
        rw [(linesOf_newline 10 text).1, List.length_append]
        omega
      · rw [(linesOf_other ends text).1]
    have later := ih (text ++ [c])
    rw [List.append_assoc, List.singleton_append] at later
    exact next.trans later

theorem bytes_numbered (junk : Junk) (inv : Numbered text s) (bytes : Bytes)
    (few : (linesOf 10 (text ++ bytes)).length + 1 < 2 ^ 31) :
    ∃ s', bytes.foldlM (byteStep junk) s = some s' ∧ Numbered (text ++ bytes) s' := by
  induction bytes generalizing text s with
  | nil => exact ⟨s, rfl, by rwa [List.append_nil]⟩
  | cons c rest ih =>
    rw [List.append_cons] at few ⊢
    have some := lines_le (text ++ [c]) rest
    obtain ⟨middle, step, kept⟩ := byteStep_numbered junk inv c (by omega)
    obtain ⟨s', run, done⟩ := ih kept few
    exact ⟨s', by rw [List.foldlM_cons, step]; exact run, done⟩

/-- However the calls of `read` cut the input. -/
theorem readLoop_numbered (junk : Junk) (inv : Numbered text s) (pieces : List (Piece 8))
    (few : (linesOf 10 (text ++ stream pieces)).length + 1 < 2 ^ 31) :
    ∃ s', readLoop junk s pieces = some s' ∧ Numbered (text ++ stream pieces) s' := by
  induction pieces generalizing text s with
  | nil => exact ⟨s, rfl, by rwa [stream, List.flatMap_nil, List.append_nil]⟩
  | cons buf later ih =>
    rw [stream, List.flatMap_cons, ← stream, ← List.append_assoc] at few ⊢
    have some := lines_le (text ++ buf.bytes) (stream later)
    obtain ⟨middle, step, kept⟩ := bytes_numbered junk inv buf.bytes (by omega)
    obtain ⟨s', run, done⟩ := ih kept few
    exact ⟨s', by rw [readLoop, step, Option.bind_some, run], done⟩

/-- `cv1_done` writes each line of its input with its number, and it stays inside its
    arrays, however `read` cuts the input and whatever the arrays hold at first. -/
theorem main_numbers_lines (junk : Junk) (pieces : List (Piece 8)) (few : (linesOf 10 (stream pieces)).length < 2 ^ 31 - 1) :
    main junk pieces = some (numbered (allLines (stream pieces))) := by
  obtain ⟨s, run, inv⟩ := readLoop_numbered junk (numbered_start junk) pieces (by rw [List.nil_append]; omega)
  rw [List.nil_append] at inv
  rw [main, run, Option.bind_some, allLines]
  by_cases left : restOf 10 (stream pieces) = []
  · have none : ¬ 0 < s.lineLen := by simp [inv.lineLen, left]
    rw [if_neg none, inv.written, if_pos left, List.append_nil]
  · have some : 0 < s.lineLen := by
      have length := List.length_pos_iff.mpr left
      rw [inv.lineLen, LINE]
      omega
    obtain ⟨line, -, wrote⟩ := writeLine_numbered junk inv (by omega)
    rw [if_pos some, wrote, Option.map_some, if_neg left]

/-- Two lines and a third without its newline, cut in the middle of a line. -/
theorem main_numbers_sample : main
      { line := ⟨List.replicate LINE 255, List.length_replicate⟩
        num := fun _ => ⟨List.replicate 32 255, List.length_replicate⟩
        tmp := fun _ => ⟨List.replicate 32 255, List.length_replicate⟩ }
      [⟨ascii ['a', 'b', '\n', '\n', 'c'], by decide, by decide⟩, ⟨ascii ['d'], by decide, by decide⟩] =
    some (ascii ['1', ':', ' ', 'a', 'b', '\n', '2', ':', ' ', '\n', '3', ':', ' ', 'c', 'd', '\n']) :=
  main_numbers_lines _ [⟨ascii ['a', 'b', '\n', '\n', 'c'], by decide, by decide⟩, ⟨ascii ['d'], by decide, by decide⟩] (by decide)

end OsyProg.InputLines
