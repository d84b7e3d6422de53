import OsyProg.ChildServe
import OsyProg.CStrings
import OsyProg.Lines

/-!
`recv_line` of the server of `DU/DU04` on a whole stream. A line that is longer than the
buffer comes in several parts, and each part is cut as if it were a line: the CR that is
one byte before its end goes, with the byte behind it, and the CR of a line end stays when
the newline comes in the next part. `recvLines_iff` says for which capacities and lines
that makes a difference.
-/
namespace OsyProg.RecvLine
open OsyProg.Bytes OsyProg.CStrings OsyProg.Lines OsyProg.ChildServe

/-! ### The calls -/

/-- The loop of `recv_line` with the bytes that it has put into `buf`: those of the whole
    call, and what is left of the stream. When the stream ends before, it returns 0. -/
def recvLine (cap : ℕ) : Bytes → Bytes → Option (Bytes × Bytes)
  | _, [] => none
  | buf, c :: stream => if lineEnds cap (buf ++ [c]) then some (buf ++ [c], stream) else recvLine cap (buf ++ [c]) stream

/-- What successive calls take, at most so many. -/
def calls (cap : ℕ) : ℕ → Bytes → List Bytes
  | 0, _ => []
  | n + 1, stream =>
    match recvLine cap [] stream with
    | none => []
    | some (taken, rest) => taken :: calls cap n rest

/-- What successive calls take until the stream is used up; each takes a byte. -/
def allCalls (cap : ℕ) (stream : Bytes) : List Bytes := calls cap stream.length stream

/-- The strings that successive calls return, one behind the other. -/
def received (cap : ℕ) (stream : Bytes) : Bytes := ((allCalls cap stream).map lineOf).flatten

/-- The stream without its newlines, and without each CR that stands before a newline. -/
def withoutEnds : Bytes → Bytes
  | [] => []
  | c :: stream => if c = 10 ∨ c = 13 ∧ stream.head? = some 10 then withoutEnds stream else c :: withoutEnds stream

/-- A call loses nothing but the end of a line. -/
def LosesEnd (taken : Bytes) : Prop := lineOf taken = taken ∨ lineOf taken ++ [10] = taken ∨ lineOf taken ++ [13, 10] = taken

/-- No part of `size` bytes that is cut out of the line has a CR one byte before its end. -/
def InnerSafe (size : ℕ) (line : Bytes) : Prop :=
  ∀ k, (k + 1) * size ≤ line.length → 2 ≤ size → (line)[(k + 1) * size - 2]? ≠ some 13

/-- The line has a CR at its end only when its newline is in the same part. -/
def LastSafe (size : ℕ) (line : Bytes) : Prop := ∀ k, (k + 1) * size = line.length → line.getLast? ≠ some 13

/-! ### One call -/

section
variable {cap : ℕ} {buf line more : Bytes}

theorem recvLine_shorter {stream taken rest : Bytes} (returns : recvLine cap buf stream = some (taken, rest)) :
    rest.length < stream.length := by
  induction stream generalizing buf with
  | nil => cases returns
  | cons c stream ih =>
    rw [recvLine] at returns
    split at returns
    · cases returns
      exact Nat.lt_succ_self _
    · exact Nat.lt_succ_of_lt (ih returns)

/-- The bytes of a line are taken as far as there is room. -/
theorem recvLine_room (clean : 10 ∉ line) (room : buf.length + line.length + 1 < cap) :
    recvLine cap buf (line ++ more) = recvLine cap (buf ++ line) more := by
  induction line generalizing buf with
  | nil => simp
  | cons c line ih =>
    rw [List.length_cons] at room
    have goesOn : ¬ lineEnds cap (buf ++ [c]) := by
      rw [lineEnds, List.getLast?_concat, List.length_append, List.length_singleton]
      rintro (newline | full)
      · rw [Option.some.inj newline] at clean
        exact clean (List.mem_cons_self ..)
      · omega
    rw [List.cons_append, recvLine, if_neg goesOn, ih (fun inside => clean (List.mem_cons_of_mem _ inside)), List.append_assoc,
      List.singleton_append]
    rw [List.length_append, List.length_singleton]
    omega

/-- A line with room for its newline is taken whole. -/
theorem recvLine_line (clean : 10 ∉ line) (room : line.length + 1 < cap) :
    recvLine cap [] (line ++ 10 :: more) = some (line ++ [10], more) := by
  rw [recvLine_room clean (by rw [List.length_nil]; omega), List.nil_append, recvLine, if_pos]
  exact .inl List.getLast?_concat

/-- Of a line without room for its newline as much is taken as there is room for. -/
theorem recvLine_part {size : ℕ} (some_ : 0 < size) (clean : 10 ∉ line) (long : size ≤ line.length) :
    recvLine (size + 1) [] (line ++ more) = some (line.take size, line.drop size ++ more) := by
  obtain ⟨k, rfl⟩ := Nat.exists_eq_succ_of_ne_zero (Nat.ne_of_gt some_)
  have inside : k < line.length := long
  have front : line.take k ++ ((line)[k] :: line.drop (k + 1) ++ more) = line ++ more := by
    rw [← List.append_assoc, List.cons_getElem_drop_succ, List.take_append_drop]
  have cleanFront : 10 ∉ line.take k := fun there => clean (List.mem_of_mem_take there)
  rw [← front, recvLine_room cleanFront (by rw [List.length_nil, List.length_take]; omega), List.nil_append, List.cons_append, recvLine,
    if_pos, List.take_append_getElem]
  exact .inr (by rw [List.length_append, List.length_take, List.length_singleton]; omega)

end

/-! ### All the calls -/

section
variable {cap : ℕ}

/-- More calls than bytes make no difference. -/
theorem calls_enough {stream : Bytes} {n m : ℕ} (enough : stream.length ≤ n) (enough' : stream.length ≤ m) :
    calls cap n stream = calls cap m stream := by
  induction n generalizing stream m with
  | zero =>
    rw [List.length_eq_zero_iff.mp (Nat.le_zero.mp enough)]
    cases m <;> rfl
  | succ n ih =>
    cases m with
    | zero =>
      rw [List.length_eq_zero_iff.mp (Nat.le_zero.mp enough')]
      rfl
    | succ m =>
      rw [calls, calls]
      cases returns : recvLine cap [] stream with
      | none => rfl
      | some out =>
        have shorter := recvLine_shorter returns
        exact congrArg _ (ih (by omega) (by omega))

@[simp] theorem allCalls_nil : allCalls cap [] = [] := rfl

theorem allCalls_cons {stream taken rest : Bytes} (returns : recvLine cap [] stream = some (taken, rest)) :
    allCalls cap stream = taken :: allCalls cap rest := by
  have shorter := recvLine_shorter returns
  rw [allCalls, calls_enough (Nat.le_refl _) (Nat.le_succ _), calls, returns]
  exact congrArg _ (calls_enough (Nat.le_of_lt shorter) (Nat.le_refl _))

end

/-! ### The string of one call -/

/-- A line without the CR at its end. -/
def withoutReturn (line : Bytes) : Bytes := if line.getLast? = some 13 then line.dropLast else line

section
variable {line taken : Bytes}

/-- A zero that is written into a text ends its string there. -/
theorem cString_set (plain : 0 ∉ taken) {j : ℕ} (inside : j < taken.length) : cString (taken.set j 0) = taken.take j := by
  have front : 0 ∉ taken.take j := fun there => plain (List.mem_of_mem_take there)
  rw [List.set_eq_take_append_cons_drop, if_pos inside, cString_zero, cString_self front]

theorem lineOf_part (plain : 0 ∉ taken) (clean : 10 ∉ taken) :
    lineOf taken = if 1 < taken.length ∧ taken[taken.length - 2]? = some 13 then taken.take (taken.length - 2) else taken := by
  have noNewline : taken[taken.length - 1]? ≠ some 10 := fun there => clean (List.mem_of_getElem? there)
  simp only [lineOf, if_neg noNewline]
  split
  case isTrue ends => exact cString_set plain (by omega)
  case isFalse => exact cString_self plain

/-- Of a whole line its end is lost. -/
theorem lineOf_line (plain : 0 ∉ line) : lineOf (line ++ [10]) = withoutReturn line := by
  have newline : (line ++ [10])[(line ++ [10]).length - 1]? = some 10 := by simp
  have cleared : (line ++ [10]).set ((line ++ [10]).length - 1) 0 = line ++ [0] := by simp
  simp only [lineOf, if_pos newline, cleared]
  rcases List.eq_nil_or_concat line with rfl | ⟨front, c, rfl⟩
  · rfl
  · rw [List.concat_eq_append] at plain ⊢
    have before : (front ++ [c] ++ [0])[(front ++ [c] ++ [10]).length - 2]? = some c := by simp
    simp only [before, withoutReturn, List.getLast?_concat, List.dropLast_concat, Option.some.injEq]
    by_cases ends : c = 13
    · have plainFront : 0 ∉ front := fun there => plain (List.mem_append_left _ there)
      have zeros : (front ++ [c] ++ [0]).set ((front ++ [c] ++ [10]).length - 2) 0 = front ++ 0 :: [0] := by simp
      rw [if_pos ⟨by simp, ends⟩, if_pos ends, zeros]
      exact (cString_zero front [0]).trans (cString_self plainFront)
    · rw [if_neg fun both => ends both.2, if_neg ends]
      exact (cString_zero (front ++ [c]) []).trans (cString_self plain)

theorem losesEnd_line (plain : 0 ∉ line) : LosesEnd (line ++ [10]) := by
  rw [LosesEnd, lineOf_line plain, withoutReturn]
  split
  case isTrue ends =>
    obtain ⟨front, rfl⟩ := List.getLast?_eq_some_iff.mp ends
    exact .inr (.inr (by rw [List.dropLast_concat, List.append_assoc]; rfl))
  case isFalse => exact .inr (.inl rfl)

/-- A part of a line must not lose anything, since it has no end. -/
theorem losesEnd_part (plain : 0 ∉ taken) (clean : 10 ∉ taken) :
    LosesEnd taken ↔ (2 ≤ taken.length → taken[taken.length - 2]? ≠ some 13) := by
  constructor
  · intro loses long there
    have kept : lineOf taken = taken.take (taken.length - 2) := by rw [lineOf_part plain clean, if_pos ⟨long, there⟩]
    rw [LosesEnd, kept] at loses
    rcases loses with whole | newline | both
    · have same := congrArg List.length whole
      rw [List.length_take] at same
      omega
    · exact clean (newline ▸ List.mem_append_right _ (List.mem_singleton.mpr rfl))
    · exact clean (both ▸ List.mem_append_right _ (by simp))
  · intro safe
    exact .inl (by rw [lineOf_part plain clean, if_neg fun both => safe both.1 both.2])

end

/-! ### The calls for one line -/

/-- The strings of the calls that take the given bytes, one behind the other. -/
def strings (parts : List Bytes) : Bytes := (parts.map lineOf).flatten

section
variable {size : ℕ} {line : Bytes}

theorem safe_short (short : line.length < size) : InnerSafe size line ∧ LastSafe size line := by
  have least (k : ℕ) : size ≤ (k + 1) * size := Nat.le_mul_of_pos_left size (Nat.succ_pos k)
  refine ⟨?_, ?_⟩
  · intro k inside
    have := least k
    omega
  · intro k whole
    have := least k
    omega

/-- The first part, and the parts of the rest. -/
theorem innerSafe_long (long : size ≤ line.length) :
    InnerSafe size line ↔ (2 ≤ size → (line)[size - 2]? ≠ some 13) ∧ InnerSafe size (line.drop size) := by
  have shift (k : ℕ) : (k + 1 + 1) * size = size + (k + 1) * size := by rw [Nat.succ_mul, Nat.add_comm]
  constructor
  · intro safe
    refine ⟨?_, ?_⟩
    · intro two
      have first := safe 0 (by omega) two
      rwa [Nat.zero_add, Nat.one_mul] at first
    · intro k inside two
      have least : size ≤ (k + 1) * size := Nat.le_mul_of_pos_left size (Nat.succ_pos k)
      rw [List.length_drop] at inside
      have later := safe (k + 1) (by rw [shift]; omega) two
      rwa [shift, Nat.add_sub_assoc (by omega), ← List.getElem?_drop] at later
  · rintro ⟨first, later⟩ k inside two
    cases k with
    | zero => rw [Nat.zero_add, Nat.one_mul]; exact first two
    | succ k =>
      have least : size ≤ (k + 1) * size := Nat.le_mul_of_pos_left size (Nat.succ_pos k)
      rw [shift] at inside ⊢
      rw [Nat.add_sub_assoc (by omega), ← List.getElem?_drop]
      exact later k (by rw [List.length_drop]; omega) two

theorem lastSafe_long (long : size < line.length) : LastSafe size line ↔ LastSafe size (line.drop size) := by
  have shift (k : ℕ) : (k + 1 + 1) * size = (k + 1) * size + size := Nat.succ_mul _ _
  have last : (line.drop size).getLast? = line.getLast? := by rw [List.getLast?_drop, if_neg (by omega)]
  constructor
  · intro safe k whole
    rw [List.length_drop] at whole
    rw [last]
    exact safe (k + 1) (by rw [shift]; omega)
  · intro safe k whole
    cases k with
    | zero => omega
    | succ k =>
      rw [shift] at whole
      rw [← last]
      exact safe k (by rw [List.length_drop]; omega)

theorem lastSafe_whole (whole : size = line.length) : LastSafe size line ↔ line.getLast? ≠ some 13 := by
  constructor
  · intro safe
    exact safe 0 (by omega)
  · intro safe k _
    exact safe

theorem length_withoutReturn (line : Bytes) : (withoutReturn line).length ≤ line.length := by
  rw [withoutReturn]
  split
  · rw [List.length_dropLast]
    omega
  · exact Nat.le_refl _

theorem withoutReturn_self : line = withoutReturn line ↔ line.getLast? ≠ some 13 := by
  rw [withoutReturn]
  split
  case isTrue ends =>
    obtain ⟨front, rfl⟩ := List.getLast?_eq_some_iff.mp ends
    simp
  case isFalse other => simpa using other

/-- The last byte of a line is the last byte of what is behind a part of it. -/
theorem withoutReturn_drop (long : size < line.length) :
    withoutReturn line = line.take size ++ withoutReturn (line.drop size) := by
  have last : (line.drop size).getLast? = line.getLast? := by rw [List.getLast?_drop, if_neg (by omega)]
  have some_ : line.drop size ≠ [] := by
    intro empty
    rw [List.drop_eq_nil_iff] at empty
    omega
  rw [withoutReturn, withoutReturn, last]
  split
  · rw [← List.dropLast_append_of_ne_nil some_, List.take_append_drop]
  · rw [List.take_append_drop]

/-- What the calls make of one line, whatever comes behind it. -/
structure LineCalls (size : ℕ) (line : Bytes) (parts : List Bytes) : Prop where
  calls : ∀ more, allCalls (size + 1) (line ++ 10 :: more) = parts ++ allCalls (size + 1) more
  loses : (∀ taken ∈ parts, LosesEnd taken) ↔ InnerSafe size line
  keeps : InnerSafe size line →
    (withoutReturn line).length ≤ (strings parts).length ∧ (strings parts = withoutReturn line ↔ LastSafe size line)
  fewer : line.getLast? ≠ some 13 →
    (strings parts).length ≤ line.length ∧ ((strings parts).length = line.length → InnerSafe size line)
  whole : parts.flatten = line ++ [10]

/-- A line that fits with its newline is taken at once, and its end is lost. -/
theorem lineCalls_short (plain : 0 ∉ line) (clean : 10 ∉ line) (short : line.length < size) :
    LineCalls size line [line ++ [10]] := by
  have kept : strings [line ++ [10]] = withoutReturn line := by simp [strings, lineOf_line plain]
  obtain ⟨inner, last⟩ := safe_short short
  refine ⟨fun more => allCalls_cons (recvLine_line clean (by omega)), ?_, ?_, ?_, ?_⟩
  · simp [losesEnd_line plain, inner]
  · intro _
    simp [kept, last]
  · intro _
    rw [kept]
    exact ⟨length_withoutReturn line, fun _ => inner⟩
  · rw [List.flatten_singleton]

/-- Of a longer line a part is taken first. -/
theorem lineCalls_long (some_ : 0 < size) (plain : 0 ∉ line) (clean : 10 ∉ line) (long : size ≤ line.length)
    {parts : List Bytes} (later : LineCalls size (line.drop size) parts) : LineCalls size line (line.take size :: parts) := by
  have plainFront : 0 ∉ line.take size := fun there => plain (List.mem_of_mem_take there)
  have cleanFront : 10 ∉ line.take size := fun there => clean (List.mem_of_mem_take there)
  have length : (line.take size).length = size := by rw [List.length_take, Nat.min_eq_left long]
  have front : LosesEnd (line.take size) ↔ (2 ≤ size → (line)[size - 2]? ≠ some 13) := by
    rw [losesEnd_part plainFront cleanFront, length]
    refine imp_congr_right fun two => ?_
    rw [List.getElem?_take_of_lt (by omega)]
  have string : lineOf (line.take size) = if 1 < size ∧ (line)[size - 2]? = some 13 then line.take (size - 2) else line.take size := by
    rw [lineOf_part plainFront cleanFront, length, List.take_take, Nat.min_eq_left (Nat.sub_le ..)]
    by_cases two : 1 < size
    · rw [List.getElem?_take_of_lt (by omega)]
    · rw [if_neg fun both => two both.1, if_neg fun both => two both.1]
  have kept : strings (line.take size :: parts) = lineOf (line.take size) ++ strings parts := by
    rw [strings, List.map_cons, List.flatten_cons, strings]
  refine ⟨?_, ?_, ?_, ?_, ?_⟩
  · intro more
    rw [allCalls_cons (recvLine_part some_ clean long), later.calls, List.cons_append]
  · rw [List.forall_mem_cons, front, later.loses, innerSafe_long long]
  · intro inner
    obtain ⟨safe, innerLater⟩ := (innerSafe_long long).mp inner
    obtain ⟨least, exact_⟩ := later.keeps innerLater
    rw [kept, string, if_neg fun both => safe both.1 both.2]
    rcases Nat.eq_or_lt_of_le long with whole_ | behind
    · -- Nothing of the line is left for the call that takes its newline.
      have left : line.drop size = [] := List.drop_eq_nil_iff.mpr (Nat.le_of_eq whole_.symm)
      have none : strings parts = [] := by
        rw [left] at exact_
        exact exact_.mpr fun k _ => by simp
      rw [none, List.append_nil, List.take_of_length_le (Nat.le_of_eq whole_.symm), lastSafe_whole whole_]
      exact ⟨length_withoutReturn line, withoutReturn_self⟩
    · rw [withoutReturn_drop behind, List.length_append, List.length_append, List.append_cancel_left_eq, lastSafe_long behind]
      exact ⟨by omega, exact_⟩
  · intro noReturn
    have noReturnLater : (line.drop size).getLast? ≠ some 13 := by
      rw [List.getLast?_drop]
      split
      · simp
      · exact noReturn
    obtain ⟨most, safeLater⟩ := later.fewer noReturnLater
    rw [List.length_drop] at most safeLater
    rw [kept, List.length_append, string, innerSafe_long long]
    split
    case isTrue bad =>
      rw [List.length_take]
      exact ⟨by omega, fun same => by omega⟩
    case isFalse good =>
      rw [length]
      exact ⟨by omega, fun same => ⟨fun two there => good ⟨two, there⟩, safeLater (by omega)⟩⟩
  · rw [List.flatten_cons, later.whole, ← List.append_assoc, List.take_append_drop]

theorem exists_lineCalls (some_ : 0 < size) (plain : 0 ∉ line) (clean : 10 ∉ line) : ∃ parts, LineCalls size line parts := by
  induction length : line.length using Nat.strongRecOn generalizing line with
  | ind n ih =>
    rcases Nat.lt_or_ge line.length size with short | long
    · exact ⟨_, lineCalls_short plain clean short⟩
    · obtain ⟨parts, later⟩ := ih (line.drop size).length (by rw [List.length_drop]; omega)
        (fun there => plain (List.mem_of_mem_drop there)) (fun there => clean (List.mem_of_mem_drop there)) rfl
      exact ⟨_, lineCalls_long some_ plain clean long later⟩

end

/-! ### The whole stream -/

theorem withoutEnds_line {line : Bytes} (clean : 10 ∉ line) (more : Bytes) :
    withoutEnds (line ++ 10 :: more) = withoutReturn line ++ withoutEnds more := by
  induction line with
  | nil => simp [withoutEnds, withoutReturn]
  | cons c line ih =>
    rw [List.mem_cons, not_or] at clean
    have other : c ≠ 10 := Ne.symm clean.1
    rw [List.cons_append, withoutEnds]
    cases line with
    | nil =>
      by_cases ends : c = 13
      · simp [ends, withoutEnds, withoutReturn]
      · simp [ends, other, withoutEnds, withoutReturn]
    | cons d line =>
      have next : ¬ (d = 10) := fun same => clean.2 (same ▸ List.mem_cons_self ..)
      have goesOn : ¬ (c = 10 ∨ c = 13 ∧ (d :: line ++ 10 :: more).head? = some 10) := by simp [other, next]
      rw [if_neg goesOn, ih clean.2, withoutReturn, withoutReturn, List.getLast?_cons_cons, List.dropLast_cons_cons]
      split <;> rfl

/-- Of two texts that are at least as long as they should be, none is longer when they are
    right together. -/
theorem append_eq_of_le {first second first' second' : Bytes} (least : first'.length ≤ first.length)
    (least' : second'.length ≤ second.length) : first ++ second = first' ++ second' ↔ first = first' ∧ second = second' := by
  constructor
  · intro same
    have total := congrArg List.length same
    rw [List.length_append, List.length_append] at total
    exact List.append_inj same (by omega)
  · rintro ⟨rfl, rfl⟩
    rfl

/-- What the calls make of lines, from what they make of each. -/
structure StreamCalls (size : ℕ) (lines : List Bytes) (stream : Bytes) : Prop where
  loses : (∀ taken ∈ allCalls (size + 1) stream, LosesEnd taken) ↔ ∀ line ∈ lines, InnerSafe size line
  keeps : (∀ line ∈ lines, InnerSafe size line) →
    (withoutEnds stream).length ≤ (received (size + 1) stream).length ∧
      (received (size + 1) stream = withoutEnds stream ↔ ∀ line ∈ lines, LastSafe size line)
  fewer : (∀ line ∈ lines, line.getLast? ≠ some 13) →
    (received (size + 1) stream).length ≤ (withoutEnds stream).length ∧
      ((received (size + 1) stream).length = (withoutEnds stream).length → ∀ line ∈ lines, InnerSafe size line)
  whole : (allCalls (size + 1) stream).flatten = stream

theorem streamCalls {size : ℕ} (some_ : 0 < size) {lines : List Bytes} (plain : ∀ line ∈ lines, 0 ∉ line)
    (clean : ∀ line ∈ lines, 10 ∉ line) : StreamCalls size lines (unlines 10 lines) := by
  induction lines with
  | nil => exact ⟨by simp, fun _ => by simp [received, withoutEnds], fun _ => by simp [received, withoutEnds], rfl⟩
  | cons line lines ih =>
    obtain ⟨plainLine, plainLater⟩ := List.forall_mem_cons.mp plain
    obtain ⟨cleanLine, cleanLater⟩ := List.forall_mem_cons.mp clean
    obtain ⟨parts, first⟩ := exists_lineCalls some_ plainLine cleanLine
    have later := ih plainLater cleanLater
    have both : received (size + 1) (line ++ 10 :: unlines 10 lines) = strings parts ++ received (size + 1) (unlines 10 lines) := by
      rw [received, first.calls, List.map_append, List.flatten_append, strings, received]
    rw [unlines_cons]
    refine ⟨?_, ?_, ?_, ?_⟩
    · rw [first.calls, List.forall_mem_append, first.loses, later.loses, List.forall_mem_cons]
    · intro safe
      obtain ⟨safeLine, safeLater⟩ := List.forall_mem_cons.mp safe
      obtain ⟨least, exact_⟩ := first.keeps safeLine
      obtain ⟨leastLater, exactLater⟩ := later.keeps safeLater
      rw [both, withoutEnds_line cleanLine, append_eq_of_le least leastLater, exact_, exactLater, List.forall_mem_cons,
        List.length_append, List.length_append]
      exact ⟨by omega, Iff.rfl⟩
    · intro noReturn
      obtain ⟨noReturnLine, noReturnLater⟩ := List.forall_mem_cons.mp noReturn
      obtain ⟨most, safe⟩ := first.fewer noReturnLine
      obtain ⟨mostLater, safeLater⟩ := later.fewer noReturnLater
      rw [both, withoutEnds_line cleanLine, ← withoutReturn_self.mpr noReturnLine, List.length_append, List.length_append,
        List.forall_mem_cons]
      exact ⟨by omega, fun same => ⟨safe (by omega), safeLater (by omega)⟩⟩
    · rw [first.calls, List.flatten_append, first.whole, later.whole, List.append_assoc, List.singleton_append]

/-- A stream that ends with a newline consists of lines. -/
theorem unlines_of_ends {stream : Bytes} (ends : stream.getLast? = some 10) : unlines 10 (linesOf 10 stream) = stream := by
  obtain ⟨front, rfl⟩ := List.getLast?_eq_some_iff.mp ends
  have whole := unlines_linesOf 10 (front ++ [10])
  rwa [(linesOf_newline 10 front).2, List.append_nil] at whole

theorem streamCalls_linesOf {size : ℕ} {stream : Bytes} (some_ : 0 < size) (plain : 0 ∉ stream)
    (ends : stream.getLast? = some 10) : StreamCalls size (linesOf 10 stream) stream := by
  have plainLines : ∀ line ∈ linesOf 10 stream, 0 ∉ line := by
    intro line inside there
    rw [← unlines_of_ends ends] at plain
    exact plain (List.mem_flatMap.mpr ⟨line, inside, List.mem_append_left _ there⟩)
  have calls := streamCalls some_ plainLines (linesOf_clean 10 stream).1
  rwa [unlines_of_ends ends] at calls

/-- The calls use up a stream that ends with a newline. -/
theorem allCalls_flatten {cap : ℕ} (two : 2 ≤ cap) {stream : Bytes} (plain : 0 ∉ stream) (ends : stream.getLast? = some 10) :
    (allCalls cap stream).flatten = stream := by
  obtain ⟨size, rfl⟩ : ∃ size, cap = size + 1 := ⟨cap - 1, by omega⟩
  exact (streamCalls_linesOf (Nat.lt_of_succ_lt_succ two) plain ends).whole

/-- With no CR in the stream, every capacity is as good as any other, and with a CR some
    capacity is wrong: 2 when a line ends with it, and otherwise the one whose first part
    ends one byte behind it. -/
theorem received_all_iff {stream : Bytes} (plain : 0 ∉ stream) (ends : stream.getLast? = some 10) :
    (∀ cap, 2 ≤ cap → received cap stream = withoutEnds stream) ↔ 13 ∉ stream := by
  have lines : 13 ∈ stream ↔ ∃ line ∈ linesOf 10 stream, 13 ∈ line := by
    conv_lhs => rw [← unlines_of_ends ends]
    simp [unlines]
  constructor
  · intro right there
    obtain ⟨line, inside, there⟩ := lines.mp there
    have noReturn : ∀ line ∈ linesOf 10 stream, line.getLast? ≠ some 13 := by
      intro line inside last
      have calls := streamCalls_linesOf Nat.one_pos plain ends
      have safe := (calls.keeps fun _ _ _ _ two => absurd two (by decide)).2.mp (right 2 (Nat.le_refl _)) line inside
      have some_ : line.length ≠ 0 := by
        intro none
        rw [List.length_eq_zero_iff.mp none] at last
        cases last
      exact safe (line.length - 1) (by omega) last
    obtain ⟨front, behind, rfl⟩ := List.append_of_mem there
    have more : behind ≠ [] := fun none => noReturn _ inside (by rw [none, List.getLast?_concat])
    have longer := List.length_pos_iff.mpr more
    have calls := streamCalls_linesOf (Nat.succ_pos (front.length + 1)) plain ends
    have same := congrArg List.length (right (front.length + 1 + 1 + 1) (by omega))
    refine (calls.fewer noReturn).2 same _ inside 0 ?_ (by omega) ?_
    · rw [List.length_append, List.length_cons]
      omega
    · rw [Nat.zero_add, Nat.one_mul, Nat.succ_sub_succ, Nat.succ_sub_succ, Nat.sub_zero, List.getElem?_append_right (Nat.le_refl _),
        Nat.sub_self, List.getElem?_cons_zero]
  · intro none cap two
    obtain ⟨size, rfl⟩ : ∃ size, cap = size + 1 := ⟨cap - 1, by omega⟩
    have calls := streamCalls_linesOf (Nat.lt_of_succ_lt_succ two) plain ends
    have noReturn : ∀ line ∈ linesOf 10 stream, 13 ∉ line := fun line inside there => none (lines.mpr ⟨line, inside, there⟩)
    refine (calls.keeps fun line inside k _ _ there => ?_).2.mpr fun line inside k _ last => ?_
    · exact noReturn line inside (List.mem_of_getElem? there)
    · exact noReturn line inside (List.mem_of_getLast? last)

/-- For every capacity and every stream: the strings of the calls are the stream without the
    ends of its lines, and no call loses another byte, exactly when no part that is cut out of
    a line has a CR one byte before its end, and no line whose newline does not fit into the
    part has a CR at its end. A stream is so for all capacities when it has no CR. -/
theorem recvLines_iff {stream : Bytes} (plain : 0 ∉ stream) (ends : stream.getLast? = some 10) :
    (∀ cap, 2 ≤ cap →
      (received cap stream = withoutEnds stream ∧ (∀ taken ∈ allCalls cap stream, LosesEnd taken) ↔
        ∀ line ∈ linesOf 10 stream, InnerSafe (cap - 1) line ∧ LastSafe (cap - 1) line)) ∧
    ((∀ cap, 2 ≤ cap → received cap stream = withoutEnds stream) ↔ 13 ∉ stream) := by
  refine ⟨?_, received_all_iff plain ends⟩
  intro cap two
  obtain ⟨size, rfl⟩ : ∃ size, cap = size + 1 := ⟨cap - 1, by omega⟩
  have calls := streamCalls_linesOf (Nat.lt_of_succ_lt_succ two) plain ends
  rw [Nat.add_sub_cancel, calls.loses]
  constructor
  · rintro ⟨right, inner⟩ line inside
    exact ⟨inner line inside, (calls.keeps inner).2.mp right line inside⟩
  · intro safe
    have inner := fun line inside => (safe line inside).1
    exact ⟨(calls.keeps inner).2.mpr fun line inside => (safe line inside).2, inner⟩

/-- A line that ends with CR and newline, and that fits. -/
theorem recvLines_iff_sample :
    let stream := ascii ['a', 'b', '\r', '\n']
    received MAX_LINE stream = withoutEnds stream ∧ ∀ taken ∈ allCalls MAX_LINE stream, LosesEnd taken := by
  intro stream
  refine ((recvLines_iff (by decide) rfl).1 MAX_LINE (by decide)).mpr fun line inside => ?_
  have lines : linesOf 10 stream = [ascii ['a', 'b', '\r']] := by decide
  rw [lines, List.mem_singleton] at inside
  subst inside
  exact safe_short (by decide)

/-- A CR in a line of nine bytes, and the capacity of the server. -/
theorem received_loses : ¬ ∀ cap stream, 2 ≤ cap → 0 ∉ stream → stream.getLast? = some 10 → received cap stream = withoutEnds stream := by
  intro always
  have wrong := always MAX_LINE (ascii ['a', 'b', 'c', 'd', 'e', 'f', 'g', '\r', 'h', '\n']) (by decide) (by decide) rfl
  revert wrong
  decide

end OsyProg.RecvLine
