import OsyProg.CStrings
import Mathlib.Data.Int.GCD
import Mathlib.Data.List.GetD
import Mathlib.Data.List.Induction
import Mathlib.Data.Nat.Prime.Basic

/-!
The session of `cv_skuska/02_simultan`. `client_handle` reads a message into the global
`msg`, which `read` neither clears nor terminates, `count_number` scans it into the globals
`first`, `operand` and `second`, and the whole of `res_msg` is sent. The semaphores of the
three clients decide only when a round takes place. `reply_iff` says which replies do not
depend on the earlier messages, and `reply_line` that a line with an expression is answered
by its value.
-/
namespace OsyProg.Calculator
open OsyProg.Bytes OsyProg.CStrings

/-- The range of an `int`. -/
def IsInt (value : ℤ) : Prop := -2147483648 ≤ value ∧ value < 2147483648

instance (value : ℤ) : Decidable (IsInt value) := inferInstanceAs (Decidable (_ ∧ _))

/-- What the language leaves open: the `int` that is stored for a number of the text that
    an `int` does not hold, and the `int` that an operation gives when it overflows. -/
structure Machine where
  store : ℤ → ℤ
  overflow : UInt8 → ℤ → ℤ → ℤ
  store_int : ∀ value, IsInt (store value)
  overflow_int : ∀ operand first second, IsInt (overflow operand first second)

/-- The value of an expression, for the operators that there are. -/
def exact (operand : UInt8) (first second : ℤ) : Option ℤ :=
  if operand = 43 then some (first + second)
  else if operand = 45 then some (first - second)
  else if operand = 42 then some (first * second)
  else none

/-- The `int` that `%d` stores. -/
def Machine.toInt (M : Machine) (value : ℤ) : ℤ := if IsInt value then value else M.store value

/-- The operations on `int`. Without an operator the result is the old one. -/
def Machine.result (M : Machine) (operand : UInt8) (first second res : ℤ) : ℤ :=
  match exact operand first second with
  | none => res
  | some value => if IsInt value then value else M.overflow operand first second

/-- The globals of the process. -/
structure Globals where
  msg : Bytes
  res : ℤ
  first : ℤ
  second : ℤ
  operand : UInt8
  resMsg : Bytes
  deriving DecidableEq

/-- The globals of a process that has just started. -/
def start : Globals where
  msg := List.replicate 128 0
  res := 0
  first := 0
  second := 0
  operand := 0
  resMsg := List.replicate 128 0

/-- `sscanf( msg, "%d%c%d", &first, &operand, &second )`, which stops at the first item
    that is not there. -/
def sscanf (M : Machine) (g : Globals) : Globals :=
  match scanInt (cString g.msg) with
  | none => g
  | some (a, []) => { g with first := M.toInt a }
  | some (a, c :: rest) =>
    match scanInt rest with
    | none => { g with first := M.toInt a, operand := c }
    | some (b, _) => { g with first := M.toInt a, operand := c, second := M.toInt b }

/-- The text of a reply. -/
def resText (res : ℤ) : Bytes := ascii "Vysledok: ".toList ++ (decimalInt res ++ [10])

/-- `sprintf( buf, .. )` of the given text: what is behind its zero stays as it was. -/
def sprintf (text buf : Bytes) : Bytes := text ++ 0 :: buf.drop (text.length + 1)

def countNumber (M : Machine) (g : Globals) : Globals :=
  let g := sscanf M g
  let res := M.result g.operand g.first g.second g.res
  { g with res, resMsg := sprintf (resText res) g.resMsg }

/-- The bytes that `read` takes of a message. -/
def received (m : Bytes) : Bytes := m.take 128

/-- `read( scl, msg, sizeof( msg ) )` -/
def readMsg (g : Globals) (m : Bytes) : Globals := { g with msg := received m ++ g.msg.drop (received m).length }

/-- A round of `client_handle`. To scan a buffer that holds no string has no result. -/
def clientHandle (M : Machine) (g : Globals) (m : Bytes) : Option Globals :=
  let g := readMsg g m
  if 0 ∈ g.msg then some (countNumber M g) else none

/-- The buffer that is sent for a message after earlier ones. -/
def reply (M : Machine) (earlier : List Bytes) (m : Bytes) : Option Bytes :=
  ((earlier ++ [m]).foldlM (clientHandle M) start).map Globals.resMsg

/-! ### One message -/

section
variable {M : Machine} {g : Globals} {m rest tail : Bytes} {a b : ℤ} {c : UInt8}

theorem sscanf_none (read : scanInt (cString g.msg) = none) : sscanf M g = g := by
  rw [sscanf, read]

theorem sscanf_first (read : scanInt (cString g.msg) = some (a, [])) : sscanf M g = { g with first := M.toInt a } := by
  rw [sscanf, read]

theorem sscanf_operand (read : scanInt (cString g.msg) = some (a, c :: rest)) (nothing : scanInt rest = none) :
    sscanf M g = { g with first := M.toInt a, operand := c } := by
  simp only [sscanf, read, nothing]

theorem sscanf_second (read : scanInt (cString g.msg) = some (a, c :: rest)) (more : scanInt rest = some (b, tail)) :
    sscanf M g = { g with first := M.toInt a, operand := c, second := M.toInt b } := by
  simp only [sscanf, read, more]

theorem toInt_int (int : IsInt a) : M.toInt a = a := if_pos int

theorem result_int {r : ℤ} (value : exact c a b = some r) (int : IsInt r) (res : ℤ) : M.result c a b res = r := by
  simp only [Machine.result, value, if_pos int]

/-- What a round does, given the globals after the scan. -/
theorem clientHandle_eq {buf : Bytes} {scanned : Globals} {res : ℤ} (whole : received m ++ g.msg.drop (received m).length = buf)
    (zero : 0 ∈ buf) (scan : sscanf M { g with msg := buf } = scanned)
    (result : M.result scanned.operand scanned.first scanned.second scanned.res = res) :
    clientHandle M g m = some { scanned with res, resMsg := sprintf (resText res) scanned.resMsg } := by
  subst whole scan result
  rw [clientHandle, if_pos (show 0 ∈ (readMsg g m).msg from zero)]
  rfl

end

/-! ### The reply -/

theorem zero_resText (r : ℤ) : 0 ∉ resText r := by
  have label : 0 ∉ ascii "Vysledok: ".toList := by decide
  rw [resText, List.mem_append, List.mem_append, not_or, not_or]
  exact ⟨label, zero_decimalInt r, by decide⟩

theorem length_resText (r : ℤ) : (resText r).length = 11 + (decimalInt r).length := by
  have label : (ascii "Vysledok: ".toList).length = 10 := rfl
  simp only [resText, List.length_append, label, List.length_singleton]
  omega

theorem length_decimalInt {r : ℤ} (int : IsInt r) : (decimalInt r).length ≤ 11 := by
  obtain ⟨low, high⟩ := int
  have digits : (decimal r.natAbs).length ≤ 10 := by
    rw [decimal, ascii, List.length_map]
    exact (Nat.length_toDigits_le_iff (by decide) (by decide)).mpr (by omega)
  rw [decimalInt]
  split
  · rw [List.length_cons]
    omega
  · omega

theorem resText_injective {r s : ℤ} (intR : IsInt r) (intS : IsInt s) (same : resText r = resText s) : r = s := by
  have digits : decimalInt r = decimalInt s := List.append_cancel_right (List.append_cancel_left same)
  obtain ⟨lowR, highR⟩ := intR
  obtain ⟨lowS, highS⟩ := intS
  have readR : strtol (decimalInt r) = r := strtol_decimalInt (by omega) (by omega)
  have readS : strtol (decimalInt s) = s := strtol_decimalInt (by omega) (by omega)
  rw [← readR, digits, readS]

theorem cString_sprintf (r : ℤ) (buf : Bytes) : cString (sprintf (resText r) buf) = resText r := by
  refine takeWhile_span (fun c inside => ?_) fun c first => ?_
  · have other : c ≠ 0 := fun zero => zero_resText r (zero ▸ inside)
    simpa using other
  · rw [← Option.some.inj first]
    rfl

theorem length_sprintf {text buf : Bytes} (fits : text.length < buf.length) : (sprintf text buf).length = buf.length := by
  rw [sprintf, List.length_append, List.length_cons, List.length_drop]
  omega

theorem getD_sprintf_length (text buf : Bytes) : (sprintf text buf).getD text.length 0 = 0 := by
  rw [List.getD_eq_getElem?_getD, sprintf, List.getElem?_append_right (Nat.le_refl _), Nat.sub_self]
  rfl

/-- Behind its zero a reply has what the buffer had. -/
theorem getD_sprintf {text buf : Bytes} {i : ℕ} (behind : text.length < i) : (sprintf text buf).getD i 0 = buf.getD i 0 := by
  obtain ⟨k, rfl⟩ := Nat.exists_eq_add_of_lt behind
  have position : text.length + k + 1 - text.length = k + 1 := by omega
  rw [List.getD_eq_getElem?_getD, sprintf, List.getElem?_append_right (by omega), position, List.getElem?_cons_succ, List.getElem?_drop,
    List.getD_eq_getElem?_getD]
  congr 2
  omega

/-! ### Earlier messages -/

/-- A sequence of messages that are shorter than the buffer. -/
def Short (earlier : List Bytes) : Prop := ∀ m ∈ earlier, m.length < 128

instance (earlier : List Bytes) : Decidable (Short earlier) := inferInstanceAs (Decidable (∀ m ∈ earlier, _))

theorem short_nil : Short [] := fun _ inside => absurd inside List.not_mem_nil

/-- A string in `msg` ends in its last byte at the latest, and the buffer of the replies
    is empty behind the longest one. -/
structure Ready (g : Globals) : Prop where
  msg : ∃ text, text.length = 127 ∧ g.msg = text ++ [0]
  length : g.resMsg.length = 128
  zeros : ∀ i, 22 ≤ i → g.resMsg.getD i 0 = 0
  res : IsInt g.res

theorem ready_start : Ready start where
  msg := ⟨List.replicate 127 0, List.length_replicate, rfl⟩
  length := List.length_replicate
  zeros := by
    intro i _
    rw [start, List.getD_eq_getElem?_getD, List.getElem?_replicate]
    split <;> rfl
  res := by decide

theorem sscanf_frame (M : Machine) (g : Globals) :
    (sscanf M g).msg = g.msg ∧ (sscanf M g).res = g.res ∧ (sscanf M g).resMsg = g.resMsg := by
  unfold sscanf
  split
  · exact ⟨rfl, rfl, rfl⟩
  · exact ⟨rfl, rfl, rfl⟩
  · split <;> exact ⟨rfl, rfl, rfl⟩

theorem result_isInt (M : Machine) (c : UInt8) (a b : ℤ) {res : ℤ} (int : IsInt res) : IsInt (M.result c a b res) := by
  unfold Machine.result
  split
  · exact int
  · split
    · assumption
    · exact M.overflow_int ..

/-- The message holds a zero, or leaves room for one. -/
def Terminated (m : Bytes) : Prop := 0 ∈ received m ∨ (received m).length < 128

/-- The number of the reply. -/
def answer (M : Machine) (g : Globals) (m : Bytes) : ℤ :=
  let g := sscanf M (readMsg g m)
  M.result g.operand g.first g.second g.res

section
variable {g : Globals} {m : Bytes}

theorem Ready.answer_isInt (ready : Ready g) (M : Machine) (m : Bytes) : IsInt (answer M g m) := by
  refine result_isInt _ _ _ _ ?_
  rw [(sscanf_frame M (readMsg g m)).2.1]
  exact ready.res

theorem Ready.terminated (ready : Ready g) (ends : Terminated m) : 0 ∈ (readMsg g m).msg := by
  obtain ⟨text, length, msg⟩ := ready.msg
  rcases ends with zero | short
  · exact List.mem_append_left _ zero
  · rw [readMsg, msg, List.drop_append_of_le_length (by omega)]
    simp

theorem Ready.clientHandle (ready : Ready g) (M : Machine) (ends : Terminated m) :
    ∃ g', clientHandle M g m = some g' ∧ g'.msg = (readMsg g m).msg ∧ g'.res = answer M g m ∧
      g'.resMsg = sprintf (resText (answer M g m)) g.resMsg := by
  have frame := sscanf_frame M (readMsg g m)
  refine ⟨_, if_pos (ready.terminated ends), frame.1, rfl, ?_⟩
  rw [countNumber, frame.2.2]
  rfl

theorem received_short (short : m.length < 128) : received m = m := List.take_of_length_le (by omega)

/-- A round with a short message. -/
theorem Ready.step (ready : Ready g) (M : Machine) (short : m.length < 128) :
    ∃ g', Calculator.clientHandle M g m = some g' ∧ Ready g' ∧ g'.msg = m ++ g.msg.drop m.length ∧
      g'.resMsg = sprintf (resText (answer M g m)) g.resMsg := by
  have all := received_short short
  obtain ⟨g', handled, msg, res, resMsg⟩ := ready.clientHandle M (m := m) (.inr (by rw [all]; exact short))
  rw [readMsg, all] at msg
  have int := ready.answer_isInt M m
  have fits : (resText (answer M g m)).length ≤ 22 := by
    have digits := length_decimalInt int
    rw [length_resText]
    omega
  refine ⟨g', handled, ⟨?_, ?_, ?_, ?_⟩, msg, resMsg⟩
  · obtain ⟨text, length, whole⟩ := ready.msg
    refine ⟨m ++ text.drop m.length, ?_, ?_⟩
    · rw [List.length_append, List.length_drop]
      omega
    · rw [msg, whole, List.drop_append_of_le_length (by omega), List.append_assoc]
  · rw [resMsg, length_sprintf (by rw [ready.length]; omega), ready.length]
  · intro i behind
    rw [resMsg]
    rcases Nat.lt_or_ge (resText (answer M g m)).length i with behind_text | inside
    · rw [getD_sprintf behind_text]
      exact ready.zeros i behind
    · obtain rfl : i = (resText (answer M g m)).length := by omega
      exact getD_sprintf_length _ _
  · rw [res]
    exact int

/-- The globals after earlier messages. -/
structure Session (M : Machine) (earlier : List Bytes) (g : Globals) : Prop where
  short : Short earlier
  run : earlier.foldlM (Calculator.clientHandle M) start = some g
  ready : Ready g

theorem session_start (M : Machine) : Session M [] start := ⟨short_nil, rfl, ready_start⟩

theorem Session.next {M : Machine} {earlier : List Bytes} (session : Session M earlier g) (short : m.length < 128) :
    ∃ g', Session M (earlier ++ [m]) g' ∧ g'.msg = m ++ g.msg.drop m.length ∧ g'.resMsg = sprintf (resText (answer M g m)) g.resMsg := by
  obtain ⟨g', handled, ready, msg, resMsg⟩ := session.ready.step M short
  refine ⟨g', ⟨?_, ?_, ready⟩, msg, resMsg⟩
  · intro m' inside
    rcases List.mem_append.mp inside with before | last
    · exact session.short m' before
    · rwa [List.mem_singleton.mp last]
  · rw [List.foldlM_append, session.run, Option.bind_eq_bind, Option.bind_some, List.foldlM_cons, handled]
    rfl

/-- After messages that are shorter than the buffer the session goes on. -/
theorem exists_session (M : Machine) {earlier : List Bytes} (short : Short earlier) : ∃ g, Session M earlier g := by
  induction earlier using List.reverseRecOn with
  | nil => exact ⟨start, session_start M⟩
  | append_singleton earlier m ih =>
    obtain ⟨g, session⟩ := ih fun m inside => short m (List.mem_append_left _ inside)
    obtain ⟨g', next, -⟩ := session.next (short m (List.mem_append_right _ (List.mem_singleton_self m)))
    exact ⟨g', next⟩

end

/-! ### Messages that do not depend on the earlier ones -/

/-- The string ends in the message, or the only byte behind the message is the last one. -/
def Ends (m : Bytes) : Prop := (cString (received m)).length < (received m).length ∨ (received m).length = 127

/-- `+`, `-` and `*` -/
def IsOperator (c : UInt8) : Prop := c = 43 ∨ c = 45 ∨ c = 42

/-- A number, a byte and a second number, which ends in the message. -/
def Whole (m : Bytes) (a : ℤ) (c : UInt8) (b : ℤ) : Prop :=
  ∃ rest tail, scanInt (cString (received m)) = some (a, c :: rest) ∧ scanInt rest = some (b, tail) ∧ (tail ≠ [] ∨ Ends m)

/-- A product with zero. -/
def ZeroTimes (m : Bytes) : Prop := ∃ rest, scanInt (cString (received m)) = some (0, 42 :: rest)

section
variable {M : Machine} {g : Globals} {m : Bytes} {a b : ℤ} {c : UInt8}

theorem Ready.string (ready : Ready g) (m : Bytes) :
    ∃ more, cString (readMsg g m).msg = cString (received m) ++ more ∧ (Ends m → more = []) := by
  by_cases zero : 0 ∈ received m
  · refine ⟨[], ?_, fun _ => rfl⟩
    rw [List.append_nil]
    exact cString_append zero _
  · have plain := cString_self zero
    refine ⟨cString (g.msg.drop (received m).length), ?_, ?_⟩
    · rw [plain]
      exact cString_plain zero _
    · rintro (inside | full)
      · rw [plain] at inside
        exact absurd inside (Nat.lt_irrefl _)
      · obtain ⟨text, length, msg⟩ := ready.msg
        rw [msg, full, ← length, List.drop_left]
        rfl

theorem Ready.sscanf_whole (ready : Ready g) (whole : Whole m a c b) (M : Machine) :
    sscanf M (readMsg g m) = { readMsg g m with first := M.toInt a, operand := c, second := M.toInt b } := by
  obtain ⟨rest, tail, first, second, ends⟩ := whole
  obtain ⟨more, string, nothing⟩ := ready.string m
  have read : scanInt (cString (received m) ++ more) = _ := scanInt_append first (.inl (List.cons_ne_nil c rest))
  rw [← string] at read
  exact sscanf_second read (scanInt_append second (ends.imp_right nothing))

theorem Ready.answer_whole (ready : Ready g) (whole : Whole m a c b) (M : Machine) :
    answer M g m = M.result c (M.toInt a) (M.toInt b) g.res := by
  rw [answer, ready.sscanf_whole whole]
  rfl

theorem Ready.answer_zero (ready : Ready g) (zero : ZeroTimes m) (M : Machine) : answer M g m = 0 := by
  obtain ⟨rest, first⟩ := zero
  obtain ⟨more, string, -⟩ := ready.string m
  have read : scanInt (cString (received m) ++ more) = _ := scanInt_append first (.inl (List.cons_ne_nil 42 rest))
  rw [← string, List.cons_append] at read
  have none : M.toInt 0 = 0 := toInt_int (by decide)
  have product : ∀ second res, M.result 42 0 second res = 0 := fun second =>
    result_int (congrArg some (Int.zero_mul second)) (by decide)
  cases number : scanInt (rest ++ more) with
  | none =>
    rw [answer, sscanf_operand read number, none]
    exact product _ _
  | some pair =>
    obtain ⟨b, tail⟩ := pair
    rw [answer, sscanf_second read number, none]
    exact product _ _

theorem result_operator (operator : IsOperator c) (M : Machine) (first second res res' : ℤ) :
    M.result c first second res = M.result c first second res' := by
  rcases operator with rfl | rfl | rfl <;> rfl

theorem result_other (other : ¬ IsOperator c) (M : Machine) (first second res : ℤ) : M.result c first second res = res := by
  simp only [IsOperator, not_or] at other
  have nothing : exact c first second = none := by
    rw [exact, if_neg other.1, if_neg other.2.1, if_neg other.2.2]
  rw [Machine.result, nothing]

end

theorem Session.reply {M : Machine} {earlier : List Bytes} {g : Globals} (session : Session M earlier g) {m : Bytes} (ends : Terminated m) :
    reply M earlier m = some (sprintf (resText (answer M g m)) g.resMsg) := by
  obtain ⟨g', handled, -, -, resMsg⟩ := session.ready.clientHandle M ends
  rw [Calculator.reply, List.foldlM_append, session.run, Option.bind_eq_bind, Option.bind_some, List.foldlM_cons, handled, ← resMsg]
  rfl

/-! ### A machine on which the earlier messages are seen -/

/-- The operations wrap around, and a number that does not fit keeps its parity. -/
def wrapping : Machine where
  store value := if 2 ∣ value then 2 else 1
  overflow c a b := ((exact c a b).getD 0).bmod (2 ^ 32)
  store_int := by
    intro value
    split <;> constructor <;> decide
  overflow_int := by
    intro c a b
    have low := Int.le_bmod (x := (exact c a b).getD 0) (m := 2 ^ 32) (by decide)
    have high := Int.bmod_lt (x := (exact c a b).getD 0) (m := 2 ^ 32) (by decide)
    constructor <;> omega

section
variable {a b b' r : ℤ} {c : UInt8}

theorem wrapping_toInt (value : ℤ) : IsInt (wrapping.toInt value) ∧ (2 ∣ wrapping.toInt value ↔ 2 ∣ value) ∧ (wrapping.toInt value = 0 → value = 0) := by
  by_cases int : IsInt value
  · rw [toInt_int int]
    exact ⟨int, Iff.rfl, id⟩
  · have stored : wrapping.toInt value = if 2 ∣ value then 2 else 1 := if_neg int
    rw [stored]
    split
    next even => exact ⟨by decide, by omega, by omega⟩
    next odd => exact ⟨by decide, by omega, by omega⟩

theorem wrapping_result (value : exact c a b = some r) (res : ℤ) : wrapping.result c a b res = r.bmod (2 ^ 32) := by
  by_cases int : IsInt r
  · obtain ⟨low, high⟩ := id int
    rw [result_int value int, Int.bmod_eq_of_le] <;> omega
  · simp only [Machine.result, value, if_neg int]
    show ((exact c a b).getD 0).bmod (2 ^ 32) = _
    rw [value, Option.getD_some]

/-- The results differ when the second operands differ by an odd number. -/
theorem wrapping_differs (operator : IsOperator c) (factor : c = 42 → a ≠ 0) (int : IsInt a) (odd : ¬ 2 ∣ b - b') (res res' : ℤ) :
    wrapping.result c a b res ≠ wrapping.result c a b' res' := by
  intro same
  have wrapped : ∀ {r r' : ℤ}, exact c a b = some r → exact c a b' = some r' → (4294967296 : ℤ) ∣ r - r' := by
    intro r r' value value'
    rw [wrapping_result value, wrapping_result value'] at same
    have rests : r % 4294967296 = r' % 4294967296 := by
      have rest := Int.bmod_emod (x := r) (m := 2 ^ 32)
      rw [same, Int.bmod_emod] at rest
      omega
    omega
  rcases operator with rfl | rfl | rfl
  · have sums := wrapped rfl rfl
    omega
  · have differences := wrapped rfl rfl
    omega
  · have products := wrapped rfl rfl
    rw [← Int.mul_sub] at products
    have coprime : Int.gcd 4294967296 (b - b') = 1 := by
      have two : Nat.Coprime (2 ^ 32) (b - b').natAbs := by
        refine Nat.Coprime.pow_left 32 ((Nat.Prime.coprime_iff_not_dvd Nat.prime_two).mpr ?_)
        omega
      exact two
    have multiple := Int.dvd_of_dvd_mul_left_of_gcd_one products coprime
    obtain ⟨low, high⟩ := int
    exact factor rfl (by omega)

end

/-- Two messages that leave `msg` empty and the given operands behind. -/
def leaving (b : UInt8) : List Bytes := [[49, 43, 48 + b], [0, 0, 0]]

/-- The globals after them. -/
def emptied (b : ℤ) (resMsg : Bytes) : Globals where
  msg := List.replicate 128 0
  res := 1 + b
  first := 1
  second := b
  operand := 43
  resMsg := resMsg

theorem foldlM_leaving (M : Machine) {b : UInt8} (digit : b = 1 ∨ b = 2) :
    ∃ resMsg, (leaving b).foldlM (clientHandle M) start = some (emptied b.toNat resMsg) := by
  have small : b.toNat ≤ 2 := by rcases digit with rfl | rfl <;> decide
  have one : M.toInt 1 = 1 := toInt_int (by constructor <;> omega)
  have same : M.toInt b.toNat = b.toNat := toInt_int (by constructor <;> omega)
  have sum : ∀ res, M.result 43 1 b.toNat res = 1 + b.toNat := result_int rfl (by constructor <;> omega)
  have text : scanInt [49, 43, 48 + b] = some (1, [43, 48 + b]) ∧ scanInt [48 + b] = some ((b.toNat : ℤ), []) ∧
      cString [49, 43, 48 + b] = [49, 43, 48 + b] := by
    rcases digit with rfl | rfl <;> decide
  obtain ⟨first, second, whole⟩ := text
  have string : cString ([49, 43, 48 + b] ++ List.replicate 125 0) = [49, 43, 48 + b] := (cString_zeros _ _).trans whole
  have expression : ∃ resMsg, clientHandle M start [49, 43, 48 + b] =
      some { emptied b.toNat resMsg with msg := [49, 43, 48 + b] ++ List.replicate 125 0 } := by
    have read : received [49, 43, 48 + b] ++ start.msg.drop 3 = [49, 43, 48 + b] ++ List.replicate 125 0 :=
      congrArg ([49, 43, 48 + b] ++ ·) List.drop_replicate
    have scan := @sscanf_second M { start with msg := [49, 43, 48 + b] ++ List.replicate 125 0 } _ _ _ _ _
      ((congrArg scanInt string).trans first) second
    rw [one, same] at scan
    exact ⟨_, clientHandle_eq read (List.mem_append_right _ (by simp)) scan (sum _)⟩
  obtain ⟨resMsg, expression⟩ := expression
  have read : received [0, 0, 0] ++ ([49, 43, 48 + b] ++ List.replicate 125 0).drop 3 = List.replicate 128 (0 : UInt8) := rfl
  have nothing : scanInt (cString (emptied b.toNat resMsg).msg) = none := by
    have empty : cString (emptied b.toNat resMsg).msg = [] := cString_zeros [] 128
    rw [empty]
    rfl
  have zero : 0 ∈ List.replicate 128 (0 : UInt8) := by simp
  have idle : sscanf M (emptied b.toNat resMsg) = emptied b.toNat resMsg := sscanf_none nothing
  have clear : clientHandle M { emptied b.toNat resMsg with msg := [49, 43, 48 + b] ++ List.replicate 125 0 } [0, 0, 0] = some _ :=
    clientHandle_eq read zero idle (sum _)
  refine ⟨sprintf (resText (1 + b.toNat)) resMsg, ?_⟩
  rw [leaving, List.foldlM_cons, expression, Option.bind_eq_bind, Option.bind_some, List.foldlM_cons, clear]
  rfl

theorem short_leaving (b : UInt8) : Short (leaving b) := by
  intro m inside
  simp only [leaving, List.mem_cons, List.not_mem_nil, or_false] at inside
  rcases inside with rfl | rfl
  · show 3 < 128
    decide
  · decide

section
variable {m rest : Bytes} {a b : ℤ} {c : UInt8}

theorem exists_emptied (M : Machine) {b : UInt8} (digit : b = 1 ∨ b = 2) :
    ∃ resMsg, Session M (leaving b) (emptied b.toNat resMsg) := by
  obtain ⟨resMsg, run⟩ := foldlM_leaving M digit
  obtain ⟨g, session⟩ := exists_session M (short_leaving b)
  obtain rfl : g = emptied b.toNat resMsg := Option.some.inj (session.run.symm.trans run)
  exact ⟨resMsg, session⟩

/-- A buffer that held nothing holds the string of the message. -/
theorem string_empty {g : Globals} (empty : g.msg = List.replicate 128 0) (m : Bytes) :
    cString (readMsg g m).msg = cString (received m) := by
  rw [readMsg, empty, List.drop_replicate]
  exact cString_zeros _ _

theorem answer_emptied_none (M : Machine) (number : scanInt (cString (received m)) = none) (b : ℤ) (resMsg : Bytes) :
    answer M (emptied b resMsg) m = M.result 43 1 b (1 + b) := by
  rw [answer, sscanf_none ((congrArg scanInt (string_empty rfl m)).trans number)]
  rfl

theorem answer_emptied_first (M : Machine) (number : scanInt (cString (received m)) = some (a, [])) (b : ℤ) (resMsg : Bytes) :
    answer M (emptied b resMsg) m = M.result 43 (M.toInt a) b (1 + b) := by
  rw [answer, sscanf_first ((congrArg scanInt (string_empty rfl m)).trans number)]
  rfl

theorem answer_emptied_operand (M : Machine) (number : scanInt (cString (received m)) = some (a, c :: rest)) (nothing : scanInt rest = none)
    (b : ℤ) (resMsg : Bytes) : answer M (emptied b resMsg) m = M.result c (M.toInt a) b (1 + b) := by
  rw [answer, sscanf_operand ((congrArg scanInt (string_empty rfl m)).trans number) nothing]
  rfl

theorem answer_emptied_second (M : Machine) {y : ℤ} {tail : Bytes} (number : scanInt (cString (received m)) = some (a, c :: rest))
    (second : scanInt rest = some (y, tail)) (b : ℤ) (resMsg : Bytes) :
    answer M (emptied b resMsg) m = M.result c (M.toInt a) (M.toInt y) (1 + b) := by
  rw [answer, sscanf_second ((congrArg scanInt (string_empty rfl m)).trans number) second]
  rfl

/-- Without a second number behind an operator, an old operand or an old result is in the
    reply. -/
theorem answer_emptied (zero : ¬ ZeroTimes m)
    (none : ∀ a c rest, scanInt (cString (received m)) = some (a, c :: rest) → IsOperator c → scanInt rest = none) (r₁ r₂ : Bytes) :
    answer wrapping (emptied 1 r₁) m ≠ answer wrapping (emptied 2 r₂) m := by
  have odd : ¬ (2 : ℤ) ∣ 1 - 2 := by decide
  have plus : (43 : UInt8) = 42 → ∀ a : ℤ, a ≠ 0 := fun times => absurd times (by decide)
  cases number : scanInt (cString (received m)) with
  | none =>
    rw [answer_emptied_none _ number, answer_emptied_none _ number]
    exact wrapping_differs (.inl rfl) (plus · 1) (by decide) odd _ _
  | some pair =>
    obtain ⟨a, rest⟩ := pair
    obtain ⟨int, -, nonzero⟩ := wrapping_toInt a
    cases rest with
    | nil =>
      rw [answer_emptied_first _ number, answer_emptied_first _ number]
      exact wrapping_differs (.inl rfl) (plus · _) int odd _ _
    | cons c rest =>
      by_cases operator : IsOperator c
      · have nothing := none a c rest number operator
        rw [answer_emptied_operand _ number nothing, answer_emptied_operand _ number nothing]
        refine wrapping_differs operator (fun times product => zero ?_) int odd _ _
        rw [ZeroTimes, number, times, nonzero product]
        exact ⟨rest, rfl⟩
      · cases second : scanInt rest with
        | none =>
          rw [answer_emptied_operand _ number second, answer_emptied_operand _ number second, result_other operator, result_other operator]
          decide
        | some pair =>
          rw [answer_emptied_second _ number second, answer_emptied_second _ number second, result_other operator, result_other operator]
          decide

/-- A message can leave a digit behind the place where the next one ends. -/
theorem exists_digit (M : Machine) (d : UInt8) {n : ℕ} (room : n < 127) :
    ∃ earlier g k, Session M earlier g ∧ g.msg.drop n = d :: List.replicate k 0 := by
  have short : (List.replicate n 0 ++ [d]).length < 128 := by
    rw [List.length_append, List.length_replicate, List.length_singleton]
    omega
  obtain ⟨g, session, msg, -⟩ := (session_start M).next short
  refine ⟨_, g, 127 - n, session, ?_⟩
  have behind : start.msg.drop (n + 1) = List.replicate (127 - n) 0 := by
    rw [start, List.drop_replicate]
    congr 1
    omega
  have skipped : (List.replicate n (0 : UInt8)).length = n := List.length_replicate
  rw [msg, List.length_append, List.length_singleton, skipped, behind, List.append_assoc]
  exact List.drop_left' skipped

/-- A digit behind the second number makes it another one. -/
theorem answer_digit (ends : Terminated m) (continues : ¬ Ends m) (operator : IsOperator c) (zero : ¬ ZeroTimes m)
    (number : scanInt (cString (received m)) = some (a, c :: rest)) (second : scanInt rest = some (b, [])) :
    ∃ earlier g, Session wrapping earlier g ∧ answer wrapping start m ≠ answer wrapping g m := by
  simp only [Ends, not_or, Nat.not_lt] at continues
  obtain ⟨longest, other⟩ := continues
  have whole : cString (received m) = received m := (List.takeWhile_prefix _).eq_of_length_le longest
  have plain : 0 ∉ received m := by
    intro inside
    rw [← whole] at inside
    simpa using List.mem_takeWhile_imp inside
  have room : (received m).length < 127 := by
    have short := ends.resolve_left plain
    omega
  obtain ⟨d, digit, parity⟩ : ∃ d : UInt8, isDigit d = true ∧ ¬ (2 ∣ b ↔ 2 ∣ d.toNat - 48) := by
    by_cases even : 2 ∣ b
    · exact ⟨49, rfl, fun same => absurd (same.mp even) (by decide)⟩
    · exact ⟨48, rfl, fun same => even (same.mpr (by decide))⟩
  obtain ⟨earlier, g, k, session, behind⟩ := exists_digit wrapping d room
  obtain ⟨longer, second', parity'⟩ := scanInt_digit second digit
  have string : cString (readMsg g m).msg = received m ++ [d] := by
    have nonzero : cString [d] = [d] := by
      rcases eq_or_ne d 0 with rfl | other
      · cases digit
      · simp [cString, other]
    rw [readMsg, behind, cString_plain plain, ← nonzero, ← cString_zeros [d] k]
    rfl
  have number' : scanInt (cString (received m) ++ [d]) = _ := scanInt_append number (.inl (List.cons_ne_nil c rest))
  rw [whole, ← string] at number'
  obtain ⟨int, -, nonzero⟩ := wrapping_toInt a
  have first := sscanf_second (M := wrapping) ((congrArg scanInt (string_empty (g := start) rfl m)).trans number) second
  have later := sscanf_second (M := wrapping) number' second'
  refine ⟨earlier, g, session, ?_⟩
  rw [answer, first, answer, later]
  refine wrapping_differs operator (fun times product => zero ?_) int (fun even => parity ?_) _ _
  · rw [ZeroTimes, number, times, nonzero product]
    exact ⟨rest, rfl⟩
  · have difference : 2 ∣ wrapping.toInt b - wrapping.toInt longer := even
    rw [← parity', ← (wrapping_toInt b).2.1, ← (wrapping_toInt longer).2.1]
    omega

end

/-! ### Which replies do not depend on the earlier messages -/

/-- What is seen of the reply is the same after any two sequences of earlier messages. -/
def Same (view : Bytes → Bytes) (m : Bytes) : Prop :=
  ∀ M earlier earlier', Short earlier → Short earlier' →
    ∃ seen, (reply M earlier m).map view = some seen ∧ (reply M earlier' m).map view = some seen

theorem Same.terminated {view : Bytes → Bytes} {m : Bytes} (same : Same view m) : Terminated m := by
  by_contra unterminated
  simp only [Terminated, not_or, Nat.not_lt] at unterminated
  obtain ⟨plain, long⟩ := unterminated
  have full : start.msg.drop (received m).length = [] := List.drop_eq_nil_of_le (by rw [start, List.length_replicate]; exact long)
  have none : clientHandle wrapping start m = none := by
    refine if_neg ?_
    rw [readMsg, full, List.append_nil]
    exact plain
  obtain ⟨seen, first, -⟩ := same wrapping [] [] short_nil short_nil
  rw [reply, List.nil_append, List.foldlM_cons, none] at first
  cases first

/-- Different numbers are seen in the text of the reply. -/
theorem Same.answer_eq {m : Bytes} (same : Same cString m) {M : Machine} {earlier earlier' : List Bytes} {g g' : Globals}
    (session : Session M earlier g) (session' : Session M earlier' g') : answer M g m = answer M g' m := by
  obtain ⟨seen, first, second⟩ := same M earlier earlier' session.short session'.short
  rw [session.reply same.terminated, Option.map_some, cString_sprintf] at first
  rw [session'.reply same.terminated, Option.map_some, cString_sprintf] at second
  exact resText_injective (session.ready.answer_isInt M m) (session'.ready.answer_isInt M m)
    (Option.some.inj (first.trans second.symm))

theorem sameText_iff (m : Bytes) :
    Same cString m ↔ Terminated m ∧ ((∃ a c b, IsOperator c ∧ Whole m a c b) ∨ ZeroTimes m) := by
  constructor
  · intro same
    refine ⟨same.terminated, ?_⟩
    by_contra neither
    simp only [not_or, not_exists, not_and] at neither
    obtain ⟨part, zero⟩ := neither
    obtain ⟨r₁, session₁⟩ := exists_emptied wrapping (.inl rfl)
    obtain ⟨r₂, session₂⟩ := exists_emptied wrapping (.inr rfl)
    refine answer_emptied zero (fun a c rest number operator => ?_) r₁ r₂ (same.answer_eq session₁ session₂)
    by_contra second
    obtain ⟨pair, second⟩ := Option.ne_none_iff_exists'.mp second
    obtain ⟨b, tail⟩ := pair
    have ending : ¬ (tail ≠ [] ∨ Ends m) := fun ends => part a c b operator ⟨rest, tail, number, second, ends⟩
    rw [not_or, not_not] at ending
    obtain ⟨rfl, continues⟩ := ending
    obtain ⟨earlier, g, session, differ⟩ := answer_digit same.terminated continues operator zero number second
    exact differ (same.answer_eq (session_start wrapping) session)
  · rintro ⟨ends, right⟩ M earlier earlier' short short'
    obtain ⟨g, session⟩ := exists_session M short
    obtain ⟨g', session'⟩ := exists_session M short'
    have answers : answer M g m = answer M g' m := by
      rcases right with ⟨a, c, b, operator, whole⟩ | zero
      · rw [session.ready.answer_whole whole, session'.ready.answer_whole whole]
        exact result_operator operator M _ _ _ _
      · rw [session.ready.answer_zero zero, session'.ready.answer_zero zero]
    refine ⟨resText (answer M g m), ?_, ?_⟩
    · rw [session.reply ends, Option.map_some, cString_sprintf]
    · rw [session'.reply ends, Option.map_some, cString_sprintf, answers]

/-! ### The whole buffer -/

/-- Behind the longest reply the buffer holds zeros. -/
theorem Ready.drop {g : Globals} (ready : Ready g) {n : ℕ} (behind : 22 ≤ n) : g.resMsg.drop n = List.replicate (128 - n) 0 := by
  refine List.eq_replicate_iff.mpr ⟨by rw [List.length_drop, ready.length], fun c inside => ?_⟩
  obtain ⟨i, bound, rfl⟩ := List.getElem_of_mem inside
  have zero := ready.zeros (n + i) (by omega)
  rw [List.length_drop] at bound
  rw [List.getElem_drop]
  rwa [List.getD_eq_getElem?_getD, List.getElem?_eq_getElem (by omega), Option.getD_some] at zero

/-- A message with the longest reply. -/
theorem exists_longest (M : Machine) :
    ∃ earlier g, Session M earlier g ∧ g.resMsg.getD 21 0 = 10 := by
  have short : (ascii "-2147483648+0\n".toList).length < 128 := by decide
  have whole : Whole (ascii "-2147483648+0\n".toList) (-2147483648) 43 0 :=
    ⟨[48, 10], [10], by decide, by decide, .inl (List.cons_ne_nil 10 [])⟩
  obtain ⟨g, session, -, resMsg⟩ := (session_start M).next short
  have least : IsInt (-2147483648) := by decide
  have none : IsInt 0 := by decide
  have value : answer M start (ascii "-2147483648+0\n".toList) = -2147483648 := by
    rw [ready_start.answer_whole whole, toInt_int least, toInt_int none]
    exact result_int rfl least _
  have text : (resText (-2147483648)).length = 22 ∧ (resText (-2147483648)).getD 21 0 = 10 := by decide +kernel
  refine ⟨_, g, session, ?_⟩
  rw [resMsg, value, sprintf, List.getD_append _ _ _ _ (by rw [text.1]; decide)]
  exact text.2

/-- The end of the longest reply stays behind a shorter one. -/
theorem Same.long {m : Bytes} (same : Same id m) (M : Machine) : 10 ≤ (decimalInt (answer M start m)).length := by
  by_contra short
  obtain ⟨earlier, g, session, last⟩ := exists_longest M
  obtain ⟨seen, first, second⟩ := same M [] earlier short_nil session.short
  rw [(session_start M).reply same.terminated, Option.map_some] at first
  rw [session.reply same.terminated, Option.map_some] at second
  have buffers : sprintf (resText (answer M start m)) start.resMsg = sprintf (resText (answer M g m)) g.resMsg :=
    Option.some.inj (first.trans second.symm)
  have text := congrArg cString buffers
  rw [cString_sprintf, cString_sprintf] at text
  have byte := congrArg (List.getD · 21 0) buffers
  have before : (resText (answer M start m)).length < 21 := by
    rw [length_resText]
    omega
  rw [← text] at byte
  simp only [getD_sprintf before, last] at byte
  exact absurd byte (by decide)

/-- The machine that stores the given number for one that does not fit, and zero on
    overflow. -/
def storing (K : ℤ) (int : IsInt K) : Machine where
  store _ := K
  overflow _ _ _ := 0
  store_int _ := int
  overflow_int _ _ _ := by decide

/-- When a number does not fit, some stored number makes the result zero or minus one. -/
theorem exists_stored {c : UInt8} (operator : IsOperator c) {a b : ℤ} (outside : ¬ (IsInt a ∧ IsInt b)) :
    ∃ K, ∃ int : IsInt K, ∃ v, exact c ((storing K int).toInt a) ((storing K int).toInt b) = some v ∧ (v = 0 ∨ v = -1) := by
  have opposite : ∀ {n : ℤ}, IsInt n → ∃ K, IsInt K ∧ (K + n = 0 ∨ K + n = -1) := by
    intro n int
    obtain ⟨low, high⟩ := int
    by_cases least : n = -2147483648
    · exact ⟨2147483647, by decide, .inr (by omega)⟩
    · exact ⟨-n, by constructor <;> omega, .inl (by omega)⟩
  have none : IsInt 0 := by decide
  have stored : ∀ K int {n : ℤ}, ¬ IsInt n → (storing K int).toInt n = K := fun _ _ _ other => if_neg other
  by_cases left : IsInt a
  · have right : ¬ IsInt b := fun right => outside ⟨left, right⟩
    rcases operator with rfl | rfl | rfl
    · obtain ⟨K, int, sum⟩ := opposite left
      refine ⟨K, int, a + K, ?_, by rwa [Int.add_comm]⟩
      rw [toInt_int left, stored K int right]
      rfl
    · refine ⟨a, left, a - a, ?_, .inl (Int.sub_self a)⟩
      rw [toInt_int left, stored a left right]
      rfl
    · refine ⟨0, none, a * 0, ?_, .inl (Int.mul_zero a)⟩
      rw [toInt_int left, stored 0 none right]
      rfl
  · by_cases right : IsInt b
    · rcases operator with rfl | rfl | rfl
      · obtain ⟨K, int, sum⟩ := opposite right
        refine ⟨K, int, K + b, ?_, sum⟩
        rw [toInt_int right, stored K int left]
        rfl
      · refine ⟨b, right, b - b, ?_, .inl (Int.sub_self b)⟩
        rw [toInt_int right, stored b right left]
        rfl
      · refine ⟨0, none, 0 * b, ?_, .inl (Int.zero_mul b)⟩
        rw [toInt_int right, stored 0 none left]
        rfl
    · refine ⟨0, none, ?_⟩
      rw [stored 0 none left, stored 0 none right]
      rcases operator with rfl | rfl | rfl <;> exact ⟨0, rfl, .inl rfl⟩

theorem short_small {v : ℤ} (small : v = 0 ∨ v = -1) : ¬ 10 ≤ (decimalInt v).length := by
  rcases small with rfl | rfl <;> decide

theorem exact_operator {c : UInt8} (operator : IsOperator c) (a b : ℤ) : ∃ r, exact c a b = some r := by
  rcases operator with rfl | rfl | rfl
  · exact ⟨a + b, rfl⟩
  · exact ⟨a - b, rfl⟩
  · exact ⟨a * b, rfl⟩

/-- The same bytes are the same text. -/
theorem Same.text {m : Bytes} (same : Same id m) : Same cString m := by
  intro M earlier earlier' short short'
  obtain ⟨seen, first, second⟩ := same M earlier earlier' short short'
  rw [Option.map_id, id_eq] at first second
  refine ⟨cString seen, ?_, ?_⟩
  · rw [first]
    rfl
  · rw [second]
    rfl

/-- A number that does not fit makes the reply short on some machine. -/
theorem Same.fits {m : Bytes} (same : Same id m) {a b r : ℤ} {c : UInt8} (operator : IsOperator c) (whole : Whole m a c b)
    (value : exact c a b = some r) : IsInt a ∧ IsInt b ∧ IsInt r ∧ 10 ≤ (decimalInt r).length := by
  have none : IsInt 0 := by decide
  have least : IsInt (-1) := by decide
  have inside : IsInt a ∧ IsInt b := by
    by_contra outside
    obtain ⟨K, int, v, stored, small⟩ := exists_stored operator outside
    have long := same.long (storing K int)
    have fits : IsInt v := by rcases small with rfl | rfl <;> assumption
    rw [ready_start.answer_whole whole, result_int stored fits] at long
    exact short_small small long
  have long := same.long (storing 0 none)
  rw [ready_start.answer_whole whole, toInt_int inside.1, toInt_int inside.2] at long
  by_cases fits : IsInt r
  · rw [result_int value fits] at long
    exact ⟨inside.1, inside.2, fits, long⟩
  · rw [Machine.result, value] at long
    simp only [if_neg fits] at long
    exact absurd long (short_small (.inl rfl))

theorem sameBytes_iff (m : Bytes) :
    Same id m ↔ Terminated m ∧ ∃ a c b r, Whole m a c b ∧ exact c a b = some r ∧ IsInt a ∧ IsInt b ∧ IsInt r ∧ 10 ≤ (decimalInt r).length := by
  constructor
  · intro same
    obtain ⟨ends, ⟨a, c, b, operator, whole⟩ | zero⟩ := (sameText_iff m).mp same.text
    · obtain ⟨r, value⟩ := exact_operator operator a b
      exact ⟨ends, a, c, b, r, whole, value, same.fits operator whole value⟩
    · have long := same.long (storing 0 (by decide))
      rw [ready_start.answer_zero zero] at long
      exact absurd long (short_small (.inl rfl))
  · rintro ⟨ends, a, c, b, r, whole, value, left, right, fits, long⟩ M earlier earlier' short short'
    obtain ⟨g, session⟩ := exists_session M short
    obtain ⟨g', session'⟩ := exists_session M short'
    have answers : ∀ {g}, Ready g → answer M g m = r := by
      intro g ready
      rw [ready.answer_whole whole, toInt_int left, toInt_int right, result_int value fits]
    have behind : 22 ≤ (resText r).length + 1 := by
      rw [length_resText]
      omega
    refine ⟨sprintf (resText r) g.resMsg, ?_, ?_⟩
    · rw [session.reply ends, answers session.ready]
      rfl
    · rw [session'.reply ends, answers session'.ready, sprintf, session'.ready.drop behind, sprintf, session.ready.drop behind]
      rfl

/-- An expression that ends in the message, with numbers that an `int` holds. -/
theorem reply_value {m : Bytes} {a b r : ℤ} {c : UInt8} (ends : Terminated m) (whole : Whole m a c b) (value : exact c a b = some r)
    (left : IsInt a) (right : IsInt b) (fits : IsInt r) (M : Machine) {earlier : List Bytes} (short : Short earlier) :
    (reply M earlier m).map cString = some (resText r) := by
  obtain ⟨g, session⟩ := exists_session M short
  rw [session.reply ends, session.ready.answer_whole whole, toInt_int left, toInt_int right, result_int value fits, Option.map_some,
    cString_sprintf]

/-- A line with an expression is answered by its value. -/
theorem reply_line {a b r : ℤ} {c : UInt8} (operator : IsOperator c) (value : exact c a b = some r) (left : IsInt a) (right : IsInt b)
    (fits : IsInt r) (M : Machine) {earlier : List Bytes} (short : Short earlier) :
    (reply M earlier (decimalInt a ++ c :: (decimalInt b ++ [10]))).map cString = some (resText r) := by
  have plain : isDigit c = false := by rcases operator with rfl | rfl | rfl <;> rfl
  have room : (decimalInt a ++ c :: (decimalInt b ++ [10])).length < 128 := by
    have first := length_decimalInt left
    have second := length_decimalInt right
    simp only [List.length_append, List.length_cons, List.length_nil]
    omega
  have all := received_short room
  have string : cString (decimalInt a ++ c :: (decimalInt b ++ [10])) = decimalInt a ++ c :: (decimalInt b ++ [10]) := by
    have other : 0 ≠ c := by rcases operator with rfl | rfl | rfl <;> decide
    refine cString_self fun zero => ?_
    rcases List.mem_append.mp zero with number | zero
    · exact zero_decimalInt a number
    · rcases List.mem_cons.mp zero with same | zero
      · exact other same
      · rcases List.mem_append.mp zero with number | newline
        · exact zero_decimalInt b number
        · cases List.mem_singleton.mp newline
  refine reply_value (c := c) (.inr (by rw [all]; exact room)) ⟨decimalInt b ++ [10], [10], ?_, ?_, .inl (List.cons_ne_nil 10 [])⟩ value left right
    fits M short
  · rw [all, string]
    refine scanInt_decimalInt a fun d first => ?_
    rw [← Option.some.inj first]
    exact plain
  · refine scanInt_decimalInt b fun d first => ?_
    rw [← Option.some.inj first]
    rfl

/-- For which messages the reply is the same after any earlier messages: the text of it,
    and all the bytes that are sent. -/
theorem reply_iff (m : Bytes) :
    (Same cString m ↔ Terminated m ∧ ((∃ a c b, IsOperator c ∧ Whole m a c b) ∨ ZeroTimes m)) ∧
      (Same id m ↔
        Terminated m ∧ ∃ a c b r, Whole m a c b ∧ exact c a b = some r ∧ IsInt a ∧ IsInt b ∧ IsInt r ∧ 10 ≤ (decimalInt r).length) ∧
      ∀ a c b r, Terminated m ∧ Whole m a c b ∧ exact c a b = some r ∧ IsInt a ∧ IsInt b ∧ IsInt r →
        ∀ M earlier, Short earlier → (reply M earlier m).map cString = some (resText r) := by
  refine ⟨sameText_iff m, sameBytes_iff m, ?_⟩
  rintro a c b r ⟨ends, whole, value, left, right, fits⟩ M earlier short
  exact reply_value ends whole value left right fits M short

/-- A message without a newline after a longer one, and one with a newline after a longer
    result. -/
theorem reply_stale :
    (reply wrapping [] (ascii "1+1".toList)).map cString = some (ascii "Vysledok: 2\n".toList) ∧
      (reply wrapping [ascii "1+234\n".toList] (ascii "1+1".toList)).map cString = some (ascii "Vysledok: 135\n".toList) ∧
      reply wrapping [] (ascii "1+1\n".toList) ≠ reply wrapping [ascii "100+100\n".toList] (ascii "1+1\n".toList) ∧
      ¬ Same cString (ascii "1+1".toList) ∧ ¬ Same id (ascii "1+1\n".toList) := by
  have later : (reply wrapping [] (ascii "1+1".toList)).map cString ≠ (reply wrapping [ascii "1+234\n".toList] (ascii "1+1".toList)).map cString := by
    decide +kernel
  have bytes : reply wrapping [] (ascii "1+1\n".toList) ≠ reply wrapping [ascii "100+100\n".toList] (ascii "1+1\n".toList) := by
    decide +kernel
  have short : Short [ascii "1+234\n".toList] := by decide
  have short' : Short [ascii "100+100\n".toList] := by decide
  refine ⟨by decide +kernel, by decide +kernel, bytes, ?_, ?_⟩
  · intro same
    obtain ⟨seen, first, second⟩ := same wrapping _ _ short_nil short
    exact later (first.trans second.symm)
  · intro same
    obtain ⟨seen, first, second⟩ := same wrapping _ _ short_nil short'
    rw [Option.map_id, id_eq] at first second
    exact bytes (first.trans second.symm)

end OsyProg.Calculator
