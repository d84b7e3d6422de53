import OsyProg.CStrings
import Mathlib.Data.Bool.AllAny

/-!
The request line of the two servers `03_http` and `http`. A request `GET /c*a HTTP/1.1`
names a command and an argument of it. `client_handle` of `http` takes all behind the
first `/` and cuts it at the blank, `parse_string` of `03_http` cuts it at once: the
results are the same for every buffer (`parsers_alike`). `03_http` executes a command
with the argument it was given, and without one with the text that is printed for a null
pointer, because the argument is printed into `second_arg` in any case (`executes_iff`).
-/
namespace OsyProg.HttpRequests
open OsyProg.Bytes OsyProg.CStrings

/-! ### The parsers -/

/-- `parse_string` of `03_http`: the strings for `first_arg` and `second_arg`. -/
def parseString (buf : Bytes) : Option Bytes × Option Bytes :=
  let s : Tokens := { buf, saved := 0 }
  let (line, s) := s.strtok (some 0) [10]
  let (_, s) := s.strtok line [47]
  let (cmd, s) := s.strtok none [32]
  let (first, s) := s.strtok cmd [42]
  let firstArg := first.map s.text
  let (second, s) := s.strtok none []
  (firstArg, second.map s.text)

/-- `client_handle` of `http`: the strings for `firstcmd` and `secondcmd`. -/
def clientHandle (buf : Bytes) : Option Bytes × Option Bytes :=
  let s : Tokens := { buf, saved := 0 }
  let (firstLine, s) := s.strtok (some 0) [10]
  let (_, s) := s.strtok firstLine [47]
  let (secondString, s) := s.strtok none []
  let (secondString, s) := s.strtok secondString [32]
  let (first, s) := s.strtok secondString [42]
  let firstcmd := first.map s.text
  let (second, s) := s.strtok none []
  (firstcmd, second.map s.text)

/-- Both servers find the same in a buffer. -/
theorem parsers_alike (buf : Bytes) : parseString buf = clientHandle buf := by
  simp only [parseString, clientHandle, Tokens.strtok_rest]

/-! ### 03_http -/

/-- `sprintf` of a string into an array of 128 bytes, with what is printed for a null
    pointer, unless the program crashes there. -/
def sprintf128 (null : Option Bytes) (s : Option Bytes) : Option Bytes :=
  (s.or null).filter fun text => text.length < 128

/-- What `execlp` is called with. -/
structure Exec where
  file : Bytes
  argv : List Bytes
  deriving DecidableEq

/-- `client_handle` of `03_http` with the request in `buf`. -/
def clientHandle03 (null : Option Bytes) (buf : Bytes) : Option Exec := do
  let (first, second) := parseString buf
  let firstArg ← sprintf128 null first
  let secondArg ← sprintf128 null second
  return { file := firstArg, argv := [firstArg, secondArg] }

/-! ### Requests -/

/-- A request for the target `t`, with what follows in the buffer. -/
def request (t tail : Bytes) : Bytes :=
  ascii ['G', 'E', 'T', ' ', '/'] ++ (t ++ (ascii [' ', 'H', 'T', 'T', 'P', '/', '1', '.', '1'] ++ tail))

/-- The first line of a request, up to the version. -/
def requestLine (t : Bytes) : Bytes :=
  ascii ['G', 'E', 'T', ' ', '/'] ++ (t ++ ascii [' ', 'H', 'T', 'T', 'P', '/', '1', '.', '1'])

theorem request_eq (t tail : Bytes) : request t tail = requestLine t ++ tail := by
  simp [request, requestLine]

theorem requestLine_plain {t : Bytes} (plain : ∀ c ∈ t, c ≠ 0 ∧ c ≠ 10 ∧ c ≠ 32) : ∀ c ∈ requestLine t, c ≠ 0 ∧ c ≠ 10 := by
  have fixed : ∀ c ∈ ascii ['G', 'E', 'T', ' ', '/'] ++ ascii [' ', 'H', 'T', 'T', 'P', '/', '1', '.', '1'], c ≠ 0 ∧ c ≠ 10 :=
    List.all_iff_forall_prop.mp (by decide)
  intro c inside
  rcases List.mem_append.mp inside with get | behind
  · exact fixed c (List.mem_append_left _ get)
  · rcases List.mem_append.mp behind with inTarget | version
    · exact ⟨(plain c inTarget).1, (plain c inTarget).2.1⟩
    · exact fixed c (List.mem_append_right _ version)

/-- `GET ` with the zero that ends it. -/
def getToken : Bytes := ascii ['G', 'E', 'T', ' '] ++ [0]

/-- The three calls that find the target of a request. -/
theorem target_found {t : Bytes} (nonempty : t ≠ []) (plain : ∀ c ∈ t, c ≠ 0 ∧ c ≠ 10 ∧ c ≠ 32) (tail : Bytes) :
    ∃ line s after, Tokens.strtok { buf := request t tail, saved := 0 } (some 0) [10] = (some 0, line) ∧
      line.strtok (some 0) [47] = (some 0, s) ∧
      s.strtok none [32] = (some getToken.length, { buf := getToken ++ (t ++ 0 :: after), saved := getToken.length + t.length + 1 }) := by
  let get := ascii ['G', 'E', 'T', ' ']
  let version := ascii ['H', 'T', 'T', 'P', '/', '1', '.', '1']
  have linePlain : ∀ c ∈ requestLine t, c ≠ 0 ∧ [(10 : UInt8)].contains c = false := fun c inside =>
    ⟨(requestLine_plain plain c inside).1, by simpa using (requestLine_plain plain c inside).2⟩
  have begins : ∀ tail, requestLine t ++ tail = get ++ (47 :: (t ++ (32 :: (version ++ tail)))) := by
    intro tail
    simp [requestLine, get, version, ascii]
  obtain ⟨tail', saved, line⟩ := @Tokens.strtok_longer [] (requestLine t) [10] 0 (some 0) rfl (List.cons_ne_nil _ _) linePlain tail
  have slash := @Tokens.strtok_stop [] get (t ++ (32 :: (version ++ tail'))) [47] 47 saved (some 0) rfl (by decide)
    (List.all_iff_forall_prop.mp (by decide)) (by decide) (by decide)
  have blank := @Tokens.strtok_stop getToken t (version ++ tail') [32] 32 5 none rfl nonempty
    (fun c inside => ⟨(plain c inside).1, by simpa using (plain c inside).2.2⟩) (by decide) (by decide)
  rw [← request_eq, begins] at line
  exact ⟨_, _, _, line, slash, blank⟩

/-! ### Commands -/

/-- The target of a request for a command, and for an argument of it. -/
def target (c : Bytes) (a : Option Bytes) : Bytes := c ++ (a.map fun a => 42 :: a).getD []

/-- The command and the argument of a request. -/
structure Command (c : Bytes) (a : Option Bytes) : Prop where
  nonempty : c ≠ []
  plain : ∀ x ∈ c, x ≠ 0 ∧ x ≠ 10 ∧ x ≠ 32 ∧ x ≠ 47 ∧ x ≠ 42
  short : c.length < 128
  argNonempty : ∀ arg ∈ a, arg ≠ []
  argPlain : ∀ arg ∈ a, ∀ x ∈ arg, x ≠ 0 ∧ x ≠ 10 ∧ x ≠ 32
  argShort : ∀ arg ∈ a, arg.length < 128

/-- The strings that `parse_string` finds in a request. -/
theorem parseString_request {c : Bytes} {a : Option Bytes} (command : Command c a) (tail : Bytes) :
    parseString (request (target c a) tail) = (some c, a) := by
  have nonempty : target c a ≠ [] := List.append_ne_nil_of_left_ne_nil command.nonempty _
  have plain : ∀ x ∈ target c a, x ≠ 0 ∧ x ≠ 10 ∧ x ≠ 32 := by
    intro x inside
    rcases List.mem_append.mp inside with name | behind
    · exact ⟨(command.plain x name).1, (command.plain x name).2.1, (command.plain x name).2.2.1⟩
    · cases a with
      | none => cases behind
      | some arg =>
        rcases List.mem_cons.mp behind with rfl | inArg
        · decide
        · exact command.argPlain arg rfl x inArg
  obtain ⟨line, s, after, first, second, third⟩ := target_found nonempty plain tail
  have name : ∀ x ∈ c, x ≠ 0 ∧ [(42 : UInt8)].contains x = false := fun x inside =>
    ⟨(command.plain x inside).1, by simpa using (command.plain x inside).2.2.2.2⟩
  cases a with
  | none =>
    have whole : target c none = c := List.append_nil c
    rw [whole] at third
    have cmd := @Tokens.strtok_last getToken c (0 :: after) [42] (getToken.length + c.length + 1) (some getToken.length) rfl
      command.nonempty name rfl
    have ended := @Tokens.strtok_none (getToken ++ c) (0 :: after) [] (getToken.length + c.length) none List.length_append.symm rfl rfl
    have text := @Tokens.text_token getToken c after (getToken.length + c.length) fun x inside => (command.plain x inside).1
    rw [List.append_assoc] at ended
    simp only [parseString, first, second, third, cmd, ended, text, Option.map_some, Option.map_none]
  | some arg =>
    have argPlain : ∀ x ∈ arg, x ≠ 0 ∧ ([] : Bytes).contains x = false := fun x inside =>
      ⟨(command.argPlain arg rfl x inside).1, rfl⟩
    have whole : target c (some arg) ++ 0 :: after = c ++ 42 :: (arg ++ 0 :: after) := List.append_assoc ..
    have behind : getToken ++ (c ++ 0 :: (arg ++ 0 :: after)) = getToken ++ (c ++ [0]) ++ (arg ++ 0 :: after) := by simp
    have place : (getToken ++ (c ++ [0])).length = getToken.length + c.length + 1 := by simp [Nat.add_assoc]
    rw [whole] at third
    have cmd := @Tokens.strtok_stop getToken c (arg ++ 0 :: after) [42] 42 (getToken.length + (target c (some arg)).length + 1)
      (some getToken.length) rfl command.nonempty name rfl (by decide)
    have argument := @Tokens.strtok_last (getToken ++ (c ++ [0])) arg (0 :: after) [] (getToken.length + c.length + 1) none
      place.symm (command.argNonempty arg rfl) argPlain rfl
    have text := @Tokens.text_token getToken c (arg ++ 0 :: after) (getToken.length + c.length + 1)
      fun x inside => (command.plain x inside).1
    have argText := @Tokens.text_token (getToken ++ (c ++ [0])) arg after (getToken.length + c.length + 1 + arg.length)
      fun x inside => (argPlain x inside).1
    rw [← behind, place] at argument argText
    simp only [parseString, first, second, third, cmd, argument, text, argText, Option.map_some]

theorem sprintf128_some (null : Option Bytes) {s : Bytes} (fits : s.length < 128) : sprintf128 null (some s) = some s :=
  Option.filter_some_pos (by simpa using fits)

/-- `03_http` executes the command with its argument when the request has one. -/
theorem executes_iff (null : Option Bytes) {c : Bytes} {a : Option Bytes} (command : Command c a) (tail : Bytes) :
    clientHandle03 null (request (target c a) tail) = some { file := c, argv := c :: a.toList } ↔ a.isSome = true := by
  rw [clientHandle03, parseString_request command tail]
  simp only [sprintf128_some null command.short, Option.bind_eq_bind, Option.bind_some]
  cases a with
  | none =>
    simp only [Option.isSome_none, Bool.false_eq_true, iff_false]
    -- The vector has a second entry in any case.
    cases sprintf128 null none with
    | none => simp
    | some printed => simp
  | some arg =>
    simp [sprintf128_some null (command.argShort arg rfl)]

/-- `GET /ls*-la HTTP/1.1` -/
theorem executes_sample :
    clientHandle03 none (request (target (ascii ['l', 's']) (some (ascii ['-', 'l', 'a']))) [13, 10]) =
      some { file := ascii ['l', 's'], argv := [ascii ['l', 's'], ascii ['-', 'l', 'a']] } := by
  have command : Command (ascii ['l', 's']) (some (ascii ['-', 'l', 'a'])) :=
    { nonempty := by decide
      plain := List.all_iff_forall_prop.mp (by decide)
      short := by decide
      argNonempty := by decide
      argPlain := fun arg given => Option.some.inj given ▸ List.all_iff_forall_prop.mp (by decide)
      argShort := by decide }
  exact (executes_iff none command [13, 10]).mpr rfl

/-- `GET /ls HTTP/1.1` gives `ls` the argument `(null)`. -/
theorem null_argument :
    clientHandle03 (some (ascii ['(', 'n', 'u', 'l', 'l', ')'])) (request (target (ascii ['l', 's']) none) [13, 10]) =
        some { file := ascii ['l', 's'], argv := [ascii ['l', 's'], ascii ['(', 'n', 'u', 'l', 'l', ')']] } ∧
      [ascii ['l', 's'], ascii ['(', 'n', 'u', 'l', 'l', ')']] ≠ [ascii ['l', 's']] := by
  decide

end OsyProg.HttpRequests
