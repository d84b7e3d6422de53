import OsyProg.Sessions
import Mathlib.Data.List.TakeWhile

/-!
A client of `DU05_test/socket_cl.cpp` with the name of a file, one statement a step:
`main`, then `producer_thread` when the file exists and `consumer_thread` when it
does not. A line of the input file that fits the buffers goes through `fgets`, the
two `snprintf` and the reads unchanged (`Line`).
-/
namespace OsyProg.Clients
open OsyProg.Bytes OsyProg.ShmQueue OsyProg.Sessions

/-- The statement of a client that comes next, with the string it has at hand: `main`
    with a file name, then `producer_thread` or `consumer_thread`. -/
inductive ClientPc
  | readTask                                    -- read(l_sock_server, l_buf, sizeof(l_buf) - 1)
  | writeRole                                   -- write(l_sock_server, l_buf, len)
  | readLine                                    -- fgets(line, sizeof(line), f)
  | writeLine (line : Bytes)                    -- write(sock, sendbuf, strlen(sendbuf))
  | readAck                                     -- read(sock, ack, sizeof(ack) - 1)
  | readItem                                    -- read(sock, line, sizeof(line))
  | append (bytes : Bytes)                      -- fwrite(line, 1, rr, g_out_file)
  | writeOk                                     -- write(sock, "Ok\n", 3)
  | ended
  deriving DecidableEq

/-- A client with the messages on its socket that have not been read, what is left of
    its input file, and its output file. -/
structure Client where
  pc : ClientPc
  toServer : List Bytes
  toClient : List Bytes
  input : Bytes
  output : Bytes

/-- `read` of at most `size` bytes: a message, or the first part of one that is longer. -/
def received (size : ℕ) : List Bytes → Option (Bytes × List Bytes)
  | [] => none
  | message :: rest =>
    if message.length ≤ size then some (message, rest) else some (message.take size, message.drop size :: rest)

/-- `fgets( line, size, f )`: the bytes up to a newline and with it, `size - 1` at most,
    and what is left of the file; none at its end. -/
def fgets (size : ℕ) (file : Bytes) : Option (Bytes × Bytes) :=
  let length := min (size - 1) ((file.takeWhile fun b => b ≠ 10).length + 1)
  if file = [] then none else some (file.take length, file.drop length)

/-- The string that a client sends as its role. -/
def roleMessage (r : Role) : Bytes := roleName r ++ [10]

/-- A statement of the client that has the given role. -/
def Client.step (r : Role) (c : Client) : Option Client :=
  match c.pc with
  | .readTask => (received (MAX_STR - 1) c.toClient).map fun m => { c with pc := .writeRole, toClient := m.2 }
  | .writeRole =>
    let first := match r with
      | .producer => .readLine
      | .consumer => .readItem
    some { c with pc := first, toServer := c.toServer ++ [roleMessage r] }
  | .readLine =>
    match fgets MAX_STR c.input with
    | none => some { c with pc := .ended }
    | some (read, rest) =>
      let next := if line read = [] then .readLine else .writeLine (line read)
      some { c with pc := next, input := rest }
  | .writeLine item => some { c with pc := .readAck, toServer := c.toServer ++ [withNewline item] }
  | .readAck => (received 255 c.toClient).map fun m => { c with pc := .readLine, toClient := m.2 }
  | .readItem => (received MAX_STR c.toClient).map fun m => { c with pc := .append m.1, toClient := m.2 }
  | .append bytes => some { c with pc := .writeOk, output := c.output ++ bytes }
  | .writeOk => some { c with pc := .readItem, toServer := c.toServer ++ [ascii ['O', 'k', '\n']] }
  | .ended => none

/-! ### Lines -/

/-- A line of the file without its newline: no empty one, and short enough for the buffers. -/
structure Line (item : Bytes) : Prop where
  nonempty : item ≠ []
  plain : ∀ b ∈ item, b ≠ 0 ∧ b ≠ 13 ∧ b ≠ 10
  short : item.length ≤ MAX_STR - 2

/-- The lines, each with its newline. -/
def text (lines : List Bytes) : Bytes := lines.flatMap fun item => item ++ [10]

@[simp] theorem text_nil : text [] = [] := rfl

@[simp] theorem text_append (first second : List Bytes) : text (first ++ second) = text first ++ text second :=
  List.flatMap_append

theorem text_mono {first second : List Bytes} (shorter : first <+: second) : text first <+: text second := by
  obtain ⟨more, rfl⟩ := shorter
  rw [text_append]
  exact List.prefix_append ..

theorem Line.no_newline {item : Bytes} (good : Line item) : 10 ∉ item := fun inside => (good.plain 10 inside).2.2 rfl

theorem Line.line_self {item : Bytes} (good : Line item) : line item = item := by
  rw [line, List.takeWhile_eq_self_iff]
  exact fun b inside => by simpa using good.plain b inside

/-- The newline ends the string. -/
theorem line_append {item : Bytes} (plain : ∀ b ∈ item, b ≠ 0 ∧ b ≠ 13 ∧ b ≠ 10) (more : Bytes) :
    line (item ++ 10 :: more) = item := by
  rw [line, List.takeWhile_append_of_pos fun b inside => by simpa using plain b inside]
  simp

theorem Line.line_append {item : Bytes} (good : Line item) (more : Bytes) : line (item ++ 10 :: more) = item :=
  Clients.line_append good.plain more

theorem Line.line_eq {item : Bytes} (good : Line item) : line (item ++ [10]) = item := good.line_append []

theorem Line.short_newline {item : Bytes} (good : Line item) : (item ++ [10]).length ≤ MAX_STR - 1 := by
  have := good.short
  simp only [List.length_append, List.length_singleton, MAX_STR] at *
  omega

theorem Line.withNewline_eq {item : Bytes} (good : Line item) : withNewline item = item ++ [10] :=
  List.take_of_length_le good.short_newline

/-- `fgets` reads a line that fits with its newline. -/
theorem fgets_line {size : ℕ} {item : Bytes} (clean : 10 ∉ item) (fits : item.length + 2 ≤ size) (more : Bytes) :
    fgets size (item ++ 10 :: more) = some (item ++ [10], more) := by
  have whole : item ++ 10 :: more = (item ++ [10]) ++ more := by simp
  have first : ((item ++ 10 :: more).takeWhile fun b => b ≠ 10) = item := by
    rw [List.takeWhile_append_of_pos fun b inside => by simpa using fun same : b = 10 => clean (same ▸ inside)]
    simp
  have length : min (size - 1) (item.length + 1) = (item ++ [10]).length := by
    rw [List.length_append, List.length_singleton]
    omega
  rw [fgets, if_neg (by simp), first, length, whole, List.take_left, List.drop_left]

theorem Line.fgets_eq {item : Bytes} (good : Line item) (left : List Bytes) :
    fgets MAX_STR (text (item :: left)) = some (item ++ [10], text left) := by
  have whole : text (item :: left) = item ++ 10 :: text left := by simp [text]
  have fits : item.length + 2 ≤ MAX_STR := by
    have := good.short
    simp only [MAX_STR] at *
    omega
  rw [whole, fgets_line good.no_newline fits]

/-- A read loses no byte and adds none. -/
theorem received_flatten {size : ℕ} {channel rest : List Bytes} {bytes : Bytes}
    (reads : received size channel = some (bytes, rest)) : bytes ++ rest.flatten = channel.flatten := by
  cases channel with
  | nil => cases reads
  | cons message others =>
    simp only [received] at reads
    split_ifs at reads
    · cases reads
      rfl
    · cases reads
      simp only [List.flatten_cons, ← List.append_assoc, List.take_append_drop]

theorem received_whole {size : ℕ} {message : Bytes} (rest : List Bytes) (fits : message.length ≤ size) :
    received size (message :: rest) = some (message, rest) :=
  if_pos fits

end OsyProg.Clients
