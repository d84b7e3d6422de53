import OsyProg.CArrays
import OsyProg.Handles
import OsyProg.Runs

/-!
The chat server `cv_socket/serv.c`, one answer of the system a step: what `poll`, `accept`
and the calls of `read` return. The loop over the lines of the buffer works on the arrays
themselves and has no result when it leaves one of them; it never does, and each line of
the buffer reaches the body of the loop without its end (`lineLoop_eq`, `read_eq`). The
table of descriptors, what is open, and what is sent to whom are parts of the state. A
client that has reset its connection ends the server by SIGPIPE when it is written to, at
any of the writes for the lines of a buffer (`breakOff`).
-/
namespace OsyProg.ChatServer
open OsyProg.Bytes OsyProg.CStrings OsyProg.InputLines OsyProg.Lines OsyProg.CArrays OsyProg.Handles

def MAX_CLIENTS : ℕ := 64
def BUF_SZ : ℕ := 4096

/-! ### The lines of a buffer -/

/-- The bytes that `trim_newline` removes. -/
def lineEnd (c : UInt8) : Bool := c = 10 || c = 13

def trimNewline (s : Bytes) : Option Bytes := (strlen s).bind (trimLoop lineEnd s)

/-- A line without what `trim_newline` removes. -/
def trimmed (line : Bytes) : Bytes := line.rdropWhile lineEnd

/-- The loop over the lines of `buf` from position `p` on, at most so many rounds, with the
    body for each line; `junk` is what the new array `line` holds. -/
def lineLoop {State : Type} (junk : ℕ → Fresh BUF_SZ) (body : Bytes → State → State) : ℕ → ℕ → Bytes → State → Option (Bytes × State)
  | 0, _, _, _ => none
  | rounds + 1, p, buf, s =>
    (strchr 10 p (buf.drop p)).bind fun
      | none => some (buf, s)
      | some nl =>
        (store buf nl 0).bind fun buf =>
          (strncpy (junk p).val (buf.drop p) (BUF_SZ - 1)).bind fun line =>
            (store line (BUF_SZ - 1) 0).bind fun line =>
              (trimNewline line).bind fun line => lineLoop junk body rounds (nl + 1) buf (body line s)

/-! ### The server -/

abbrev Slot := Fin MAX_CLIENTS

/-- The index in `fds`; the first two are the listening socket and the standard input. -/
def Slot.index (i : Slot) : ℕ := i + 2

/-- The bits of `revents` that the loop looks at. -/
structure Revents where
  pollin : Bool
  pollhup : Bool
  pollerr : Bool
  deriving DecidableEq

def Revents.none : Revents := { pollin := false, pollhup := false, pollerr := false }

inductive Notice
  | welcome | full | bye
  deriving DecidableEq

/-- A line that is passed on: the slot whose data it was in and the connection that the data
    came from, the line, the array `msg` as far as it was written, the length `m`, the
    descriptors `m` bytes of `msg` were written to with their connections, and what was open. -/
structure Broadcast where
  slot : Slot
  sender : Option ℕ
  line : Bytes
  msg : Bytes
  m : ℕ
  sentTo : List (ℤ × Option ℕ)
  owner : ℤ → Option ℕ

/-- The call that comes next. -/
inductive Pc
  | poll                -- poll(fds, 2 + MAX_CLIENTS, -1)
  | accept              -- accept(listenfd, ..)
  | stdin               -- read(STDIN_FILENO, buf, sizeof(buf)-1)
  | client (i : Slot)   -- the round of the loop over the clients
  | quit                -- after the command
  | failed              -- after an error of poll
  | killed              -- by SIGPIPE: nothing handles or ignores it
  deriving DecidableEq

/-- The variables of `main`, the descriptors of the process, and what was read from each
    connection, in which slot it was put, and what was sent. -/
structure Server where
  listenfd : ℤ
  fds : Slot → ℤ
  revents : Slot → Revents
  stdinReady : Bool
  buf : Bytes
  pc : Pc
  ledger : Ledger ℤ
  slotOf : ℕ → Option Slot
  received : ℕ → Bytes
  notices : List (ℤ × Notice)
  broadcasts : List Broadcast

/-- What a call returns: `poll` with an event on the listening socket, on the standard input
    and on the slots, `accept` with a descriptor, `read` with data or at the end; `eintr` and
    `error` are -1. A round without a call goes on. `broken` is data, behind so many lines of
    which and so many writes of the next one the client written to has reset its connection. -/
inductive Answer
  | go
  | eintr
  | error
  | polled (listen stdin : Bool) (revents : Slot → Revents)
  | accepted (cfd : ℤ)
  | data (piece : Piece (BUF_SZ - 1))
  | broken (piece : Piece (BUF_SZ - 1)) (lines writes : ℕ)
  | eof

def firstSlot : Slot := ⟨0, by decide⟩

/-- The slots in the order of the loops. -/
def slots : List Slot := List.finRange MAX_CLIENTS

namespace Server

def notify (s : Server) (fd : ℤ) (notice : Notice) : Server := { s with notices := s.notices ++ [(fd, notice)] }

/-- `close(fds[i].fd); fds[i].fd = -1;` -/
def closeSlot (s : Server) (i : Slot) : Server :=
  { s with ledger := s.ledger.closes (s.fds i), fds := Function.update s.fds i (-1) }

/-- A new client is put into the first free slot, or turned away. -/
def place (s : Server) (cfd : ℤ) : Server :=
  match slots.find? fun i => s.fds i = -1 with
  | some i =>
    { s with
      ledger := s.ledger.opens cfd
      fds := Function.update s.fds i cfd
      slotOf := Function.update s.slotOf s.ledger.opened (some i)
      notices := s.notices ++ [(cfd, .welcome)] }
  | none => { s with ledger := (s.ledger.opens cfd).closes cfd, notices := s.notices ++ [(cfd, .full)] }

/-- The descriptors of the other clients. -/
def receivers (s : Server) (i : Slot) : List (ℤ × Option ℕ) :=
  slots.filterMap fun j => if j = i ∨ s.fds j = -1 then none else some (s.fds j, s.ledger.owner (s.fds j))

/-- The text that `snprintf` is given for `msg`. -/
def msgText (i : Slot) (line : Bytes) : Bytes := ascii ['['] ++ decimal i.index ++ ascii [']', ' '] ++ line ++ [10]

/-- `snprintf` into `msg` stores at most `BUF_SZ - 1` bytes and a zero, and returns the length
    of the whole text; then `m` bytes are written to the given clients. -/
def broadcastTo (s : Server) (i : Slot) (sender : Option ℕ) (line : Bytes) (sentTo : List (ℤ × Option ℕ)) : Server :=
  let text := msgText i (cString line)
  { s with
    broadcasts := s.broadcasts ++ [{
      slot := i
      sender
      line := cString line
      msg := text.take (BUF_SZ - 1) ++ [0]
      m := text.length
      sentTo
      owner := s.ledger.owner }] }

/-- The message goes to each of the other clients. -/
def broadcast (s : Server) (i : Slot) (sender : Option ℕ) (line : Bytes) : Server :=
  s.broadcastTo i sender line (s.receivers i)

/-- The body of the loop over the lines. -/
def handleLine (i : Slot) (sender : Option ℕ) (line : Bytes) (s : Server) : Server :=
  if cString line = ascii ['b', 'y', 'e'] then (s.notify (s.fds i) .bye).closeSlot i
  else if line.headD 0 ≠ 0 then s.broadcast i sender line
  else s

/-- The body of the loop for a line at whose write of the given number the server is killed. -/
def handleLost (i : Slot) (sender : Option ℕ) (line : Bytes) (writes : ℕ) (s : Server) : Option Server :=
  if cString line = ascii ['b', 'y', 'e'] then
    if s.fds i ≠ -1 ∧ writes = 0 then some { s with pc := .killed } else none
  else if line.headD 0 ≠ 0 ∧ writes < (s.receivers i).length then
    some { s.broadcastTo i sender line ((s.receivers i).take writes) with pc := .killed }
  else none

/-- The bytes that are read into `buf`, and the zero behind them. -/
def fill (s : Server) (piece : Piece (BUF_SZ - 1)) : Option Bytes :=
  store (piece.bytes ++ s.buf.drop piece.bytes.length) piece.bytes.length 0

/-- What has been read from each connection, with new data of one of them. -/
def recorded (s : Server) (sender : Option ℕ) (bytes : Bytes) : ℕ → Bytes :=
  match sender with
  | some c => Function.update s.received c (s.received c ++ bytes)
  | none => s.received

/-- `read` with data from a client, and the loop over the lines. -/
def read (junk : ℕ → Fresh BUF_SZ) (s : Server) (i : Slot) (piece : Piece (BUF_SZ - 1)) : Option Server :=
  let sender := s.ledger.owner (s.fds i)
  (s.fill piece).bind fun buf =>
    (lineLoop junk (handleLine i sender) BUF_SZ 0 buf { s with received := s.recorded sender piece.bytes }).map fun (buf, s) =>
      { s with buf }

/-- `read` with data from a client, and the loop over the lines as far as the server gets. -/
def breakOff (junk : ℕ → Fresh BUF_SZ) (s : Server) (i : Slot) (piece : Piece (BUF_SZ - 1)) (lines writes : ℕ) : Option Server :=
  let sender := s.ledger.owner (s.fds i)
  (s.fill piece).bind fun buf =>
    (lineLoop junk (fun line all => all ++ [line]) BUF_SZ 0 buf []).bind fun (buf, all) =>
      (all[lines]?.bind fun line =>
        handleLost i sender line writes
          ((all.take lines).foldl (fun s line => handleLine i sender line s)
            { s with received := s.recorded sender piece.bytes })).map fun s => { s with buf }

/-- `read` with data from the standard input; `list` and unknown commands only print. -/
def command (s : Server) (piece : Piece (BUF_SZ - 1)) : Option Server :=
  (s.fill piece).bind fun buf => (trimNewline buf).map fun buf =>
    if cString buf = ascii ['q', 'u', 'i', 't'] then
      { s with buf, ledger := (closesAll (-1) s.fds s.ledger slots).closes s.listenfd, pc := .quit }
    else { s with buf, pc := .client firstSlot }

/-- `if (ev & (POLLHUP | POLLERR))` and what depends on it. -/
def hangup (s : Server) (i : Slot) : Server :=
  if (s.revents i).pollhup || (s.revents i).pollerr then s.closeSlot i else s

/-- The next slot, or the next call of `poll`. -/
def next (s : Server) (i : Slot) : Server :=
  { s with pc := if inside : i + 1 < MAX_CLIENTS then .client ⟨i + 1, inside⟩ else .poll }

/-- `if (fds[i].fd == -1) continue;` and `if (!ev) continue;` -/
def skips (s : Server) (i : Slot) : Prop := s.fds i = -1 ∨ s.revents i = .none

/-- The round of a slot calls `read`. -/
def reads (s : Server) (i : Slot) : Prop := ¬ s.skips i ∧ (s.revents i).pollin = true

instance (s : Server) : DecidablePred s.skips := fun i => by
  unfold skips
  infer_instance

instance (s : Server) : DecidablePred s.reads := fun i => by
  unfold reads
  infer_instance

/-- After the listening socket comes the standard input, or the first slot. -/
def afterAccept (s : Server) : Server := { s with pc := if s.stdinReady then .stdin else .client firstSlot }

end Server

open Server

/-- One step. `poll` has no event for a negative descriptor, and `accept` returns a descriptor
    that is not open. -/
def step (junk : ℕ → Fresh BUF_SZ) (s : Server) (a : Answer) : Option Server :=
  match s.pc, a with
  | .poll, .eintr => some s
  | .poll, .error => some { s with ledger := s.ledger.closes s.listenfd, pc := .failed }
  | .poll, .polled listen stdin revents =>
    if ∀ i, s.fds i < 0 → revents i = .none then
      some (if listen then { s with revents, stdinReady := stdin, pc := .accept }
        else afterAccept { s with revents, stdinReady := stdin })
    else none
  | .accept, .error => some s.afterAccept
  | .accept, .accepted cfd =>
    if 0 ≤ cfd ∧ s.ledger.owner cfd = none ∧ cfd ≠ s.listenfd then some (s.place cfd).afterAccept else none
  | .stdin, .data piece => s.command piece
  | .stdin, .eof | .stdin, .eintr | .stdin, .error => some { s with pc := .client firstSlot }
  | .client i, .go =>
    if s.skips i then some (s.next i) else if (s.revents i).pollin then none else some ((s.hangup i).next i)
  | .client i, .data piece => if s.reads i then (s.read junk i piece).map fun s => (s.hangup i).next i else none
  | .client i, .eof | .client i, .error => if s.reads i then some (((s.closeSlot i).hangup i).next i) else none
  | .client i, .eintr => if s.reads i then some (s.next i) else none
  | .client i, .broken piece lines writes => if s.reads i then s.breakOff junk i piece lines writes else none
  | _, _ => none

/-- New arrays that hold zeros. -/
def zeros (_ : ℕ) : Fresh BUF_SZ := ⟨List.replicate BUF_SZ 0, List.length_replicate⟩

/-- Before the first call of `poll`. -/
def start (listenfd : ℤ) : Server :=
  { listenfd
    fds := fun _ => -1
    revents := fun _ => .none
    stdinReady := false
    buf := List.replicate BUF_SZ 0
    pc := .poll
    ledger := { owner := fun _ => none, opened := 0, closed := [] }
    slotOf := fun _ => none
    received := fun _ => []
    notices := []
    broadcasts := [] }

/-! ### What the loop over the lines does -/

section
variable {text more : Bytes}

theorem length_trimmed (line : Bytes) : (trimmed line).length ≤ line.length := (List.rdropWhile_prefix lineEnd line).length_le

theorem plain_trimmed {line : Bytes} (plain : 0 ∉ line) : 0 ∉ trimmed line := fun there =>
  plain ((List.rdropWhile_prefix lineEnd line).subset there)

theorem trimNewline_string (plain : 0 ∉ text) (more : Bytes) :
    trimNewline (text ++ 0 :: more) = some (padded text.length (trimmed text) ++ 0 :: more) := by
  rw [trimNewline, strlen_string plain, Option.bind_some, trimLoop_eq, trimmed]

/-- What `strncpy`, the zero at the end and `trim_newline` make of a line in the buffer. -/
theorem copied_line {Result : Type} (junk : Fresh BUF_SZ) (plain : 0 ∉ text) (fits : text.length < BUF_SZ) (more : Bytes)
    (onward : Bytes → Option Result) :
    ((strncpy junk.val (text ++ 0 :: more) (BUF_SZ - 1)).bind fun line =>
        (store line (BUF_SZ - 1) 0).bind fun line => (trimNewline line).bind onward) = onward (padded BUF_SZ (trimmed text)) := by
  have inside : text.length ≤ BUF_SZ - 1 := Nat.le_pred_of_lt fits
  have room : BUF_SZ - 1 ≤ junk.val.length := by rw [junk.property]; decide
  obtain ⟨c, last⟩ : ∃ c, junk.val.drop (BUF_SZ - 1) = [c] :=
    List.length_eq_one_iff.mp (by rw [List.length_drop, junk.property]; decide)
  have length : (padded (BUF_SZ - 1) text).length = BUF_SZ - 1 := length_padded inside
  have stored : store (padded (BUF_SZ - 1) text ++ [c]) (BUF_SZ - 1) 0 = some (text ++ 0 :: List.replicate (BUF_SZ - 1 - text.length) 0) := by
    rw [store, if_pos (by rw [List.length_append, length]; exact Nat.lt_succ_self _), List.set_append_right _ _ (Nat.le_of_eq length), length,
      Nat.sub_self, padded, List.append_assoc, List.set_cons_zero, ← List.replicate_succ', List.replicate_succ]
  have zeros : text.length - (trimmed text).length + (BUF_SZ - 1 - text.length + 1) = BUF_SZ - (trimmed text).length := by
    have shorter := length_trimmed text
    omega
  rw [strncpy_string room plain inside, Option.bind_some, last, stored, Option.bind_some, trimNewline_string plain,
    Option.bind_some, padded, padded, ← List.replicate_succ, List.append_assoc, List.replicate_append_replicate, zeros]

/-- The loop stays inside its arrays, and gives its body each line of the text, without its
    end and with zeros behind it. -/
theorem lineLoop_eq {State : Type} (junk : ℕ → Fresh BUF_SZ) (body : Bytes → State → State) {lines : List Bytes} {rest : Bytes}
    (clean : ∀ line ∈ lines, 10 ∉ line) (cleanRest : 10 ∉ rest) (plain : 0 ∉ unlines 10 lines ++ rest)
    (fits : (unlines 10 lines).length < BUF_SZ) {rounds : ℕ} (enough : lines.length < rounds) (front more : Bytes) (s : State) :
    ∃ buf, buf.length = (front ++ (unlines 10 lines ++ rest ++ 0 :: more)).length ∧
      lineLoop junk body rounds front.length (front ++ (unlines 10 lines ++ rest ++ 0 :: more)) s =
        some (buf, lines.foldl (fun s line => body (padded BUF_SZ (trimmed line)) s) s) := by
  induction lines generalizing rounds front s with
  | nil =>
    obtain ⟨left, rfl⟩ : ∃ left, rounds = left + 1 := ⟨rounds - 1, by omega⟩
    rw [unlines_nil, List.nil_append] at plain ⊢
    refine ⟨_, rfl, ?_⟩
    rw [lineLoop, List.drop_left, strchr_end cleanRest plain (by decide), Option.bind_some, List.foldl_nil]
  | cons line lines ih =>
    obtain ⟨left, rfl⟩ : ∃ left, rounds = left + 1 := ⟨rounds - 1, by omega⟩
    obtain ⟨cleanLine, cleanLater⟩ := List.forall_mem_cons.mp clean
    rw [unlines_cons, List.append_assoc, List.cons_append] at plain
    rw [unlines_cons, List.length_append, List.length_cons] at fits
    rw [List.length_cons] at enough
    have plainLine : 0 ∉ line := fun there => plain (List.mem_append_left _ there)
    have plainLater : 0 ∉ unlines 10 lines ++ rest := fun there => plain (List.mem_append_right _ (List.mem_cons_of_mem _ there))
    have text : unlines 10 (line :: lines) ++ rest ++ 0 :: more = line ++ 10 :: (unlines 10 lines ++ rest ++ 0 :: more) := by
      rw [unlines_cons, List.append_assoc, List.append_assoc, List.append_assoc, List.cons_append]
    have stored : store (front ++ (line ++ 10 :: (unlines 10 lines ++ rest ++ 0 :: more))) (front.length + line.length) 0 =
        some (front ++ (line ++ 0 :: (unlines 10 lines ++ rest ++ 0 :: more))) := by
      rw [store, if_pos (by simp), List.set_append_right _ _ (Nat.le_add_right ..), Nat.add_sub_cancel_left,
        List.set_append_right _ _ (Nat.le_refl _), Nat.sub_self, List.set_cons_zero]
    have copied := @copied_line line (Bytes × State) (junk front.length) plainLine (by omega) (unlines 10 lines ++ rest ++ 0 :: more)
    obtain ⟨buf, length, loop⟩ := ih cleanLater plainLater (by omega) (by omega : lines.length < left) (front ++ (line ++ [0]))
      (body (padded BUF_SZ (trimmed line)) s)
    have next : front ++ (line ++ 0 :: (unlines 10 lines ++ rest ++ 0 :: more)) =
        front ++ (line ++ [0]) ++ (unlines 10 lines ++ rest ++ 0 :: more) := by
      simp
    have place : front.length + line.length + 1 = (front ++ (line ++ [0])).length := by simp [Nat.add_assoc]
    refine ⟨buf, ?_, ?_⟩
    · rw [length, text]
      simp only [List.length_append, List.length_cons, List.length_nil]
      omega
    · rw [text, lineLoop, List.drop_left, strchr_found cleanLine plainLine, Option.bind_some]
      dsimp only
      rw [stored, Option.bind_some, List.drop_left, copied, next, place, loop, List.foldl_cons]

end

/-- In front of a zero that is put behind some bytes their string ends. -/
theorem exists_string (bytes tail : Bytes) : ∃ more, bytes ++ 0 :: tail = cString bytes ++ 0 :: more := by
  by_cases zero : 0 ∈ bytes
  · have split : bytes = cString bytes ++ bytes.dropWhile fun c => c ≠ 0 := List.takeWhile_append_dropWhile.symm
    cases behind : bytes.dropWhile fun c => c ≠ 0 with
    | nil =>
      rw [behind, List.append_nil] at split
      have first := List.mem_takeWhile_imp (split ▸ zero)
      simp at first
    | cons c more =>
      have first : c = 0 := by
        have ends := List.head?_dropWhile_not (fun c : UInt8 => c ≠ 0) bytes
        rw [behind] at ends
        simpa using ends
      refine ⟨more ++ 0 :: tail, ?_⟩
      conv_lhs => rw [split, behind, first]
      rw [List.append_assoc, List.cons_append]
  · exact ⟨tail, by rw [cString_self zero]⟩

theorem plain_cString (bytes : Bytes) : 0 ∉ cString bytes := by
  intro zero
  have other := List.mem_takeWhile_imp zero
  simp at other

theorem plain_lines (bytes : Bytes) : ∀ line ∈ linesOf 10 (cString bytes), 0 ∉ line := by
  intro line inside there
  have text := unlines_linesOf 10 (cString bytes)
  exact plain_cString bytes (text ▸ List.mem_append_left _ (List.mem_flatMap.mpr ⟨line, inside, List.mem_append_left _ there⟩))

section
variable {s : Server} {piece : Piece (BUF_SZ - 1)}

theorem fill_eq (size : s.buf.length = BUF_SZ) (piece : Piece (BUF_SZ - 1)) :
    ∃ more, s.fill piece = some (cString piece.bytes ++ 0 :: more) ∧ (cString piece.bytes ++ 0 :: more).length = BUF_SZ := by
  have fits : piece.bytes.length < BUF_SZ := Nat.lt_of_le_pred (by decide) piece.fits
  obtain ⟨more, string⟩ := exists_string piece.bytes (s.buf.drop (piece.bytes.length + 1))
  have length : (piece.bytes ++ s.buf.drop piece.bytes.length).length = BUF_SZ := by
    rw [List.length_append, List.length_drop]
    omega
  have behind : (s.buf.drop piece.bytes.length).set 0 0 = 0 :: s.buf.drop (piece.bytes.length + 1) := by
    rw [List.drop_eq_getElem_cons (by omega), List.set_cons_zero]
  have filled : (piece.bytes ++ s.buf.drop piece.bytes.length).set piece.bytes.length 0 = cString piece.bytes ++ 0 :: more := by
    rw [List.set_append_right _ _ (Nat.le_refl _), Nat.sub_self, behind, string]
  refine ⟨more, ?_, ?_⟩
  · rw [fill, store, if_pos (by omega), filled]
  · rw [← filled, List.length_set, length]

/-- What a line without its end does, when it comes from the given slot and connection. -/
def said (i : Slot) (sender : Option ℕ) (t : Bytes) (s : Server) : Server :=
  if t = ascii ['b', 'y', 'e'] then (s.notify (s.fds i) .bye).closeSlot i
  else if t = [] then s
  else s.broadcast i sender (padded BUF_SZ t)

theorem handleLine_padded {t : Bytes} (plain : 0 ∉ t) (i : Slot) (sender : Option ℕ) (s : Server) :
    handleLine i sender (padded BUF_SZ t) s = said i sender t s := by
  have first : (padded BUF_SZ t).headD 0 ≠ 0 ↔ t ≠ [] := by
    cases t with
    | nil => exact iff_of_false (fun some_ => some_ rfl) fun some_ => some_ rfl
    | cons c t => simpa [padded] using fun zero => plain (by simp [zero])
  rw [handleLine, said, cString_padded plain]
  split
  · rfl
  · by_cases empty : t = []
    · rw [if_neg (fun some_ => first.mp some_ empty), if_pos empty]
    · rw [if_pos (first.mpr empty), if_neg empty]

theorem foldl_said {lines : List Bytes} (plain : ∀ line ∈ lines, 0 ∉ line) (i : Slot) (sender : Option ℕ) (s : Server) :
    lines.foldl (fun s line => handleLine i sender (padded BUF_SZ (trimmed line)) s) s =
      (lines.map trimmed).foldl (fun s t => said i sender t s) s := by
  induction lines generalizing s with
  | nil => rfl
  | cons line lines ih =>
    obtain ⟨plainLine, plainLater⟩ := List.forall_mem_cons.mp plain
    rw [List.foldl_cons, List.map_cons, List.foldl_cons, handleLine_padded (plain_trimmed plainLine), ih plainLater]

/-- The effect of the lines of a buffer, without the arrays. -/
def Server.speak (s : Server) (i : Slot) (piece : Piece (BUF_SZ - 1)) : Server :=
  let sender := s.ledger.owner (s.fds i)
  ((linesOf 10 (cString piece.bytes)).map trimmed).foldl (fun s t => said i sender t s)
    { s with received := s.recorded sender piece.bytes }

/-- The loop over the lines of any data that `read` has put into `buf`. -/
theorem filled_loop {State : Type} (junk : ℕ → Fresh BUF_SZ) (size : s.buf.length = BUF_SZ) (piece : Piece (BUF_SZ - 1))
    (body : Bytes → State → State) (first : State) :
    ∃ filled buf, s.fill piece = some filled ∧ buf.length = BUF_SZ ∧
      lineLoop junk body BUF_SZ 0 filled first =
        some (buf, (linesOf 10 (cString piece.bytes)).foldl (fun s line => body (padded BUF_SZ (trimmed line)) s) first) := by
  obtain ⟨more, filled, length⟩ := fill_eq size piece
  obtain ⟨clean, cleanRest⟩ := linesOf_clean 10 (cString piece.bytes)
  have text := unlines_linesOf 10 (cString piece.bytes)
  have many := length_le_unlines 10 (linesOf 10 (cString piece.bytes))
  have total := congrArg List.length text
  rw [List.length_append] at total
  have fits := length
  rw [List.length_append, List.length_cons] at fits
  obtain ⟨buf, same, loop⟩ := lineLoop_eq junk body clean cleanRest
    (by rw [text]; exact plain_cString _) (by omega) (by omega : _ < BUF_SZ) [] more first
  rw [List.nil_append, text] at same loop
  exact ⟨_, buf, filled, same.trans length, loop⟩

/-- Whatever the data is, the calls of `strchr`, `strncpy` and `trim_newline` for it stay inside their arrays. -/
theorem read_eq (junk : ℕ → Fresh BUF_SZ) (size : s.buf.length = BUF_SZ) (i : Slot) (piece : Piece (BUF_SZ - 1)) :
    ∃ buf, buf.length = BUF_SZ ∧ s.read junk i piece = some { s.speak i piece with buf } := by
  obtain ⟨filled, buf, fill, length, loop⟩ := filled_loop junk size piece (handleLine i (s.ledger.owner (s.fds i)))
    { s with received := s.recorded (s.ledger.owner (s.fds i)) piece.bytes }
  rw [foldl_said (plain_lines piece.bytes)] at loop
  refine ⟨buf, length, ?_⟩
  rw [Server.read, fill, Option.bind_some]
  exact congrArg (Option.map _) loop

/-- The effect of some lines of the data. -/
def Server.heard (s : Server) (i : Slot) (piece : Piece (BUF_SZ - 1)) (ts : List Bytes) : Server :=
  let sender := s.ledger.owner (s.fds i)
  ts.foldl (fun s t => said i sender t s) { s with received := s.recorded sender piece.bytes }

/-- The lines that are taken before the server is killed, and what is done with the last one. -/
def Server.halt (s : Server) (i : Slot) (piece : Piece (BUF_SZ - 1)) (lines writes : ℕ) : Option Server :=
  let all := (linesOf 10 (cString piece.bytes)).map trimmed
  all[lines]?.bind fun t =>
    handleLost i (s.ledger.owner (s.fds i)) (padded BUF_SZ t) writes (s.heard i piece (all.take lines))

theorem foldl_concat {α β : Type} (f : α → β) (front : List β) (l : List α) :
    l.foldl (fun all x => all ++ [f x]) front = front ++ l.map f := by
  induction l generalizing front with
  | nil => simp
  | cons x l ih => rw [List.foldl_cons, ih, List.map_cons, List.append_assoc, List.singleton_append]

/-- With the arrays it is the same. -/
theorem breakOff_eq (junk : ℕ → Fresh BUF_SZ) (size : s.buf.length = BUF_SZ) (i : Slot) (piece : Piece (BUF_SZ - 1)) (lines writes : ℕ) :
    ∃ buf, buf.length = BUF_SZ ∧ s.breakOff junk i piece lines writes = (s.halt i piece lines writes).map fun s => { s with buf } := by
  obtain ⟨filled, buf, fill, length, loop⟩ := filled_loop junk size piece (fun line all => all ++ [line]) []
  rw [foldl_concat, List.nil_append] at loop
  have plain : ∀ line ∈ (linesOf 10 (cString piece.bytes)).take lines, 0 ∉ line := fun line inside =>
    plain_lines piece.bytes line (List.mem_of_mem_take inside)
  refine ⟨buf, length, ?_⟩
  rw [breakOff, fill, Option.bind_some, loop, Option.bind_some, halt, heard]
  dsimp only
  rw [List.getElem?_map, List.getElem?_map, Option.bind_map, Option.bind_map, ← List.map_take, ← List.map_take, List.foldl_map,
    foldl_said plain]
  rfl

/-- Until then its lines have done what the lines of data do. -/
theorem halt_cases {t : Server} {i : Slot} {lines writes : ℕ} (halted : s.halt i piece lines writes = some t) :
    ∃ ts broadcasts, t = { s.heard i piece ts with broadcasts, pc := .killed } := by
  obtain ⟨t', -, lost⟩ := Option.bind_eq_some_iff.mp halted
  refine ⟨((linesOf 10 (cString piece.bytes)).map trimmed).take lines, t.broadcasts, ?_⟩
  rw [handleLost] at lost
  split at lost
  · obtain ⟨-, ⟨⟩⟩ := Option.ite_none_right_eq_some.mp lost
    rfl
  · obtain ⟨-, ⟨⟩⟩ := Option.ite_none_right_eq_some.mp lost
    rfl

theorem command_eq (size : s.buf.length = BUF_SZ) (piece : Piece (BUF_SZ - 1)) :
    ∃ buf, buf.length = BUF_SZ ∧ s.command piece =
      some (if cString buf = ascii ['q', 'u', 'i', 't'] then
        { s with buf, ledger := (closesAll (-1) s.fds s.ledger slots).closes s.listenfd, pc := .quit }
      else { s with buf, pc := .client firstSlot }) := by
  obtain ⟨more, filled, length⟩ := fill_eq size piece
  have plain := plain_cString piece.bytes
  refine ⟨padded (cString piece.bytes).length (trimmed (cString piece.bytes)) ++ 0 :: more, ?_, ?_⟩
  · rw [List.length_append, length_padded (length_trimmed _), ← List.length_append]
    exact length
  · rw [command, filled, Option.bind_some, trimNewline_string plain, Option.map_some]

end

/-! ### The steps -/

/-- An answer that the system can give to the call that comes next. -/
def Consistent (s : Server) (a : Answer) : Prop :=
  match s.pc, a with
  | .poll, .polled _ _ revents => ∀ i, s.fds i < 0 → revents i = .none
  | .poll, .eintr | .poll, .error | .accept, .error => True
  | .accept, .accepted cfd => 0 ≤ cfd ∧ s.ledger.owner cfd = none ∧ cfd ≠ s.listenfd
  | .stdin, .data _ | .stdin, .eof | .stdin, .eintr | .stdin, .error => True
  | .client i, .go => ¬ s.reads i
  | .client i, .data _ | .client i, .eof | .client i, .eintr | .client i, .error => s.reads i
  | .client i, .broken piece lines writes => s.reads i ∧ (s.halt i piece lines writes).isSome
  | _, _ => False

/-- What a step has done to the table, to what is open and to what was sent. -/
inductive Did (s : Server) : Answer → Server → Prop
  | idle (a : Answer) (pc : Pc) (revents : Slot → Revents) (stdinReady : Bool) (buf : Bytes) (size : buf.length = BUF_SZ)
      (goes : pc ≠ .quit ∧ pc ≠ .failed) : Did s a { s with pc, revents, stdinReady, buf }
  | failed (a : Answer) : Did s a { s with ledger := s.ledger.closes s.listenfd, pc := .failed }
  | accepted (cfd : ℤ) (pc : Pc) (valid : 0 ≤ cfd) (fresh : s.ledger.owner cfd = none) (here : s.pc = .accept)
      (goes : pc ≠ .quit ∧ pc ≠ .failed) : Did s (.accepted cfd) { s.place cfd with pc }
  | quit (a : Answer) (buf : Bytes) (size : buf.length = BUF_SZ) :
      Did s a { s with buf, ledger := (closesAll (-1) s.fds s.ledger slots).closes s.listenfd, pc := .quit }
  | hungUp (a : Answer) (i : Slot) (pc : Pc) (goes : pc ≠ .quit ∧ pc ≠ .failed) : Did s a { s.hangup i with pc }
  | closed (a : Answer) (i : Slot) (pc : Pc) (goes : pc ≠ .quit ∧ pc ≠ .failed) : Did s a { (s.closeSlot i).hangup i with pc }
  | spoke (i : Slot) (piece : Piece (BUF_SZ - 1)) (buf : Bytes) (pc : Pc) (size : buf.length = BUF_SZ) (here : s.pc = .client i)
      (used : s.fds i ≠ -1) (goes : pc ≠ .quit ∧ pc ≠ .failed) :
      Did s (.data piece) { ({ s.speak i piece with buf } : Server).hangup i with pc }
  | killed (i : Slot) (piece : Piece (BUF_SZ - 1)) (lines writes : ℕ) (ts : List Bytes) (buf : Bytes) (broadcasts : List Broadcast)
      (size : buf.length = BUF_SZ) :
      Did s (.broken piece lines writes)
        { s.heard i piece ts with buf, broadcasts, pc := .killed }

section
variable {junk : ℕ → Fresh BUF_SZ} {s t : Server} {a : Answer}

theorem next_goes (s : Server) (i : Slot) : (s.next i).pc ≠ .quit ∧ (s.next i).pc ≠ .failed := by
  simp only [next]
  split <;> simp

theorem afterAccept_goes (s : Server) : s.afterAccept.pc ≠ .quit ∧ s.afterAccept.pc ≠ .failed := by
  simp only [afterAccept]
  split <;> simp

theorem step_did (size : s.buf.length = BUF_SZ) (taken : step junk s a = some t) :
    (s.pc ≠ .quit ∧ s.pc ≠ .failed) ∧ Did s a t := by
  unfold step at taken
  split at taken
  case h_1 here =>
    cases taken
    exact ⟨by simp [here], .idle .eintr s.pc s.revents s.stdinReady s.buf size (by simp [here])⟩
  case h_2 here =>
    cases taken
    exact ⟨by simp [here], .failed _⟩
  case h_3 listen stdin revents here =>
    obtain ⟨-, ⟨⟩⟩ := Option.ite_none_right_eq_some.mp taken
    refine ⟨by simp [here], ?_⟩
    cases listen with
    | true => exact .idle _ .accept revents stdin s.buf size (by simp)
    | false => exact .idle _ _ revents stdin s.buf size (afterAccept_goes { s with revents, stdinReady := stdin })
  case h_4 here =>
    cases taken
    exact ⟨by simp [here], .idle _ _ s.revents s.stdinReady s.buf size (afterAccept_goes s)⟩
  case h_5 cfd here =>
    obtain ⟨⟨valid, fresh, -⟩, ⟨⟩⟩ := Option.ite_none_right_eq_some.mp taken
    exact ⟨by simp [here], .accepted cfd _ valid fresh here (afterAccept_goes (s.place cfd))⟩
  case h_6 piece here =>
    obtain ⟨buf, length, commanded⟩ := command_eq size piece
    rw [commanded] at taken
    cases taken
    refine ⟨by simp [here], ?_⟩
    split
    · exact .quit _ buf length
    · exact .idle _ _ s.revents s.stdinReady buf length (by simp)
  case h_10 i here =>
    refine ⟨by simp [here], ?_⟩
    split at taken
    · cases taken
      exact .idle _ _ s.revents s.stdinReady s.buf size (next_goes s i)
    · obtain ⟨-, ⟨⟩⟩ := Option.ite_none_left_eq_some.mp taken
      exact .hungUp _ i _ (next_goes (s.hangup i) i)
  case h_11 i piece here =>
    obtain ⟨reads, taken⟩ := Option.ite_none_right_eq_some.mp taken
    obtain ⟨buf, length, spoke⟩ := read_eq junk size i piece
    rw [spoke] at taken
    cases taken
    have goes := next_goes (({ s.speak i piece with buf } : Server).hangup i) i
    exact ⟨by simp [here], .spoke i piece buf _ length here (fun free => reads.1 (.inl free)) goes⟩
  case h_14 i here =>
    obtain ⟨-, ⟨⟩⟩ := Option.ite_none_right_eq_some.mp taken
    exact ⟨by simp [here], .idle _ _ s.revents s.stdinReady s.buf size (next_goes s i)⟩
  case h_15 i piece lines writes here =>
    obtain ⟨-, taken⟩ := Option.ite_none_right_eq_some.mp taken
    obtain ⟨buf, length, broke⟩ := breakOff_eq junk size i piece lines writes
    rw [broke] at taken
    obtain ⟨u, halted, rfl⟩ := Option.map_eq_some_iff.mp taken
    obtain ⟨ts, broadcasts, rfl⟩ := halt_cases halted
    exact ⟨by simp [here], .killed i piece lines writes ts buf broadcasts length⟩
  case h_16 => cases taken
  case h_12 i here | h_13 i here =>
    obtain ⟨-, ⟨⟩⟩ := Option.ite_none_right_eq_some.mp taken
    exact ⟨by simp [here], .closed _ i _ (next_goes ((s.closeSlot i).hangup i) i)⟩
  all_goals
    rename_i here
    cases taken
    exact ⟨by simp [here], .idle _ _ s.revents s.stdinReady s.buf size (by simp)⟩

/-- Every answer that the system can give has a result: no step leaves an array. -/
theorem step_goes (junk : ℕ → Fresh BUF_SZ) (size : s.buf.length = BUF_SZ) (a : Answer) : (step junk s a).isSome ↔ Consistent s a := by
  unfold step
  split
  case h_6 piece here =>
    obtain ⟨buf, -, commanded⟩ := command_eq size piece
    simp [Consistent, here, commanded]
  case h_10 i here =>
    by_cases skips : s.skips i
    · simp [Consistent, here, skips, reads]
    · simp [Consistent, here, skips, reads]
  case h_11 i piece here =>
    obtain ⟨buf, -, spoke⟩ := read_eq junk size i piece
    simp [Consistent, here, spoke]
  case h_15 i piece lines writes here =>
    obtain ⟨buf, -, broke⟩ := breakOff_eq junk size i piece lines writes
    by_cases reads : s.reads i <;> simp [Consistent, here, broke, reads]
  case h_16 => simp_all [Consistent]
  all_goals
    rename_i here
    simp [Consistent, here]

end

end OsyProg.ChatServer
