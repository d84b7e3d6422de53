import OsyProg.ChatServer

/-!
The messages that the chat server passes on. What the lines of a buffer do is followed by
one lemma for any property of the state that a line keeps (`foldl_said_kept`): each line
that is neither empty nor `bye` becomes one message to the other slots. The length given to
`write_all` is that of the whole text, of which `snprintf` has stored what there is room
for: `lengths_iff` says for which buffers no byte behind the array is sent.
-/
namespace OsyProg.ChatMessages
open OsyProg.Bytes OsyProg.CStrings OsyProg.InputLines OsyProg.Lines OsyProg.CArrays OsyProg.ChatServer OsyProg.ChatServer.Server

def byeText : Bytes := ascii ['b', 'y', 'e']

/-- A line without its end that is passed on. -/
def Spoken (t : Bytes) : Prop := t ≠ [] ∧ t ≠ byeText

instance : DecidablePred Spoken := fun t => by
  unfold Spoken
  infer_instance

/-- The message for a line without its end. -/
def announcement (s : Server) (i : Slot) (sender : Option ℕ) (t : Bytes) : Broadcast where
  slot := i
  sender := sender
  line := t
  msg := (msgText i t).take (BUF_SZ - 1) ++ [0]
  m := (msgText i t).length
  sentTo := s.receivers i
  owner := s.ledger.owner

section
variable {s u : Server} {i : Slot} {sender : Option ℕ} {t : Bytes}

theorem broadcast_padded (plain : 0 ∉ t) :
    s.broadcast i sender (padded BUF_SZ t) = { s with broadcasts := s.broadcasts ++ [announcement s i sender t] } := by
  rw [broadcast, broadcastTo, cString_padded plain]
  rfl

theorem said_bye (i : Slot) (sender : Option ℕ) (s : Server) :
    said i sender byeText s = (s.notify (s.fds i) .bye).closeSlot i := if_pos rfl

theorem said_empty (i : Slot) (sender : Option ℕ) (s : Server) : said i sender [] s = s := by
  rw [said, if_neg (by decide), if_pos rfl]

theorem said_spoken (plain : 0 ∉ t) (spoken : Spoken t) :
    said i sender t s = { s with broadcasts := s.broadcasts ++ [announcement s i sender t] } := by
  have notBye : t ≠ ascii ['b', 'y', 'e'] := spoken.2
  rw [said, if_neg notBye, if_neg spoken.1, broadcast_padded plain]

/-- The lines of a buffer, one after the other: what each of them keeps holds at the end and
    whenever a message is made, and the messages are those of the lines that are passed on,
    in their order. -/
theorem foldl_said_kept {P : Server → Prop} (kept : ∀ t u, P u → P (said i sender t u)) {lines : List Bytes}
    (plain : ∀ t ∈ lines, 0 ∉ t) (start : P s) :
    P (lines.foldl (fun u t => said i sender t u) s) ∧
      ∃ new, (lines.foldl (fun u t => said i sender t u) s).broadcasts = s.broadcasts ++ new ∧
        new.map Broadcast.line = lines.filter (fun t => Spoken t) ∧
        ∀ b ∈ new, ∃ u, P u ∧ b = announcement u i sender b.line ∧ b.line ∈ lines := by
  induction lines generalizing s with
  | nil => exact ⟨start, [], by simp, rfl, by simp⟩
  | cons t lines ih =>
    obtain ⟨plainT, plainLater⟩ := List.forall_mem_cons.mp plain
    obtain ⟨last, new, broadcasts, order, each⟩ := ih plainLater (kept t s start)
    have later : ∀ b ∈ new, ∃ u, P u ∧ b = announcement u i sender b.line ∧ b.line ∈ t :: lines := by
      intro b inside
      obtain ⟨u, holds, same, from_⟩ := each b inside
      exact ⟨u, holds, same, List.mem_cons_of_mem _ from_⟩
    rw [List.foldl_cons]
    refine ⟨last, ?_⟩
    by_cases spoken : Spoken t
    · refine ⟨announcement s i sender t :: new, ?_, ?_, ?_⟩
      · rw [broadcasts, said_spoken plainT spoken, List.append_assoc, List.singleton_append]
      · rw [List.map_cons, order, List.filter_cons_of_pos (by simpa using spoken)]
        rfl
      · intro b inside
        rcases List.mem_cons.mp inside with rfl | inside
        · exact ⟨s, start, rfl, List.mem_cons_self ..⟩
        · exact later b inside
    · refine ⟨new, ?_, ?_, later⟩
      · rw [broadcasts]
        congr 1
        rw [Spoken, not_and_or, not_not, not_not] at spoken
        rcases spoken with rfl | rfl
        · rw [said_empty]
        · rw [said_bye]
          rfl
      · rw [order, List.filter_cons_of_neg (by simpa using spoken)]

/-! ### The length of a message -/

/-- A slot has a number of at most two digits. -/
theorem length_decimal_index (i : Slot) : (decimal i.index).length ≤ 2 := by
  have below : i.index < 66 := Nat.add_lt_add_right i.isLt 2
  rw [decimal, ascii, List.length_map]
  exact (Nat.length_toDigits_le_iff (by decide) (by decide)).mpr (by omega)

theorem length_msgText (i : Slot) (t : Bytes) : (msgText i t).length = t.length + (decimal i.index).length + 4 := by
  simp only [msgText, ascii, List.length_append, List.length_map, List.length_cons, List.length_nil]
  omega

/-- The length of the text is not greater than what is stored of it when the array has room
    for all but the newline. -/
theorem m_le_iff (s : Server) (i : Slot) (sender : Option ℕ) (t : Bytes) :
    (announcement s i sender t).m ≤ (announcement s i sender t).msg.length ↔ t.length + (decimal i.index).length + 4 ≤ BUF_SZ := by
  simp only [announcement, List.length_append, List.length_take, List.length_singleton, length_msgText, BUF_SZ]
  omega

theorem receivers_ne_nil (s : Server) (i : Slot) : s.receivers i ≠ [] ↔ ∃ j, j ≠ i ∧ s.fds j ≠ -1 := by
  have none : s.receivers i = [] ↔ ∀ j, j = i ∨ s.fds j = -1 := by
    simp [receivers, slots, or_iff_not_imp_left]
  rw [ne_eq, none]
  simp

/-- A line changes no other slot. -/
theorem said_others (t : Bytes) (u : Server) (same : ∀ j, j ≠ i → u.fds j = s.fds j) :
    ∀ j, j ≠ i → (said i sender t u).fds j = s.fds j := by
  intro j other
  rw [said]
  split
  · exact (Function.update_of_ne other _ _).trans (same j other)
  · split
    · exact same j other
    · exact same j other

/-- For every buffer, every slot and every state of the table: the calls of `strchr`,
    `strncpy` and `trim_newline` stay inside their arrays, and no call of `write_all` is given
    a length greater than what is stored in `msg`, exactly when no other client is connected
    or every line has, without its end, at most 4092 bytes less the digits of the slot. -/
theorem lengths_iff (junk : ℕ → Fresh BUF_SZ) (size : s.buf.length = BUF_SZ) (i : Slot) (piece : Piece (BUF_SZ - 1)) :
    ∃ t new, s.read junk i piece = some t ∧ t.broadcasts = s.broadcasts ++ new ∧
      ((∀ b ∈ new, b.sentTo ≠ [] → b.m ≤ b.msg.length) ↔
        ((∃ j, j ≠ i ∧ s.fds j ≠ -1) →
          ∀ line ∈ linesOf 10 (cString piece.bytes), (trimmed line).length + (decimal i.index).length + 4 ≤ BUF_SZ)) := by
  obtain ⟨buf, -, read⟩ := read_eq junk size i piece
  have plain : ∀ t ∈ (linesOf 10 (cString piece.bytes)).map trimmed, 0 ∉ t := List.forall_mem_map.mpr fun line inside =>
    plain_trimmed (plain_lines piece.bytes line inside)
  obtain ⟨-, new, broadcasts, order, each⟩ := @foldl_said_kept { s with received := s.recorded (s.ledger.owner (s.fds i)) piece.bytes }
    i (s.ledger.owner (s.fds i)) (fun u => ∀ j, j ≠ i → u.fds j = s.fds j) (fun t u same => said_others t u same) _ plain fun _ _ => rfl
  refine ⟨_, new, read, broadcasts, ?_⟩
  constructor
  · rintro right ⟨j, other, used⟩ line inside
    by_cases spoken : Spoken (trimmed line)
    · have made : trimmed line ∈ new.map Broadcast.line := by
        rw [order]
        exact List.mem_filter.mpr ⟨List.mem_map_of_mem inside, by simpa using spoken⟩
      obtain ⟨b, there, same⟩ := List.mem_map.mp made
      obtain ⟨u, others, from_, -⟩ := each b there
      have receivers : b.sentTo ≠ [] := by
        rw [from_]
        exact (receivers_ne_nil u i).mpr ⟨j, other, others j other ▸ used⟩
      have fits := right b there receivers
      rwa [from_, m_le_iff, same] at fits
    · have digits := length_decimal_index i
      have short : (trimmed line).length ≤ 3 := by
        rw [Spoken, not_and_or, not_not, not_not] at spoken
        rcases spoken with none | bye
        · rw [none]
          decide
        · rw [bye]
          decide
      have room : 3 + 2 + 4 ≤ BUF_SZ := by decide
      omega
  · intro short b there receivers
    obtain ⟨u, others, from_, line⟩ := each b there
    rw [from_] at receivers
    obtain ⟨j, other, used⟩ := (receivers_ne_nil u i).mp receivers
    obtain ⟨line', inside, same⟩ := List.mem_map.mp line
    rw [from_, m_le_iff, ← same]
    exact short ⟨j, other, others j other ▸ used⟩ line' inside

end

/-- No other client is connected. -/
theorem lengths_iff_sample :
    ∃ t new, (start 3).read zeros firstSlot ⟨ascii ['h', 'i', '\n'], by decide, by decide⟩ = some t ∧ t.broadcasts = new ∧
      ∀ b ∈ new, b.sentTo ≠ [] → b.m ≤ b.msg.length := by
  obtain ⟨t, new, read, broadcasts, right⟩ :=
    lengths_iff zeros (s := start 3) List.length_replicate firstSlot ⟨ascii ['h', 'i', '\n'], by decide, by decide⟩
  exact ⟨t, new, read, broadcasts, right.mpr fun ⟨j, _, used⟩ => absurd rfl used⟩

/-- A buffer with one line. -/
theorem read_line {s : Server} (junk : ℕ → Fresh BUF_SZ) (size : s.buf.length = BUF_SZ) (i : Slot) {piece : Piece (BUF_SZ - 1)} {line : Bytes}
    (plain : 0 ∉ line) (clean : 10 ∉ line) (spoken : Spoken (trimmed line)) (bytes : piece.bytes = line ++ [10]) :
    ∃ t b, s.read junk i piece = some t ∧ t.broadcasts = s.broadcasts ++ [b] ∧ b.sentTo = s.receivers i ∧
      (b.m ≤ b.msg.length ↔ (trimmed line).length + (decimal i.index).length + 4 ≤ BUF_SZ) := by
  obtain ⟨buf, -, read⟩ := read_eq junk size i piece
  have text : cString piece.bytes = unlines 10 [line] ++ [] := by
    rw [bytes, cString_self (by simpa using plain)]
    simp
  have lines : linesOf 10 (cString piece.bytes) = [line] := by
    rw [text, (linesOf_unlines (by simpa using clean) (List.not_mem_nil)).1]
  refine ⟨_, _, read, ?_, rfl, m_le_iff { s with received := s.recorded (s.ledger.owner (s.fds i)) piece.bytes } i
    (s.ledger.owner (s.fds i)) (trimmed line)⟩
  rw [speak, lines, List.map_singleton, List.foldl_cons, List.foldl_nil, said_spoken (plain_trimmed plain) spoken]

/-- The longest line that `read` can return, from the first of two clients: the length is 4099. -/
theorem length_exceeds :
    ¬ ∀ (junk : ℕ → Fresh BUF_SZ) (s t : Server) (i : Slot) (piece : Piece (BUF_SZ - 1)), s.buf.length = BUF_SZ → s.read junk i piece = some t →
      ∀ b ∈ t.broadcasts, b.sentTo ≠ [] → b.m ≤ b.msg.length := by
  intro always
  let line : Bytes := List.replicate 4094 97
  have bytes (c : UInt8) (other : c ≠ 97) : c ∉ line := fun there => other (List.eq_of_mem_replicate there)
  have same : trimmed line = line := by
    refine List.rdropWhile_eq_self_iff.mpr fun _ => ?_
    rw [List.getLast_replicate]
    decide
  have spoken : Spoken (trimmed line) := by
    rw [same]
    refine ⟨?_, ?_⟩
    · intro none
      have length := congrArg List.length none
      rw [List.length_replicate] at length
      exact absurd length (by decide)
    · intro bye
      have length := congrArg List.length bye
      rw [List.length_replicate] at length
      exact absurd length (by decide)
  have fits : (line ++ [10]).length ≤ BUF_SZ - 1 := by
    rw [List.length_append, List.length_replicate]
    decide
  let s : Server := { start 3 with fds := Function.update (Function.update (fun _ => -1) firstSlot 5) ⟨1, by decide⟩ 6 }
  obtain ⟨t, b, read, broadcasts, receivers, short⟩ := @read_line s zeros List.length_replicate firstSlot ⟨line ++ [10], by simp, fits⟩ line
    (bytes 0 (by decide)) (bytes 10 (by decide)) spoken rfl
  have some_ : b.sentTo ≠ [] := by
    rw [receivers]
    exact (receivers_ne_nil s firstSlot).mpr ⟨⟨1, by decide⟩, by decide, by decide⟩
  have there : b ∈ t.broadcasts := by
    rw [broadcasts]
    exact List.mem_append_right _ (List.mem_singleton.mpr rfl)
  have long := short.mp (always zeros s t firstSlot _ List.length_replicate read b there some_)
  rw [same, List.length_replicate] at long
  exact absurd long (by decide)

end OsyProg.ChatMessages
