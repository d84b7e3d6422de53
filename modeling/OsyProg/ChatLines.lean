import OsyProg.ChatMessages
import OsyProg.ChatSlots
import Mathlib.Data.List.Nodup

/-!
What the clients of the chat server get to see of each other. The server takes each buffer
for whole lines, so it loses the part of a line that came in the buffer before, and it goes
through the rest of a buffer behind the line `bye`; and a client that has reset its
connection ends the server when it is written to. In runs in which nothing of that happens
(`Uncut`, `Stays`), with any number of clients and in any order of their data, the messages
are the lines of each client up to `bye`, in their order, with its slot, and each goes once
to every other client that is connected (`chat_delivers`).
-/
namespace OsyProg.ChatLines
open OsyProg.Bytes OsyProg.CStrings OsyProg.InputLines OsyProg.Lines OsyProg.Handles OsyProg.Runs
open OsyProg.ChatServer OsyProg.ChatServer.Server OsyProg.ChatMessages OsyProg.ChatSlots

/-! ### The lines of a client -/

/-- The lines of a text without their ends, up to the first line `bye`, and of these the ones
    that are not empty. -/
def spokenLines (text : Bytes) : List Bytes :=
  (((linesOf 10 text).map trimmed).takeWhile fun t => t ≠ byeText).filter fun t => t ≠ []

/-- In new data with these lines, the first line is no shorter for what was left of the data
    before, and behind a line `bye` there is nothing to be passed on. -/
structure Uncut (pending : Bytes) (lines : List Bytes) : Prop where
  joined : ∀ first later, lines = first :: later → trimmed (pending ++ first) = trimmed first
  behind : ∀ t ∈ (lines.map trimmed).dropWhile (fun t => t ≠ byeText), t = [] ∨ t = byeText

section
variable {text more : Bytes}

theorem trimmed_append (uncut : Uncut (restOf 10 text) (linesOf 10 more)) :
    (linesOf 10 (text ++ more)).map trimmed = (linesOf 10 text).map trimmed ++ (linesOf 10 more).map trimmed := by
  rw [linesOf_append, List.map_append]
  cases lines : linesOf 10 more with
  | nil => rfl
  | cons first later =>
    dsimp only
    rw [List.map_cons, List.map_cons, uncut.joined first later lines]

/-- A line of new data is no longer than the line that it ends. -/
theorem exists_longer {line : Bytes} (inside : line ∈ linesOf 10 more) :
    ∃ whole ∈ linesOf 10 (text ++ more), line.length ≤ whole.length := by
  rw [linesOf_append]
  cases lines : linesOf 10 more with
  | nil =>
    rw [lines] at inside
    cases inside
  | cons first later =>
    rw [lines] at inside
    rcases List.mem_cons.mp inside with rfl | inLater
    · refine ⟨restOf 10 text ++ line, List.mem_append_right _ (List.mem_cons_self ..), ?_⟩
      rw [List.length_append]
      exact Nat.le_add_left ..
    · exact ⟨line, List.mem_append_right _ (List.mem_cons_of_mem _ inLater), Nat.le_refl _⟩

/-- Up to `bye` it makes no difference whether empty lines are left out first. -/
theorem filter_spoken {ts : List Bytes} (behind : ∀ t ∈ ts.dropWhile (fun t => t ≠ byeText), t = [] ∨ t = byeText) :
    (ts.takeWhile fun t => t ≠ byeText).filter (fun t => t ≠ []) = ts.filter fun t => Spoken t := by
  have whole : ts = (ts.takeWhile fun t => t ≠ byeText) ++ ts.dropWhile fun t => t ≠ byeText := List.takeWhile_append_dropWhile.symm
  have none : (ts.dropWhile fun t => t ≠ byeText).filter (fun t => Spoken t) = [] := by
    refine List.filter_eq_nil_iff.mpr fun t inside => ?_
    rcases behind t inside with rfl | rfl <;> simp [Spoken]
  conv_rhs => rw [whole, List.filter_append, none, List.append_nil]
  refine List.filter_congr fun t inside => ?_
  have other : t ≠ byeText := by simpa using List.mem_takeWhile_imp inside
  simp [Spoken, other]

theorem spokenLines_append (still : byeText ∉ (linesOf 10 text).map trimmed) (uncut : Uncut (restOf 10 text) (linesOf 10 more)) :
    spokenLines (text ++ more) = spokenLines text ++ ((linesOf 10 more).map trimmed).filter fun t => Spoken t := by
  have others : ∀ t ∈ (linesOf 10 text).map trimmed, decide (t ≠ byeText) = true := by
    intro t inside
    have other : t ≠ byeText := fun same => still (same ▸ inside)
    simpa using other
  have all : ((linesOf 10 text).map trimmed).takeWhile (fun t => t ≠ byeText) = (linesOf 10 text).map trimmed := by
    simpa using others
  rw [spokenLines, trimmed_append uncut, List.takeWhile_append_of_pos others, List.filter_append, filter_spoken uncut.behind, spokenLines,
    all]

end

/-! ### To whom a message goes -/

/-- A message says the line with the slot of its sender, all of it is in the array, and it
    goes once to every other client that was connected when it was made. -/
structure Delivered (b : Broadcast) : Prop where
  inside : b.m ≤ b.msg.length
  text : b.msg.take b.m = msgText b.slot b.line
  clients : ∀ p ∈ b.sentTo, p.2 ≠ none
  others : ∀ c, some c ∈ b.sentTo.map Prod.snd ↔ (∃ fd, b.owner fd = some c) ∧ b.sender ≠ some c
  once : (b.sentTo.map Prod.snd).Nodup

section
variable {s u : Server} {i : Slot} {k : ℕ} {t : Bytes}

/-- The slot of the sender holds its connection, or the connection is closed and the slot free. -/
def Here (i : Slot) (k : ℕ) (u : Server) : Prop :=
  u.ledger.owner (u.fds i) = some k ∨ u.fds i = -1 ∧ ∀ fd, u.ledger.owner fd ≠ some k

theorem mem_receivers {p : ℤ × Option ℕ} :
    p ∈ u.receivers i ↔ ∃ j, j ≠ i ∧ u.fds j ≠ -1 ∧ p = (u.fds j, u.ledger.owner (u.fds j)) := by
  simp only [receivers, List.mem_filterMap, slots, List.mem_finRange, true_and, Option.ite_none_left_eq_some, not_or, Option.some.injEq]
  constructor
  · rintro ⟨j, ⟨other, used⟩, rfl⟩
    exact ⟨j, other, used, rfl⟩
  · rintro ⟨j, other, used, rfl⟩
    exact ⟨j, ⟨other, used⟩, rfl⟩

theorem receivers_nodup (holds : Holds u) (i : Slot) : ((u.receivers i).map Prod.snd).Nodup := by
  refine List.Nodup.map_on (fun p inside q inside' same => ?_) (List.Nodup.filterMap (fun j j' p first second => ?_) (List.nodup_finRange _))
  · obtain ⟨j, -, used, rfl⟩ := mem_receivers.mp inside
    obtain ⟨j', -, -, rfl⟩ := mem_receivers.mp inside'
    obtain ⟨c, owns⟩ := Option.ne_none_iff_exists'.mp (holds.table.used j used)
    have owns' : u.ledger.owner (u.fds j') = some c := same.symm.trans owns
    rw [holds.sound.single _ _ c owns owns']
  · obtain ⟨free, here⟩ := Option.ite_none_left_eq_some.mp (Option.mem_def.mp first)
    obtain ⟨-, here'⟩ := Option.ite_none_left_eq_some.mp (Option.mem_def.mp second)
    have same := congrArg Prod.fst (Option.some.inj (here.trans here'.symm))
    exact holds.table.distinct j j' same fun empty => free (.inr empty)

/-- No other slot holds the connection of the sender, and every other connection has a slot. -/
theorem others_iff (holds : Holds u) (here : Here i k u) (c : ℕ) :
    some c ∈ (u.receivers i).map Prod.snd ↔ (∃ fd, u.ledger.owner fd = some c) ∧ some k ≠ some c := by
  constructor
  · intro inside
    obtain ⟨p, receiver, owns⟩ := List.mem_map.mp inside
    obtain ⟨j, other, used, rfl⟩ := mem_receivers.mp receiver
    refine ⟨⟨u.fds j, owns⟩, ?_⟩
    intro same
    rw [← same] at owns
    rcases here with own | ⟨-, nowhere⟩
    · exact other (holds.table.distinct j i (holds.sound.single _ _ k owns own) used)
    · exact nowhere _ owns
  · rintro ⟨⟨fd, owns⟩, different⟩
    obtain ⟨j, rfl⟩ := holds.table.found fd (by rw [owns]; exact Option.some_ne_none c)
    have used : u.fds j ≠ -1 := by
      intro free
      rw [free, holds.table.unowned] at owns
      cases owns
    refine List.mem_map.mpr ⟨_, mem_receivers.mpr ⟨j, ?_, used, rfl⟩, owns⟩
    rintro rfl
    rcases here with own | ⟨free, -⟩
    · exact different (own.symm.trans owns)
    · exact used free

theorem delivered (holds : Holds u) (here : Here i k u) (short : t.length + (decimal i.index).length + 4 < BUF_SZ) :
    Delivered (announcement u i (some k) t) where
  inside := (m_le_iff u i (some k) t).mpr (Nat.le_of_lt short)
  text := by
    have room : (msgText i t).length ≤ BUF_SZ - 1 := by rw [length_msgText]; exact Nat.le_pred_of_lt short
    rw [announcement, List.take_of_length_le room, List.take_left]
  clients := by
    intro p inside
    obtain ⟨j, -, used, rfl⟩ := mem_receivers.mp inside
    exact holds.table.used j used
  others := others_iff holds here
  once := receivers_nodup holds i

/-- Messages of one connection. -/
theorem filter_sender {new : List Broadcast} (each : ∀ b ∈ new, b.sender = some k) (c : ℕ) :
    (new.filter fun b => b.sender = some c) = if c = k then new else [] := by
  split
  case isTrue same => exact List.filter_eq_self.mpr fun b inside => by simpa [same] using each b inside
  case isFalse other =>
    refine List.filter_eq_nil_iff.mpr fun b inside => ?_
    rw [each b inside]
    simpa using Ne.symm other

/-! ### What is still open -/

/-- Connections have been closed and slots freed, and nothing else has changed that matters here. -/
structure Less (s u : Server) : Prop where
  owner : ∀ fd c, u.ledger.owner fd = some c → s.ledger.owner fd = some c
  fds : ∀ j, u.fds j = s.fds j ∨ u.fds j = -1
  opened : u.ledger.opened = s.ledger.opened
  received : u.received = s.received
  slotOf : u.slotOf = s.slotOf

theorem Less.refl (s : Server) : Less s s := ⟨fun _ _ owns => owns, fun _ => .inl rfl, rfl, rfl, rfl⟩

theorem Less.trans {v : Server} (first : Less s u) (second : Less u v) : Less s v where
  owner := fun fd c owns => first.owner fd c (second.owner fd c owns)
  fds := by
    intro j
    rcases second.fds j with same | free
    · rw [same]
      exact first.fds j
    · exact .inr free
  opened := second.opened.trans first.opened
  received := second.received.trans first.received
  slotOf := second.slotOf.trans first.slotOf

theorem less_closeSlot (s : Server) (i : Slot) : Less s (s.closeSlot i) where
  owner := fun _ _ owns => (Ledger.owner_closes_iff.mp owns).2
  fds := by
    intro j
    by_cases here : j = i
    · exact .inr (here ▸ Function.update_self ..)
    · exact .inl (Function.update_of_ne here ..)
  opened := rfl
  received := rfl
  slotOf := rfl

theorem less_hangup (s : Server) (i : Slot) : Less s (s.hangup i) := by
  rw [hangup]
  split
  · exact less_closeSlot s i
  · exact Less.refl s

theorem less_said (i : Slot) (sender : Option ℕ) (t : Bytes) (s : Server) : Less s (said i sender t s) := by
  rw [said]
  split
  · obtain ⟨owner, fds, opened, received, slotOf⟩ := less_closeSlot (s.notify (s.fds i) .bye) i
    exact ⟨owner, fds, opened, received, slotOf⟩
  · split
    · exact Less.refl s
    · exact ⟨fun _ _ owns => owns, fun _ => .inl rfl, rfl, rfl, rfl⟩

/-- Closing the slot of the sender leaves its connection nowhere. -/
theorem closeSlot_nowhere (holds : Holds u) (here : Here i k u) (fd : ℤ) : (u.closeSlot i).ledger.owner fd ≠ some k := by
  intro owns
  obtain ⟨other, before⟩ := Ledger.owner_closes_iff.mp owns
  rcases here with own | ⟨-, nowhere⟩
  · exact other (holds.sound.single _ _ k before own)
  · exact nowhere fd before

theorem here_closeSlot (holds : Holds u) (here : Here i k u) : Here i k (u.closeSlot i) :=
  .inr ⟨Function.update_self .., closeSlot_nowhere holds here⟩

/-- A state between two lines of a buffer from the given slot and connection. -/
structure Within (s : Server) (i : Slot) (k : ℕ) (u : Server) : Prop where
  holds : Holds u
  here : Here i k u
  less : Less s u

theorem within_said (t : Bytes) (u : Server) (within : Within s i k u) : Within s i k (said i (some k) t u) := by
  refine ⟨holds_said within.holds i _ t, ?_, within.less.trans (less_said ..)⟩
  rw [said]
  split
  · have noticed : Holds (u.notify (u.fds i) .bye) := within.holds.same rfl rfl
    exact here_closeSlot noticed within.here
  · split
    · exact within.here
    · exact within.here

/-- When one of the lines is `bye`, the connection is closed. -/
theorem foldl_bye {lines : List Bytes} (within : Within s i k u) (plain : ∀ t ∈ lines, 0 ∉ t) (bye : byeText ∈ lines) (fd : ℤ) :
    (lines.foldl (fun u t => said i (some k) t u) u).ledger.owner fd ≠ some k := by
  induction lines generalizing u with
  | nil => cases bye
  | cons t lines ih =>
    obtain ⟨-, plainLater⟩ := List.forall_mem_cons.mp plain
    rw [List.foldl_cons]
    by_cases later : byeText ∈ lines
    · exact ih (within_said t u within) plainLater later
    · obtain rfl : byeText = t := (List.mem_cons.mp bye).resolve_right later
      have start : Less (said i (some k) byeText u) (said i (some k) byeText u) := Less.refl _
      obtain ⟨after, -⟩ := foldl_said_kept (fun t v less => less.trans (less_said i (some k) t v)) plainLater start
      intro owns
      have noticed : Holds (u.notify (u.fds i) .bye) := within.holds.same rfl rfl
      have before := after.owner fd k owns
      rw [said_bye] at before
      exact closeSlot_nowhere noticed within.here fd before

end

/-! ### All runs -/

/-- The data that a step reads from a client, after the data read from it before, is such. -/
def Sends (cond : Bytes → Bytes → Prop) (s : Server) (a : Answer) : Prop :=
  match s.pc, a with
  | .client i, .data piece => ∀ k, s.ledger.owner (s.fds i) = some k → cond (s.received k) piece.bytes
  | _, _ => True

/-- The data has no zero, and no line is too long for a message. -/
def Textual (before bytes : Bytes) : Prop := 0 ∉ bytes ∧ ∀ line ∈ linesOf 10 (before ++ bytes), line.length < BUF_SZ - 16

/-- The data does not cut a line, and has nothing to be passed on behind `bye`. -/
def Whole (before bytes : Bytes) : Prop := Uncut (restOf 10 before) (linesOf 10 bytes)

/-- No client has reset its connection when it is written to. -/
def Stays (_ : Server) (a : Answer) : Prop := ∀ piece lines writes, a ≠ .broken piece lines writes

/-- What was said: of each connection the messages are its lines up to `bye`, each once and in
    order; each message comes from the slot of its connection, and reaches all the others. -/
structure Says (s : Server) : Prop where
  lines : ∀ k, (s.broadcasts.filter fun b => b.sender = some k).map Broadcast.line = spokenLines (s.received k)
  delivered : ∀ b ∈ s.broadcasts, Delivered b ∧ ∃ k, b.sender = some k ∧ s.slotOf k = some b.slot

/-- An open connection has not said `bye`, and was put where it is; and nothing is known of
    the connections to come. -/
structure Knows (s : Server) : Prop where
  still : ∀ fd k, s.ledger.owner fd = some k → byeText ∉ (linesOf 10 (s.received k)).map trimmed
  placed : ∀ i k, s.ledger.owner (s.fds i) = some k → s.slotOf k = some i
  fresh : ∀ k, s.ledger.opened ≤ k → s.received k = [] ∧ s.slotOf k = none

section
variable {junk : ℕ → Fresh BUF_SZ} {listenfd : ℤ} {s t u : Server} {a : Answer} {i : Slot} {k : ℕ}

theorem Says.same (told : Says s) (broadcasts : u.broadcasts = s.broadcasts) (received : u.received = s.received)
    (slotOf : u.slotOf = s.slotOf) : Says u := by
  obtain ⟨lines, delivered⟩ := told
  rw [← broadcasts, ← received] at lines
  rw [← broadcasts, ← slotOf] at delivered
  exact ⟨lines, delivered⟩

theorem placed_less (holds : Holds s) (placed : ∀ i k, s.ledger.owner (s.fds i) = some k → s.slotOf k = some i) (less : Less s u) :
    ∀ i k, u.ledger.owner (u.fds i) = some k → u.slotOf k = some i := by
  intro i k owns
  rw [less.slotOf]
  rcases less.fds i with same | free
  · exact placed i k (same ▸ less.owner _ k owns)
  · have nothing := less.owner _ k owns
    rw [free, holds.table.unowned] at nothing
    cases nothing

theorem Knows.less (knows : Knows s) (holds : Holds s) (less : Less s u) : Knows u where
  still := by
    intro fd k owns
    rw [less.received]
    exact knows.still fd k (less.owner fd k owns)
  placed := placed_less holds knows.placed less
  fresh := by
    intro k later
    rw [less.received, less.slotOf]
    exact knows.fresh k (less.opened ▸ later)

theorem Knows.same (knows : Knows s) (holds : Holds s) (ledger : u.ledger = s.ledger) (fds : u.fds = s.fds)
    (received : u.received = s.received) (slotOf : u.slotOf = s.slotOf) : Knows u := by
  have opened := congrArg Ledger.opened ledger
  exact knows.less holds ⟨fun _ _ owns => ledger ▸ owns, fun _ => .inl (congrFun fds _), opened, received, slotOf⟩

variable {piece : Piece (BUF_SZ - 1)}

/-- Data of an open connection is taken line by line, and a line `bye` in it closes the connection. -/
theorem within_speak (holds : Holds s) (own : s.ledger.owner (s.fds i) = some k) (plain : 0 ∉ piece.bytes) :
    Within { s with received := s.recorded (some k) piece.bytes } i k (s.speak i piece) ∧
      (∃ new, (s.speak i piece).broadcasts = s.broadcasts ++ new ∧
        new.map Broadcast.line = ((linesOf 10 piece.bytes).map trimmed).filter (fun t => Spoken t) ∧
        ∀ b ∈ new, ∃ u, Within { s with received := s.recorded (some k) piece.bytes } i k u ∧
          b = announcement u i (some k) b.line ∧ b.line ∈ (linesOf 10 piece.bytes).map trimmed) ∧
      (byeText ∈ (linesOf 10 piece.bytes).map trimmed → ∀ fd, (s.speak i piece).ledger.owner fd ≠ some k) := by
  have plainLines : ∀ t ∈ (linesOf 10 (cString piece.bytes)).map trimmed, 0 ∉ t := List.forall_mem_map.mpr fun line inside =>
    plain_trimmed (plain_lines piece.bytes line inside)
  rw [cString_self plain] at plainLines
  have lines : s.speak i piece = ((linesOf 10 piece.bytes).map trimmed).foldl (fun u t => said i (some k) t u)
      { s with received := s.recorded (some k) piece.bytes } := by
    simp only [speak, own, cString_self plain]
  have start : Within { s with received := s.recorded (some k) piece.bytes } i k { s with received := s.recorded (some k) piece.bytes } :=
    ⟨holds.same rfl rfl, .inl own, Less.refl _⟩
  rw [lines]
  obtain ⟨last, messages⟩ := foldl_said_kept within_said plainLines start
  exact ⟨last, messages, foldl_bye start plainLines⟩

theorem speak_knows (holds : Holds s) (knows : Knows s) (own : s.ledger.owner (s.fds i) = some k) (plain : 0 ∉ piece.bytes)
    (whole : Whole (s.received k) piece.bytes) : Knows (s.speak i piece) := by
  obtain ⟨⟨-, -, less⟩, -, closes⟩ := within_speak holds own plain
  have holds' : Holds { s with received := s.recorded (some k) piece.bytes } := holds.same rfl rfl
  have heard : (s.speak i piece).received = Function.update s.received k (s.received k ++ piece.bytes) := less.received
  refine ⟨?_, placed_less holds' knows.placed less, ?_⟩
  · intro fd c owns
    have before : s.ledger.owner fd = some c := less.owner fd c owns
    rw [heard]
    by_cases same : c = k
    · subst same
      rw [Function.update_self, trimmed_append whole, List.mem_append, not_or]
      exact ⟨knows.still fd c before, fun bye => closes bye fd owns⟩
    · rw [Function.update_of_ne same]
      exact knows.still fd c before
  · intro c later
    have other : c ≠ k := by
      have := (holds.sound.open_ _ k own).1
      have : s.ledger.opened ≤ c := less.opened ▸ later
      omega
    rw [heard, Function.update_of_ne other, less.slotOf]
    exact knows.fresh c (less.opened ▸ later)

theorem speak_says (holds : Holds s) (knows : Knows s) (told : Says s) (own : s.ledger.owner (s.fds i) = some k)
    (textual : Textual (s.received k) piece.bytes) (whole : Whole (s.received k) piece.bytes) : Says (s.speak i piece) := by
  obtain ⟨plain, short⟩ := textual
  obtain ⟨⟨-, -, less⟩, ⟨new, broadcasts, order, each⟩, -⟩ := within_speak holds own plain
  have heard : (s.speak i piece).received = Function.update s.received k (s.received k ++ piece.bytes) := less.received
  have sender : ∀ b ∈ new, b.sender = some k := by
    intro b inside
    obtain ⟨u, -, made, -⟩ := each b inside
    rw [made]
    rfl
  refine ⟨?_, ?_⟩
  · intro c
    rw [broadcasts, List.filter_append, List.map_append, told.lines c, heard, filter_sender sender c]
    by_cases same : c = k
    · subst same
      rw [if_pos rfl, order, Function.update_self, spokenLines_append (knows.still _ c own) whole]
    · rw [if_neg same, Function.update_of_ne same, List.map_nil, List.append_nil]
  · intro b inside
    rw [broadcasts] at inside
    rw [less.slotOf]
    rcases List.mem_append.mp inside with old | made
    · exact told.delivered b old
    · obtain ⟨u, ⟨holdsU, here, -⟩, from_, line⟩ := each b made
      obtain ⟨line', inData, same⟩ := List.mem_map.mp line
      obtain ⟨longer, inText, le⟩ := @exists_longer (s.received k) _ _ inData
      have room : b.line.length + (decimal i.index).length + 4 < BUF_SZ := by
        have below := short longer inText
        have trims := length_trimmed line'
        have digits := length_decimal_index i
        have size : 16 < BUF_SZ := by decide
        rw [same] at trims
        omega
      rw [from_]
      exact ⟨delivered holdsU here room, k, rfl, knows.placed i k own⟩

/-- A new connection in a free slot, of which nothing was known. -/
theorem opens_says {cfd : ℤ} (holds : Holds s) (knows : Knows s) (told : Says s) (valid : 0 ≤ cfd) (fresh : s.ledger.owner cfd = none)
    (ledger : u.ledger = s.ledger.opens cfd) (fds : u.fds = Function.update s.fds i cfd)
    (slotOf : u.slotOf = Function.update s.slotOf s.ledger.opened (some i)) (received : u.received = s.received)
    (broadcasts : u.broadcasts = s.broadcasts) : Says u ∧ Knows u := by
  obtain ⟨nothing, nowhere⟩ := knows.fresh _ (Nat.le_refl s.ledger.opened)
  have earlier (fd : ℤ) (k : ℕ) (owns : s.ledger.owner fd = some k) : k ≠ s.ledger.opened :=
    Nat.ne_of_lt (holds.sound.open_ fd k owns).1
  refine ⟨⟨?_, ?_⟩, ⟨?_, ?_, ?_⟩⟩
  · rw [broadcasts, received]
    exact told.lines
  · intro b inside
    rw [broadcasts] at inside
    obtain ⟨delivered, k, sender, slot⟩ := told.delivered b inside
    have other : k ≠ s.ledger.opened := by
      rintro rfl
      rw [nowhere] at slot
      cases slot
    rw [slotOf]
    exact ⟨delivered, k, sender, (Function.update_of_ne other _ _).trans slot⟩
  · intro fd k owns
    rw [received]
    rw [ledger] at owns
    rcases Ledger.owner_opens_iff.mp owns with ⟨-, rfl⟩ | ⟨-, old⟩
    · rw [nothing]
      exact List.not_mem_nil
    · exact knows.still fd k old
  · intro j k owns
    rw [ledger, fds] at owns
    rw [slotOf]
    rcases Ledger.owner_opens_iff.mp owns with ⟨new, rfl⟩ | ⟨other, old⟩
    · -- No other slot holds the new descriptor, which was not open.
      have here : j = i := by
        by_contra elsewhere
        rw [Function.update_of_ne elsewhere] at new
        exact holds.table.used j (by omega) (new ▸ fresh)
      rw [here, Function.update_self]
    · have elsewhere : j ≠ i := by
        rintro rfl
        exact other (Function.update_self ..)
      rw [Function.update_of_ne elsewhere] at old
      rw [Function.update_of_ne (earlier _ k old)]
      exact knows.placed j k old
  · intro k later
    rw [ledger] at later
    have later' : s.ledger.opened + 1 ≤ k := later
    have other : k ≠ s.ledger.opened := by omega
    rw [received, slotOf, Function.update_of_ne other]
    exact knows.fresh k (by omega)

/-- A new connection that is closed at once. -/
theorem opens_closes_says {cfd : ℤ} (knows : Knows s) (told : Says s) (fresh : s.ledger.owner cfd = none)
    (ledger : u.ledger = (s.ledger.opens cfd).closes cfd) (fds : u.fds = s.fds) (slotOf : u.slotOf = s.slotOf)
    (received : u.received = s.received) (broadcasts : u.broadcasts = s.broadcasts) : Says u ∧ Knows u := by
  have owner : u.ledger.owner = s.ledger.owner := by rw [ledger, Ledger.owner_opens_closes fresh]
  refine ⟨told.same broadcasts received slotOf, ⟨?_, ?_, ?_⟩⟩
  · rw [owner, received]
    exact knows.still
  · rw [owner, fds, slotOf]
    exact knows.placed
  · intro k later
    rw [ledger] at later
    have later' : s.ledger.opened + 1 ≤ k := later
    rw [received, slotOf]
    exact knows.fresh k (by omega)

theorem place_says (holds : Holds s) (knows : Knows s) (told : Says s) {cfd : ℤ} (valid : 0 ≤ cfd) (fresh : s.ledger.owner cfd = none) :
    Says (s.place cfd) ∧ Knows (s.place cfd) := by
  rcases find_free s with ⟨i, -, found⟩ | ⟨-, found⟩
  · rw [place, found]
    exact opens_says holds knows told valid fresh rfl rfl rfl rfl rfl
  · rw [place, found]
    exact opens_closes_says knows told fresh rfl rfl rfl rfl rfl

theorem broadcasts_hangup (s : Server) (i : Slot) : (s.hangup i).broadcasts = s.broadcasts := by
  rw [hangup]
  split <;> rfl

/-- The end of a round of the loop over the clients. -/
theorem hangup_says (holds : Holds s) (knows : Knows s) (told : Says s) (i : Slot) (pc : Pc) :
    Says { s.hangup i with pc } ∧ Knows { s.hangup i with pc } := by
  have less := less_hangup s i
  have after := told.same (broadcasts_hangup s i) less.received less.slotOf
  exact ⟨after.same rfl rfl rfl, (knows.less holds less).same (holds_hangup holds i) rfl rfl rfl rfl⟩

/-- What a step has done keeps it, while the server runs; nothing is sent when it ends. -/
theorem did_says (holds : Holds s) (knows : Knows s) (told : Says s) (textual : Sends Textual s a) (whole : Sends Whole s a)
    (stays : Stays s a) (did : Did s a t) : Says t ∧ (t.pc ≠ .quit ∧ t.pc ≠ .failed → Knows t) := by
  cases did with
  | idle _ pc revents stdinReady buf size goes => exact ⟨told.same rfl rfl rfl, fun _ => knows.same holds rfl rfl rfl rfl⟩
  | failed _ => exact ⟨told.same rfl rfl rfl, fun goes => absurd rfl goes.2⟩
  | accepted cfd pc valid fresh here goes =>
    obtain ⟨after, known⟩ := place_says holds knows told valid fresh
    exact ⟨after.same rfl rfl rfl, fun _ => known.same (holds_place holds valid fresh) rfl rfl rfl rfl⟩
  | quit _ buf size => exact ⟨told.same rfl rfl rfl, fun goes => absurd rfl goes.1⟩
  | hungUp _ i pc goes =>
    obtain ⟨after, known⟩ := hangup_says holds knows told i pc
    exact ⟨after, fun _ => known⟩
  | closed _ i pc goes =>
    have closed : Says (s.closeSlot i) := told.same rfl rfl rfl
    obtain ⟨after, known⟩ := hangup_says (holds_closeSlot holds i) (knows.less holds (less_closeSlot s i)) closed i pc
    exact ⟨after, fun _ => known⟩
  | spoke i piece buf pc size here used goes =>
    obtain ⟨k, own⟩ := Option.ne_none_iff_exists'.mp (holds.table.used i used)
    simp only [Sends, here] at textual whole
    have spoken := holds_speak holds i piece
    have after := speak_says holds knows told own (textual k own) (whole k own)
    have known := speak_knows holds knows own (textual k own).1 (whole k own)
    have filled : Holds { s.speak i piece with buf } := spoken.same rfl rfl
    obtain ⟨after, known⟩ := hangup_says filled (known.same spoken rfl rfl rfl rfl) (after.same rfl rfl rfl) i pc
    exact ⟨after, fun _ => known⟩
  | killed i piece lines writes ts buf broadcasts size => exact absurd rfl (stays piece lines writes)

/-- What holds in every state of such a run. -/
structure Agrees (s : Server) : Prop where
  table : ChatSlots.Invariant s
  told : Says s
  knows : s.pc ≠ .quit ∧ s.pc ≠ .failed → Knows s

theorem start_agrees (listenfd : ℤ) : Agrees (start listenfd) where
  table := start_invariant listenfd
  told := ⟨fun _ => rfl, fun _ inside => by cases inside⟩
  knows := fun _ => ⟨fun _ _ owns => (by cases owns), fun _ _ owns => (by cases owns), fun _ _ => ⟨rfl, rfl⟩⟩

theorem step_agrees (inv : Agrees s) (sends : (Sends Textual s a ∧ Sends Whole s a) ∧ Stays s a) (taken : step junk s a = some t) : Agrees t := by
  obtain ⟨running, did⟩ := step_did inv.table.size taken
  obtain ⟨told, knows⟩ := did_says (inv.table.holds running) (inv.knows running) inv.told sends.1.1 sends.1.2 sends.2 did
  exact ⟨step_invariant inv.table taken, told, knows⟩

/-- Steps without data meet every condition on the data. -/
theorem allSteps_quiet (cond : Bytes → Bytes → Prop) (s : Server) {moves : List Answer} (quiet : ∀ a ∈ moves, ∀ piece, a ≠ .data piece) :
    AllSteps (step junk) (Sends cond) s moves := by
  induction moves generalizing s with
  | nil => trivial
  | cons a moves ih =>
    obtain ⟨here, later⟩ := List.forall_mem_cons.mp quiet
    refine ⟨?_, fun t _ => ih t later⟩
    unfold Sends
    split
    · exact absurd rfl (here _)
    · trivial

theorem step_data (here : s.pc = .client i) (reads : s.reads i) (size : s.buf.length = BUF_SZ) (piece : Piece (BUF_SZ - 1)) :
    ∃ buf, step junk s (.data piece) = some ((({ s.speak i piece with buf } : Server).hangup i).next i) := by
  obtain ⟨buf, -, spoke⟩ := read_eq junk size i piece
  refine ⟨buf, ?_⟩
  unfold step
  rw [here]
  dsimp only
  rw [if_pos reads, spoke, Option.map_some]

/-- In every run, with any number of clients and their data in any order, whose data has no
    zeros and no line that is too long, is not cut within a line and has only empty lines
    behind `bye`, and in which nothing is written to a client that is gone: in every state the messages are the lines of each client up to `bye`, in
    their order and each once, with the slot of the client, and each was sent to every other
    client that was connected. -/
theorem chat_delivers (junk : ℕ → Fresh BUF_SZ) (listenfd : ℤ) {moves : List Answer}
    (textual : AllSteps (step junk) (Sends Textual) (start listenfd) moves)
    (whole : AllSteps (step junk) (Sends Whole) (start listenfd) moves)
    (stay : AllSteps (step junk) Stays (start listenfd) moves) :
    AllStates (step junk) Says (start listenfd) moves := by
  have kept : ∀ s a t, Agrees s → (Sends Textual s a ∧ Sends Whole s a) ∧ Stays s a → step junk s a = some t → Agrees t :=
    fun _ _ _ inv sends taken => step_agrees inv sends taken
  have all := allStates_of kept (start_agrees listenfd) (allSteps_and (allSteps_and textual whole) stay)
  exact allStates_mono (fun _ inv => inv.told) all

end

/-! ### Two clients -/

/-- Two clients connect, and there is data from the first of them. -/
def meeting : List Answer :=
  [.polled true false fun _ => .none, .accepted 5] ++ List.replicate MAX_CLIENTS .go ++
    [.polled true false fun i => { pollin := i = firstSlot, pollhup := false, pollerr := false }, .accepted 6]

/-- Before the first data is read. -/
structure Met (s : Server) : Prop where
  run : exec (step zeros) (start 3) meeting = some s
  here : s.pc = .client firstSlot
  reads : s.reads firstSlot
  first : s.ledger.owner (s.fds firstSlot) = some 0
  received : s.received 0 = []
  broadcasts : s.broadcasts = []

theorem exists_met : ∃ s, Met s := by
  obtain ⟨s, run, seen⟩ : ∃ s, exec (step zeros) (start 3) meeting = some s ∧
      (s.pc, decide (s.reads firstSlot), s.ledger.owner (s.fds firstSlot), (s.received 0).length, s.broadcasts.length) =
        (.client firstSlot, true, some 0, 0, 0) :=
    Option.map_eq_some_iff.mp (by decide)
  simp only [Prod.mk.injEq, decide_eq_true_eq, List.length_eq_zero_iff] at seen
  obtain ⟨here, reads, first, received, broadcasts⟩ := seen
  exact ⟨s, run, here, reads, first, received, broadcasts⟩

section
variable {s : Server}

theorem met_run (met : Met s) (piece : Piece (BUF_SZ - 1)) :
    ∃ buf, exec (step zeros) (start 3) (meeting ++ [.data piece]) =
      some ((({ s.speak firstSlot piece with buf } : Server).hangup firstSlot).next firstSlot) := by
  have size := (ChatSlots.reachable_invariant ⟨_, met.run⟩).size
  obtain ⟨buf, taken⟩ := @step_data zeros s firstSlot met.here met.reads size piece
  exact ⟨buf, exec_append_iff.mpr ⟨s, met.run, exec_cons_iff.mpr ⟨_, taken, exec_nil _⟩⟩⟩

theorem met_sends (cond : Bytes → Bytes → Prop) (piece : Piece (BUF_SZ - 1)) (such : cond [] piece.bytes) :
    AllSteps (step zeros) (Sends cond) (start 3) (meeting ++ [.data piece]) := by
  have quiet : ∀ a ∈ meeting, ∀ piece, a ≠ .data piece := by
    rintro a inside piece rfl
    simp [meeting] at inside
  refine allSteps_append.mpr ⟨allSteps_quiet cond _ quiet, fun t run => ⟨?_, fun _ _ => trivial⟩⟩
  obtain ⟨s, met⟩ := exists_met
  obtain rfl := Option.some.inj (met.run.symm.trans run)
  simp only [Sends, met.here]
  intro k own
  obtain rfl := Option.some.inj (met.first.symm.trans own)
  rwa [met.received]

end

/-- The first client says hi. -/
theorem chat_delivers_sample :
    ∃ s, exec (step zeros) (start 3) (meeting ++ [.data ⟨ascii ['h', 'i', '\n'], by decide, by decide⟩]) = some s ∧ Says s := by
  let piece : Piece (BUF_SZ - 1) := ⟨ascii ['h', 'i', '\n'], by decide, by decide⟩
  obtain ⟨s, met⟩ := exists_met
  obtain ⟨buf, run⟩ := met_run met piece
  have textual : Textual [] piece.bytes := by
    unfold Textual
    decide
  have whole : Whole [] piece.bytes := ⟨fun _ _ _ => rfl, by decide⟩
  have stay : ∀ a ∈ meeting ++ [.data piece], ∀ piece lines writes, a ≠ .broken piece lines writes := by
    rintro a inside piece lines writes rfl
    simp [meeting] at inside
  have all := chat_delivers zeros 3 (met_sends Textual piece textual) (met_sends Whole piece whole) (allSteps_mem _ stay)
  exact ⟨_, run, allStates_last all run⟩

/-- The first client says hi to the second behind a line `bye` in the same data. -/
theorem bye_overrun :
    ¬ ∀ (junk : ℕ → Fresh BUF_SZ) (listenfd : ℤ) (moves : List Answer), AllSteps (step junk) (Sends Textual) (start listenfd) moves →
      AllStates (step junk) Says (start listenfd) moves := by
  intro always
  let piece : Piece (BUF_SZ - 1) := ⟨ascii ['b', 'y', 'e', '\n', 'h', 'i', '\n'], by decide, by decide⟩
  obtain ⟨s, met⟩ := exists_met
  obtain ⟨buf, run⟩ := met_run met piece
  have textual : Textual [] piece.bytes := by
    unfold Textual
    decide
  have told := (allStates_last (always zeros 3 _ (met_sends Textual piece textual)) run).lines 0
  have holds := (ChatSlots.reachable_invariant ⟨_, met.run⟩).holds (by simp [met.here])
  have plain : 0 ∉ piece.bytes := by decide
  obtain ⟨⟨-, -, less⟩, ⟨new, broadcasts, order, each⟩, -⟩ := within_speak holds met.first plain
  have sender : ∀ b ∈ new, b.sender = some 0 := by
    intro b inside
    obtain ⟨u, -, made, -⟩ := each b inside
    rw [made]
    rfl
  have heard : (s.speak firstSlot piece).received 0 = piece.bytes := by
    rw [less.received]
    show Function.update s.received 0 (s.received 0 ++ piece.bytes) 0 = piece.bytes
    rw [Function.update_self, met.received, List.nil_append]
  have said : new.map Broadcast.line = spokenLines piece.bytes := by
    rw [met.broadcasts, List.nil_append] at broadcasts
    have after : (({ s.speak firstSlot piece with buf } : Server).hangup firstSlot).broadcasts = (s.speak firstSlot piece).broadcasts :=
      broadcasts_hangup ..
    have later : (({ s.speak firstSlot piece with buf } : Server).hangup firstSlot).received = (s.speak firstSlot piece).received :=
      (less_hangup ..).received
    dsimp only [next] at told
    rwa [after, later, broadcasts, filter_sender sender, if_pos rfl, heard] at told
  rw [order] at said
  exact absurd said (by decide)

end OsyProg.ChatLines
