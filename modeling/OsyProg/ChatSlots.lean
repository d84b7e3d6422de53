import OsyProg.ChatServer

/-!
The table of descriptors of the chat server. In every state of a run the slots in use hold
the descriptors of the open connections, each once, whatever happens to a slot in a round
and in whatever order (`Holds`, one lemma for each thing that is done to the table). With
it go that no connection is closed twice, that one without a free slot is closed at once,
and that nothing is left open by the command `quit` (`slots_kept`).
-/
namespace OsyProg.ChatSlots
open OsyProg.Bytes OsyProg.InputLines OsyProg.Handles OsyProg.Runs OsyProg.ChatServer OsyProg.ChatServer.Server

/-- The table holds the open connections, and each connection is open or was closed once. -/
structure Holds (s : Server) : Prop where
  sound : s.ledger.Sound
  valid : ∀ fd, s.ledger.owner fd ≠ none → 0 ≤ fd
  table : Mirrors (-1) s.fds s.ledger

section
variable {s : Server}

/-- Nothing but the table and what is open matters. -/
theorem Holds.same {u : Server} (holds : Holds s) (ledger : u.ledger = s.ledger) (fds : u.fds = s.fds) : Holds u := by
  obtain ⟨sound, valid, table⟩ := holds
  rw [← ledger] at sound valid table
  rw [← fds] at table
  exact ⟨sound, valid, table⟩

theorem valid_closes (valid : ∀ fd, s.ledger.owner fd ≠ none → 0 ≤ fd) (closed : ℤ) :
    ∀ fd, (s.ledger.closes closed).owner fd ≠ none → 0 ≤ fd := by
  intro fd owned
  by_cases same : fd = closed
  · rw [same, Ledger.owner_closes_self] at owned
    exact absurd rfl owned
  · rw [Ledger.owner_closes same] at owned
    exact valid fd owned

/-- On each of the paths that end a client, and for a slot that is free already. -/
theorem holds_closeSlot (holds : Holds s) (i : Slot) : Holds (s.closeSlot i) where
  sound := holds.sound.closes _
  valid := valid_closes holds.valid _
  table := holds.table.closes i

theorem holds_hangup (holds : Holds s) (i : Slot) : Holds (s.hangup i) := by
  rw [hangup]
  split
  · exact holds_closeSlot holds i
  · exact holds

theorem holds_said (holds : Holds s) (i : Slot) (sender : Option ℕ) (t : Bytes) : Holds (said i sender t s) := by
  rw [said]
  split
  · have noticed : Holds (s.notify (s.fds i) .bye) := holds.same rfl rfl
    exact holds_closeSlot noticed i
  · split
    · exact holds
    · exact holds.same rfl rfl

/-- Several lines of one buffer may end the same client. -/
theorem holds_heard (holds : Holds s) (i : Slot) (piece : Piece (BUF_SZ - 1)) (ts : List Bytes) : Holds (s.heard i piece ts) := by
  rw [heard]
  have start : Holds { s with received := s.recorded (s.ledger.owner (s.fds i)) piece.bytes } := holds.same rfl rfl
  generalize ({ s with received := s.recorded (s.ledger.owner (s.fds i)) piece.bytes } : Server) = u at start
  induction ts generalizing u with
  | nil => exact start
  | cons t ts ih => exact ih _ (holds_said start i _ t)

theorem holds_speak (holds : Holds s) (i : Slot) (piece : Piece (BUF_SZ - 1)) : Holds (s.speak i piece) :=
  holds_heard holds i piece _

/-- What `place` finds: a free slot, or that no slot is free. -/
theorem find_free (s : Server) :
    (∃ i, s.fds i = -1 ∧ (slots.find? fun i => s.fds i = -1) = some i) ∨
      (∀ i, s.fds i ≠ -1) ∧ (slots.find? fun i => s.fds i = -1) = none := by
  cases found : slots.find? fun i => s.fds i = -1 with
  | some i => exact .inl ⟨i, by simpa using List.find?_some found, rfl⟩
  | none =>
    rw [List.find?_eq_none] at found
    exact .inr ⟨fun i => by simpa using found i (List.mem_finRange i), rfl⟩

/-- A client without a free slot is turned away. -/
theorem place_full (full : ∀ i, s.fds i ≠ -1) (cfd : ℤ) :
    (s.place cfd).fds = s.fds ∧ (s.place cfd).ledger = (s.ledger.opens cfd).closes cfd := by
  have nothing : (slots.find? fun i => s.fds i = -1) = none := by
    rcases find_free s with ⟨i, free, -⟩ | ⟨-, nothing⟩
    · exact absurd free (full i)
    · exact nothing
  rw [place, nothing]
  exact ⟨rfl, rfl⟩

theorem holds_place (holds : Holds s) {cfd : ℤ} (valid : 0 ≤ cfd) (fresh : s.ledger.owner cfd = none) : Holds (s.place cfd) := by
  rcases find_free s with ⟨i, free, found⟩ | ⟨full, -⟩
  · rw [place, found]
    refine ⟨holds.sound.opens fresh, ?_, holds.table.opens free fresh (by omega)⟩
    intro fd owned
    by_cases same : fd = cfd
    · rwa [same]
    · rw [Ledger.owner_opens same] at owned
      exact holds.valid fd owned
  · obtain ⟨fds, ledger⟩ := place_full full cfd
    refine ⟨?_, ?_, ?_⟩
    · rw [ledger]
      exact (holds.sound.opens fresh).closes cfd
    · rw [ledger, Ledger.owner_opens_closes fresh]
      exact holds.valid
    · rw [ledger, fds]
      exact holds.table.opens_closes fresh

end

/-! ### All runs -/

/-- What holds in every state of a run: of the table while the server runs, and of the
    connections after the command. -/
structure Invariant (s : Server) : Prop where
  size : s.buf.length = BUF_SZ
  sound : s.ledger.Sound
  holds : s.pc ≠ .quit ∧ s.pc ≠ .failed → Holds s
  emptied : s.pc = .quit → ∀ c < s.ledger.opened, s.ledger.timesClosed c = 1

section
variable {junk : ℕ → Fresh BUF_SZ} {listenfd : ℤ} {s t : Server} {a : Answer}

theorem start_invariant (listenfd : ℤ) : Invariant (start listenfd) where
  size := List.length_replicate
  sound := Ledger.sound_start
  holds := fun _ => {
    sound := Ledger.sound_start
    valid := fun _ owned => absurd rfl owned
    table := ⟨rfl, fun _ used => absurd rfl used, fun _ owned => absurd rfl owned, fun _ _ _ used => absurd rfl used⟩ }
  emptied := fun quit => by cases quit

theorem size_hangup (size : s.buf.length = BUF_SZ) (i : Slot) : (s.hangup i).buf.length = BUF_SZ := by
  rw [hangup]
  split <;> exact size

theorem size_place (size : s.buf.length = BUF_SZ) (cfd : ℤ) : (s.place cfd).buf.length = BUF_SZ := by
  rw [place]
  split <;> exact size

/-- A state in which the server goes on. -/
theorem invariant_of_holds {pc : Pc} (size : s.buf.length = BUF_SZ) (holds : Holds s) (goes : pc ≠ .quit ∧ pc ≠ .failed) :
    Invariant { s with pc } where
  size := size
  sound := holds.sound
  holds := fun _ => holds.same rfl rfl
  emptied := fun quit => absurd quit goes.1

theorem invariant_quit {buf : Bytes} (size : buf.length = BUF_SZ) (holds : Holds s) :
    Invariant { s with buf, ledger := (closesAll (-1) s.fds s.ledger slots).closes s.listenfd, pc := .quit } := by
  have every : ∀ i : Slot, i ∈ slots := List.mem_finRange
  obtain ⟨sound, opened⟩ := @closesAll_sound _ _ (-1) s.fds _ _ holds.sound slots
  refine ⟨size, sound.closes _, fun goes => absurd rfl goes.1, ?_⟩
  intro _ c before
  have closed := closesAll_closed holds.sound holds.table every (Nat.lt_of_lt_of_eq before opened)
  have most := (sound.closes s.listenfd).timesClosed_le c
  dsimp only
  rw [Ledger.timesClosed_closes, closed] at most ⊢
  omega

theorem step_invariant (inv : Invariant s) (taken : step junk s a = some t) : Invariant t := by
  obtain ⟨running, did⟩ := step_did inv.size taken
  have holds := inv.holds running
  cases did with
  | idle _ pc revents stdinReady buf size goes =>
    exact ⟨size, holds.sound, fun _ => holds.same rfl rfl, fun quit => absurd quit goes.1⟩
  | failed _ =>
    exact ⟨inv.size, holds.sound.closes _, fun goes => absurd rfl goes.2, fun quit => by cases quit⟩
  | accepted cfd pc valid fresh here goes =>
    exact invariant_of_holds (size_place inv.size cfd) (holds_place holds valid fresh) goes
  | quit _ buf size => exact invariant_quit size holds
  | hungUp _ i pc goes => exact invariant_of_holds (size_hangup inv.size i) (holds_hangup holds i) goes
  | closed _ i pc goes =>
    have size : (s.closeSlot i).buf.length = BUF_SZ := inv.size
    exact invariant_of_holds (size_hangup size i) (holds_hangup (holds_closeSlot holds i) i) goes
  | spoke i piece buf pc size here used goes =>
    have spoken : Holds { s.speak i piece with buf } := (holds_speak holds i piece).same rfl rfl
    exact invariant_of_holds (size_hangup size i) (holds_hangup spoken i) goes
  | killed i piece lines writes ts buf broadcasts size =>
    have heard := holds_heard holds i piece ts
    exact ⟨size, heard.sound, fun _ => heard.same rfl rfl, fun quit => by cases quit⟩

theorem reachable_invariant (reached : Reachable (step junk) (start listenfd) s) : Invariant s :=
  reachable_kept (fun _ _ _ inv taken => step_invariant inv taken) (start_invariant listenfd) reached

/-- The slots in use hold, each once, the connections that were accepted and are not closed yet. -/
structure TableOk (s : Server) : Prop where
  free : ∀ i, s.fds i < 0 → s.fds i = -1
  distinct : ∀ i j, 0 ≤ s.fds i → s.fds i = s.fds j → i = j
  clients : ∀ i, 0 ≤ s.fds i → ∃ c, s.ledger.owner (s.fds i) = some c
  exact_ : ∀ c, (∃ i, 0 ≤ s.fds i ∧ s.ledger.owner (s.fds i) = some c) ↔ c < s.ledger.opened ∧ s.ledger.timesClosed c = 0

theorem Holds.tableOk (holds : Holds s) : TableOk s := by
  have used (i : Slot) (negative : s.fds i ≠ -1) : 0 ≤ s.fds i := holds.valid _ (holds.table.used i negative)
  refine ⟨?_, ?_, ?_, fun c => ⟨?_, ?_⟩⟩
  · intro i negative
    by_contra other
    have := used i other
    omega
  · intro i j valid same
    exact holds.table.distinct i j same (by omega)
  · intro i valid
    exact Option.ne_none_iff_exists'.mp (holds.table.used i (by omega))
  · rintro ⟨i, -, owns⟩
    exact holds.sound.open_ _ c owns
  · rintro ⟨before, unclosed⟩
    by_contra nowhere
    have closed := holds.sound.closed c before fun fd owns => by
      obtain ⟨i, rfl⟩ := holds.table.found fd (by rw [owns]; exact Option.some_ne_none c)
      exact nowhere ⟨i, holds.valid _ (by rw [owns]; exact Option.some_ne_none c), owns⟩
    omega

theorem step_accepted {cfd : ℤ} (taken : step junk s (.accepted cfd) = some t) :
    s.ledger.owner cfd = none ∧ t = (s.place cfd).afterAccept := by
  unfold step at taken
  split at taken
  case h_5 other here same =>
    cases same
    obtain ⟨⟨-, fresh, -⟩, ⟨⟩⟩ := Option.ite_none_right_eq_some.mp taken
    exact ⟨fresh, rfl⟩
  case h_16 => cases taken
  all_goals
    rename_i same
    cases same

/-- In every run, with any answers that the system can give: at the start of every round the
    slots in use hold the connections that were accepted and not closed yet, each once; no
    connection is closed twice; one that is accepted when no slot is free is closed in the
    same step; after the command `quit` all are closed; and there always is a next state. -/
theorem slots_kept (reached : Reachable (step junk) (start listenfd) s) :
    (s.pc = .poll → TableOk s) ∧
      (∀ c, s.ledger.timesClosed c ≤ 1) ∧
      (∀ cfd t, step junk s (.accepted cfd) = some t → (∀ i, s.fds i ≠ -1) →
        t.fds = s.fds ∧ t.ledger.opened = s.ledger.opened + 1 ∧ t.ledger.timesClosed s.ledger.opened = 1) ∧
      (s.pc = .quit → ∀ c < s.ledger.opened, s.ledger.timesClosed c = 1) ∧
      ∀ a, Consistent s a → ∃ t, step junk s a = some t := by
  have inv := reachable_invariant reached
  refine ⟨?_, inv.sound.timesClosed_le, ?_, inv.emptied, ?_⟩
  · intro poll
    exact (inv.holds (by simp [poll])).tableOk
  · intro cfd t taken full
    obtain ⟨fresh, rfl⟩ := step_accepted taken
    obtain ⟨fds, ledger⟩ := place_full full cfd
    have once : ((s.ledger.opens cfd).closes cfd).timesClosed s.ledger.opened = 1 := by
      rw [Ledger.timesClosed_closes, Ledger.timesClosed_opens, Ledger.owner_opens_self, if_pos rfl,
        inv.sound.later _ (Nat.le_refl _)]
    refine ⟨fds, ?_, ?_⟩
    · rw [afterAccept, ledger]
      rfl
    · rw [afterAccept, ledger]
      exact once
  · intro a consistent
    exact Option.isSome_iff_exists.mp ((step_goes junk inv.size a).mpr consistent)

end

/-- A client connects, and gets the first slot. -/
theorem slots_kept_sample :
    ∃ s t, exec (step zeros) (start 3) [.polled true false fun _ => .none, .accepted 5] = some s ∧
      s.fds firstSlot = 5 ∧ s.ledger.timesClosed 0 ≤ 1 ∧ step zeros s .go = some t := by
  obtain ⟨s, run, seen⟩ : ∃ s, exec (step zeros) (start 3) [.polled true false fun _ => .none, .accepted 5] = some s ∧
      (s.fds firstSlot, s.pc, s.revents firstSlot) = (5, .client firstSlot, .none) :=
    Option.map_eq_some_iff.mp (by decide)
  obtain ⟨fd, pc, quiet⟩ : s.fds firstSlot = 5 ∧ s.pc = .client firstSlot ∧ s.revents firstSlot = .none := by
    simpa only [Prod.mk.injEq] using seen
  obtain ⟨-, once, -, -, goes⟩ := slots_kept ⟨_, run⟩
  have consistent : Consistent s .go := by simp [Consistent, pc, reads, skips, quiet]
  obtain ⟨t, taken⟩ := goes .go consistent
  exact ⟨s, t, run, fd, once 0, taken⟩

end OsyProg.ChatSlots
