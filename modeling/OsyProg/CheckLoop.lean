import OsyProg.Runs
import OsyProg.TailPipes

/-!
The loop in which a child of `DU02/tail.cpp` or of `ostatne/main.cpp` waits for the
messages of its parent: it reads up to 16 bytes of its pipe, inspects its file when they
begin with `check` and a newline, and ends at the end of the pipe. The two children differ in how they
inspect a file, so the loop has that as a parameter (`Inspection`). Messages of six
bytes that have queued up are cut by a read of 16, and a read that begins within a
message recognizes none (`Queue`, `queue_read`). So it depends on the bytes that are
unread when the last message is written whether an inspection follows it
(`inspected_iff`).
-/
namespace OsyProg.CheckLoop
open OsyProg.Bytes OsyProg.Runs
open OsyProg.TailPipes (check)
universe u v w x

/-- The statements by which a child inspects its file: the first one, with which the
    inspection starts, and the others. They change the world, and a point of the program
    is left when there is more to do. Others may change the world as well. -/
structure Inspection (World : Type u) (Body : Type v) (Choice : Type w) (Change : Type x) where
  start : World → World × Option Body
  work : World → Body → Choice → Option (World × Option Body)
  change : World → Change → World

/-- Where a child is: before `read`, before the first statement of an inspection, within
    it, or behind its loop. -/
inductive Phase (Body : Type u)
  | atRead
  | recognized
  | working (body : Body)
  | ended
  deriving DecidableEq

/-- Where a child goes on after a statement of an inspection. -/
def Phase.next {Body : Type u} : Option Body → Phase Body
  | none => .atRead
  | some body => .working body

/-- A child, the unread bytes of its pipe, and whether the parent has closed the pipe. -/
structure State (World : Type u) (Body : Type v) where
  world : World
  pending : Bytes
  closed : Bool
  phase : Phase Body
  deriving DecidableEq

/-- The parent writes a message or closes the pipe, others change the world, and the
    child takes a step: its `read` gets `r` bytes, it starts an inspection or goes on with it. -/
inductive Move (Choice : Type u) (Change : Type v)
  | write
  | close
  | change (c : Change)
  | read (r : ℕ)
  | inspect
  | work (choice : Choice)
  deriving DecidableEq

/-- What a `read` of 16 bytes may get of the bytes that are there: all of them up to 16,
    or fewer when short reads are allowed. -/
def MayGet (short : Bool) (available r : ℕ) : Prop := 0 < r ∧ r ≤ min 16 available ∧ (short = false → r = min 16 available)

instance (short : Bool) (available r : ℕ) : Decidable (MayGet short available r) := inferInstanceAs (Decidable (_ ∧ _))

section
variable {World : Type u} {Body : Type v} {Choice : Type w} {Change : Type x}

def step (I : Inspection World Body Choice Change) (short : Bool) (s : State World Body) :
    Move Choice Change → Option (State World Body)
  | .write => if s.closed then none else some { s with pending := s.pending ++ check }
  | .close => some { s with closed := true }
  | .change c => some { s with world := I.change s.world c }
  | .read r =>
    match s.phase with
    | .atRead =>
      if r = 0 then if s.pending = [] ∧ s.closed then some { s with phase := .ended } else none
      else if MayGet short s.pending.length r then
        let buf := s.pending.take r
        some { s with
          pending := s.pending.drop r
          phase := if 6 ≤ r ∧ buf.take 6 = check then .recognized else .atRead }
      else none
    | _ => none
  | .inspect =>
    match s.phase with
    | .recognized => let (world, body) := I.start s.world; some { s with world, phase := .next body }
    | _ => none
  | .work choice =>
    match s.phase with
    | .working body => (I.work s.world body choice).map fun (world, body) => { s with world, phase := .next body }
    | _ => none

/-! ### The bytes in the pipe -/

/-- Whole messages, of the first of which `j` bytes have been read. -/
def messages (j k : ℕ) : Bytes := ((List.replicate k check).flatten).drop j

/-- The messages are in the pipe, and the first is cut nowhere but behind its second or
    fourth byte. -/
def Queue (pending : Bytes) : Prop := ∃ j k, (j = 0 ∨ j = 2 ∨ j = 4) ∧ j ≤ 6 * k ∧ pending = messages j k

theorem length_flatten (k : ℕ) : ((List.replicate k check).flatten).length = 6 * k := by
  rw [List.length_flatten, List.map_replicate, List.sum_replicate_nat]
  exact Nat.mul_comm ..

theorem length_messages (j k : ℕ) : (messages j k).length = 6 * k - j := by
  rw [messages, List.length_drop, length_flatten]

theorem messages_write {j k : ℕ} (cut : j ≤ 6 * k) : messages j k ++ check = messages j (k + 1) := by
  have inside : j ≤ ((List.replicate k check).flatten).length := by rwa [length_flatten]
  rw [messages, messages, List.replicate_succ', List.flatten_append, List.drop_append_of_le_length inside]
  simp

/-- What is left when whole messages have been read. -/
theorem messages_drop {j m r : ℕ} (behind : 6 * m ≤ j + r) (k : ℕ) : (messages j (m + k)).drop r = messages (j + r - 6 * m) k := by
  obtain ⟨i, sum⟩ := Nat.exists_eq_add_of_le behind
  have length := length_flatten m
  rw [messages, List.drop_drop, List.replicate_add, List.flatten_append, sum, ← length, List.drop_length_add_append, Nat.add_sub_cancel_left,
    messages]

/-- A read begins with a message exactly if none has been cut. -/
theorem messages_begin {j k r : ℕ} (cut : j = 0 ∨ j = 2 ∨ j = 4) (some : r = min 16 (6 * k - j)) (pos : 0 < r) :
    (6 ≤ r ∧ ((messages j k).take r).take 6 = check) ↔ j = 0 := by
  obtain ⟨k, rfl⟩ := Nat.exists_eq_succ_of_ne_zero (show k ≠ 0 by omega)
  have first : messages j (k + 1) = (check ++ (List.replicate k check).flatten).drop j := by
    rw [messages, List.replicate_succ, List.flatten_cons]
  rw [first, List.take_take]
  rcases cut with rfl | rfl | rfl
  · have six : min 6 r = check.length := by
      have six : check.length = 6 := rfl
      omega
    rw [List.drop_zero, six, List.take_left]
    exact ⟨fun _ => rfl, fun _ => ⟨by omega, rfl⟩⟩
  · -- the bytes begin with the third one of a message
    obtain ⟨r, rfl⟩ := Nat.exists_eq_succ_of_ne_zero (Nat.ne_of_gt pos)
    refine ⟨fun same => absurd (congrArg List.head? same.2) ?_, fun impossible => absurd impossible (by decide)⟩
    rw [List.head?_take, if_neg (by omega)]
    exact fun same => absurd (Option.some.inj same : (101 : UInt8) = 99) (by decide)
  · obtain ⟨r, rfl⟩ := Nat.exists_eq_succ_of_ne_zero (Nat.ne_of_gt pos)
    refine ⟨fun same => absurd (congrArg List.head? same.2) ?_, fun impossible => absurd impossible (by decide)⟩
    rw [List.head?_take, if_neg (by omega)]
    exact fun same => absurd (Option.some.inj same : (107 : UInt8) = 99) (by decide)

theorem queue_write {pending : Bytes} (queue : Queue pending) : Queue (pending ++ check) := by
  obtain ⟨j, k, cut, inside, rfl⟩ := queue
  exact ⟨j, k + 1, cut, by omega, messages_write inside⟩

/-- A read of all that is there, up to 16 bytes, recognizes a message exactly if the
    number of the bytes says that none has been cut. -/
theorem queue_read {pending : Bytes} {r : ℕ} (queue : Queue pending) (some : r = min 16 pending.length) (pos : 0 < r) :
    Queue (pending.drop r) ∧ ((6 ≤ r ∧ (pending.take r).take 6 = check) ↔ pending.length % 6 = 0) := by
  obtain ⟨j, k, cut, inside, rfl⟩ := queue
  rw [length_messages] at some ⊢
  constructor
  · rcases Nat.lt_or_ge 16 (6 * k - j) with more | all
    · -- two messages, or three when the first one was cut
      obtain ⟨m, k', next, rfl, whole, behind, cut'⟩ :
          ∃ m k' next, k = m + k' ∧ 6 * m ≤ j + r ∧ next = j + r - 6 * m ∧ (next = 0 ∨ next = 2 ∨ next = 4) := by
        rcases cut with rfl | rfl | rfl
        · exact ⟨2, k - 2, 4, by omega, by omega, by omega, by decide⟩
        · exact ⟨3, k - 3, 0, by omega, by omega, by omega, by decide⟩
        · exact ⟨3, k - 3, 2, by omega, by omega, by omega, by decide⟩
      refine ⟨next, k', cut', by omega, ?_⟩
      rw [messages_drop whole, behind]
    · refine ⟨0, 0, .inl rfl, Nat.zero_le _, ?_⟩
      rw [List.drop_eq_nil_of_le (by rw [length_messages]; omega)]
      rfl
  · rw [messages_begin cut some pos]
    omega

/-- The bytes in the pipe suffice for an inspection, without further messages. -/
def Due (available : ℕ) : Prop := available % 6 = 0 ∧ 0 < available ∨ available % 6 = 4 ∧ 22 ≤ available ∨ available % 6 = 2 ∧ 38 ≤ available

instance (available : ℕ) : Decidable (Due available) := inferInstanceAs (Decidable (_ ∨ _))

/-- A read that recognizes nothing makes no difference to that. -/
theorem due_read {available r : ℕ} (some : r = min 16 available) (cut : available % 6 = 2 ∨ available % 6 = 4) :
    Due (available - r) ↔ Due available := by
  rw [Due, Due]
  omega

theorem queue_mod {pending : Bytes} (queue : Queue pending) : pending.length % 6 = 0 ∨ pending.length % 6 = 2 ∨ pending.length % 6 = 4 := by
  obtain ⟨j, k, cut, inside, rfl⟩ := queue
  rw [length_messages]
  omega

/-! ### Runs -/

variable {I : Inspection World Body Choice Change}

/-- The start of a child, with what it does before its loop. -/
def start (world : World) (before : Option Body) : State World Body := { world, pending := [], closed := false, phase := .next before }

/-- What holds of the pipe: its bytes are messages, and behind the loop there are none. -/
structure Piped (s : State World Body) : Prop where
  queue : Queue s.pending
  drained : s.phase = .ended → s.pending = [] ∧ s.closed = true

theorem piped_start (world : World) (before : Option Body) : Piped (start world before) where
  queue := ⟨0, 0, .inl rfl, Nat.le_refl _, rfl⟩
  drained := by
    intro ended
    cases before <;> cases ended

/-- What the steps do to the pipe and the phase. -/
inductive Steps (I : Inspection World Body Choice Change) (short : Bool) (s : State World Body) :
    Move Choice Change → State World Body → Prop
  | write (opened : s.closed = false) : Steps I short s .write { s with pending := s.pending ++ check }
  | close : Steps I short s .close { s with closed := true }
  | change (c : Change) : Steps I short s (.change c) { s with world := I.change s.world c }
  | eof (here : s.phase = .atRead) (none : s.pending = []) (closed : s.closed = true) : Steps I short s (.read 0) { s with phase := .ended }
  | read (r : ℕ) (here : s.phase = .atRead) (gets : MayGet short s.pending.length r) :
      Steps I short s (.read r) { s with
        pending := s.pending.drop r
        phase := if 6 ≤ r ∧ (s.pending.take r).take 6 = check then .recognized else .atRead }
  | inspect (here : s.phase = .recognized) :
      Steps I short s .inspect { s with world := (I.start s.world).1, phase := .next (I.start s.world).2 }
  | work (body : Body) (choice : Choice) (world : World) (more : Option Body) (here : s.phase = .working body)
      (works : I.work s.world body choice = some (world, more)) : Steps I short s (.work choice) { s with world, phase := .next more }

theorem step_steps {short : Bool} {s t : State World Body} {move : Move Choice Change} (taken : step I short s move = some t) :
    Steps I short s move t := by
  cases move with
  | write =>
    obtain ⟨opened, ⟨⟩⟩ := Option.ite_none_left_eq_some.mp taken
    exact .write (Bool.eq_false_iff.mpr opened)
  | close =>
    cases taken
    exact .close
  | change c =>
    cases taken
    exact .change c
  | read r =>
    cases here : s.phase <;> simp only [step, here, reduceCtorEq] at taken
    split at taken
    · rename_i zero
      subst zero
      obtain ⟨⟨none, closed⟩, ⟨⟩⟩ := Option.ite_none_right_eq_some.mp taken
      exact .eof here none closed
    · obtain ⟨gets, ⟨⟩⟩ := Option.ite_none_right_eq_some.mp taken
      exact .read r here gets
  | inspect =>
    cases here : s.phase <;> simp only [step, here, reduceCtorEq] at taken
    cases taken
    exact .inspect here
  | work choice =>
    cases here : s.phase <;> simp only [step, here, reduceCtorEq] at taken
    obtain ⟨⟨world, more⟩, works, rfl⟩ := Option.map_eq_some_iff.mp taken
    exact .work _ choice world more here works

theorem next_ne_ended (more : Option Body) : Phase.next more ≠ .ended := by
  cases more <;> simp [Phase.next]

theorem next_ne_recognized (more : Option Body) : Phase.next more ≠ .recognized := by
  cases more <;> simp [Phase.next]

theorem step_piped (s : State World Body) (move : Move Choice Change) (t : State World Body) (piped : Piped s)
    (taken : step I false s move = some t) : Piped t := by
  cases step_steps taken with
  | write opened =>
    refine ⟨queue_write piped.queue, ?_⟩
    intro ended
    rw [(piped.drained ended).2] at opened
    exact absurd opened (by decide)
  | close => exact ⟨piped.queue, fun ended => ⟨(piped.drained ended).1, rfl⟩⟩
  | change c => exact ⟨piped.queue, piped.drained⟩
  | eof here none closed => exact ⟨piped.queue, fun _ => ⟨none, closed⟩⟩
  | read r here gets =>
    refine ⟨(queue_read piped.queue (gets.2.2 rfl) gets.1).1, fun ended => absurd ended ?_⟩
    dsimp only
    split <;> simp
  | inspect here => exact ⟨piped.queue, fun ended => absurd ended (next_ne_ended _)⟩
  | work body choice world more here works => exact ⟨piped.queue, fun ended => absurd ended (next_ne_ended _)⟩

/-- Without further messages an inspection starts before the loop ends exactly if the
    child has recognized one, or the bytes in the pipe suffice. -/
theorem inspect_iff {s t : State World Body} {moves : List (Move Choice Change)} (piped : Piped s)
    (run : exec (step I false) s moves = some t) (ended : t.phase = .ended) (last : .write ∉ moves) :
    .inspect ∈ moves ↔ s.phase = .recognized ∨ Due s.pending.length := by
  induction moves generalizing s with
  | nil =>
    obtain rfl := Option.some.inj run
    have none := (piped.drained ended).1
    simp [ended, none, Due]
  | cons move later ih =>
    obtain ⟨m, taken, onward⟩ := exec_cons_iff.mp run
    have next := ih (step_piped s move m piped taken) onward fun inside => last (List.mem_cons_of_mem _ inside)
    cases step_steps taken with
    | write opened => exact absurd (List.mem_cons_self ..) last
    | close => simpa using next
    | change c => simpa using next
    | eof here none closed => simpa [here] using next
    | inspect here => simp [here]
    | work body choice world more here works =>
      simpa [here, next_ne_recognized] using next
    | read r here gets =>
      have full : r = min 16 s.pending.length := gets.2.2 rfl
      have recognizes := (queue_read piped.queue full gets.1).2
      have cut := queue_mod piped.queue
      dsimp only at next
      rw [List.length_drop] at next
      by_cases whole : s.pending.length % 6 = 0
      · have due : Due s.pending.length := .inl ⟨whole, by omega⟩
        rw [if_pos (recognizes.mpr whole)] at next
        simp [next, due]
      · have same := due_read full (cut.resolve_left whole)
        rw [if_neg fun found => whole (recognizes.mp found)] at next
        simp [next, same, here]

/-- Every message is followed by the start of an inspection. -/
def Followed (moves : List (Move Choice Change)) : Prop := ∀ before after, moves = before ++ .write :: after → .inspect ∈ after

/-- When the last message is written, the child has recognized one and not yet started the
    inspection, or the bytes in the pipe suffice for one. -/
def LastSeen (I : Inspection World Body Choice Change) (s : State World Body) (moves : List (Move Choice Change)) : Prop :=
  ∀ before after t, moves = before ++ .write :: after → .write ∉ after → exec (step I false) s before = some t →
    t.phase = .recognized ∨ Due (t.pending.length + 6)

/-- A run has no message, or a last one. -/
theorem last_write (moves : List (Move Choice Change)) :
    .write ∉ moves ∨ ∃ before after, moves = before ++ .write :: after ∧ .write ∉ after := by
  induction moves with
  | nil => exact .inl List.not_mem_nil
  | cons move later ih =>
    rcases ih with none | ⟨before, after, rfl, last⟩
    · by_cases write : move = .write
      · subst write
        exact .inr ⟨[], later, rfl, none⟩
      · refine .inl fun inside => ?_
        rcases List.mem_cons.mp inside with same | further
        · exact write same.symm
        · exact none further
    · exact .inr ⟨move :: before, after, rfl, last⟩

/-- In a run to the end of the loop every message is followed by an inspection exactly if
    the last one is, and that depends on the state in which it was written. -/
theorem followed_iff {s t : State World Body} {moves : List (Move Choice Change)} (piped : Piped s)
    (run : exec (step I false) s moves = some t) (ended : t.phase = .ended) : Followed moves ↔ LastSeen I s moves := by
  -- what an inspection behind the last message comes to
  have atLast : ∀ before after, moves = before ++ .write :: after → .write ∉ after → ∀ m, exec (step I false) s before = some m →
      (.inspect ∈ after ↔ m.phase = .recognized ∨ Due (m.pending.length + 6)) := by
    rintro before after rfl last m first
    obtain ⟨m', first', onward⟩ := exec_append_iff.mp run
    obtain rfl := Option.some.inj (first.symm.trans first')
    obtain ⟨n, taken, rest⟩ := exec_cons_iff.mp onward
    have kept := exec_kept step_piped piped first
    have iff := inspect_iff (step_piped m .write n kept taken) rest ended last
    cases step_steps taken with
    | write opened =>
      dsimp only at iff
      rw [List.length_append] at iff
      exact iff
  constructor
  · intro followed before after m split last first
    exact (atLast before after split last m first).mp (followed before after split)
  · intro seen before after split
    have isWrite : (.write : Move Choice Change) ∈ moves := by simp [split]
    obtain ⟨earlier, behind, shape, last⟩ := (last_write moves).resolve_left fun none => none isWrite
    have whole := run
    rw [shape] at whole
    obtain ⟨m, first, -⟩ := exec_append_iff.mp whole
    have inspected := (atLast earlier behind shape last m first).mpr (seen earlier behind m shape last first)
    -- the last message is this one, or a later one
    rcases List.append_eq_append_iff.mp (split.symm.trans shape) with ⟨between, -, onward⟩ | ⟨between, -, onward⟩
    · cases between with
      | nil =>
        obtain ⟨-, rfl⟩ := List.cons.inj onward
        exact inspected
      | cons move between =>
        obtain ⟨-, rfl⟩ := List.cons.inj onward
        simp [inspected]
    · cases between with
      | nil =>
        obtain ⟨-, rfl⟩ := List.cons.inj onward
        exact inspected
      | cons move between =>
        obtain ⟨-, rfl⟩ := List.cons.inj onward
        exact absurd (by simp) last

end

end OsyProg.CheckLoop
