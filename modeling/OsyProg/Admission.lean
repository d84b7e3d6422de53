import OsyProg.Custody
import OsyProg.ServedRole

/-!
How `handle_client` of `DU05_test/socket_srv.cpp` counts its clients. Here a condition
on a counter and the statement that it guards are two steps of a session (`step`),
where `OsyProg.Sessions` has one. Only the session that holds `mutex` changes a
counter, so a condition still holds when it is acted upon, and a run of the sessions
here is a run of those (`exec_sessions`). In every run a counter is the number of the
admitted sessions, and within its limit (`admission`).
-/
namespace OsyProg.Admission
open OsyProg.Bytes OsyProg.Interleaving OsyProg.Runs OsyProg.ShmQueue OsyProg.Sessions
open OsyProg.ServedRole (NextSpec next_cases Early next_early call_early read_early)

/-- The server, and the condition that each session has evaluated and not acted upon. -/
structure Checking (ι : Type) where
  server : Server ι
  check : ι → Option Bool

/-- `producer_clients >= MAX_PRODUCERS`, or `is_producer && producer_clients > 0`, and the same for consumers. -/
def condition (clients : Role → ℕ) : SessionPc → Option Bool
  | .limit role => some (decide (maxClients role ≤ clients role))
  | .uncount (some role) => some (decide (0 < clients role))
  | _ => none

section
variable {ι : Type} [DecidableEq ι]

/-- The statement that the condition guards, or the one after it. -/
def act (s : Server ι) (i : ι) (holds : Bool) : Server ι :=
  let goto (p : SessionPc) : Server ι := { s with session := Function.update s.session i p }
  let count (role : Role) (value : ℕ) : Role → ℕ := Function.update s.clients role value
  match s.session i with
  | .limit role =>
    if holds then goto (.unlockRefused role)
    else { goto (.unlockIn role) with clients := count role (s.clients role + 1) }
  | .uncount (some role) =>
    if holds then { goto .unlockOut with clients := count role (s.clients role - 1) } else goto .unlockOut
  | _ => s

/-- A step of `OsyProg.Sessions` that leaves the conditions alone. -/
def other (s : Checking ι) (move : Move ι) : Option (Checking ι) :=
  (Sessions.step s.server move).map fun server => { s with server }

def step (s : Checking ι) : Move ι → Option (Checking ι)
  | .session i .next =>
    match condition s.server.clients (s.server.session i), s.check i with
    | none, _ => other s (.session i .next)
    | some result, none => some { s with check := Function.update s.check i (some result) }
    | some _, some holds => some { server := act s.server i holds, check := Function.update s.check i none }
  | move => other s move

/-- A fresh server, with no condition evaluated. -/
def start (ι : Type) : Checking ι := { server := Sessions.start ι, check := fun _ => none }

/-! ### The counters of `OsyProg.Sessions` -/

/-- The client of the session is counted as one of this role. -/
def Admitted (role : Role) : SessionPc → Prop
  | .unlockIn r => r = role
  | .readItem | .produce _ | .producing | .ack => role = .producer
  | .consume | .consuming | .send _ | .readAck | .sendTimeout | .sendError => role = .consumer
  | .lockOut r | .uncount r => r = some role
  | _ => False

instance (role : Role) : DecidablePred (Admitted role) := fun p => by
  cases p <;> unfold Admitted <;> infer_instance

/-! ### What a step is -/

/-- A session goes on by a statement outside the queue, by one inside it, or by a read. -/
inductive Goes (clients : Role → ℕ) (p p' : SessionPc) : (Role → ℕ) → Prop
  | next {clients' : Role → ℕ} (spec : NextSpec clients p p' clients') : Goes clients p p' clients'
  | call {c : Choice} {q q' : Pc} (after : afterCall c q q' p = some p') : Goes clients p p' clients
  | read {bytes : Bytes} (reads : afterRead bytes p = some p') : Goes clients p p' clients

/-- A step of `OsyProg.Sessions` takes one session on and may change the counters, or does neither. -/
theorem sessions_step {s t : Server ι} {move : Move ι} (taken : Sessions.step s move = some t) :
    (t.session = s.session ∧ t.clients = s.clients) ∨
      ∃ i act p, move = .session i act ∧ t.session = Function.update s.session i p ∧
        (condition s.clients (s.session i) = none ∨ act = .next) ∧
        Goes s.clients (s.session i) p t.clients := by
  cases move with
  | main c =>
    simp only [Sessions.step] at taken
    split_ifs at taken
    obtain ⟨q, -, rfl⟩ := Option.map_eq_some_iff.mp taken
    exact .inl ⟨rfl, rfl⟩
  | session i act =>
    cases act with
    | disconnect =>
      obtain ⟨-, ⟨⟩⟩ := Option.ite_none_right_eq_some.mp taken
      exact .inl ⟨rfl, rfl⟩
    | read bytes =>
      obtain ⟨-, p, reads, rfl⟩ := read_cases taken
      refine .inr ⟨i, _, p, rfl, rfl, .inl ?_, .read reads⟩
      cases here : s.session i <;> rw [here] at reads <;> first | rfl | cases reads
    | call c =>
      obtain ⟨q, -, rest⟩ := Option.bind_eq_some_iff.mp taken
      obtain ⟨p, after, rest⟩ := Option.bind_eq_some_iff.mp rest
      cases rest
      refine .inr ⟨i, _, p, rfl, rfl, .inl ?_, .call after⟩
      cases here : s.session i <;> rw [here] at after <;> first | rfl | cases after
    | next =>
      obtain ⟨-, -, p, session, spec⟩ := next_cases taken
      exact .inr ⟨i, _, p, rfl, session, .inr rfl, .next spec⟩

/-- Away from the conditions no counter changes, and the session is admitted as before. -/
theorem goes_kept {clients clients' : Role → ℕ} {p p' : SessionPc} (goes : Goes clients p p' clients')
    (away : condition clients p = none) : clients' = clients ∧ ∀ role, Admitted role p' ↔ Admitted role p := by
  cases goes with
  | read reads =>
    refine ⟨rfl, ?_⟩
    intro role
    cases p with
    | readTask | readItem | readAck =>
      simp only [afterRead] at reads
      split_ifs at reads <;> cases reads <;> simp [Admitted, eq_comm]
    | _ => cases reads
  | @call c q q' after =>
    refine ⟨rfl, ?_⟩
    intro role
    cases p with
    | lockIn r | lockOut r | produce item | consume | producing =>
      simp only [afterCall] at after
      split_ifs at after <;> cases after <;> rfl
    | unlockIn r => cases r <;> cases after <;> exact eq_comm
    | unlockRefused r | unlockOut =>
      cases after
      rfl
    | consuming =>
      simp only [afterCall] at after
      split at after
      · cases after
        unfold afterConsumer
        split_ifs <;> rfl
      · cases after
        rfl
    | _ => cases after
  | next spec =>
    cases spec with
    | writes some' =>
      refine ⟨rfl, ?_⟩
      intro role
      cases p <;> first | rfl | simp [Admitted, afterWrite, eq_comm]
    | leaves => exact ⟨rfl, fun role => by simp [Admitted]⟩
    | closes => exact ⟨rfl, fun role => Iff.rfl⟩
    | refuses | counts | uncounts => cases away

/-- All that a step does here: a condition is evaluated, it is acted upon, or the server takes a step that is
    about no condition. -/
theorem step_cases {s t : Checking ι} {move : Move ι} (taken : step s move = some t) :
    (∃ i result, move = .session i .next ∧ condition s.server.clients (s.server.session i) = some result ∧
        s.check i = none ∧ t = { s with check := Function.update s.check i (some result) }) ∨
      (∃ i holds, move = .session i .next ∧ (condition s.server.clients (s.server.session i)).isSome ∧
        s.check i = some holds ∧ t = { server := act s.server i holds, check := Function.update s.check i none }) ∨
      ((∀ i, move = .session i .next → condition s.server.clients (s.server.session i) = none) ∧
        Sessions.step s.server move = some t.server ∧ t.check = s.check) := by
  have plain : other s move = some t →
      (∀ i, move = .session i .next → condition s.server.clients (s.server.session i) = none) →
      (∀ i, move = .session i .next → condition s.server.clients (s.server.session i) = none) ∧
        Sessions.step s.server move = some t.server ∧ t.check = s.check := by
    intro taken away
    obtain ⟨server, moved, rfl⟩ := Option.map_eq_some_iff.mp taken
    exact ⟨away, moved, rfl⟩
  unfold step at taken
  split at taken
  · next i =>
    split at taken
    · next away =>
      exact .inr (.inr (plain taken fun j same => by cases same; exact away))
    · next result evaluates unchecked =>
      exact .inl ⟨i, result, rfl, evaluates, unchecked, (Option.some.inj taken).symm⟩
    · next result holds evaluates checked =>
      exact .inr (.inl ⟨i, holds, rfl, by simp [evaluates], checked, (Option.some.inj taken).symm⟩)
  · next notNext =>
    exact .inr (.inr (plain taken fun j same => absurd same (notNext j)))

/-- Acting upon a condition that holds is the step of `OsyProg.Sessions` at this point. -/
theorem act_eq {s : Server ι} {i : ι} {holds : Bool} (valid : condition s.clients (s.session i) = some holds) :
    Sessions.step s (.session i .next) = some (act s i holds) := by
  cases here : s.session i with
  | limit role =>
    rw [here] at valid
    obtain rfl := Option.some.inj valid
    simp only [Sessions.step, onNext, here, act, decide_eq_true_eq]
    split_ifs <;> rfl
  | uncount r =>
    rw [here] at valid
    cases r with
    | none => cases valid
    | some role =>
      obtain rfl := Option.some.inj valid
      simp only [Sessions.step, onNext, here, act, decide_eq_true_eq]
      split_ifs with positive
      · rfl
      · have same : Function.update s.clients role (s.clients role - 1) = s.clients := by
          rw [show s.clients role - 1 = s.clients role by omega, Function.update_eq_self]
        rw [same]
  | _ =>
    rw [here] at valid
    cases valid

/-! ### A client that is refused -/

/-- A session before the count of its client, or at the post of `mutex` after a refusal. -/
def Unadmitted : SessionPc → Prop
  | .unlockRefused _ => True
  | p => Early p

/-- A session that has refused its client. -/
def Refused : SessionPc → Prop
  | .unlockRefused _ | .refuse _ | .close | .closed => True
  | _ => False

theorem goes_unadmitted {clients clients' : Role → ℕ} {p p' : SessionPc} (goes : Goes clients p p' clients')
    (later : Unadmitted p') : Unadmitted p := by
  cases goes with
  | read reads =>
    cases p' with
    | unlockRefused role =>
      cases p with
      | readTask | readItem | readAck =>
        simp only [afterRead] at reads
        split_ifs at reads <;> cases reads
      | _ => cases reads
    | _ =>
      obtain rfl := read_early reads later
      trivial
  | call after =>
    cases p with
    | unlockRefused role => trivial
    | lockIn role | produce item | consume | producing | lockOut role =>
      simp only [afterCall] at after
      split_ifs at after <;> cases after <;> trivial
    | unlockIn role => cases role <;> cases after <;> exact later
    | consuming =>
      simp only [afterCall] at after
      split at after
      · cases after
        unfold afterConsumer at later
        split_ifs at later <;> exact later
      · cases after
        exact later
    | unlockOut =>
      cases after
      exact later
    | _ => cases after
  | next spec =>
    cases spec with
    | writes some' => cases p <;> trivial
    | refuses => trivial
    | counts => trivial
    | leaves | uncounts | closes => exact later

theorem goes_refused {clients clients' : Role → ℕ} {p p' : SessionPc} (goes : Goes clients p p' clients')
    (refused : Refused p) : Refused p' := by
  cases goes with
  | read reads => cases p <;> first | exact refused.elim | cases reads
  | call after => cases p <;> first | exact refused.elim | (cases after; trivial) | cases after
  | next spec =>
    cases spec with
    | writes some' => cases p <;> first | exact refused.elim | trivial
    | closes => trivial
    | refuses | counts | leaves | uncounts => exact refused.elim

/-- A step leaves a session where it is, acts upon its condition, or takes it on. -/
theorem session_goes {s t : Checking ι} {move : Move ι} (taken : step s move = some t) (i : ι) :
    t.server.session i = s.server.session i ∨
      (∃ holds, (condition s.server.clients (s.server.session i)).isSome ∧
        t.server.session i = (act s.server i holds).session i) ∨
      Goes s.server.clients (s.server.session i) (t.server.session i) t.server.clients := by
  rcases step_cases taken with ⟨j, result, -, -, -, rfl⟩ | ⟨j, holds, -, at', -, rfl⟩ | ⟨-, moved, -⟩
  · exact .inl rfl
  · by_cases same : i = j
    · subst same
      exact .inr (.inl ⟨holds, at', rfl⟩)
    · left
      show (act s.server j holds).session i = _
      unfold act
      split
      · split_ifs <;> exact Function.update_of_ne same ..
      · split_ifs <;> exact Function.update_of_ne same ..
      · rfl
  · rcases sessions_step moved with ⟨session, -⟩ | ⟨j, -, p, -, session, -, goes⟩
    · exact .inl (congrFun session i)
    · by_cases same : i = j
      · subst same
        rw [session, Function.update_self]
        exact .inr (.inr goes)
      · rw [session, Function.update_of_ne same]
        exact .inl rfl

theorem unadmitted_back {i : ι} (s : Checking ι) (move : Move ι) (t : Checking ι) (taken : step s move = some t)
    (later : Unadmitted (t.server.session i)) : Unadmitted (s.server.session i) := by
  rcases session_goes taken i with same | ⟨holds, at', acted⟩ | goes
  · rwa [same] at later
  · rw [acted] at later
    cases here : s.server.session i with
    | limit role => trivial
    | uncount role =>
      rw [here] at at'
      cases role with
      | none => cases at'
      | some role =>
        simp only [act, here] at later
        split_ifs at later <;> simp [Unadmitted, Early] at later
    | _ =>
      rw [here] at at'
      cases at'
  · exact goes_unadmitted goes later

theorem refused_kept {i : ι} (s : Checking ι) (move : Move ι) (t : Checking ι) (refused : Refused (s.server.session i))
    (taken : step s move = some t) : Refused (t.server.session i) := by
  rcases session_goes taken i with same | ⟨holds, at', acted⟩ | goes
  · rwa [same]
  · cases here : s.server.session i <;> rw [here] at refused at' <;> first | exact refused.elim | cases at'
  · exact goes_refused goes refused

/-- A session that is not admitted before its step nor after it changes no counter. -/
theorem uncounted_kept {s t : Checking ι} {i : ι} {move : Act} (taken : step s (.session i move) = some t)
    (before : ∀ role, ¬ Admitted role (s.server.session i)) (after : ∀ role, ¬ Admitted role (t.server.session i)) :
    t.server.clients = s.server.clients := by
  rcases step_cases taken with ⟨j, result, -, -, -, rfl⟩ | ⟨j, holds, same, at', -, rfl⟩ | ⟨away, moved, -⟩
  · rfl
  · cases same
    cases here : s.server.session i with
    | limit role =>
      simp only [act, here] at after ⊢
      split_ifs at after ⊢
      · rfl
      · exact absurd (by simp [Admitted]) (after role)
    | uncount role =>
      cases role with
      | none =>
        rw [here] at at'
        cases at'
      | some role =>
        rw [here] at before
        exact absurd rfl (before role)
    | _ =>
      rw [here] at at'
      cases at'
  · rcases sessions_step moved with ⟨-, clients⟩ | ⟨j, act, p, same, -, at', goes⟩
    · exact clients
    · cases same
      refine (goes_kept goes ?_).1
      rcases at' with none | rfl
      · exact none
      · exact away i rfl

theorem unadmitted_uncounted {p : SessionPc} (unadmitted : Unadmitted p ∨ Refused p) (role : Role) :
    ¬ Admitted role p := by
  rcases unadmitted with early | refused
  · cases p <;> first | exact early.elim | exact id
  · cases p <;> first | exact refused.elim | exact id

/-! ### The invariant -/

section
variable [Fintype ι]

/-- One for a session that is admitted. -/
def admitted (role : Role) (p : SessionPc) : ℤ := if Admitted role p then 1 else 0

/-- The counters are right and within their limits, and every condition evaluated still holds. -/
structure Invariant (s : Checking ι) : Prop where
  custody : Custody.Invariant s.server
  counts : ∀ role, (s.server.clients role : ℤ) = total (admitted role) s.server.session
  limits : ∀ role, s.server.clients role ≤ maxClients role
  checks : ∀ i holds, s.check i = some holds → condition s.server.clients (s.server.session i) = some holds

/-- Two sessions are not both in the critical section for the counters. -/
theorem holding_unique {s : Server ι} (holds : Custody.Invariant s) {i j : ι} (here : place (s.session i) = .holding)
    (there : place (s.session j) = .holding) : i = j := by
  have inside : ∀ k, place (s.session k) = .holding → InCriticalSection (s.queue.pc (some k)) := by
    intro k holding
    have fits := holds.places k
    rw [holding] at fits
    rw [show s.queue.pc (some k) = .holding from fits]
    trivial
  exact Option.some.inj (inside_unique holds.queue (inside i here) (inside j there))

omit [DecidableEq ι] [Fintype ι] in
theorem condition_holding {clients : Role → ℕ} {p : SessionPc} (evaluates : (condition clients p).isSome) :
    place p = .holding := by
  cases p with
  | limit role | uncount role => rfl
  | _ => cases evaluates

/-- The session that changes the counters is the only one at a condition. -/
theorem check_kept {s : Checking ι} (inv : Invariant s) {i j : ι}
    (here : (condition s.server.clients (s.server.session i)).isSome) {holds : Bool} (checked : s.check j = some holds) :
    j = i := by
  have there : (condition s.server.clients (s.server.session j)).isSome := by rw [inv.checks j holds checked]; rfl
  exact holding_unique inv.custody (condition_holding there) (condition_holding here)

/-- What acting upon a condition does to the counters and to the session. -/
theorem act_counts {s : Server ι} {i : ι} {holds : Bool} (valid : condition s.clients (s.session i) = some holds)
    (counts : ∀ role, (s.clients role : ℤ) = total (admitted role) s.session)
    (limits : ∀ role, s.clients role ≤ maxClients role) (role : Role) :
    (∃ p, (act s i holds).session = Function.update s.session i p ∧
      ((act s i holds).clients role : ℤ) + admitted role (s.session i) = s.clients role + admitted role p) ∧
      (act s i holds).clients role ≤ maxClients role := by
  have atMost := limits role
  cases here : s.session i with
  | limit r =>
    rw [here] at valid
    obtain rfl := Option.some.inj valid
    simp only [act, here, decide_eq_true_eq]
    split_ifs with full
    · exact ⟨⟨_, rfl, rfl⟩, atMost⟩
    · refine ⟨⟨_, rfl, ?_⟩, ?_⟩
      · by_cases same : r = role
        · subst same
          simp [admitted, Admitted]
        · simp [admitted, Admitted, Function.update_of_ne (Ne.symm same), same]
      · by_cases same : r = role
        · subst same
          simp only [Function.update_self]
          omega
        · simpa only [Function.update_of_ne (Ne.symm same)] using atMost
  | uncount r =>
    rw [here] at valid
    cases r with
    | none => cases valid
    | some r =>
      obtain rfl := Option.some.inj valid
      have positive : 0 < s.clients r := by
        have nonneg : ∀ p, 0 ≤ admitted r p := fun p => by unfold admitted; split <;> decide
        have one := le_total nonneg s.session i
        rw [← counts r, here] at one
        simp only [admitted, Admitted, if_true] at one
        omega
      simp only [act, here, decide_eq_true_eq, if_pos positive]
      by_cases same : r = role
      · subst same
        refine ⟨⟨_, rfl, ?_⟩, ?_⟩
        · simp only [Function.update_self, admitted, Admitted, ↓reduceIte]
          omega
        · simp only [Function.update_self]
          omega
      · refine ⟨⟨_, rfl, ?_⟩, ?_⟩
        · simp [admitted, Admitted, Function.update_of_ne (Ne.symm same), same]
        · simpa only [Function.update_of_ne (Ne.symm same)] using atMost
  | _ =>
    rw [here] at valid
    cases valid

theorem step_invariant (s : Checking ι) (move : Move ι) (t : Checking ι) (inv : Invariant s)
    (taken : step s move = some t) : Invariant t := by
  rcases step_cases taken with ⟨i, result, -, evaluates, -, rfl⟩ | ⟨i, holds, -, at', checked, rfl⟩ | ⟨away, moved, check⟩
  · refine { inv with checks := ?_ }
    refine (Function.forall_update_iff s.check fun j c => ∀ holds, c = some holds →
      condition s.server.clients (s.server.session j) = some holds).mpr ⟨fun holds same => ?_, fun j _ => inv.checks j⟩
    rw [evaluates, same]
  · have valid := inv.checks i holds checked
    have spec := act_counts valid inv.counts inv.limits
    refine ⟨Custody.step_invariant _ _ _ inv.custody (act_eq valid), ?_, fun role => (spec role).2, ?_⟩
    · intro role
      obtain ⟨⟨p, session, balance⟩, -⟩ := spec role
      have now := total_update (admitted role) s.server.session i p
      have before := inv.counts role
      show ((act s.server i holds).clients role : ℤ) = total (admitted role) (act s.server i holds).session
      rw [session]
      omega
    · intro j holds' later
      have later : Function.update s.check i none j = some holds' := later
      by_cases same : j = i
      · subst same
        rw [Function.update_self] at later
        cases later
      · rw [Function.update_of_ne same] at later
        exact absurd (check_kept inv at' later) same
  · have custody := Custody.step_invariant _ _ _ inv.custody moved
    rcases sessions_step moved with ⟨session, clients⟩ | ⟨i, act, p, rfl, session, at', goes⟩
    · refine ⟨custody, ?_, ?_, ?_⟩
      · simpa only [session, clients] using inv.counts
      · simpa only [clients] using inv.limits
      · simpa only [session, clients, check] using inv.checks
    · have unconditional : condition s.server.clients (s.server.session i) = none := by
        rcases at' with none | rfl
        · exact none
        · exact away i rfl
      obtain ⟨clients, same⟩ := goes_kept goes unconditional
      refine ⟨custody, ?_, ?_, ?_⟩
      · intro role
        have now := total_update (admitted role) s.server.session i p
        have equal : admitted role p = admitted role (s.server.session i) := by
          simp only [admitted, same role]
        have before := inv.counts role
        rw [session, clients]
        omega
      · simpa only [clients] using inv.limits
      · intro j holds checked
        rw [check] at checked
        have valid := inv.checks j holds checked
        have apart : j ≠ i := by
          rintro rfl
          rw [unconditional] at valid
          cases valid
        rwa [session, clients, Function.update_of_ne apart]

omit [DecidableEq ι] in
theorem start_invariant : Invariant (start ι) := by
  refine ⟨Custody.start_invariant, ?_, fun role => Nat.zero_le _, ?_⟩
  · intro role
    exact (total_eq_zero fun _ => rfl).symm
  · intro i holds checked
    cases checked

/-- Every run of the sessions is one of `OsyProg.Sessions`. -/
theorem exec_sessions {s : Checking ι} (reached : Reachable step (start ι) s) :
    Reachable Sessions.step (Sessions.start ι) s.server := by
  obtain ⟨moves, run⟩ := reached
  refine exec_map Checking.server step_invariant (fun s move t inv taken => ?_) start_invariant run
  rcases step_cases taken with ⟨i, result, -, -, -, rfl⟩ | ⟨i, holds, -, -, checked, rfl⟩ | ⟨-, moved, -⟩
  · exact ⟨[], rfl⟩
  · exact ⟨[.session i .next], exec_cons_iff.mpr ⟨_, act_eq (inv.checks i holds checked), rfl⟩⟩
  · exact ⟨[move], exec_cons_iff.mpr ⟨_, moved, rfl⟩⟩

/-! ### The critical section -/

omit [DecidableEq ι] [Fintype ι] in
/-- The statements of a process up to its `sem_post(mutex)` and with it, when it holds `mutex`. -/
def toPost : Pc → ℕ
  | .countIn _ => 6
  | .format _ | .copyOut => 5
  | .copyIn _ | .advanceHead _ => 4
  | .advanceTail | .dropItem _ => 3
  | .addItem | .countOut _ => 2
  | .postMutexIn | .postMutexOut _ | .holding => 1
  | _ => 0

/-- The statements of a session in the critical section before its `sem_post(mutex)`. -/
def beforePost (checked : Bool) : SessionPc → ℕ
  | .limit _ | .uncount (some _) => if checked then 1 else 2
  | .uncount none => 1
  | _ => 0

omit [DecidableEq ι] [Fintype ι] in
def untilPost (s : Checking ι) (i : ι) : ℕ :=
  toPost (s.server.queue.pc (some i)) + beforePost (s.check i).isSome (s.server.session i)

omit [DecidableEq ι] [Fintype ι] in
theorem procStep_inside {s : Shared} {p : Pc} (inside : InCriticalSection p) :
    ∃ r, procStep s p .go = some r := by
  cases p <;> first | exact ⟨_, rfl⟩ | exact inside.elim

omit [DecidableEq ι] [Fintype ι] in
theorem procStep_toPost {s s' : Shared} {p p' : Pc} {c : Choice} (taken : procStep s p c = some (s', p'))
    (inside : InCriticalSection p) : toPost p' < toPost p := by
  cases p <;> first | exact inside.elim | (cases c <;> cases taken; exact Nat.lt_succ_self _)

omit [DecidableEq ι] in
/-- A session in the critical section is at a point for it. -/
theorem inside_place {s : Server ι} (holds : Custody.Invariant s) {i : ι}
    (inside : InCriticalSection (s.queue.pc (some i))) : place (s.session i) ≠ .outside := by
  intro outside
  have fits := holds.places i
  rw [outside] at fits
  rw [show s.queue.pc (some i) = .idle from fits] at inside
  exact inside

/-- A session that holds `mutex` is not kept from its next statement. -/
theorem inside_enabled {s : Checking ι} (inv : Invariant s) {i : ι}
    (inside : InCriticalSection (s.server.queue.pc (some i))) :
    ∃ own, own ≠ Act.disconnect ∧ (step s (.session i own)).isSome := by
  obtain ⟨⟨shared, q⟩, own⟩ := procStep_inside (s := s.server.queue.shared) inside
  have call : (afterCall .go (s.server.queue.pc (some i)) q (s.server.session i)).isSome →
      ∃ own, own ≠ Act.disconnect ∧ (step s (.session i own)).isSome := by
    intro goesOn
    obtain ⟨p, after⟩ := Option.isSome_iff_exists.mp goesOn
    refine ⟨.call .go, by simp, ?_⟩
    simp [step, other, Sessions.step, onCall, ShmQueue.step, Interleaving.step, own, after]
  have next : (step s (.session i .next)).isSome → ∃ own, own ≠ Act.disconnect ∧ (step s (.session i own)).isSome :=
    fun enabled => ⟨.next, by simp, enabled⟩
  cases here : s.server.session i with
  | limit role =>
    apply next
    cases checked : s.check i <;> simp [step, here, condition, checked]
  | uncount role =>
    apply next
    cases role with
    | none => simp [step, other, Sessions.step, onNext, here, condition]
    | some role => cases checked : s.check i <;> simp [step, here, condition, checked]
  | unlockRefused role | unlockOut =>
    apply call
    rw [here]
    rfl
  | unlockIn role =>
    apply call
    rw [here]
    cases role <;> rfl
  | producing =>
    apply call
    rw [here, afterCall]
    split_ifs <;> rfl
  | consuming =>
    apply call
    rw [here]
    cases at' : s.server.queue.pc (some i) <;> rw [at'] at inside <;> rfl
  | _ => exact absurd (by rw [here]; rfl) (inside_place inv.custody inside)

omit [DecidableEq ι] [Fintype ι] in
theorem call_beforePost {c : Choice} {q q' : Pc} {p p' : SessionPc} (after : afterCall c q q' p = some p')
    (within : place p ≠ .outside) (checked : Bool) : beforePost checked p' = 0 := by
  cases p with
  | unlockRefused role | unlockOut =>
    cases after
    rfl
  | unlockIn role => cases role <;> cases after <;> rfl
  | producing =>
    simp only [afterCall] at after
    split_ifs at after <;> cases after <;> rfl
  | consuming =>
    simp only [afterCall] at after
    split at after
    · cases after
      unfold afterConsumer
      split_ifs <;> rfl
    · cases after
      rfl
  | limit role | uncount role => cases after
  | _ => exact absurd rfl within

/-- Each statement of such a session brings it nearer to its `sem_post(mutex)`. -/
theorem inside_decreases {s t : Checking ι} (inv : Invariant s) {i : ι}
    (inside : InCriticalSection (s.server.queue.pc (some i))) {own : Act} (stays : own ≠ .disconnect)
    (taken : step s (.session i own) = some t) : untilPost t i < untilPost s i := by
  have within := inside_place inv.custody inside
  unfold untilPost
  rcases step_cases taken with ⟨j, result, same, evaluates, unchecked, rfl⟩ | ⟨j, holds, same, at', checked, rfl⟩ |
    ⟨away, moved, check⟩
  · cases same
    rw [unchecked]
    cases here : s.server.session i with
    | limit role => simp [beforePost]
    | uncount role =>
      cases role with
      | none => rw [here] at evaluates; cases evaluates
      | some role => simp [beforePost]
    | _ => rw [here] at evaluates; cases evaluates
  · cases same
    rw [checked]
    cases here : s.server.session i with
    | limit role => cases holds <;> simp [act, here, beforePost]
    | uncount role =>
      cases role with
      | none => rw [here] at at'; cases at'
      | some role => cases holds <;> simp [act, here, beforePost]
    | _ => rw [here] at at'; cases at'
  · rw [check]
    cases own with
    | disconnect => exact absurd rfl stays
    | read bytes =>
      obtain ⟨-, p, reads, -⟩ := read_cases moved
      cases here : s.server.session i <;> rw [here] at reads within <;>
        first | exact absurd rfl within | cases reads
    | call c =>
      obtain ⟨q, called, rest⟩ := Option.bind_eq_some_iff.mp moved
      obtain ⟨p, after, rest⟩ := Option.bind_eq_some_iff.mp rest
      obtain ⟨shared, q', stepped, rfl⟩ := Interleaving.step_cases called
      rw [← Option.some.inj rest]
      have nearer : toPost q' < toPost (s.server.queue.pc (some i)) := procStep_toPost stepped inside
      simp only [Function.update_self, call_beforePost after within]
      omega
    | next =>
      obtain ⟨queue, -, p, session, spec⟩ := next_cases moved
      rw [queue, session, Function.update_self]
      have unconditional := away i rfl
      revert within unconditional
      generalize s.server.session i = now at spec
      generalize t.server.clients = counted at spec
      intro within unconditional
      cases spec with
      | writes some' => cases now <;> first | exact absurd rfl within | cases some'
      | leaves => simp [beforePost]
      | closes => exact absurd rfl within
      | refuses | counts | uncounts => cases unconditional

/-! ### Admission -/

/-- In every run a counter is the number of the sessions that it counts, within its limit; a session that refuses its
    client changes no counter; and `mutex` is held by nobody but a session that is in the critical section, which
    nothing keeps from its next statement, and which each one brings nearer to the post of `mutex`. -/
theorem admission {s : Checking ι} (reached : Reachable step (start ι) s) :
    (∀ role, s.server.clients role = (Finset.univ.filter fun i => Admitted role (s.server.session i)).card ∧
      s.server.clients role ≤ maxClients role) ∧
    (∀ i role before after, s.server.session i = .unlockRefused role → exec step (start ι) before = some s →
      AllSteps step (fun u move => ∀ own v, move = .session i own → step u move = some v →
        v.server.clients = u.server.clients) (start ι) (before ++ after)) ∧
    s.server.queue.shared.mutex + (Finset.univ.filter fun p => InCriticalSection (s.server.queue.pc p)).card = 1 ∧
    (∀ i, place (s.server.session i) = .outside → ¬ InCriticalSection (s.server.queue.pc (some i))) ∧
    ∀ i, InCriticalSection (s.server.queue.pc (some i)) →
      (∃ own, own ≠ Act.disconnect ∧ (step s (.session i own)).isSome) ∧
      ∀ own t, own ≠ Act.disconnect → step s (.session i own) = some t → untilPost t i < untilPost s i := by
  have inv : Invariant s := reachable_kept step_invariant start_invariant reached
  refine ⟨fun role => ⟨?_, inv.limits role⟩, ?_, ?_, ?_, ?_⟩
  · have counts := inv.counts role
    rw [show admitted role = fun p => if Admitted role p then (1 : ℤ) else 0 from rfl, total_eq_card] at counts
    exact_mod_cast counts
  · intro i role before after refuses run
    have all : AllStates step (fun u => Unadmitted (u.server.session i) ∨ Refused (u.server.session i)) (start ι)
        (before ++ after) := by
      refine allStates_append ?_ fun t run' => ?_
      · refine allStates_mono (fun u => Or.inl) (allStates_back unadmitted_back run ?_)
        rw [refuses]
        trivial
      · obtain rfl := Option.some.inj (run.symm.trans run')
        have any : AllSteps step (fun _ _ => True) s after := allSteps_all (fun _ _ => trivial) _ _
        refine allStates_mono (fun u => Or.inr)
          (allStates_of (fun u move v holds _ => refused_kept u move v holds) ?_ any)
        rw [refuses]
        trivial
    refine allSteps_of_states (fun u move here later own v same taken => ?_) all
    subst same
    exact uncounted_kept taken (unadmitted_uncounted here) (unadmitted_uncounted (later v taken))
  · have mutex := inv.custody.queue.mutex
    rw [show inside = fun p => if InCriticalSection p then (1 : ℤ) else 0 from rfl, total_eq_card] at mutex
    exact_mod_cast mutex
  · intro i outside inside
    exact inside_place inv.custody inside outside
  · intro i inside
    exact ⟨inside_enabled inv inside, fun own t stays taken => inside_decreases inv inside stays taken⟩

end

/-- A producer's session up to the condition on the number of producers, and to what that gives. -/
def arrive (i : Fin 3) : List (Move (Fin 3)) :=
  [.session i .next, .session i (.read (roleName .producer ++ [10])), .session i (.call .lock), .session i .next,
    .session i .next]

/-- Two producers are admitted and the third is refused. -/
theorem admission_sample : ∃ s : Checking (Fin 3), s.server.session 2 = .unlockRefused .producer ∧
    s.server.clients .producer = (Finset.univ.filter fun i => Admitted .producer (s.server.session i)).card := by
  obtain ⟨s, run, refused⟩ : ∃ s, exec step (start (Fin 3)) (arrive 0 ++ [.session 0 (.call .go)] ++ arrive 1 ++
      [.session 1 (.call .go)] ++ arrive 2) = some s ∧ s.server.session 2 = .unlockRefused .producer :=
    Option.map_eq_some_iff.mp (by decide)
  exact ⟨s, refused, ((admission ⟨_, run⟩).1 .producer).1⟩

end

end OsyProg.Admission
