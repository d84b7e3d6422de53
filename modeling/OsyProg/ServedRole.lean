import OsyProg.Sessions

/-!
What a session of `OsyProg.Sessions` does once it has read the role of its client:
it stays in the part of `handle_client` for that role (`Serves`), and has a line that
it read, or an item that was copied out, at hand. A statement in the queue takes
nothing from these and adds nothing (`call_produced`, `call_consumed`), and
`consumer` fails after a timeout or an error only (`call_unfailing`).
-/
namespace OsyProg.ServedRole
open OsyProg.Bytes OsyProg.ShmQueue OsyProg.Sessions

/-- A session that has read the role of its client, and has not refused it. -/
def Serves : Role → SessionPc → Prop
  | r, .lockIn role | r, .limit role | r, .unlockIn role => role = r
  | .producer, .readItem | .producer, .produce _ | .producer, .producing | .producer, .ack => True
  | .consumer, .consume | .consumer, .consuming | .consumer, .send _ | .consumer, .readAck => True
  | .consumer, .sendTimeout | .consumer, .sendError => True
  | r, .lockOut role | r, .uncount role => role = some r
  | _, .unlockOut | _, .close | _, .closed => True
  | _, _ => False

/-- A session that has not counted its client. -/
def Early : SessionPc → Prop
  | .welcome | .readTask | .lockIn _ | .limit _ => True
  | _ => False

/-- A session of a consumer that has failed, or has left its loop. -/
def Failing : SessionPc → Pc → Prop
  | .consuming, .returned result _ => result ≠ 0
  | .sendTimeout, _ | .sendError, _ | .lockOut _, _ | .uncount _, _ | .unlockOut, _ | .close, _ | .closed, _ => True
  | _, _ => False

/-- The lines that a producer's session has read and not copied in. -/
def pendingIn : SessionPc → Pc → List Bytes
  | .produce item, _ => [item]
  | .producing, .waitEmpty item | .producing, .waitMutex item | .producing, .countIn item
  | .producing, .format item | .producing, .copyIn item => [item]
  | _, _ => []

/-- What a session has to read of its client after the role. -/
def unreadData : SessionPc → List Bytes → List Bytes
  | .welcome, toServer | .readTask, toServer => toServer.tail
  | _, toServer => toServer

theorem unreadData_served {r : Role} {p : SessionPc} (serves : Serves r p) (toServer : List Bytes) :
    unreadData p toServer = toServer := by
  cases p <;> first | rfl | (cases r <;> exact serves.elim)

/-! ### Statements outside the queue -/

/-- A statement of a session that is no read, outside the queue. -/
inductive NextSpec (clients : Role → ℕ) : SessionPc → SessionPc → (Role → ℕ) → Prop
  | writes {p : SessionPc} (some' : (message p).isSome) : NextSpec clients p (afterWrite p) clients
  | refuses {role : Role} (full : maxClients role ≤ clients role) :
    NextSpec clients (.limit role) (.unlockRefused role) clients
  | counts {role : Role} :
    NextSpec clients (.limit role) (.unlockIn role) (Function.update clients role (clients role + 1))
  | leaves : NextSpec clients (.uncount none) .unlockOut clients
  | uncounts {role : Role} :
    NextSpec clients (.uncount (some role)) .unlockOut (Function.update clients role (clients role - 1))
  | closes : NextSpec clients .close .closed clients

theorem next_cases {ι : Type} [DecidableEq ι] {s t : Server ι} {r : ι} (taken : onNext s r = some t) :
    t.queue = s.queue ∧ t.connected = s.connected ∧
      ∃ p, t.session = Function.update s.session r p ∧ NextSpec s.clients (s.session r) p t.clients := by
  have writes : ∀ p, (message p).isSome = true → (write s r p).queue = s.queue ∧
      (write s r p).connected = s.connected ∧ (write s r p).session = Function.update s.session r (afterWrite p) ∧
      (write s r p).clients = s.clients := by
    intro p _
    cases p <;> exact ⟨rfl, rfl, rfl, rfl⟩
  simp only [onNext] at taken
  split at taken
  · next role here =>
    rw [here]
    split_ifs at taken with full
    · cases taken
      exact ⟨rfl, rfl, _, rfl, .refuses full⟩
    · cases taken
      exact ⟨rfl, rfl, _, rfl, .counts⟩
  · next here =>
    rw [here]
    cases taken
    exact ⟨rfl, rfl, _, rfl, .leaves⟩
  · next role here =>
    rw [here]
    cases taken
    exact ⟨rfl, rfl, _, rfl, .uncounts⟩
  · next here =>
    rw [here]
    cases taken
    exact ⟨rfl, rfl, _, rfl, .closes⟩
  · split_ifs at taken with some'
    cases taken
    obtain ⟨queue, connected, session, clients⟩ := writes (s.session r) some'
    refine ⟨queue, connected, _, session, ?_⟩
    rw [clients]
    exact .writes some'

theorem next_serves {r : Role} {p p' : SessionPc} {clients clients' : Role → ℕ} (serves : Serves r p)
    (counted : Early p → clients r = 0) (next : NextSpec clients p p' clients') : Serves r p' := by
  cases next with
  | writes => cases p <;> cases r <;> first | exact serves.elim | trivial
  | @refuses role full =>
    obtain rfl : role = r := by cases r <;> exact serves
    rw [counted trivial] at full
    cases role <;> cases full
  | counts => cases r <;> exact serves
  | leaves => cases r <;> cases serves
  | uncounts => cases r <;> trivial
  | closes => cases r <;> trivial

theorem next_early {p p' : SessionPc} {clients clients' : Role → ℕ} (next : NextSpec clients p p' clients')
    (early : Early p') : p = .welcome ∧ clients' = clients := by
  cases next with
  | writes some' => cases p <;> first | exact ⟨rfl, rfl⟩ | exact early.elim | cases some'
  | _ => exact early.elim

theorem next_pending {p p' : SessionPc} {clients clients' : Role → ℕ} (next : NextSpec clients p p' clients')
    (q : Pc) (toServer : List Bytes) :
    pendingIn p' q = pendingIn p q ∧ unreadData p' toServer = unreadData p toServer := by
  cases next with
  | writes => cases p <;> exact ⟨rfl, rfl⟩
  | _ => exact ⟨rfl, rfl⟩

/-! ### Statements inside the queue -/

theorem call_serves {r : Role} {c : Choice} {q q' : Pc} {p p' : SessionPc} (serves : Serves r p)
    (after : afterCall c q q' p = some p') : Serves r p' := by
  cases p with
  | lockIn role | lockOut role | produce item | consume =>
    simp only [afterCall] at after
    split_ifs at after
    cases after
    cases r <;> exact serves
  | unlockIn role =>
    obtain rfl : role = r := by cases r <;> exact serves
    cases role <;> cases after <;> trivial
  | producing =>
    simp only [afterCall] at after
    cases r with
    | producer => split_ifs at after <;> cases after <;> trivial
    | consumer => exact serves.elim
  | consuming =>
    cases r with
    | producer => exact serves.elim
    | consumer =>
      simp only [afterCall] at after
      split at after
      · cases after
        unfold afterConsumer
        split_ifs <;> trivial
      · cases after
        trivial
  | unlockRefused role => cases r <;> exact serves.elim
  | unlockOut =>
    cases after
    cases r <;> trivial
  | _ => cases after

theorem call_early {c : Choice} {q q' : Pc} {p p' : SessionPc} (after : afterCall c q q' p = some p')
    (early : Early p') : Early p := by
  cases p with
  | lockIn role => trivial
  | lockOut role | produce item | consume | producing =>
    simp only [afterCall] at after
    split_ifs at after <;> cases after <;> exact early
  | consuming =>
    simp only [afterCall] at after
    split at after
    · cases after
      unfold afterConsumer at early
      split_ifs at early <;> exact early
    · cases after
      exact early
  | unlockIn role =>
    cases role <;> cases after <;> exact early
  | unlockRefused role | unlockOut =>
    cases after
    exact early
  | _ => cases after

/-- A statement of `producer` copies in the item that its session has at hand, or keeps it. -/
theorem producing_pending {sh sh' : Shared} {q q' : Pc} {c : Choice} (own : procStep sh q c = some (sh', q'))
    (inside : InProducer q) (short : ∀ item ∈ pendingIn .producing q, item.length ≤ MAX_STR - 1) :
    sh'.produced ++ pendingIn .producing q' = sh.produced ++ pendingIn .producing q := by
  cases q with
  | format item =>
    cases c <;> cases own
    simp only [pendingIn, List.take_of_length_le (short item (List.mem_singleton.mpr rfl))]
  | copyIn item =>
    cases c <;> cases own
    simp only [pendingIn, strncpy, List.take_of_length_le (short item (List.mem_singleton.mpr rfl)), List.append_nil]
  | waitEmpty item | waitMutex item =>
    cases c <;> first | cases own | obtain ⟨positive, ⟨⟩⟩ := Option.ite_none_right_eq_some.mp own
    rfl
  | countIn item | advanceTail | addItem | postMutexIn | postFull =>
    cases c <;> cases own
    rfl
  | _ => exact inside.elim

/-- Outside `producer` nothing is copied in. -/
theorem produced_kept {sh sh' : Shared} {q q' : Pc} {c : Choice} (own : procStep sh q c = some (sh', q'))
    (outside : ¬ InProducer q) : sh'.produced = sh.produced := by
  rcases procStep_items own with ⟨tmp, rfl, -⟩ | ⟨-, -, -, produced, -⟩ | ⟨-, -, -, produced, -⟩
  · exact absurd trivial outside
  · exact produced
  · exact produced

theorem call_produced {sh sh' : Shared} {q q' : Pc} {c : Choice} {p p' : SessionPc}
    (own : procStep sh q c = some (sh', q')) (after : afterCall c q q' p = some p') (fits : At (place p) q)
    (short : ∀ item ∈ pendingIn p q, item.length ≤ MAX_STR - 1) :
    sh'.produced ++ pendingIn p' q' = sh.produced ++ pendingIn p q := by
  cases p with
  | produce item =>
    obtain rfl : q = .idle := fits
    simp only [afterCall] at after
    split_ifs at after with called
    cases after
    subst called
    cases own
    rfl
  | producing =>
    rw [← producing_pending own fits short]
    simp only [afterCall] at after
    split_ifs at after with idle
    · cases after
      rw [idle]
      rfl
    · cases after
      rfl
  | lockIn role | lockOut role | consume =>
    obtain rfl : q = .idle := fits
    simp only [afterCall] at after
    split_ifs at after
    cases after
    rw [produced_kept own id]
    rfl
  | unlockIn role =>
    obtain rfl : q = .holding := fits
    rw [produced_kept own id]
    cases role <;> cases after <;> rfl
  | unlockRefused role | unlockOut =>
    obtain rfl : q = .holding := fits
    rw [produced_kept own id]
    cases after
    rfl
  | consuming =>
    have outside : ¬ InProducer q := fun inside => by cases q <;> first | exact inside | exact fits
    rw [produced_kept own outside]
    simp only [afterCall] at after
    split at after
    · cases after
      unfold afterConsumer
      split_ifs <;> rfl
    · cases after
      rfl
  | _ => cases after

/-- The items copied out by a statement are those that its session has at hand after it and did not have before. -/
theorem call_consumed {sh sh' : Shared} {q q' : Pc} {c : Choice} {p p' : SessionPc}
    (own : procStep sh q c = some (sh', q')) (after : afterCall c q q' p = some p') (fits : At (place p) q) :
    ∃ new, sh'.consumed = sh.consumed ++ new ∧ (atHand p' q').toList = (atHand p q).toList ++ new := by
  have spec := afterCall_spec own after fits
  rcases procStep_items own with ⟨tmp, rfl, -, -, consumed⟩ | ⟨rfl, rfl, -, -, consumed⟩ | ⟨-, other, -, -, consumed⟩
  · exact ⟨[], by simp [consumed], by simp [spec.items Pc.noConfusion]⟩
  · obtain ⟨rfl, rfl⟩ := spec.copies rfl
    exact ⟨_, consumed, rfl⟩
  · exact ⟨[], by simp [consumed], by simp [spec.items other]⟩

/-- `consumer` fails after a timeout or an error only. -/
theorem procStep_returned {sh sh' : Shared} {q : Pc} {c : Choice} {result : ℤ} {item : Bytes}
    (own : procStep sh q c = some (sh', .returned result item)) : result = 0 ∨ c = .timeout ∨ c = .fail := by
  unfold procStep at own
  split at own
  all_goals first | cases own | obtain ⟨positive, ⟨⟩⟩ := Option.ite_none_right_eq_some.mp own
  all_goals first | exact .inl rfl | exact .inr (.inl rfl) | exact .inr (.inr rfl)

theorem call_unfailing {sh sh' : Shared} {q q' : Pc} {c : Choice} {p p' : SessionPc}
    (own : procStep sh q c = some (sh', q')) (after : afterCall c q q' p = some p') (served : c ≠ .timeout ∧ c ≠ .fail)
    (unfailing : ¬ Failing p q) : ¬ Failing p' q' := by
  cases p with
  | lockIn role | produce item | producing =>
    simp only [afterCall] at after
    split_ifs at after <;> cases after <;> exact id
  | consume =>
    simp only [afterCall] at after
    split_ifs at after with called
    cases after
    subst called
    cases q <;> cases own
    exact id
  | unlockIn role =>
    cases role <;> cases after <;> exact id
  | unlockRefused role =>
    cases after
    exact id
  | consuming =>
    simp only [afterCall] at after
    split at after
    · next result item =>
      cases after
      obtain rfl : result = 0 := not_not.mp unfailing
      exact id
    · cases after
      intro failing
      cases q' with
      | returned result item =>
        rcases procStep_returned own with zero | timeout | fail
        · exact failing zero
        · exact served.1 timeout
        · exact served.2 fail
      | _ => exact failing
  | lockOut role | unlockOut => exact absurd trivial unfailing
  | _ => cases after

/-! ### Reads -/

theorem read_early {bytes : Bytes} {p p' : SessionPc} (reads : afterRead bytes p = some p') (early : Early p') :
    p = .readTask := by
  cases p with
  | readTask => rfl
  | readItem | readAck =>
    simp only [afterRead] at reads
    split_ifs at reads <;> cases reads <;> exact early.elim
  | _ => cases reads

theorem read_serves {r : Role} {bytes : Bytes} {p p' : SessionPc} (serves : Serves r p)
    (reads : afterRead bytes p = some p') : Serves r p' := by
  cases p with
  | readItem | readAck =>
    simp only [afterRead] at reads
    split_ifs at reads <;> cases reads <;> cases r <;> first | exact serves.elim | exact rfl | trivial
  | readTask => cases r <;> exact serves.elim
  | _ => cases reads

end OsyProg.ServedRole
