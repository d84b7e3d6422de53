import OsyProg.Clients
import OsyProg.Custody
import OsyProg.ServedRole
import Mathlib.Data.List.Chain

/-!
`run_producer_client` of `DU05_test/socket_srv.cpp` over the results of its reads, and
the sessions of `OsyProg.Sessions` that run it. The loop keeps nothing from one read to
the next: what a read returns is cut at its first newline, and the bytes after that are
lost. So a stream of lines comes through as its lines exactly when the reads cut it
between lines (`kept_eq_iff`).
-/
namespace OsyProg.ProducerClient
open OsyProg.Bytes OsyProg.Runs OsyProg.ShmQueue OsyProg.Sessions OsyProg.ServedRole OsyProg.Clients

/-- What a producer session does, seen from its client and from the queue. -/
inductive Event
  | read (bytes : Bytes)                        -- read(sock, item, sizeof(item) - 1)
  | called (item : Bytes)                       -- producer(item)
  | put (item : Bytes)                          -- the item is copied into the queue
  | ok                                          -- write(sock, "Ok\n", 3)
  deriving DecidableEq

/-- One pass of the loop: no item when the line is empty, else a call and its acknowledgement. -/
def pass (bytes : Bytes) : List Event := if line bytes = [] then [] else [.called (line bytes), .ok]

/-- The calls and the acknowledgements of `run_producer_client`, for the results of its
    reads; an empty one is that of a client that has disconnected. -/
def runProducerClient : List Bytes → List Event
  | [] => []
  | bytes :: rest => if bytes = [] then [] else pass bytes ++ runProducerClient rest

/-- The items passed to `producer`. -/
def calls (history : List Event) : List Bytes :=
  history.filterMap fun
    | .called item => some item
    | _ => none

/-- The number of times that Ok was written. -/
def oks (history : List Event) : ℕ := history.count .ok

/-- No read goes on after a newline, and a read that does not end with one is followed
    by one that begins with it. -/
def Aligned (pieces : List Bytes) : Prop :=
  (∀ p ∈ pieces, 10 ∉ p.dropLast) ∧ pieces.IsChain fun p q => p.getLast? = some 10 ∨ q.head? = some 10

instance : DecidablePred Aligned := fun pieces => by
  unfold Aligned
  infer_instance

/-! ### The items of a stream -/

/-- The lines of the pieces that are not empty. -/
def kept (pieces : List Bytes) : List Bytes := (pieces.map line).filter fun item => item ≠ []

@[simp] theorem calls_append (first second : List Event) : calls (first ++ second) = calls first ++ calls second :=
  List.filterMap_append

@[simp] theorem oks_append (first second : List Event) : oks (first ++ second) = oks first + oks second :=
  List.count_append

theorem kept_cons (p : Bytes) (rest : List Bytes) :
    kept (p :: rest) = if line p = [] then kept rest else line p :: kept rest := by
  by_cases empty : line p = []
  · simp [kept, empty]
  · simp [kept, empty]

/-- The items are the lines that are not empty, and each is acknowledged once. -/
theorem run_eq_kept {pieces : List Bytes} (full : ∀ p ∈ pieces, p ≠ []) :
    calls (runProducerClient pieces) = kept pieces ∧ oks (runProducerClient pieces) = (kept pieces).length := by
  induction pieces with
  | nil => exact ⟨rfl, rfl⟩
  | cons p rest ih =>
    obtain ⟨items, acks⟩ := ih fun q inside => full q (List.mem_cons_of_mem _ inside)
    have some' : p ≠ [] := full p (List.mem_cons_self ..)
    rw [runProducerClient, if_neg some', calls_append, oks_append, items, acks, kept_cons, pass]
    by_cases empty : line p = []
    · simp [empty, calls, oks]
    · simp [empty, calls, oks, add_comm]

/-! ### Cutting a stream -/

/-- The bytes that are no newline. -/
def payload (bytes : Bytes) : ℕ := bytes.countP fun b => b ≠ 10

theorem payload_append (first second : Bytes) : payload (first ++ second) = payload first + payload second :=
  List.countP_append

theorem line_payload (bytes : Bytes) : (line bytes).length ≤ payload bytes := by
  have own : (line bytes).countP (fun b => b ≠ 10) = (line bytes).length := by
    rw [List.countP_eq_length]
    intro b inside
    have := List.mem_takeWhile_imp inside
    simp only [ne_eq, decide_eq_true_eq] at this ⊢
    exact this.2.2
  rw [← own]
  exact List.Sublist.countP_le (List.takeWhile_sublist _)

theorem kept_payload (pieces : List Bytes) : ((kept pieces).map List.length).sum ≤ payload pieces.flatten := by
  induction pieces with
  | nil => exact Nat.zero_le _
  | cons p rest ih =>
    rw [List.flatten_cons, payload_append, kept_cons]
    split_ifs
    · omega
    · have := line_payload p
      simp only [List.map_cons, List.sum_cons]
      omega

theorem text_payload {lines : List Bytes} (good : ∀ item ∈ lines, Line item) :
    payload (text lines) = (lines.map List.length).sum := by
  induction lines with
  | nil => rfl
  | cons item rest ih =>
    have here : payload item = item.length := by
      rw [payload, List.countP_eq_length]
      exact fun b inside => by simpa using ((good item (List.mem_cons_self ..)).plain b inside).2.2
    have whole : text (item :: rest) = item ++ ([10] ++ text rest) := by simp [text]
    rw [whole, payload_append, payload_append, here, ih fun other inside => good other (List.mem_cons_of_mem _ inside)]
    simp [payload]

/-- A stream of lines does not begin with a newline. -/
theorem text_head {lines : List Bytes} {more : Bytes} (good : ∀ item ∈ lines, Line item) : text lines ≠ 10 :: more := by
  intro same
  cases lines with
  | nil => cases same
  | cons item rest =>
    have here := good item (List.mem_cons_self ..)
    cases item with
    | nil => exact here.nonempty rfl
    | cons b others =>
      obtain ⟨rfl, -⟩ := List.cons.inj same
      exact here.no_newline (List.mem_cons_self ..)

/-- When the pieces have all the lines, no byte of the stream was lost before them. -/
theorem nothing_lost {lines pieces : List Bytes} {more : Bytes} (good : ∀ item ∈ lines, Line item)
    (stream : more ++ pieces.flatten = text lines) (all : kept pieces = lines) : more = [] := by
  have bytes : payload more + payload pieces.flatten = (lines.map List.length).sum := by
    rw [← payload_append, stream, text_payload good]
  have atMost := kept_payload pieces
  rw [all] at atMost
  cases more with
  | nil => rfl
  | cons b others =>
    by_cases newline : b = 10
    · subst newline
      exact absurd stream.symm (text_head good)
    · have : 0 < payload (b :: others) := List.countP_pos_iff.mpr ⟨b, List.mem_cons_self .., by simpa using newline⟩
      omega

/-- The first piece of a stream ends within the first line, or goes on to its newline. -/
theorem piece_cases {item p rest more : Bytes} (good : Line item) (stream : p ++ rest = item ++ 10 :: more) :
    (∃ m, item = p ++ m ∧ rest = m ++ 10 :: more ∧ line p = p) ∨
      ∃ m, p = item ++ 10 :: m ∧ more = m ++ rest ∧ line p = item := by
  rcases List.append_eq_append_iff.mp stream with ⟨m, rfl, rfl⟩ | ⟨m, rfl, onward⟩
  · refine .inl ⟨m, rfl, rfl, ?_⟩
    rw [line, List.takeWhile_eq_self_iff]
    exact fun b inside => by simpa using good.plain b (List.mem_append_left _ inside)
  · cases m with
    | nil => exact .inl ⟨[], by simp, by simpa using onward.symm, by simpa using good.line_self⟩
    | cons b others =>
      obtain ⟨rfl, rfl⟩ := List.cons.inj onward
      exact .inr ⟨others, rfl, rfl, good.line_append others⟩

theorem aligned_cons {p : Bytes} {rest : List Bytes} :
    Aligned (p :: rest) ↔
      10 ∉ p.dropLast ∧ (∀ q ∈ rest.head?, p.getLast? = some 10 ∨ q.head? = some 10) ∧ Aligned rest := by
  rw [Aligned, Aligned, List.forall_mem_cons, List.isChain_cons]
  tauto

theorem newline_last (first : Bytes) {more : Bytes} (last : 10 ∉ (first ++ 10 :: more).dropLast) : more = [] := by
  cases more with
  | nil => rfl
  | cons b others => exact absurd (by simp) last

/-- The lines come through exactly when the reads cut the stream between lines. -/
theorem kept_eq_iff {lines pieces : List Bytes} (good : ∀ item ∈ lines, Line item) (full : ∀ p ∈ pieces, p ≠ [])
    (stream : pieces.flatten = text lines) : kept pieces = lines ↔ Aligned pieces := by
  induction lines generalizing pieces with
  | nil =>
    obtain rfl : pieces = [] := by
      cases pieces with
      | nil => rfl
      | cons p rest => exact absurd (List.append_eq_nil_iff.mp stream).1 (full p (List.mem_cons_self ..))
    exact ⟨fun _ => ⟨by simp, .nil⟩, fun _ => rfl⟩
  | cons item others ih =>
    have here := good item (List.mem_cons_self ..)
    have later : ∀ other ∈ others, Line other := fun other inside => good other (List.mem_cons_of_mem _ inside)
    have whole : text (item :: others) = item ++ 10 :: text others := by simp [text]
    cases pieces with
    | nil => simp [whole] at stream
    | cons p rest =>
      have fullRest : ∀ q ∈ rest, q ≠ [] := fun q inside => full q (List.mem_cons_of_mem _ inside)
      have some' : p ≠ [] := full p (List.mem_cons_self ..)
      rw [whole, List.flatten_cons] at stream
      rw [kept_cons, aligned_cons]
      rcases piece_cases here stream with ⟨m, rfl, onward, whole'⟩ | ⟨m, rfl, onward, whole'⟩
      · -- the newline of the line is in another read
        rw [whole', if_neg some']
        have clean : 10 ∉ p := fun inside => here.no_newline (List.mem_append_left _ inside)
        have noEnd : p.getLast? ≠ some 10 := fun known => clean (List.mem_of_getLast? known)
        have inner : 10 ∉ p.dropLast := fun inside => clean (List.mem_of_mem_dropLast inside)
        cases rest with
        | nil => simp at onward
        | cons q rest =>
          rw [List.flatten_cons] at onward
          rw [kept_cons, aligned_cons]
          constructor
          · intro all
            obtain ⟨same, all⟩ := List.cons.inj all
            obtain rfl := List.self_eq_append_right.mp same
            cases q with
            | nil => exact absurd rfl (fullRest [] (List.mem_cons_self ..))
            | cons b n =>
              obtain ⟨rfl, after⟩ := List.cons.inj onward
              have all' : kept rest = others := by simpa [line] using all
              obtain rfl := nothing_lost later after all'
              have aligned := (ih later (fun r inside => fullRest r (List.mem_cons_of_mem _ inside)) after).mp all'
              exact ⟨inner, fun r first => .inr (by cases first; rfl), by simp, fun _ _ => .inl rfl, aligned⟩
          · rintro ⟨-, next, last, -, aligned⟩
            obtain ⟨n, rfl⟩ := List.head?_eq_some_iff.mp ((next q rfl).resolve_left noEnd)
            obtain rfl := newline_last [] last
            obtain rfl : m = [] := by
              cases m with
              | nil => rfl
              | cons b more =>
                obtain ⟨rfl, -⟩ := List.cons.inj onward
                exact absurd (by simp) here.no_newline
            have onward' := (List.cons.inj onward).2
            have all := (ih later (fun r inside => fullRest r (List.mem_cons_of_mem _ inside)) onward').mpr aligned
            simp [line, all]
      · rw [whole', if_neg here.nonempty]
        constructor
        · intro all
          have all' := (List.cons.inj all).2
          obtain rfl := nothing_lost later onward.symm all'
          refine ⟨by simpa using here.no_newline, fun _ _ => .inl (by simp), ?_⟩
          exact (ih later fullRest onward.symm).mp all'
        · rintro ⟨last, -, aligned⟩
          obtain rfl := newline_last item last
          rw [(ih later fullRest onward.symm).mpr aligned]

/-! ### Streams of lines -/

/-- Lines that fit the buffer are passed to `producer` one by one, and each is acknowledged once,
    exactly when the reads cut their stream between them. -/
theorem lines_received_iff {lines pieces : List Bytes} (good : ∀ item ∈ lines, Line item)
    (sizes : ∀ p ∈ pieces, p ≠ [] ∧ p.length ≤ MAX_STR - 1) (stream : pieces.flatten = text lines) :
    (calls (runProducerClient pieces) = lines ∧ oks (runProducerClient pieces) = lines.length) ↔ Aligned pieces := by
  have full : ∀ p ∈ pieces, p ≠ [] := fun p inside => (sizes p inside).1
  obtain ⟨items, acks⟩ := run_eq_kept full
  rw [items, acks, ← kept_eq_iff good full stream]
  exact and_iff_left_of_imp fun all => by rw [all]

theorem good_sample : ∀ item ∈ [ascii ['a', 'b', 'c'], ascii ['d']], Line item := by
  intro item inside
  rcases List.mem_pair.mp inside with rfl | rfl
  · exact ⟨by simp [ascii], by simp [ascii], by decide⟩
  · exact ⟨by simp [ascii], by simp [ascii], by decide⟩

theorem lines_received_iff_sample :
    calls (runProducerClient [ascii ['a', 'b', 'c'], [10], ascii ['d', '\n']]) = [ascii ['a', 'b', 'c'], ascii ['d']] :=
  ((lines_received_iff good_sample (by simp [ascii, MAX_STR]) (by simp [ascii, text])).mpr (by decide)).1

/-- One line read in two parts comes through as two, and two lines read at once as one. -/
theorem lines_lost :
    ¬ ∀ lines pieces : List Bytes, (∀ item ∈ lines, Line item) → (∀ p ∈ pieces, p ≠ [] ∧ p.length ≤ MAX_STR - 1) →
      pieces.flatten = text lines →
      calls (runProducerClient pieces) = lines ∧ oks (runProducerClient pieces) = lines.length := by
  intro always
  have all := always _ [ascii ['a', 'b', 'c', '\n', 'd', '\n']] good_sample (by simp [ascii, MAX_STR])
    (by simp [ascii, text])
  exact absurd all.1 (by decide)

/-! ### The sessions that run it -/

/-- What a statement of a session adds to its history; `p` and `q` are the points it is at. -/
def eventOf (p : SessionPc) (q : Pc) : Act → List Event
  | .read bytes => if p = .readItem then [.read bytes] else []
  | .call _ =>
    match p, q with
    | .produce item, _ => [.called item]
    | .producing, .copyIn tmp => [.put (strncpy tmp (MAX_STR - 1))]
    | _, _ => []
  | .next => if p = .ack then [.ok] else []
  | .disconnect => []

/-- What a session still does for the line it has at hand. -/
def owed : SessionPc → Pc → List Event
  | .produce item, _ => [.called item, .put item, .ok]
  | .producing, q => (pendingIn .producing q).map Event.put ++ [.ok]
  | .ack, _ => [.ok]
  | _, _ => []

/-- All that a session does for what it has read. -/
def served (bytes : Bytes) : List Event :=
  .read bytes :: if line bytes = [] then [] else [.called (line bytes), .put (line bytes), .ok]

/-- A statement makes good what is owed. -/
theorem next_owed {p p' : SessionPc} {clients clients' : Role → ℕ} (next : NextSpec clients p p' clients') (q : Pc) :
    eventOf p q .next ++ owed p' q = owed p q := by
  cases next with
  | writes => cases p <;> rfl
  | _ => rfl

theorem line_length (bytes : Bytes) : (line bytes).length ≤ bytes.length :=
  (List.takeWhile_sublist _).length_le

/-- A read brings the next line. -/
theorem read_owed {bytes : Bytes} {p p' : SessionPc} (reads : afterRead bytes p = some p') (q : Pc) :
    owed p q = [] ∧
      eventOf p q (.read bytes) ++ owed p' q = if p = .readItem then served bytes else [] := by
  cases p with
  | readTask | readAck =>
    simp only [afterRead] at reads
    split_ifs at reads <;> cases reads <;> exact ⟨rfl, rfl⟩
  | readItem =>
    refine ⟨rfl, ?_⟩
    simp only [afterRead] at reads
    split_ifs at reads with none empty
    · cases reads
      simp [eventOf, owed, served, none, line]
    · cases reads
      simp [eventOf, owed, served, empty]
    · cases reads
      simp [eventOf, owed, served, empty]
  | _ => cases reads

theorem read_pendingIn {bytes : Bytes} {p p' : SessionPc} (reads : afterRead bytes p = some p') (other : p ≠ .readItem)
    (q : Pc) : pendingIn p' q = [] := by
  cases p with
  | readItem => exact absurd rfl other
  | readTask | readAck =>
    simp only [afterRead] at reads
    split_ifs at reads <;> cases reads <;> rfl
  | _ => cases reads

theorem producing_owed {sh sh' : Shared} {q q' : Pc} {c : Choice} (own : procStep sh q c = some (sh', q'))
    (inside : InProducer q) (short : ∀ item ∈ pendingIn .producing q, item.length ≤ MAX_STR - 1) :
    eventOf .producing q (.call c) ++ (pendingIn .producing q').map Event.put =
        (pendingIn .producing q).map Event.put ∧
      ∀ item ∈ pendingIn .producing q', item.length ≤ MAX_STR - 1 := by
  cases q with
  | format item =>
    cases c <;> cases own
    have whole : item.take (MAX_STR - 1) = item := List.take_of_length_le (short item (List.mem_singleton.mpr rfl))
    rw [whole]
    exact ⟨rfl, short⟩
  | copyIn item =>
    cases c <;> cases own
    have whole : item.take (MAX_STR - 1) = item := List.take_of_length_le (short item (List.mem_singleton.mpr rfl))
    simp [eventOf, pendingIn, strncpy, whole]
  | waitEmpty item | waitMutex item =>
    cases c <;> first | cases own | obtain ⟨positive, ⟨⟩⟩ := Option.ite_none_right_eq_some.mp own
    exact ⟨rfl, short⟩
  | countIn item | advanceTail | addItem | postMutexIn | postFull =>
    cases c <;> cases own
    exact ⟨rfl, short⟩
  | _ => exact inside.elim

theorem call_owed {sh sh' : Shared} {q q' : Pc} {c : Choice} {p p' : SessionPc}
    (own : procStep sh q c = some (sh', q')) (after : afterCall c q q' p = some p') (fits : At (place p) q)
    (short : ∀ item ∈ pendingIn p q, item.length ≤ MAX_STR - 1) :
    eventOf p q (.call c) ++ owed p' q' = owed p q ∧ ∀ item ∈ pendingIn p' q', item.length ≤ MAX_STR - 1 := by
  cases p with
  | produce item =>
    obtain rfl : q = .idle := fits
    simp only [afterCall] at after
    split_ifs at after with called
    cases after
    subst called
    cases own
    exact ⟨rfl, short⟩
  | producing =>
    obtain ⟨events, later⟩ := producing_owed own fits short
    simp only [afterCall] at after
    split_ifs at after with idle
    · cases after
      rw [idle] at events
      exact ⟨by rw [owed, owed, ← events]; simp [pendingIn], by simp [pendingIn]⟩
    · cases after
      exact ⟨by rw [owed, owed, ← events, List.append_assoc], later⟩
  | lockIn role | lockOut role | consume =>
    simp only [afterCall] at after
    split_ifs at after
    cases after
    exact ⟨rfl, by simp [pendingIn]⟩
  | unlockIn role => cases role <;> cases after <;> exact ⟨rfl, by simp [pendingIn]⟩
  | unlockRefused role | unlockOut =>
    cases after
    exact ⟨rfl, by simp [pendingIn]⟩
  | consuming =>
    simp only [afterCall] at after
    split at after
    · cases after
      unfold afterConsumer
      split_ifs <;> exact ⟨rfl, by simp [pendingIn]⟩
    · cases after
      exact ⟨rfl, by simp [pendingIn]⟩
  | _ => cases after

/-- A session that has left its loop. -/
def Gone : SessionPc → Prop
  | .lockOut _ | .uncount _ | .unlockOut | .close | .closed => True
  | _ => False

theorem next_gone {p p' : SessionPc} {clients clients' : Role → ℕ} (next : NextSpec clients p p' clients')
    (gone : Gone p) : Gone p' := by
  cases next with
  | writes => cases p <;> first | exact gone.elim | trivial
  | _ => first | exact gone.elim | trivial

theorem call_gone {c : Choice} {q q' : Pc} {p p' : SessionPc} (after : afterCall c q q' p = some p') (gone : Gone p) :
    Gone p' := by
  cases p with
  | lockOut role =>
    simp only [afterCall] at after
    split_ifs at after
    cases after
    trivial
  | unlockOut =>
    cases after
    trivial
  | _ => first | exact gone.elim | cases after

section
variable {ι : Type} [DecidableEq ι]

/-- What a step adds to the history of session `i`. -/
def events (i : ι) (s : Server ι) : Move ι → List Event
  | .session j act => if j = i then eventOf (s.session i) (s.queue.pc (some i)) act else []
  | .main _ => []

variable [Fintype ι] {i : ι} {s t : Server ι} {past : List Event}

/-- A session has done all that it had to for its reads but what is still owed; only the last may have returned 0. -/
structure Follows (i : ι) (s : Server ι) (past : List Event) : Prop where
  custody : Custody.Invariant s
  short : ∀ item ∈ pendingIn (s.session i) (s.queue.pc (some i)), item.length ≤ MAX_STR - 1
  history : ∃ reads last, (∀ b ∈ reads, b ≠ []) ∧
    past ++ owed (s.session i) (s.queue.pc (some i)) = (reads ++ last).flatMap served ∧
      (last = [] ∨ last = [[]] ∧ Gone (s.session i))

omit [DecidableEq ι] in
theorem start_follows (i : ι) : Follows i (start ι) [] :=
  ⟨Custody.start_invariant, fun _ inside => absurd inside List.not_mem_nil, [], [], by simp, rfl, .inl rfl⟩

/-- A step that leaves the points of the session as they are. -/
theorem follows_idle {move : Move ι} (follows : Follows i s past) (taken : Sessions.step s move = some t)
    (session : t.session i = s.session i) (pc : t.queue.pc (some i) = s.queue.pc (some i))
    (silent : events i s move = []) : Follows i t (past ++ events i s move) := by
  obtain ⟨custody, short, history⟩ := follows
  refine ⟨Custody.step_invariant s move t custody taken, ?_, ?_⟩
  · rwa [session, pc]
  · rwa [session, pc, silent, List.append_nil]

/-- A step that makes good what is owed, and reads nothing. -/
theorem follows_on {move : Move ι} (follows : Follows i s past) (taken : Sessions.step s move = some t)
    (same : events i s move ++ owed (t.session i) (t.queue.pc (some i)) = owed (s.session i) (s.queue.pc (some i)))
    (short : ∀ item ∈ pendingIn (t.session i) (t.queue.pc (some i)), item.length ≤ MAX_STR - 1)
    (gone : Gone (s.session i) → Gone (t.session i)) : Follows i t (past ++ events i s move) := by
  obtain ⟨custody, -, reads, last, full, history, ends⟩ := follows
  refine ⟨Custody.step_invariant s move t custody taken, short, reads, last, full, ?_, ?_⟩
  · rw [List.append_assoc, same, history]
  · exact ends.imp_right fun known => ⟨known.1, gone known.2⟩

omit [Fintype ι] in
/-- A step of a session leaves the points of the others as they are. -/
theorem other_kept {j : ι} {act : Act} (other : i ≠ j) (taken : Sessions.step s (.session j act) = some t) :
    t.session i = s.session i ∧ t.queue.pc (some i) = s.queue.pc (some i) := by
  cases act with
  | disconnect =>
    simp only [Sessions.step] at taken
    split_ifs at taken
    cases taken
    exact ⟨rfl, rfl⟩
  | next =>
    obtain ⟨queue, -, p, session, -⟩ := next_cases taken
    rw [session, queue]
    exact ⟨Function.update_of_ne other .., rfl⟩
  | call c =>
    obtain ⟨q, moved, rest⟩ := Option.bind_eq_some_iff.mp taken
    obtain ⟨p, -, rest⟩ := Option.bind_eq_some_iff.mp rest
    cases rest
    obtain ⟨shared, pc, -, rfl⟩ := Interleaving.step_cases moved
    exact ⟨Function.update_of_ne other .., Function.update_of_ne (by simpa using other) ..⟩
  | read bytes =>
    obtain ⟨-, p, -, rfl⟩ := read_cases taken
    exact ⟨Function.update_of_ne other .., rfl⟩

/-- A read at the head of the loop brings a line, or tells that the client has gone. -/
theorem read_follows {bytes : Bytes} (follows : Follows i s past) (here : s.session i = .readItem)
    (taken : Sessions.step s (.session i (.read bytes)) = some t) :
    Follows i t (past ++ events i s (.session i (.read bytes))) := by
  have custody := Custody.step_invariant s _ t follows.custody taken
  obtain ⟨⟨-, size⟩, moved⟩ := Option.ite_none_right_eq_some.mp taken
  obtain ⟨p, reads, rfl⟩ := Option.map_eq_some_iff.mp moved
  rw [here] at reads size
  have event : events i s (.session i (.read bytes)) = eventOf .readItem (s.queue.pc (some i)) (.read bytes) := by
    rw [← here]
    exact if_pos rfl
  obtain ⟨-, same⟩ := read_owed reads (s.queue.pc (some i))
  obtain ⟨earlier, last, full, history, ends⟩ := follows.history
  obtain rfl : last = [] := ends.resolve_right fun known => by
    rw [here] at known
    exact known.2
  have idle : owed .readItem (s.queue.pc (some i)) = [] := rfl
  rw [here, idle, List.append_nil, List.append_nil] at history
  refine ⟨custody, ?_, ?_⟩
  · simp only [Function.update_self]
    simp only [afterRead] at reads
    have := line_length bytes
    split_ifs at reads <;> cases reads <;> simp only [pendingIn, List.not_mem_nil, List.mem_singleton] <;>
      intro item known
    · exact known.elim
    · exact known.elim
    · rw [known]
      exact this.trans size
  · rw [event]
    simp only [Function.update_self]
    by_cases gone : bytes = []
    · refine ⟨earlier, [bytes], full, ?_, .inr ⟨by rw [gone], ?_⟩⟩
      · rw [List.append_assoc, same, history, if_pos rfl]
        simp
      · simp only [afterRead, if_pos gone] at reads
        cases reads
        trivial
    · refine ⟨earlier ++ [bytes], [], ?_, ?_, .inl rfl⟩
      · simpa [or_imp, forall_and] using ⟨full, gone⟩
      · rw [List.append_assoc, same, history, if_pos rfl]
        simp

theorem next_pendingIn {p p' : SessionPc} {clients clients' : Role → ℕ} (next : NextSpec clients p p' clients')
    (q : Pc) : pendingIn p' q = pendingIn p q := (next_pending next q []).1

theorem step_follows {move : Move ι} (follows : Follows i s past) (taken : Sessions.step s move = some t) :
    Follows i t (past ++ events i s move) := by
  cases move with
  | main c =>
    refine follows_idle follows taken ?_ ?_ rfl
    · simp only [Sessions.step] at taken
      split_ifs at taken
      obtain ⟨q, -, rfl⟩ := Option.map_eq_some_iff.mp taken
      rfl
    · simp only [Sessions.step] at taken
      split_ifs at taken with command
      obtain ⟨q, moved, rfl⟩ := Option.map_eq_some_iff.mp taken
      exact congrFun (command_spec command moved).1 _
  | session j act =>
    by_cases its : j = i
    · subst its
      have events_eq : events j s (.session j act) = eventOf (s.session j) (s.queue.pc (some j)) act := if_pos rfl
      cases act with
      | disconnect =>
        refine follows_idle follows taken ?_ ?_ events_eq
        all_goals
          simp only [Sessions.step] at taken
          split_ifs at taken
          cases taken
          rfl
      | next =>
        obtain ⟨queue, -, p, session, next⟩ := next_cases taken
        have here : t.session j = p := by rw [session, Function.update_self]
        refine follows_on follows taken ?_ ?_ ?_
        · rw [events_eq, here, queue]
          exact next_owed next _
        · rw [here, queue, next_pendingIn next]
          exact follows.short
        · rw [here]
          exact next_gone next
      | call c =>
        obtain ⟨q, moved, rest⟩ := Option.bind_eq_some_iff.mp taken
        obtain ⟨p, after, rest⟩ := Option.bind_eq_some_iff.mp rest
        cases rest
        obtain ⟨shared, pc, own, rfl⟩ := Interleaving.step_cases moved
        simp only [Function.update_self] at after
        obtain ⟨same, short⟩ := call_owed own after (follows.custody.places j) follows.short
        refine follows_on follows taken ?_ ?_ ?_
        · simpa only [Function.update_self, events_eq] using same
        · simpa only [Function.update_self] using short
        · simpa only [Function.update_self] using call_gone after
      | read bytes =>
        by_cases here : s.session j = .readItem
        · exact read_follows follows here taken
        · obtain ⟨-, p, reads, rfl⟩ := read_cases taken
          obtain ⟨before, same⟩ := read_owed reads (s.queue.pc (some j))
          rw [if_neg here] at same
          refine follows_on follows taken ?_ ?_ ?_
          · simpa only [Function.update_self, events_eq, before] using same
          · simp only [Function.update_self]
            rw [read_pendingIn reads here]
            simp
          · intro gone
            cases at' : s.session j <;> rw [at'] at reads gone <;> first | exact gone.elim | cases reads
    · obtain ⟨session, pc⟩ := other_kept (Ne.symm its) taken
      exact follows_idle follows taken session pc (if_neg its)

end

/-- The results of the reads in a history. -/
def reads (history : List Event) : List Bytes :=
  history.filterMap fun
    | .read bytes => some bytes
    | _ => none

/-- The calls and the acknowledgements in a history. -/
def acts (history : List Event) : List Event :=
  history.filter fun
    | .called _ | .ok => true
    | _ => false

theorem owed_reads (p : SessionPc) (q : Pc) : reads (owed p q) = [] := by
  cases p with
  | producing =>
    simp only [owed, reads, List.filterMap_append, List.filterMap_map]
    simp
  | _ => rfl

theorem served_all (pieces : List Bytes) :
    reads (pieces.flatMap served) = pieces ∧ acts (pieces.flatMap served) = pieces.flatMap pass := by
  induction pieces with
  | nil => exact ⟨rfl, rfl⟩
  | cons bytes rest ih =>
    have here : reads (served bytes) = [bytes] ∧ acts (served bytes) = pass bytes := by
      unfold served pass
      split_ifs <;> exact ⟨rfl, rfl⟩
    rw [List.flatMap_cons, List.flatMap_cons, ← ih.2]
    exact ⟨by rw [reads, List.filterMap_append]; exact congrArg₂ _ here.1 ih.1,
      by rw [acts, List.filter_append]; exact congrArg₂ _ here.2 rfl⟩

theorem runProducerClient_append {first : List Bytes} (full : ∀ b ∈ first, b ≠ []) (second : List Bytes) :
    runProducerClient (first ++ second) = first.flatMap pass ++ runProducerClient second := by
  induction first with
  | nil => rfl
  | cons bytes rest ih =>
    rw [List.cons_append, runProducerClient, if_neg (full bytes (List.mem_cons_self ..)),
      ih fun b inside => full b (List.mem_cons_of_mem _ inside), List.flatMap_cons, List.append_assoc]

/-- In every run a session has made the calls and written the acknowledgements of `run_producer_client` for its
    reads, but for those that it still owes. -/
theorem session_runs {ι : Type} [DecidableEq ι] [Fintype ι] {t : Server ι} {moves : List (Move ι)}
    (run : exec Sessions.step (start ι) moves = some t) (i : ι) :
    let past := trace Sessions.step (events i) (start ι) moves
    acts past ++ acts (owed (t.session i) (t.queue.pc (some i))) = runProducerClient (reads past) := by
  intro past
  have follows : Follows i t past := exec_trace (fun _ _ _ _ => step_follows) (start_follows i) run
  obtain ⟨earlier, last, full, history, ends⟩ := follows.history
  have all : reads past = earlier ++ last := by
    have := congrArg reads history
    rwa [reads, List.filterMap_append, ← reads, ← reads, owed_reads, List.append_nil, (served_all _).1] at this
  rw [acts, acts, ← List.filter_append, history, ← acts, (served_all _).2, all, runProducerClient_append full,
    List.flatMap_append]
  rcases ends with rfl | ⟨rfl, -⟩ <;> rfl

end OsyProg.ProducerClient
