import OsyProg.Sessions

/-!
Where each item is. A session that has copied an item out holds it until it writes
it to its socket. The ledger of held and written items has every number below the
count of items copied out exactly once (`Ledger`), and the queue has the others, so
an acknowledged item is always in one of these places (`item_kept`). The code never
puts an item back: when the client of a session closes while the session waits in
`consumer`, the next item goes to the closed socket (`item_lost`). A session can lose
no more than that one, since its next read returns 0.
-/
namespace OsyProg.Custody
open OsyProg.Bytes OsyProg.Interleaving OsyProg.Runs OsyProg.ShmQueue OsyProg.Sessions

section
variable {ι : Type} [DecidableEq ι]

/-! ### The ledger -/

/-- Every number below the count of items copied out is held by one session, or
    was written once, with the item of that number. -/
structure Ledger (taken : ι → Option ℕ) (writes : List (Write ι)) (produced : List Bytes) (count : ℕ) : Prop where
  taken_lt : ∀ i k, taken i = some k → k < count
  written : ∀ w ∈ writes, w.number < count ∧ produced[w.number]? = some w.item
  accounted : ∀ k < count, (∃ i, taken i = some k) ∨ ∃ w ∈ writes, w.number = k
  once : (writes.map Write.number).Nodup
  apart : ∀ i k, taken i = some k → ∀ w ∈ writes, w.number ≠ k
  single : ∀ i j k, taken i = some k → taken j = some k → i = j

variable {taken : ι → Option ℕ} {writes : List (Write ι)} {produced more : List Bytes} {count : ℕ}

theorem getElem?_prefix {k : ℕ} {item : Bytes} (grows : produced <+: more) (here : produced[k]? = some item) :
    more[k]? = some item := by
  obtain ⟨rest, rfl⟩ := grows
  obtain ⟨inside, -⟩ := List.getElem?_eq_some_iff.mp here
  rw [List.getElem?_append_left inside, here]

omit [DecidableEq ι] in
theorem Ledger.grow (ledger : Ledger taken writes produced count) (grows : produced <+: more) :
    Ledger taken writes more count :=
  { ledger with
    written := fun w inside => ⟨(ledger.written w inside).1, getElem?_prefix grows (ledger.written w inside).2⟩ }

/-- A session takes the next item. -/
theorem Ledger.take (ledger : Ledger taken writes produced count) {i : ι} (free : taken i = none) :
    Ledger (Function.update taken i (some count)) writes produced (count + 1) := by
  have before : ∀ j k, Function.update taken i (some count) j = some k →
      j = i ∧ k = count ∨ j ≠ i ∧ taken j = some k := by
    intro j k has
    by_cases its : j = i
    · subst its
      rw [Function.update_self] at has
      exact .inl ⟨rfl, (Option.some.inj has).symm⟩
    · rw [Function.update_of_ne its] at has
      exact .inr ⟨its, has⟩
  refine ⟨?_, ?_, ?_, ledger.once, ?_, ?_⟩
  · intro j k has
    rcases before j k has with ⟨-, rfl⟩ | ⟨-, had⟩
    · omega
    · have := ledger.taken_lt j k had
      omega
  · intro w inside
    have := (ledger.written w inside).1
    exact ⟨by omega, (ledger.written w inside).2⟩
  · intro k below
    rcases Nat.lt_succ_iff_lt_or_eq.mp below with earlier | rfl
    · rcases ledger.accounted k earlier with ⟨j, has⟩ | written
      · refine .inl ⟨j, ?_⟩
        rw [Function.update_of_ne, has]
        rintro rfl
        rw [free] at has
        cases has
      · exact .inr written
    · exact .inl ⟨i, Function.update_self ..⟩
  · intro j k has w inside
    rcases before j k has with ⟨-, rfl⟩ | ⟨-, had⟩
    · have := (ledger.written w inside).1
      omega
    · exact ledger.apart j k had w inside
  · intro j j' k has has'
    rcases before j k has with ⟨rfl, rfl⟩ | ⟨-, had⟩
    · rcases before j' k has' with ⟨rfl, -⟩ | ⟨-, had'⟩
      · rfl
      · have := ledger.taken_lt j' k had'
        omega
    · rcases before j' k has' with ⟨rfl, rfl⟩ | ⟨-, had'⟩
      · have := ledger.taken_lt j k had
        omega
      · exact ledger.single j j' k had had'

/-- A session writes the item it holds. -/
theorem Ledger.write (ledger : Ledger taken writes produced count) {w : Write ι} (holds : taken w.session = some w.number)
    (its : produced[w.number]? = some w.item) :
    Ledger (Function.update taken w.session none) (writes ++ [w]) produced count := by
  have before : ∀ j k, Function.update taken w.session none j = some k → j ≠ w.session ∧ taken j = some k := by
    intro j k has
    by_cases same : j = w.session
    · subst same
      rw [Function.update_self] at has
      cases has
    · rw [Function.update_of_ne same] at has
      exact ⟨same, has⟩
  refine ⟨fun j k has => ledger.taken_lt j k (before j k has).2, ?_, ?_, ?_, ?_, ?_⟩
  · intro v inside
    rcases List.mem_append.mp inside with old | new
    · exact ledger.written v old
    · obtain rfl := List.mem_singleton.mp new
      exact ⟨ledger.taken_lt _ _ holds, its⟩
  · intro k below
    rcases ledger.accounted k below with ⟨j, has⟩ | ⟨v, inside, number⟩
    · by_cases same : j = w.session
      · subst same
        refine .inr ⟨w, by simp, ?_⟩
        rw [holds] at has
        exact Option.some.inj has
      · exact .inl ⟨j, by rw [Function.update_of_ne same, has]⟩
    · exact .inr ⟨v, List.mem_append_left _ inside, number⟩
  · rw [List.map_append, List.nodup_append]
    refine ⟨ledger.once, by simp, ?_⟩
    rintro k written k' new rfl
    obtain ⟨v, inside, number⟩ := List.mem_map.mp written
    obtain rfl : k = w.number := by simpa using new
    exact ledger.apart _ _ holds v inside number
  · intro j k has v inside
    obtain ⟨other, had⟩ := before j k has
    rcases List.mem_append.mp inside with old | new
    · exact ledger.apart j k had v old
    · obtain rfl := List.mem_singleton.mp new
      rintro rfl
      exact other (ledger.single j v.session _ had holds)
  · intro j j' k has has'
    exact ledger.single j j' k (before j k has).2 (before j' k has').2

/-! ### The invariant -/

/-- The items written after the client had closed its socket. -/
def lostWrites (s : Server ι) : List (Write ι) := s.writes.filter fun w => !w.connected

variable [Fintype ι]

structure Invariant (s : Server ι) : Prop where
  queue : ShmQueue.Invariant s.queue
  places : ∀ i, At (place (s.session i)) (s.queue.pc (some i))
  made : ∀ i k, s.made i = some k → k < s.queue.shared.produced.length
  unacked : ∀ i, Unacked (s.session i) (s.queue.pc (some i)) → (s.made i).isSome
  acked : ∀ k ∈ s.acked, k < s.queue.shared.produced.length
  ledger : Ledger s.taken s.writes s.queue.shared.produced s.queue.shared.consumed.length
  held : ∀ i, (s.taken i = none ∧ atHand (s.session i) (s.queue.pc (some i)) = none) ∨
    ∃ k item, s.taken i = some k ∧ atHand (s.session i) (s.queue.pc (some i)) = some item ∧
      s.queue.shared.produced[k]? = some item
  lost : ∀ w ∈ lostWrites s, s.connected w.session = false ∧ Finished (s.session w.session)
  lostOnce : ((lostWrites s).map Write.session).Nodup

omit [Fintype ι] in
theorem finished_update {session : ι → SessionPc} {i j : ι} {p : SessionPc} (ends : Finished (session j))
    (here : j = i → Finished p) : Finished (Function.update session i p j) := by
  by_cases its : j = i
  · rw [its, Function.update_self]
    exact here its
  · rw [Function.update_of_ne its]
    exact ends

/-- A session that goes on by itself, outside the queue. -/
theorem quiet_invariant {s : Server ι} {i : ι} {p : SessionPc} {clients : Role → ℕ} (holds : Invariant s)
    (quiet : Quiet (s.connected i) (s.session i) p) :
    Invariant { s with session := Function.update s.session i p, clients } := by
  obtain ⟨same, -, items, finished⟩ := quiet
  refine ⟨holds.queue, ?_, holds.made, ?_, holds.acked, holds.ledger, ?_, ?_, holds.lostOnce⟩
  · refine (Function.forall_update_iff s.session fun j p => At (place p) (s.queue.pc (some j))).mpr ⟨?_, ?_⟩
    · exact same ▸ holds.places i
    · exact fun j _ => holds.places j
  · refine (Function.forall_update_iff s.session fun j p => Unacked p (s.queue.pc (some j)) →
      (s.made j).isSome = true).mpr ⟨?_, ?_⟩
    · exact fun later => absurd later (items _).2.2
    · exact fun j _ => holds.unacked j
  · refine (Function.forall_update_iff s.session fun j p =>
      (s.taken j = none ∧ atHand p (s.queue.pc (some j)) = none) ∨ ∃ k item, s.taken j = some k ∧
        atHand p (s.queue.pc (some j)) = some item ∧ s.queue.shared.produced[k]? = some item).mpr ⟨?_, ?_⟩
    · rcases holds.held i with ⟨free, -⟩ | ⟨k, item, -, hand, -⟩
      · exact .inl ⟨free, (items _).2.1⟩
      · rw [(items _).1] at hand
        cases hand
    · exact fun j _ => holds.held j
  · intro w inside
    obtain ⟨gone, ends⟩ := holds.lost w inside
    refine ⟨gone, finished_update ends ?_⟩
    rintro rfl
    exact finished gone ends

/-- `Ok` acknowledges the item the session has copied in. -/
theorem ack_invariant {s : Server ι} {i : ι} (holds : Invariant s) (here : s.session i = .ack) :
    Invariant (write s i .ack) := by
  obtain ⟨k, made⟩ := Option.isSome_iff_exists.mp (holds.unacked i (by rw [here]; trivial))
  have idle : s.queue.pc (some i) = .idle := by
    have := holds.places i
    rwa [here] at this
  have free : s.taken i = none := by
    rcases holds.held i with ⟨free, -⟩ | ⟨k, item, -, hand, -⟩
    · exact free
    · rw [here] at hand
      cases hand
  refine ⟨holds.queue, ?_, ?_, ?_, ?_, holds.ledger, ?_, ?_, holds.lostOnce⟩
  · exact forall_update (P := fun j p => At (place p) (s.queue.pc (some j))) (fun j _ => holds.places j) idle
  · exact (Function.forall_update_iff s.made fun j m => ∀ k, m = some k → k < s.queue.shared.produced.length).mpr
      ⟨fun k has => (by cases has), fun j _ => holds.made j⟩
  · refine forall_update (P := fun j p => Unacked p (s.queue.pc (some j)) →
      (Function.update s.made i none j).isSome = true) (fun j other => ?_) fun later => later.elim
    rw [Function.update_of_ne other]
    exact holds.unacked j
  · intro k' inside
    rcases List.mem_append.mp inside with old | new
    · exact holds.acked k' old
    · exact holds.made i k' (by simpa using new)
  · exact forall_update (P := fun j p => (s.taken j = none ∧ atHand p (s.queue.pc (some j)) = none) ∨
      ∃ k item, s.taken j = some k ∧ atHand p (s.queue.pc (some j)) = some item ∧
        s.queue.shared.produced[k]? = some item) (fun j _ => holds.held j) (.inl ⟨free, rfl⟩)
  · intro w inside
    obtain ⟨gone, ends⟩ := holds.lost w inside
    refine ⟨gone, finished_update ends ?_⟩
    rintro rfl
    rw [here] at ends
    exact ends.elim

/-- An item goes to the socket of the session that holds it; when its client has closed, no item was lost there before. -/
theorem send_invariant {s : Server ι} {i : ι} {item : Bytes} (holds : Invariant s) (here : s.session i = .send item) :
    Invariant (write s i (.send item)) := by
  have idle : s.queue.pc (some i) = .idle := by
    have := holds.places i
    rwa [here] at this
  obtain ⟨k, taken, produced⟩ : ∃ k, s.taken i = some k ∧ s.queue.shared.produced[k]? = some item := by
    rcases holds.held i with ⟨-, hand⟩ | ⟨k, item', taken, hand, produced⟩
    · rw [here] at hand
      cases hand
    · rw [here] at hand
      cases hand
      exact ⟨k, taken, produced⟩
  let w : Write ι := { session := i, number := k, item, connected := s.connected i }
  have written : write s i (.send item) =
      { s with session := Function.update s.session i .readAck, taken := Function.update s.taken i none,
               writes := s.writes ++ [w] } := by
    simp only [write, taken, afterWrite]
    rfl
  have fresh : ∀ v ∈ lostWrites s, v.session ≠ i := by
    rintro v inside rfl
    have := (holds.lost v inside).2
    rw [here] at this
    exact this
  rw [written]
  refine ⟨holds.queue, ?_, holds.made, ?_, holds.acked, holds.ledger.write (w := w) taken produced, ?_, ?_, ?_⟩
  · exact forall_update (P := fun j p => At (place p) (s.queue.pc (some j))) (fun j _ => holds.places j) idle
  · exact forall_update (P := fun j p => Unacked p (s.queue.pc (some j)) → (s.made j).isSome = true)
      (fun j _ => holds.unacked j) fun later => later.elim
  · refine forall_update (P := fun j p =>
      (Function.update s.taken i none j = none ∧ atHand p (s.queue.pc (some j)) = none) ∨
      ∃ k item, Function.update s.taken i none j = some k ∧ atHand p (s.queue.pc (some j)) = some item ∧
        s.queue.shared.produced[k]? = some item) (fun j other => ?_) (.inl ⟨Function.update_self .., rfl⟩)
    rw [Function.update_of_ne other]
    exact holds.held j
  · intro v inside
    obtain ⟨inside, lost⟩ := List.mem_filter.mp inside
    rcases List.mem_append.mp inside with old | new
    · have inside : v ∈ lostWrites s := List.mem_filter.mpr ⟨old, lost⟩
      obtain ⟨gone, ends⟩ := holds.lost v inside
      exact ⟨gone, finished_update ends fun its => absurd its (fresh v inside)⟩
    · obtain rfl := List.mem_singleton.mp new
      refine ⟨by simpa [w] using lost, ?_⟩
      show Finished (Function.update s.session i .readAck i)
      rw [Function.update_self]
      trivial
  · show (((s.writes ++ [w]).filter fun w => !w.connected).map Write.session).Nodup
    rw [List.filter_append, List.map_append, List.nodup_append]
    refine ⟨holds.lostOnce, ((List.filter_sublist (l := [w])).map _).nodup (by simp), ?_⟩
    rintro j old j' new rfl
    obtain ⟨v, inside, rfl⟩ := List.mem_map.mp old
    obtain ⟨v', inside', same⟩ := List.mem_map.mp new
    obtain rfl := List.mem_singleton.mp (List.mem_filter.mp inside').1
    exact fresh v inside same.symm

/-- The other writes change nothing but the point of the session. -/
theorem write_invariant {s : Server ι} {i : ι} (holds : Invariant s) (writes : (message (s.session i)).isSome) :
    Invariant (write s i (s.session i)) := by
  have plain : ∀ p, s.session i = p → place p = .outside → place (afterWrite p) = .outside →
      (∀ q, atHand p q = none ∧ atHand (afterWrite p) q = none ∧ ¬ Unacked (afterWrite p) q) → ¬ Finished p →
      Invariant { s with session := Function.update s.session i (afterWrite p) } := by
    intro p here before after items unfinished
    apply quiet_invariant holds
    rw [here]
    exact ⟨after.trans before.symm, .inl before, items, fun _ finished => absurd finished unfinished⟩
  cases here : s.session i with
  | ack => exact ack_invariant holds here
  | send item => exact send_invariant holds here
  | welcome | refuse | sendTimeout | sendError | unknown =>
    exact plain _ here rfl rfl (fun q => ⟨rfl, rfl, id⟩) id
  | _ =>
    rw [here] at writes
    cases writes

omit [Fintype ι] in
theorem call_elsewhere {s : Server ι} {i j : ι} {c : Choice} {q : Queue (Option ι)}
    (moved : ShmQueue.step s.queue (some i, c) = some q) (other : j ≠ i) : q.pc (some j) = s.queue.pc (some j) := by
  obtain ⟨shared, p, -, rfl⟩ := Interleaving.step_cases moved
  exact Function.update_of_ne (by simpa using other) ..

/-- The items that are made and not acknowledged are in the queue. -/
theorem made_call {s : Server ι} {i : ι} {c : Choice} {q : Queue (Option ι)} (holds : Invariant s)
    (moved : ShmQueue.step s.queue (some i, c) = some q) :
    ∀ j k, madeAfter s i j = some k → k < q.shared.produced.length := by
  intro j k has
  obtain ⟨grows, longer, -, -⟩ := step_history holds.queue moved
  have old : s.made j = some k → k < q.shared.produced.length := fun had => (holds.made j k had).trans_le grows.length_le
  by_cases other : j ≠ i
  · rw [madeAfter_other other] at has
    exact old has
  · obtain rfl := not_not.mp other
    unfold madeAfter at has
    split_ifs at has with copies
    · rw [Function.update_self] at has
      cases has
      rw [longer copies]
      exact Nat.lt_succ_self _
    · exact old has

/-- A session holds the item that it has taken out of the queue, and no other one. -/
theorem held_call {s : Server ι} {i : ι} {c : Choice} {q : Queue (Option ι)} {p : SessionPc} (holds : Invariant s)
    (moved : ShmQueue.step s.queue (some i, c) = some q)
    (spec : CallSpec (s.queue.pc (some i)) (q.pc (some i)) (s.session i) p) :
    ∀ j, (takenAfter s i j = none ∧ atHand (Function.update s.session i p j) (q.pc (some j)) = none) ∨
      ∃ k item, takenAfter s i j = some k ∧ atHand (Function.update s.session i p j) (q.pc (some j)) = some item ∧
        q.shared.produced[k]? = some item := by
  obtain ⟨grows, -, -, out⟩ := step_history holds.queue moved
  refine forall_update (P := fun j p => (takenAfter s i j = none ∧ atHand p (q.pc (some j)) = none) ∨
    ∃ k item, takenAfter s i j = some k ∧ atHand p (q.pc (some j)) = some item ∧
      q.shared.produced[k]? = some item) (fun j other => ?_) ?_
  · rw [takenAfter_other other, call_elsewhere moved other]
    rcases holds.held j with none | ⟨k, item, taken, hand, produced⟩
    · exact .inl none
    · exact .inr ⟨k, item, taken, hand, getElem?_prefix grows produced⟩
  · unfold takenAfter
    split_ifs with copies
    · obtain ⟨item, advanced, produced⟩ := (out copies).2
      refine .inr ⟨_, item, Function.update_self .., ?_, produced⟩
      rw [(spec.copies copies).2, advanced]
      rfl
    · rw [spec.items copies]
      rcases holds.held i with none | ⟨k, item, taken, hand, produced⟩
      · exact .inl none
      · exact .inr ⟨k, item, taken, hand, getElem?_prefix grows produced⟩

/-- A statement in the queue. An item is numbered when it is copied in, and when it is copied out. -/
theorem call_invariant {s : Server ι} {i : ι} {c : Choice} {q : Queue (Option ι)} {p : SessionPc}
    (holds : Invariant s) (moved : ShmQueue.step s.queue (some i, c) = some q)
    (after : afterCall c (s.queue.pc (some i)) (q.pc (some i)) (s.session i) = some p) :
    Invariant { s with
      queue := q
      session := Function.update s.session i p
      made := madeAfter s i
      taken := takenAfter s i } := by
  have queue := ShmQueue.step_invariant s.queue _ q holds.queue moved
  obtain ⟨grows, -, kept, out⟩ := step_history holds.queue moved
  have spec : CallSpec (s.queue.pc (some i)) (q.pc (some i)) (s.session i) p := by
    obtain ⟨shared, p', own, rfl⟩ := Interleaving.step_cases moved
    simp only [Function.update_self] at after ⊢
    exact afterCall_spec own after (holds.places i)
  have free : s.queue.pc (some i) = .copyOut → s.taken i = none := by
    intro copies
    rcases holds.held i with ⟨free, -⟩ | ⟨k, item, -, hand, -⟩
    · exact free
    · rw [copies, (spec.copies copies).1] at hand
      cases hand
  refine ⟨queue, ?_, ?_, ?_, ?_, ?_, ?_, ?_, holds.lostOnce⟩
  · refine forall_update (P := fun j p => At (place p) (q.pc (some j))) (fun j other => ?_) spec.fits
    rw [call_elsewhere moved other]
    exact holds.places j
  · exact made_call holds moved
  · refine forall_update (P := fun j p => Unacked p (q.pc (some j)) → (madeAfter s i j).isSome = true)
      (fun j other => ?_) fun later => ?_
    · rw [call_elsewhere moved other, madeAfter_other other]
      exact holds.unacked j
    · unfold madeAfter
      split_ifs with copies
      · rw [Function.update_self]
        rfl
      · exact holds.unacked i ((spec.unacked later).resolve_right copies)
  · intro k acked
    exact (holds.acked k acked).trans_le grows.length_le
  · show Ledger (takenAfter s i) s.writes q.shared.produced q.shared.consumed.length
    unfold takenAfter
    split_ifs with copies
    · rw [(out copies).1]
      exact (holds.ledger.grow grows).take (free copies)
    · rw [kept copies]
      exact holds.ledger.grow grows
  · exact held_call holds moved spec
  · intro w inside
    obtain ⟨gone, ends⟩ := holds.lost w inside
    refine ⟨gone, finished_update ends ?_⟩
    rintro rfl
    exact spec.finished ends

theorem step_invariant (s : Server ι) (move : Move ι) (t : Server ι) (holds : Invariant s)
    (taken : Sessions.step s move = some t) : Invariant t := by
  rcases step_cases taken with ⟨i, c, q, p, -, moved, after, rfl⟩ | ⟨i, -, writes, rfl⟩ |
    ⟨i, p, clients, quiet, rfl⟩ | ⟨i, open', rfl⟩ | ⟨c, q, command, moved, rfl⟩
  · exact call_invariant holds moved after
  · exact write_invariant holds writes
  · exact quiet_invariant holds quiet
  · refine { holds with lost := fun w inside => ?_ }
    obtain ⟨gone, ends⟩ := holds.lost w inside
    refine ⟨?_, ends⟩
    show Function.update s.connected i false w.session = false
    rw [Function.update_apply]
    split
    · rfl
    · exact gone
  · obtain ⟨pcs, produced, consumed⟩ := command_spec command moved
    exact
      { queue := ShmQueue.step_invariant s.queue _ q holds.queue moved
        places := by simpa only [pcs] using holds.places
        made := by simpa only [produced] using holds.made
        unacked := by simpa only [pcs] using holds.unacked
        acked := by simpa only [produced] using holds.acked
        ledger := by simpa only [produced, consumed] using holds.ledger
        held := by simpa only [pcs, produced] using holds.held
        lost := holds.lost
        lostOnce := holds.lostOnce }

omit [DecidableEq ι] in
theorem start_invariant : Invariant (start ι) := by
  refine ⟨ShmQueue.start_invariant, fun _ => rfl, ?_, fun _ later => later.elim, ?_, ?_, fun _ => .inl ⟨rfl, rfl⟩, ?_, ?_⟩
  · intro i k has
    cases has
  · intro k inside
    cases inside
  · refine ⟨fun i k has => (by cases has), fun w inside => (by cases inside), fun k below => ?_, .nil,
      fun i k has => (by cases has), fun i j k has => (by cases has)⟩
    exact absurd below (Nat.not_lt_zero k)
  · intro w inside
    cases inside
  · exact .nil

/-! ### Where an acknowledged item is -/

omit [DecidableEq ι] [Fintype ι] in
/-- Item `k` is in the buffer, held by a session with a connected client, or was written to one. -/
def Safe (s : Server ι) (k : ℕ) : Prop :=
  (s.queue.shared.consumed.length ≤ k ∧ s.queue.shared.produced[k]? = some (s.queue.shared.buffer (k % N))) ∨
    (∃ i item, s.connected i = true ∧ s.taken i = some k ∧ atHand (s.session i) (s.queue.pc (some i)) = some item ∧
      s.queue.shared.produced[k]? = some item) ∨
    ∃ w ∈ s.writes, w.connected = true ∧ w.number = k ∧ s.queue.shared.produced[k]? = some w.item

/-- The client of session `i` has closed, and the session holds item `k` or has written it to the closed socket. -/
def Lost (s : Server ι) (i : ι) (k : ℕ) : Prop :=
  s.connected i = false ∧ (s.taken i = some k ∨ ∃ w ∈ s.writes, w.connected = false ∧ w.session = i ∧ w.number = k)

theorem atHand_finished {p : SessionPc} (finished : Finished p) (q : Pc) : atHand p q = none := by
  cases p <;> first | rfl | exact finished.elim

omit [DecidableEq ι] [Fintype ι] in
/-- A number is written once. -/
theorem Ledger.write_unique (ledger : Ledger taken writes produced count) {v w : Write ι} (one : v ∈ writes)
    (other : w ∈ writes) (same : v.number = w.number) : v = w :=
  List.inj_on_of_nodup_map ledger.once one other same

omit [DecidableEq ι] in
/-- What is copied in is safe, or lost by one session. -/
theorem safe_or_lost {s : Server ι} (holds : Invariant s) {k : ℕ} (copied : k < s.queue.shared.produced.length) :
    Safe s k ∨ ∃ i, Lost s i k := by
  by_cases unread : s.queue.shared.consumed.length ≤ k
  · exact .inl (.inl ⟨unread, holds.queue.items.stored k unread copied⟩)
  · rcases holds.ledger.accounted k (not_le.mp unread) with ⟨i, taken⟩ | ⟨w, inside, number⟩
    · cases closed : s.connected i with
      | false => exact .inr ⟨i, closed, .inl taken⟩
      | true =>
        rcases holds.held i with ⟨free, -⟩ | ⟨k', item, taken', hand, produced⟩
        · rw [taken] at free
          cases free
        · obtain rfl := Option.some.inj (taken.symm.trans taken')
          exact .inl (.inr (.inl ⟨i, item, closed, taken, hand, produced⟩))
    · cases open' : w.connected with
      | false =>
        have lost : w ∈ lostWrites s := List.mem_filter.mpr ⟨inside, by simp [open']⟩
        exact .inr ⟨w.session, (holds.lost w lost).1, .inr ⟨w, inside, open', rfl, number⟩⟩
      | true =>
        refine .inl (.inr (.inr ⟨w, inside, open', number, ?_⟩))
        rw [← number]
        exact (holds.ledger.written w inside).2

omit [DecidableEq ι] in
/-- A safe item is not lost. -/
theorem not_lost {s : Server ι} (holds : Invariant s) {k : ℕ} (safe : Safe s k) (i : ι) : ¬ Lost s i k := by
  rintro ⟨closed, lost⟩
  have ledger := holds.ledger
  rcases safe with ⟨unread, -⟩ | ⟨j, item, open', taken, -⟩ | ⟨w, inside, open', number, -⟩
  · rcases lost with taken | ⟨w, inside, -, -, number⟩
    · have := ledger.taken_lt i k taken
      omega
    · have := (ledger.written w inside).1
      omega
  · rcases lost with taken' | ⟨w, inside, -, -, number⟩
    · obtain rfl := ledger.single i j k taken' taken
      rw [closed] at open'
      cases open'
    · exact ledger.apart j k taken w inside number
  · rcases lost with taken | ⟨w', inside', closed', -, number'⟩
    · exact ledger.apart i k taken w inside number
    · obtain rfl := ledger.write_unique inside inside' (number.trans number'.symm)
      rw [closed'] at open'
      cases open'

omit [DecidableEq ι] in
/-- A session loses one item at most: having lost one it holds none, and takes none. -/
theorem lost_unique {s : Server ι} (holds : Invariant s) {i : ι} {k k' : ℕ} (one : Lost s i k)
    (other : Lost s i k') : k = k' := by
  have never : ∀ k, s.taken i = some k → ∀ w ∈ s.writes, w.connected = false → w.session ≠ i := by
    rintro k taken w inside closed rfl
    have finished := (holds.lost w (List.mem_filter.mpr ⟨inside, by simp [closed]⟩)).2
    rcases holds.held w.session with ⟨free, -⟩ | ⟨k', item, -, hand, -⟩
    · rw [taken] at free
      cases free
    · rw [atHand_finished finished] at hand
      cases hand
  rcases one with ⟨-, taken | ⟨w, inside, closed, session, number⟩⟩
  · rcases other with ⟨-, taken' | ⟨w, inside, closed, session, -⟩⟩
    · exact Option.some.inj (taken.symm.trans taken')
    · exact absurd session (never k taken w inside closed)
  · rcases other with ⟨-, taken' | ⟨w', inside', closed', session', number'⟩⟩
    · exact absurd session (never k' taken' w inside closed)
    · have same : w = w' := List.inj_on_of_nodup_map holds.lostOnce
        (List.mem_filter.mpr ⟨inside, by simp [closed]⟩) (List.mem_filter.mpr ⟨inside', by simp [closed']⟩)
        (session.trans session'.symm)
      rw [← number, ← number', same]

/-- In every reachable state an acknowledged item is in the buffer, held by a session whose client is connected, or
    was written to a connected client, and otherwise the client of a session has closed and this session holds it or
    has written it to the closed socket. One session loses no second item. -/
theorem item_kept {s : Server ι} (reached : Reachable Sessions.step (start ι) s) :
    (∀ k ∈ s.acked, Safe s k ↔ ∀ i, ¬ Lost s i k) ∧ ∀ i k k', Lost s i k → Lost s i k' → k = k' := by
  have holds : Invariant s := reachable_kept step_invariant start_invariant reached
  refine ⟨fun k acked => ⟨fun safe => not_lost holds safe, fun unlost => ?_⟩, fun i k k' => lost_unique holds⟩
  exact (safe_or_lost holds (holds.acked k acked)).resolve_right fun ⟨i, lost⟩ => unlost i lost

end

/-! ### Runs -/

/-- The session of a producer that sends one item and is acknowledged. -/
def producerSession (i : Bool) (item : Bytes) : List (Move Bool) :=
  [.session i .next, .session i (.read (roleName .producer ++ [10])), .session i (.call .lock), .session i .next,
    .session i (.call .go), .session i (.read (item ++ [10])), .session i (.call (.produce item))] ++
    List.replicate 9 (.session i (.call .go)) ++ [.session i .next]

/-- The session of a consumer up to its wait for an item. -/
def consumerSession (i : Bool) : List (Move Bool) :=
  [.session i .next, .session i (.read (roleName .consumer ++ [10])), .session i (.call .lock), .session i .next,
    .session i (.call .go), .session i (.call .consume)] ++ List.replicate 3 (.session i (.call .go))

theorem item_kept_sample :
    ∃ s : Server Bool, s.acked = [0] ∧ (Safe s 0 ↔ ∀ i, ¬ Lost s i 0) := by
  obtain ⟨s, run, acked⟩ : ∃ s, exec Sessions.step (start Bool) (producerSession false (ascii ['a'])) = some s ∧
      s.acked = [0] :=
    Option.map_eq_some_iff.mp (by decide)
  exact ⟨s, acked, (item_kept ⟨_, run⟩).1 0 (by simp [acked])⟩

/-- The client of a consumer closes while its session waits for an item; the item that is then acknowledged goes to
    the closed socket. -/
theorem item_lost : ∃ s : Server Bool, Reachable Sessions.step (start Bool) s ∧ ∃ k ∈ s.acked, ¬ Safe s k := by
  let moves : List (Move Bool) := consumerSession true ++ [.session true .disconnect] ++
    producerSession false (ascii ['a']) ++ List.replicate 9 (.session true (.call .go)) ++ [.session true .next]
  obtain ⟨s, run, seen⟩ : ∃ s, exec Sessions.step (start Bool) moves = some s ∧
      (s.acked, s.queue.shared.consumed.length, s.taken false, s.taken true, s.writes.map Write.connected) =
        ([0], 1, none, none, [false]) :=
    Option.map_eq_some_iff.mp (by decide)
  simp only [Prod.mk.injEq] at seen
  obtain ⟨acked, consumed, free, free', writes⟩ := seen
  refine ⟨s, ⟨moves, run⟩, 0, by simp [acked], ?_⟩
  rintro (⟨unread, -⟩ | ⟨i, item, -, taken, -⟩ | ⟨w, inside, open', -⟩)
  · omega
  · cases i <;> simp [free, free'] at taken
  · have : w.connected ∈ s.writes.map Write.connected := List.mem_map_of_mem inside
    rw [writes, open'] at this
    simp at this

end OsyProg.Custody
