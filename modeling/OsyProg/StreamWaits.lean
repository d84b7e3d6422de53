import OsyProg.StreamRuns

/-!
Why a task waits at a stream buffer. One that waits and is not notified is known to the
other one, and there is nothing for it: fewer bytes than the trigger level, or less space
than it needs. Only a task that is about to look, or about to notify, may not have told it
yet (`Attentive`). So both wait at once only when the trigger level and the space that is
needed exceed the length together (`waits_justified`).
-/
namespace OsyProg.StreamBuffers
open OsyProg.Bytes OsyProg.Streams OsyProg.Ring OsyProg.Runs

/-- The task that sends has moved `xHead`, and may still notify the other one of it. -/
def Sender.Telling (sender : Sender) : Prop := sender = .counting ∨ sender = .completing

def Receiver.Telling (receiver : Receiver) : Prop := receiver = .completing

/-- The call is in the loop that waits for space. -/
def Sender.Loops (sender : Sender) (c : Sending) : Prop :=
  sender = .checking c ∨ sender = .waiting c ∨ sender = .woken c ∨ sender = .timing c

/-- A task that waits and is not notified is told when there is something for it. -/
structure Attentive (s : State) : Prop where
  receiverKnown : ∀ task, s.buffer.xTaskWaitingToReceive = some task → task = .receiver
  senderKnown : ∀ task, s.buffer.xTaskWaitingToSend = some task → task = .sender
  receiver : ∀ n, s.receiver = .waiting n → s.notified .receiver = false →
    s.buffer.xTaskWaitingToReceive = some .receiver ∧
      (s.buffer.prvBytesInBuffer < s.buffer.xTriggerLevelBytes ∨ s.sender.Telling)
  sender : ∀ c, s.sender = .waiting c → s.notified .sender = false →
    s.buffer.xTaskWaitingToSend = some .sender ∧
      (s.buffer.xStreamBufferSpacesAvailable < c.xRequiredSpace ∨ s.receiver.Telling)
  fits : ∀ c, s.sender.Loops c → c.xRequiredSpace ≤ s.buffer.xLength - 1

variable {s t : State} {sent received : List Bytes}

/-! ### A task is notified -/

theorem Attentive.told_receiver (attentive : Attentive s) {n : ℕ} (waiting : s.receiver = .waiting n) :
    s.notifyReceiver.notified .receiver = true := by
  rw [State.notifyReceiver]
  split
  case h_1 task waits =>
    obtain rfl := attentive.receiverKnown task waits
    show Function.update s.notified .receiver true .receiver = true
    rw [Function.update_self]
  case h_2 nobody =>
    by_contra quiet
    have known := (attentive.receiver n waiting (Bool.eq_false_iff.mpr quiet)).1
    rw [nobody] at known
    cases known

theorem Attentive.told_sender (attentive : Attentive s) {c : Sending} (waiting : s.sender = .waiting c) :
    s.notifySender.notified .sender = true := by
  rw [State.notifySender]
  split
  case h_1 task waits =>
    obtain rfl := attentive.senderKnown task waits
    show Function.update s.notified .sender true .sender = true
    rw [Function.update_self]
  case h_2 nobody =>
    by_contra quiet
    have known := (attentive.sender c waiting (Bool.eq_false_iff.mpr quiet)).1
    rw [nobody] at known
    cases known

theorem Attentive.notifyReceiver (attentive : Attentive s) : Attentive s.notifyReceiver := by
  have told := @Attentive.told_receiver s attentive
  rw [State.notifyReceiver] at told ⊢
  split at told
  case h_1 task waits =>
    obtain rfl := attentive.receiverKnown task waits
    refine ⟨by simp, attentive.senderKnown, ?_, ?_, attentive.fits⟩
    · intro n waiting quiet
      have notified := told waiting
      rw [quiet] at notified
      cases notified
    · intro c waiting quiet
      have same : Function.update s.notified .receiver true .sender = s.notified .sender := by simp
      exact attentive.sender c waiting (same.symm.trans quiet)
  case h_2 => exact attentive

theorem Attentive.notifySender (attentive : Attentive s) : Attentive s.notifySender := by
  have told := @Attentive.told_sender s attentive
  rw [State.notifySender] at told ⊢
  split at told
  case h_1 task waits =>
    obtain rfl := attentive.senderKnown task waits
    refine ⟨attentive.receiverKnown, by simp, ?_, ?_, attentive.fits⟩
    · intro n waiting quiet
      have same : Function.update s.notified .sender true .receiver = s.notified .receiver := by simp
      exact attentive.receiver n waiting (same.symm.trans quiet)
    · intro c waiting quiet
      have notified := told waiting
      rw [quiet] at notified
      cases notified
  case h_2 => exact attentive

/-! ### Steps that leave the indices as they are -/

theorem Attentive.sends (attentive : Attentive s) {b : StreamBuffer} {notified : Task → Bool} {sender : Sender}
    (bytes : b.prvBytesInBuffer = s.buffer.prvBytesInBuffer)
    (level : b.xTriggerLevelBytes = s.buffer.xTriggerLevelBytes)
    (length : b.xLength = s.buffer.xLength) (waits : b.xTaskWaitingToReceive = s.buffer.xTaskWaitingToReceive)
    (known : ∀ task, b.xTaskWaitingToSend = some task → task = .sender)
    (same : notified .receiver = s.notified .receiver)
    (telling : s.sender.Telling → s.buffer.prvBytesInBuffer < s.buffer.xTriggerLevelBytes ∨ sender.Telling)
    (asleep : ∀ c, sender = .waiting c → b.xTaskWaitingToSend = some .sender ∧
      b.xStreamBufferSpacesAvailable < c.xRequiredSpace)
    (fits : ∀ c, sender.Loops c → c.xRequiredSpace ≤ s.buffer.xLength - 1) :
    Attentive { s with buffer := b, notified, sender } := by
  refine ⟨?_, known, ?_, ?_, ?_⟩
  · intro task waiting
    exact attentive.receiverKnown task (waits.symm.trans waiting)
  · intro n waiting quiet
    obtain ⟨told, why⟩ := attentive.receiver n waiting (same.symm.trans quiet)
    refine ⟨waits.trans told, ?_⟩
    show b.prvBytesInBuffer < b.xTriggerLevelBytes ∨ sender.Telling
    rw [bytes, level]
    exact why.elim .inl telling
  · intro c waiting _
    obtain ⟨told, none⟩ := asleep c waiting
    exact ⟨told, .inl none⟩
  · intro c loops
    show c.xRequiredSpace ≤ b.xLength - 1
    rw [length]
    exact fits c loops

theorem Attentive.receives (attentive : Attentive s) {b : StreamBuffer} {notified : Task → Bool} {receiver : Receiver}
    (spaces : b.xStreamBufferSpacesAvailable = s.buffer.xStreamBufferSpacesAvailable)
    (length : b.xLength = s.buffer.xLength) (waits : b.xTaskWaitingToSend = s.buffer.xTaskWaitingToSend)
    (known : ∀ task, b.xTaskWaitingToReceive = some task → task = .receiver)
    (same : notified .sender = s.notified .sender)
    (quiet : ¬ s.receiver.Telling)
    (asleep : ∀ n, receiver = .waiting n → b.xTaskWaitingToReceive = some .receiver ∧
      b.prvBytesInBuffer < b.xTriggerLevelBytes) :
    Attentive { s with buffer := b, notified, receiver } := by
  refine ⟨known, ?_, ?_, ?_, ?_⟩
  · intro task waiting
    exact attentive.senderKnown task (waits.symm.trans waiting)
  · intro n waiting _
    obtain ⟨told, none⟩ := asleep n waiting
    exact ⟨told, .inl none⟩
  · intro c waiting silent
    obtain ⟨told, why⟩ := attentive.sender c waiting (same.symm.trans silent)
    refine ⟨waits.trans told, .inl ?_⟩
    show b.xStreamBufferSpacesAvailable < c.xRequiredSpace
    rw [spaces]
    exact why.resolve_right quiet
  · intro c loops
    show c.xRequiredSpace ≤ b.xLength - 1
    rw [length]
    exact attentive.fits c loops

/-! ### What a call goes on with -/

/-- The call neither is in the loop nor tells of anything. -/
def Sender.Plain (sender : Sender) : Prop := ∀ c, ¬ sender.Loops c

theorem storing_plain (data : Bytes) (stores : List (ℕ × UInt8)) (next : Option ℕ) :
    (Sender.storing data stores next).Plain := by
  rintro c (h | h | h | h) <;> cases h

theorem write_plain (b : StreamBuffer) (data : Bytes) (space required : ℕ) :
    (prvWriteMessageToBuffer b data space required).Plain := by
  rw [prvWriteMessageToBuffer]
  simp only
  split
  · split
    · split
      · exact storing_plain _ _ _
      · exact storing_plain _ _ _
    · exact storing_plain _ _ _
  · split
    · exact storing_plain _ _ _
    · exact storing_plain _ _ _

theorem onward_plain (b : StreamBuffer) (c : Sending) : (c.onward b).Plain := by
  rw [Sending.onward]
  split
  · rintro d (h | h | h | h) <;> cases h
  · exact write_plain _ _ _ _

theorem readBytes_ne_waiting (b : StreamBuffer) (length available next n : ℕ) :
    readBytes b length available next ≠ .waiting n := by
  rw [readBytes]
  simp only
  split <;> simp

theorem available_ne_waiting (b : StreamBuffer) (length bytes n : ℕ) : available b length bytes ≠ .waiting n := by
  rw [available]
  split
  · rw [prvReadMessageFromBuffer]
    split
    · simp
    · exact readBytes_ne_waiting _ _ _ _ _
  · simp

/-- Nothing can be received only when there is nothing. -/
theorem Sound.empty (sound : Sound s sent received)
    (few : s.buffer.prvBytesInBuffer ≤ s.buffer.xBytesToStoreMessageLength) : s.buffer.prvBytesInBuffer = 0 := by
  rw [StreamBuffer.xBytesToStoreMessageLength] at few
  split at few
  case isFalse => omega
  case isTrue message =>
    have bytes := sound.bytes
    obtain ⟨rest, whole⟩ := sound.follows.2 message
    rw [← whole, stream_append, List.length_append, Nat.add_sub_cancel_left] at bytes
    cases rest with
    | nil => exact bytes
    | cons data rest =>
      have some := List.length_pos_of_ne_nil (sound.full data (whole ▸ List.mem_append_right _ (.head _)))
      have first : stream s.buffer.isMessageBuffer (data :: rest) =
          encoded s.buffer.isMessageBuffer data ++ stream s.buffer.isMessageBuffer rest := rfl
      rw [first, List.length_append, length_encoded, header, if_pos message] at bytes
      omega

/-- The sender is somewhere else in the loop of the same call. -/
theorem Attentive.same_call (attentive : Attentive s) (c c' : Sending) (before : s.sender.Loops c)
    (same : c'.xRequiredSpace = c.xRequiredSpace) {sender : Sender} (only : ∀ d, sender.Loops d → d = c') :
    ∀ d, sender.Loops d → d.xRequiredSpace ≤ s.buffer.xLength - 1 := by
  intro d loops
  rw [only d loops, same]
  exact attentive.fits c before

theorem sending_attentive {timeOut : Bool} (attentive : Attentive s) (taken : s.sending timeOut = some t) :
    Attentive t := by
  have told := @Attentive.told_receiver s attentive
  have notify := attentive.notifyReceiver
  obtain ⟨b, notified, sender, receiver⟩ := s
  have plain : ∀ {sender' : Sender}, sender'.Plain → ∀ c, sender'.Loops c → c.xRequiredSpace ≤ b.xLength - 1 :=
    fun plain c loops => absurd loops (plain c)
  have awake : ∀ {sender' : Sender}, sender'.Plain → ∀ c, sender' = .waiting c → b.xTaskWaitingToSend = some .sender ∧
      b.xStreamBufferSpacesAvailable < c.xRequiredSpace :=
    fun plain c waiting => absurd (.inr (.inl waiting)) (plain c)
  have quiet : ∀ x : Bool, Function.update notified .sender x .receiver = notified .receiver := by
    intro x
    simp
  cases sender with
  | idle => cases taken
  | checking c =>
    have silent : ¬ (Sender.checking c).Telling := by rintro (h | h) <;> cases h
    simp only [State.sending] at taken
    split at taken
    case isTrue none =>
      cases taken
      refine attentive.sends rfl rfl rfl rfl (by simp) (quiet false) (fun telling => absurd telling silent) ?_ ?_
      · rintro d ⟨⟩
        exact ⟨rfl, none⟩
      · refine attentive.same_call c { c with xSpace := b.xStreamBufferSpacesAvailable } (.inl rfl) rfl ?_
        rintro d (h | h | h | h) <;> cases h
        rfl
    case isFalse =>
      cases taken
      exact attentive.sends rfl rfl rfl rfl attentive.senderKnown rfl (fun telling => absurd telling silent)
        (awake (onward_plain _ _)) (plain (onward_plain _ _))
  | waiting c =>
    have silent : ¬ (Sender.waiting c).Telling := by rintro (h | h) <;> cases h
    simp only [State.sending] at taken
    split at taken
    · cases taken
      refine attentive.sends rfl rfl rfl rfl attentive.senderKnown (quiet false) (fun telling => absurd telling silent)
        (by simp) (attentive.same_call c c (.inr (.inl rfl)) rfl ?_)
      rintro d (h | h | h | h) <;> cases h
      rfl
    · cases taken
  | woken c =>
    have silent : ¬ (Sender.woken c).Telling := by rintro (h | h) <;> cases h
    cases taken
    refine attentive.sends rfl rfl rfl rfl (by simp) rfl (fun telling => absurd telling silent) (by simp)
      (attentive.same_call c c (.inr (.inr (.inl rfl))) rfl ?_)
    rintro d (h | h | h | h) <;> cases h
    rfl
  | timing c =>
    have silent : ¬ (Sender.timing c).Telling := by rintro (h | h) <;> cases h
    cases taken
    cases timeOut with
    | true =>
      exact attentive.sends rfl rfl rfl rfl attentive.senderKnown rfl (fun telling => absurd telling silent)
        (awake (onward_plain _ _)) (plain (onward_plain _ _))
    | false =>
      refine attentive.sends rfl rfl rfl rfl attentive.senderKnown rfl (fun telling => absurd telling silent) (by simp)
        (attentive.same_call c c (.inr (.inr (.inr rfl))) rfl ?_)
      rintro d (h | h | h | h) <;> cases h
      rfl
  | original c =>
    have silent : ¬ (Sender.original c).Telling := by rintro (h | h) <;> cases h
    have simple : (Sender.adding c b.xTail).Plain := by rintro d (h | h | h | h) <;> cases h
    cases taken
    exact attentive.sends rfl rfl rfl rfl attentive.senderKnown rfl (fun telling => absurd telling silent)
      (awake simple) (plain simple)
  | adding c tail =>
    have silent : ¬ (Sender.adding c tail).Telling := by rintro (h | h) <;> cases h
    have simple : (Sender.comparing { c with xSpace := b.spaces b.xTail } tail).Plain := by
      rintro d (h | h | h | h) <;> cases h
    cases taken
    exact attentive.sends rfl rfl rfl rfl attentive.senderKnown rfl (fun telling => absurd telling silent)
      (awake simple) (plain simple)
  | comparing c tail =>
    have silent : ¬ (Sender.comparing c tail).Telling := by rintro (h | h) <;> cases h
    have again : (Sender.original c).Plain := by rintro d (h | h | h | h) <;> cases h
    have simple : (if tail ≠ b.xTail then Sender.original c
        else prvWriteMessageToBuffer b c.pvTxData c.xSpace c.xRequiredSpace).Plain := by
      split
      · exact again
      · exact write_plain _ _ _ _
    cases taken
    exact attentive.sends rfl rfl rfl rfl attentive.senderKnown rfl (fun telling => absurd telling silent)
      (awake simple) (plain simple)
  | storing data stores next =>
    have silent : ¬ (Sender.storing data stores next).Telling := by rintro (h | h) <;> cases h
    cases stores with
    | cons store stores =>
      have simple := storing_plain data stores next
      cases taken
      exact attentive.sends rfl rfl rfl rfl attentive.senderKnown rfl (fun telling => absurd telling silent)
        (awake simple) (plain simple)
    | nil =>
      cases next with
      | none =>
        have simple : Sender.idle.Plain := by rintro d (h | h | h | h) <;> cases h
        cases taken
        exact attentive.sends rfl rfl rfl rfl attentive.senderKnown rfl (fun telling => absurd telling silent)
          (awake simple) (plain simple)
      | some head =>
        cases taken
        -- more bytes are there: it is going to look whether there are enough
        refine ⟨attentive.receiverKnown, attentive.senderKnown, ?_, by simp, ?_⟩
        · intro n waiting quiet
          exact ⟨(attentive.receiver n waiting quiet).1, .inr (.inl rfl)⟩
        · rintro d (h | h | h | h) <;> cases h
  | counting =>
    have simple : (if b.prvBytesInBuffer ≥ b.xTriggerLevelBytes then Sender.completing else .idle).Plain := by
      split <;> rintro d (h | h | h | h) <;> cases h
    cases taken
    refine attentive.sends rfl rfl rfl rfl attentive.senderKnown rfl ?_ (awake simple) (plain simple)
    intro _
    show b.prvBytesInBuffer < b.xTriggerLevelBytes ∨
      (if b.prvBytesInBuffer ≥ b.xTriggerLevelBytes then Sender.completing else .idle).Telling
    by_cases enough : b.prvBytesInBuffer ≥ b.xTriggerLevelBytes
    · rw [if_pos enough]
      exact .inr (.inr rfl)
    · exact .inl (by omega)
  | completing =>
    have receivers : ∀ s : State, s.notifyReceiver.receiver = s.receiver := by
      intro s
      rw [State.notifyReceiver]
      split <;> rfl
    cases taken
    refine ⟨notify.receiverKnown, notify.senderKnown, ?_, by simp, ?_⟩
    · intro n waiting quiet
      have notified := told ((receivers _).symm.trans waiting)
      rw [show _ = false from quiet] at notified
      cases notified
    · rintro d (h | h | h | h) <;> cases h

theorem receiving_attentive {timeOut : Bool} (attentive : Attentive s) (sound : Sound s sent received)
    (taken : s.receiving timeOut = some t) : Attentive t := by
  have told := @Attentive.told_sender s attentive
  have notify := attentive.notifySender
  have nothing := sound.empty
  have level := sound.trigger
  obtain ⟨b, notified, sender, receiver⟩ := s
  have quiet : ∀ x : Bool, Function.update notified .receiver x .sender = notified .sender := by
    intro x
    simp
  cases receiver with
  | idle => cases taken
  | checking n =>
    simp only [State.receiving] at taken
    split at taken
    case isTrue few =>
      cases taken
      refine attentive.receives rfl rfl rfl (by simp) (quiet false) (by simp [Receiver.Telling]) ?_
      rintro k ⟨⟩
      refine ⟨rfl, ?_⟩
      show b.prvBytesInBuffer < b.xTriggerLevelBytes
      rw [nothing few]
      exact level
    case isFalse =>
      cases taken
      exact attentive.receives rfl rfl rfl attentive.receiverKnown rfl (by simp [Receiver.Telling])
        fun k waiting => absurd waiting (available_ne_waiting _ _ _ _)
  | waiting n =>
    simp only [State.receiving] at taken
    split at taken
    · cases taken
      exact attentive.receives rfl rfl rfl attentive.receiverKnown (quiet false)
        (by simp [Receiver.Telling]) (by simp)
    · cases taken
  | woken n =>
    cases taken
    exact attentive.receives rfl rfl rfl (by simp) rfl (by simp [Receiver.Telling]) (by simp)
  | counting n =>
    cases taken
    exact attentive.receives rfl rfl rfl attentive.receiverKnown rfl (by simp [Receiver.Telling])
      fun k waiting => absurd waiting (available_ne_waiting _ _ _ _)
  | sizing n bytes loads length next =>
    cases loads with
    | nil =>
      cases taken
      exact attentive.receives rfl rfl rfl attentive.receiverKnown rfl (by simp [Receiver.Telling])
        fun k waiting => absurd waiting (readBytes_ne_waiting _ _ _ _ _)
    | cons place loads =>
      cases taken
      exact attentive.receives rfl rfl rfl attentive.receiverKnown rfl (by simp [Receiver.Telling])
        (by simp)
  | loading loads data next =>
    cases loads with
    | nil =>
      cases taken
      -- more space is there: it is going to notify
      refine ⟨attentive.receiverKnown, attentive.senderKnown, by simp, ?_, attentive.fits⟩
      intro c waiting silent
      exact ⟨(attentive.sender c waiting silent).1, .inr rfl⟩
    | cons place loads =>
      cases taken
      exact attentive.receives rfl rfl rfl attentive.receiverKnown rfl (by simp [Receiver.Telling])
        (by simp)
  | completing =>
    have senders : ∀ s : State, s.notifySender.sender = s.sender := by
      intro s
      rw [State.notifySender]
      split <;> rfl
    cases taken
    refine ⟨notify.receiverKnown, notify.senderKnown, by simp, ?_, notify.fits⟩
    intro c waiting silent
    have notified := told ((senders _).symm.trans waiting)
    rw [show _ = false from silent] at notified
    cases notified

theorem send_fits (b : StreamBuffer) (data : Bytes) (wait : Bool) (c : Sending)
    (loops : (xStreamBufferSend b data wait).Loops c) : c.xRequiredSpace ≤ b.xLength - 1 := by
  have original : ∀ d : Sending, ¬ (Sender.original d).Loops c := by
    rintro d (h | h | h | h) <;> cases h
  have checking : ∀ d : Sending, (Sender.checking d).Loops c → d = c := by
    rintro d (h | h | h | h) <;> cases h
    rfl
  rw [xStreamBufferSend] at loops
  simp only at loops
  split at loops
  · split at loops
    case isTrue fits =>
      rw [← checking _ loops]
      exact not_lt.mp fits.2
    case isFalse => exact absurd loops (original _)
  · split at loops
    · rw [← checking _ loops]
      show (if data.length > b.xLength - 1 then b.xLength - 1 else data.length) ≤ b.xLength - 1
      split <;> omega
    · exact absurd loops (original _)

theorem send_ne_waiting (b : StreamBuffer) (data : Bytes) (wait : Bool) (c : Sending) :
    xStreamBufferSend b data wait ≠ .waiting c := by
  rw [xStreamBufferSend]
  simp only
  split
  · split <;> simp
  · split <;> simp

theorem step_attentive {a : Move} (attentive : Attentive s) (sound : Sound s sent received)
    (taken : step s a = some t) : Attentive t := by
  cases a with
  | xStreamBufferSend data wait =>
    simp only [step] at taken
    split at taken
    case h_1 idle =>
      cases taken
      refine attentive.sends rfl rfl rfl rfl attentive.senderKnown rfl ?_ ?_ (send_fits _ _ _)
      · rw [idle]
        rintro (h | h) <;> cases h
      · exact fun c waiting => absurd waiting (send_ne_waiting _ _ _ _)
    case h_2 => cases taken
  | xStreamBufferSendFromISR data =>
    simp only [step] at taken
    split at taken
    case h_1 idle =>
      cases taken
      refine attentive.sends rfl rfl rfl rfl attentive.senderKnown rfl ?_ (by simp [xStreamBufferSendFromISR]) ?_
      · rw [idle]
        rintro (h | h) <;> cases h
      · rintro d (h | h | h | h) <;> cases h
    case h_2 => cases taken
  | xStreamBufferReceive n wait =>
    simp only [step] at taken
    split at taken
    case h_1 idle =>
      have silent : ¬ s.receiver.Telling := by
        rw [idle]
        simp [Receiver.Telling]
      cases taken
      cases wait
      · exact attentive.receives rfl rfl rfl attentive.receiverKnown rfl silent (by simp)
      · exact attentive.receives rfl rfl rfl attentive.receiverKnown rfl silent (by simp)
    case h_2 => cases taken
  | step task timeOut =>
    cases task with
    | sender => exact sending_attentive attentive taken
    | receiver => exact receiving_attentive attentive sound taken
  | xTaskNotify task =>
    cases taken
    refine ⟨attentive.receiverKnown, attentive.senderKnown, ?_, ?_, attentive.fits⟩
    · intro n waiting quiet
      refine attentive.receiver n waiting ?_
      by_contra other
      rw [Bool.not_eq_false] at other
      have kept : Function.update s.notified task true .receiver = true := by
        cases task <;> simp [other]
      exact absurd (kept.symm.trans quiet) (by simp)
    · intro c waiting quiet
      refine attentive.sender c waiting ?_
      by_contra other
      rw [Bool.not_eq_false] at other
      have kept : Function.update s.notified task true .sender = true := by
        cases task <;> simp [other]
      exact absurd (kept.symm.trans quiet) (by simp)
  | xStreamBufferSendCompletedFromISR =>
    cases taken
    exact attentive.notifyReceiver
  | xStreamBufferReceiveCompletedFromISR =>
    cases taken
    exact attentive.notifySender

theorem start_attentive {pvPortMalloc : ℕ → Option (ℕ → UInt8)} {size trigger : ℕ} {msg : Bool} {b : StreamBuffer}
    (limited : Limited pvPortMalloc) (created : xStreamBufferGenericCreate pvPortMalloc size trigger msg = some b)
    (notified : Task → Bool) :
    Attentive (start b notified) := by
  obtain ⟨-, -, -, -, -, -, toReceive, toSend⟩ := created_fields limited created
  refine ⟨?_, ?_, nofun, nofun, ?_⟩
  · intro task waiting
    exact absurd (toReceive.symm.trans waiting) (by simp)
  · intro task waiting
    exact absurd (toSend.symm.trans waiting) (by simp)
  · rintro d (h | h | h | h) <;> cases h

def Watched (s : State) (past : List Event) : Prop := Explained s past ∧ Attentive s

theorem step_watched {past : List Event} {a : Move} (watched : Watched s past) (taken : step s a = some t) :
    Watched t (past ++ event s a) :=
  ⟨step_explained watched.1 taken, step_attentive watched.2 watched.1 taken⟩

/-- In any order of the steps, a task that waits and is not notified is the one that the buffer says, and there is
    nothing for it unless the other task is about to tell it: fewer bytes than the trigger level, or less space than it
    needs. Both wait at once only when the trigger level and the space that is needed exceed the length; with a trigger
    level of one, as in every message buffer, they never do. -/
theorem waits_justified {pvPortMalloc : ℕ → Option (ℕ → UInt8)} {size trigger : ℕ} {msg : Bool} {b : StreamBuffer}
    {notified : Task → Bool} {moves : List Move} (limited : Limited pvPortMalloc)
    (created : xStreamBufferGenericCreate pvPortMalloc size trigger msg = some b)
    (run : exec step (start b notified) moves = some s) :
    (∀ n, s.receiver = .waiting n → s.notified .receiver = false → s.buffer.xTaskWaitingToReceive = some .receiver ∧
      (s.buffer.prvBytesInBuffer < max 1 trigger ∨ s.sender = .counting ∨ s.sender = .completing)) ∧
    (∀ c, s.sender = .waiting c → s.notified .sender = false → s.buffer.xTaskWaitingToSend = some .sender ∧
      (s.buffer.xStreamBufferSpacesAvailable < c.xRequiredSpace ∨ s.receiver = .completing)) ∧
    ∀ n c, s.receiver = .waiting n → s.notified .receiver = false → s.sender = .waiting c → s.notified .sender = false →
      size + 1 < max 1 trigger + c.xRequiredSpace ∧ 1 < trigger := by
  obtain ⟨sound, length, -, level⟩ := run_sound limited created run
  have first : Watched (start b notified) [] :=
    ⟨start_sound limited created, start_attentive limited created notified⟩
  have watched : Watched s ([] ++ trace step event (start b notified) moves) :=
    exec_trace (fun _ _ _ _ => step_watched) first run
  have attentive := watched.2
  refine ⟨?_, attentive.sender, ?_⟩
  · rw [← level]
    exact attentive.receiver
  · intro n c receives quiet sends silent
    have few := (attentive.receiver n receives quiet).2.resolve_right (by rw [sends]; rintro (h | h) <;> cases h)
    have full := (attentive.sender c sends silent).2.resolve_right (by rw [receives]; nofun)
    have fits := attentive.fits c (.inr (.inl sends))
    have whole := sound.bytes_spaces
    rw [level] at few
    rw [length] at fits whole
    omega

/-- With a trigger level of four, five bytes and a sender that needs two more places. -/
def stuck : List Move :=
  [.xStreamBufferReceive 2 true, .step .receiver false, .xStreamBufferSend [7, 8, 9] true] ++
    List.replicate 6 (.step .sender false) ++ [.xStreamBufferSend [4, 5] true, .step .sender false]

theorem waits_justified_sample : ∃ b s c, xStreamBufferGenericCreate memory 4 4 false = some b ∧
    exec step (start b fun _ => false) stuck = some s ∧ s.receiver = .waiting 2 ∧ s.sender = .waiting c ∧
      4 + 1 < max 1 4 + c.xRequiredSpace := by
  obtain ⟨-, -, both⟩ := @waits_justified _ memory 4 4 false _ (fun _ => false) stuck memory_limited rfl rfl
  exact ⟨_, _, _, rfl, rfl, rfl, rfl, (both _ _ rfl rfl rfl rfl).1⟩

end OsyProg.StreamBuffers
