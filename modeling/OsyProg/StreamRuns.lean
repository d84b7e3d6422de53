import Mathlib.Data.List.Infix
import OsyProg.StreamBuffers

/-!
What a stream buffer keeps while its two tasks take their steps in any order. `stream` is
what a list of data is in the buffer. The bytes sent so far, those that are being stored,
and those received so far say where every index and every byte is (`Sound`); a step of
either task keeps that (`step_sound`).
-/
namespace OsyProg.StreamBuffers
open OsyProg.Bytes OsyProg.Streams OsyProg.Ring OsyProg.Runs
set_option linter.unusedSectionVars false

/-! ### Data in the buffer -/

/-- The bytes of some data: in a message buffer the length of the message is in front of it. -/
def encoded (isMessageBuffer : Bool) (data : Bytes) : Bytes :=
  if isMessageBuffer then bytesLE sbBYTES_TO_STORE_MESSAGE_LENGTH data.length ++ data else data

def stream (isMessageBuffer : Bool) (all : List Bytes) : Bytes := all.flatMap (encoded isMessageBuffer)

theorem stream_append (msg : Bool) (xs ys : List Bytes) : stream msg (xs ++ ys) = stream msg xs ++ stream msg ys :=
  List.flatMap_append

@[simp] theorem stream_singleton (msg : Bool) (d : Bytes) : stream msg [d] = encoded msg d := by
  simp [stream]

theorem stream_bytes (all : List Bytes) : stream false all = all.flatten := by
  have plain : encoded false = id := rfl
  rw [stream, plain, List.flatMap_id]

/-- The bytes in front of the data. -/
def header (isMessageBuffer : Bool) : ℕ := if isMessageBuffer then sbBYTES_TO_STORE_MESSAGE_LENGTH else 0

theorem length_encoded (msg : Bool) (d : Bytes) : (encoded msg d).length = header msg + d.length := by
  cases msg <;> simp [encoded, header, length_bytesLE]

/-- The first list of data is what the second one begins with, as bytes and, in a message buffer, as messages. -/
def Follows (msg : Bool) (received sent : List Bytes) : Prop :=
  stream msg received <+: stream msg sent ∧ (msg = true → received <+: sent)

theorem Follows.more {msg : Bool} {received sent : List Bytes} (follows : Follows msg received sent)
    (more : List Bytes) :
    Follows msg received (sent ++ more) := by
  refine ⟨follows.1.trans ?_, fun message => (follows.2 message).trans (List.prefix_append ..)⟩
  rw [stream_append]
  exact List.prefix_append ..

theorem Follows.length_le {msg : Bool} {received sent : List Bytes} (follows : Follows msg received sent) :
    (stream msg received).length ≤ (stream msg sent).length :=
  follows.1.length_le

theorem follows_first (msg : Bool) {received sent : List Bytes} (le : received <+: sent) :
    Follows msg received sent := by
  obtain ⟨rest, rfl⟩ := le
  refine ⟨?_, fun _ => List.prefix_append ..⟩
  rw [stream_append]
  exact List.prefix_append ..

/-! ### What holds of the buffer and of the two tasks -/

section
variable (N : ℕ) (msg : Bool) (sent received : List Bytes)

/-- The variables of a call before it stores anything: there is at least as much space as it has seen. -/
structure Fits (c : Sending) : Prop where
  required : msg = true → c.xRequiredSpace = c.pvTxData.length + sbBYTES_TO_STORE_MESSAGE_LENGTH
  space : (stream msg sent).length + c.xSpace < (stream msg received).length + N

/-- What the task that sends has stored behind the data sent so far, and what it is about to store. -/
def Sends (begun : Bytes) : Sender → Prop
  | .idle | .counting | .completing => begun = []
  | .checking c | .waiting c | .woken c | .timing c | .original c | .adding c _ | .comparing c _ =>
    begun = [] ∧ Fits N msg sent received c
  | .storing data stores xNextHead =>
    ∃ rest : Bytes, stores = (places N ((stream msg sent).length + begun.length) rest.length).zip rest ∧
      (stream msg sent).length + begun.length + rest.length < (stream msg received).length + N ∧
      ∀ xHead, xNextHead = some xHead →
        data ≠ [] ∧ begun ++ rest = encoded msg data ∧
          xHead = ((stream msg sent).length + (encoded msg data).length) % N

/-- What the task that receives has loaded of the data behind those received so far, and what it is about to load. -/
def Receives : Receiver → Prop
  | .idle | .checking _ | .waiting _ | .woken _ | .counting _ | .completing => True
  | .sizing _ xBytesAvailable loads length xNextTail =>
    msg = true ∧ ∃ data rest : Bytes, received ++ [data] <+: sent ∧ header msg + data.length ≤ xBytesAvailable ∧
      bytesLE sbBYTES_TO_STORE_MESSAGE_LENGTH data.length = length ++ rest ∧
      loads = places N ((stream msg received).length + length.length) rest.length ∧
      xNextTail = ((stream msg received).length + header msg) % N
  | .loading loads data xNextTail =>
    ∃ rest : Bytes, Follows msg (received ++ [data ++ rest]) sent ∧
      loads = places N ((stream msg received).length + header msg + data.length) rest.length ∧
      xNextTail = ((stream msg received).length + (encoded msg (data ++ rest)).length) % N

end

/-- The data sent and received so far explain the buffer and how far the tasks are. -/
structure Sound (s : State) (sent received : List Bytes) : Prop where
  small : s.buffer.xLength < 2 ^ 63
  trigger : 0 < s.buffer.xTriggerLevelBytes
  full : ∀ data ∈ sent, data ≠ []
  follows : Follows s.buffer.isMessageBuffer received sent
  room : (stream s.buffer.isMessageBuffer sent).length <
    (stream s.buffer.isMessageBuffer received).length + s.buffer.xLength
  tail : s.buffer.xTail = (stream s.buffer.isMessageBuffer received).length % s.buffer.xLength
  head : s.buffer.xHead = (stream s.buffer.isMessageBuffer sent).length % s.buffer.xLength
  sender : ∃ begun, Sends s.buffer.xLength s.buffer.isMessageBuffer sent received begun s.sender ∧
    Stored s.buffer.xLength s.buffer.pucBuffer (stream s.buffer.isMessageBuffer sent ++ begun)
      (stream s.buffer.isMessageBuffer received).length
  receiver : Receives s.buffer.xLength s.buffer.isMessageBuffer sent received s.receiver

variable {s t : State} {sent received : List Bytes} {N : ℕ} {msg : Bool} {b : StreamBuffer}

/-! ### Indices -/

theorem copied_eq {count index : ℕ} (small : b.xLength < 2 ^ 63) (short : count < b.xLength) :
    b.copied count (index % b.xLength) = (places b.xLength index count, (index + count) % b.xLength) := by
  have below := Nat.mod_lt index (show 0 < b.xLength by omega)
  rw [StreamBuffer.copied, size_t_of_lt (by omega), places_pieces short.le (by omega),
    index_wraps index short.le (by omega)]

/-- The sums of two indices fit. -/
theorem prvBytesInBuffer_eq (small : b.xLength < 2 ^ 63) (head : b.xHead < b.xLength) (tail : b.xTail < b.xLength) :
    b.prvBytesInBuffer = if b.xLength + b.xHead - b.xTail ≥ b.xLength then b.xLength + b.xHead - b.xTail - b.xLength
      else b.xLength + b.xHead - b.xTail := by
  have sum : size_t (b.xLength + b.xHead) = b.xLength + b.xHead := size_t_of_lt (by omega)
  rw [StreamBuffer.prvBytesInBuffer, sum, size_t_sub (by omega) (by omega)]

theorem spaces_eq (small : b.xLength < 2 ^ 63) (head : b.xHead < b.xLength) {tail : ℕ} (below : tail < b.xLength) :
    b.spaces tail = if b.xLength + tail - b.xHead - 1 ≥ b.xLength then b.xLength + tail - b.xHead - 1 - b.xLength
      else b.xLength + tail - b.xHead - 1 := by
  have sum : size_t (b.xLength + tail) = b.xLength + tail := size_t_of_lt (by omega)
  have free : size_t (b.xLength + tail + 2 ^ 64 - b.xHead) = b.xLength + tail - b.xHead :=
    size_t_sub (by omega) (by omega)
  rw [StreamBuffer.spaces, sum, free, size_t_sub (by omega) (by omega)]

theorem Sound.indices (sound : Sound s sent received) :
    s.buffer.xTail < s.buffer.xLength ∧ s.buffer.xHead < s.buffer.xLength := by
  have room := sound.room
  have le := sound.follows.length_le
  rw [sound.tail, sound.head]
  exact ⟨Nat.mod_lt _ (by omega), Nat.mod_lt _ (by omega)⟩

theorem Sound.bytes (sound : Sound s sent received) :
    s.buffer.prvBytesInBuffer =
      (stream s.buffer.isMessageBuffer sent).length - (stream s.buffer.isMessageBuffer received).length := by
  rw [prvBytesInBuffer_eq sound.small sound.indices.2 sound.indices.1, sound.head, sound.tail]
  exact index_distance sound.follows.length_le sound.room

theorem Sound.spaces (sound : Sound s sent received) :
    s.buffer.xStreamBufferSpacesAvailable = s.buffer.xLength - 1 -
      ((stream s.buffer.isMessageBuffer sent).length - (stream s.buffer.isMessageBuffer received).length) := by
  rw [StreamBuffer.xStreamBufferSpacesAvailable, spaces_eq sound.small sound.indices.2 sound.indices.1, sound.head,
    sound.tail]
  exact index_space sound.follows.length_le sound.room

/-- There is room for as many bytes as there are spaces. -/
theorem Sound.fits (sound : Sound s sent received) {c : Sending}
    (fits : Fits s.buffer.xLength s.buffer.isMessageBuffer sent received c) :
    Fits s.buffer.xLength s.buffer.isMessageBuffer sent received
      { c with xSpace := s.buffer.xStreamBufferSpacesAvailable } := by
  refine ⟨fits.required, ?_⟩
  have room := sound.room
  have le := sound.follows.length_le
  show _ + s.buffer.xStreamBufferSpacesAvailable < _
  rw [sound.spaces]
  omega

/-! ### The task that sends -/

/-- What is stored is the data with what is in front of them, in the places that come next. -/
theorem write_sends {c : Sending} (small : b.xLength < 2 ^ 63)
    (fits : Fits b.xLength b.isMessageBuffer sent received c)
    (head : b.xHead = (stream b.isMessageBuffer sent).length % b.xLength)
    (le : (stream b.isMessageBuffer received).length ≤ (stream b.isMessageBuffer sent).length) :
    Sends b.xLength b.isMessageBuffer sent received []
      (prvWriteMessageToBuffer b c.pvTxData c.xSpace c.xRequiredSpace) := by
  have space := fits.space
  have nothing : Sends b.xLength b.isMessageBuffer sent received [] (.storing [] [] none) :=
    ⟨[], rfl, by simpa using (show _ < _ by omega), nofun⟩
  rw [prvWriteMessageToBuffer]
  by_cases message : b.isMessageBuffer = true
  · have required := fits.required message
    rw [if_pos message]
    by_cases enough : c.xSpace ≥ c.xRequiredSpace
    · rw [if_pos enough]
      have size : (bytesLE sbBYTES_TO_STORE_MESSAGE_LENGTH c.pvTxData.length).length =
          sbBYTES_TO_STORE_MESSAGE_LENGTH := length_bytesLE ..
      have lengths : b.prvWriteBytesToBuffer (bytesLE sbBYTES_TO_STORE_MESSAGE_LENGTH c.pvTxData.length) b.xHead =
          ((places b.xLength (stream b.isMessageBuffer sent).length sbBYTES_TO_STORE_MESSAGE_LENGTH).zip
            (bytesLE sbBYTES_TO_STORE_MESSAGE_LENGTH c.pvTxData.length),
            ((stream b.isMessageBuffer sent).length + sbBYTES_TO_STORE_MESSAGE_LENGTH) % b.xLength) := by
        rw [StreamBuffer.prvWriteBytesToBuffer, head, size, copied_eq small (by omega)]
      have stores : b.prvWriteBytesToBuffer c.pvTxData
            (((stream b.isMessageBuffer sent).length + sbBYTES_TO_STORE_MESSAGE_LENGTH) % b.xLength) =
          ((places b.xLength ((stream b.isMessageBuffer sent).length + sbBYTES_TO_STORE_MESSAGE_LENGTH)
            c.pvTxData.length).zip c.pvTxData,
            ((stream b.isMessageBuffer sent).length + sbBYTES_TO_STORE_MESSAGE_LENGTH + c.pvTxData.length) %
              b.xLength) := by
        rw [StreamBuffer.prvWriteBytesToBuffer, copied_eq small (by omega)]
      simp only [lengths, stores]
      by_cases some : c.pvTxData.length ≠ 0
      · rw [if_pos some]
        refine ⟨encoded b.isMessageBuffer c.pvTxData, ?_, ?_, ?_⟩
        · rw [length_encoded, header, if_pos message, places_append, encoded, if_pos message,
            List.zip_append (by rw [length_places, size])]
          rfl
        · rw [length_encoded, header, if_pos message, List.length_nil]
          omega
        · rintro _ ⟨⟩
          refine ⟨List.ne_nil_of_length_pos (by omega), rfl, ?_⟩
          rw [length_encoded, header, if_pos message, Nat.add_assoc]
      · rw [if_neg some]
        refine ⟨bytesLE sbBYTES_TO_STORE_MESSAGE_LENGTH c.pvTxData.length, ?_, ?_, nofun⟩
        · rw [size]
          rfl
        · rw [size, List.length_nil]
          omega
    · rw [if_neg enough]
      exact nothing
  · rw [if_neg message]
    simp only
    have short : (c.pvTxData.take (min c.pvTxData.length c.xSpace)).length ≤ c.xSpace := by
      rw [List.length_take]
      omega
    obtain ⟨data, taken⟩ : ∃ data, data = c.pvTxData.take (min c.pvTxData.length c.xSpace) := ⟨_, rfl⟩
    rw [← taken] at short ⊢
    by_cases some : data.length ≠ 0
    · rw [if_pos some, StreamBuffer.prvWriteBytesToBuffer, head, copied_eq small (by omega)]
      have plain : encoded b.isMessageBuffer data = data := by rw [encoded, if_neg message]
      refine ⟨data, rfl, ?_, ?_⟩
      · rw [List.length_nil]
        omega
      · rintro _ ⟨⟩
        refine ⟨List.ne_nil_of_length_pos (by omega), plain.symm, ?_⟩
        rw [plain]
    · rw [if_neg some]
      exact nothing

theorem onward_sends {c : Sending} (small : b.xLength < 2 ^ 63)
    (fits : Fits b.xLength b.isMessageBuffer sent received c)
    (head : b.xHead = (stream b.isMessageBuffer sent).length % b.xLength)
    (le : (stream b.isMessageBuffer received).length ≤ (stream b.isMessageBuffer sent).length) :
    Sends b.xLength b.isMessageBuffer sent received [] (c.onward b) := by
  rw [Sending.onward]
  split
  · exact ⟨rfl, fits⟩
  · exact write_sends small fits head le

/-- Space that was there stays when more is received. -/
theorem Sends.mono {begun : Bytes} {sender : Sender} {more : List Bytes}
    (sends : Sends N msg sent received begun sender)
    (le : (stream msg received).length ≤ (stream msg more).length) : Sends N msg sent more begun sender := by
  have fits : ∀ {c}, Fits N msg sent received c → Fits N msg sent more c := by
    intro c fits
    have space := fits.space
    exact ⟨fits.required, by omega⟩
  cases sender with
  | idle | counting | completing => exact sends
  | checking | waiting | woken | timing | original | adding | comparing => exact ⟨sends.1, fits sends.2⟩
  | storing data stores next =>
    obtain ⟨rest, stores, room, whole⟩ := sends
    exact ⟨rest, stores, by omega, whole⟩

/-! ### The task that receives -/

/-- Data that come next stay so when more is sent. -/
theorem Receives.mono {receiver : Receiver} (receives : Receives N msg sent received receiver) (more : List Bytes) :
    Receives N msg (sent ++ more) received receiver := by
  cases receiver with
  | idle | checking | waiting | woken | counting | completing => trivial
  | sizing n available loads length next =>
    obtain ⟨message, data, rest, le, fit⟩ := receives
    exact ⟨message, data, rest, le.trans (List.prefix_append ..), fit⟩
  | loading loads data next =>
    obtain ⟨rest, follows, places⟩ := receives
    exact ⟨rest, follows.more more, places⟩

/-- The end of data that come next. -/
theorem Follows.end_le {data : Bytes} (follows : Follows msg (received ++ [data]) sent) :
    (stream msg received).length + header msg + data.length ≤ (stream msg sent).length := by
  have le := follows.length_le
  rw [stream_append, stream_singleton, List.length_append, length_encoded] at le
  omega

/-- When as many bytes are to be read as the data that come next have. -/
theorem readBytes_receives (data : Bytes) {length available next : ℕ} (small : b.xLength < 2 ^ 63)
    (follows : Follows b.isMessageBuffer (received ++ [data]) sent) (short : data.length < b.xLength)
    (index : next = ((stream b.isMessageBuffer received).length + header b.isMessageBuffer) % b.xLength)
    (count : min length available = data.length) :
    Receives b.xLength b.isMessageBuffer sent received (readBytes b length available next) := by
  rw [readBytes]
  simp only [count]
  split
  · rw [StreamBuffer.prvReadBytesFromBuffer, index, copied_eq small short]
    refine ⟨data, follows, rfl, ?_⟩
    rw [List.nil_append, length_encoded, Nat.add_assoc]
  · trivial

/-- The data that come next, from the number of bytes there are. -/
theorem Sound.available_receives (sound : Sound s sent received) (n : ℕ) :
    Receives s.buffer.xLength s.buffer.isMessageBuffer sent received
      (available s.buffer n s.buffer.prvBytesInBuffer) := by
  have bytes := sound.bytes
  have room := sound.room
  rw [available]
  split
  case isFalse => trivial
  case isTrue some =>
    rw [StreamBuffer.xBytesToStoreMessageLength] at some
    rw [prvReadMessageFromBuffer]
    split
    case isTrue message =>
      rw [if_pos message] at some
      have index : s.buffer.prvReadBytesFromBuffer sbBYTES_TO_STORE_MESSAGE_LENGTH s.buffer.xTail =
          (places s.buffer.xLength (stream s.buffer.isMessageBuffer received).length sbBYTES_TO_STORE_MESSAGE_LENGTH,
            ((stream s.buffer.isMessageBuffer received).length + sbBYTES_TO_STORE_MESSAGE_LENGTH) %
              s.buffer.xLength) := by
        rw [StreamBuffer.prvReadBytesFromBuffer, sound.tail, copied_eq sound.small (by omega)]
      rw [index]
      obtain ⟨rest, whole⟩ := sound.follows.2 message
      cases rest with
      | nil =>
        rw [List.append_nil] at whole
        rw [whole] at bytes
        omega
      | cons data rest =>
        have split : sent = received ++ [data] ++ rest := by rw [← whole, List.append_assoc, List.singleton_append]
        have size := (follows_first s.buffer.isMessageBuffer ⟨rest, split.symm⟩).end_le
        refine ⟨message, data, bytesLE sbBYTES_TO_STORE_MESSAGE_LENGTH data.length, ⟨rest, split.symm⟩, by omega, rfl,
          ?_, ?_⟩
        · rw [length_bytesLE]
          rfl
        · rw [header, if_pos message]
    case isFalse plain =>
      rw [if_neg plain] at some
      have none : header s.buffer.isMessageBuffer = 0 := if_neg plain
      have same : ∀ d, encoded s.buffer.isMessageBuffer d = d := fun d => if_neg plain
      obtain ⟨rest, whole⟩ := sound.follows.1
      have left : rest.length = s.buffer.prvBytesInBuffer := by
        rw [bytes, ← whole, List.length_append, Nat.add_sub_cancel_left]
      have count : (rest.take (min n s.buffer.prvBytesInBuffer)).length = min n s.buffer.prvBytesInBuffer := by
        rw [List.length_take]
        omega
      refine readBytes_receives (rest.take (min n s.buffer.prvBytesInBuffer)) sound.small
        ⟨?_, fun message => absurd message plain⟩ (by omega) ?_ count.symm
      · rw [stream_append, stream_singleton, same, ← whole]
        exact (List.prefix_append_right_inj _).mpr (List.take_prefix ..)
      · rw [none, Nat.add_zero, sound.tail]

/-- The length is that of the message that comes next. -/
theorem Sound.sized_receives (sound : Sound s sent received) {n bytes next : ℕ} {length : Bytes}
    (receives : Receives s.buffer.xLength s.buffer.isMessageBuffer sent received (.sizing n bytes [] length next)) :
    Receives s.buffer.xLength s.buffer.isMessageBuffer sent received (sized s.buffer n bytes length next) := by
  obtain ⟨message, data, rest, le, enough, lengths, loads, index⟩ := receives
  have follows := follows_first s.buffer.isMessageBuffer le
  have size := follows.end_le
  have room := sound.room
  have small : s.buffer.xLength < 256 ^ sbBYTES_TO_STORE_MESSAGE_LENGTH := sound.small.trans (by decide)
  have whole : rest = [] := by
    rw [← List.length_eq_zero_iff, ← length_places s.buffer.xLength _ rest.length, ← loads]
    rfl
  rw [whole, List.append_nil] at lengths
  have value : valueLE length = data.length := by
    rw [← lengths]
    exact valueLE_bytesLE (by omega)
  rw [sized, value]
  by_cases long : data.length > n
  · rw [if_pos long, readBytes, Nat.zero_min]
    trivial
  · rw [if_neg long]
    rw [header, if_pos message] at enough
    exact readBytes_receives data sound.small follows (by omega) index (by omega)

/-- What is loaded from the place of a byte is that byte. -/
theorem Sound.loads (sound : Sound s sent received) {front rest : Bytes} {c : UInt8}
    (comes : stream s.buffer.isMessageBuffer received ++ front ++ c :: rest <+: stream s.buffer.isMessageBuffer sent) :
    s.buffer.pucBuffer (((stream s.buffer.isMessageBuffer received).length + front.length) % s.buffer.xLength) = c := by
  obtain ⟨begun, -, stored⟩ := sound.sender
  have here : (stream s.buffer.isMessageBuffer received ++ front ++ c :: rest)[
      (stream s.buffer.isMessageBuffer received).length + front.length]? = some c := by
    rw [← List.length_append]
    exact List.getElem?_append_right le_rfl |>.trans (by rw [Nat.sub_self]; rfl)
  obtain ⟨tail, whole⟩ := comes
  have there : (stream s.buffer.isMessageBuffer sent)[
      (stream s.buffer.isMessageBuffer received).length + front.length]? = some c := by
    rw [← whole, List.getElem?_append_left (List.getElem?_eq_some_iff.mp here).1, here]
  have inside := (List.getElem?_eq_some_iff.mp there).1
  have kept := stored.before _ (Nat.le_add_right _ front.length) inside
  exact Option.some.inj (kept.symm.trans there)

/-! ### Steps -/

def sentData (events : List Event) : List Bytes :=
  events.filterMap fun | .sent data => some data | .received _ => none

def receivedData (events : List Event) : List Bytes :=
  events.filterMap fun | .received data => some data | .sent _ => none

/-- The indices and the bytes stay, and so do the data sent and received. -/
theorem Sound.change (sound : Sound s sent received) {toReceive toSend : Option Task} {notified : Task → Bool}
    {sender : Sender} {receiver : Receiver} {begun : Bytes}
    (sends : Sends s.buffer.xLength s.buffer.isMessageBuffer sent received begun sender)
    (stored : Stored s.buffer.xLength s.buffer.pucBuffer (stream s.buffer.isMessageBuffer sent ++ begun)
      (stream s.buffer.isMessageBuffer received).length)
    (receives : Receives s.buffer.xLength s.buffer.isMessageBuffer sent received receiver) :
    Sound { buffer := { s.buffer with xTaskWaitingToReceive := toReceive, xTaskWaitingToSend := toSend }, notified,
            sender, receiver } sent received :=
  ⟨sound.small, sound.trigger, sound.full, sound.follows, sound.room, sound.tail, sound.head, ⟨begun, sends, stored⟩,
    receives⟩

/-- Nothing has been stored behind the data sent, or what has been stored there is given up. -/
theorem Sound.nothing (sound : Sound s sent received) :
    Stored s.buffer.xLength s.buffer.pucBuffer (stream s.buffer.isMessageBuffer sent ++ [])
      (stream s.buffer.isMessageBuffer received).length := by
  obtain ⟨begun, -, stored⟩ := sound.sender
  rw [List.append_nil]
  exact stored.before

/-- A task is notified, or no task waits. -/
theorem Sound.notify (sound : Sound s sent received) :
    Sound s.notifyReceiver sent received ∧ Sound s.notifySender sent received := by
  obtain ⟨begun, sends, stored⟩ := sound.sender
  rw [State.notifyReceiver, State.notifySender]
  constructor
  · split
    · exact sound.change sends stored sound.receiver
    · exact sound
  · split
    · exact sound.change sends stored sound.receiver
    · exact sound

/-- A byte is stored behind the data sent and those that were stored before it. -/
theorem Sound.store (sound : Sound s sent received) {data : Bytes} {store : ℕ × UInt8} {stores : List (ℕ × UInt8)}
    {next : Option ℕ} (storing : s.sender = .storing data (store :: stores) next) :
    Sound { s with
      buffer := { s.buffer with pucBuffer := Function.update s.buffer.pucBuffer store.1 store.2 }
      sender := .storing data stores next } sent received := by
  obtain ⟨begun, sends, stored⟩ := sound.sender
  rw [storing] at sends
  obtain ⟨rest, places, room, whole⟩ := sends
  cases rest with
  | nil => cases places
  | cons c rest =>
    rw [List.length_cons, places_succ, List.zip_cons_cons] at places
    obtain ⟨rfl, later⟩ := List.cons.inj places
    rw [List.length_cons] at room
    have put := stored.put (by rw [List.length_append]; omega) c
    rw [List.length_append, List.append_assoc] at put
    refine ⟨sound.small, sound.trigger, sound.full, sound.follows, sound.room, sound.tail, sound.head,
      ⟨begun ++ [c], ⟨rest, ?_, ?_, ?_⟩, put⟩, sound.receiver⟩
    · rw [later, List.length_append, List.length_singleton, Nat.add_assoc]
    · have length : (begun ++ [c]).length = begun.length + 1 := List.length_append
      show (stream s.buffer.isMessageBuffer sent).length + _ + _ <
        (stream s.buffer.isMessageBuffer received).length + s.buffer.xLength
      omega
    · intro head last
      obtain ⟨some, all, index⟩ := whole head last
      refine ⟨some, ?_, index⟩
      rw [← all, List.append_assoc, List.singleton_append]

/-- The head moves behind the data that were stored: they are sent. -/
theorem Sound.send (sound : Sound s sent received) {data : Bytes} {head : ℕ}
    (storing : s.sender = .storing data [] (some head)) :
    Sound { s with buffer := { s.buffer with xHead := head }, sender := .counting } (sent ++ [data]) received := by
  obtain ⟨begun, sends, stored⟩ := sound.sender
  rw [storing] at sends
  obtain ⟨rest, places, room, whole⟩ := sends
  obtain ⟨nonempty, all, index⟩ := whole head rfl
  have none : rest = [] := by
    have lengths := congrArg List.length places
    rw [List.length_zip, length_places, Nat.min_self] at lengths
    exact List.length_eq_zero_iff.mp lengths.symm
  rw [none, List.append_nil] at all
  have more : stream s.buffer.isMessageBuffer (sent ++ [data]) = stream s.buffer.isMessageBuffer sent ++ begun := by
    rw [stream_append, stream_singleton, all]
  refine ⟨sound.small, sound.trigger, ?_, sound.follows.more [data], ?_, sound.tail, ?_, ⟨[], rfl, ?_⟩,
    sound.receiver.mono [data]⟩
  · intro d inside
    rcases List.mem_append.mp inside with old | new
    · exact sound.full d old
    · rw [List.mem_singleton.mp new]
      exact nonempty
  · show (stream s.buffer.isMessageBuffer (sent ++ [data])).length <
      (stream s.buffer.isMessageBuffer received).length + s.buffer.xLength
    rw [more, List.length_append]
    omega
  · show head = (stream s.buffer.isMessageBuffer (sent ++ [data])).length % _
    rw [index, more, List.length_append, all]
  · show Stored _ _ (stream s.buffer.isMessageBuffer (sent ++ [data]) ++ []) _
    rw [more, List.append_nil]
    exact stored

theorem sending_sound {timeOut : Bool} (sound : Sound s sent received) (taken : s.sending timeOut = some t) :
    Sound t (sent ++ sentData (event s (.step .sender timeOut))) received := by
  have le := sound.follows.length_le
  have nothing := sound.nothing
  have receives := sound.receiver
  obtain ⟨begun, sends, stored⟩ := sound.sender
  obtain ⟨b, notified, sender, receiver⟩ := s
  cases sender with
  | idle => cases taken
  | checking c =>
    have fits := sound.fits sends.2
    rw [show sentData _ = [] from rfl, List.append_nil]
    simp only [State.sending] at taken
    split at taken
    · cases taken
      exact sound.change ⟨rfl, fits⟩ nothing receives
    · cases taken
      exact sound.change (onward_sends sound.small fits sound.head le) nothing receives
  | waiting c =>
    rw [show sentData _ = [] from rfl, List.append_nil]
    simp only [State.sending] at taken
    split at taken
    · cases taken
      exact sound.change sends stored receives
    · cases taken
  | woken c =>
    cases taken
    rw [show sentData _ = [] from rfl, List.append_nil]
    exact sound.change sends stored receives
  | timing c =>
    cases taken
    rw [show sentData _ = [] from rfl, List.append_nil]
    cases timeOut with
    | true => exact sound.change (onward_sends sound.small sends.2 sound.head le) nothing receives
    | false => exact sound.change sends stored receives
  | original c =>
    cases taken
    rw [show sentData _ = [] from rfl, List.append_nil]
    exact sound.change sends stored receives
  | adding c tail =>
    cases taken
    rw [show sentData _ = [] from rfl, List.append_nil]
    exact sound.change ⟨rfl, sound.fits sends.2⟩ nothing receives
  | comparing c tail =>
    cases taken
    rw [show sentData _ = [] from rfl, List.append_nil]
    refine sound.change ?_ nothing receives
    split
    · exact ⟨rfl, sends.2⟩
    · exact write_sends sound.small sends.2 sound.head le
  | storing data stores next =>
    cases stores with
    | cons store stores =>
      cases taken
      rw [show sentData _ = [] from rfl, List.append_nil]
      exact sound.store rfl
    | nil =>
      cases next with
      | none =>
        cases taken
        rw [show sentData _ = [] from rfl, List.append_nil]
        exact sound.change rfl nothing receives
      | some head =>
        cases taken
        exact sound.send rfl
  | counting =>
    cases taken
    rw [show sentData _ = [] from rfl, List.append_nil]
    refine sound.change ?_ nothing receives
    split
    · rfl
    · rfl
  | completing =>
    cases taken
    rw [show sentData _ = [] from rfl, List.append_nil]
    have notified := sound.notify.1
    obtain ⟨-, -, kept⟩ := notified.sender
    exact notified.change rfl notified.nothing notified.receiver

/-- A byte of the length of the message that comes next is loaded. -/
theorem Sound.loadLength (sound : Sound s sent received) {n bytes place next : ℕ} {loads : List ℕ} {length : Bytes}
    (sizing : s.receiver = .sizing n bytes (place :: loads) length next) :
    Sound { s with receiver := .sizing n bytes loads (length ++ [s.buffer.pucBuffer place]) next } sent received := by
  have receives := sound.receiver
  rw [sizing] at receives
  obtain ⟨begun, sends, stored⟩ := sound.sender
  obtain ⟨message, data, rest, first, enough, lengths, places, index⟩ := receives
  cases rest with
  | nil => cases places
  | cons c rest =>
    rw [List.length_cons, places_succ] at places
    obtain ⟨rfl, rfl⟩ := List.cons.inj places
    have comes := (follows_first s.buffer.isMessageBuffer first).1
    rw [stream_append, stream_singleton, encoded, if_pos message, lengths, ← List.append_assoc, ← List.append_assoc,
      List.append_assoc _ (c :: rest)] at comes
    have loaded := sound.loads comes
    refine sound.change sends stored ⟨message, data, rest, first, enough, ?_, ?_, index⟩
    · rw [lengths, loaded, List.append_assoc, List.singleton_append]
    · rw [List.length_append, List.length_singleton, Nat.add_assoc]

/-- A byte of the data that come next is loaded. -/
theorem Sound.load (sound : Sound s sent received) {place next : ℕ} {loads : List ℕ} {data : Bytes}
    (loading : s.receiver = .loading (place :: loads) data next) :
    Sound { s with receiver := .loading loads (data ++ [s.buffer.pucBuffer place]) next } sent received := by
  have receives := sound.receiver
  rw [loading] at receives
  obtain ⟨begun, sends, stored⟩ := sound.sender
  obtain ⟨rest, follows, places, index⟩ := receives
  cases rest with
  | nil => cases places
  | cons c rest =>
    rw [List.length_cons, places_succ] at places
    obtain ⟨rfl, rfl⟩ := List.cons.inj places
    have comes := follows.1
    obtain ⟨front, before, size⟩ : ∃ front : Bytes,
        encoded s.buffer.isMessageBuffer (data ++ c :: rest) = front ++ c :: rest ∧
          front.length = header s.buffer.isMessageBuffer + data.length := by
      refine ⟨(encoded s.buffer.isMessageBuffer (data ++ c :: rest)).take
        (header s.buffer.isMessageBuffer + data.length), ?_, ?_⟩
      · cases s.buffer.isMessageBuffer <;>
          simp [encoded, header, length_bytesLE, List.take_append, List.take_of_length_le]
      · rw [List.length_take, length_encoded, List.length_append]
        omega
    rw [stream_append, stream_singleton, before, ← List.append_assoc] at comes
    have loaded := sound.loads comes
    rw [size, ← Nat.add_assoc] at loaded
    have again : data ++ [c] ++ rest = data ++ c :: rest := by rw [List.append_assoc, List.singleton_append]
    refine sound.change sends stored ⟨rest, ?_, ?_, ?_⟩
    · rw [loaded, again]
      exact follows
    · rw [List.length_append, List.length_singleton, Nat.add_assoc]
    · rw [loaded, again]
      exact index

/-- The tail moves behind the data that were loaded: they are received. -/
theorem Sound.receive (sound : Sound s sent received) {data : Bytes} {next : ℕ}
    (loading : s.receiver = .loading [] data next) :
    Sound { s with buffer := { s.buffer with xTail := next }, receiver := .completing } sent (received ++ [data]) := by
  have receives := sound.receiver
  rw [loading] at receives
  obtain ⟨begun, sends, stored⟩ := sound.sender
  obtain ⟨rest, follows, places, index⟩ := receives
  have none : rest = [] := by
    rw [← List.length_eq_zero_iff, ← length_places s.buffer.xLength _ rest.length, ← places]
    rfl
  rw [none, List.append_nil] at follows index
  have more : stream s.buffer.isMessageBuffer (received ++ [data]) =
      stream s.buffer.isMessageBuffer received ++ encoded s.buffer.isMessageBuffer data := by
    rw [stream_append, stream_singleton]
  have le : (stream s.buffer.isMessageBuffer received).length ≤
      (stream s.buffer.isMessageBuffer (received ++ [data])).length := by
    rw [more, List.length_append]
    omega
  refine ⟨sound.small, sound.trigger, sound.full, follows, Nat.lt_of_lt_of_le sound.room (Nat.add_le_add_right le _), ?_,
    sound.head, ⟨begun, sends.mono le, stored.later le⟩, trivial⟩
  show next = (stream s.buffer.isMessageBuffer (received ++ [data])).length % _
  rw [index, more, List.length_append]

theorem receiving_sound {timeOut : Bool} (sound : Sound s sent received) (taken : s.receiving timeOut = some t) :
    Sound t sent (received ++ receivedData (event s (.step .receiver timeOut))) := by
  have receives := sound.receiver
  obtain ⟨begun, sends, stored⟩ := sound.sender
  obtain ⟨b, notified, sender, receiver⟩ := s
  cases receiver with
  | idle => cases taken
  | checking n =>
    rw [show receivedData _ = [] from rfl, List.append_nil]
    simp only [State.receiving] at taken
    split at taken
    · cases taken
      exact sound.change sends stored trivial
    · cases taken
      exact sound.change sends stored (sound.available_receives n)
  | waiting n =>
    rw [show receivedData _ = [] from rfl, List.append_nil]
    simp only [State.receiving] at taken
    split at taken
    · cases taken
      exact sound.change sends stored trivial
    · cases taken
  | woken n =>
    cases taken
    rw [show receivedData _ = [] from rfl, List.append_nil]
    exact sound.change sends stored trivial
  | counting n =>
    cases taken
    rw [show receivedData _ = [] from rfl, List.append_nil]
    exact sound.change sends stored (sound.available_receives n)
  | sizing n bytes loads length next =>
    cases loads with
    | nil =>
      cases taken
      rw [show receivedData _ = [] from rfl, List.append_nil]
      exact sound.change sends stored (sound.sized_receives receives)
    | cons place loads =>
      cases taken
      rw [show receivedData _ = [] from rfl, List.append_nil]
      exact sound.loadLength rfl
  | loading loads data next =>
    cases loads with
    | nil =>
      cases taken
      exact sound.receive rfl
    | cons place loads =>
      cases taken
      rw [show receivedData _ = [] from rfl, List.append_nil]
      exact sound.load rfl
  | completing =>
    cases taken
    rw [show receivedData _ = [] from rfl, List.append_nil]
    have notified := sound.notify.2
    obtain ⟨begun, sends, stored⟩ := notified.sender
    exact notified.change sends stored trivial

/-- A call begins with no more space than there is. -/
theorem Sound.call (sound : Sound s sent received) (c : Sending) (none : c.xSpace = 0)
    (required : s.buffer.isMessageBuffer = true →
      c.xRequiredSpace = c.pvTxData.length + sbBYTES_TO_STORE_MESSAGE_LENGTH) :
    Sound { s with sender := .checking c } sent received ∧ Sound { s with sender := .original c } sent received := by
  have room := sound.room
  have fits : Fits s.buffer.xLength s.buffer.isMessageBuffer sent received c := ⟨required, by omega⟩
  exact ⟨sound.change ⟨rfl, fits⟩ sound.nothing sound.receiver, sound.change ⟨rfl, fits⟩ sound.nothing sound.receiver⟩

theorem send_sound (sound : Sound s sent received) (data : Bytes) (wait : Bool) :
    Sound { s with sender := xStreamBufferSend s.buffer data wait } sent received := by
  rw [xStreamBufferSend]
  by_cases message : s.buffer.isMessageBuffer = true
  · have calls := sound.call ⟨data, data.length + sbBYTES_TO_STORE_MESSAGE_LENGTH, 0⟩ rfl fun _ => rfl
    simp only [if_pos message]
    split
    · exact calls.1
    · exact calls.2
  · simp only [if_neg message]
    have calls := fun required => sound.call ⟨data, required, 0⟩ rfl fun is => absurd is message
    split
    · exact (calls _).1
    · exact (calls _).2

theorem step_sound {a : Move} (sound : Sound s sent received) (taken : step s a = some t) :
    Sound t (sent ++ sentData (event s a)) (received ++ receivedData (event s a)) := by
  cases a with
  | xStreamBufferSend data wait =>
    rw [show sentData _ = [] from rfl, show receivedData _ = [] from rfl, List.append_nil, List.append_nil]
    simp only [step] at taken
    split at taken
    · cases taken
      exact send_sound sound data wait
    · cases taken
  | xStreamBufferSendFromISR data =>
    rw [show sentData _ = [] from rfl, show receivedData _ = [] from rfl, List.append_nil, List.append_nil]
    simp only [step] at taken
    split at taken
    · cases taken
      refine (sound.call _ rfl fun message => ?_).2
      rw [StreamBuffer.xBytesToStoreMessageLength, if_pos message]
    · cases taken
  | xStreamBufferReceive n wait =>
    rw [show sentData _ = [] from rfl, show receivedData _ = [] from rfl, List.append_nil, List.append_nil]
    obtain ⟨begun, sends, stored⟩ := sound.sender
    simp only [step] at taken
    split at taken
    · cases taken
      cases wait
      · exact sound.change sends stored trivial
      · exact sound.change sends stored trivial
    · cases taken
  | step task timeOut =>
    cases task with
    | sender =>
      have none : receivedData (event s (.step .sender timeOut)) = [] := by
        rw [event]
        split <;> rfl
      rw [none, List.append_nil]
      exact sending_sound sound taken
    | receiver =>
      have none : sentData (event s (.step .receiver timeOut)) = [] := by
        rw [event]
        split <;> rfl
      rw [none, List.append_nil]
      exact receiving_sound sound taken
  | xTaskNotify task =>
    cases taken
    rw [show sentData _ = [] from rfl, show receivedData _ = [] from rfl, List.append_nil, List.append_nil]
    obtain ⟨begun, sends, stored⟩ := sound.sender
    exact sound.change sends stored sound.receiver
  | xStreamBufferSendCompletedFromISR =>
    cases taken
    rw [show sentData _ = [] from rfl, show receivedData _ = [] from rfl, List.append_nil, List.append_nil]
    exact sound.notify.1
  | xStreamBufferReceiveCompletedFromISR =>
    cases taken
    rw [show sentData _ = [] from rfl, show receivedData _ = [] from rfl, List.append_nil, List.append_nil]
    exact sound.notify.2

/-! ### Runs -/

section
variable {pvPortMalloc : ℕ → Option (ℕ → UInt8)} {size trigger : ℕ} {notified : Task → Bool} {moves : List Move}

/-- What is created has the size and the kind that were asked for, one byte more, and a trigger level. -/
theorem created_fields (limited : Limited pvPortMalloc)
    (created : xStreamBufferGenericCreate pvPortMalloc size trigger msg = some b) :
    b.xLength = size + 1 ∧ b.isMessageBuffer = msg ∧ b.xTriggerLevelBytes = max 1 trigger ∧ size + 1 < 2 ^ 63 ∧
      b.xTail = 0 ∧ b.xHead = 0 ∧ b.xTaskWaitingToReceive = none ∧ b.xTaskWaitingToSend = none := by
  rw [xStreamBufferGenericCreate] at created
  simp only at created
  split at created
  case isTrue fits =>
    obtain ⟨memory, given, rfl⟩ := Option.map_eq_some_iff.mp created
    have below : size + 1 + sizeofStreamBuffer < 2 ^ 63 := by
      by_contra large
      rw [limited _ (not_lt.mp large)] at given
      cases given
    refine ⟨rfl, rfl, ?_, by omega, rfl, rfl, rfl, rfl⟩
    show (if trigger = 0 then 1 else trigger) = max 1 trigger
    split <;> omega
  case isFalse => cases created

theorem start_sound (limited : Limited pvPortMalloc)
    (created : xStreamBufferGenericCreate pvPortMalloc size trigger msg = some b) :
    Sound (start b notified) [] [] := by
  obtain ⟨length, -, level, small, tail, head, -, -⟩ := created_fields limited created
  refine ⟨?_, ?_, nofun, follows_first _ (List.prefix_refl _), ?_, ?_, ?_, ⟨[], rfl, ?_⟩, trivial⟩
  · show b.xLength < 2 ^ 63
    omega
  · show 0 < b.xTriggerLevelBytes
    omega
  · show 0 < 0 + b.xLength
    omega
  · exact tail.trans (Nat.zero_mod _).symm
  · exact head.trans (Nat.zero_mod _).symm
  · exact stored_nil _ _ _

/-- The size, the kind and the trigger level of the buffer. -/
def Shaped (size trigger : ℕ) (msg : Bool) (s : State) : Prop :=
  s.buffer.xLength = size + 1 ∧ s.buffer.isMessageBuffer = msg ∧ s.buffer.xTriggerLevelBytes = max 1 trigger

theorem Shaped.notify (shaped : Shaped size trigger msg s) :
    Shaped size trigger msg s.notifyReceiver ∧ Shaped size trigger msg s.notifySender := by
  rw [State.notifyReceiver, State.notifySender]
  constructor
  · split
    · exact shaped
    · exact shaped
  · split
    · exact shaped
    · exact shaped

theorem step_shaped {a : Move} (shaped : Shaped size trigger msg s) (taken : step s a = some t) :
    Shaped size trigger msg t := by
  cases a with
  | xStreamBufferSend data wait | xStreamBufferSendFromISR data | xStreamBufferReceive n wait =>
    simp only [step] at taken
    split at taken <;> cases taken
    exact shaped
  | step task timeOut =>
    cases task with
    | sender =>
      simp only [step, State.sending] at taken
      split at taken <;> (try split at taken) <;> cases taken
      all_goals first | exact shaped | exact shaped.notify.1
    | receiver =>
      simp only [step, State.receiving] at taken
      split at taken <;> (try split at taken) <;> cases taken
      all_goals first | exact shaped | exact shaped.notify.2
  | xTaskNotify task =>
    cases taken
    exact shaped
  | xStreamBufferSendCompletedFromISR =>
    cases taken
    exact shaped.notify.1
  | xStreamBufferReceiveCompletedFromISR =>
    cases taken
    exact shaped.notify.2

/-- What was sent and received explains the state. -/
def Explained (s : State) (past : List Event) : Prop := Sound s (sentData past) (receivedData past)

theorem step_explained {past : List Event} {a : Move} (explained : Explained s past) (taken : step s a = some t) :
    Explained t (past ++ event s a) := by
  rw [Explained, sentData, receivedData, List.filterMap_append, List.filterMap_append]
  exact step_sound explained taken

theorem run_sound (limited : Limited pvPortMalloc)
    (created : xStreamBufferGenericCreate pvPortMalloc size trigger msg = some b)
    (run : exec step (start b notified) moves = some s) :
    Sound s (sentData (trace step event (start b notified) moves))
      (receivedData (trace step event (start b notified) moves)) ∧ Shaped size trigger msg s := by
  obtain ⟨length, kind, level, -⟩ := created_fields limited created
  have first : Explained (start b notified) [] := start_sound limited created
  have explained : Explained s ([] ++ trace step event (start b notified) moves) :=
    exec_trace (fun _ _ _ _ => step_explained) first run
  have shaped : Shaped size trigger msg (start b notified) := ⟨length, kind, level⟩
  exact ⟨explained, exec_kept (fun _ _ _ => step_shaped) shaped run⟩

/-- What is in the buffer and what is free is all that was asked for. -/
theorem Sound.bytes_spaces (sound : Sound s sent received) :
    s.buffer.prvBytesInBuffer + s.buffer.xStreamBufferSpacesAvailable = s.buffer.xLength - 1 := by
  have room := sound.room
  have le := sound.follows.length_le
  rw [sound.bytes, sound.spaces]
  omega

/-- What was sent behind what was received is in the buffer, from the tail on, and there is nothing else. -/
theorem Sound.contents (sound : Sound s sent received) {rest : Bytes}
    (whole : stream s.buffer.isMessageBuffer received ++ rest = stream s.buffer.isMessageBuffer sent) :
    rest.length = s.buffer.prvBytesInBuffer ∧
      ∀ k, k < rest.length → rest[k]? = some (s.buffer.pucBuffer ((s.buffer.xTail + k) % s.buffer.xLength)) := by
  obtain ⟨begun, -, stored⟩ := sound.sender
  have kept := stored.before
  rw [← whole] at kept
  refine ⟨?_, ?_⟩
  · rw [sound.bytes, ← whole, List.length_append, Nat.add_sub_cancel_left]
  · intro k inside
    have here := kept (_ + k) (Nat.le_add_right _ k) (by rw [List.length_append]; omega)
    rw [List.getElem?_append_right (Nat.le_add_right _ k), Nat.add_sub_cancel_left] at here
    rw [here, sound.tail, Nat.mod_add_mod]

/-- In any order of the steps of the two tasks, the bytes received are those sent, in order, up to those that are in the
    buffer; these are in their places, and there are as many as it says. -/
theorem bytes_arrive (limited : Limited pvPortMalloc)
    (created : xStreamBufferGenericCreate pvPortMalloc size trigger false = some b)
    (run : exec step (start b notified) moves = some s) :
    (∃ rest : Bytes, (sentData (trace step event (start b notified) moves)).flatten =
        (receivedData (trace step event (start b notified) moves)).flatten ++ rest ∧
      rest.length = s.buffer.prvBytesInBuffer ∧
      ∀ k, k < rest.length → rest[k]? = some (s.buffer.pucBuffer ((s.buffer.xTail + k) % s.buffer.xLength))) ∧
      s.buffer.prvBytesInBuffer + s.buffer.xStreamBufferSpacesAvailable = size := by
  obtain ⟨sound, length, kind, -⟩ := run_sound limited created run
  obtain ⟨rest, whole⟩ := sound.follows.1
  have contents := sound.contents whole
  rw [kind, stream_bytes, stream_bytes] at whole
  refine ⟨⟨rest, whole.symm, contents⟩, ?_⟩
  rw [sound.bytes_spaces, length, Nat.add_sub_cancel]

def memory (xSize : ℕ) : Option (ℕ → UInt8) := if xSize < 2 ^ 63 then some fun _ => 85 else none

theorem memory_limited : Limited memory := fun _ large => if_neg (not_lt.mpr large)

/-- The receiver waits for two bytes, and is notified when three are sent. -/
def exchange : List Move :=
  [.xStreamBufferReceive 2 true, .step .receiver false, .xStreamBufferSend [7, 8, 9] true] ++
    List.replicate 7 (.step .sender false) ++ List.replicate 7 (.step .receiver false)

theorem bytes_arrive_sample : ∃ b s, xStreamBufferGenericCreate memory 4 0 false = some b ∧
    exec step (start b fun _ => false) exchange = some s ∧
      ∃ rest : Bytes, (sentData (trace step event (start b fun _ => false) exchange)).flatten =
        (receivedData (trace step event (start b fun _ => false) exchange)).flatten ++ rest ∧
          rest.length = s.buffer.prvBytesInBuffer := by
  obtain ⟨⟨rest, whole, length, -⟩, -⟩ :=
    @bytes_arrive _ _ memory 4 0 (fun _ => false) exchange memory_limited rfl rfl
  exact ⟨_, _, rfl, rfl, rest, whole, length⟩

example : (xStreamBufferGenericCreate memory 4 0 false).map (fun b =>
    receivedData (trace step event (start b fun _ => false) exchange)) = some [[7, 8]] := rfl

/-- In any order of the steps of the two tasks, the messages received are those sent, whole and in order, up to those
    that are in the buffer; these are in their places, each behind its length, and nothing else is there. No message is
    empty. -/
theorem messages_arrive (limited : Limited pvPortMalloc)
    (created : xStreamBufferGenericCreate pvPortMalloc size trigger true = some b)
    (run : exec step (start b notified) moves = some s) :
    (∃ rest : List Bytes, sentData (trace step event (start b notified) moves) =
        receivedData (trace step event (start b notified) moves) ++ rest ∧
      (stream true rest).length = s.buffer.prvBytesInBuffer ∧
      ∀ k, k < (stream true rest).length →
        (stream true rest)[k]? = some (s.buffer.pucBuffer ((s.buffer.xTail + k) % s.buffer.xLength))) ∧
      (∀ data ∈ sentData (trace step event (start b notified) moves), data ≠ []) ∧
      s.buffer.prvBytesInBuffer + s.buffer.xStreamBufferSpacesAvailable = size := by
  obtain ⟨sound, length, kind, -⟩ := run_sound limited created run
  obtain ⟨rest, whole⟩ := sound.follows.2 kind
  have streams : stream s.buffer.isMessageBuffer (receivedData (trace step event (start b notified) moves)) ++
      stream true rest = stream s.buffer.isMessageBuffer (sentData (trace step event (start b notified) moves)) := by
    rw [kind, ← whole, stream_append]
  refine ⟨⟨rest, whole.symm, sound.contents streams⟩, sound.full, ?_⟩
  rw [sound.bytes_spaces, length, Nat.add_sub_cancel]

/-- A message of two bytes is sent to a buffer of twelve, while the receiver waits. -/
def delivery : List Move :=
  [.xStreamBufferReceive 5 true, .step .receiver false, .xStreamBufferSend [7, 8] true] ++
    List.replicate 14 (.step .sender false) ++ List.replicate 16 (.step .receiver false)

theorem messages_arrive_sample : ∃ b s, xStreamBufferGenericCreate memory 12 0 true = some b ∧
    exec step (start b fun _ => false) delivery = some s ∧
      ∃ rest : List Bytes, sentData (trace step event (start b fun _ => false) delivery) =
        receivedData (trace step event (start b fun _ => false) delivery) ++ rest := by
  obtain ⟨⟨rest, whole, -⟩, -⟩ :=
    @messages_arrive _ _ memory 12 0 (fun _ => false) delivery memory_limited rfl rfl
  exact ⟨_, _, rfl, rfl, rest, whole⟩

example : (xStreamBufferGenericCreate memory 12 0 true).map (fun b =>
    receivedData (trace step event (start b fun _ => false) delivery)) = some [[7, 8]] := rfl

end

end OsyProg.StreamBuffers
