import OsyProg.Ring
import OsyProg.Runs
import OsyProg.Streams

/-!
A stream buffer or a message buffer of `stream_buffer.c`, which one task sends to and one
receives from with no lock. A step of a task is one access to what both of them share: a
byte that `memcpy` copies, an index, or a section that keeps the other one out. The calls
may wait for space and for bytes, and a task that waits is notified, or stops waiting when
its time is out.
-/
namespace OsyProg.StreamBuffers
open OsyProg.Bytes OsyProg.Streams

inductive Task
  | sender
  | receiver
  deriving DecidableEq

/-- What is computed in this type. -/
def size_t (n : ℕ) : ℕ := n % 2 ^ 64

theorem size_t_of_lt {n : ℕ} (small : n < 2 ^ 64) : size_t n = n := Nat.mod_eq_of_lt small

theorem size_t_sub {m n : ℕ} (le : n ≤ m) (small : m < 2 ^ 64) : size_t (m + 2 ^ 64 - n) = m - n := by
  rw [size_t]
  omega

/-- `StreamBuffer_t` -/
structure StreamBuffer where
  xTail : ℕ
  xHead : ℕ
  xLength : ℕ
  xTriggerLevelBytes : ℕ
  xTaskWaitingToReceive : Option Task
  xTaskWaitingToSend : Option Task
  pucBuffer : ℕ → UInt8
  isMessageBuffer : Bool           -- ucFlags & sbFLAGS_IS_MESSAGE_BUFFER

/-- `sizeof( size_t )` -/
def sbBYTES_TO_STORE_MESSAGE_LENGTH : ℕ := 8

/-- `sizeof( StreamBuffer_t )` -/
def sizeofStreamBuffer : ℕ := 72

/-- No object is so large that the difference of two pointers into it does not fit. -/
def Limited (pvPortMalloc : ℕ → Option (ℕ → UInt8)) : Prop := ∀ xSize, 2 ^ 63 ≤ xSize → pvPortMalloc xSize = none

/-- `malloc` gives the bytes of the buffer as they happen to be, or nothing. -/
def xStreamBufferGenericCreate (pvPortMalloc : ℕ → Option (ℕ → UInt8)) (xBufferSizeBytes xTriggerLevelBytes : ℕ)
    (xIsMessageBuffer : Bool) : Option StreamBuffer :=
  let xTriggerLevelBytes := if xTriggerLevelBytes = 0 then 1 else xTriggerLevelBytes
  if xBufferSizeBytes < size_t (xBufferSizeBytes + 1 + sizeofStreamBuffer) then
    let xBufferSizeBytes := xBufferSizeBytes + 1
    (pvPortMalloc (xBufferSizeBytes + sizeofStreamBuffer)).map fun pucBuffer =>
      { xTail := 0
        xHead := 0
        xLength := xBufferSizeBytes
        xTriggerLevelBytes
        xTaskWaitingToReceive := none
        xTaskWaitingToSend := none
        pucBuffer
        isMessageBuffer := xIsMessageBuffer }
  else none

namespace StreamBuffer

/-- The bytes of the two calls of `memcpy`, and the index behind them. -/
def copied (b : StreamBuffer) (xCount xIndex : ℕ) : List ℕ × ℕ :=
  let xFirstLength := min (b.xLength - xIndex) xCount
  let xNext := size_t (xIndex + xCount)
  (List.range' xIndex xFirstLength ++ List.range (xCount - xFirstLength),
    if xNext ≥ b.xLength then xNext - b.xLength else xNext)

/-- What `memcpy` stores, and the next `xHead`. -/
def prvWriteBytesToBuffer (b : StreamBuffer) (pucData : Bytes) (xHead : ℕ) : List (ℕ × UInt8) × ℕ :=
  ((b.copied pucData.length xHead).1.zip pucData, (b.copied pucData.length xHead).2)

/-- What `memcpy` loads, and the next `xTail`. -/
def prvReadBytesFromBuffer (b : StreamBuffer) (xCount xTail : ℕ) : List ℕ × ℕ := b.copied xCount xTail

def prvBytesInBuffer (b : StreamBuffer) : ℕ :=
  let xCount := size_t (b.xLength + b.xHead)
  let xCount := size_t (xCount + 2 ^ 64 - b.xTail)
  if xCount ≥ b.xLength then xCount - b.xLength else xCount

/-- What `xStreamBufferSpacesAvailable` computes from the tail that it has read. -/
def spaces (b : StreamBuffer) (xTail : ℕ) : ℕ :=
  let xSpace := size_t (b.xLength + xTail)
  let xSpace := size_t (xSpace + 2 ^ 64 - b.xHead)
  let xSpace := size_t (xSpace + 2 ^ 64 - 1)
  if xSpace ≥ b.xLength then xSpace - b.xLength else xSpace

/-- With no step of the other task in between. -/
def xStreamBufferSpacesAvailable (b : StreamBuffer) : ℕ := b.spaces b.xTail

/-- The bytes of a message buffer that are not those of a message. -/
def xBytesToStoreMessageLength (b : StreamBuffer) : ℕ :=
  if b.isMessageBuffer then sbBYTES_TO_STORE_MESSAGE_LENGTH else 0

end StreamBuffer

/-! ### Sending -/

/-- Variables of `xStreamBufferSend`. -/
structure Sending where
  pvTxData : Bytes
  xRequiredSpace : ℕ
  xSpace : ℕ

/-- How far the task is in `xStreamBufferSend`. -/
inductive Sender
  | idle
  | checking (c : Sending)                             -- taskENTER_CRITICAL
  | waiting (c : Sending)                              -- xTaskNotifyWait
  | woken (c : Sending)                                -- xTaskWaitingToSend = NULL
  | timing (c : Sending)                               -- xTaskCheckForTimeOut
  | original (c : Sending)                             -- xOriginalTail = xTail
  | adding (c : Sending) (xOriginalTail : ℕ)           -- xSpace = xLength + xTail, xSpace -= xHead
  | comparing (c : Sending) (xOriginalTail : ℕ)        -- while( xOriginalTail != xTail )
  | storing (pvTxData : Bytes) (stores : List (ℕ × UInt8)) (xNextHead : Option ℕ)
  | counting                                           -- prvBytesInBuffer( pxStreamBuffer ) >= xTriggerLevelBytes
  | completing                                         -- sbSEND_COMPLETED

/-- `prvWriteMessageToBuffer`: the bytes that are taken, what is stored, and the next `xHead` unless it stays. -/
def prvWriteMessageToBuffer (b : StreamBuffer) (pvTxData : Bytes) (xSpace xRequiredSpace : ℕ) : Sender :=
  if b.isMessageBuffer then
    if xSpace ≥ xRequiredSpace then
      let (lengths, xNextHead) :=
        b.prvWriteBytesToBuffer (bytesLE sbBYTES_TO_STORE_MESSAGE_LENGTH pvTxData.length) b.xHead
      if pvTxData.length ≠ 0 then
        let (stores, xHead) := b.prvWriteBytesToBuffer pvTxData xNextHead
        .storing pvTxData (lengths ++ stores) (some xHead)
      else .storing [] lengths none
    else .storing [] [] none
  else
    let pvTxData := pvTxData.take (min pvTxData.length xSpace)
    if pvTxData.length ≠ 0 then
      let (stores, xHead) := b.prvWriteBytesToBuffer pvTxData b.xHead
      .storing pvTxData stores (some xHead)
    else .storing [] [] none

/-- After the loop: the space is read once more when there was none. -/
def Sending.onward (c : Sending) (b : StreamBuffer) : Sender :=
  if c.xSpace = 0 then .original c else prvWriteMessageToBuffer b c.pvTxData c.xSpace c.xRequiredSpace

/-- `xStreamBufferSend` up to its first access to what is shared. -/
def xStreamBufferSend (b : StreamBuffer) (pvTxData : Bytes) (wait : Bool) : Sender :=
  let xMaxReportedSpace := b.xLength - 1
  if b.isMessageBuffer then
    let xRequiredSpace := pvTxData.length + sbBYTES_TO_STORE_MESSAGE_LENGTH
    if wait ∧ ¬ xRequiredSpace > xMaxReportedSpace then .checking { pvTxData, xRequiredSpace, xSpace := 0 }
    else .original { pvTxData, xRequiredSpace, xSpace := 0 }
  else
    let xRequiredSpace := if pvTxData.length > xMaxReportedSpace then xMaxReportedSpace else pvTxData.length
    if wait then .checking { pvTxData, xRequiredSpace, xSpace := 0 }
    else .original { pvTxData, xRequiredSpace, xSpace := 0 }

def xStreamBufferSendFromISR (b : StreamBuffer) (pvTxData : Bytes) : Sender :=
  .original { pvTxData, xRequiredSpace := pvTxData.length + b.xBytesToStoreMessageLength, xSpace := 0 }

/-! ### Receiving -/

/-- How far the task is in `xStreamBufferReceive`. -/
inductive Receiver
  | idle
  | checking (xBufferLengthBytes : ℕ)                  -- taskENTER_CRITICAL
  | waiting (xBufferLengthBytes : ℕ)                   -- xTaskNotifyWait
  | woken (xBufferLengthBytes : ℕ)                     -- xTaskWaitingToReceive = NULL
  | counting (xBufferLengthBytes : ℕ)                  -- xBytesAvailable = prvBytesInBuffer( pxStreamBuffer )
  | sizing (xBufferLengthBytes xBytesAvailable : ℕ) (loads : List ℕ) (length : Bytes) (xNextTail : ℕ)
  | loading (loads : List ℕ) (pvRxData : Bytes) (xNextTail : ℕ)
  | completing                                         -- sbRECEIVE_COMPLETED

/-- The end of `prvReadMessageFromBuffer`, from where the number of bytes is known. -/
def readBytes (b : StreamBuffer) (xNextMessageLength xBytesAvailable xNextTail : ℕ) : Receiver :=
  let xCount := min xNextMessageLength xBytesAvailable
  if xCount ≠ 0 then
    let (loads, xTail) := b.prvReadBytesFromBuffer xCount xNextTail
    .loading loads [] xTail
  else .idle

def prvReadMessageFromBuffer (b : StreamBuffer) (xBufferLengthBytes xBytesAvailable : ℕ) : Receiver :=
  if b.isMessageBuffer then
    let (loads, xNextTail) := b.prvReadBytesFromBuffer sbBYTES_TO_STORE_MESSAGE_LENGTH b.xTail
    .sizing xBufferLengthBytes xBytesAvailable loads [] xNextTail
  else readBytes b xBufferLengthBytes xBytesAvailable b.xTail

/-- The length of the message is known: one that is too long is left in the buffer. -/
def sized (b : StreamBuffer) (xBufferLengthBytes xBytesAvailable : ℕ) (length : Bytes) (xNextTail : ℕ) : Receiver :=
  let xNextMessageLength := valueLE length
  readBytes b (if xNextMessageLength > xBufferLengthBytes then 0 else xNextMessageLength)
    (xBytesAvailable - sbBYTES_TO_STORE_MESSAGE_LENGTH) xNextTail

/-- The number of available bytes is known. -/
def available (b : StreamBuffer) (xBufferLengthBytes xBytesAvailable : ℕ) : Receiver :=
  if xBytesAvailable > b.xBytesToStoreMessageLength then prvReadMessageFromBuffer b xBufferLengthBytes xBytesAvailable
  else .idle

/-! ### Steps -/

structure State where
  buffer : StreamBuffer
  notified : Task → Bool            -- ucNotifyState is taskNOTIFICATION_RECEIVED
  sender : Sender
  receiver : Receiver

inductive Move
  | xStreamBufferSend (pvTxData : Bytes) (wait : Bool)
  | xStreamBufferSendFromISR (pvTxData : Bytes)
  | xStreamBufferReceive (xBufferLengthBytes : ℕ) (wait : Bool)
  | step (task : Task) (timeOut : Bool)
  | xTaskNotify (task : Task)                          -- by someone else
  | xStreamBufferSendCompletedFromISR
  | xStreamBufferReceiveCompletedFromISR

namespace State

/-- A task that waits is notified, and waits no longer; the two reads of the handle are one step. -/
def notifyReceiver (s : State) : State :=
  match s.buffer.xTaskWaitingToReceive with
  | some t =>
    { s with buffer := { s.buffer with xTaskWaitingToReceive := none }, notified := Function.update s.notified t true }
  | none => s

def notifySender (s : State) : State :=
  match s.buffer.xTaskWaitingToSend with
  | some t =>
    { s with buffer := { s.buffer with xTaskWaitingToSend := none }, notified := Function.update s.notified t true }
  | none => s

/-- A step of the task that sends; `timeOut` when the time that it may wait is over. -/
def sending (s : State) (timeOut : Bool) : Option State :=
  match s.sender with
  | .idle => none
  | .checking c =>
    let c := { c with xSpace := s.buffer.xStreamBufferSpacesAvailable }
    if c.xSpace < c.xRequiredSpace then
      some { s with
        buffer := { s.buffer with xTaskWaitingToSend := some .sender }
        notified := Function.update s.notified .sender false
        sender := .waiting c }
    else some { s with sender := c.onward s.buffer }
  | .waiting c =>
    if s.notified .sender ∨ timeOut then
      some { s with notified := Function.update s.notified .sender false, sender := .woken c }
    else none
  | .woken c => some { s with buffer := { s.buffer with xTaskWaitingToSend := none }, sender := .timing c }
  | .timing c => some { s with sender := if timeOut then c.onward s.buffer else .checking c }
  | .original c => some { s with sender := .adding c s.buffer.xTail }
  | .adding c xOriginalTail =>
    some { s with sender := .comparing { c with xSpace := s.buffer.spaces s.buffer.xTail } xOriginalTail }
  | .comparing c xOriginalTail =>
    some { s with
      sender := if xOriginalTail ≠ s.buffer.xTail then .original c
        else prvWriteMessageToBuffer s.buffer c.pvTxData c.xSpace c.xRequiredSpace }
  | .storing pvTxData ((place, c) :: stores) xNextHead =>
    some { s with
      buffer := { s.buffer with pucBuffer := Function.update s.buffer.pucBuffer place c }
      sender := .storing pvTxData stores xNextHead }
  | .storing _ [] (some xHead) => some { s with buffer := { s.buffer with xHead }, sender := .counting }
  | .storing _ [] none => some { s with sender := .idle }
  | .counting =>
    some { s with sender := if s.buffer.prvBytesInBuffer ≥ s.buffer.xTriggerLevelBytes then .completing else .idle }
  | .completing => some { s.notifyReceiver with sender := .idle }

/-- A step of the task that receives. -/
def receiving (s : State) (timeOut : Bool) : Option State :=
  match s.receiver with
  | .idle => none
  | .checking n =>
    if s.buffer.prvBytesInBuffer ≤ s.buffer.xBytesToStoreMessageLength then
      some { s with
        buffer := { s.buffer with xTaskWaitingToReceive := some .receiver }
        notified := Function.update s.notified .receiver false
        receiver := .waiting n }
    else some { s with receiver := available s.buffer n s.buffer.prvBytesInBuffer }
  | .waiting n =>
    if s.notified .receiver ∨ timeOut then
      some { s with notified := Function.update s.notified .receiver false, receiver := .woken n }
    else none
  | .woken n => some { s with buffer := { s.buffer with xTaskWaitingToReceive := none }, receiver := .counting n }
  | .counting n => some { s with receiver := available s.buffer n s.buffer.prvBytesInBuffer }
  | .sizing n xBytesAvailable (place :: loads) length xNextTail =>
    some { s with receiver := .sizing n xBytesAvailable loads (length ++ [s.buffer.pucBuffer place]) xNextTail }
  | .sizing n xBytesAvailable [] length xNextTail =>
    some { s with receiver := sized s.buffer n xBytesAvailable length xNextTail }
  | .loading (place :: loads) pvRxData xNextTail =>
    some { s with receiver := .loading loads (pvRxData ++ [s.buffer.pucBuffer place]) xNextTail }
  | .loading [] _ xTail => some { s with buffer := { s.buffer with xTail }, receiver := .completing }
  | .completing => some { s.notifySender with receiver := .idle }

end State

def step (s : State) : Move → Option State
  | .xStreamBufferSend pvTxData wait =>
    match s.sender with
    | .idle => some { s with sender := xStreamBufferSend s.buffer pvTxData wait }
    | _ => none
  | .xStreamBufferSendFromISR pvTxData =>
    match s.sender with
    | .idle => some { s with sender := xStreamBufferSendFromISR s.buffer pvTxData }
    | _ => none
  | .xStreamBufferReceive xBufferLengthBytes wait =>
    match s.receiver with
    | .idle => some { s with receiver := if wait then .checking xBufferLengthBytes else .counting xBufferLengthBytes }
    | _ => none
  | .step .sender timeOut => s.sending timeOut
  | .step .receiver timeOut => s.receiving timeOut
  | .xTaskNotify task => some { s with notified := Function.update s.notified task true }
  | .xStreamBufferSendCompletedFromISR => some s.notifyReceiver
  | .xStreamBufferReceiveCompletedFromISR => some s.notifySender

/-- Data become visible to the other task when the index moves. -/
inductive Event
  | sent (pvTxData : Bytes)
  | received (pvRxData : Bytes)

def event (s : State) : Move → List Event
  | .step .sender _ =>
    match s.sender with
    | .storing pvTxData [] (some _) => [.sent pvTxData]
    | _ => []
  | .step .receiver _ =>
    match s.receiver with
    | .loading [] pvRxData _ => [.received pvRxData]
    | _ => []
  | _ => []

/-- The buffer as it was created, when no call has been made. -/
def start (b : StreamBuffer) (notified : Task → Bool) : State :=
  { buffer := b, notified, sender := .idle, receiver := .idle }

end OsyProg.StreamBuffers
