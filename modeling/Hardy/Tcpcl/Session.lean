import Hardy.Machine
import Hardy.Tcpcl.Codec

/-!
# A session

Model of the reader task of a session, `tcpclv4/src/session.rs`.  The task is a machine:
its state is the session and where the task waits, and a step is what it does from one
wait to the next, with what it gets there.  A step awaits at most one message to the
writer or one item to the ingest queue; `fault` says how that fails, if it does.
Lengths and sizes of type `usize` are 64 bits wide.
-/

namespace Hardy.Tcpcl

open Cbor

inductive SessionError where
  | peerHangup
  | peerTimeout
  | shuttingDown
  | invalidProtocol
  | peerTerminated (msg : SessionTermMessage)
  | localShutdown (reasonCode : SessionTermReasonCode)
  | writerClosed
  | ingestStopped
  | io
  | codec (e : Error)
deriving DecidableEq, Repr

structure XferAck where
  flags : SegmentFlags
  transferId : UInt64
  acknowledgedLength : Nat
deriving DecidableEq, Repr

def XferAck.Matches (ack : XferAck) (msg : TransferAckMessage) : Prop :=
  ack.transferId = msg.transferId ∧ ack.flags = msg.messageFlags ∧
    UInt64.ofNat ack.acknowledgedLength = msg.acknowledgedLength

instance (ack : XferAck) (msg : TransferAckMessage) : Decidable (ack.Matches msg) :=
  inferInstanceAs (Decidable (_ ∧ _ ∧ _))

inductive SendState where
  | continue
  | refused (reasonCode : TransferRefuseReasonCode)

inductive Ingest where
  | ack (ack : TransferAckMessage)
  | dispatch (bundle : Bytes) (ack : TransferAckMessage)
deriving DecidableEq, Repr

inductive Event where
  /-- a message goes to the writer -/
  | send (msg : Message)
  /-- a segment goes to the writer -/
  | feed (msg : TransferSegmentMessage)
  /-- an item goes to the ingest task -/
  | queue (item : Ingest)
  /-- a segment is added to the reassembled bundle -/
  | received (msg : TransferSegmentMessage)
  /-- `send_once` is called -/
  | sendOnce (transferId : UInt64) (bundle : Bytes)
  /-- an acknowledgement is the one that is expected -/
  | acknowledged (msg : TransferAckMessage)
  /-- the transfer that is sent is refused -/
  | refused (reasonCode : TransferRefuseReasonCode)
  /-- the outcome of a bundle is `Completed` -/
  | completed
deriving DecidableEq, Repr

/-- The fields of a session that its steps change, and the sizes that it goes by. -/
structure Session where
  segmentMtu : UInt64
  transferMru : UInt64
  transferId : UInt64
  acks : List XferAck
  ingressBundle : Option Bytes
  refusing : Option UInt64
deriving DecidableEq, Repr

/-- What a method returns, with the session after it and what it has done. -/
structure Reply (α : Type) where
  session : Session
  events : List Event
  result : Except SessionError α

/-- The local MTU, capped by the MRU of the peer, which is clamped to `isize::MAX`. -/
def negotiateSegmentMtu (localMtu : Option UInt64) (peerSegmentMru : UInt64) : UInt64 :=
  let peerSegmentMru := min peerSegmentMru (.ofNat (2 ^ 63 - 1))
  match localMtu with
  | some mtu => min mtu peerSegmentMru
  | none => peerSegmentMru

namespace Session

def new (segmentMtu transferMru : UInt64) : Session :=
  { segmentMtu, transferMru, transferId := 0, acks := [], ingressBundle := none,
    refusing := none }

section

variable {α : Type}

def send (s : Session) (msg : Message) (fault : Option SessionError)
    (result : Except SessionError α) : Reply α :=
  match fault with
  | none => ⟨s, [.send msg], result⟩
  | some e => ⟨s, [], .error e⟩

def rejectMsg (s : Session) (reasonCode : MessageRejectionReasonCode) (rejectedMessage : UInt8)
    (fault : Option SessionError) (result : Except SessionError α) : Reply α :=
  s.send (.reject ⟨reasonCode, rejectedMessage⟩) fault result

def unexpectedMsg (s : Session) (rejectedMessage : MessageType) (fault : Option SessionError)
    (result : Except SessionError α) : Reply α :=
  s.rejectMsg .unexpected rejectedMessage.toU8 fault result

end

/-! ## Inbound transfers -/

def enqueue (s : Session) (msg : TransferSegmentMessage) (item : Ingest)
    (fault : Option SessionError) : Reply Unit :=
  match fault with
  | none => ⟨s, [.received msg, .queue item], .ok ()⟩
  | some _ => ⟨s, [.received msg], .error .ingestStopped⟩

/-- `on_transfer`, from where there is a bundle to add the segment to. -/
def append (s : Session) (bundle : Bytes) (msg : TransferSegmentMessage)
    (fault : Option SessionError) : Reply Unit :=
  if s.transferMru.toNat < msg.data.length + bundle.length then
    { s with
      ingressBundle := none
      refusing := if msg.messageFlags.finish then none else some msg.transferId }.send
      (.transferRefuse ⟨.notAcceptable, msg.transferId⟩) fault (.ok ())
  else
    let bundle := bundle ++ msg.data
    let ack := ⟨msg.messageFlags, msg.transferId, .ofNat bundle.length⟩
    if msg.messageFlags.finish then
      { s with ingressBundle := none }.enqueue msg (.dispatch bundle ack) fault
    else { s with ingressBundle := some bundle }.enqueue msg (.ack ack) fault

def onTransfer (s : Session) (msg : TransferSegmentMessage) (fault : Option SessionError) :
    Reply Unit :=
  if msg.messageFlags.start then
    match s.ingressBundle with
    | some _ =>
      -- a transfer that is cut short by the next one takes that one with it
      { s with
        ingressBundle := none
        refusing := if msg.messageFlags.finish then none else some msg.transferId }.unexpectedMsg
        .xferSegment fault (.ok ())
    | none => { s with refusing := none }.append [] msg fault
  else if s.refusing = some msg.transferId then
    ⟨{ s with refusing := if msg.messageFlags.finish then none else s.refusing }, [], .ok ()⟩
  else
    match s.ingressBundle with
    | none => s.unexpectedMsg .xferSegment fault (.ok ())
    | some bundle => s.append bundle msg fault

/-! ## Outbound transfers -/

def onPeerMsgWhileSending (s : Session) (msg : Message) (fault : Option SessionError) :
    Reply SendState :=
  match msg with
  | .sessionTerm msg => ⟨s, [], .error (.peerTerminated msg)⟩
  | .transferSegment msg =>
    let r := s.onTransfer msg fault
    ⟨r.session, r.events, r.result.map fun _ => .continue⟩
  | .transferAck msg =>
    match s.acks with
    | ack :: acks =>
      if ack.Matches msg then ⟨{ s with acks }, [.acknowledged msg], .ok .continue⟩
      else { s with acks }.rejectMsg .unexpected MessageType.xferAck.toU8 fault
        (.error (.localShutdown .unknown))
    | [] => s.rejectMsg .unexpected MessageType.xferAck.toU8 fault
        (.error (.localShutdown .unknown))
  | .transferRefuse msg =>
    match s.acks with
    | ack :: _ =>
      if ack.transferId = msg.transferId then
        ⟨{ s with acks := s.acks.filter (·.transferId ≠ msg.transferId) },
          [.refused msg.reasonCode], .ok (.refused msg.reasonCode)⟩
      else s.rejectMsg .unexpected MessageType.xferRefuse.toU8 fault
        (.error (.localShutdown .unknown))
    | [] => s.rejectMsg .unexpected MessageType.xferRefuse.toU8 fault
        (.error (.localShutdown .unknown))
  | msg => s.unexpectedMsg msg.messageType fault (.ok .continue)

end Session

/-- The variables of `forward_to_peer` and `send_once`, and the segment that
`send_segment` has not fed to the writer yet. -/
structure Transfer where
  bundle : Bytes
  transferId : UInt64
  rest : Bytes
  start : Bool
  cumulativeAcknowledgedLength : Nat
  offered : Option TransferSegmentMessage
deriving DecidableEq, Repr

inductive Control where
  /-- in the loop of `run` -/
  | main
  /-- in `send_segment` -/
  | sending (t : Transfer)
  /-- nowhere: the loop of `run` has ended -/
  | failed (e : SessionError)
  /-- in the loop of `on_terminate` -/
  | terminating
  /-- in the loop of `shutdown` -/
  | shuttingDown
  | finished
deriving DecidableEq, Repr

structure State where
  session : Session
  control : Control
deriving DecidableEq, Repr

inductive Input where
  /-- a bundle to forward -/
  | bundle (bundle : Bytes)
  /-- no more bundles -/
  | sinkClosed
  /-- the token of the session is cancelled, as that of the CLA is or not -/
  | cancelled (cla : Bool)
  | peer (msg : Message)
  | peerFault (e : SessionError)
  /-- the writer has room for a segment -/
  | room
  | writerClosed
  /-- the end of the loop of `run` is dealt with -/
  | epilogue (cla : Bool)
deriving DecidableEq, Repr

structure Label where
  input : Input
  fault : Option SessionError
deriving DecidableEq, Repr

namespace Session

/-- One segment is split off the bundle, its acknowledgement expected, and the segment
waits for the writer. -/
def sendSegment (s : Session) (t : Transfer) : Session × Transfer :=
  if s.segmentMtu.toNat < t.rest.length then
    let segment := t.rest.take s.segmentMtu.toNat
    let length := t.cumulativeAcknowledgedLength + segment.length
    let flags : SegmentFlags := ⟨t.start, false, 0⟩
    ({ s with acks := s.acks ++ [⟨flags, t.transferId, length⟩] },
      { t with
        rest := t.rest.drop s.segmentMtu.toNat
        start := false
        cumulativeAcknowledgedLength := length
        offered := some ⟨flags, t.transferId, [], segment⟩ })
  else
    let length := t.cumulativeAcknowledgedLength + t.rest.length
    let flags : SegmentFlags := ⟨t.start, true, 0⟩
    ({ s with acks := s.acks ++ [⟨flags, t.transferId, length⟩] },
      { t with
        rest := []
        cumulativeAcknowledgedLength := length
        offered := some ⟨flags, t.transferId, [], t.rest⟩ })

/-- The counter of the transfers wraps around, as it does where overflow is not checked. -/
def sendOnce (s : Session) (bundle : Bytes) : State × List Event :=
  let (s', t) := { s with transferId := s.transferId + 1 }.sendSegment
    { bundle, transferId := s.transferId, rest := bundle, start := true,
      cumulativeAcknowledgedLength := 0, offered := none }
  (⟨s', .sending t⟩, [.sendOnce s.transferId bundle])

/-- `forward_to_peer`, from the result of `send_once` on. -/
def sentOnce (s : Session) (bundle : Bytes) :
    Option TransferRefuseReasonCode → State × List Event
  | none | some .completed => (⟨s, .main⟩, [.completed])
  | some .retransmit => s.sendOnce bundle
  | some .noResources => (⟨s, .failed (.localShutdown .resourceExhaustion)⟩, [])
  | some _ => (⟨s, .failed (.localShutdown .unknown)⟩, [])

def forwardToPeer (s : Session) (bundle : Bytes) : State × List Event :=
  if s.transferId = .ofNat (2 ^ 64 - 1) then
    (⟨s, .failed (.localShutdown .resourceExhaustion)⟩, [])
  else s.sendOnce bundle

def drained (s : Session) (t : Transfer) : State × List Event :=
  if s.acks = [] then s.sentOnce t.bundle none else (⟨s, .sending { t with offered := none }⟩, [])

def fed (s : Session) (t : Transfer) (segment : TransferSegmentMessage) : State × List Event :=
  if segment.messageFlags.finish then s.drained t
  else
    let (s, t) := s.sendSegment t
    (⟨s, .sending t⟩, [])

/-- A message from the peer is dealt with while a transfer is sent. -/
def sentState (s : Session) (t : Transfer) : SendState → State × List Event
  | .refused reasonCode => s.sentOnce t.bundle (some reasonCode)
  | .continue =>
    match t.offered with
    | some _ => (⟨s, .sending t⟩, [])
    | none => s.drained t

/-! ## The task -/

end Session

namespace Reply

variable {α : Type}

def andThen (r : Reply α) (next : Session → α → State × List Event)
    (failed : Session → SessionError → State) : State × List Event :=
  match r.result with
  | .ok a => ((next r.session a).1, r.events ++ (next r.session a).2)
  | .error e => (failed r.session e, r.events)

theorem andThen_of {P : State × List Event → Prop} {r : Reply α}
    {next : Session → α → State × List Event} {failed : Session → SessionError → State}
    (hok : ∀ a, r.result = .ok a →
      P ((next r.session a).1, r.events ++ (next r.session a).2))
    (herror : ∀ e, r.result = .error e → P (failed r.session e, r.events)) :
    P (r.andThen next failed) := by
  unfold andThen
  cases h : r.result with
  | ok a => exact hok a h
  | error e => exact herror e h

end Reply

namespace State

/-- An error ends the loop of `run`. -/
def fail (s : Session) (e : SessionError) : State := ⟨s, .failed e⟩

def finish (s : Session) (_ : SessionError) : State := ⟨s, .finished⟩

def stay (control : Control) (s : Session) (_ : Unit) : State × List Event := (⟨s, control⟩, [])

/-- A message of an unknown type is rejected, and any other error is passed on. -/
def onPeerFault (s : Session) (control : Control) (failed : Session → SessionError → State)
    (e : SessionError) (fault : Option SessionError) : State × List Event :=
  match e with
  | .codec (.invalidMessageType n) =>
    (s.rejectMsg .unknownType n fault (.ok ())).andThen (stay control) failed
  | e => (failed s e, [])

def mainStep (s : Session) (l : Label) : Option (State × List Event) :=
  match l.input with
  | .cancelled true => some (fail s (.localShutdown .unknown), [])
  | .cancelled false => some (fail s .ingestStopped, [])
  | .bundle bundle => some (s.forwardToPeer bundle)
  | .sinkClosed => some (fail s (.localShutdown .unknown), [])
  | .peer (.transferSegment msg) => some ((s.onTransfer msg l.fault).andThen (stay .main) fail)
  | .peer (.sessionTerm msg) => some (fail s (.peerTerminated msg), [])
  | .peer msg =>
    some ((s.unexpectedMsg msg.messageType l.fault (.ok ())).andThen (stay .main) fail)
  | .peerFault e => some (onPeerFault s .main fail e l.fault)
  | _ => none

def sendingStep (s : Session) (t : Transfer) (l : Label) : Option (State × List Event) :=
  match l.input, t.offered with
  | .peer msg, _ =>
    some ((s.onPeerMsgWhileSending msg l.fault).andThen (fun s r => s.sentState t r) fail)
  | .peerFault e, _ => some (onPeerFault s (.sending t) fail e l.fault)
  | .room, some segment => some ((s.fed t segment).1, .feed segment :: (s.fed t segment).2)
  | .writerClosed, some _ => some (fail s .writerClosed, [])
  | _, _ => none

/-- `shutdown`, up to its loop. -/
def shutdown (s : Session) (reasonCode : SessionTermReasonCode) (cla : Bool)
    (fault : Option SessionError) : State × List Event :=
  if cla then (⟨s, .finished⟩, [])
  else
    (s.send (.sessionTerm ⟨⟨false, 0⟩, reasonCode⟩) fault (.ok ())).andThen (stay .shuttingDown)
      finish

/-- The loop of `on_terminate` goes on while acknowledgements are outstanding. -/
def terminating (s : Session) (_ : Unit) : State × List Event :=
  (⟨s, if s.acks = [] then .finished else .terminating⟩, [])

def onTerminate (s : Session) (msg : SessionTermMessage) (fault : Option SessionError) :
    State × List Event :=
  (s.send (.sessionTerm ⟨{ msg.messageFlags with reply := true }, msg.reasonCode⟩) fault
    (.ok ())).andThen terminating finish

/-- `run`, behind its loop. -/
def epilogue (s : Session) (cla : Bool) (fault : Option SessionError) :
    SessionError → State × List Event
  | .peerTerminated msg => onTerminate s msg fault
  | .localShutdown reasonCode => shutdown s reasonCode cla fault
  | .writerClosed => (⟨s, .finished⟩, [])
  | .ingestStopped => shutdown s .resourceExhaustion cla fault
  | .io => (⟨s, .finished⟩, [])
  | .codec _ => shutdown s .unknown cla fault
  | .peerHangup => (⟨s, .finished⟩, [])
  | .peerTimeout | .shuttingDown | .invalidProtocol => shutdown s .unknown cla fault

def terminatingStep (s : Session) (l : Label) : Option (State × List Event) :=
  match l.input with
  | .peer (.transferSegment msg) =>
    if msg.messageFlags.start then
      -- the peer begins a transfer of its own while the session ends
      some ((s.send (.transferRefuse ⟨.sessionTerminating, msg.transferId⟩) l.fault
        (.ok ())).andThen terminating finish)
    else some ((s.onTransfer msg l.fault).andThen terminating finish)
  | .peer msg => some ((s.unexpectedMsg msg.messageType l.fault (.ok ())).andThen terminating finish)
  | .peerFault e => some (onPeerFault s .terminating finish e l.fault)
  | _ => none

def shuttingDownStep (s : Session) (l : Label) : Option (State × List Event) :=
  match l.input with
  | .cancelled _ => some (⟨s, .finished⟩, [])
  | .peer (.sessionTerm _) => some (⟨s, .finished⟩, [])
  | .peer (.transferSegment msg) =>
    some ((s.onTransfer msg l.fault).andThen (stay .shuttingDown) finish)
  | .peer msg =>
    some ((s.unexpectedMsg msg.messageType l.fault (.ok ())).andThen (stay .shuttingDown) finish)
  | .peerFault e => some (onPeerFault s .shuttingDown finish e l.fault)
  | _ => none

def step (σ : State) (l : Label) : Option (State × List Event) :=
  match σ.control with
  | .main => mainStep σ.session l
  | .sending t => sendingStep σ.session t l
  | .failed e =>
    match l.input with
    | .epilogue cla => some (epilogue σ.session cla l.fault e)
    | _ => none
  | .terminating => terminatingStep σ.session l
  | .shuttingDown => shuttingDownStep σ.session l
  | .finished => none

def IsNew (segmentMtu transferMru : UInt64) (σ : State) : Prop :=
  σ = ⟨.new segmentMtu transferMru, .main⟩

theorem isNew_new (segmentMtu transferMru : UInt64) :
    IsNew segmentMtu transferMru ⟨.new segmentMtu transferMru, .main⟩ := rfl

def machine (segmentMtu transferMru : UInt64) : Machine (State × List Event) Label :=
  Machine.emitting (IsNew segmentMtu transferMru) step

end State

end Hardy.Tcpcl
