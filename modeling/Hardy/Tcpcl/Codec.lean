import Hardy.Eid.Text
import Hardy.Framing
import Hardy.Stream

/-!
# The messages of TCPCLv4

Model of `tcpclv4/src/codec.rs`.  A decoder that parses a clone of the buffer is a
scanner, which fails with `none` where the source returns `Ok(None)`; the number of
bytes that it takes off the buffer is summed up beside it, as in the source.  Errors
have no buffer: a framed stream ends at the first one.
-/

namespace Hardy.Tcpcl

open Cbor

inductive Error where
  | invalidMessageType (n : UInt8)
  | invalidNodeIdUtf8
  | invalidNodeId
  | invalidExtensionLength
deriving DecidableEq, Repr

inductive MessageType where
  | xferSegment
  | xferAck
  | xferRefuse
  | keepalive
  | sessTerm
  | msgReject
  | sessInit
deriving DecidableEq, Repr

namespace MessageType

def toU8 : MessageType → UInt8
  | .xferSegment => 1
  | .xferAck => 2
  | .xferRefuse => 3
  | .keepalive => 4
  | .sessTerm => 5
  | .msgReject => 6
  | .sessInit => 7

def ofU8 (n : UInt8) : Except Error MessageType :=
  match n.toNat with
  | 1 => .ok .xferSegment
  | 2 => .ok .xferAck
  | 3 => .ok .xferRefuse
  | 4 => .ok .keepalive
  | 5 => .ok .sessTerm
  | 6 => .ok .msgReject
  | 7 => .ok .sessInit
  | _ => .error (.invalidMessageType n)

theorem ofU8_toU8 (t : MessageType) : ofU8 t.toU8 = .ok t := by
  cases t <;> rfl

theorem ofU8_eq_ok {n : UInt8} {t : MessageType} (h : ofU8 n = .ok t) : n = t.toU8 := by
  unfold ofU8 at h
  split at h
  all_goals first
    | (cases h; exact UInt8.toNat_inj.mp ‹_›)
    | cases h

end MessageType

/-! ## Numbers on the wire -/

def putU16 (n : UInt16) : Bytes := beBytes 2 n.toNat

def putU32 (n : UInt32) : Bytes := beBytes 4 n.toNat

def putU64 (n : UInt64) : Bytes := beBytes 8 n.toNat

abbrev Decoder := Scan (Option Error) UInt8 Unit

namespace Decoder

def need (n : Nat) : Decoder Unit := fun c =>
  if c.rest.length < n then .error none else .ok ((), c)

/-- `split_to`, where there are `n` bytes. -/
def splitTo (n : Nat) : Decoder Bytes := Scan.take (fun _ _ => ()) (fun _ => none) n

def getU8 : Decoder UInt8 := Scan.next (fun _ _ => ()) none

def getU16 : Decoder UInt16 := do
  let b ← splitTo 2
  return .ofNat (beNat b)

def getU32 : Decoder UInt32 := do
  let b ← splitTo 4
  return .ofNat (beNat b)

def getU64 : Decoder UInt64 := do
  let b ← splitTo 8
  return .ofNat (beNat b)

def skipType : Decoder Unit := do
  let _ ← getU8
  return ()

end Decoder

open Decoder

/-! ## Extension items -/

structure ExtensionFlags where
  critical : Bool
  reserved : UInt8
deriving DecidableEq, Repr

def ExtensionFlags.ofU8 (value : UInt8) : ExtensionFlags :=
  ⟨value &&& 1 != 0, value &&& 0xFE⟩

/-- The reserved bits of a session extension item are not written. -/
def SessionInitExtensionFlags.toU8 (flags : ExtensionFlags) : UInt8 :=
  if flags.critical then 1 else 0

def TransferSegmentExtensionFlags.toU8 (flags : ExtensionFlags) : UInt8 :=
  if flags.critical then flags.reserved ||| 1 else flags.reserved

/-- `SessionInitExtension` and `TransferSegmentExtension` -/
structure ExtensionItem where
  flags : ExtensionFlags
  itemType : UInt16
  itemLength : UInt16
  itemValue : Bytes
deriving DecidableEq, Repr

def encodeExtensions (flags : ExtensionFlags → UInt8) (items : List ExtensionItem) : Bytes :=
  putU32 (.ofNat (items.map fun e => 1 + 2 + 2 + e.itemValue.length).sum) ++
    items.flatMap fun e =>
      flags e.flags :: (putU16 e.itemType ++ (putU16 e.itemLength ++ e.itemValue))

/-- The loop over the items: `remaining` bytes are left of the declared length, and
`consumed` bytes of the buffer are parsed. -/
def decodeExtensions (remaining consumed : Nat) (items : List ExtensionItem) :
    Decoder (List ExtensionItem × Nat) :=
  if remaining < 5 then pure (items, consumed)
  else do
    need 5
    let flags ← getU8
    let itemType ← getU16
    let itemLength ← getU16
    let itemValue ← splitTo itemLength.toNat
    let size := 5 + itemLength.toNat
    if remaining < size then throw (some .invalidExtensionLength)
    else
      decodeExtensions (remaining - size) (consumed + size)
        (items ++ [⟨.ofU8 flags, itemType, itemLength, itemValue⟩])
termination_by remaining
decreasing_by omega

/-! ## Flags and reason codes -/

/-- `TransferSegmentMessageFlags`; `finish` is the flag `end`. -/
structure SegmentFlags where
  start : Bool
  finish : Bool
  reserved : UInt8
deriving DecidableEq, Repr

def SegmentFlags.ofU8 (value : UInt8) : SegmentFlags :=
  ⟨value &&& 2 != 0, value &&& 1 != 0, value &&& 0xFC⟩

def SegmentFlags.toU8 (flags : SegmentFlags) : UInt8 :=
  let value := if flags.finish then flags.reserved ||| 1 else flags.reserved
  if flags.start then value ||| 2 else value

/-- `SessionTermMessageFlags` -/
structure TermFlags where
  reply : Bool
  reserved : UInt8
deriving DecidableEq, Repr

def TermFlags.ofU8 (value : UInt8) : TermFlags := ⟨value &&& 1 != 0, value &&& 0xFE⟩

def TermFlags.toU8 (flags : TermFlags) : UInt8 :=
  if flags.reply then flags.reserved ||| 1 else flags.reserved

inductive SessionTermReasonCode where
  | unknown
  | idleTimeout
  | versionMismatch
  | busy
  | contactFailure
  | resourceExhaustion
  | unassigned (n : UInt8)
  | privateUse (n : UInt8)
deriving DecidableEq, Repr

def SessionTermReasonCode.ofU8 (n : UInt8) : SessionTermReasonCode :=
  match n.toNat with
  | 0 => .unknown
  | 1 => .idleTimeout
  | 2 => .versionMismatch
  | 3 => .busy
  | 4 => .contactFailure
  | 5 => .resourceExhaustion
  | _ => if n ≤ 0xEF then .unassigned n else .privateUse n

def SessionTermReasonCode.toU8 : SessionTermReasonCode → UInt8
  | .unknown => 0
  | .idleTimeout => 1
  | .versionMismatch => 2
  | .busy => 3
  | .contactFailure => 4
  | .resourceExhaustion => 5
  | .unassigned n | .privateUse n => n

inductive MessageRejectionReasonCode where
  | unknownType
  | unsupported
  | unexpected
  | unassigned (n : UInt8)
  | privateUse (n : UInt8)
deriving DecidableEq, Repr

def MessageRejectionReasonCode.ofU8 (n : UInt8) : MessageRejectionReasonCode :=
  match n.toNat with
  | 1 => .unknownType
  | 2 => .unsupported
  | 3 => .unexpected
  | _ => if n ≤ 0xEF then .unassigned n else .privateUse n

def MessageRejectionReasonCode.toU8 : MessageRejectionReasonCode → UInt8
  | .unknownType => 1
  | .unsupported => 2
  | .unexpected => 3
  | .unassigned n | .privateUse n => n

inductive TransferRefuseReasonCode where
  | unknown
  | completed
  | noResources
  | retransmit
  | notAcceptable
  | extensionFailure
  | sessionTerminating
  | unassigned (n : UInt8)
  | privateUse (n : UInt8)
deriving DecidableEq, Repr

def TransferRefuseReasonCode.ofU8 (n : UInt8) : TransferRefuseReasonCode :=
  match n.toNat with
  | 0 => .unknown
  | 1 => .completed
  | 2 => .noResources
  | 3 => .retransmit
  | 4 => .notAcceptable
  | 5 => .extensionFailure
  | 6 => .sessionTerminating
  | _ => if n ≤ 0xEF then .unassigned n else .privateUse n

def TransferRefuseReasonCode.toU8 : TransferRefuseReasonCode → UInt8
  | .unknown => 0
  | .completed => 1
  | .noResources => 2
  | .retransmit => 3
  | .notAcceptable => 4
  | .extensionFailure => 5
  | .sessionTerminating => 6
  | .unassigned n | .privateUse n => n

/-! ## Messages -/

structure SessionInitMessage where
  keepaliveInterval : UInt16
  segmentMru : UInt64
  transferMru : UInt64
  nodeId : Option NodeId
  sessionExtensions : List ExtensionItem
deriving DecidableEq, Repr

structure SessionTermMessage where
  messageFlags : TermFlags
  reasonCode : SessionTermReasonCode
deriving DecidableEq, Repr

structure TransferSegmentMessage where
  messageFlags : SegmentFlags
  transferId : UInt64
  transferExtensions : List ExtensionItem
  data : Bytes
deriving DecidableEq, Repr

structure TransferAckMessage where
  messageFlags : SegmentFlags
  transferId : UInt64
  acknowledgedLength : UInt64
deriving DecidableEq, Repr

structure TransferRefuseMessage where
  reasonCode : TransferRefuseReasonCode
  transferId : UInt64
deriving DecidableEq, Repr

structure MessageRejectMessage where
  reasonCode : MessageRejectionReasonCode
  rejectedMessage : UInt8
deriving DecidableEq, Repr

inductive Message where
  | sessionInit (m : SessionInitMessage)
  | sessionTerm (m : SessionTermMessage)
  | keepalive
  | transferSegment (m : TransferSegmentMessage)
  | transferAck (m : TransferAckMessage)
  | transferRefuse (m : TransferRefuseMessage)
  | reject (m : MessageRejectMessage)
deriving DecidableEq, Repr

def Message.messageType : Message → MessageType
  | .sessionInit _ => .sessInit
  | .sessionTerm _ => .sessTerm
  | .keepalive => .keepalive
  | .transferSegment _ => .xferSegment
  | .transferAck _ => .xferAck
  | .transferRefuse _ => .xferRefuse
  | .reject _ => .msgReject

/-! ## Encoding -/

def SessionInitMessage.encode (m : SessionInitMessage) : Bytes :=
  MessageType.sessInit.toU8 :: (putU16 m.keepaliveInterval ++ (putU64 m.segmentMru ++
    (putU64 m.transferMru ++ ((match m.nodeId with
      | some nodeId => putU16 (.ofNat nodeId.display.length) ++ nodeId.display
      | none => putU16 0) ++
        encodeExtensions SessionInitExtensionFlags.toU8 m.sessionExtensions))))

def SessionTermMessage.encode (m : SessionTermMessage) : Bytes :=
  [MessageType.sessTerm.toU8, m.messageFlags.toU8, m.reasonCode.toU8]

def TransferSegmentMessage.encode (m : TransferSegmentMessage) : Bytes :=
  MessageType.xferSegment.toU8 :: m.messageFlags.toU8 :: (putU64 m.transferId ++
    ((if m.messageFlags.start then
      encodeExtensions TransferSegmentExtensionFlags.toU8 m.transferExtensions else []) ++
        (putU64 (.ofNat m.data.length) ++ m.data)))

def TransferAckMessage.encode (m : TransferAckMessage) : Bytes :=
  MessageType.xferAck.toU8 :: m.messageFlags.toU8 ::
    (putU64 m.transferId ++ putU64 m.acknowledgedLength)

def TransferRefuseMessage.encode (m : TransferRefuseMessage) : Bytes :=
  MessageType.xferRefuse.toU8 :: m.reasonCode.toU8 :: putU64 m.transferId

def MessageRejectMessage.encode (m : MessageRejectMessage) : Bytes :=
  [MessageType.msgReject.toU8, m.reasonCode.toU8, m.rejectedMessage]

def Message.encode : Message → Bytes
  | .sessionInit m => m.encode
  | .sessionTerm m => m.encode
  | .keepalive => [MessageType.keepalive.toU8]
  | .transferSegment m => m.encode
  | .transferAck m => m.encode
  | .transferRefuse m => m.encode
  | .reject m => m.encode

/-! ## Decoding -/

abbrev Decoded := Except Error (Option Message × Bytes)

/-- A decoder that reads the buffer itself, after a check of its length. -/
def decodeInPlace (m : Decoder Message) (src : Bytes) : Decoded :=
  match m ⟨(), src⟩ with
  | .ok (msg, c) => .ok (some msg, c.rest)
  | .error none => .ok (none, src)
  | .error (some e) => .error e

/-- The node id of a `SESS_INIT` message, if it has one. -/
def decodeNodeId [Crates] (length : UInt16) : Decoder (Option NodeId) :=
  if 0 < length.toNat then do
    let text ← splitTo length.toNat
    if !validUtf8 text then throw (some .invalidNodeIdUtf8)
    else
      match NodeId.fromStr text with
      | some nodeId => return some nodeId
      | none => throw (some .invalidNodeId)
  else return none

def SessionInitMessage.parse [Crates] : Decoder (SessionInitMessage × Nat) := do
  need 21
  skipType
  let keepaliveInterval ← getU16
  let segmentMru ← getU64
  let transferMru ← getU64
  let nodeIdLength ← getU16
  let nodeId ← decodeNodeId nodeIdLength
  need 4
  let length ← getU32
  let (sessionExtensions, consumed) ←
    decodeExtensions length.toNat (1 + 2 + 8 + 8 + 2 + nodeIdLength.toNat + 4) []
  return (⟨keepaliveInterval, segmentMru, transferMru, nodeId, sessionExtensions⟩, consumed)

def SessionInitMessage.decode [Crates] (src : Bytes) : Decoded :=
  match parse ⟨(), src⟩ with
  | .ok ((m, consumed), _) => .ok (some (.sessionInit m), src.drop consumed)
  | .error none => .ok (none, src)
  | .error (some e) => .error e

def SessionTermMessage.decode : Bytes → Decoded :=
  decodeInPlace do
    need 3
    skipType
    let messageFlags ← getU8
    let reasonCode ← getU8
    return .sessionTerm ⟨.ofU8 messageFlags, .ofU8 reasonCode⟩

def decodeSegmentExtensions (start : Bool) : Decoder (List ExtensionItem × Nat) :=
  if start then do
    need 4
    let length ← getU32
    decodeExtensions length.toNat (10 + 4) []
  else return ([], 10)

/-- What comes before the data of a segment. -/
structure SegmentHeader where
  messageFlags : SegmentFlags
  transferId : UInt64
  transferExtensions : List ExtensionItem
  dataLength : UInt64

/-- The header, and how much of the buffer comes before the length of the data. -/
def TransferSegmentMessage.parseHeader : Decoder (SegmentHeader × Nat) := do
  need 10
  skipType
  let messageFlags ← getU8
  let transferId ← getU64
  let (transferExtensions, consumed) ← decodeSegmentExtensions (SegmentFlags.ofU8 messageFlags).start
  need 8
  let dataLength ← getU64
  return (⟨.ofU8 messageFlags, transferId, transferExtensions, dataLength⟩, consumed)

def TransferSegmentMessage.parse : Decoder (SegmentHeader × Nat) := do
  let p ← parseHeader
  need p.1.dataLength.toNat
  return p

def TransferSegmentMessage.decode (src : Bytes) : Decoded :=
  match parse ⟨(), src⟩ with
  | .ok ((h, consumed), _) =>
    let src := src.drop (consumed + 8)
    .ok (some (.transferSegment ⟨h.messageFlags, h.transferId, h.transferExtensions,
      src.take h.dataLength.toNat⟩), src.drop h.dataLength.toNat)
  | .error none => .ok (none, src)
  | .error (some e) => .error e

def TransferAckMessage.decode : Bytes → Decoded :=
  decodeInPlace do
    need 18
    skipType
    let messageFlags ← getU8
    let transferId ← getU64
    let acknowledgedLength ← getU64
    return .transferAck ⟨.ofU8 messageFlags, transferId, acknowledgedLength⟩

def TransferRefuseMessage.decode : Bytes → Decoded :=
  decodeInPlace do
    need 10
    skipType
    let reasonCode ← getU8
    let transferId ← getU64
    return .transferRefuse ⟨.ofU8 reasonCode, transferId⟩

/-- The rejected message has a type that could have been sent. -/
def MessageRejectMessage.decode : Bytes → Decoded :=
  decodeInPlace do
    need 3
    skipType
    let reasonCode ← getU8
    let rejectedMessage ← getU8
    match MessageType.ofU8 rejectedMessage with
    | .ok t => return .reject ⟨.ofU8 reasonCode, t.toU8⟩
    | .error e => throw (some e)

def Message.decode [Crates] : Bytes → Decoded
  | [] => .ok (none, [])
  | b :: src =>
    match MessageType.ofU8 b with
    | .error e => .error e
    | .ok .xferSegment => TransferSegmentMessage.decode (b :: src)
    | .ok .xferAck => TransferAckMessage.decode (b :: src)
    | .ok .xferRefuse => TransferRefuseMessage.decode (b :: src)
    | .ok .keepalive => .ok (some .keepalive, src)
    | .ok .sessTerm => SessionTermMessage.decode (b :: src)
    | .ok .msgReject => MessageRejectMessage.decode (b :: src)
    | .ok .sessInit => SessionInitMessage.decode (b :: src)

end Hardy.Tcpcl
