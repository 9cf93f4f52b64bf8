import Hardy.Bpa.Reassembly
import Hardy.Build.Builder
import Hardy.Checks.Verify

/-!
# Reception

Model of the reception of a bundle: `parse_headers` and `verify_headers` of
`bpa/src/bundle/parse.rs`, with the decoding of the well-known extension
blocks, and `drain_payload` of `bpa/src/dispatcher/ingress.rs`.

A stream is the list of the segments it has still to deliver.
-/

namespace Hardy

open Cbor

/-! ## Extension blocks -/

/-- The closure of `HopInfo::from_cbor`. -/
def HopInfo.fields (shortest : Bool) (tags : List Nat) : Ser Error (HopInfo × Bool) :=
  if !shortest || !tags.isEmpty then throw .notCanonical
  else do
    let limit ← requireCanonical 1 u64 "hop limit" Error.notCanonical
    if h : 0 < limit ∧ limit < 256 then
      let count ← requireCanonical 1 u64 "hop count" Error.notCanonical
      let definite ← isDefinite
      pure (⟨limit, count, h.1, h.2⟩, definite)
    else throw (.invalidHopLimit limit)

def HopInfo.fromCbor : Dec Error (HopInfo × Bool) := parseArray HopInfo.fields

/-- `BundleAge::from_cbor`, in milliseconds. -/
def bundleAgeFromCbor : Dec Error (Nat × Bool) := newtype id .notCanonical

namespace Bpa

open Bpsec Checks

structure ExtensionFields where
  previousNode : Option Eid := none
  age : Option Duration := none
  hopCount : Option HopInfo := none

def extract {ε α : Type} [FromCborError ε] [ErrorInto ε Error] (m : Dec ε (α × Bool)) (b : Block)
    (source : Bytes) : Except Error (Option α) :=
  if b.bcb.isSome then .ok none
  else match b.payload source with
    | none => .ok none
    | some p => ((parseExact m p).map some).mapError into

def decodeField {ε α : Type} [FromCborError ε] [ErrorInto ε Error] (m : Dec ε (α × Bool))
    (b : Block) (source : Bytes) (decrypted : Option Bytes) : Except Error (Option α) :=
  match decrypted with
  | some plaintext => ((parseExact m plaintext).map some).mapError into
  | none => extract m b source

variable [Crates] [HashOrder]

def extractField (data : Bytes) (decrypted : HashMap Bytes) (out : ExtensionFields)
    (e : Nat × Block) : Except Error ExtensionFields :=
  match e.2.blockType with
  | .previousNode => do
      let previousNode ← decodeField Eid.fromCbor e.2 data decrypted[e.1]?
      pure { out with previousNode := previousNode }
  | .bundleAge => do
      let age ← decodeField bundleAgeFromCbor e.2 data decrypted[e.1]?
      pure { out with age := age.map Duration.fromMillis }
  | .hopCount => do
      let hopCount ← decodeField HopInfo.fromCbor e.2 data decrypted[e.1]?
      pure { out with hopCount := hopCount }
  | _ => .ok out

def extractExtensionBlockFields (data : Bytes) (blocks : HashMap Block)
    (decrypted : HashMap Bytes) : Except Error ExtensionFields :=
  (HashOrder.iter blocks).foldlM (extractField data decrypted) {}

/-! ## Header verification -/

inductive ReasonCode where
  | noAdditionalInformation
  | blockUnintelligible
  | blockUnsupported
  | unknownSecurityOperation
  | failedSecurityOperation
deriving DecidableEq, Repr

def statusReportReasonFor : Error → ReasonCode
  | .unsupported _ => .blockUnsupported
  | .invalidBPSec (.unrecognisedContext _) => .unknownSecurityOperation
  | .invalidBPSec .unsupportedOperation => .unknownSecurityOperation
  | .invalidBPSec .decryptionFailed => .failedSecurityOperation
  | .invalidBPSec .integrityCheckFailed => .failedSecurityOperation
  | _ => .blockUnintelligible

def receptionReasonFor (c : Classification) (failureDropped : Bool) : ReasonCode :=
  if failureDropped then .failedSecurityOperation
  else if c.reportUnsupportedSecurity then .unknownSecurityOperation
  else if c.reportUnsupportedBlock then .blockUnsupported
  else .noAdditionalInformation

def isLivenessCritical (t : BlockType) (isClocked : Bool) : Bool :=
  t == .hopCount || (!isClocked && t == .bundleAge)

def rejectUndecryptableLiveness (nokey : List (Nat × BlockType)) (isClocked : Bool) :
    Except Error Unit :=
  if nokey.any fun e => isLivenessCritical e.2 isClocked then .error (.invalidBPSec .noKey)
  else .ok ()

structure HeaderVerify where
  bundle : Hardy.Bundle
  extensions : ExtensionFields
  toRemove : HashMap Unit
  reportReason : ReasonCode
  deferredBibs : HashMap BibSet

/-- One corrupt target: it is fatal or queued for removal. -/
def dropFailed (blocks : HashMap Block) (isClocked : Bool) (toRemove : HashMap Unit)
    (target : Nat) : Except Error (HashMap Unit) :=
  if target = 1 ∨ (blocks[target]?).any fun b => isLivenessCritical b.blockType isClocked then
    .error (.invalidBPSec .decryptionFailed)
  else .ok (toRemove.insert target ())

def queued (c : Classification) : HashMap Unit :=
  (c.unrecognisedDeletable ++ c.bibDeletable).foldl (fun m n => m.insert n ()) ∅

variable [Ciphers]

/-- `verify_headers`.  The bundle that rides a failure in the source is the
one it was given, up to the coverage stamped before the failure. -/
def verifyHeaders (headers : Bytes) (keys : KeySource) (p : Parsed) :
    Except Error HeaderVerify := do
  let c ← classifyUnsupported p.bundle.blocks p.bcbs p.bibs []
  let bibs := c.bibDeletable.foldl (fun m n => m.erase n) p.bibs
  let v ← verify headers keys p.bundle.blocks p.bcbs bibs ∅ ∅
  let isClocked := p.bundle.primary.id.timestamp.creationTime.isSome
  let toRemove ← v.facts.failed.foldlM (dropFailed v.blocks isClocked) (queued c)
  rejectUndecryptableLiveness v.facts.nokeyExt isClocked
  let extensions ← extractExtensionBlockFields headers v.blocks v.decrypted
  pure {
    bundle := ⟨p.bundle.primary, v.blocks⟩
    extensions := extensions
    toRemove := toRemove
    reportReason := receptionReasonFor c (!v.facts.failed.isEmpty)
    deferredBibs := v.facts.deferredBibs }

/-! ## Streams -/

inductive Segment where
  | next (bytes : Bytes)
  | final (bytes : Bytes)
deriving DecidableEq, Repr

def Segment.bytes : Segment → Bytes
  | .next b => b
  | .final b => b

def Segment.isLast : Segment → Bool
  | .next _ => false
  | .final _ => true

inductive HeaderFailure where
  | cancelled
  | tooLarge (size max : Nat)
  | invalid (report : Option (PrimaryBlock × ReasonCode))

/-- What the structural parser makes of the stream: the parsed headers, the
resident bytes and the tail of an oversized payload. -/
structure Head where
  parsed : Parsed
  headers : Bytes
  tail : Option PayloadTail

/-- `finish` on the bytes that a terminal push handed back. -/
def finishHead (f : Finished) (headers : Bytes) (tail : Option PayloadTail) :
    Except HeaderFailure Head :=
  match f.finish headers with
  | .ok parsed => .ok ⟨parsed, headers, tail⟩
  | .error _ => .error (.invalid none)

/-- The loop of `parse_headers`, with what is left of the stream. -/
def readHead (maxSize : Nat) :
    BundleParser → Nat → List Segment → Except HeaderFailure (Head × List Segment)
  | _, _, [] => .error .cancelled
  | parser, total, segment :: stream =>
    let total := saturatingAdd total segment.bytes.length
    if maxSize < total then .error (.tooLarge total maxSize)
    else match parser.push segment.bytes with
      | .ok (.needMore _ parser) =>
        if segment.isLast then .error (.invalid none)
        else readHead maxSize parser total stream
      | .ok (.ready whole f) => (finishHead f whole none).map fun h => (h, stream)
      | .ok (.partialBody consumed tail f) =>
        if segment.isLast then .error (.invalid none)
        else (finishHead f consumed (some tail)).map fun h => (h, stream)
      | .error _ => .error (.invalid none)

/-- `parse_headers`: the verified headers, the resident bytes, the tail of an
oversized payload and what is left of the stream. -/
def parseHeaders (maxSize : Nat) (keys : KeySource) (stream : List Segment) :
    Except HeaderFailure (HeaderVerify × Bytes × Option PayloadTail × List Segment) := do
  let (head, stream) ← readHead maxSize (.new 4096) 0 stream
  match verifyHeaders head.headers keys head.parsed with
  | .ok hv => .ok (hv, head.headers, head.tail, stream)
  | .error e => .error (.invalid (some (head.parsed.bundle.primary, statusReportReasonFor e)))

inductive DrainFailure where
  | cancelled
  | tooLarge (size max : Nat)
  | rejected

def drainPayload (maxSize : Nat) :
    Bytes → PayloadTail → List Segment → Except DrainFailure Bytes
  | _, _, [] => .error .cancelled
  | whole, tail, segment :: stream =>
    let size := saturatingAdd whole.length segment.bytes.length
    if maxSize < size then .error (.tooLarge size maxSize)
    else match tail.push segment.bytes with
      | .error _ => .error .rejected
      | .ok (isComplete, tail) =>
        let whole := whole ++ segment.bytes
        if isComplete then .ok whole
        else if segment.isLast then .error .rejected
        else drainPayload maxSize whole tail stream

inductive ReceiveFailure where
  | headers (failure : HeaderFailure)
  | drain (failure : DrainFailure)

/-- `parse_headers`, then `drain_payload` for an oversized payload: the
verified headers and the bytes that are handed to `finalize_with_provider`. -/
def receive (maxSize : Nat) (keys : KeySource) (stream : List Segment) :
    Except ReceiveFailure (HeaderVerify × Bytes) := do
  let (hv, headers, tail, stream) ← (parseHeaders maxSize keys stream).mapError .headers
  match tail with
  | none => pure (hv, headers)
  | some tail =>
    let whole ← (drainPayload maxSize headers tail stream).mapError .drain
    pure (hv, whole)

end Bpa

end Hardy
