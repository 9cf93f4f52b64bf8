import Hardy.Bpa.Filter
import Hardy.DtnTime

/-!
# Admission

Model of `process_received_bundle` of `bpa/src/dispatcher/ingress.rs`, with the
gates and `finalize_with_provider` of `bpa/src/bundle/parse.rs`: what reaches
the node from a convergence layer, from a reassembly or from the restart check
is parsed, verified, gated and persisted here.  Status reports and counters are
not in the model.
-/

namespace Hardy

/-! ## Time -/

def CreationTimestamp.asDatetime (t : CreationTimestamp) : Option Int :=
  t.creationTime.map fun millis =>
    saturateTime (saturateTime (dtnEpoch + millis * 1000000) + min t.sequenceNumber 999999)

def PrimaryBlock.creationTime (p : PrimaryBlock) (age : Option Duration) (receivedAt : Int) : Int :=
  p.id.timestamp.asDatetime.getD (saturateTime (receivedAt - (age.getD ⟨0⟩).nanos))

def PrimaryBlock.expiry (p : PrimaryBlock) (age : Option Duration) (receivedAt : Int) : Int :=
  saturateTime (p.creationTime age receivedAt + p.lifetime.nanos)

namespace Bpa

open Bpsec Checks

/-! ## The node -/

structure Node where
  maxBundleSize : Nat
  keyProvider : Hardy.Bundle → Bytes → KeySource
  primaryBlockIntegrity : Bool
  bundleAgeRequired : Bool
  /-- `rewrite::apply_rewrites`, flattened: the blocks and the bytes that are
  left when blocks are removed.  The primary block is not rewritten. -/
  applyRewrites : Bytes → Hardy.Bundle → KeySource → HashMap Unit → Option (HashMap Block × Bytes)

def HeaderVerify.gateReason (hv : HeaderVerify) (receivedAt now : Int) :
    Option Hardy.ReasonCode :=
  if hv.bundle.primary.expiry hv.extensions.age receivedAt ≤ now then some .lifetimeExpired
  else if hv.extensions.hopCount.any fun h => h.limit < h.count then some .hopLimitExceeded
  else none

def Node.rfc9171GateReason (node : Node) (hv : HeaderVerify) : Option Hardy.ReasonCode :=
  if node.primaryBlockIntegrity && hv.bundle.primary.crcType == .none &&
      (hv.bundle.blocks[0]?).any fun b => b.bib == .none then
    some .blockUnintelligible
  else if node.bundleAgeRequired && hv.bundle.primary.id.timestamp.creationTime.isNone &&
      hv.extensions.age.isNone then
    some .lifetimeExpired
  else none

inductive Rejection where
  | disposed
  | refused
deriving DecidableEq, Repr

def HeaderFailure.rejection : HeaderFailure → Rejection
  | .cancelled | .tooLarge _ _ => .refused
  | .invalid _ => .disposed

def DrainFailure.rejection : DrainFailure → Rejection
  | .cancelled | .tooLarge _ _ => .refused
  | .rejected => .disposed

section

variable [Crates] [HashOrder] [Ciphers]

/-- `parse_headers` with the keys that the provider has for the bundle and its
resident bytes. -/
def parseHeadersWithProvider (maxSize : Nat) (keyProvider : Hardy.Bundle → Bytes → KeySource)
    (stream : List Segment) :
    Except HeaderFailure (HeaderVerify × Bytes × Option PayloadTail × List Segment) := do
  let (head, _) ← readHead maxSize (.new 4096) 0 stream
  parseHeaders maxSize (keyProvider head.parsed.bundle head.headers) stream

def Node.verifyDeferred (node : Node) (whole : Bytes) (hv : HeaderVerify) : Except Error Unit :=
  if hv.deferredBibs.isEmpty then .ok ()
  else verifyPayload whole (node.keyProvider hv.bundle whole) hv.bundle.blocks hv.deferredBibs ∅ ∅

omit [Crates] [HashOrder] [Ciphers] in
def Node.rewrite (node : Node) (whole : Bytes) (hv : HeaderVerify) : Hardy.Bundle × Bytes :=
  if hv.toRemove.isEmpty then (hv.bundle, whole)
  else
    match node.applyRewrites whole hv.bundle (node.keyProvider hv.bundle whole) hv.toRemove with
    | some (blocks, data) => (⟨hv.bundle.primary, blocks⟩, data)
    | none => (hv.bundle, whole)

/-- `finalize_with_provider`, with the chunks of a rewrite flattened. -/
def Node.finalizeWithProvider (node : Node) (whole : Bytes) (hv : HeaderVerify) :
    Except Error (Hardy.Bundle × Bytes) := do
  node.verifyDeferred whole hv
  pure (node.rewrite whole hv)

omit [Crates] [HashOrder] [Ciphers] in
@[simp] theorem rewrite_primary (node : Node) (whole : Bytes) (hv : HeaderVerify) :
    (node.rewrite whole hv).1.primary = hv.bundle.primary := by
  rw [Node.rewrite]
  split
  · rfl
  · split <;> rfl

def Node.drain (node : Node) (headers : Bytes) (tail : Option PayloadTail)
    (stream : List Segment) : Except Rejection Bytes :=
  match tail with
  | none => .ok headers
  | some tail =>
    (drainPayload node.maxBundleSize headers tail stream).mapError DrainFailure.rejection

/-- The part of `process_received_bundle` that does not touch the store: the
bundle and the bytes to persist. -/
def Node.check (node : Node) (receivedAt now : Int) (stream : List Segment) :
    Except Rejection (Hardy.Bundle × Bytes) := do
  let (hv, headers, tail, stream) ←
    (parseHeadersWithProvider node.maxBundleSize node.keyProvider stream).mapError
      HeaderFailure.rejection
  if (hv.gateReason receivedAt now).isSome || (node.rfc9171GateReason hv).isSome then
    throw .disposed
  let whole ← node.drain headers tail stream
  (node.finalizeWithProvider whole hv).mapError fun _ => .disposed

inductive Received where
  | bundle (bundle : Bundle) (data : Bytes)
  | disposed
  | refused

def Rejection.received : Rejection → Received
  | .disposed => .disposed
  | .refused => .refused

omit [Crates] [HashOrder] [Ciphers] in
def Store.replaceData (s : Store) (name : Nat) (data : Bytes) : Store :=
  { s with data := s.data.insert name data }

/-- `Dispatcher::process_received_bundle`.  Data that the caller has stored is
replaced and is the caller's to clean up; otherwise the data is saved here. -/
def Node.processReceivedBundle [StorageNames] (node : Node) (now : Int) (store : Store)
    (stream : List Segment) (metadata : BundleMetadata) : Received × Store :=
  match node.check metadata.receivedAt now stream with
  | .error r => (r.received, store)
  | .ok (bpv7, data) =>
    match metadata.storageName with
    | some name =>
      let store := store.replaceData name data
      let bundle : Bundle := ⟨bpv7, metadata, .new⟩
      match store.insertMetadata bundle with
      | some store => (.bundle bundle data, store)
      | none => (.disposed, store)
    | none =>
      let (name, store) := store.saveData data
      let bundle : Bundle := ⟨bpv7, { metadata with storageName := some name }, .new⟩
      match store.insertMetadata bundle with
      | some store => (.bundle bundle data, store)
      | none => (.disposed, store.deleteData name)

end

end Bpa

end Hardy
