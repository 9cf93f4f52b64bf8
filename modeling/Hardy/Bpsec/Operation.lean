import Hardy.Bpsec.OperationSet
import Hardy.Block

/-!
# Security operations

Model of the keyed side of `bpv7/src/bpsec`: `bib::Operation::verify` and
`bcb::Operation::decrypt` with the RFC 9173 contexts behind them.  The
operations see the bundle through a `Reader`.  The ciphers are those of
foreign crates and enter as a parameter.
-/

namespace Hardy.Bpsec

open Cbor

/-! ## Ciphers -/

inductive Sha where
  | sha256
  | sha384
  | sha512
deriving DecidableEq, Repr

inductive Aes where
  | aes128
  | aes256
deriving DecidableEq, Repr

inductive KeyWrap where
  | aes128
  | aes192
  | aes256
deriving DecidableEq, Repr

/-- What the contexts use of the `hmac`, `aes-gcm` and `aes-kw` crates. -/
class Ciphers where
  /-- `Hmac::<D>`: the tag of the bytes fed to it, under a key of any length. -/
  hmac : Sha → Bytes → Bytes → Bytes
  /-- `Aead::decrypt`, by key, nonce, associated data and message: none when
  the key has a wrong length or the message is not authentic. -/
  gcmDecrypt : Aes → Bytes → Bytes → Bytes → Bytes → Option Bytes
  /-- `decrypt_inout_detached`, with the tag last. -/
  gcmDecryptDetached : Aes → Bytes → Bytes → Bytes → Bytes → Bytes → Option Bytes
  /-- `AesKw::unwrap_key`, by the key and the wrapped key. -/
  unwrapKey : KeyWrap → Bytes → Bytes → Option Bytes

def KeyWrap.fromBareAlg : KeyAlgorithm → Option KeyWrap
  | .a128kw => some .aes128
  | .a192kw => some .aes192
  | .a256kw => some .aes256
  | _ => none

def KeyWrap.fromAlg : KeyAlgorithm → Option KeyWrap
  | .hs256A128kw | .hs384A128kw | .hs512A128kw => some .aes128
  | .hs256A192kw | .hs384A192kw | .hs512A192kw => some .aes192
  | .hs256A256kw | .hs384A256kw | .hs512A256kw => some .aes256
  | alg => fromBareAlg alg

def Key.octets (key : Key) : Option Bytes :=
  match key.keyType with
  | .octetSequence k => some k
  | _ => none

/-! ## Readers -/

/-- `Reader::block`: the block and its payload, when that is available. -/
abbrev Reader := Nat → Option (Block × Option Bytes)

def Reader.header (r : Reader) (number : Nat) : Option Block := (r number).map Prod.fst

/-- `bib::OperationArgs` and `bcb::OperationArgs` -/
structure OperationArgs where
  bpsecSource : Eid
  target : Nat
  source : Nat
  blocks : Reader

variable [Crates]

def canonicalPrimary (raw : Bytes) : Except Error Bytes :=
  match runDec PrimaryBlock.fromCbor raw with
  | .error _ => .error .notCanonical
  | .ok ((p, canonical), len) =>
    if len ≠ raw.length then .error .notCanonical
    else if canonical then .ok raw
    else p.emit.mapError fun _ => .notCanonical

namespace OperationArgs

variable (args : OperationArgs)

/-- The canonical primary block, when the scope includes it.  The source
expects the block to be there. -/
def scopePrimary (isIncluded : Bool) : Except Error Bytes :=
  if isIncluded then
    match (args.blocks 0).bind Prod.snd with
    | some raw => canonicalPrimary raw
    | none => .error .missingSecurityTarget
  else .ok []

def scopeHeader (isIncluded : Bool) (number : Nat) : Except Error Bytes :=
  if isIncluded then
    match args.blocks.header number with
    | some b => .ok (b.blockType.toCbor ++ emitUint number ++ b.flags.toCbor)
    | none => .error .missingSecurityTarget
  else .ok []

def targetPayload : Except Error (Block × Bytes) :=
  match args.blocks args.target with
  | some (b, some payload) => .ok (b, payload)
  | _ => .error .missingSecurityTarget

def crcPresent : Bool :=
  match args.blocks.header args.target with
  | some b => b.crcType != .none
  | none => false

end OperationArgs

def ScopeFlags.known (f : ScopeFlags) : ScopeFlags := { f with unrecognised := none }

/-! ## BIB-HMAC-SHA2 -/

namespace HmacSha2

/-- The bytes that `build_hmac` feeds to the MAC. -/
def ippt (flags : ScopeFlags) (args : OperationArgs) : Except Error Bytes := do
  let (target, payload) ← args.targetPayload
  let isPrimary := target.blockType == .primary
  let primary ← args.scopePrimary (!isPrimary && flags.includePrimaryBlock)
  let targetHeader ← args.scopeHeader (!isPrimary && flags.includeTargetHeader) args.target
  let securityHeader ← args.scopeHeader flags.includeSecurityHeader args.source
  let content ← if isPrimary then canonicalPrimary payload else .ok payload
  pure (flags.known.toCbor ++ primary ++ targetHeader ++ securityHeader ++ emitBytes content)

def asVariant : Option KeyAlgorithm → Option ShaVariant
  | some .hs256 | some .hs256A128kw | some .hs256A192kw | some .hs256A256kw => some .hmac256
  | none | some .hs384 | some .hs384A128kw | some .hs384A192kw | some .hs384A256kw
  | some .a128kw | some .a192kw | some .a256kw => some .hmac384
  | some .hs512 | some .hs512A128kw | some .hs512A192kw | some .hs512A256kw => some .hmac512
  | _ => none

def sha : ShaVariant → Option Sha
  | .hmac256 => some .sha256
  | .hmac384 => some .sha384
  | .hmac512 => some .sha512
  | .unrecognised _ => none

variable [Ciphers]

/-- `verify_inner`, with the failure of the comparison as an error. -/
def Operation.verifyInner (o : Operation) (cek : Bytes) (args : OperationArgs) :
    Except Error Unit := do
  match sha o.parameters.variant with
  | none => .error .unsupportedOperation
  | some hash =>
    let message ← ippt o.parameters.flags args
    if Ciphers.hmac hash cek message = o.results then .ok () else .error .integrityCheckFailed

def Operation.verify (o : Operation) (keys : KeySource) (args : OperationArgs) :
    Except Error Unit :=
  match o.parameters.key with
  | some wrapped =>
    match keys args.bpsecSource [.unwrapKey, .verify] with
    | none => .error .noKey
    | some jwk =>
      if some o.parameters.variant ≠ asVariant jwk.keyAlgorithm then
        .error .integrityCheckFailed
      else match jwk.octets, jwk.keyAlgorithm.bind KeyWrap.fromAlg with
        | some kek, some wrap =>
          match Ciphers.unwrapKey wrap kek wrapped with
          | some cek => o.verifyInner cek args
          | none => .error .integrityCheckFailed
        | _, _ => .error .integrityCheckFailed
  | none =>
    match keys args.bpsecSource [.verify] with
    | none => .error .noKey
    | some jwk =>
      if some o.parameters.variant ≠ asVariant jwk.keyAlgorithm then
        .error .integrityCheckFailed
      else match jwk.octets with
        | some key => o.verifyInner key args
        | none => .error .integrityCheckFailed

end HmacSha2

/-! ## BCB-AES-GCM -/

namespace AesGcm

def buildData (flags : ScopeFlags) (args : OperationArgs) : Except Error Bytes := do
  let primary ← args.scopePrimary flags.includePrimaryBlock
  let targetHeader ← args.scopeHeader flags.includeTargetHeader args.target
  let securityHeader ← args.scopeHeader flags.includeSecurityHeader args.source
  pure (flags.known.toCbor ++ primary ++ targetHeader ++ securityHeader)

variable [Ciphers]

def Operation.decryptGcm (o : Operation) (aes : Aes) (cek aad data : Bytes) :
    Except Error Bytes :=
  let plain := match o.results with
    | some tag => Ciphers.gcmDecryptDetached aes cek o.parameters.iv.val aad data tag
    | none => Ciphers.gcmDecrypt aes cek o.parameters.iv.val aad data
  match plain with
  | some p => .ok p
  | none => .error .decryptionFailed

def Operation.decryptMiddle (o : Operation) (encAlgorithm : Option EncAlgorithm)
    (cek aad data : Bytes) : Except Error Bytes :=
  match o.parameters.variant, encAlgorithm with
  | .a128gcm, some .a128gcm => o.decryptGcm .aes128 cek aad data
  | .a256gcm, some .a256gcm => o.decryptGcm .aes256 cek aad data
  | .a256gcm, none => o.decryptGcm .aes256 cek aad data
  | .unrecognised _, _ => .error .unsupportedOperation
  | _, _ => .error .decryptionFailed

def Operation.decrypt (o : Operation) (keys : KeySource) (args : OperationArgs) :
    Except Error Bytes := do
  let (_, data) ← args.targetPayload
  let aad ← buildData o.parameters.flags args
  match o.parameters.key with
  | some wrapped =>
    match keys args.bpsecSource [.unwrapKey, .decrypt] with
    | none => .error .noKey
    | some jwk =>
      match jwk.octets, jwk.keyAlgorithm.bind KeyWrap.fromBareAlg with
      | some kek, some wrap =>
        match Ciphers.unwrapKey wrap kek wrapped with
        | some cek => o.decryptMiddle jwk.encAlgorithm cek aad data
        | none => .error .decryptionFailed
      | _, _ => .error .decryptionFailed
  | none =>
    match keys args.bpsecSource [.decrypt] with
    | none => .error .noKey
    | some jwk =>
      if jwk.keyAlgorithm ≠ none ∧ jwk.keyAlgorithm ≠ some .direct then
        .error .decryptionFailed
      else match jwk.octets with
        | some cek => o.decryptMiddle jwk.encAlgorithm cek aad data
        | none => .error .decryptionFailed

end AesGcm

/-! ## Operations of a security block -/

def BibOperation.unsupportedError : BibOperation → Option Error
  | .hmacSha2 o =>
    match o.parameters.variant with
    | .unrecognised _ => some .unsupportedOperation
    | _ => none
  | .unrecognised id _ => some (.unrecognisedContext id)

def BcbOperation.unsupportedError : BcbOperation → Option Error
  | .aesGcm o =>
    match o.parameters.variant with
    | .unrecognised _ => some .unsupportedOperation
    | _ => none
  | .unrecognised id _ => some (.unrecognisedContext id)

/-- `OperationSet::unsupported_error`: that of the first operation that has
one. -/
def OperationSet.unsupportedError [HashOrder] {Op : Type} (error : Op → Option Error)
    (ops : OperationSet Op) : Option Error :=
  (HashOrder.iter ops.operations).findSome? fun e => error e.2

def BcbOperation.canShare : BcbOperation → Bool
  | .aesGcm _ => false
  | .unrecognised _ _ => false

def BcbSet.canShare [HashOrder] (ops : BcbSet) : Bool :=
  match HashOrder.iter ops.operations with
  | [] => false
  | e :: _ => e.2.canShare

variable [Ciphers]

/-- `bib::Operation::verify`.  The primary block may keep its checksum. -/
def BibOperation.verify (o : BibOperation) (keys : KeySource) (args : OperationArgs) :
    Except Error Unit :=
  if args.target ≠ 0 ∧ args.crcPresent then .error .crcPresent
  else match o with
    | .hmacSha2 o => o.verify keys args
    | .unrecognised id _ => .error (.unrecognisedContext id)

def BcbOperation.decrypt (o : BcbOperation) (keys : KeySource) (args : OperationArgs) :
    Except Error Bytes :=
  if args.crcPresent then .error .crcPresent
  else match o with
    | .aesGcm o => o.decrypt keys args
    | .unrecognised id _ => .error (.unrecognisedContext id)

/-! ## What an operation reads -/

/-- Two readers that agree on what an operation with this target and source
reads: the payloads of the primary block and of the target, and the headers. -/
structure Reader.AgreeOn (r r' : Reader) (target source : Nat) : Prop where
  primary : r 0 = r' 0
  target : r target = r' target
  source : r.header source = r'.header source

section

variable {r r' : Reader} {target source : Nat}

omit [Crates] [Ciphers] in
theorem Reader.AgreeOn.target_header (h : r.AgreeOn r' target source) :
    r.header target = r'.header target := by
  rw [Reader.header, h.target]
  rfl

variable (eid : Eid)

omit [Ciphers] in
theorem HmacSha2.ippt_congr (h : r.AgreeOn r' target source) (flags : ScopeFlags) :
    ippt flags ⟨eid, target, source, r⟩ = ippt flags ⟨eid, target, source, r'⟩ := by
  simp only [ippt, OperationArgs.targetPayload, OperationArgs.scopePrimary,
    OperationArgs.scopeHeader, h.primary, h.target, h.target_header, h.source]

omit [Crates] [Ciphers] in
theorem OperationArgs.crcPresent_congr (h : r.AgreeOn r' target source) :
    crcPresent ⟨eid, target, source, r⟩ = crcPresent ⟨eid, target, source, r'⟩ := by
  simp only [crcPresent, h.target_header]

theorem BibOperation.verify_congr (h : r.AgreeOn r' target source) (o : BibOperation)
    (keys : KeySource) :
    o.verify keys ⟨eid, target, source, r⟩ = o.verify keys ⟨eid, target, source, r'⟩ := by
  unfold verify
  rw [OperationArgs.crcPresent_congr eid h]
  cases o with
  | unrecognised id o => rfl
  | hmacSha2 o =>
    simp only [HmacSha2.Operation.verify, HmacSha2.Operation.verifyInner,
      HmacSha2.ippt_congr eid h]

omit [Ciphers] in
theorem AesGcm.buildData_congr (h : r.AgreeOn r' target source) (flags : ScopeFlags) :
    buildData flags ⟨eid, target, source, r⟩ = buildData flags ⟨eid, target, source, r'⟩ := by
  simp only [buildData, OperationArgs.scopePrimary, OperationArgs.scopeHeader, h.primary,
    h.target_header, h.source]

theorem BcbOperation.decrypt_congr (h : r.AgreeOn r' target source) (o : BcbOperation)
    (keys : KeySource) :
    o.decrypt keys ⟨eid, target, source, r⟩ = o.decrypt keys ⟨eid, target, source, r'⟩ := by
  unfold decrypt
  rw [OperationArgs.crcPresent_congr eid h]
  cases o with
  | unrecognised id o => rfl
  | aesGcm o =>
    simp only [AesGcm.Operation.decrypt, AesGcm.buildData_congr eid h,
      OperationArgs.targetPayload, h.target]

end

end Hardy.Bpsec
