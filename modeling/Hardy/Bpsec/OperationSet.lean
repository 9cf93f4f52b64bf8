import Hardy.Bpsec.Rfc9173

/-!
# Operation sets

Model of `bpv7/src/bpsec/bib.rs` and `bcb.rs`: the operations of a security
block, keyed by their targets, with the structural rules that need no keys.
Both kinds of block share the shape, so it is written once over the type of
the operations.
-/

namespace Hardy.Bpsec

open Cbor

/-- `bib::OperationSet` and `bcb::OperationSet` -/
structure OperationSet (Op : Type) where
  source : Eid
  operations : HashMap Op

inductive BibOperation where
  | hmacSha2 (operation : HmacSha2.Operation)
  | unrecognised (id : Nat) (operation : UnknownOperation)

inductive BcbOperation where
  | aesGcm (operation : AesGcm.Operation)
  | unrecognised (id : Nat) (operation : UnknownOperation)

abbrev BibSet := OperationSet BibOperation

abbrev BcbSet := OperationSet BcbOperation

variable [Crates] [HashOrder]

/-! ## Decoding -/

def BibSet.unpack (asb : AbstractSyntaxBlock) : Except Error (HashMap BibOperation) :=
  match asb.context with
  | .bibHmacSha2 =>
    asb.intoOperations "RFC9173 HMAC-SHA2 parameters" "RFC9173 HMAC-SHA2 results"
      HmacSha2.Parameters.fromCbor HmacSha2.Results.fromCbor fun p r => .hmacSha2 ⟨p, r⟩
  | .unrecognised id => UnknownOperation.parse (.unrecognised id) asb
  | c => .error (.invalidContext c)

def BcbSet.unpack (asb : AbstractSyntaxBlock) : Except Error (HashMap BcbOperation) :=
  match asb.context with
  | .bcbAesGcm =>
    asb.intoOperations "RFC9173 AES-GCM parameters" "RFC9173 AES-GCM results"
      AesGcm.Parameters.fromCbor AesGcm.Results.fromCbor fun p r => .aesGcm ⟨p, r⟩
  | .unrecognised id => UnknownOperation.parse (.unrecognised id) asb
  | c => .error (.invalidContext c)

def OperationSet.fromCbor {Op : Type} (unpack : AbstractSyntaxBlock → Except Error (HashMap Op)) :
    Dec Error (OperationSet Op × Bool) := do
  let (asb, _) ← AbstractSyntaxBlock.fromCbor
  let operations ← verdict (unpack asb)
  pure (⟨asb.source, operations⟩, true)

/-- Decode the whole body of a security block (`parse_canonical` on a slice
that ends with the body). -/
def decodeBody {Op : Type} (unpack : AbstractSyntaxBlock → Except Error (HashMap Op))
    (field : String) (body : Bytes) : Except Hardy.Error (OperationSet Op) :=
  match parseField (OperationSet.fromCbor unpack) field ⟨0, body⟩ with
  | .ok (ops, _) => .ok ops
  | .error x => .error x

def BcbSet.decode : Bytes → Except Hardy.Error BcbSet :=
  decodeBody BcbSet.unpack "BCB operation set"

def BibSet.decode : Bytes → Except Hardy.Error BibSet :=
  decodeBody BibSet.unpack "BIB operation set"

/-! ## Rules -/

def BcbSet.checkTarget (blocks : HashMap Block) (bcb : Nat) (mustReplicate : Bool)
    (target : Nat) : Except Error Unit :=
  match blocks[target]? with
  | none => .error .missingSecurityTarget
  | some block =>
    if block.blockType = .primary ∨ block.blockType = .blockSecurity then
      .error .invalidBCBTarget
    else if block.blockType = .payload ∧ mustReplicate = false then .error .bcbMustReplicate
    else match block.bcb with
      | some n => if n ≠ bcb then .error .duplicateOpTarget else .ok ()
      | none => .ok ()

/-- `bcb::OperationSet::check`.  The source expects the BCB itself to be among
the blocks. -/
def BcbSet.check (ops : BcbSet) (bcb : Nat) (blocks : HashMap Block) : Except Error Unit :=
  match blocks[bcb]? with
  | none => .error .missingSecurityTarget
  | some block =>
    if block.flags.deleteBlockOnFailure then .error .bcbDeleteFlag
    else (HashOrder.iter ops.operations).forM fun e =>
      BcbSet.checkTarget blocks bcb block.flags.mustReplicate e.1

def BibSet.checkTarget (blocks : HashMap Block) (bib : Nat) (bibBcb : Option Nat)
    (target : Nat) : Except Error Unit :=
  match blocks[target]? with
  | none => .error .missingSecurityTarget
  | some block =>
    if block.blockType = .blockSecurity ∨ block.blockType = .blockIntegrity then
      .error .invalidBIBTarget
    else if block.bib.isOther bib then .error .duplicateOpTarget
    else if block.bcb.isSome ∧ bibBcb.isNone then .error .bibMustBeEncrypted
    else .ok ()

def BibSet.check (ops : BibSet) (bib : Nat) (blocks : HashMap Block) : Except Error Unit :=
  match blocks[bib]? with
  | none => .error .missingSecurityTarget
  | some block =>
    (HashOrder.iter ops.operations).forM fun e => BibSet.checkTarget blocks bib block.bcb e.1

/-! ## Emission -/

def BibOperation.emitContext (o : BibOperation) (source : Eid) : Bytes :=
  match o with
  | .hmacSha2 o => o.emitContext source
  | .unrecognised id o => o.emitContext source id

def BibOperation.emitResult : BibOperation → Bytes
  | .hmacSha2 o => o.results.toCbor
  | .unrecognised _ o => emitRanges o.results

def BcbOperation.emitContext (o : BcbOperation) (source : Eid) : Bytes :=
  match o with
  | .aesGcm o => o.emitContext source
  | .unrecognised id o => o.emitContext source id

def BcbOperation.emitResult : BcbOperation → Bytes
  | .aesGcm o => o.results.toCbor
  | .unrecognised _ o => emitRanges o.results

/-- `ToCbor for OperationSet`: the targets, the context of the first operation
and the results, all in the order of the map. -/
def OperationSet.toCbor {Op : Type} (emitContext : Op → Eid → Bytes) (emitResult : Op → Bytes)
    (ops : OperationSet Op) : Bytes :=
  let entries := HashOrder.iter ops.operations
  emitArray (entries.map fun e => emitUint e.1) ++
    (match entries with
      | [] => []
      | e :: _ => emitContext e.2 ops.source) ++
    emitArray (entries.map fun e => emitResult e.2)

def BibSet.toCbor (ops : BibSet) : Bytes :=
  OperationSet.toCbor BibOperation.emitContext BibOperation.emitResult ops

def BcbSet.toCbor (ops : BcbSet) : Bytes :=
  OperationSet.toCbor BcbOperation.emitContext BcbOperation.emitResult ops

end Hardy.Bpsec
