import Hardy.Bpsec.Operation
import Hardy.Parse.Finish

/-!
# Keyed validation

Model of `bpv7/src/checks.rs`: the classification of what this node cannot
process, the resolution of encrypted BIBs, the decryption of the extension
blocks and the verification of the BIBs, with the second pass over the payload
of a streamed bundle.
-/

namespace Hardy.Checks

open Cbor Bpsec

/-- `OverlayReader`: the decrypted payload of a block, else its staged
rewrite, else its bytes in the source. -/
def overlay (blocks : HashMap Block) (source : Bytes) (decrypted updates : HashMap Bytes) :
    Reader := fun n =>
  (blocks[n]?).map fun b =>
    (b, match decrypted[n]? with
      | some p => some p
      | none =>
        match updates[n]? with
        | some p => some p
        | none => b.payload source)

variable [Crates] [HashOrder]

/-! ## Unsupported blocks -/

structure Classification where
  unrecognisedDeletable : List Nat := []
  bibDeletable : List Nat := []
  reportUnsupportedBlock : Bool := false
  reportUnsupportedSecurity : Bool := false
deriving DecidableEq, Repr

def classifyBlock (supported : List Nat) (out : Classification) (e : Nat × Block) :
    Except Error Classification :=
  match e.2.blockType with
  | .unrecognised code =>
    if code ∈ supported then .ok out
    else if e.2.flags.deleteBundleOnFailure then .error (.unsupported e.1)
    else .ok { out with
      reportUnsupportedBlock := out.reportUnsupportedBlock || e.2.flags.reportOnFailure
      unrecognisedDeletable :=
        if e.2.flags.deleteBlockOnFailure then out.unrecognisedDeletable ++ [e.1]
        else out.unrecognisedDeletable }
  | _ => .ok out

/-- One turn over the BCBs.  The source expects the block to be there. -/
def classifyBcb (blocks : HashMap Block) (out : Classification) (e : Nat × BcbSet) :
    Except Error Classification :=
  match e.2.unsupportedError BcbOperation.unsupportedError, blocks[e.1]? with
  | none, _ => .ok out
  | some _, none => .error .altered
  | some error, some block =>
    if block.flags.deleteBundleOnFailure then .error (.invalidBPSec error)
    else .ok { out with
      reportUnsupportedSecurity :=
        out.reportUnsupportedSecurity || block.flags.reportOnFailure }

/-- One turn over the plaintext BIBs.  The source expects the block to be
there. -/
def classifyBib (blocks : HashMap Block) (out : Classification) (e : Nat × BibSet) :
    Except Error Classification :=
  match e.2.unsupportedError BibOperation.unsupportedError, blocks[e.1]? with
  | none, _ => .ok out
  | some _, none => .error .altered
  | some error, some block =>
    if block.flags.deleteBundleOnFailure then .error (.invalidBPSec error)
    else .ok { out with
      reportUnsupportedSecurity :=
        out.reportUnsupportedSecurity || block.flags.reportOnFailure
      bibDeletable :=
        if block.flags.deleteBlockOnFailure then out.bibDeletable ++ [e.1]
        else out.bibDeletable }

def classifyUnsupported (blocks : HashMap Block) (bcbs : HashMap BcbSet) (bibs : HashMap BibSet)
    (supported : List Nat) : Except Error Classification := do
  let out ← (HashOrder.iter blocks).foldlM (classifyBlock supported) {}
  let out ← (HashOrder.iter bcbs).foldlM (classifyBcb blocks) out
  (HashOrder.iter bibs).foldlM (classifyBib blocks) out

/-! ## Encrypted blocks -/

variable [Ciphers]

/-- The plaintext of a target of a BCB.  The source expects the BCB to have an
operation for it. -/
def decryptTarget (data : Bytes) (keys : KeySource) (blocks : HashMap Block)
    (decrypted updates : HashMap Bytes) (ops : BcbSet) (bcb target : Nat) :
    Except Bpsec.Error Bytes :=
  match ops.operations[target]? with
  | none => .error .missingSecurityTarget
  | some op => op.decrypt keys ⟨ops.source, target, bcb, overlay blocks data decrypted updates⟩

/-- The state of the pass over the encrypted BIBs. -/
structure BibResolution where
  blocks : HashMap Block
  bibs : HashMap BibSet
  decrypted : HashMap Bytes
  hadNokey : Bool := false
  failed : List Nat := []

def openBib (ops : BcbSet) (bib : Nat) (blocks : HashMap Block) (plaintext : Bytes) :
    Except Error BibSet := do
  let set : BibSet ←
    (parseExact (OperationSet.fromCbor BibSet.unpack) plaintext).mapError fun e =>
      Error.invalidField "BPSec integrity extension block" (.invalidBPSec e)
  (set.check bib blocks).mapError Error.invalidBPSec
  if ops.canShare && !(set.operations.keys.any fun t => t ∈ ops.operations) then
    .error (.invalidBPSec .bcbMustShareTarget)
  else .ok set

/-- One turn of the pass over the encrypted BIBs.  The source expects the BIB
and its BCB to be there. -/
def resolveBib (data : Bytes) (keys : KeySource) (bcbs : HashMap BcbSet)
    (updates : HashMap Bytes) (s : BibResolution) (bib : Nat) : Except Error BibResolution :=
  match (s.blocks[bib]?).bind Block.bcb with
  | none => .error .altered
  | some bcb =>
    match bcbs[bcb]? with
    | none => .error .altered
    | some ops =>
      match decryptTarget data keys s.blocks s.decrypted updates ops bcb bib with
      | .error .noKey => .ok { s with hadNokey := true }
      | .error .decryptionFailed => .ok { s with failed := s.failed ++ [bib] }
      | .error e => .error (.invalidBPSec e)
      | .ok plaintext => do
          let set ← openBib ops bib s.blocks plaintext
          pure { s with
            blocks := stampTargets set (fun b => { b with bib := .some bib }) s.blocks
            bibs := s.bibs.insert bib set
            decrypted := s.decrypted.insert bib plaintext }

def encryptedBibs (blocks : HashMap Block) : List Nat :=
  (HashOrder.iter blocks).filterMap fun e =>
    if e.2.blockType = .blockIntegrity ∧ e.2.bcb.isSome then some e.1 else none

/-- An uncertain coverage that nothing can claim any more. -/
def collapseMaybe (b : Block) : Block :=
  if b.bib = .maybe then { b with bib := .none } else b

def BibResolution.settle (s : BibResolution) : BibResolution :=
  if !s.hadNokey && s.failed.isEmpty then
    { s with blocks := s.blocks.map fun _ b => collapseMaybe b }
  else s

def decryptAndValidateCoveredBibs (data : Bytes) (keys : KeySource) (blocks : HashMap Block)
    (bcbs : HashMap BcbSet) (bibs : HashMap BibSet) (decrypted updates : HashMap Bytes) :
    Except Error BibResolution := do
  let s ← (encryptedBibs blocks).foldlM (resolveBib data keys bcbs updates)
    { blocks := blocks, bibs := bibs, decrypted := decrypted }
  pure s.settle

/-! ## Encrypted extension blocks -/

def isWellKnown (t : BlockType) : Bool :=
  t == .previousNode || t == .bundleAge || t == .hopCount

def encryptedExtensions (blocks : HashMap Block) : List (Nat × BlockType × Nat) :=
  (HashOrder.iter blocks).filterMap fun e =>
    if isWellKnown e.2.blockType then (e.2.bcb).map fun bcb => (e.1, e.2.blockType, bcb)
    else none

structure ExtensionPass where
  decrypted : HashMap Bytes
  nokeyExt : List (Nat × BlockType) := []
  failed : List Nat

/-- One turn of the pass over the extension blocks.  The source expects the
BCB to be there. -/
def decryptExtension (data : Bytes) (keys : KeySource) (blocks : HashMap Block)
    (bcbs : HashMap BcbSet) (updates : HashMap Bytes) (s : ExtensionPass)
    (e : Nat × BlockType × Nat) : Except Error ExtensionPass :=
  match bcbs[e.2.2]? with
  | none => .error .altered
  | some ops =>
    match decryptTarget data keys blocks s.decrypted updates ops e.2.2 e.1 with
    | .ok p => .ok { s with decrypted := s.decrypted.insert e.1 p }
    | .error .noKey => .ok { s with nokeyExt := s.nokeyExt ++ [(e.1, e.2.1)] }
    | .error .decryptionFailed => .ok { s with failed := s.failed ++ [e.1] }
    | .error x => .error (.invalidBPSec x)

/-! ## Verification -/

def softly (r : Except Bpsec.Error Unit) : Except Error Unit :=
  match r with
  | .ok () => .ok ()
  | .error .noKey => .ok ()
  | .error e => .error (.invalidBPSec e)

/-- One operation of a BIB: whether its target had to be left to the second
pass.  The source expects the target to be there. -/
def verifyTarget (data : Bytes) (keys : KeySource) (blocks : HashMap Block)
    (decrypted updates : HashMap Bytes) (bib : Nat) (source : Eid) (e : Nat × BibOperation) :
    Except Error Bool :=
  match blocks[e.1]? with
  | none => .error .altered
  | some target =>
    if target.bcb.isSome ∧ e.1 ∉ decrypted then .ok false
    else if e.1 ∉ decrypted ∧ e.1 ∉ updates ∧ target.payload data = none then .ok true
    else do
      softly (e.2.verify keys ⟨source, e.1, bib, overlay blocks data decrypted updates⟩)
      pure false

/-- The operations of one BIB: whether a target had to be left to the second
pass. -/
def verifyBib (data : Bytes) (keys : KeySource) (blocks : HashMap Block)
    (decrypted updates : HashMap Bytes) (bib : Nat) (ops : BibSet) : Except Error Bool :=
  (HashOrder.iter ops.operations).foldlM (fun isDeferred e => do
    let defer ← verifyTarget data keys blocks decrypted updates bib ops.source e
    pure (isDeferred || defer)) false

/-- `verify_all_bibs`: the numbers of the BIBs left to the second pass. -/
def verifyAllBibs (data : Bytes) (keys : KeySource) (blocks : HashMap Block)
    (bibs : HashMap BibSet) (decrypted updates : HashMap Bytes) : Except Error (List Nat) :=
  (HashOrder.iter bibs).foldlM (fun deferred e => do
    let isDeferred ← verifyBib data keys blocks decrypted updates e.1 e.2
    pure (if isDeferred then deferred ++ [e.1] else deferred)) []

/-- The payload target of one BIB in the second pass.  The source expects the
payload block to be there. -/
def verifyPayloadTarget (data : Bytes) (keys : KeySource) (blocks : HashMap Block)
    (decrypted updates : HashMap Bytes) (e : Nat × BibSet) : Except Error Unit :=
  match e.2.operations[1]?, blocks[1]? with
  | none, _ => .ok ()
  | some _, none => .error .altered
  | some op, some target =>
    if target.bcb.isSome ∧ 1 ∉ decrypted then .ok ()
    else softly (op.verify keys ⟨e.2.source, 1, e.1, overlay blocks data decrypted updates⟩)

def verifyPayload (data : Bytes) (keys : KeySource) (blocks : HashMap Block)
    (bibs : HashMap BibSet) (decrypted updates : HashMap Bytes) : Except Error Unit :=
  (HashOrder.iter bibs).forM (verifyPayloadTarget data keys blocks decrypted updates)

structure VerifyFacts where
  failed : List Nat := []
  nokeyExt : List (Nat × BlockType) := []
  deferredBibs : HashMap BibSet := ∅

/-- What `verify` leaves behind: its facts and the maps it has changed. -/
structure Verified where
  facts : VerifyFacts
  blocks : HashMap Block
  bibs : HashMap BibSet
  decrypted : HashMap Bytes

def drainOne (m : HashMap BibSet × HashMap BibSet) (n : Nat) : HashMap BibSet × HashMap BibSet :=
  match m.1[n]? with
  | some ops => (m.1.erase n, m.2.insert n ops)
  | none => m

def drain (deferred : List Nat) (bibs : HashMap BibSet) : HashMap BibSet × HashMap BibSet :=
  deferred.foldl drainOne (bibs, ∅)

def verify (data : Bytes) (keys : KeySource) (blocks : HashMap Block) (bcbs : HashMap BcbSet)
    (bibs : HashMap BibSet) (decrypted updates : HashMap Bytes) : Except Error Verified := do
  let s ← decryptAndValidateCoveredBibs data keys blocks bcbs bibs decrypted updates
  let x ← (encryptedExtensions s.blocks).foldlM
    (decryptExtension data keys s.blocks bcbs updates)
    { decrypted := s.decrypted, failed := s.failed }
  let deferred ← verifyAllBibs data keys s.blocks s.bibs x.decrypted updates
  let (bibs, deferredBibs) := drain deferred s.bibs
  pure ⟨⟨x.failed, x.nokeyExt, deferredBibs⟩, s.blocks, bibs, x.decrypted⟩

end Hardy.Checks
