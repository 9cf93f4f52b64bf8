import Hardy.Parse.Parser

/-!
# Finishing a parse

Model of `BundleParser::finish`, `validate_bpsec_structure` and the one-shot
`parse` of `bpv7/src/parse.rs`: the keyless rules of RFC 9172 across the
security blocks, and the coverage they stamp on their targets.
-/

namespace Hardy

open Cbor Bpsec

variable [Crates] [HashOrder]

structure Parsed where
  data : Bytes
  bundle : Bundle
  bcbs : HashMap BcbSet
  bibs : HashMap BibSet

def stampTargets {Op : Type} (ops : OperationSet Op) (stamp : Block → Block)
    (blocks : HashMap Block) : HashMap Block :=
  (HashOrder.iter ops.operations).foldl (fun blocks e => blocks.modify e.1 stamp) blocks

def stampBcb (blocks : HashMap Block) (e : Nat × BcbSet) : Except Error (HashMap Block) := do
  (e.2.check e.1 blocks).mapError Error.invalidBPSec
  pure (stampTargets e.2 (fun b => { b with bcb := some e.1 }) blocks)

structure BibPass where
  blocks : HashMap Block
  bibs : HashMap BibSet := ∅
  hasUndecryptable : Bool := false

def stampBib (data : Bytes) (s : BibPass) (bib : Nat) : Except Error BibPass :=
  match s.blocks[bib]? with
  | none => .error .altered
  | some block =>
    if block.bcb.isSome then .ok { s with hasUndecryptable := true }
    else do
      let ops ← BibSet.decode (block.payloadRange.slice data)
      (ops.check bib s.blocks).mapError Error.invalidBPSec
      pure { s with
        blocks := stampTargets ops (fun b => { b with bib := .some bib }) s.blocks
        bibs := s.bibs.insert bib ops }

def sweepMaybe (b : Block) : Block :=
  if b.bcb.isSome ∧ ¬ (b.blockType = .blockIntegrity ∨ b.blockType = .blockSecurity) ∧
      b.bib = .none then { b with bib := .maybe }
  else b

def Finished.validate (f : Finished) (data : Bytes) :
    Except Error (HashMap Block × HashMap BibSet) := do
  let blocks ← (HashOrder.iter f.bcbs).foldlM stampBcb f.bundle.blocks
  let s ← f.pendingBibs.foldlM (stampBib data) { blocks := blocks }
  pure (if s.hasUndecryptable then s.blocks.map fun _ b => sweepMaybe b else s.blocks, s.bibs)

def Finished.finish (f : Finished) (data : Bytes) : Except Error Parsed :=
  if f.bcbs.isEmpty ∧ f.pendingBibs.isEmpty then .ok ⟨data, f.bundle, f.bcbs, ∅⟩
  else do
    let (blocks, bibs) ← f.validate data
    pure ⟨data, ⟨f.bundle.primary, blocks⟩, f.bcbs, bibs⟩

/-- `NeedMoreData` as the one-shot parser reports it. -/
def truncated (more : Nat) : Error := .invalidCBOR (.needMoreData more)

def Parsed.checkEnd (parsed : Parsed) : Except Error Parsed :=
  match parsed.bundle.blocks[1]? with
  | none => .error .missingPayload
  | some payload =>
    let payloadEnd := payload.extent.stop
    if parsed.data.length ≤ payloadEnd then
      .error (truncated (min (payloadEnd + 1) (wordSize - 1) - parsed.data.length))
    else if parsed.data[payloadEnd]? ≠ some 0xFF ∨ payloadEnd + 1 ≠ parsed.data.length then
      .error .additionalData
    else .ok parsed

def parse (data : Bytes) : Except Error Parsed := do
  match ← (BundleParser.new 4096).push data with
  | .needMore more _ => .error (truncated more)
  | .partialBody _ tail _ => .error (truncated tail.remaining)
  | .ready data finished =>
    let parsed ← finished.finish data
    parsed.checkEnd

end Hardy
