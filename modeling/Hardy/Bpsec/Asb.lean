import Hardy.Block

/-!
# Abstract Security Blocks

Model of `bpv7/src/bpsec/parse.rs`.  The source keeps the parameters and
results of a block as ranges of the slice it decodes and reads them later from
the same slice; here they are the bytes of those ranges.
-/

namespace Hardy.Bpsec

open Cbor

/-- `Context::from_cbor` -/
def Context.ofCode : Nat → Context
  | 1 => bibHmacSha2
  | 2 => bcbAesGcm
  | v => unrecognised v

def Context.code : Context → Nat
  | bibHmacSha2 => 1
  | bcbAesGcm => 2
  | unrecognised v => v

def Context.fromCbor : Dec Error (Context × Bool) := newtype Context.ofCode .notCanonical

/-! ## Parameter and result maps -/

def definiteArray {α : Type} (body : Ser Error α) (shortest : Bool) (tags : List Nat) :
    Ser Error α := do
  let definite ← isDefinite
  if !shortest || !tags.isEmpty || !definite then throw .notCanonical else body

def rangeEntry : Ser Error (Nat × Bytes) := do
  let id ← requireCanonical 1 u64 "id" Error.notCanonical
  let (_, value) ← Scan.consumed
    (mapFieldErr "value" (Series.item 1 (skipValue 16)) : Ser Error Bool)
  pure (id, value)

def rangeRound (map : HashMap Bytes) : Ser Error (HashMap Bytes ⊕ HashMap Bytes) :=
  unlessEnd 1 (pure (.inr map)) (do
    let (id, value) ← Series.item 1 (parseArray (definiteArray rangeEntry))
    pure (.inl (map.insert id value)))

def parseRanges (D : Nat) : Ser Error (Option (HashMap Bytes)) :=
  unlessEnd D (pure none) (do
    let map ← Series.item D (parseArray (definiteArray
      (Scan.loop (.invalidCBOR .tooBig) rangeRound ∅)))
    pure (some map))

/-! ## The block -/

structure AbstractSyntaxBlock where
  context : Context
  source : Eid
  parameters : HashMap Bytes
  results : HashMap (HashMap Bytes)

namespace AbstractSyntaxBlock

def targetRound (targets : List Nat) : Ser Error (List Nat ⊕ List Nat) := do
  match ← Series.tryItem 1 (lift (untagged u64)) with
  | none => pure (.inr targets)
  | some (block, s) =>
    ensure s .notCanonical
    ensure (!targets.contains block) .duplicateOpTarget
    pure (.inl (targets ++ [block]))

def resultRound (targets : List Nat) (acc : Nat × HashMap (HashMap Bytes)) :
    Ser Error ((Nat × HashMap (HashMap Bytes)) ⊕ HashMap (HashMap Bytes)) := do
  match ← (mapFieldErr "security results" (parseRanges 1) :
      Ser Error (Option (HashMap Bytes))) with
  | none => pure (.inr acc.2)
  | some results =>
    match targets[acc.1]? with
    | none => throw .mismatchedTargetResult
    | some target => pure (.inl (acc.1 + 1, acc.2.insert target results))

def isNodeless : Eid → Bool
  | .null => true
  | .localNode _ => true
  | _ => false

variable [Crates]

/-- The closure of `AbstractSyntaxBlock::from_cbor`. -/
def fields : Ser Error (AbstractSyntaxBlock × Bool) := do
  let targets ← (mapFieldErr "security targets" (Series.item 0 (parseArray (definiteArray
    (Scan.loop (.invalidCBOR .tooBig) targetRound [])))) : Ser Error (List Nat))
  ensure (!targets.isEmpty) .noTargets
  let context ← requireCanonical 0 Context.fromCbor "security context id" Error.notCanonical
  let flags ← requireCanonical 0 u64 "security context flags" Error.notCanonical
  let source ← requireCanonical 0 Eid.fromCbor "security source" Error.notCanonical
  ensure (!isNodeless source) .invalidSecuritySource
  let parameters ←
    if flags % 2 = 0 then pure ∅
    else do
      let map ← (mapFieldErr "security context parameters" (parseRanges 0) :
        Ser Error (Option (HashMap Bytes)))
      pure (map.getD ∅)
  let results ← Series.item 0 (parseArray (definiteArray
    (Scan.loop (.invalidCBOR .tooBig) (resultRound targets) (0, ∅))))
  ensure (targets.length == results.size) .mismatchedTargetResult
  pure (⟨context, source, parameters, results⟩, true)

def fromCbor : Dec Error (AbstractSyntaxBlock × Bool) := parseSequence fields

end AbstractSyntaxBlock

/-! ## Unpacking -/

def boxOf (value : Value) (s : Bool) (tags : List Nat) : Except Error Bytes :=
  match value with
  | .bytes _ b => if s && tags.isEmpty then .ok b else .error .notCanonical
  | .byteStream _ => .error .notCanonical
  | _ => .error (ofCbor (.incorrectType "Untagged definite-length byte string"
      (value.itemType tags)))

def decodeBox (data : Bytes) : Except Error Bytes :=
  match runDec (parseValue fun v s t => (verdict (boxOf v s t) : Ser Error Bytes)) data with
  | .ok (b, _) => .ok b
  | .error x => .error x

def decodeNewtype {α : Type} (f : Nat → α) (data : Bytes) : Except Error α :=
  match runDec (newtype f Error.notCanonical) data with
  | .ok ((a, _), _) => .ok a
  | .error x => .error x

/-- An operation of a context this node does not know. -/
structure UnknownOperation where
  parameters : HashMap Bytes
  results : HashMap Bytes

section

variable [HashOrder]

/-- Insert the outcome of each entry, or stop at the first failure. -/
def mapEntries {β γ : Type} (f : β → Except Error γ) (map : HashMap β) :
    Except Error (HashMap γ) :=
  (HashOrder.iter map).foldlM (fun acc e => do pure (acc.insert e.1 (← f e.2))) ∅

def AbstractSyntaxBlock.intoOperations {P R Op : Type} (asb : AbstractSyntaxBlock)
    (paramsField resultsField : String) (parseParams : HashMap Bytes → Except Error P)
    (parseResults : HashMap Bytes → Except Error R) (make : P → R → Op) :
    Except Error (HashMap Op) := do
  let parameters ← (parseParams asb.parameters).mapError (Error.invalidField paramsField)
  mapEntries (fun results => do
    let r ← (parseResults results).mapError (Error.invalidField resultsField)
    pure (make parameters r)) asb.results

/-- `UnknownOperation::parse`, with the operations wrapped by the caller. -/
def UnknownOperation.parse {Op : Type} (wrap : UnknownOperation → Op)
    (asb : AbstractSyntaxBlock) : Except Error (HashMap Op) :=
  asb.intoOperations "security context parameters" "security results" .ok .ok
    fun parameters results => wrap ⟨parameters, results⟩

/-! ## Emission -/

def emitRanges (map : HashMap Bytes) : Bytes :=
  emitArray ((HashOrder.iter map).map fun e => emitArray [emitUint e.1, e.2])

def UnknownOperation.emitContext [Crates] (o : UnknownOperation) (source : Eid) (id : Nat) :
    Bytes :=
  if o.parameters.isEmpty then emitUint id ++ emitUint 0 ++ source.toCbor
  else emitUint id ++ emitUint 1 ++ source.toCbor ++ emitRanges o.parameters

end

end Hardy.Bpsec
