import Hardy.Edit.Chunk

/-!
# The editor

Model of `Editor` in `bpv7/src/editor.rs`.  An editor holds a bundle with the
bytes it was parsed from, and a template for every block of the bundle to be:
keep the block, write a new body for it, or add it.  An operation that fails
gives the editor back with the error.
-/

namespace Hardy

open Cbor Bpsec

/-- `editor::BlockTemplate` -/
inductive EditTemplate where
  | keep (blockType : BlockType)
  | update (template : BlockTemplate)
  | insert (template : BlockTemplate)

def EditTemplate.blockType : EditTemplate → BlockType
  | keep t => t
  | update t => t.block.blockType
  | insert t => t.block.blockType

structure Editor where
  original : Bundle
  sourceData : Bytes
  primary : Option PrimaryBlock := none
  blocks : HashMap EditTemplate
  bibOverrides : HashMap BibCoverage := ∅
  bcbOverrides : HashMap (Option Nat) := ∅

/-- `editor::BlockBuilder` -/
structure EditBuilder where
  editor : Editor
  number : Nat
  isNew : Bool
  template : BlockTemplate

namespace EditBuilder

def withFlags (b : EditBuilder) (flags : BlockFlags) : EditBuilder :=
  { b with template := { b.template with block := { b.template.block with flags := flags } } }

def withCrcType (b : EditBuilder) (crcType : CrcType) : EditBuilder :=
  { b with template := { b.template with block := { b.template.block with crcType := crcType } } }

def withData (b : EditBuilder) (data : Bytes) : EditBuilder :=
  { b with template := { b.template with data := some data } }

def rebuild (b : EditBuilder) : Editor :=
  { b.editor with
    blocks := b.editor.blocks.insert b.number
      (if b.isNew then .insert b.template else .update b.template) }

end EditBuilder

abbrev Edit (α : Type) := Except (Editor × EditorError) α

namespace Editor

def new (original : Bundle) (sourceData : Bytes) : Editor where
  original := original
  sourceData := sourceData
  blocks := original.blocks.map fun _ block => .keep block.blockType

/-- `Editor::block`: the header and the body of a block as they stand. -/
def block (e : Editor) (number : Nat) : Option (Block × Option Bytes) :=
  match e.blocks[number]? with
  | none => none
  | some (.keep _) => e.original.blocks[number]?.map fun b => (b, b.payload e.sourceData)
  | some (.update t) => some (t.block, t.data)
  | some (.insert t) => some (t.block, t.data)

/-! ## The primary block -/

def isKept (e : Editor) (number : Nat) : Bool :=
  match e.blocks[number]? with
  | some (.keep _) => true
  | _ => false

def primaryRefusal (e : Editor) : Option EditorError :=
  match e.original.blocks[0]? with
  | none => none
  | some primary =>
    match primary.bib with
    | .some bib => if e.isKept bib then some .primaryBlockHasBib else none
    | .maybe => some (.ofBpsec (.maybeHasBib 0))
    | .none => none

def editPrimary (e : Editor) (f : PrimaryBlock → PrimaryBlock) : Edit Editor :=
  match e.primaryRefusal with
  | some x => .error (e, x)
  | none => .ok { e with primary := some (f (e.primary.getD e.original.primary)) }

def withBundleFlags (e : Editor) (flags : BundleFlags) : Edit Editor :=
  e.editPrimary fun p => { p with flags := flags }

def withBundleCrcType (e : Editor) (crcType : CrcType) : Edit Editor :=
  e.editPrimary fun p => { p with crcType := crcType }

def withTimestamp (e : Editor) (timestamp : CreationTimestamp) : Edit Editor :=
  e.editPrimary fun p => { p with id := { p.id with timestamp := timestamp } }

def withSource (e : Editor) (source : Eid) : Edit Editor :=
  e.editPrimary fun p => { p with id := { p.id with source := source } }

def withDestination (e : Editor) (destination : Eid) : Edit Editor :=
  e.editPrimary fun p => { p with destination := destination }

def withReportTo (e : Editor) (reportTo : Eid) : Edit Editor :=
  e.editPrimary fun p => { p with reportTo := reportTo }

def withLifetime (e : Editor) (lifetime : Duration) : Edit Editor :=
  e.editPrimary fun p =>
    { p with lifetime := ⟨min lifetime.nanos (Duration.fromMillis (wordSize - 1)).nanos⟩ }

def withFragmentInfo (e : Editor) (fragmentInfo : Option FragmentInfo) : Edit Editor :=
  e.editPrimary fun p => { p with id := { p.id with fragmentInfo := fragmentInfo } }

/-! ## Other blocks -/

def updateBlockInner (e : Editor) (number : Nat) : Edit EditBuilder :=
  match e.blocks[number]? with
  | none => .error (e, .noSuchBlock number)
  | some (.keep t) =>
    if t = .primary then .error (e, .primaryBlock)
    else match e.original.blocks[number]? with
      | none => .error (e, .noSuchBlock number)
      | some block =>
        let t := BlockTemplate.new t block.flags block.crcType
          -- the body of an encrypted block is ciphertext, so the caller has to bring one
          (if block.bcb.isSome then none else block.payload e.sourceData)
        .ok ⟨e, number, false,
          { t with block := { t.block with bib := block.bib, bcb := block.bcb } }⟩
  | some (.insert t) => .ok ⟨e, number, true, t⟩
  | some (.update t) => .ok ⟨e, number, false, t⟩

/-- `remove_from_bib_targets` and `remove_from_bcb_targets`.  `removeBlock`
removes a security block that has lost its last target, `clear` takes back the
coverage of the target. -/
def removeFromTargets {Op : Type} (parse : Bytes → Except Bpsec.Error (OperationSet Op))
    (emit : OperationSet Op → Bytes) (field : String) (clear : Editor → Nat → Editor)
    (removeBlock : Editor → Nat → Edit Editor) (e : Editor) (target security : Nat) :
    Edit Editor :=
  match e.block security with
  | some (_, some body) =>
    match parse body with
    | .error x => .error (e, .ofError (.invalidField field (.invalidBPSec x)))
    | .ok ops =>
      if target ∈ ops.operations then do
        let ops := { ops with operations := ops.operations.erase target }
        let e ←
          if ops.operations.isEmpty then removeBlock e security
          else do
            let b ← e.updateBlockInner security
            pure (b.withData (emit ops)).rebuild
        pure (clear e target)
      else .ok e
  | _ => .ok e

def clearBib (e : Editor) (target : Nat) : Editor :=
  { e with bibOverrides := e.bibOverrides.insert target .none }

def clearBcb (e : Editor) (target : Nat) : Editor :=
  { e with bcbOverrides := e.bcbOverrides.insert target none }

variable [Crates] [HashOrder]

/-- The coverage that a BIB about to be removed has given to a target. -/
def coveredBy (e : Editor) (bib target : Nat) : Bool :=
  match e.bibOverrides[target]? with
  | some coverage => coverage == .some bib
  | none =>
    match e.block target with
    | some (block, _) => block.bib == .some bib
    | none => false

def bibTargets (e : Editor) (number : Nat) : List Nat :=
  match e.block number with
  | some (block, some body) =>
    if block.blockType = .blockIntegrity then
      match parseExact (OperationSet.fromCbor BibSet.unpack) body with
      | .ok ops => (HashOrder.iter ops.operations).map Prod.fst
      | .error _ => []
    else []
  | _ => []

def uncover (e : Editor) (number : Nat) : Editor :=
  (e.bibTargets number).foldl
    (fun e target => if e.coveredBy number target then e.clearBib target else e) e

/-- `Editor::remove_block_inner`.  Each call that goes on removes a block, so
more calls than there are blocks are never made. -/
def removeBlockInner : Nat → Editor → Nat → Edit Editor
  | 0, e, _ => .ok e
  | fuel + 1, e, number =>
    let (bib, bcb) :=
      match e.block number with
      | some (block, _) => (block.bib, block.bcb)
      | none => (BibCoverage.none, none)
    let e := e.uncover number
    if number ∈ e.blocks then do
      let e := { e with blocks := e.blocks.erase number }
      let e ←
        match bib with
        | .some bib =>
          removeFromTargets (parseExact (OperationSet.fromCbor BibSet.unpack)) BibSet.toCbor
            "BIB Abstract Syntax Block" clearBib (removeBlockInner fuel) e number bib
        | _ => .ok e
      match bcb with
      | some bcb =>
        removeFromTargets (parseExact (OperationSet.fromCbor BcbSet.unpack)) BcbSet.toCbor
          "BCB Abstract Syntax Block" clearBcb (removeBlockInner fuel) e number bcb
      | none => .ok e
    else .ok e

def removeFromBibTargets (e : Editor) (target bib : Nat) : Edit Editor :=
  removeFromTargets (parseExact (OperationSet.fromCbor BibSet.unpack)) BibSet.toCbor
    "BIB Abstract Syntax Block" clearBib (removeBlockInner (e.blocks.size + 1)) e target bib

def removeFromBcbTargets (e : Editor) (target bcb : Nat) : Edit Editor :=
  removeFromTargets (parseExact (OperationSet.fromCbor BcbSet.unpack)) BcbSet.toCbor
    "BCB Abstract Syntax Block" clearBcb (removeBlockInner (e.blocks.size + 1)) e target bcb

def isEncrypted (e : Editor) (bib : Nat) : Bool :=
  match e.block bib with
  | some (block, _) => block.bcb.isSome
  | none => false

/-- Block types that the editor leaves to the signer and the encryptor. -/
def isSecurity : BlockType → Bool
  | .blockIntegrity => true
  | .blockSecurity => true
  | _ => false

def updateBlock (e : Editor) (number : Nat) : Edit EditBuilder :=
  match e.block number with
  | none => .error (e, .noSuchBlock number)
  | some (block, _) =>
    if block.blockType = .primary then .error (e, .primaryBlock)
    else if isSecurity block.blockType then .error (e, .securityBlock)
    else do
      let e ←
        match block.bib with
        | .maybe => .error (e, .ofBpsec (.maybeHasBib number))
        | .some bib =>
          if e.isEncrypted bib then .error (e, .bibIsEncrypted number)
          else e.removeFromBibTargets number bib
        | .none => .ok e
      let e ←
        match block.bcb with
        | some bcb => e.removeFromBcbTargets number bcb
        | none => .ok e
      e.updateBlockInner number

def removeBlock (e : Editor) (number : Nat) : Edit Editor :=
  if number = 0 then .error (e, .primaryBlock)
  else if number = 1 then .error (e, .payloadBlock)
  else do
    match e.block number with
    | none => .ok ()
    | some (block, _) =>
      if isSecurity block.blockType then .error (e, .securityBlock)
      else match block.bib with
        | .maybe => .error (e, .ofBpsec (.maybeHasBib number))
        | .some bib => if e.isEncrypted bib then .error (e, .bibIsEncrypted number) else .ok ()
        | .none => .ok ()
    e.removeBlockInner (e.blocks.size + 1) number

/-! ## Adding blocks -/

/-- The first number from `number` on that no block has. -/
def freeNumber (blocks : HashMap EditTemplate) : Nat → Nat → Option Nat
  | 0, _ => none
  | fuel + 1, number =>
    if number ∈ blocks then
      if number + 1 < wordSize then freeNumber blocks fuel (number + 1) else none
    else some number

/-- `Editor::alloc_block`.  One of the first numbers, as many as there are
blocks and one more, is free. -/
def allocBlock (e : Editor) (blockType : BlockType) : Edit EditBuilder :=
  match freeNumber e.blocks (e.blocks.size + 1) 2 with
  | none => .error (e, .outOfBlockNumbers)
  | some number =>
    .ok ⟨e, number, true, .new blockType {} e.original.primary.crcType none⟩

def isSingleton : BlockType → Bool
  | .payload => true
  | .bundleAge => true
  | .hopCount => true
  | .previousNode => true
  | _ => false

def pushBlock (e : Editor) (blockType : BlockType) : Edit EditBuilder :=
  let blockType := blockType.canonicalize
  if blockType = .primary then .error (e, .primaryBlock)
  else if isSecurity blockType then .error (e, .securityBlock)
  else if isSingleton blockType &&
      (HashOrder.iter e.blocks).any fun t => t.2.blockType == blockType then
    .error (e, .illegalDuplicate blockType)
  else e.allocBlock blockType

def insertBlock (e : Editor) (blockType : BlockType) : Edit EditBuilder :=
  let blockType := blockType.canonicalize
  if blockType = .primary then .error (e, .primaryBlock)
  else if isSecurity blockType then .error (e, .securityBlock)
  else match (HashOrder.iter e.blocks).find? fun t => t.2.blockType == blockType with
    | some (number, .keep _) => e.updateBlock number
    | some (number, .insert t) => .ok ⟨e, number, true, t⟩
    | some (number, .update t) => .ok ⟨e, number, false, t⟩
    | none => e.allocBlock blockType

/-! ## Rebuilding -/

def keptChunk (e : Editor) (number : Nat) : Except EditorError (Block × Chunk) :=
  match e.original.blocks[number]? with
  | none => .error (.ofError .altered)
  | some block => .ok (block, .unchanged block.extent)

/-- `BlockTemplate::build_to_vec` as the editor calls it. -/
def builtChunk (number : Nat) (t : BlockTemplate) : Except EditorError (Block × Chunk) :=
  match t.data with
  | none => .error (.builder .noBlockData)
  | some data =>
    match t.block.emit number data with
    | .error x => .error (.builder (.internalError (.invalidCrc x)))
    | .ok (block, bytes) => .ok (block, .new bytes)

def buildChunk (e : Editor) (number : Nat) : EditTemplate → Except EditorError (Block × Chunk)
  | .update t => builtChunk number t
  | .insert t => builtChunk number t
  | .keep _ => e.keptChunk number

def primaryChunk (e : Editor) (template : EditTemplate) :
    Except EditorError (PrimaryBlock × Block × Chunk) :=
  match e.primary, template with
  | some primary, _ => do
      let primary := { primary with
        flags := { primary.flags with isFragment := primary.id.fragmentInfo.isSome } }
      let bytes ← primary.emit.mapError .ofError
      pure (primary, PrimaryBlock.asBlock primary.crcType ⟨0, bytes.length⟩, .new bytes)
  | none, .update t =>
    match t.data with
    | none => .error (.builder .noBlockData)
    | some bytes => .ok (e.original.primary,
        PrimaryBlock.asBlock e.original.primary.crcType ⟨0, bytes.length⟩, .new bytes)
  | none, _ => do
      let (block, chunk) ← e.keptChunk 0
      pure (e.original.primary, block, chunk)

def extensionChunks (e : Editor) : Except EditorError (List (Nat × Block × Chunk)) :=
  (HashOrder.iter ((e.blocks.erase 0).erase 1)).mapM fun t => do
    let (block, chunk) ← e.buildChunk t.1 t.2
    pure (t.1, block, chunk)

/-- What `rebuild` and `rebuild_bundle` put together. -/
structure Parts where
  primary : PrimaryBlock
  primaryBlock : Block
  primaryChunk : Chunk
  extensions : List (Nat × Block × Chunk)
  payloadBlock : Block
  payloadChunk : Chunk

def parts (e : Editor) : Except EditorError Parts :=
  match e.blocks[0]?, e.blocks[1]? with
  | none, _ => .error (.panicked "No primary block!")
  | some template, payload => do
      let (primary, primaryBlock, primaryChunk) ← e.primaryChunk template
      match payload with
      | none => .error (.panicked "No payload block!")
      | some payload => do
          let extensions ← e.extensionChunks
          let (payloadBlock, payloadChunk) ← e.buildChunk 1 payload
          pure ⟨primary, primaryBlock, primaryChunk, extensions, payloadBlock, payloadChunk⟩

def Parts.extensionChunks (p : Parts) : List (Nat × Chunk) :=
  p.extensions.map fun x => (x.1, x.2.2)

def Parts.chunks (p : Parts) : List Chunk :=
  Chunk.assemble p.primaryChunk p.extensionChunks p.payloadChunk

def rebuild (e : Editor) : Except EditorError (List Chunk) := do
  let p ← e.parts
  pure p.chunks

def Parts.blocks (p : Parts) : HashMap Block :=
  (p.extensions.foldl (fun m x => m.insert x.1 x.2.1)
    ((∅ : HashMap Block).insert 0 p.primaryBlock)).insert 1 p.payloadBlock

/-- The coverage that the signer and the encryptor, or a removal, have set. -/
def applyOverrides (e : Editor) (blocks : HashMap Block) : HashMap Block :=
  let blocks := (HashOrder.iter e.bibOverrides).foldl
    (fun m o => m.modify o.1 fun b => { b with bib := o.2 }) blocks
  (HashOrder.iter e.bcbOverrides).foldl
    (fun m o => m.modify o.1 fun b => { b with bcb := o.2 }) blocks

def rebuildBundle (e : Editor) : Except EditorError (Bundle × List Chunk) := do
  let p ← e.parts
  let blocks := Chunk.place 1 (Chunk.assembled p.primaryChunk p.extensionChunks p.payloadChunk)
    (e.applyOverrides p.blocks)
  pure (⟨p.primary, blocks⟩, p.chunks)

end Editor

end Hardy
