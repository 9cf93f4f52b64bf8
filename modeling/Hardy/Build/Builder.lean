import Hardy.Build.Wire

/-!
# The builder

Model of `bpv7/src/builder.rs`.  The fields of a `Builder` are private in the
source, so a builder is what its methods make of `Builder::new`; what they keep
is part of the structure here.  The array that a bundle is emitted into is the
list of the bytes written so far, which gives the blocks their extents.
-/

namespace Hardy

open Cbor Bpsec

inductive BuilderError where
  | primaryBlock
  | noBlockData
  | internalError (source : Error)

/-! ## Templates -/

structure BlockTemplate where
  block : Block
  data : Option Bytes

def BlockTemplate.new (blockType : BlockType) (flags : BlockFlags) (crcType : CrcType)
    (data : Option Bytes) : BlockTemplate :=
  ⟨{ blockType := blockType.canonicalize, flags := flags, crcType := crcType }, data⟩

def BlockTemplate.build [Crates] (t : BlockTemplate) (number : Nat) (array : Bytes) :
    Except BuilderError (Block × Bytes) :=
  match t.data with
  | none => .error .noBlockData
  | some data =>
    match t.block.emit number data with
    | .error x => .error (.internalError (.invalidCrc x))
    | .ok (block, bytes) =>
      .ok ({ block with extent := ⟨array.length, array.length + bytes.length⟩ }, array ++ bytes)

/-- Templates for a new block: its type has one name, and nothing covers it. -/
structure BlockTemplate.Fresh (t : BlockTemplate) : Prop where
  canonical : BlockType.ofCode t.block.blockType.code = t.block.blockType
  bib : t.block.bib = .none
  bcb : t.block.bcb = none

theorem BlockTemplate.new_fresh (blockType : BlockType) (flags : BlockFlags) (crcType : CrcType)
    (data : Option Bytes) : (new blockType flags crcType data).Fresh :=
  ⟨BlockType.canonicalize_idem blockType, rfl, rfl⟩

/-! ## Builders -/

structure Builder where
  bundleFlags : BundleFlags
  crcType : CrcType
  source : Eid
  destination : Eid
  reportTo : Option Eid
  lifetime : Duration
  payload : BlockTemplate
  extensions : List BlockTemplate
  whole : bundleFlags.isFragment = false
  lifetime_le : lifetime.nanos ≤ (Duration.fromMillis (wordSize - 1)).nanos
  payload_fresh : payload.Fresh
  payload_type : payload.block.blockType = .payload
  extensions_fresh : ∀ t ∈ extensions, t.Fresh
  extensions_type : ∀ t ∈ extensions,
    t.block.blockType ≠ .primary ∧ t.block.blockType ≠ .payload

namespace Builder

def new (source destination : Eid) : Builder where
  bundleFlags := {}
  crcType := .crc32Castagnoli
  source := source
  destination := destination
  reportTo := none
  lifetime := ⟨24 * 60 * 60 * 1000000000⟩
  payload := .new .payload {} .crc32Castagnoli none
  extensions := []
  whole := rfl
  lifetime_le := by decide
  payload_fresh := BlockTemplate.new_fresh _ _ _ _
  payload_type := rfl
  extensions_fresh := by simp
  extensions_type := by simp

def withFlags (b : Builder) (flags : BundleFlags) : Builder :=
  { b with bundleFlags := { flags with isFragment := false }, whole := rfl }

end Builder

structure BlockBuilder where
  builder : Builder
  template : BlockTemplate
  fresh : template.Fresh
  not_primary : template.block.blockType ≠ .primary

def Builder.addExtensionBlock (b : Builder) (blockType : BlockType) :
    Except BuilderError BlockBuilder :=
  if h : blockType.canonicalize = .primary then .error .primaryBlock
  else .ok {
    builder := b
    template := .new blockType.canonicalize {} b.crcType none
    fresh := BlockTemplate.new_fresh _ _ _ _
    not_primary := by
      rw [show (BlockTemplate.new blockType.canonicalize {} b.crcType none).block.blockType =
        blockType.canonicalize from BlockType.canonicalize_idem blockType]
      exact h }

namespace BlockBuilder

def withFlags (b : BlockBuilder) (flags : BlockFlags) : BlockBuilder :=
  { b with
    template := { b.template with block := { b.template.block with flags := flags } }
    fresh := ⟨b.fresh.canonical, b.fresh.bib, b.fresh.bcb⟩ }

def build (b : BlockBuilder) (data : Bytes) : Builder :=
  let template : BlockTemplate := { b.template with data := some data }
  have hfresh : template.Fresh := ⟨b.fresh.canonical, b.fresh.bib, b.fresh.bcb⟩
  if h : b.template.block.blockType = .payload then
    { b.builder with payload := template, payload_fresh := hfresh, payload_type := h }
  else
    { b.builder with
      extensions := b.builder.extensions ++ [template]
      extensions_fresh := by
        intro t ht
        rcases List.mem_append.mp ht with ht | ht
        · exact b.builder.extensions_fresh t ht
        · rw [List.mem_singleton.mp ht]
          exact hfresh
      extensions_type := by
        intro t ht
        rcases List.mem_append.mp ht with ht | ht
        · exact b.builder.extensions_type t ht
        · rw [List.mem_singleton.mp ht]
          exact ⟨b.not_primary, h⟩ }

end BlockBuilder

/-! ## Blocks the builder knows -/

namespace Builder

/-- `with_payload`.  The source expects the block to be accepted. -/
def withPayload (b : Builder) (data : Bytes) : Builder :=
  match b.addExtensionBlock .payload with
  | .ok block => (block.withFlags { deleteBundleOnFailure := true }).build data
  | .error _ => b

end Builder

/-- `HopInfo`, with a limit that is not zero. -/
structure HopInfo where
  limit : Nat
  count : Nat
  limit_pos : 0 < limit
  limit_lt : limit < 256

def HopInfo.toCbor (i : HopInfo) : Bytes := Cbor.emitArray [emitUint i.limit, emitUint i.count]

namespace Builder

def withHopCount (b : Builder) (hopInfo : HopInfo) : Builder :=
  match b.addExtensionBlock .hopCount with
  | .ok block =>
    (block.withFlags { reportOnFailure := true, mustReplicate := true }).build hopInfo.toCbor
  | .error _ => b

/-! ## Building -/

def primary (b : Builder) (timestamp : CreationTimestamp) : PrimaryBlock where
  flags := b.bundleFlags
  id := ⟨b.source, timestamp, none⟩
  crcType := b.crcType
  destination := b.destination
  reportTo := b.reportTo.getD b.source
  lifetime := b.lifetime

end Builder

section

variable [Crates]

/-- `blocks.insert(block_number, block.build(block_number, a)?)` -/
def buildBlock (s : HashMap Block × Bytes) (number : Nat) (t : BlockTemplate) :
    Except BuilderError (HashMap Block × Bytes) := do
  let (block, array) ← t.build number s.2
  pure (s.1.insert number block, array)

/-- The loop over the extension blocks, the next of them under `number`. -/
def buildExtensions : Nat → HashMap Block × Bytes → List BlockTemplate →
    Except BuilderError (HashMap Block × Bytes)
  | _, s, [] => .ok s
  | number, s, t :: l => do
      let s ← buildBlock s number t
      buildExtensions (number + 1) s l

def Builder.build (b : Builder) (timestamp : CreationTimestamp) :
    Except BuilderError (Bundle × Bytes) := do
  let primary := b.primary timestamp
  let bytes ← primary.emit.mapError .internalError
  let blocks := (∅ : HashMap Block).insert 0
    (PrimaryBlock.asBlock primary.crcType ⟨1, 1 + bytes.length⟩)
  let s ← buildExtensions 2 (blocks, 0x9F :: bytes) b.extensions
  let (blocks, array) ← buildBlock s 1 b.payload
  pure (⟨primary, blocks⟩, array ++ [0xFF])

end

end Hardy
