import Hardy.Stream
import Hardy.Parse.Tail

/-!
# The streaming bundle parser

Model of `BundleParser` in `bpv7/src/parse.rs`.  One round of the parser reads
the head of the bundle, the primary block or one further block.  A round that
runs out of input is tried again from its start when more input arrives, so
nothing of it may have been recorded.

The source keeps its position in `State`; here it is the position of the
cursor, and the state of a parser that has reached its end is a type of its
own (`Finished`), so a finished parser cannot be pushed again.
-/

namespace Hardy

open Cbor Bpsec

variable [Crates] [HashOrder]

/-! ## State -/

inductive State where
  | start
  | primaryBlock
  | blocks (bundle : Bundle)

structure Walk where
  state : State := .start
  uniqueBlocks : List BlockType := []
  pendingBibs : List Nat := []
  bcbs : HashMap BcbSet := ∅

/-- The record of a parser that has seen the header of the payload block. -/
structure Finished where
  bundle : Bundle
  pendingBibs : List Nat
  bcbs : HashMap BcbSet

/-- How a parse ends: with the last byte of the bundle, or with a payload that
is left to the tail. -/
inductive Outcome where
  | done (finished : Finished)
  | deferred (finished : Finished) (tail : PayloadTail)

/-! ## Blocks -/

def trailerByteLen (crcType : CrcType) (isIndefinite : Bool) : Nat :=
  (match crcType with
    | .crc16X25 => 3
    | .crc32Castagnoli => 5
    | _ => 0) + if isIndefinite then 1 else 0

def consumeCrc (head : UInt8) (valueLen : Nat) : Dec Error Bytes := do
  let b ← lift (takeBytes (1 + valueLen))
  ensure (b.head? == some head) .notCanonical
  pure b.tail

def breakByte : Dec Error Unit := do
  let b ← lift byte
  ensure (b == 0xFF) .notCanonical

/-- The checksum of `try_consume_block_after_body`. -/
def trailerCrc (crcType : CrcType) : Dec Error (Option Bytes) :=
  match crcType with
  | .none => pure none
  | .crc16X25 => consumeCrc 0x42 2 >>= fun v => pure (some v)
  | .crc32Castagnoli => consumeCrc 0x44 4 >>= fun v => pure (some v)
  | .unrecognised t => throw (.invalidCrc (.invalidType t))

def consumeBlockAfterBody (crcType : CrcType) (isIndefinite : Bool) : Dec Error (Option Bytes) := do
  let crc ← trailerCrc crcType
  if isIndefinite then breakByte else pure ()
  pure crc

/-- The comparison of a block's checksum.  `before` is the block up to the
head of the value. -/
def checkBlockCrc (crcType : CrcType) (isIndefinite : Bool) (before : Bytes)
    (crc : Option Bytes) : Except CrcError Unit :=
  match crc with
  | none => .ok ()
  | some v => do
      let value ← crcValue crcType (before ++ [crcType.headByte])
        (if isIndefinite then [0xFF] else [])
      if value = v then .ok () else .error .incorrectCrc

/-- A block from the start of its data to its end.  `head` is what comes before. -/
def blockBody (header : BlockHeader) (head : Bytes) : Dec Error Bytes := do
  let body ← lift (takeBytes (header.dataEnd - header.dataStart))
  let crc ← consumeBlockAfterBody header.crcType header.isIndefinite
  verdict ((checkBlockCrc header.crcType header.isIndefinite (head ++ body) crc).mapError
    Error.invalidCrc)
  pure body

def BlockType.isUnique : BlockType → Bool
  | previousNode => true
  | bundleAge => true
  | hopCount => true
  | _ => false

/-- The end of the block's extent, for a block that starts at `start`. -/
def BlockHeader.extentEnd (h : BlockHeader) (start : Nat) : Nat :=
  start + h.dataEnd + trailerByteLen h.crcType h.isIndefinite

def checkedHeader (w : Walk) (bundle : Bundle) : Dec Error (BlockHeader × Bytes) := do
  let start ← Scan.look id
  let (header, head) ← Scan.consumed (parseField BlockHeader.fromCbor "block")
  ensure (!(header.blockType.isUnique && w.uniqueBlocks.contains header.blockType))
    (.duplicateBlocks header.blockType)
  ensure (!bundle.blocks.contains header.number) (.duplicateBlockNumber header.number)
  ensure (!((bundle.primary.flags.isAdminRecord || bundle.primary.id.source.isNull) &&
    header.flags.reportOnFailure)) .invalidFlags
  ensure (decide (start + header.dataEnd < wordSize)) (.invalidCBOR .tooBig)
  ensure (decide (header.extentEnd start < wordSize)) (.invalidCBOR .tooBig)
  pure (header, head)

/-- The header of the next block.  The break of the bundle comes too early
here. -/
def blockHead (w : Walk) (bundle : Bundle) : Dec Error (BlockHeader × Bytes) :=
  Scan.onNext isBreak (throw .missingPayload) (checkedHeader w bundle)

def BlockHeader.block (h : BlockHeader) (start : Nat) : Block where
  blockType := h.blockType
  flags := h.flags
  crcType := h.crcType
  extent := ⟨start, h.extentEnd start⟩
  data := ⟨h.dataStart, h.dataEnd⟩

def Walk.record (w : Walk) (bundle : Bundle) (header : BlockHeader) (start : Nat)
    (ops : Option BcbSet) : Walk where
  state := .blocks ⟨bundle.primary, bundle.blocks.insert header.number (header.block start)⟩
  uniqueBlocks :=
    if header.blockType.isUnique then header.blockType :: w.uniqueBlocks else w.uniqueBlocks
  pendingBibs :=
    if header.blockType = .blockIntegrity then w.pendingBibs ++ [header.number]
    else w.pendingBibs
  bcbs :=
    match ops with
    | some ops => w.bcbs.insert header.number ops
    | none => w.bcbs

/-- The operations of a BCB are decoded at once, from its plain body. -/
def bcbOps (header : BlockHeader) (body : Bytes) : Except Error (Option BcbSet) :=
  if header.blockType = .blockSecurity then (BcbSet.decode body).map some else .ok none

def Walk.finished (w : Walk) (bundle : Bundle) (header : BlockHeader) (start : Nat) :
    Finished where
  bundle := ⟨bundle.primary, bundle.blocks.insert header.number (header.block start)⟩
  pendingBibs := w.pendingBibs
  bcbs := w.bcbs

/-- The payload body exceeds the buffer by more than the parser waits for. -/
def oversized (chunkSize : Nat) (header : BlockHeader) (c : Cursor UInt8 Nat) : Bool :=
  let len := header.dataEnd - header.dataStart
  decide (c.rest.length < len) &&
    !decide (len - c.rest.length + trailerByteLen header.crcType header.isIndefinite ≤
      chunkSize - c.st)

def payloadTail (header : BlockHeader) (head : Bytes) (start : Nat) (c : Cursor UInt8 Nat) :
    Except Error PayloadTail := do
  let digest ←
    if header.crcType = .none then pure none
    else match Digest.new header.crcType with
      | .ok d => pure (some (d.push (head ++ c.rest)))
      | .error x => .error (.invalidCrc x)
  let len := c.st + c.rest.length
  pure (.new digest header.crcType header.isIndefinite
    (header.dataEnd - header.dataStart - c.rest.length)
    (min (header.extentEnd start + 1) (wordSize - 1) - len))

def inlinePayload (header : BlockHeader) (head : Bytes) : Dec Error Unit := do
  let _ ← blockBody header head
  breakByte

def atBundleEnd : Dec Error Unit := fun c =>
  if c.rest.isEmpty then .ok ((), c) else .error .additionalData

def wholePayload (w : Walk) (bundle : Bundle) (start : Nat) (header : BlockHeader)
    (head : Bytes) : Dec Error Outcome := do
  inlinePayload header head
  atBundleEnd
  pure (.done (w.finished bundle header start))

def parsePayload (chunkSize : Nat) (w : Walk) (bundle : Bundle) (start : Nat)
    (header : BlockHeader) (head : Bytes) : Dec Error Outcome := fun c =>
  if oversized chunkSize header c then
    match payloadTail header head start c with
    | .ok tail => .ok (.deferred (w.finished bundle header start) tail, c)
    | .error x => .error x
  else wholePayload w bundle start header head c

def parseExtension (w : Walk) (bundle : Bundle) (start : Nat) (header : BlockHeader)
    (head : Bytes) : Dec Error Walk := do
  let body ← blockBody header head
  let ops ← verdict (bcbOps header body)
  pure (w.record bundle header start ops)

def parseBlock (chunkSize : Nat) (w : Walk) (bundle : Bundle) : Dec Error (Walk ⊕ Outcome) := do
  let start ← Scan.look id
  let (header, head) ← blockHead w bundle
  if header.blockType = .payload then
    let outcome ← parsePayload chunkSize w bundle start header head
    pure (.inr outcome)
  else
    let w ← parseExtension w bundle start header head
    pure (.inl w)

/-! ## The head of the bundle -/

def parseStart : Dec Error Unit := do
  let first ← lift byte
  if first = 0x9F then pure ()
  else if 0x80 ≤ first ∧ first ≤ 0x9B then throw .notCanonical
  else if first = 0x06 then throw .possibleBpv6
  else throw (.notABundle first)

def BundleFlags.anyReport (f : BundleFlags) : Bool :=
  f.receiptReportRequested || f.forwardReportRequested || f.deliveryReportRequested ||
    f.deleteReportRequested

/-- The flag combinations of RFC 9171 that `parse_primary` accepts. -/
def PrimaryBlock.flagsOk (p : PrimaryBlock) : Bool :=
  let f := p.flags
  !(p.id.source.isNull && (f.isFragment || !f.doNotFragment || f.anyReport)) &&
    !(f.isAdminRecord && f.anyReport)

def parsePrimary : Dec Error Bundle := do
  let start ← Scan.look id
  let primary ← parseField PrimaryBlock.fromCbor "primary block"
  ensure primary.flagsOk .invalidFlags
  let stop ← Scan.look id
  pure ⟨primary, (∅ : HashMap Block).insert 0
    (PrimaryBlock.asBlock primary.crcType ⟨start, stop⟩)⟩

/-! ## Pushing -/

def round (chunkSize : Nat) (w : Walk) : Dec Error (Walk ⊕ Outcome) :=
  match w.state with
  | .start => do
      parseStart
      pure (.inl { w with state := .primaryBlock })
  | .primaryBlock => do
      let bundle ← parsePrimary
      pure (.inl { w with state := .blocks bundle })
  | .blocks bundle => parseBlock chunkSize w bundle

/-- The parser between two pushes: the buffer, and the round to take up in it. -/
structure BundleParser where
  chunkSize : Nat
  data : Option Bytes := none
  walk : Walk := {}
  offset : Nat := 0

def BundleParser.new (chunkSize : Nat) : BundleParser := { chunkSize := chunkSize }

inductive ParserProgress where
  | needMore (more : Nat) (parser : BundleParser)
  | ready (data : Bytes) (finished : Finished)
  | partialBody (consumed : Bytes) (tail : PayloadTail) (finished : Finished)

/-- The buffer that a push parses: the cached one, extended, or the new data. -/
def BundleParser.extended (p : BundleParser) (dataIn : Bytes) : Bytes :=
  match p.data with
  | some buf => buf ++ dataIn
  | none => dataIn

def BundleParser.push (p : BundleParser) (dataIn : Bytes) : Except Error ParserProgress :=
  let data := p.extended dataIn
  match Scan.run (.invalidCBOR .tooBig) (round p.chunkSize) p.walk
      ⟨p.offset, data.drop p.offset⟩ with
  | .ok (.done finished, _) => .ok (.ready data finished)
  | .ok (.deferred finished tail, _) => .ok (.partialBody data tail finished)
  | .error s =>
    match s.failure.needMore with
    | some more => .ok (.needMore more
        { p with data := some data, walk := s.state, offset := s.cursor.st })
    | none => .error s.failure

end Hardy
