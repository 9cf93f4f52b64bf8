import Hardy.Primary

/-!
# Canonical blocks

The header of a block as the parser reads it (`BlockHeader::from_cbor` in
`bpv7/src/parse.rs`) and the block as the builder writes it (`Block::emit` in
`bpv7/src/block.rs`).
-/

namespace Hardy

open Cbor

/-! ## Fields -/

def BlockType.fromCbor : Dec Error (BlockType × Bool) := newtype BlockType.ofCode .notCanonical

def BlockType.toCbor (t : BlockType) : Bytes := emitUint t.code

def BlockFlags.fromCbor : Dec Error (BlockFlags × Bool) :=
  newtype BlockFlags.ofWord .notCanonical

def BlockFlags.toCbor (f : BlockFlags) : Bytes := emitUint f.word

/-- `parse_canonical` of `parse.rs`: decode at the offset, label the errors. -/
def parseField {ε α : Type} [FromCborError ε] [ErrorInto ε Error] (m : Dec ε (α × Bool))
    (field : String) : Dec Error α := do
  let (v, s) ← Scan.within (fun _ => 0) (· + ·) (mapFieldErr field (untagged m))
  if s then pure v else throw (.invalidField field .notCanonical)

/-! ## Headers -/

structure BlockHeader where
  isIndefinite : Bool
  number : Nat
  blockType : BlockType
  flags : BlockFlags
  crcType : CrcType
  dataStart : Nat
  dataEnd : Nat
deriving DecidableEq, Repr

namespace BlockHeader

def isArrayHead (b : UInt8) : Bool := b == 0x85 || b == 0x86 || b == 0x9F

def slowBlockArrayError {α : Type} : Dec Error α := do
  let (head, _) ← Scan.mapErr Error.invalidCBOR Head.fromCbor
  throw <| .invalidCBOR <|
    match head.marker with
    | .array (some n) => if 7 ≤ n then .additionalItems else .noMoreItems
    | _ => .incorrectType "Definite length array" head.itemType

def arrayHead : Dec Error UInt8 := Scan.onNext isArrayHead (lift byte) slowBlockArrayError

/-- The block numbers 0 and 1 and the primary and payload types go together. -/
def numberOk (number : Nat) (blockType : BlockType) : Bool :=
  if number = 1 ∧ blockType = .payload then true
  else !(number == 0 || number == 1 || blockType == .primary || blockType == .payload)

def countOk (count : UInt8) (crcType : CrcType) : Bool :=
  if count = 0x85 then crcType == .none
  else if count = 0x86 then crcType != .none
  else count == 0x9F

/-- The tag run in front of the data cannot be the one tag 24 in shortest form. -/
def badTag (data : Bytes) : Bool :=
  match data with
  | [] => false
  | first :: data =>
    isTag first && (first != 0xD8 || (match data[0]? with
      | some b => b != 0x18
      | none => false) || (match data[1]? with
      | some b => isTag b
      | none => false))

def dataHead : Dec Error (Head × Bool) := fun c =>
  if badTag c.rest then .error .notCanonical
  else Scan.within (fun _ => 0) (· + ·)
    (mapFieldErr "block data" Head.fromCbor : Dec Error (Head × Bool)) c

def dataEndOf (head : Head) (offset : Nat) : Except Error Nat :=
  if ¬ (head.tags = [] ∨ head.tags = [24]) then .error .notCanonical
  else match head.marker with
    | .bytes (some len) =>
      if len + offset < wordSize then .ok (len + offset) else .error (ofCbor .tooBig)
    | .bytes none => .error .notCanonical
    | _ => .error (.invalidField "block data"
        (.invalidCBOR (.incorrectType "Definite-length Byte String" head.itemType)))

def fromCbor : Dec Error (BlockHeader × Bool) := do
  let count ← arrayHead
  let blockType ← parseField BlockType.fromCbor "block type"
  let number ← parseField u64 "block number"
  ensure (numberOk number blockType) (.invalidBlockNumber number blockType)
  let flags ← parseField BlockFlags.fromCbor "block flags"
  let crcType ← parseField CrcType.fromCbor "block crc type"
  ensure (countOk count crcType) (.invalidCBOR .additionalItems)
  let (head, s) ← dataHead
  ensure s (.invalidField "block data" .notCanonical)
  let offset ← Scan.look id
  let dataEnd ← verdict (dataEndOf head offset)
  pure (⟨count == 0x9F, number, blockType, flags, crcType, offset, dataEnd⟩, true)

end BlockHeader

/-! ## Emission -/

def Block.headItems (b : Block) (number : Nat) : List Bytes :=
  [b.blockType.toCbor, emitUint number, b.flags.toCbor, b.crcType.toCbor]

def Block.emitArray (b : Block) (number : Nat) (data : Bytes) : Bytes :=
  Cbor.emitArray (b.headItems number ++ emitBytes data ::
    if b.crcType = .none then [] else [[]])

def Block.dataRange (b : Block) (number : Nat) (data : Bytes) : Range :=
  let start := 1 + (b.headItems number).flatten.length + (emitUintMinor 2 data.length).length
  ⟨start, start + data.length⟩

/-- `Block::emit` and `BlockTemplate::build_to_vec`: the bytes of the block and
the block with its data range. -/
def Block.emit [Crates] (b : Block) (number : Nat) (data : Bytes) :
    Except CrcError (Block × Bytes) := do
  let bytes ← appendCrcValue b.crcType (b.emitArray number data)
  pure ({ b with data := b.dataRange number data }, bytes)

/-! ## Resumption -/

section

variable {ε α : Type} [FromCborError ε] [ErrorInto ε Error] {m : Dec ε (α × Bool)}

theorem parseField_resumes (hm : Resumes m) (hs : Starts m) (field : String) :
    Resumes (parseField m field) := by
  refine .bind (.within (fun st st' n h => ?_)
    (mapFieldErr_resumable field (untagged_resumes hm hs))) fun ⟨v, s⟩ => ?_
  · simp only [id] at h ⊢
    omega
  · dsimp only
    split
    · exact .pure v
    · exact .throw rfl

theorem parseField_starts (hs : Starts m) (field : String) : Starts (parseField m field) :=
  .bind (.within (.mapErr (fun x => by rw [needMore_invalidField, needMore_into])
    (untagged_starts hs))) _

theorem parseField_yields {P : α → Prop} (hm : Scan.Yields m fun p => P p.1) (field : String) :
    Scan.Yields (parseField m field) P := by
  refine (Scan.Yields.within (.mapErr _ (untagged_yields hm))).bind fun ⟨v, s⟩ hv => ?_
  dsimp only
  split
  · exact .pure hv
  · exact .throw _

theorem parseField_ok {field : String} {st : Nat} {d : Bytes} {a : α} {c : Cursor UInt8 Nat}
    (h : parseField m field ⟨st, d⟩ = .ok (a, c)) :
    ∃ n, m ⟨0, d⟩ = .ok ((a, true), ⟨n, c.rest⟩) ∧ c.st = st + n := by
  obtain ⟨⟨v, s⟩, c₁, hw, hr⟩ := Scan.bind_ok h
  obtain ⟨n, hm, hst⟩ := Scan.within_ok.mp hw
  cases s with
  | false => cases hr
  | true =>
    cases hr
    have hm' := Scan.mapErr_ok.mp hm
    cases d with
    | nil => exact ⟨n, hm', hst⟩
    | cons b d =>
      rw [untagged, Scan.onNext_cons] at hm'
      split at hm'
      · cases hm'
      · exact ⟨n, hm', hst⟩

theorem parseField_reads {e : Bytes} {a : α} (h : Reads m e (a, true)) (he : Plain e)
    (field : String) (st : Nat) (r : Bytes) :
    parseField m field ⟨st, e ++ r⟩ = .ok (a, ⟨st + e.length, r⟩) := by
  have hread : Scan.within (fun _ => 0) (· + ·)
      (mapFieldErr field (untagged m) : Dec Error (α × Bool)) ⟨st, e ++ r⟩ =
      .ok ((a, true), ⟨st + e.length, r⟩) :=
    Scan.within_ok.mpr ⟨e.length, mapFieldErr_ok (h.untagged he r), rfl⟩
  rw [parseField, Scan.bind_eq_of_ok hread]
  rfl

end

namespace BlockHeader

theorem slowBlockArrayError_resumes {α : Type} : Resumes (slowBlockArrayError : Dec Error α) := by
  refine .bind (.mapErr (fun _ => rfl) head_resumes) fun ⟨head, _⟩ => .throw ?_
  split
  · split <;> rfl
  · rfl

theorem slowBlockArrayError_starts {α : Type} : Starts (slowBlockArrayError : Dec Error α) :=
  .bind (.mapErr (f := Error.invalidCBOR) (fun _ => rfl) head_starts) _

theorem arrayHead_resumes : Resumes arrayHead :=
  .onNext byte_resumes.lift (byte_resumes.lift.eats byte_starts.lift) slowBlockArrayError_resumes
    slowBlockArrayError_starts

theorem arrayHead_starts : Starts arrayHead := fun st => slowBlockArrayError_starts st

theorem badTag_append {d : Bytes} (h : badTag d = true) (r : Bytes) : badTag (d ++ r) = true := by
  match d with
  | [] => cases h
  | [a] =>
    simp only [badTag, List.getElem?_nil, Bool.or_false, Bool.and_eq_true] at h
    simp [badTag, h]
  | [a, b] =>
    simp only [badTag, List.getElem?_cons_zero, List.getElem?_cons_succ, List.getElem?_nil,
      Bool.or_false, Bool.and_eq_true] at h
    simp only [badTag, List.cons_append, List.getElem?_cons_zero, h.1, h.2, Bool.true_or,
      Bool.and_self]
  | a :: b :: c :: d => simpa [badTag] using h

theorem head_waits_tag (st : Nat) :
    Head.fromCbor ⟨st, [0xD8]⟩ = .error (.needMoreData 1) ∧
      Head.fromCbor ⟨st, [0xD8, 0x18]⟩ = .error (.needMoreData 1) := by
  rw [Head.fromCbor_eq]
  exact ⟨rfl, rfl⟩

theorem badTag_of_not_tag {a : UInt8} (h : isTag a = false) (d : Bytes) :
    badTag (a :: d) = false := by
  simp [badTag, h]

theorem badTag_grows {d r : Bytes} (h : ¬ badTag d = true) (h' : badTag (d ++ r) = true) :
    d = [] ∨ d = [0xD8] ∨ d = [0xD8, 0x18] := by
  match d with
  | [] => exact .inl rfl
  | [a] =>
    have htag : isTag a = true := by
      simp only [badTag, List.cons_append, Bool.and_eq_true] at h'
      exact h'.1
    have : a = 0xD8 := by simpa [badTag, htag] using h
    exact .inr (.inl (by rw [this]))
  | [a, b] =>
    have htag : isTag a = true := by
      simp only [badTag, List.cons_append, Bool.and_eq_true] at h'
      exact h'.1
    have : a = 0xD8 ∧ b = 0x18 := by simpa [badTag, htag] using h
    exact .inr (.inr (by rw [this.1, this.2]))
  | a :: b :: c :: d => exact absurd h' h

/-- The guard looks no further than the head it guards. -/
theorem dataHead_resumes : Resumes dataHead := by
  have hm : Resumes (Scan.within (fun _ => 0) (· + ·)
      (mapFieldErr "block data" Head.fromCbor : Dec Error (Head × Bool))) := by
    refine .within (fun st st' n h => ?_) (mapFieldErr_resumable _ head_resumes)
    simp only [id] at h ⊢
    omega
  have hshort : ∀ {d}, d = [] ∨ d = [0xD8] ∨ d = [0xD8, 0x18] → ∀ st : Nat,
      ∃ x, (Scan.within (fun _ => 0) (· + ·)
        (mapFieldErr "block data" Head.fromCbor : Dec Error (Head × Bool))) ⟨st, d⟩ = .error x ∧
        needMore x = some 1 := by
    intro d hd st
    obtain ⟨y, hy, hs⟩ : ∃ y, Head.fromCbor ⟨0, d⟩ = .error y ∧ y.short = some 1 := by
      rcases hd with rfl | rfl | rfl
      · exact head_starts 0
      · exact ⟨_, (head_waits_tag 0).1, rfl⟩
      · exact ⟨_, (head_waits_tag 0).2, rfl⟩
    refine ⟨_, Scan.within_error.mpr (Scan.mapErr_error.mpr ⟨y, hy, rfl⟩), ?_⟩
    rw [needMore_invalidField, needMore_into]
    exact hs
  refine ⟨⟨fun {st d a c} h => ?_, fun {st d x} h hx r => ?_, fun {st d x k} h hk => ?_⟩,
    fun st d => ?_⟩
  · rw [dataHead] at h
    split at h
    · cases h
    · next hb =>
        obtain ⟨u, hd, hpos, hu⟩ := hm.stepwise.ok h
        refine ⟨u, hd, hpos, fun r => ?_⟩
        have hbad : ¬ badTag (u ++ r) = true := by
          intro hbad
          have hu' : ¬ badTag u = true := fun h' => hb (hd ▸ badTag_append h' c.rest)
          -- the head was complete, so the guard cannot fire later
          obtain ⟨x, hx, -⟩ := hshort (badTag_grows hu' hbad) st
          have hok := hu []
          rw [List.append_nil, hx] at hok
          cases hok
        rw [dataHead, if_neg hbad]
        exact hu r
  · rw [dataHead] at h ⊢
    split at h
    · next hb =>
        rw [if_pos (badTag_append hb r)]
        exact h
    · next hb =>
        have hbad : ¬ badTag (d ++ r) = true := by
          intro hbad
          obtain ⟨y, hy, hs⟩ := hshort (badTag_grows hb hbad) st
          rw [h] at hy
          cases hy
          rw [hx] at hs
          cases hs
        rw [if_neg hbad]
        exact hm.stepwise.hard h hx r
  · rw [dataHead] at h
    split at h
    · cases h
      cases hk
    · next hb =>
        obtain ⟨hpos, hw⟩ := hm.stepwise.wait h hk
        refine ⟨hpos, fun r hr => ?_⟩
        have hbad : ¬ badTag (d ++ r) = true := by
          intro hbad
          obtain ⟨y, hy, hs⟩ := hshort (badTag_grows hb hbad) st
          rw [h] at hy
          cases hy
          rw [hk] at hs
          cases hs
          rw [List.length_eq_zero_iff.mp (Nat.lt_one_iff.mp hr), List.append_nil] at hbad
          exact hb hbad
        rw [dataHead, if_neg hbad]
        exact hw r hr
  · obtain ⟨r, hr⟩ := hm.settles st d
    refine ⟨r, ?_⟩
    rw [dataHead]
    split
    · exact Scan.not_waits_error rfl
    · exact hr

theorem dataEndOf_needMore {head : Head} {offset : Nat} {x : Error}
    (h : dataEndOf head offset = .error x) : needMore x = none := by
  unfold dataEndOf at h
  repeat' split at h
  all_goals cases h
  all_goals rfl

theorem fromCbor_resumes : Resumes fromCbor := by
  have hnew : ∀ {α : Type} (f : Nat → α) (field : String),
      Resumes (parseField (newtype f Error.notCanonical) field) :=
    fun f => parseField_resumes (newtype_resumes f rfl) (newtype_starts f _)
  refine arrayHead_resumes.bind fun count => (hnew _ _).bind fun blockType =>
    (parseField_resumes u64_resumes u64_starts _).bind fun number =>
    (ensure_resumable _ rfl).bind fun _ => (hnew _ _).bind fun flags =>
    (hnew _ _).bind fun crcType => (ensure_resumable _ rfl).bind fun _ =>
    dataHead_resumes.bind fun ⟨head, s⟩ => (ensure_resumable _ rfl).bind fun _ =>
    .bind (.look id) fun offset => ?_
  exact (verdict_resumable fun _ => dataEndOf_needMore).map _

theorem fromCbor_starts : Starts fromCbor := .bind arrayHead_starts _

/-! ## What a header says -/

/-- The facts about a header that the parser relies on. -/
structure WellFormed (h : BlockHeader) : Prop where
  number_lt : h.number < wordSize
  numberOk : numberOk h.number h.blockType = true
  blockType : h.blockType.Canonical
  flags : h.flags.Canonical
  crcType_code : h.crcType.code < wordSize
  start_le : h.dataStart ≤ h.dataEnd
  end_lt : h.dataEnd < wordSize

theorem dataEndOf_ok {head : Head} {offset e : Nat} (h : dataEndOf head offset = .ok e) :
    offset ≤ e ∧ e < wordSize := by
  unfold dataEndOf at h
  repeat' split at h
  all_goals cases h
  exact ⟨Nat.le_add_left _ _, ‹_›⟩

end BlockHeader

theorem BlockType.ofCode_canonical {v : Nat} (hv : v < wordSize) : (ofCode v).Canonical :=
  ⟨congrArg ofCode (code_ofCode v), (code_ofCode v).symm ▸ hv⟩

theorem BlockFlags.ofWord_canonical {v : Nat} (hv : v < wordSize) : (ofWord v).Canonical :=
  restOk_unrecognisedOf hv

theorem CrcType.code_ofCode (v : Nat) : (ofCode v).code = v := by
  unfold ofCode
  split <;> rfl

namespace BlockHeader

theorem fromCbor_yields : Scan.Yields fromCbor fun p => p.1.WellFormed := by
  have htype : Scan.Yields (parseField BlockType.fromCbor "block type") BlockType.Canonical :=
    parseField_yields (newtype_yields (fun _ => BlockType.ofCode_canonical) _) _
  have hflags : Scan.Yields (parseField BlockFlags.fromCbor "block flags")
      BlockFlags.Canonical :=
    parseField_yields (newtype_yields (fun _ => BlockFlags.ofWord_canonical) _) _
  have hcrc : Scan.Yields (parseField CrcType.fromCbor "block crc type")
      fun t => t.code < wordSize :=
    parseField_yields (newtype_yields (fun v hv => (CrcType.code_ofCode v).symm ▸ hv) _) _
  have hnumber : Scan.Yields (parseField u64 "block number") (· < wordSize) :=
    parseField_yields u64_yields _
  refine .of_bind fun count => htype.bind fun blockType ht => hnumber.bind fun number hn =>
    (ensure_yields _ _).bind fun _ hok => hflags.bind fun flags hf =>
    hcrc.bind fun crcType hc => .of_bind fun _ => .of_bind fun ⟨head, s⟩ =>
    .of_bind fun _ => .of_bind fun offset => ?_
  generalize hd : dataEndOf head offset = r
  rcases r with x | dataEnd
  · exact fun _ _ _ h => by cases h
  · obtain ⟨hle, hlt⟩ := dataEndOf_ok hd
    exact .pure ⟨hn, hok, ht, hf, hc, hle, hlt⟩

theorem dataStart_eq {c c' : Cursor UInt8 Nat} {h : BlockHeader} {s : Bool}
    (hr : fromCbor c = .ok ((h, s), c')) : h.dataStart = c'.st ∧ s = true := by
  obtain ⟨_, c₁, -, hr⟩ := Scan.bind_ok hr
  obtain ⟨_, c₂, -, hr⟩ := Scan.bind_ok hr
  obtain ⟨_, c₃, -, hr⟩ := Scan.bind_ok hr
  obtain ⟨_, c₄, -, hr⟩ := Scan.bind_ok hr
  obtain ⟨_, c₅, -, hr⟩ := Scan.bind_ok hr
  obtain ⟨_, c₆, -, hr⟩ := Scan.bind_ok hr
  obtain ⟨_, c₇, -, hr⟩ := Scan.bind_ok hr
  obtain ⟨⟨head, s⟩, c₈, -, hr⟩ := Scan.bind_ok hr
  obtain ⟨_, c₉, -, hr⟩ := Scan.bind_ok hr
  obtain ⟨offset, c₁₀, hoff, hr⟩ := Scan.bind_ok hr
  obtain ⟨rfl, rfl⟩ := Prod.mk.inj (Except.ok.inj hoff)
  obtain ⟨dataEnd, c₁₁, hv, hr⟩ := Scan.bind_ok hr
  obtain ⟨h₁, rfl⟩ := Prod.mk.inj (Except.ok.inj hr)
  obtain ⟨rfl, rfl⟩ := Prod.mk.inj h₁
  rcases hd : dataEndOf head (id c₉.st) with x | e
  · rw [hd] at hv
    cases hv
  · rw [hd] at hv
    obtain ⟨-, rfl⟩ := Prod.mk.inj (Except.ok.inj hv)
    exact ⟨rfl, rfl⟩

end BlockHeader

/-! ## Reading back an emitted block -/

def Block.headBytes (b : Block) (number len : Nat) : Bytes :=
  emitUintMinor 4 (if b.crcType = .none then 5 else 6) ++ (b.headItems number).flatten ++
    emitUintMinor 2 len

theorem Block.emitArray_eq (b : Block) (number : Nat) (data : Bytes) :
    b.emitArray number data = b.headBytes number data.length ++ data := by
  by_cases h : b.crcType = .none <;>
    simp [Block.emitArray, Block.headBytes, Block.headItems, Cbor.emitArray, emitBytes, h]

theorem Block.length_headBytes (b : Block) (number : Nat) (data : Bytes) :
    (b.headBytes number data.length).length = (b.dataRange number data).start := by
  have hhead : (emitUintMinor 4 (if b.crcType = .none then 5 else 6)).length = 1 := by
    split <;> rfl
  simp only [Block.headBytes, Block.dataRange, List.length_append, hhead]

/-- Blocks that an emitter may write under a number. -/
structure Block.Emittable (b : Block) (number : Nat) : Prop where
  number_lt : number < wordSize
  numberOk : BlockHeader.numberOk number b.blockType = true
  blockType : b.blockType.Canonical
  flags : b.flags.Canonical
  crcType : b.crcType.isRecognised = true

/-- The header the parser finds in front of an emitted block. -/
def Block.header (b : Block) (number : Nat) (data : Bytes) : BlockHeader where
  isIndefinite := false
  number := number
  blockType := b.blockType
  flags := b.flags
  crcType := b.crcType
  dataStart := (b.dataRange number data).start
  dataEnd := (b.dataRange number data).stop

theorem newtype_parseField_reads {α : Type} {f : Nat → α} {a : α} {v : Nat}
    (hv : v < wordSize) (ha : f v = a) (field : String) (st : Nat) (r : Bytes) :
    parseField (newtype f Error.notCanonical) field ⟨st, emitUint v ++ r⟩ =
      .ok (a, ⟨st + (emitUint v).length, r⟩) :=
  ha ▸ parseField_reads (newtype_reads hv _) (emitUint_plain v) field st r

theorem BlockHeader.badTag_plain {e : Bytes} (he : Plain e) (r : Bytes) :
    badTag (e ++ r) = false := by
  obtain ⟨b, tail, rfl, hb, -⟩ := he
  exact badTag_of_not_tag hb _

theorem BlockHeader.dataHead_reads {len st : Nat} (hlen : len < wordSize) (r : Bytes) :
    dataHead ⟨st, emitUintMinor 2 len ++ r⟩ =
      .ok ((⟨[], .bytes (some len)⟩, true), ⟨st + (emitUintMinor 2 len).length, r⟩) := by
  have hplain : Plain (emitUintMinor 2 len) := by
    simpa using emitUintMinor_plain (show 2 ≤ 5 by decide) len []
  have hhead := head_emit (show 2 ≤ 5 by decide) hlen 0 r
  rw [Nat.zero_add] at hhead
  rw [dataHead, if_neg (by rw [badTag_plain hplain]; exact Bool.false_ne_true)]
  exact Scan.within_ok.mpr ⟨_, mapFieldErr_ok hhead, rfl⟩

theorem BlockHeader.arrayHead_reads (b : Block) (st : Nat) (r : Bytes) :
    arrayHead ⟨st, emitUintMinor 4 (if b.crcType = .none then 5 else 6) ++ r⟩ =
      .ok (if b.crcType = .none then 0x85 else 0x86, ⟨st + 1, r⟩) := by
  by_cases h : b.crcType = .none
  · rw [if_pos h, if_pos h]
    rfl
  · rw [if_neg h, if_neg h]
    rfl

theorem Block.reads_header {b : Block} {number : Nat} (hb : b.Emittable number) (data : Bytes)
    (hlen : (b.dataRange number data).stop < wordSize) :
    Reads BlockHeader.fromCbor (b.headBytes number data.length) (b.header number data, true) := by
  intro r
  have hstop : (b.dataRange number data).stop =
      (b.dataRange number data).start + data.length := rfl
  have hdata : data.length < wordSize := by omega
  have hcount : BlockHeader.countOk (if b.crcType = .none then 0x85 else 0x86) b.crcType =
      true := by
    by_cases h : b.crcType = .none
    · rw [if_pos h, h]
      rfl
    · rw [if_neg h]
      simpa [BlockHeader.countOk] using h
  have hindef : ((if b.crcType = .none then 0x85 else 0x86 : UInt8) == 0x9F) = false := by
    by_cases h : b.crcType = .none
    · rw [if_pos h]
      rfl
    · rw [if_neg h]
      rfl
  have hflat : (b.headItems number).flatten = emitUint b.blockType.code ++ (emitUint number ++
      (emitUint b.flags.word ++ emitUint b.crcType.code)) := by
    simp [Block.headItems, BlockType.toCbor, BlockFlags.toCbor, CrcType.toCbor]
  have hlast : 0 + 1 + (emitUint b.blockType.code).length + (emitUint number).length +
      (emitUint b.flags.word).length + (emitUint b.crcType.code).length +
      (emitUintMinor 2 data.length).length = (b.dataRange number data).start := by
    simp only [Block.dataRange, hflat, List.length_append]
    omega
  have hend : BlockHeader.dataEndOf ⟨[], .bytes (some data.length)⟩
      (b.dataRange number data).start = .ok (b.dataRange number data).stop := by
    rw [hstop, Nat.add_comm] at hlen
    rw [BlockHeader.dataEndOf, if_neg (by simp), hstop, Nat.add_comm]
    exact if_pos hlen
  rw [Block.length_headBytes, Block.headBytes, hflat]
  simp only [List.append_assoc]
  rw [BlockHeader.fromCbor, Scan.bind_eq_of_ok (BlockHeader.arrayHead_reads b 0 _),
    BlockType.fromCbor, BlockFlags.fromCbor, CrcType.fromCbor,
    Scan.bind_eq_of_ok (newtype_parseField_reads hb.blockType.2 hb.blockType.1 _ _ _),
    Scan.bind_eq_of_ok (parseField_reads (u64_reads hb.number_lt) (emitUint_plain _) _ _ _),
    ensure, if_pos hb.numberOk, pure_bind,
    Scan.bind_eq_of_ok (newtype_parseField_reads (BlockFlags.word_lt hb.flags)
      (BlockFlags.ofWord_word hb.flags) _ _ _),
    Scan.bind_eq_of_ok (newtype_parseField_reads (CrcType.code_lt hb.crcType)
      (CrcType.ofCode_code hb.crcType) _ _ _), ensure, if_pos hcount, pure_bind,
    Scan.bind_eq_of_ok (BlockHeader.dataHead_reads hdata _)]
  dsimp only
  rw [ensure, if_pos rfl, pure_bind, Scan.bind_apply, Scan.look]
  dsimp only [id]
  rw [hlast, hend, hindef]
  rfl

end Hardy
