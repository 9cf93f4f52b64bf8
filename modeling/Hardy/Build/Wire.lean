import Hardy.Parse.Push

/-!
# Bundles put together from blocks

A `Wire` is the bytes of one block together with what the parser reads off
them, at any place in a bundle.  A primary block followed by wires, the last
of them a payload block, is a bundle (`completes_of_wires`), and the index of
that bundle is the one the wires say.
-/

namespace Hardy

open Cbor Bpsec

structure Wire [Crates] where
  header : BlockHeader
  head : Bytes
  body : Bytes
  crc : Bytes
  reads : ∀ st r, parseField BlockHeader.fromCbor "block" ⟨st, head ++ r⟩ =
    .ok (header, ⟨st + head.length, r⟩)
  plain : head.head?.any isBreak = false
  dataEnd : header.dataEnd = head.length + body.length
  trailer : TrailerOk header.crcType header.isIndefinite (head ++ body) crc

namespace Wire

variable [Crates]

def bytes (x : Wire) : Bytes :=
  x.head ++ (x.body ++ trailerBytes x.header.crcType x.header.isIndefinite x.crc)

theorem dataStart (x : Wire) : x.header.dataStart = x.head.length := by
  obtain ⟨n, hm, hn⟩ := parseField_ok (x.reads 0 [])
  rw [(BlockHeader.dataStart_eq hm).1]
  exact (Nat.zero_add _).symm.trans (hn.symm.trans (Nat.zero_add _))

theorem head_ne (x : Wire) : x.head ≠ [] := by
  intro h
  obtain ⟨y, hy, -⟩ := parseField_starts BlockHeader.fromCbor_starts "block" 0
  have := x.reads 0 []
  rw [h] at this
  cases hy.symm.trans this

theorem extentEnd_eq (x : Wire) (start : Nat) :
    x.header.extentEnd start = start + x.bytes.length := by
  simp only [BlockHeader.extentEnd, x.dataEnd, bytes, List.length_append,
    length_trailerBytes x.trailer]
  omega

theorem bytes_pos (x : Wire) : 0 < x.bytes.length := by
  have := List.length_pos_iff.mpr x.head_ne
  simp only [bytes, List.length_append]
  omega

/-! ## One block -/

section

variable {w : Walk} {bundle : Bundle} {st : Nat}

theorem blockHead_eq (x : Wire) (ha : Admits w bundle st x.header) (r : Bytes) :
    blockHead w bundle ⟨st, x.bytes ++ r⟩ = .ok ((x.header, x.head), ⟨st + x.head.length,
      x.body ++ (trailerBytes x.header.crcType x.header.isIndefinite x.crc ++ r)⟩) := by
  have hbytes : x.bytes ++ r = x.head ++ (x.body ++
      (trailerBytes x.header.crcType x.header.isIndefinite x.crc ++ r)) := by
    simp only [bytes, List.append_assoc]
  refine blockHead_ok.mpr ⟨?_, ?_, hbytes, ha⟩
  · rw [hbytes, List.head?_append_of_ne_nil _ x.head_ne]
    exact x.plain
  · rw [hbytes]
    exact x.reads st _

theorem blockBody_eq (x : Wire) (st : Nat) (r : Bytes) :
    blockBody x.header x.head ⟨st, x.body ++
      (trailerBytes x.header.crcType x.header.isIndefinite x.crc ++ r)⟩ = .ok (x.body, ⟨st +
        x.body.length + trailerByteLen x.header.crcType x.header.isIndefinite, r⟩) := by
  refine blockBody_ok.mpr ⟨?_, x.crc, x.trailer, rfl, rfl⟩
  rw [x.dataEnd, x.dataStart, Nat.add_sub_cancel_left]

theorem advances [HashOrder] (x : Wire) (hw : w.state = .blocks bundle)
    (ht : x.header.blockType ≠ .payload) (ha : Admits w bundle st x.header) {ops : Option BcbSet}
    (hops : bcbOps x.header x.body = .ok ops) (r : Bytes) :
    Advances w ⟨st, x.bytes ++ r⟩ (w.record bundle x.header st ops) ⟨st + x.bytes.length, r⟩ := by
  refine .block hw (x.blockHead_eq ha r) ht ?_
  have hb := x.blockBody_eq (st + x.head.length) r
  have hst : st + x.head.length + x.body.length +
      trailerByteLen x.header.crcType x.header.isIndefinite = st + x.bytes.length := by
    simp only [bytes, List.length_append, length_trailerBytes x.trailer]
    omega
  rw [hst] at hb
  exact parseExtension_ok.mpr ⟨x.body, ops, hb, hops, rfl⟩

theorem payloadAt (x : Wire) (hw : w.state = .blocks bundle)
    (ht : x.header.blockType = .payload) (ha : Admits w bundle st x.header) :
    PayloadAt w ⟨st, x.bytes ++ [0xFF]⟩ (w.finished bundle x.header st) := by
  refine ⟨bundle, x.header, x.head, _, hw, x.blockHead_eq ha [0xFF], ht, ?_, rfl⟩
  refine ⟨x.body, x.crc, ?_, x.trailer, rfl⟩
  rw [x.dataEnd, x.dataStart, Nat.add_sub_cancel_left]

end

end Wire

/-! ## A list of blocks -/

def Bundle.add (bundle : Bundle) (header : BlockHeader) (start : Nat) : Bundle :=
  ⟨bundle.primary, bundle.blocks.insert header.number (header.block start)⟩

section

variable [Crates]

def wireBytes (l : List Wire) : Bytes := (l.map Wire.bytes).flatten

@[simp] theorem wireBytes_nil : wireBytes [] = [] := rfl

@[simp] theorem wireBytes_cons (x : Wire) (l : List Wire) :
    wireBytes (x :: l) = x.bytes ++ wireBytes l := rfl

theorem wireBytes_append (l l' : List Wire) :
    wireBytes (l ++ l') = wireBytes l ++ wireBytes l' := by
  simp [wireBytes]

/-- A bundle with the blocks of wires, the first of them at `start`. -/
def Bundle.addAll (bundle : Bundle) : Nat → List Wire → Bundle
  | _, [] => bundle
  | start, x :: l => (bundle.add x.header start).addAll (start + x.bytes.length) l

def Walk.recordAll (w : Walk) (bundle : Bundle) : Nat → List (Wire × Option BcbSet) → Walk
  | _, [] => w
  | start, (x, ops) :: l =>
    (w.record bundle x.header start ops).recordAll (bundle.add x.header start)
      (start + x.bytes.length) l

theorem Bundle.addAll_primary (bundle : Bundle) (start : Nat) (l : List Wire) :
    (bundle.addAll start l).primary = bundle.primary := by
  induction l generalizing bundle start with
  | nil => rfl
  | cons x l ih => exact ih _ _

theorem Bundle.addAll_append (bundle : Bundle) (start : Nat) (l l' : List Wire) :
    bundle.addAll start (l ++ l') =
      (bundle.addAll start l).addAll (start + (wireBytes l).length) l' := by
  induction l generalizing bundle start with
  | nil => rfl
  | cons x l ih =>
    rw [List.cons_append, addAll, ih, addAll, wireBytes_cons, List.length_append, Nat.add_assoc]

variable {bundle : Bundle}

theorem Walk.recordAll_state {w : Walk} (hw : w.state = .blocks bundle)
    (start : Nat) (l : List (Wire × Option BcbSet)) :
    (w.recordAll bundle start l).state = .blocks (bundle.addAll start (l.map Prod.fst)) := by
  induction l generalizing w bundle start with
  | nil => exact hw
  | cons e l ih => exact ih rfl _

theorem Bundle.addAll_other {start n : Nat} {l : List Wire} (h : ∀ x ∈ l, x.header.number ≠ n) :
    (bundle.addAll start l).blocks[n]? = bundle.blocks[n]? := by
  induction l generalizing bundle start with
  | nil => rfl
  | cons x l ih =>
    rw [addAll, ih fun y hy => h y (List.mem_cons_of_mem _ hy), add, HashMap.getElem?_insert]
    exact if_neg (h x List.mem_cons_self).symm

theorem Wire.payload_block (x : Wire) (pre post : Bytes) :
    (x.header.block pre.length).payload (pre ++ (x.bytes ++ post)) = some x.body := by
  have hsplit : pre ++ (x.bytes ++ post) = pre ++ x.head ++ x.body ++
      (trailerBytes x.header.crcType x.header.isIndefinite x.crc ++ post) := by
    simp only [Wire.bytes, List.append_assoc]
  have hrange : (x.header.block pre.length).payloadRange =
      ⟨(pre ++ x.head).length, (pre ++ x.head).length + x.body.length⟩ := by
    simp only [Block.payloadRange, BlockHeader.block, x.dataStart, x.dataEnd, List.length_append,
      Nat.add_assoc]
  rw [Block.payload, hrange, hsplit]
  dsimp only
  rw [Range.slice_mid, if_pos]
  simp only [List.length_append]
  omega

theorem Bundle.addAll_payload (bundle : Bundle) {l : List Wire} {x : Wire}
    (hnum : l.Pairwise fun x y => y.header.number ≠ x.header.number) (hx : x ∈ l) (pre post : Bytes) :
    ∃ block, (bundle.addAll pre.length l).blocks[x.header.number]? = some block ∧
      block.payload (pre ++ (wireBytes l ++ post)) = some x.body := by
  induction l generalizing bundle pre with
  | nil => cases hx
  | cons y l ih =>
    obtain ⟨hy, hl⟩ := List.pairwise_cons.mp hnum
    rw [addAll, wireBytes_cons, List.append_assoc]
    rcases List.mem_cons.mp hx with rfl | hx
    · refine ⟨_, ?_, x.payload_block pre _⟩
      rw [addAll_other hy, add, HashMap.getElem?_insert]
      exact if_pos rfl
    · have := ih (bundle.add y.header pre.length) hl hx (pre ++ y.bytes)
      rw [List.length_append, List.append_assoc] at this
      exact this

/-- The conditions on the headers of wires that follow one another. -/
structure Admissible (bundle : Bundle) (seen : List BlockType) (l : List Wire) : Prop where
  unseen : ∀ x ∈ l, x.header.blockType.isUnique = true → x.header.blockType ∉ seen
  types : l.Pairwise fun x y => x.header.blockType.isUnique = true →
    y.header.blockType ≠ x.header.blockType
  fresh : ∀ x ∈ l, bundle.blocks.contains x.header.number = false
  numbers : l.Pairwise fun x y => y.header.number ≠ x.header.number
  report : bundle.primary.flags.isAdminRecord = true ∨ bundle.primary.id.source.isNull = true →
    ∀ x ∈ l, x.header.flags.reportOnFailure = false

theorem Admissible.head {w : Walk} {x : Wire} {l : List Wire}
    (h : Admissible bundle w.uniqueBlocks (x :: l)) {start : Nat}
    (hlen : start + x.bytes.length < wordSize) : Admits w bundle start x.header := by
  refine ⟨h.unseen x List.mem_cons_self, h.fresh x List.mem_cons_self,
    fun hp => h.report hp x List.mem_cons_self, ?_, ?_⟩
  · have := x.extentEnd_eq start
    simp only [BlockHeader.extentEnd] at this
    omega
  · rw [x.extentEnd_eq]
    exact hlen

theorem Admissible.tail {w : Walk} {x : Wire} {l : List Wire}
    (h : Admissible bundle w.uniqueBlocks (x :: l)) (start : Nat) (ops : Option BcbSet) :
    Admissible (bundle.add x.header start) (w.record bundle x.header start ops).uniqueBlocks l := by
  obtain ⟨htypes, hrest⟩ := List.pairwise_cons.mp h.types
  obtain ⟨hnum, hnums⟩ := List.pairwise_cons.mp h.numbers
  refine ⟨fun y hy hu => ?_, hrest, fun y hy => ?_, hnums,
    fun hp y hy => h.report hp y (List.mem_cons_of_mem _ hy)⟩
  · have hold := h.unseen y (List.mem_cons_of_mem _ hy) hu
    simp only [Walk.record]
    split
    · next hx =>
        intro hmem
        rcases List.mem_cons.mp hmem with heq | hmem
        · exact htypes y hy hx heq
        · exact hold hmem
    · exact hold
  · have hold := h.fresh y (List.mem_cons_of_mem _ hy)
    rw [← Bool.not_eq_true, Std.ExtTreeMap.contains_iff_mem, HashMap.mem_iff] at hold ⊢
    intro hmem
    obtain ⟨b, hb⟩ := hmem
    simp only [Bundle.add, HashMap.getElem?_insert] at hb
    rw [if_neg (hnum y hy)] at hb
    exact hold ⟨b, hb⟩

variable [HashOrder]

theorem rounds_of_wires {n : Nat} {w : Walk} {start : Nat}
    {l : List (Wire × Option BcbSet)} {l' : List Wire} (hw : w.state = .blocks bundle)
    (ha : Admissible bundle w.uniqueBlocks (l.map Prod.fst ++ l'))
    (ht : ∀ e ∈ l, e.1.header.blockType ≠ .payload)
    (hops : ∀ e ∈ l, bcbOps e.1.header e.1.body = .ok e.2)
    (hlen : start + (wireBytes (l.map Prod.fst)).length < wordSize) (r : Bytes) :
    Scan.Rounds (round n) (w, ⟨start, wireBytes (l.map Prod.fst) ++ r⟩)
        (w.recordAll bundle start l, ⟨start + (wireBytes (l.map Prod.fst)).length, r⟩) ∧
      Admissible (bundle.addAll start (l.map Prod.fst)) (w.recordAll bundle start l).uniqueBlocks
        l' := by
  induction l generalizing w bundle start with
  | nil => exact ⟨.refl, ha⟩
  | cons e l ih =>
    obtain ⟨x, ops⟩ := e
    simp only [List.map_cons, wireBytes_cons, List.length_append, List.cons_append,
      List.append_assoc] at ha hlen ⊢
    have hlen₁ : start + x.bytes.length + (wireBytes (l.map Prod.fst)).length < wordSize := by
      omega
    have hfirst : start + x.bytes.length < wordSize := by
      omega
    have hadv := x.advances hw (ht _ List.mem_cons_self) (ha.head hfirst)
      (hops _ List.mem_cons_self) (wireBytes (l.map Prod.fst) ++ r)
    have hstate : (w.record bundle x.header start ops).state =
      .blocks (bundle.add x.header start) := rfl
    obtain ⟨hr, hrest⟩ := ih hstate (ha.tail start ops)
      (fun e he => ht e (List.mem_cons_of_mem _ he))
      (fun e he => hops e (List.mem_cons_of_mem _ he)) hlen₁
    refine ⟨.head (hadv.round n) ?_, hrest⟩
    rw [← Nat.add_assoc]
    exact hr

def bundleBytes (primary : Bytes) (l : List Wire) : Bytes :=
  0x9F :: (primary ++ (wireBytes l ++ [0xFF]))

/-- A primary block and wires, the last of them the payload block, are a
bundle. -/
theorem completes_of_wires {primary : PrimaryBlock} {pb : Bytes}
    {l : List (Wire × Option BcbSet)} {payload : Wire}
    (hp : ∀ st r, parseField PrimaryBlock.fromCbor "primary block" ⟨st, pb ++ r⟩ =
      .ok (primary, ⟨st + pb.length, r⟩))
    (hflags : primary.flagsOk = true)
    (ha : Admissible (primaryBundle primary 1 (1 + pb.length)) [] (l.map Prod.fst ++ [payload]))
    (ht : ∀ e ∈ l, e.1.header.blockType ≠ .payload) (hpay : payload.header.blockType = .payload)
    (hops : ∀ e ∈ l, bcbOps e.1.header e.1.body = .ok e.2)
    (hlen : (bundleBytes pb (l.map Prod.fst ++ [payload])).length ≤ wordSize) :
    Completes (bundleBytes pb (l.map Prod.fst ++ [payload]))
      ((({ state := .blocks (primaryBundle primary 1 (1 + pb.length)) } : Walk).recordAll
        (primaryBundle primary 1 (1 + pb.length)) (1 + pb.length) l).finished
        ((primaryBundle primary 1 (1 + pb.length)).addAll (1 + pb.length) (l.map Prod.fst))
        payload.header (1 + pb.length + (wireBytes (l.map Prod.fst)).length)) := by
  have hsplit : bundleBytes pb (l.map Prod.fst ++ [payload]) =
      0x9F :: (pb ++ (wireBytes (l.map Prod.fst) ++ (payload.bytes ++ [0xFF]))) := by
    simp [bundleBytes, wireBytes_append]
  have htotal := congrArg List.length hsplit
  simp only [List.length_cons, List.length_append, List.length_nil] at htotal
  have hpos := payload.bytes_pos
  have hstart : Advances ({} : Walk) ⟨0, bundleBytes pb (l.map Prod.fst ++ [payload])⟩
      { state := .primaryBlock } ⟨1, pb ++ (wireBytes (l.map Prod.fst) ++ (payload.bytes ++ [0xFF]))⟩ :=
    .start rfl (parseStart_ok.mpr ⟨hsplit, rfl⟩)
  have hprimary : Advances ({ state := .primaryBlock } : Walk)
      ⟨1, pb ++ (wireBytes (l.map Prod.fst) ++ (payload.bytes ++ [0xFF]))⟩
      { state := .blocks (primaryBundle primary 1 (1 + pb.length)) }
      ⟨1 + pb.length, wireBytes (l.map Prod.fst) ++ (payload.bytes ++ [0xFF])⟩ :=
    .primary rfl (parsePrimary_ok.mpr ⟨primary, hp 1 _, hflags, rfl⟩)
  have hend : 1 + pb.length + (wireBytes (l.map Prod.fst)).length < wordSize := by
    omega
  obtain ⟨hr, hlast⟩ := rounds_of_wires (n := 0)
    (w := { state := .blocks (primaryBundle primary 1 (1 + pb.length)) }) rfl ha ht hops hend
    (payload.bytes ++ [0xFF])
  have hstate := Walk.recordAll_state
    (w := { state := .blocks (primaryBundle primary 1 (1 + pb.length)) }) rfl (1 + pb.length) l
  refine ⟨_, _, .head (hstart.round 0) (.head (hprimary.round 0) hr), ?_⟩
  exact payload.payloadAt hstate hpay (hlast.head (by omega))

end

end Hardy
