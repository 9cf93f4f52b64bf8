import Hardy.Build.Wire
import Hardy.Parse.Coverage

/-!
# Bundles are made of wires

The converse of `completes_of_wires`: the bytes of every bundle that the
parser takes are a primary block followed by wires, the last of them the
payload block.
-/

namespace Hardy

open Cbor Bpsec

variable [Crates]

/-! ## Fields at any place -/

section

variable {ε α : Type} [FromCborError ε] [ErrorInto ε Error] {m : Dec ε (α × Bool)}

omit [Crates] in
theorem parseField_moved {field : String} {st : Nat} {d : Bytes} {a : α} {c : Cursor UInt8 Nat}
    (h : parseField m field ⟨st, d⟩ = .ok (a, c)) (st' : Nat) :
    ∃ n, c.st = st + n ∧ parseField m field ⟨st', d⟩ = .ok (a, ⟨st' + n, c.rest⟩) := by
  obtain ⟨⟨v, s⟩, c₁, hw, hr⟩ := Scan.bind_ok h
  obtain ⟨n, hm, hst⟩ := Scan.within_ok.mp hw
  have hw' : Scan.within (fun _ => 0) (· + ·) (mapFieldErr field (untagged m) : Dec Error (α × Bool))
      ⟨st', d⟩ = .ok ((v, s), ⟨st' + n, c₁.rest⟩) := Scan.within_ok.mpr ⟨n, hm, rfl⟩
  cases s with
  | false => cases hr
  | true =>
    cases hr
    exact ⟨n, hst, Scan.bind_eq_of_ok hw' _⟩

omit [Crates] in
theorem parseField_anywhere (hm : Resumes m) (hs : Starts m) {field : String} {st : Nat}
    {d u : Bytes} {a : α} {c : Cursor UInt8 Nat} (h : parseField m field ⟨st, d⟩ = .ok (a, c))
    (hd : d = u ++ c.rest) (st' : Nat) (r : Bytes) :
    parseField m field ⟨st', u ++ r⟩ = .ok (a, ⟨st' + u.length, r⟩) := by
  obtain ⟨v, hv, hpos, hr⟩ := (parseField_resumes hm hs field).stepwise.ok h
  obtain rfl : v = u := List.append_cancel_right (hv.symm.trans hd)
  obtain ⟨n, hn, hmoved⟩ := parseField_moved (hr r) st'
  have hlen : n = v.length := by
    have hst : c.st = st + v.length := hpos
    have hn' : c.st = st + n := hn
    omega
  rw [hmoved, hlen]

end

/-! ## Blocks are wires -/

variable {w : Walk}

theorem wire_of_block {bundle : Bundle} {st : Nat} {d head body : Bytes}
    {header : BlockHeader} {c c' : Cursor UInt8 Nat}
    (hh : blockHead w bundle ⟨st, d⟩ = .ok ((header, head), c))
    (hb : blockBody header head c = .ok (body, c')) :
    ∃ x : Wire, x.header = header ∧ x.body = body ∧ d = x.bytes ++ c'.rest ∧
      c'.st = st + x.bytes.length := by
  obtain ⟨hplain, hread, hd, -⟩ := blockHead_ok.mp hh
  obtain ⟨v, hspan, hst⟩ := blockBody_spans hh hb
  have hplain' : head.head?.any isBreak = false := by
    rw [hd, List.head?_append_of_ne_nil _ hspan.head_ne] at hplain
    exact hplain
  let x : Wire := {
    header := header
    head := head
    body := body
    crc := v
    reads := parseField_anywhere BlockHeader.fromCbor_resumes BlockHeader.fromCbor_starts hread hd
    plain := hplain'
    dataEnd := hspan.dataEnd
    trailer := hspan.trailer }
  refine ⟨x, rfl, rfl, ?_, ?_⟩
  · rw [hspan.eq]
    simp only [Wire.bytes, List.append_assoc, x]
  · rw [hst]
    exact x.extentEnd_eq st

variable {c : Cursor UInt8 Nat}

theorem wire_of_payload {bundle : Bundle} {st : Nat} {d head : Bytes}
    {header : BlockHeader} (hh : blockHead w bundle ⟨st, d⟩ = .ok ((header, head), c))
    (hc : Closes header head c.rest) : ∃ x : Wire, x.header = header ∧ d = x.bytes ++ [0xFF] := by
  obtain ⟨body, v, hlen, htrailer, hrest⟩ := hc
  obtain ⟨-, hstart, -, -⟩ := blockHead_header hh
  have hbody : blockBody header head c = .ok (body, ⟨c.st + body.length +
      trailerByteLen header.crcType header.isIndefinite, [0xFF]⟩) :=
    blockBody_ok.mpr ⟨hlen, v, htrailer, hrest, rfl⟩
  obtain ⟨x, hx, -, hd, -⟩ := wire_of_block hh hbody
  exact ⟨x, hx, hd⟩

/-! ## Compositions -/

/-- The parts of a bundle: its primary block, the extension blocks, with the
operations of the BCBs among them, and the payload block. -/
structure Composition where
  primary : PrimaryBlock
  primaryBytes : Bytes
  extensions : List (Wire × Option BcbSet)
  payload : Wire

namespace Composition

def extensionWires (m : Composition) : List Wire := m.extensions.map Prod.fst

def wires (m : Composition) : List Wire := m.extensionWires ++ [m.payload]

def bytes (m : Composition) : Bytes := bundleBytes m.primaryBytes m.wires

def start (m : Composition) : Nat := 1 + m.primaryBytes.length

def head (m : Composition) : Bundle := primaryBundle m.primary 1 m.start

def bundle (m : Composition) : Bundle := m.head.addAll m.start m.wires

def walk (m : Composition) : Walk :=
  ({ state := .blocks m.head } : Walk).recordAll m.head m.start m.extensions

def finished (m : Composition) : Finished where
  bundle := m.bundle
  pendingBibs := m.walk.pendingBibs
  bcbs := m.walk.bcbs

/-- The parts follow the rules of the parser, up to those of `finish`. -/
structure Ok [HashOrder] (m : Composition) : Prop where
  reads : ∀ st r, parseField PrimaryBlock.fromCbor "primary block" ⟨st, m.primaryBytes ++ r⟩ =
    .ok (m.primary, ⟨st + m.primaryBytes.length, r⟩)
  flagsOk : m.primary.flagsOk = true
  admissible : Admissible m.head [] m.wires
  not_payload : ∀ e ∈ m.extensions, e.1.header.blockType ≠ .payload
  payload : m.payload.header.blockType = .payload
  ops : ∀ e ∈ m.extensions, bcbOps e.1.header e.1.body = .ok e.2
  length_le : m.bytes.length ≤ wordSize

end Composition

theorem Walk.recordAll_concat (w : Walk) (bundle : Bundle) (start : Nat)
    (l : List (Wire × Option BcbSet)) (e : Wire × Option BcbSet) :
    w.recordAll bundle start (l ++ [e]) =
      (w.recordAll bundle start l).record (bundle.addAll start (l.map Prod.fst)) e.1.header
        (start + (wireBytes (l.map Prod.fst)).length) e.2 := by
  induction l generalizing w bundle start with
  | nil => rfl
  | cons a l ih =>
    rw [List.cons_append, recordAll, ih]
    simp only [recordAll, List.map_cons, Bundle.addAll, wireBytes_cons, List.length_append,
      Nat.add_assoc]

variable {l : List (Wire × Option BcbSet)}

theorem Walk.mem_uniqueBlocks {bundle : Bundle} {start : Nat} {t : BlockType} :
    t ∈ (w.recordAll bundle start l).uniqueBlocks ↔ t ∈ w.uniqueBlocks ∨
      t.isUnique = true ∧ ∃ x ∈ l.map Prod.fst, x.header.blockType = t := by
  induction l generalizing w bundle start with
  | nil => simp [recordAll]
  | cons a l ih =>
    rw [recordAll, ih, List.map_cons]
    simp only [record, List.mem_cons, exists_eq_or_imp]
    split
    · next hu =>
        rw [List.mem_cons]
        constructor
        · rintro ((rfl | h) | ⟨ht, h⟩)
          · exact .inr ⟨hu, .inl rfl⟩
          · exact .inl h
          · exact .inr ⟨ht, .inr h⟩
        · rintro (h | ⟨ht, h | h⟩)
          · exact .inl (.inr h)
          · exact .inl (.inl h.symm)
          · exact .inr ⟨ht, h⟩
    · next hu =>
        constructor
        · rintro (h | ⟨ht, h⟩)
          · exact .inl h
          · exact .inr ⟨ht, .inr h⟩
        · rintro (h | ⟨ht, h | h⟩)
          · exact .inl h
          · rw [h] at hu
            exact absurd ht hu
          · exact .inr ⟨ht, h⟩

theorem Bundle.mem_addAll {bundle : Bundle} {start n : Nat} {l : List Wire} :
    n ∈ (bundle.addAll start l).blocks ↔ n ∈ bundle.blocks ∨ ∃ x ∈ l, x.header.number = n := by
  induction l generalizing bundle start with
  | nil => simp [addAll]
  | cons a l ih =>
    rw [addAll, ih]
    simp only [add, Std.ExtTreeMap.mem_insert, Nat.compare_eq_eq, List.mem_cons,
      exists_eq_or_imp]
    tauto

theorem Admissible.concat {bundle : Bundle} {start pos : Nat} {x : Wire}
    (h : Admissible bundle [] (l.map Prod.fst))
    (ha : Admits (w.recordAll bundle start l) (bundle.addAll start (l.map Prod.fst)) pos x.header) :
    Admissible bundle [] (l.map Prod.fst ++ [x]) := by
  have hfresh : x.header.number ∉ (bundle.addAll start (l.map Prod.fst)).blocks := by
    rw [← Std.ExtTreeMap.contains_iff_mem, ha.fresh]
    exact Bool.false_ne_true
  rw [Bundle.mem_addAll, not_or] at hfresh
  refine ⟨fun _ _ _ => List.not_mem_nil, ?_, ?_, ?_, ?_⟩
  · refine List.pairwise_append.mpr ⟨h.types, List.pairwise_singleton _ _, ?_⟩
    intro y hy z hz hu heq
    rw [List.mem_singleton.mp hz] at heq
    refine ha.unique (by rw [heq]; exact hu) (Walk.mem_uniqueBlocks.mpr (.inr ⟨?_, y, hy, heq.symm⟩))
    rw [heq]
    exact hu
  · intro y hy
    rcases List.mem_append.mp hy with hy | hy
    · exact h.fresh y hy
    · rw [List.mem_singleton.mp hy, ← Bool.not_eq_true, Std.ExtTreeMap.contains_iff_mem]
      exact hfresh.1
  · refine List.pairwise_append.mpr ⟨h.numbers, List.pairwise_singleton _ _, ?_⟩
    intro y hy z hz heq
    rw [List.mem_singleton.mp hz] at heq
    exact hfresh.2 ⟨y, hy, heq.symm⟩
  · intro hp y hy
    rcases List.mem_append.mp hy with hy | hy
    · exact h.report hp y hy
    · rw [List.mem_singleton.mp hy]
      refine ha.report ?_
      rw [Bundle.addAll_primary]
      exact hp

variable [HashOrder]

/-- What the parser has read between two rounds. -/
structure Gathered (data : Bytes) (w : Walk) (c : Cursor UInt8 Nat) (primary : PrimaryBlock)
    (pb : Bytes) (l : List (Wire × Option BcbSet)) : Prop where
  reads : ∀ st r, parseField PrimaryBlock.fromCbor "primary block" ⟨st, pb ++ r⟩ =
    .ok (primary, ⟨st + pb.length, r⟩)
  flagsOk : primary.flagsOk = true
  admissible : Admissible (primaryBundle primary 1 (1 + pb.length)) [] (l.map Prod.fst)
  not_payload : ∀ e ∈ l, e.1.header.blockType ≠ .payload
  ops : ∀ e ∈ l, bcbOps e.1.header e.1.body = .ok e.2
  data : data = 0x9F :: (pb ++ (wireBytes (l.map Prod.fst) ++ c.rest))
  pos : c.st = 1 + pb.length + (wireBytes (l.map Prod.fst)).length
  walk : w = ({ state := .blocks (primaryBundle primary 1 (1 + pb.length)) } : Walk).recordAll
    (primaryBundle primary 1 (1 + pb.length)) (1 + pb.length) l

variable {data : Bytes}

theorem Gathered.state {primary : PrimaryBlock} {pb : Bytes} (h : Gathered data w c primary pb l) :
    w.state = .blocks ((primaryBundle primary 1 (1 + pb.length)).addAll (1 + pb.length)
      (l.map Prod.fst)) := by
  rw [h.walk]
  exact Walk.recordAll_state rfl _ _

def Walk.Gathers (data : Bytes) (w : Walk) (c : Cursor UInt8 Nat) : Prop :=
  match w.state with
  | .start => w = {} ∧ c = ⟨0, data⟩
  | .primaryBlock => w = { state := .primaryBlock } ∧ data = 0x9F :: c.rest ∧ c.st = 1
  | .blocks _ => ∃ primary pb l, Gathered data w c primary pb l

theorem Gathered.gathers {primary : PrimaryBlock}
    {pb : Bytes} (h : Gathered data w c primary pb l) : w.Gathers data c := by
  simp only [Walk.Gathers, h.state]
  exact ⟨primary, pb, l, h⟩

theorem Advances.gathers {w w' : Walk} {c c' : Cursor UInt8 Nat}
    (h : Advances w c w' c') (hw : w.Gathers data c) : w'.Gathers data c' := by
  obtain ⟨st, d⟩ := c
  cases h with
  | start hs hr =>
    simp only [Walk.Gathers, hs] at hw
    obtain ⟨rfl, hc⟩ := hw
    cases hc
    exact ⟨rfl, parseStart_ok.mp hr⟩
  | primary hs hr =>
    simp only [Walk.Gathers, hs] at hw
    obtain ⟨rfl, hd, rfl⟩ := hw
    obtain ⟨u, hu, hsplit, hst⟩ := (Advances.primary hs hr).span
    obtain ⟨primary, hread, hflags, rfl⟩ := parsePrimary_ok.mp hr
    have hst' : c'.st = 1 + u.length := hst
    have hsplit' : d = u ++ c'.rest := hsplit
    suffices hg : Gathered data _ c' primary u [] from hg.gathers
    refine ⟨parseField_anywhere PrimaryBlock.fromCbor_resumes PrimaryBlock.fromCbor_starts hread
      hsplit, hflags, ?_, ?_, ?_, ?_, ?_, ?_⟩
    · refine ⟨?_, .nil, ?_, .nil, ?_⟩
      · exact fun x hx => absurd hx List.not_mem_nil
      · exact fun x hx => absurd hx List.not_mem_nil
      · exact fun _ x hx => absurd hx List.not_mem_nil
    · exact fun x hx => absurd hx List.not_mem_nil
    · exact fun x hx => absurd hx List.not_mem_nil
    · rw [hd, hsplit']
      rfl
    · rw [hst']
      rfl
    · rw [← hst']
      rfl
  | @block c₁ _ bundle header head _ hs hhead htype hr =>
    simp only [Walk.Gathers, hs] at hw
    obtain ⟨primary, pb, l, hg⟩ := hw
    obtain rfl := State.blocks.inj (hs.symm.trans hg.state)
    obtain ⟨body, ops, hb, hops, rfl⟩ := parseExtension_ok.mp hr
    obtain ⟨x, rfl, rfl, hd, hst⟩ := wire_of_block hhead hb
    obtain ⟨-, -, -, ha⟩ := blockHead_ok.mp hhead
    have hpos : st = 1 + pb.length + (wireBytes (l.map Prod.fst)).length := hg.pos
    suffices hg : Gathered data _ c' primary pb (l ++ [(x, ops)]) from hg.gathers
    refine ⟨hg.reads, hg.flagsOk, ?_, ?_, ?_, ?_, ?_, ?_⟩
    · rw [List.map_append]
      rw [hg.walk] at ha
      exact hg.admissible.concat ha
    · intro e he
      rcases List.mem_append.mp he with he | he
      · exact hg.not_payload e he
      · rw [List.mem_singleton.mp he]
        exact htype
    · intro e he
      rcases List.mem_append.mp he with he | he
      · exact hg.ops e he
      · rw [List.mem_singleton.mp he]
        exact hops
    · rw [hg.data, List.map_append, wireBytes_append]
      simp only [hd, List.map_cons, List.map_nil, wireBytes_cons, wireBytes_nil,
        List.append_nil, List.append_assoc]
    · rw [hst, hpos, List.map_append, wireBytes_append]
      simp only [List.map_cons, List.map_nil, wireBytes_cons, wireBytes_nil, List.append_nil,
        List.length_append]
      omega
    · rw [Walk.recordAll_concat, ← hg.walk, hpos]

theorem rounds_gathers {chunkSize : Nat}
    (h : Scan.Rounds (round chunkSize) ({}, ⟨0, data⟩) (w, c)) : w.Gathers data c :=
  Scan.Rounds.invariant (P := fun w c => w.Gathers data c)
    (fun hw hr => (round_inl.mp hr).gathers hw) h ⟨rfl, rfl⟩

namespace Composition

omit [HashOrder] in
theorem finished_eq (m : Composition) :
    m.walk.finished (m.head.addAll m.start m.extensionWires) m.payload.header
      (m.start + (wireBytes m.extensionWires).length) = m.finished := by
  rw [finished, bundle, wires, Bundle.addAll_append]
  rfl

theorem Ok.completes {m : Composition} (h : m.Ok) : Completes m.bytes m.finished := by
  rw [← finished_eq]
  exact completes_of_wires h.reads h.flagsOk h.admissible h.not_payload h.payload h.ops h.length_le

theorem of_completes {f : Finished} (h : Completes data f) :
    ∃ m : Composition, m.Ok ∧ m.bytes = data ∧ m.finished = f := by
  obtain ⟨w, ⟨st, d⟩, hr, bundle, header, head, c₁, hw, hhead, htype, hc, rfl⟩ := h
  have hg := rounds_gathers hr
  simp only [Walk.Gathers, hw] at hg
  obtain ⟨primary, pb, l, hg⟩ := hg
  obtain rfl := State.blocks.inj (hw.symm.trans hg.state)
  obtain ⟨x, rfl, hd⟩ := wire_of_payload hhead hc
  obtain ⟨-, -, -, ha⟩ := blockHead_ok.mp hhead
  have hpos : st = 1 + pb.length + (wireBytes (l.map Prod.fst)).length := hg.pos
  let m : Composition := ⟨primary, pb, l, x⟩
  have hbytes : m.bytes = data := by
    rw [hg.data]
    simp only [bytes, bundleBytes, wires, extensionWires, m, wireBytes_append, wireBytes_cons,
      wireBytes_nil, List.append_nil, List.append_assoc, hd]
  refine ⟨m, ⟨hg.reads, hg.flagsOk, ?_, hg.not_payload, htype, hg.ops, ?_⟩, hbytes, ?_⟩
  · rw [hg.walk] at ha
    exact hg.admissible.concat ha
  · -- the payload block ends one byte in front of the bundle
    have hlt := ha.extent_lt
    rw [x.extentEnd_eq, hpos] at hlt
    simp only [bytes, bundleBytes, wires, extensionWires, m, wireBytes_append, wireBytes_cons,
      wireBytes_nil, List.append_nil, List.length_append, List.length_cons, List.length_nil]
    omega
  · rw [← finished_eq, hpos]
    have hwalk : m.walk = w := hg.walk.symm
    rw [hwalk]
    rfl

end Composition

end Hardy
