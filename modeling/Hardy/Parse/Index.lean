import Mathlib.Data.List.Nodup
import Hardy.Parse.Payload

/-!
# The block index

What the parser has recorded of the bytes it has passed: every block once,
under its number, at its place.  `Indexed` is the invariant of the rounds.
-/

namespace Hardy

open Cbor Bpsec

variable [Crates]

/-! ## Headers -/

structure Admits (w : Walk) (bundle : Bundle) (start : Nat) (header : BlockHeader) : Prop where
  unique : header.blockType.isUnique = true → header.blockType ∉ w.uniqueBlocks
  fresh : bundle.blocks.contains header.number = false
  report : bundle.primary.flags.isAdminRecord = true ∨ bundle.primary.id.source.isNull = true →
    header.flags.reportOnFailure = false
  body_lt : start + header.dataEnd < wordSize
  extent_lt : header.extentEnd start < wordSize

variable {header : BlockHeader} {bundle : Bundle} {c : Cursor UInt8 Nat} {w : Walk} {st : Nat}

omit [Crates] in
theorem checkedHeader_ok {d head : Bytes} :
    checkedHeader w bundle ⟨st, d⟩ = .ok ((header, head), c) ↔
      parseField BlockHeader.fromCbor "block" ⟨st, d⟩ = .ok (header, c) ∧ d = head ++ c.rest ∧
        Admits w bundle st header := by
  have hfield : Resumes (parseField BlockHeader.fromCbor "block") :=
    parseField_resumes BlockHeader.fromCbor_resumes BlockHeader.fromCbor_starts _
  have hadmits : ∀ (h : BlockHeader), Admits w bundle st h ↔
      (!(h.blockType.isUnique && w.uniqueBlocks.contains h.blockType)) = true ∧
      (!bundle.blocks.contains h.number) = true ∧
      (!((bundle.primary.flags.isAdminRecord || bundle.primary.id.source.isNull) &&
        h.flags.reportOnFailure)) = true ∧
      decide (st + h.dataEnd < wordSize) = true ∧ decide (h.extentEnd st < wordSize) = true := by
    intro h
    simp only [Bool.not_eq_true', Bool.and_eq_false_imp, Bool.or_eq_true, decide_eq_true_eq]
    rw [← Bool.not_eq_true, List.contains_iff_mem]
    exact ⟨fun ⟨h₁, h₂, h₃, h₄, h₅⟩ => ⟨h₁, h₂, h₃, h₄, h₅⟩,
      fun ⟨h₁, h₂, h₃, h₄, h₅⟩ => ⟨h₁, h₂, h₃, h₄, h₅⟩⟩
  rw [checkedHeader, Scan.bind_apply, Scan.look]
  dsimp only [id]
  rw [Scan.bind_ok_iff]
  constructor
  · rintro ⟨⟨h, u⟩, c₁, hf, hr⟩
    dsimp only at hr
    obtain ⟨_, c₂, e₁, hr₁⟩ := Scan.bind_ok hr
    obtain ⟨_, c₃, e₂, hr₂⟩ := Scan.bind_ok hr₁
    obtain ⟨_, c₄, e₃, hr₃⟩ := Scan.bind_ok hr₂
    obtain ⟨_, c₅, e₄, hr₄⟩ := Scan.bind_ok hr₃
    obtain ⟨_, c₆, e₅, hr₅⟩ := Scan.bind_ok hr₄
    obtain ⟨h₁, rfl⟩ := ensure_ok.mp e₁
    obtain ⟨h₂, rfl⟩ := ensure_ok.mp e₂
    obtain ⟨h₃, rfl⟩ := ensure_ok.mp e₃
    obtain ⟨h₄, rfl⟩ := ensure_ok.mp e₄
    obtain ⟨h₅, rfl⟩ := ensure_ok.mp e₅
    cases hr₅
    obtain ⟨hparse, hd⟩ := (Scan.consumed_ok hfield.stepwise).mp hf
    exact ⟨hparse, hd, (hadmits header).mpr ⟨h₁, h₂, h₃, h₄, h₅⟩⟩
  · rintro ⟨hparse, hd, hok⟩
    obtain ⟨h₁, h₂, h₃, h₄, h₅⟩ := (hadmits header).mp hok
    refine ⟨(header, head), c, (Scan.consumed_ok hfield.stepwise).mpr ⟨hparse, hd⟩, ?_⟩
    rw [Scan.bind_eq_of_ok (ensure_ok.mpr ⟨h₁, rfl⟩), Scan.bind_eq_of_ok (ensure_ok.mpr ⟨h₂, rfl⟩),
      Scan.bind_eq_of_ok (ensure_ok.mpr ⟨h₃, rfl⟩), Scan.bind_eq_of_ok (ensure_ok.mpr ⟨h₄, rfl⟩),
      Scan.bind_eq_of_ok (ensure_ok.mpr ⟨h₅, rfl⟩)]
    rfl

omit [Crates] in
theorem blockHead_ok {d head : Bytes} :
    blockHead w bundle ⟨st, d⟩ = .ok ((header, head), c) ↔
      d.head?.any isBreak = false ∧ parseField BlockHeader.fromCbor "block" ⟨st, d⟩ = .ok (header, c) ∧
        d = head ++ c.rest ∧ Admits w bundle st header := by
  rw [← checkedHeader_ok, blockHead]
  cases d with
  | nil => exact ⟨fun h => ⟨rfl, h⟩, fun h => h.2⟩
  | cons b d =>
    rw [Scan.onNext_cons]
    cases hb : isBreak b with
    | true => simp [hb]
    | false => simp [hb]

omit [Crates] in
theorem blockHead_header {d head : Bytes}
    (h : blockHead w bundle ⟨st, d⟩ = .ok ((header, head), c)) :
    header.WellFormed ∧ header.dataStart = head.length ∧ c.st = st + head.length ∧ head ≠ [] := by
  obtain ⟨-, hparse, hd, -⟩ := blockHead_ok.mp h
  have hfield : Resumes (parseField BlockHeader.fromCbor "block") :=
    parseField_resumes BlockHeader.fromCbor_resumes BlockHeader.fromCbor_starts _
  obtain ⟨u, hu, hpos, -⟩ := hfield.stepwise.ok hparse
  obtain rfl : u = head := List.append_cancel_right (hu.symm.trans hd)
  have hst : c.st = st + u.length := hpos
  refine ⟨parseField_yields BlockHeader.fromCbor_yields _ _ _ _ hparse, ?_, hst, ?_⟩
  · obtain ⟨n, hm, hn⟩ := parseField_ok hparse
    have hn' : header.dataStart = n := (BlockHeader.dataStart_eq hm).1
    omega
  · rintro rfl
    have := hfield.stepwise.consumes (parseField_starts BlockHeader.fromCbor_starts _) hparse
    rw [hd] at this
    exact absurd this (Nat.lt_irrefl _)

/-! ## Blocks -/

/-- A block in front of `rest`. -/
structure Spans (header : BlockHeader) (d head body v rest : Bytes) : Prop where
  eq : d = head ++ (body ++ (trailerBytes header.crcType header.isIndefinite v ++ rest))
  wellFormed : header.WellFormed
  head_ne : head ≠ []
  dataStart : header.dataStart = head.length
  dataEnd : header.dataEnd = head.length + body.length
  trailer : TrailerOk header.crcType header.isIndefinite (head ++ body) v

theorem Spans.length {d head body v rest : Bytes}
    (h : Spans header d head body v rest) (start : Nat) :
    start + d.length = header.extentEnd start + rest.length := by
  rw [h.eq, BlockHeader.extentEnd, h.dataEnd]
  simp only [List.length_append, length_trailerBytes h.trailer]
  omega

theorem blockBody_spans {d head body : Bytes} {c c' : Cursor UInt8 Nat}
    (hh : blockHead w bundle ⟨st, d⟩ = .ok ((header, head), c))
    (hb : blockBody header head c = .ok (body, c')) :
    ∃ v, Spans header d head body v c'.rest ∧ c'.st = header.extentEnd st := by
  obtain ⟨-, -, hd, -⟩ := blockHead_ok.mp hh
  obtain ⟨hwf, hstart, hst, hne⟩ := blockHead_header hh
  obtain ⟨hlen, v, hok, hrest, hst'⟩ :=
    blockBody_ok.mp (show blockBody header head ⟨c.st, c.rest⟩ = _ from hb)
  have hend : header.dataEnd = head.length + body.length := by
    have := hwf.start_le
    omega
  refine ⟨v, ⟨by rw [hd, hrest], hwf, hne, hstart, hend, hok⟩, ?_⟩
  rw [hst', hst, BlockHeader.extentEnd, hend]
  omega

variable [HashOrder]

theorem parseExtension_ok {w w' : Walk} {start : Nat} {head : Bytes} {c c' : Cursor UInt8 Nat} :
    parseExtension w bundle start header head c = .ok (w', c') ↔
      ∃ body ops, blockBody header head c = .ok (body, c') ∧ bcbOps header body = .ok ops ∧
        w' = w.record bundle header start ops := by
  rw [parseExtension, Scan.bind_ok_iff]
  constructor
  · rintro ⟨body, c₁, hb, hr⟩
    obtain ⟨ops, c₂, hv, hp⟩ := Scan.bind_ok hr
    obtain ⟨hops, rfl⟩ := verdict_ok.mp hv
    obtain ⟨rfl, rfl⟩ := Scan.pure_ok_iff.mp hp
    exact ⟨body, ops, hb, hops, rfl⟩
  · rintro ⟨body, ops, hb, hops, rfl⟩
    exact ⟨body, c', hb, Scan.bind_ok_iff.mpr ⟨ops, c', verdict_ok.mpr ⟨hops, rfl⟩,
      Scan.pure_ok_iff.mpr ⟨rfl, rfl⟩⟩⟩

/-! ## The invariant -/

def extents (blocks : HashMap Block) (n : Nat) : Option Range := blocks[n]?.map Block.extent

def NumberOk (n : Nat) (t : BlockType) : Prop := (t = .primary ↔ n = 0) ∧ (t = .payload ↔ n = 1)

/-- `blocks` is the index of the bytes from 1 to `pos`, with the blocks in the
order `l`. -/
structure Indexed (blocks : HashMap Block) (bibs : List Nat) (bcbs : HashMap BcbSet)
    (l : List Nat) (pos : Nat) : Prop where
  nodup : l.Nodup
  mem : ∀ n, n ∈ l ↔ n ∈ blocks
  head : l.head? = some 0
  tiles : Tiles (extents blocks) 1 l pos
  inside : ∀ (n : Nat) (b : Block), blocks[n]? = some b → b.payloadRange.Inside b.extent
  number : ∀ (n : Nat) (b : Block), blocks[n]? = some b → NumberOk n b.blockType
  uncovered : ∀ (n : Nat) (b : Block), blocks[n]? = some b → b.bib = .none ∧ b.bcb = none
  unique : ∀ (n n' : Nat) (b b' : Block), blocks[n]? = some b → blocks[n']? = some b' →
    b.blockType.isUnique = true → b'.blockType = b.blockType → n' = n
  bibs_nodup : bibs.Nodup
  mem_bibs : ∀ n, n ∈ bibs ↔ ∃ b : Block, blocks[n]? = some b ∧ b.blockType = .blockIntegrity
  mem_bcbs : ∀ n, n ∈ bcbs ↔ ∃ b : Block, blocks[n]? = some b ∧ b.blockType = .blockSecurity

namespace Indexed

variable {blocks : HashMap Block} {bibs bibs' : List Nat} {bcbs bcbs' : HashMap BcbSet}
  {l : List Nat} {pos n : Nat} {b : Block}

omit [Crates] [HashOrder] in
/-- A further block at the end. -/
theorem insert (h : Indexed blocks bibs bcbs l pos) (hfresh : n ∉ blocks)
    (hstart : b.extent.start = pos) (hlt : b.extent.start < b.extent.stop)
    (hin : b.payloadRange.Inside b.extent) (hnum : NumberOk n b.blockType)
    (hcov : b.bib = .none ∧ b.bcb = none)
    (huniq : b.blockType.isUnique = true → ∀ (m : Nat) (b' : Block), blocks[m]? = some b' →
      b'.blockType ≠ b.blockType)
    (hbibs : bibs' = if b.blockType = .blockIntegrity then bibs ++ [n] else bibs)
    (hbcbs : ∀ m, m ∈ bcbs' ↔ m ∈ bcbs ∨ (m = n ∧ b.blockType = .blockSecurity)) :
    Indexed (blocks.insert n b) bibs' bcbs' (l ++ [n]) b.extent.stop := by
  have hnl : n ∉ l := fun hn => hfresh ((h.mem n).mp hn)
  have hnone : blocks[n]? = none := Std.ExtTreeMap.getElem?_eq_none hfresh
  have hget : ∀ (m : Nat) (b' : Block), (blocks.insert n b)[m]? = some b' ↔
      (m = n ∧ b' = b) ∨ (m ≠ n ∧ blocks[m]? = some b') := by
    intro m b'
    rw [HashMap.getElem?_insert]
    by_cases hm : m = n
    · simp [hm, eq_comm]
    · simp [hm]
  have hmem : ∀ (m : Nat) (P : Block → Prop), (∃ b', (blocks.insert n b)[m]? = some b' ∧ P b') ↔
      (∃ b', blocks[m]? = some b' ∧ P b') ∨ (m = n ∧ P b) := by
    intro m P
    simp only [hget]
    constructor
    · rintro ⟨b', ⟨rfl, rfl⟩ | ⟨-, hb'⟩, hp⟩
      · exact .inr ⟨rfl, hp⟩
      · exact .inl ⟨b', hb', hp⟩
    · rintro (⟨b', hb', hp⟩ | ⟨rfl, hp⟩)
      · refine ⟨b', .inr ⟨?_, hb'⟩, hp⟩
        rintro rfl
        rw [hnone] at hb'
        cases hb'
      · exact ⟨b, .inl ⟨rfl, rfl⟩, hp⟩
  refine ⟨?_, ?_, ?_, ?_, ?_, ?_, ?_, ?_, ?_, ?_, ?_⟩
  · exact List.nodup_append.mpr ⟨h.nodup, List.nodup_singleton n, fun a ha a' ha' => by
      rw [List.mem_singleton.mp ha']
      exact fun hne => hnl (hne ▸ ha)⟩
  · intro m
    rw [List.mem_append, List.mem_singleton, h.mem, Std.ExtTreeMap.mem_insert, Nat.compare_eq_eq]
    exact or_comm.trans (or_congr_left eq_comm)
  · rw [List.head?_append, h.head]
    rfl
  · refine (h.tiles.congr fun m hm => ?_).concat ?_ hstart hlt
    · rw [extents, HashMap.getElem?_insert, if_neg (by rintro rfl; exact hnl hm)]
      rfl
    · rw [extents, HashMap.getElem?_insert, if_pos rfl]
      rfl
  · intro m b' hb'
    rcases (hget m b').mp hb' with ⟨rfl, rfl⟩ | ⟨-, hb'⟩
    · exact hin
    · exact h.inside m b' hb'
  · intro m b' hb'
    rcases (hget m b').mp hb' with ⟨rfl, rfl⟩ | ⟨-, hb'⟩
    · exact hnum
    · exact h.number m b' hb'
  · intro m b' hb'
    rcases (hget m b').mp hb' with ⟨rfl, rfl⟩ | ⟨-, hb'⟩
    · exact hcov
    · exact h.uncovered m b' hb'
  · intro m m' c c' hc hc' hu ht
    rcases (hget m c).mp hc with ⟨rfl, rfl⟩ | ⟨-, hold⟩ <;>
      rcases (hget m' c').mp hc' with ⟨rfl, rfl⟩ | ⟨-, hold'⟩
    · rfl
    · exact absurd ht (huniq hu m' c' hold')
    · exact absurd ht.symm (huniq (ht ▸ hu) m c hold)
    · exact h.unique m m' c c' hold hold' hu ht
  · rw [hbibs]
    split
    · refine List.nodup_append.mpr ⟨h.bibs_nodup, List.nodup_singleton n, fun a ha a' ha' => ?_⟩
      obtain ⟨b', hb', -⟩ := (h.mem_bibs a).mp ha
      rw [List.mem_singleton.mp ha']
      rintro rfl
      rw [hnone] at hb'
      cases hb'
    · exact h.bibs_nodup
  · intro m
    rw [hmem m fun b' => b'.blockType = .blockIntegrity, ← h.mem_bibs, hbibs]
    split
    · next ht => simp [ht]
    · next ht => simp [ht]
  · intro m
    rw [hmem m fun b' => b'.blockType = .blockSecurity, ← h.mem_bcbs, hbcbs]

end Indexed

/-! ## The head of the bundle -/

omit [Crates] [HashOrder] in
theorem parseStart_ok {d : Bytes} :
    parseStart ⟨st, d⟩ = .ok ((), c) ↔ d = 0x9F :: c.rest ∧ c.st = st + 1 := by
  rw [parseStart, Scan.bind_ok_iff]
  constructor
  · rintro ⟨b, c₁, h₁, h₂⟩
    obtain ⟨hd, hst⟩ := byte_ok.mp (lift_ok_iff.mp h₁)
    split at h₂
    · next hb =>
        obtain ⟨-, rfl⟩ := Scan.pure_ok_iff.mp h₂
        rw [← hb]
        exact ⟨hd, hst⟩
    · repeat' split at h₂
      all_goals cases h₂
  · rintro ⟨hd, hst⟩
    exact ⟨0x9F, c, lift_ok_iff.mpr (byte_ok.mpr ⟨hd, hst⟩), rfl⟩

def primaryBundle (primary : PrimaryBlock) (start stop : Nat) : Bundle :=
  ⟨primary, (∅ : HashMap Block).insert 0 (PrimaryBlock.asBlock primary.crcType ⟨start, stop⟩)⟩

omit [HashOrder] in
theorem parsePrimary_ok {d : Bytes} :
    parsePrimary ⟨st, d⟩ = .ok (bundle, c) ↔
      ∃ primary, parseField PrimaryBlock.fromCbor "primary block" ⟨st, d⟩ = .ok (primary, c) ∧
        primary.flagsOk = true ∧ bundle = primaryBundle primary st c.st := by
  rw [parsePrimary, Scan.bind_apply, Scan.look]
  dsimp only [id]
  rw [Scan.bind_ok_iff]
  constructor
  · rintro ⟨primary, c₁, h₁, h₂⟩
    obtain ⟨_, c₂, h₃, h₄⟩ := Scan.bind_ok h₂
    obtain ⟨hf, rfl⟩ := ensure_ok.mp h₃
    obtain ⟨stop, c₃, h₅, h₆⟩ := Scan.bind_ok h₄
    obtain ⟨rfl, rfl⟩ := Prod.mk.inj (Except.ok.inj h₅)
    obtain ⟨rfl, rfl⟩ := Scan.pure_ok_iff.mp h₆
    exact ⟨primary, h₁, hf, rfl⟩
  · rintro ⟨primary, h₁, hf, rfl⟩
    refine ⟨primary, c, h₁, ?_⟩
    rw [Scan.bind_eq_of_ok (ensure_ok.mpr ⟨hf, rfl⟩)]
    rfl

/-! ## Rounds -/

def Walk.Ok (w : Walk) (pos : Nat) : Prop :=
  match w.state with
  | .start => w = {} ∧ pos = 0
  | .primaryBlock => w = { state := .primaryBlock } ∧ pos = 1
  | .blocks bundle => (∃ l, Indexed bundle.blocks w.pendingBibs w.bcbs l pos) ∧
      ∀ (n : Nat) (b : Block), bundle.blocks[n]? = some b → b.blockType.isUnique = true →
        b.blockType ∈ w.uniqueBlocks

omit [Crates] [HashOrder] in
theorem primaryBundle_indexed (primary : PrimaryBlock) {stop : Nat} (h : 1 < stop) :
    Indexed (primaryBundle primary 1 stop).blocks [] ∅ [0] stop := by
  have hget : ∀ (m : Nat) (b : Block), (primaryBundle primary 1 stop).blocks[m]? = some b ↔
      m = 0 ∧ b = PrimaryBlock.asBlock primary.crcType ⟨1, stop⟩ := by
    intro m b
    rw [primaryBundle, HashMap.getElem?_insert]
    by_cases hm : m = 0
    · simp [hm, eq_comm]
    · simp [hm]
  refine ⟨List.nodup_singleton 0, ?_, rfl, ?_, ?_, ?_, ?_, ?_, List.nodup_nil, ?_, ?_⟩
  · intro n
    rw [HashMap.mem_iff, List.mem_singleton]
    exact ⟨fun hn => ⟨_, (hget n _).mpr ⟨hn, rfl⟩⟩, fun ⟨_, hb⟩ => ((hget n _).mp hb).1⟩
  · refine ⟨⟨1, stop⟩, ?_, rfl, h, rfl⟩
    rw [extents, (hget 0 _).mpr ⟨rfl, rfl⟩]
    rfl
  · intro n b hb
    obtain ⟨-, rfl⟩ := (hget n b).mp hb
    refine ⟨Nat.le_refl _, ?_, ?_⟩ <;> simp only [Block.payloadRange, PrimaryBlock.asBlock] <;> omega
  · intro n b hb
    obtain ⟨rfl, rfl⟩ := (hget n b).mp hb
    exact ⟨⟨fun _ => rfl, fun _ => rfl⟩, ⟨nofun, nofun⟩⟩
  · intro n b hb
    obtain ⟨-, rfl⟩ := (hget n b).mp hb
    exact ⟨rfl, rfl⟩
  · intro n n' b b' hb hb' hu
    obtain ⟨-, rfl⟩ := (hget n b).mp hb
    cases hu
  · refine fun n => ⟨nofun, fun ⟨b, hb, ht⟩ => ?_⟩
    obtain ⟨-, rfl⟩ := (hget n b).mp hb
    cases ht
  · refine fun n => ⟨fun h => absurd h Std.ExtTreeMap.not_mem_empty, fun ⟨b, hb, ht⟩ => ?_⟩
    obtain ⟨-, rfl⟩ := (hget n b).mp hb
    cases ht

omit [Crates] [HashOrder] in
theorem Admits.indexed {bcbs' : HashMap BcbSet}
    {l : List Nat} (ha : Admits w bundle st header) (hwf : header.WellFormed)
    (hpos : 0 < header.dataStart) (h : Indexed bundle.blocks w.pendingBibs w.bcbs l st)
    (hu : ∀ (n : Nat) (b : Block), bundle.blocks[n]? = some b → b.blockType.isUnique = true →
      b.blockType ∈ w.uniqueBlocks)
    (hbcbs : ∀ m, m ∈ bcbs' ↔ m ∈ w.bcbs ∨ (m = header.number ∧ header.blockType = .blockSecurity)) :
    Indexed (bundle.blocks.insert header.number (header.block st))
      (if header.blockType = .blockIntegrity then w.pendingBibs ++ [header.number]
        else w.pendingBibs) bcbs' (l ++ [header.number]) (header.extentEnd st) := by
  have hle := hwf.start_le
  have hfresh : header.number ∉ bundle.blocks := by
    rw [← Std.ExtTreeMap.contains_iff_mem, ha.fresh]
    exact Bool.false_ne_true
  have hnum : NumberOk header.number header.blockType := by
    have := hwf.numberOk
    rw [BlockHeader.numberOk] at this
    split at this
    · next h1 => simp [NumberOk, h1]
    · simp only [Bool.not_eq_true', Bool.or_eq_false_iff, beq_eq_false_iff_ne] at this
      exact ⟨⟨fun h => absurd h this.1.2, fun h => absurd h this.1.1.1⟩,
        ⟨fun h => absurd h this.2, fun h => absurd h this.1.1.2⟩⟩
  refine h.insert (b := header.block st) hfresh rfl ?_ ?_ hnum ⟨rfl, rfl⟩ ?_ rfl hbcbs
  · simp only [BlockHeader.block, BlockHeader.extentEnd]
    omega
  · refine ⟨?_, ?_, ?_⟩ <;>
      simp only [Block.payloadRange, BlockHeader.block, BlockHeader.extentEnd] <;> omega
  · intro hun m b' hb' ht
    have ht' : b'.blockType = header.blockType := ht
    exact ha.unique hun (ht' ▸ hu m b' hb' (ht'.symm ▸ hun))

omit [HashOrder] in
theorem Spans.indexed {bcbs' : HashMap BcbSet}
    {l : List Nat} {d head body v rest : Bytes} (hs : Spans header d head body v rest)
    (ha : Admits w bundle st header) (h : Indexed bundle.blocks w.pendingBibs w.bcbs l st)
    (hu : ∀ (n : Nat) (b : Block), bundle.blocks[n]? = some b → b.blockType.isUnique = true →
      b.blockType ∈ w.uniqueBlocks)
    (hbcbs : ∀ m, m ∈ bcbs' ↔ m ∈ w.bcbs ∨ (m = header.number ∧ header.blockType = .blockSecurity)) :
    Indexed (bundle.blocks.insert header.number (header.block st))
      (if header.blockType = .blockIntegrity then w.pendingBibs ++ [header.number]
        else w.pendingBibs) bcbs' (l ++ [header.number]) (header.extentEnd st) := by
  refine ha.indexed hs.wellFormed ?_ h hu hbcbs
  rw [hs.dataStart]
  exact List.length_pos_iff.mpr hs.head_ne

theorem record_bcbs {body : Bytes}
    {start : Nat} {ops : Option BcbSet} (h : bcbOps header body = .ok ops) (m : Nat) :
    m ∈ (w.record bundle header start ops).bcbs ↔
      m ∈ w.bcbs ∨ (m = header.number ∧ header.blockType = .blockSecurity) := by
  rw [bcbOps] at h
  split at h
  · next ht =>
      cases hd : BcbSet.decode body with
      | error x => rw [hd] at h; cases h
      | ok set =>
        rw [hd] at h
        cases h
        simp only [Walk.record, Std.ExtTreeMap.mem_insert, Nat.compare_eq_eq, ht, and_true]
        exact or_comm.trans (or_congr_right eq_comm)
  · next ht =>
      cases h
      simp [Walk.record, ht]

theorem Advances.ok {w w' : Walk} {c c' : Cursor UInt8 Nat} (h : Advances w c w' c')
    (hw : w.Ok c.st) : w'.Ok c'.st := by
  obtain ⟨st, d⟩ := c
  cases h with
  | start hs hr =>
    simp only [Walk.Ok, hs] at hw
    obtain ⟨rfl, rfl⟩ := hw
    exact ⟨rfl, (parseStart_ok.mp hr).2⟩
  | primary hs hr =>
    simp only [Walk.Ok, hs] at hw
    obtain ⟨rfl, rfl⟩ := hw
    obtain ⟨u, hu, -, hst⟩ := (Advances.primary hs hr).span
    obtain ⟨primary, -, -, rfl⟩ := parsePrimary_ok.mp hr
    have hpos := List.length_pos_iff.mpr hu
    have hlt : 1 < c'.st := by
      have hst' : c'.st = 1 + u.length := hst
      omega
    refine ⟨⟨[0], primaryBundle_indexed primary hlt⟩, ?_⟩
    intro n b hb ht
    rw [primaryBundle, HashMap.getElem?_insert] at hb
    split at hb
    · cases hb
      cases ht
    · simp at hb
  | @block c₁ _ bundle header head _ hs hhead htype hr =>
    simp only [Walk.Ok, hs] at hw
    obtain ⟨⟨l, hl⟩, hu⟩ := hw
    obtain ⟨body, ops, hb, hops, rfl⟩ := parseExtension_ok.mp hr
    obtain ⟨v, hspan, hst⟩ := blockBody_spans hhead hb
    obtain ⟨-, -, -, ha⟩ := blockHead_ok.mp hhead
    refine ⟨⟨l ++ [header.number], ?_⟩, ?_⟩
    · rw [hst]
      exact hspan.indexed ha hl hu fun m => record_bcbs hops m
    · intro n b hb ht
      rw [HashMap.getElem?_insert] at hb
      simp only [Walk.record]
      split at hb
      · obtain rfl : header.block st = b := Option.some.inj hb
        rw [if_pos (show header.blockType.isUnique = true from ht)]
        exact List.mem_cons_self
      · have hold := hu n b hb ht
        split
        · exact List.mem_cons_of_mem _ hold
        · exact hold

theorem rounds_ok {chunkSize : Nat} {data : Bytes}
    (h : Scan.Rounds (round chunkSize) ({}, ⟨0, data⟩) (w, c)) : w.Ok c.st :=
  Scan.Rounds.invariant (P := fun w c => w.Ok c.st) (fun hw hr => (round_inl.mp hr).ok hw) h
    ⟨rfl, rfl⟩

end Hardy
