import Hardy.Bpsec.Operation
import Hardy.Parse.AnyOrder

/-!
# Reading blocks through their encryption

Model of `DecryptingReader` in `bpv7/src/bpsec/mod.rs`, which decrypts the
blocks that a BCB covers and keeps what came of it.  On the products of a parse
the cache cannot be seen: every call answers as it would on a fresh reader, and
none panics (`DecryptingReader.calls_fresh`).
-/

namespace Hardy

open Cbor Bpsec

/-! ## Parse products -/

section Products

variable [Crates] [HashOrder]

/-- What the parser has recorded when it comes to its end on `data`: the whole
bundle, or all of it but the rest of its payload. -/
inductive ParserProgress.Ends (data : Bytes) (f : Finished) : ParserProgress → Prop where
  | ready : Ends data f (.ready data f)
  | partialBody (tail : PayloadTail) : Ends data f (.partialBody data tail f)

/-- The products of a parse, in whatever chunks the bytes have come. -/
inductive Parsed.Product (p : Parsed) : Prop where
  | intro (chunkSize : Nat) (chunks : List Bytes) {data : Bytes} {f : Finished}
      {progress : ParserProgress} {rest : List Bytes} :
      (BundleParser.new chunkSize).feed chunks = .ok (some (progress, rest)) →
      progress.Ends data f → f.finish data = .ok p → Parsed.Product p

theorem parse_product {data : Bytes} {p : Parsed} (h : parse data = .ok p) : p.Product := by
  rw [parse] at h
  obtain ⟨progress, hpush, h⟩ := Fold.bind_ok.mp h
  cases progress with
  | needMore more q => cases h
  | partialBody d tail f => cases h
  | ready d f =>
    obtain ⟨q, hfin, hend⟩ := Fold.bind_ok.mp h
    have hq : q = p := by
      rw [Parsed.checkEnd] at hend
      split at hend
      · cases hend
      · dsimp only at hend
        split at hend
        · cases hend
        · split at hend
          · cases hend
          · cases hend
            rfl
    subst hq
    refine Parsed.Product.intro 4096 [data] (?_ : _ = Except.ok (some (_, []))) .ready hfin
    rw [BundleParser.feed, hpush]
    rfl

theorem round_finished {n : Nat} {w : Walk} {c c' : Cursor UInt8 Nat} {o : Outcome}
    (h : round n w c = .ok (.inr o, c')) (hw : w.Ok c.st) {f : Finished}
    (ho : o = .done f ∨ ∃ tail, o = .deferred f tail) :
    ∃ l stop, Indexed f.bundle.blocks f.pendingBibs f.bcbs (l ++ [1]) stop := by
  obtain ⟨bundle, header, head, c₁, hs, hh, ht, hp⟩ := round_inr.mp h
  have hf : f = w.finished bundle header c.st := by
    rcases ho with rfl | ⟨tail, rfl⟩
    · exact (parsePayload_done.mp hp).2.1
    · rw [parsePayload] at hp
      split at hp
      · split at hp
        · cases hp
          rfl
        · cases hp
      · obtain ⟨-, he, -⟩ := wholePayload_ok.mp hp
        cases he
  simp only [Walk.Ok, hs] at hw
  obtain ⟨⟨l, hl⟩, hu⟩ := hw
  obtain ⟨-, -, -, ha⟩ := blockHead_ok.mp (show blockHead w bundle ⟨c.st, c.rest⟩ = _ from hh)
  obtain ⟨hwf, hstart, -, hne⟩ := blockHead_header (show blockHead w bundle ⟨c.st, c.rest⟩ = _ from hh)
  have hnum : header.number = 1 := by
    have := hwf.numberOk
    simpa [BlockHeader.numberOk, ht] using this
  have hbcbs : ∀ m, m ∈ w.bcbs ↔
      m ∈ w.bcbs ∨ (m = header.number ∧ header.blockType = .blockSecurity) := by simp [ht]
  have hpos : 0 < header.dataStart := by
    rw [hstart]
    exact List.length_pos_iff.mpr hne
  have hind := ha.indexed hwf hpos hl hu hbcbs
  rw [if_neg (by rw [ht]; decide), hnum] at hind
  subst hf
  simp only [Walk.finished, hnum]
  exact ⟨l, _, hind⟩

theorem BundleParser.Given.indexed {p : BundleParser} {d : Bytes} (hp : p.Given d) {chunk : Bytes}
    {progress : ParserProgress} (h : p.push chunk = .ok progress) {data : Bytes} {f : Finished}
    (he : progress.Ends data f) :
    ∃ l stop, Indexed f.bundle.blocks f.pendingBibs f.bcbs (l ++ [1]) stop := by
  simp only [BundleParser.push, hp.extended chunk] at h
  obtain ⟨w, c, hr, hend⟩ := Scan.run_spec (Error.invalidCBOR .tooBig)
    (round_progress p.chunkSize) p.walk ⟨p.offset, (d ++ chunk).drop p.offset⟩
  have hok := rounds_ok ((hp.append chunk).trans hr)
  rcases hend with ⟨x, -, hrun⟩ | ⟨o, c', ho, hrun⟩
  · rw [hrun] at h
    dsimp only at h
    split at h
    · cases h
      cases he
    · cases h
  · rw [hrun] at h
    cases o with
    | done f' =>
      cases h
      cases he
      exact round_finished ho hok (.inl rfl)
    | deferred f' tail =>
      cases h
      cases he
      exact round_finished ho hok (.inr ⟨tail, rfl⟩)

theorem BundleParser.Given.feed_indexed {p : BundleParser} {d : Bytes} (hp : p.Given d)
    {chunks rest : List Bytes} {progress : ParserProgress}
    (h : p.feed chunks = .ok (some (progress, rest))) {data : Bytes} {f : Finished}
    (he : progress.Ends data f) :
    ∃ l stop, Indexed f.bundle.blocks f.pendingBibs f.bcbs (l ++ [1]) stop := by
  induction chunks generalizing p d with
  | nil => cases h
  | cons chunk chunks ih =>
    rw [BundleParser.feed] at h
    obtain ⟨next, hpush, h⟩ := Fold.bind_ok.mp h
    have hdec := hp.push chunk
    rw [hpush] at hdec
    cases next with
    | needMore more q => exact ih hdec.1 h
    | ready d f =>
      cases h
      exact hp.indexed hpush he
    | partialBody d tail f =>
      cases h
      exact hp.indexed hpush he

theorem Parsed.Product.spec {p : Parsed} (h : p.Product) :
    p.Covered ∧ ∃ stop, TilesBytes p.bundle.blocks stop := by
  obtain ⟨chunkSize, chunks, hfeed, hend, hfin⟩ := h
  obtain ⟨l, stop, hind⟩ := (BundleParser.given_new chunkSize).feed_indexed hfeed hend
  obtain ⟨-, -, -, hlay⟩ := finish_ok hfin
  exact ⟨finish_covered hind hfin, stop, hind.tilesBytes.sameLayout hlay⟩

end Products

/-! ## The reader -/

inductive Payload where
  | borrowed (bytes : Bytes)
  | decrypted (bytes : Bytes)
deriving DecidableEq, Repr

inductive Availability where
  | available (payload : Payload)
  | notResident
  | noKey
  | notDecryptable
deriving DecidableEq, Repr

inductive Decrypt where
  | plain (plaintext : Bytes)
  | noKey
  | failed
deriving DecidableEq, Repr

def Decrypt.availability : Decrypt → Availability
  | .plain plaintext => .available (.borrowed plaintext)
  | .noKey => .noKey
  | .failed => .notDecryptable

def Decrypt.of : Except Error Bytes → Decrypt
  | .ok plaintext => .plain plaintext
  | .error (.invalidBPSec .noKey) => .noKey
  | .error _ => .failed

theorem Decrypt.of_error {e : Error} (h : e ≠ .invalidBPSec .noKey) :
    Decrypt.of (.error e) = .failed := by
  unfold Decrypt.of
  split
  · next he => cases he
  · next he =>
      cases he
      exact absurd rfl h
  · rfl

theorem Decrypt.of_eq_plain {result : Except Error Bytes} {p : Bytes} :
    Decrypt.of result = .plain p ↔ result = .ok p := by
  unfold Decrypt.of
  split <;> simp

theorem Decrypt.of_eq_noKey {result : Except Error Bytes} :
    Decrypt.of result = .noKey ↔ result = .error (.invalidBPSec .noKey) := by
  unfold Decrypt.of
  split
  · simp
  · simp
  · next hnk => simpa using hnk

/-- `PlainReader::block` -/
def plainReader (blocks : HashMap Block) (sourceData : Bytes) : Reader :=
  fun number => blocks[number]?.map fun b => (b, b.payload sourceData)

/-- The scope of the operation takes in a primary block that is not to be had.
`build_data` expects it. -/
def Bpsec.BcbOperation.lacksPrimary (o : BcbOperation) (args : OperationArgs) : Bool :=
  match o with
  | .aesGcm o =>
    !args.crcPresent && args.targetPayload.toBool && o.parameters.flags.includePrimaryBlock &&
      ((args.blocks 0).bind Prod.snd).isNone
  | .unrecognised _ _ => false

structure DecryptingReader where
  blocks : HashMap Block
  sourceData : Bytes
  bcbOps : HashMap BcbSet
  keys : KeySource
  cache : HashMap (Option Decrypt)

namespace DecryptingReader

/-- `DecryptingReader::new`: an empty cell for every covered block. -/
def new (blocks : HashMap Block) (sourceData : Bytes) (bcbOps : HashMap BcbSet)
    (keys : KeySource) : DecryptingReader where
  blocks := blocks
  sourceData := sourceData
  bcbOps := bcbOps
  keys := keys
  cache := (blocks.filter fun _ b => b.bcb.isSome).map fun _ _ => none

variable (r : DecryptingReader)

def isResident (b : Block) : Bool := decide (b.payloadRange.stop ≤ r.sourceData.length)

/-- `OnceCell::set` in the cell of a block: a cell is written once. -/
def set (number : Nat) (outcome : Decrypt) : DecryptingReader :=
  { r with cache := r.cache.modify number fun cell => cell.or (some outcome) }

/-- `wire_or_covering_bcb`: the finished answer, or the BCB of the block. -/
def wireOrCoveringBcb (number : Nat) : Except Error (Option Payload ⊕ Nat) :=
  match r.blocks[number]? with
  | none => .error (.missingBlock number)
  | some target =>
    if !r.isResident target then .ok (.inl none)
    else match target.bcb with
      | some bcb => .ok (.inr bcb)
      | none =>
        match target.payload r.sourceData with
        | some payload => .ok (.inl (some (.borrowed payload)))
        | none => .error .altered

variable [Crates] [Ciphers]

/-- `decrypt_target`, where nothing is the panic of an `expect`. -/
def decryptTarget (number bcb : Nat) : Option (Except Error Bytes) :=
  match r.bcbOps[bcb]? with
  | none => some (.error .altered)
  | some ops =>
    match ops.operations[number]? with
    | none => some (.error .altered)
    | some op =>
      let args : OperationArgs := ⟨ops.source, number, bcb, plainReader r.blocks r.sourceData⟩
      if op.lacksPrimary args then none
      else some ((op.decrypt r.keys args).mapError Error.invalidBPSec)

/-- `block_data`, where nothing is a panic. -/
def blockData (number : Nat) : Option (Except Error (Option Payload)) × DecryptingReader :=
  match r.wireOrCoveringBcb number with
  | .error e => (some (.error e), r)
  | .ok (.inl answer) => (some (.ok answer), r)
  | .ok (.inr bcb) =>
    match r.cache[number]? with
    | none => (none, r)
    | some (some (.plain plaintext)) => (some (.ok (some (.decrypted plaintext))), r)
    | some (some .noKey) => (some (.error (.invalidBPSec .noKey)), r)
    | some (some .failed) | some none =>
      match r.decryptTarget number bcb with
      | none => (none, r)
      | some (.ok plaintext) =>
        (some (.ok (some (.decrypted plaintext))), r.set number (.plain plaintext))
      | some (.error (.invalidBPSec .noKey)) =>
        (some (.error (.invalidBPSec .noKey)), r.set number .noKey)
      | some (.error .altered) => (some (.error .altered), r)
      | some (.error e) => (some (.error e), r.set number .failed)

/-- `into_block_data`, where nothing is a panic. -/
def intoBlockData (number : Nat) : Option (Except Error (Option Payload)) :=
  match r.wireOrCoveringBcb number with
  | .error e => some (.error e)
  | .ok (.inl answer) => some (.ok answer)
  | .ok (.inr bcb) =>
    match r.cache[number]?.join with
    | some (.plain plaintext) => some (.ok (some (.decrypted plaintext)))
    | some .noKey => some (.error (.invalidBPSec .noKey))
    | some .failed | none =>
      (r.decryptTarget number bcb).map fun result =>
        result.map fun plaintext => some (.decrypted plaintext)

/-- `Reader::block`, where nothing is a panic.  `get_or_init` leaves the cell
empty when its closure panics. -/
def block (number : Nat) : Option (Option (Block × Availability)) × DecryptingReader :=
  match r.blocks[number]? with
  | none => (some none, r)
  | some b =>
    if !r.isResident b then (some (some (b, .notResident)), r)
    else match b.bcb with
      | none =>
        match b.payload r.sourceData with
        | some payload => (some (some (b, .available (.borrowed payload))), r)
        | none => (some (some (b, .notResident)), r)
      | some bcb =>
        match r.cache[number]? with
        | none => (none, r)
        | some (some outcome) => (some (some (b, outcome.availability)), r)
        | some none =>
          match r.decryptTarget number bcb with
          | none | some (.error .altered) => (none, r)
          | some (.ok plaintext) =>
            (some (some (b, .available (.borrowed plaintext))),
              r.set number (.plain plaintext))
          | some (.error (.invalidBPSec .noKey)) =>
            (some (some (b, .noKey)), r.set number .noKey)
          | some (.error _) =>
            (some (some (b, .notDecryptable)), r.set number .failed)

/-! ## A reader without a cache -/

def plaintext (number bcb : Nat) : Except Error Bytes :=
  (r.decryptTarget number bcb).getD (.error .altered)

def lends (number : Nat) : Option (Block × Availability) :=
  r.blocks[number]?.map fun b =>
    (b,
      if !r.isResident b then .notResident
      else match b.bcb with
        | none => ((b.payload r.sourceData).map fun p => .available (.borrowed p)).getD .notResident
        | some bcb => (Decrypt.of (r.plaintext number bcb)).availability)

/-- `block_data` without the cache. -/
def gives (number : Nat) : Except Error (Option Payload) :=
  match r.wireOrCoveringBcb number with
  | .error e => .error e
  | .ok (.inl answer) => .ok answer
  | .ok (.inr bcb) => (r.plaintext number bcb).map fun plaintext => some (.decrypted plaintext)

/-- Decryptions of resident blocks come to an end, and find their operation. -/
def Consistent : Prop :=
  ∀ (n bcb : Nat) (b : Block), r.blocks[n]? = some b → b.bcb = some bcb → r.isResident b = true →
    r.decryptTarget n bcb = some (r.plaintext n bcb) ∧ r.plaintext n bcb ≠ .error .altered

/-- The reader `r` has come from `fresh` by calls: its cells hold what the
decryptions come to. -/
structure Replays (fresh r : DecryptingReader) : Prop where
  same : r = { fresh with cache := r.cache }
  cell : ∀ (n : Nat) (b : Block), fresh.blocks[n]? = some b → b.bcb.isSome = true →
    ∃ cell, r.cache[n]? = some cell
  outcome : ∀ (n bcb : Nat) (b : Block) (d : Decrypt), fresh.blocks[n]? = some b →
    b.bcb = some bcb → r.cache[n]? = some (some d) → d = .of (fresh.plaintext n bcb)

omit [Crates] [Ciphers] in
theorem getElem?_set {r : DecryptingReader} {number k : Nat} {outcome : Decrypt} :
    (r.set number outcome).cache[k]? =
      if k = number then r.cache[k]?.map fun cell => cell.or (some outcome) else r.cache[k]? := by
  simp only [set, HashMap.getElem?_modify, eq_comm]

theorem replays_new (blocks : HashMap Block) (sourceData : Bytes) (bcbOps : HashMap BcbSet)
    (keys : KeySource) :
    Replays (new blocks sourceData bcbOps keys) (new blocks sourceData bcbOps keys) := by
  have hcache : ∀ n : Nat, (new blocks sourceData bcbOps keys).cache[n]? =
      (blocks[n]?.filter fun b => b.bcb.isSome).map fun _ => none := by
    intro n
    simp only [new, Std.ExtTreeMap.getElem?_map, Std.ExtTreeMap.getElem?_filter']
  refine ⟨rfl, fun n b hb hs => ⟨none, ?_⟩, fun n bcb b d hb hs hd => ?_⟩
  · rw [hcache, show blocks[n]? = some b from hb]
    simp [hs]
  · rw [hcache, show blocks[n]? = some b from hb] at hd
    simp at hd

omit [Crates] [Ciphers] in
theorem wireOrCoveringBcb_inr {r : DecryptingReader} {n bcb : Nat} :
    r.wireOrCoveringBcb n = .ok (.inr bcb) ↔
      ∃ b : Block, r.blocks[n]? = some b ∧ r.isResident b = true ∧ b.bcb = some bcb := by
  unfold wireOrCoveringBcb
  cases hb : r.blocks[n]? with
  | none => simp
  | some b =>
    simp only [Option.some.injEq, exists_eq_left']
    cases hr : r.isResident b with
    | false => simp
    | true =>
      cases hs : b.bcb with
      | some m => simp
      | none => cases hp : b.payload r.sourceData <;> simp

namespace Replays

variable {fresh r : DecryptingReader} {n bcb : Nat} {b : Block}

theorem blocks (h : Replays fresh r) : r.blocks = fresh.blocks := by rw [h.same]

theorem sourceData (h : Replays fresh r) : r.sourceData = fresh.sourceData := by rw [h.same]

theorem isResident (h : Replays fresh r) : r.isResident = fresh.isResident := by
  rw [h.same]
  rfl

theorem decryptTarget (h : Replays fresh r) : r.decryptTarget = fresh.decryptTarget := by
  rw [h.same]
  rfl

theorem wireOrCoveringBcb (h : Replays fresh r) :
    r.wireOrCoveringBcb = fresh.wireOrCoveringBcb := by
  rw [h.same]
  rfl

theorem set (h : Replays fresh r) (hb : fresh.blocks[n]? = some b) (hs : b.bcb = some bcb)
    {d : Decrypt} (hd : d = .of (fresh.plaintext n bcb)) : Replays fresh (r.set n d) := by
  refine ⟨?_, fun k b' hb' hs' => ?_, fun k bcb' b' d' hb' hs' hd' => ?_⟩
  · rw [DecryptingReader.set, h.same]
  · obtain ⟨cell, hcell⟩ := h.cell k b' hb' hs'
    rw [getElem?_set, hcell]
    split
    · exact ⟨_, rfl⟩
    · exact ⟨_, rfl⟩
  · rw [getElem?_set] at hd'
    split at hd'
    · next hk =>
        subst hk
        cases hb.symm.trans hb'
        cases hs.symm.trans hs'
        obtain ⟨cell, hcell, hor⟩ := Option.map_eq_some_iff.mp hd'
        cases cell with
        | none =>
          cases hor
          exact hd
        | some d₀ =>
          cases hor
          exact h.outcome k bcb b d' hb hs hcell
    · exact h.outcome k bcb' b' d' hb' hs' hd'

theorem block (h : Replays fresh r) (hc : fresh.Consistent) (n : Nat) :
    ∃ r', r.block n = (some (fresh.lends n), r') ∧ Replays fresh r' := by
  unfold DecryptingReader.block lends
  rw [h.blocks, h.isResident, h.decryptTarget, h.sourceData]
  cases hb : fresh.blocks[n]? with
  | none => exact ⟨r, rfl, h⟩
  | some b =>
    dsimp only [Option.map_some]
    cases hr : fresh.isResident b with
    | false => exact ⟨r, rfl, h⟩
    | true =>
      cases hs : b.bcb with
      | none =>
        cases hp : b.payload fresh.sourceData with
        | none => exact ⟨r, by simp, h⟩
        | some payload => exact ⟨r, by simp, h⟩
      | some bcb =>
        obtain ⟨hrun, hna⟩ := hc n bcb b hb hs hr
        obtain ⟨cell, hcell⟩ := h.cell n b hb (by rw [hs]; rfl)
        simp only [Bool.not_true, Bool.false_eq_true, if_false, hcell]
        cases cell with
        | some d =>
          rw [← h.outcome n bcb b d hb hs hcell]
          exact ⟨r, rfl, h⟩
        | none =>
          have hset := fun d => h.set (d := d) hb hs
          rw [hrun]
          cases hres : fresh.plaintext n bcb with
          | ok plaintext => exact ⟨_, rfl, hset _ (by rw [hres]; rfl)⟩
          | error e =>
            rw [hres] at hna hset
            dsimp only
            split
            · next he => cases he
            · next he => exact absurd (Option.some.inj he) hna
            · next he => cases he
            · next he =>
                cases he
                exact ⟨_, rfl, hset _ rfl⟩
            · next e' _ hnk he =>
                cases he
                rw [Decrypt.of_error hnk] at hset ⊢
                exact ⟨_, rfl, hset _ rfl⟩

theorem blockData (h : Replays fresh r) (hc : fresh.Consistent) (n : Nat) :
    ∃ r', r.blockData n = (some (fresh.gives n), r') ∧ Replays fresh r' := by
  unfold DecryptingReader.blockData gives
  rw [h.wireOrCoveringBcb, h.decryptTarget]
  rcases hw : fresh.wireOrCoveringBcb n with e | answer | bcb
  · exact ⟨r, rfl, h⟩
  · exact ⟨r, rfl, h⟩
  · obtain ⟨b, hb, hr, hs⟩ := wireOrCoveringBcb_inr.mp hw
    obtain ⟨hrun, hna⟩ := hc n bcb b hb hs hr
    obtain ⟨cell, hcell⟩ := h.cell n b hb (by rw [hs]; rfl)
    have hset := fun d => h.set (d := d) hb hs
    have hout := fun d hd => h.outcome n bcb b d hb hs (hcell.trans (congrArg some hd))
    simp only [hcell, hrun]
    cases hres : fresh.plaintext n bcb with
    | ok plaintext =>
      rw [hres] at hset hout
      rcases cell with _ | d
      · exact ⟨_, rfl, hset _ rfl⟩
      · cases hout d rfl
        exact ⟨r, rfl, h⟩
    | error e =>
      rw [hres] at hna hset hout
      by_cases hnk : e = .invalidBPSec .noKey
      · subst hnk
        rcases cell with _ | d
        · exact ⟨_, rfl, hset _ rfl⟩
        · cases hout d rfl
          exact ⟨r, rfl, h⟩
      · rw [Decrypt.of_error hnk] at hset hout
        have hfailed : cell = none ∨ cell = some .failed := by
          cases cell with
          | none => exact .inl rfl
          | some d => exact .inr (congrArg some (hout d rfl))
        rcases hfailed with rfl | rfl
        all_goals
          dsimp only
          split
          · next he => cases he
          · next he => cases he
          · next he =>
              cases he
              exact absurd rfl hnk
          · next he => exact absurd (Option.some.inj he) hna
          · next he =>
              cases he
              exact ⟨_, rfl, hset _ rfl⟩

theorem intoBlockData (h : Replays fresh r) (hc : fresh.Consistent) (n : Nat) :
    r.intoBlockData n = some (fresh.gives n) := by
  unfold DecryptingReader.intoBlockData gives
  rw [h.wireOrCoveringBcb, h.decryptTarget]
  rcases hw : fresh.wireOrCoveringBcb n with e | answer | bcb
  · rfl
  · rfl
  · obtain ⟨b, hb, hr, hs⟩ := wireOrCoveringBcb_inr.mp hw
    obtain ⟨hrun, hna⟩ := hc n bcb b hb hs hr
    obtain ⟨cell, hcell⟩ := h.cell n b hb (by rw [hs]; rfl)
    have hout := fun d hd => h.outcome n bcb b d hb hs (hcell.trans (congrArg some hd))
    simp only [hcell, hrun, Option.join_some, Option.map_some]
    rcases cell with _ | d
    · rfl
    · cases d with
      | failed => rfl
      | plain plaintext =>
        rw [Decrypt.of_eq_plain.mp (hout _ rfl).symm]
        rfl
      | noKey =>
        rw [Decrypt.of_eq_noKey.mp (hout _ rfl).symm]
        rfl

end Replays

end DecryptingReader

/-! ## Readers of parse products -/

section

variable [Crates] [HashOrder] [Ciphers]

theorem Parsed.Product.consistent {p : Parsed} (h : p.Product) (sourceData : Bytes)
    (keys : KeySource) :
    (DecryptingReader.new p.bundle.blocks sourceData p.bcbs keys).Consistent := by
  obtain ⟨hcov, stop, htiles⟩ := h.spec
  intro n bcb b hb hs hr
  have hb : p.bundle.blocks[n]? = some b := hb
  obtain ⟨ops, hops, hn⟩ := (hcov.bcb n b hb bcb).mp hs
  obtain ⟨op, hop⟩ := HashMap.mem_iff.mp hn
  obtain ⟨b', hb', hnp, -⟩ := hcov.bcb_target bcb n ops hops hn
  cases hb.symm.trans hb'
  obtain ⟨primary, hprimary, ht, hfirst⟩ := htiles.primary_first
  have hne : n ≠ 0 := by
    rintro rfl
    cases hb.symm.trans hprimary
    exact hnp ht
  have hresident : ∃ raw, primary.payload sourceData = some raw := by
    have hlt := hfirst n b hb hne
    have hin := htiles.inside n b hb
    have hin₀ := htiles.inside 0 primary hprimary
    have hend : b.payloadRange.stop ≤ sourceData.length := of_decide_eq_true hr
    have hle : primary.payloadRange.start ≤ primary.payloadRange.stop ∧
        primary.payloadRange.stop ≤ sourceData.length := by
      obtain ⟨h₁, h₂, h₃⟩ := hin
      obtain ⟨h₄, h₅, h₆⟩ := hin₀
      omega
    exact ⟨_, if_pos hle⟩
  obtain ⟨raw, hraw⟩ := hresident
  have hhas : op.lacksPrimary ⟨ops.source, n, bcb, plainReader p.bundle.blocks sourceData⟩ =
      false := by
    cases op with
    | unrecognised id o => rfl
    | aesGcm o => simp [BcbOperation.lacksPrimary, plainReader, hprimary, hraw]
  have hrun : (DecryptingReader.new p.bundle.blocks sourceData p.bcbs keys).decryptTarget n bcb =
      some ((op.decrypt keys ⟨ops.source, n, bcb, plainReader p.bundle.blocks sourceData⟩).mapError
        Error.invalidBPSec) := by
    simp only [DecryptingReader.decryptTarget, DecryptingReader.new, hops, hop, hhas]
    rfl
  rw [DecryptingReader.plaintext, hrun]
  refine ⟨rfl, ?_⟩
  cases op.decrypt keys ⟨ops.source, n, bcb, plainReader p.bundle.blocks sourceData⟩ with
  | ok plaintext => exact fun he => by cases he
  | error e => exact fun he => by cases he

end

/-! ## Calls -/

inductive ReaderCall where
  | block (number : Nat)
  | blockData (number : Nat)

inductive ReaderResult where
  | block (result : Option (Block × Availability))
  | blockData (result : Except Error (Option Payload))

namespace DecryptingReader

variable [Crates] [Ciphers]

def call (r : DecryptingReader) : ReaderCall → Option ReaderResult × DecryptingReader
  | .block number => ((r.block number).1.map .block, (r.block number).2)
  | .blockData number => ((r.blockData number).1.map .blockData, (r.blockData number).2)

def calls : DecryptingReader → List ReaderCall → List (Option ReaderResult) × DecryptingReader
  | r, [] => ([], r)
  | r, c :: cs => ((r.call c).1 :: ((r.call c).2.calls cs).1, ((r.call c).2.calls cs).2)

def answers (r : DecryptingReader) : ReaderCall → ReaderResult
  | .block number => .block (r.lends number)
  | .blockData number => .blockData (r.gives number)

theorem Replays.call {fresh r : DecryptingReader} (h : Replays fresh r) (hc : fresh.Consistent)
    (c : ReaderCall) : (r.call c).1 = some (fresh.answers c) ∧ Replays fresh (r.call c).2 := by
  cases c with
  | block number =>
    obtain ⟨r', hr, h'⟩ := h.block hc number
    simp only [DecryptingReader.call, hr]
    exact ⟨rfl, h'⟩
  | blockData number =>
    obtain ⟨r', hr, h'⟩ := h.blockData hc number
    simp only [DecryptingReader.call, hr]
    exact ⟨rfl, h'⟩

theorem Replays.calls {fresh r : DecryptingReader} (h : Replays fresh r) (hc : fresh.Consistent)
    (cs : List ReaderCall) :
    (r.calls cs).1 = cs.map (fun c => some (fresh.answers c)) ∧ Replays fresh (r.calls cs).2 := by
  induction cs generalizing r with
  | nil => exact ⟨rfl, h⟩
  | cons c cs ih =>
    obtain ⟨ha, h'⟩ := h.call hc c
    obtain ⟨has, h''⟩ := ih h'
    simp only [DecryptingReader.calls, List.map_cons, ha, has]
    exact ⟨trivial, h''⟩

/-- On the products of a parse, and on whatever bytes are resident, a reader
answers every call of a sequence as a fresh reader does, and none panics.  So it
is for the call that ends the reader, which gives what `block_data` gives. -/
theorem calls_fresh [HashOrder] {p : Parsed} (h : p.Product) (sourceData : Bytes)
    (keys : KeySource) (cs : List ReaderCall) :
    let fresh := new p.bundle.blocks sourceData p.bcbs keys
    (fresh.calls cs).1 = cs.map (fun c => (fresh.call c).1) ∧
      (∀ c, (fresh.call c).1 ≠ none) ∧
      ∀ n, (fresh.calls cs).2.intoBlockData n = fresh.intoBlockData n ∧
        fresh.intoBlockData n = (fresh.blockData n).1 ∧ fresh.intoBlockData n ≠ none := by
  intro fresh
  have hc : fresh.Consistent := h.consistent sourceData keys
  have hnew : Replays fresh fresh := replays_new _ _ _ _
  have hone : ∀ c, (fresh.call c).1 = some (fresh.answers c) := fun c => (hnew.call hc c).1
  obtain ⟨hres, hend⟩ := hnew.calls hc cs
  refine ⟨?_, fun c => ?_, fun n => ⟨?_, ?_, ?_⟩⟩
  · rw [hres]
    exact List.map_congr_left fun c _ => (hone c).symm
  · rw [hone c]
    exact Option.some_ne_none _
  · rw [hend.intoBlockData hc n, hnew.intoBlockData hc n]
  · obtain ⟨r', hr, -⟩ := hnew.blockData hc n
    rw [hnew.intoBlockData hc n, hr]
  · rw [hnew.intoBlockData hc n]
    exact Option.some_ne_none _

@[reducible] def transparent : Ciphers where
  hmac _ _ _ := []
  gcmDecrypt _ _ _ _ m := some m
  gcmDecryptDetached _ _ _ _ m _ := some m
  unwrapKey _ _ k := some k

def contentKey : Key where
  keyType := .octetSequence (List.replicate 16 0x71)
  encAlgorithm := some .a128gcm
  operations := some [.decrypt]

omit [Crates] [Ciphers] in
theorem rfc9173A3_calls : ∃ p, @parse .reference .sorted rfc9173A3 = .ok p ∧
    let fresh := new p.bundle.blocks rfc9173A3 p.bcbs (KeySet.source [contentKey])
    ((@block fresh .reference transparent 1).1.join.map fun e =>
      (e.1.bcb, e.2 == .available (.borrowed (e.1.payloadRange.slice rfc9173A3)))) =
        some (some 4, true) ∧
      (@calls .reference transparent fresh [.blockData 1, .block 7, .block 1]).1 =
        [.blockData 1, .block 7, .block 1].map
          (fun c => (@call .reference transparent fresh c).1) := by
  have hread : ((@parse .reference .sorted rfc9173A3).toOption.bind fun p =>
      (@block (new p.bundle.blocks rfc9173A3 p.bcbs (KeySet.source [contentKey]))
        .reference transparent 1).1.join.map fun e =>
          (e.1.bcb, e.2 == .available (.borrowed (e.1.payloadRange.slice rfc9173A3)))) =
      some (some 4, true) := by
    decide +kernel
  cases h : @parse .reference .sorted rfc9173A3 with
  | error x =>
    rw [h] at hread
    cases hread
  | ok p =>
    rw [h] at hread
    refine ⟨p, rfl, hread, ?_⟩
    exact (@calls_fresh .reference transparent .sorted p (@parse_product .reference .sorted _ p h)
      rfc9173A3 (KeySet.source [contentKey]) [.blockData 1, .block 7, .block 1]).1

end DecryptingReader

end Hardy
