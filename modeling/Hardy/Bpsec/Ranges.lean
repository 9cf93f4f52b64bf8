import Hardy.Bpsec.Decoded
import Hardy.Bpsec.Decoding
import Hardy.Cbor.Located
import Hardy.Cbor.Spelling

/-!
# Parameters and results as ranges

Model of `bpv7/src/bpsec/parse.rs` as it is written: a decoded block holds the ranges of its
parameters and results in the slice that it was decoded from, put together from the offsets of
three nested series, and the operations are made from the slice again.  Every range is that of the
value behind its id (`Ranged.fromCbor_shows`), so the operations are those that
`AbstractSyntaxBlock.fromCbor` gives, and a decoded set comes back from what is written for it
(`Ranged.comes_back`).
-/

namespace Hardy.Bpsec

open Cbor Scan

namespace Ranged

/-! ## Decoding -/

/-- The closure of `parse_ranges` for one pair. -/
def rangeEntry (offset outerOffset : Nat) : Ser Error (Nat × Range) := do
  let id ← requireCanonical 1 u64 "id" Error.notCanonical
  let dataStart ← Cbor.offset
  let _ ← (mapFieldErr "value" (Series.item 1 (skipValue 16)) : Ser Error Bool)
  let dataEnd ← Cbor.offset
  pure (id, ⟨offset + outerOffset + dataStart, offset + outerOffset + dataEnd⟩)

/-- A round of `parse_ranges`, which starts where the round before has left `outer_offset`. -/
def rangeRound (offset : Nat) (map : HashMap Range) :
    Ser Error (HashMap Range ⊕ HashMap Range) := do
  let outerOffset ← Cbor.offset
  unlessEnd 1 (pure (.inr map)) (do
    let (id, r) ← Series.item 1 (parseArray (definiteArray (rangeEntry offset outerOffset)))
    pure (.inl (map.insert id r)))

def parseRanges (D offset : Nat) : Ser Error (Option (HashMap Range)) :=
  unlessEnd D (pure none) (do
    let here ← Cbor.offset
    let map ← Series.item D (parseArray (definiteArray
      (Scan.loop (.invalidCBOR .tooBig) (rangeRound (offset + here)) ∅)))
    pure (some map))

structure AbstractSyntaxBlock where
  context : Context
  source : Eid
  parameters : HashMap Range
  results : HashMap (HashMap Range)

def resultRound (offset : Nat) (targets : List Nat) (acc : Nat × HashMap (HashMap Range)) :
    Ser Error ((Nat × HashMap (HashMap Range)) ⊕ HashMap (HashMap Range)) := do
  match ← (mapFieldErr "security results" (parseRanges 1 offset) :
      Ser Error (Option (HashMap Range))) with
  | none => pure (.inr acc.2)
  | some results =>
    match targets[acc.1]? with
    | none => throw .mismatchedTargetResult
    | some target => pure (.inl (acc.1 + 1, acc.2.insert target results))

/-- The closure of `AbstractSyntaxBlock::from_cbor`. -/
def fields [Crates] : Ser Error (AbstractSyntaxBlock × Bool) := do
  let targets ← (mapFieldErr "security targets" (Series.item 0 (parseArray (definiteArray
    (Scan.loop (.invalidCBOR .tooBig) AbstractSyntaxBlock.targetRound [])))) :
      Ser Error (List Nat))
  ensure (!targets.isEmpty) .noTargets
  let context ← requireCanonical 0 Context.fromCbor "security context id" Error.notCanonical
  let flags ← requireCanonical 0 u64 "security context flags" Error.notCanonical
  let source ← requireCanonical 0 Eid.fromCbor "security source" Error.notCanonical
  ensure (!AbstractSyntaxBlock.isNodeless source) .invalidSecuritySource
  let parameters ←
    if flags % 2 = 0 then pure ∅
    else do
      let map ← (mapFieldErr "security context parameters" (parseRanges 0 0) :
        Ser Error (Option (HashMap Range)))
      pure (map.getD ∅)
  let offset ← Cbor.offset
  let results ← Series.item 0 (parseArray (definiteArray
    (Scan.loop (.invalidCBOR .tooBig) (resultRound offset targets) (0, ∅))))
  ensure (targets.length == results.size) .mismatchedTargetResult
  pure (⟨context, source, parameters, results⟩, true)

def fromCbor [Crates] : Dec Error (AbstractSyntaxBlock × Bool) := parseSequence fields

/-! ## Unpacking -/

def boundedSlice (data : Bytes) (range : Range) : Except Error Bytes :=
  if range.start ≤ range.stop ∧ range.stop ≤ data.length then .ok (range.slice data)
  else .error (.sourceOutOfRange range.start range.stop data.length)

def decodeBox (range : Range) (data : Bytes) : Except Error Bytes := do
  Bpsec.decodeBox (← boundedSlice data range)

def decodeNewtype {α : Type} (f : Nat → α) (range : Range) (data : Bytes) : Except Error α := do
  Bpsec.decodeNewtype f (← boundedSlice data range)

section

variable [HashOrder]

def sliceMap (ranges : HashMap Range) (data : Bytes) : Except Error (HashMap Bytes) :=
  mapEntries (boundedSlice data) ranges

def HmacSha2.seeParameter (data : Bytes) (acc : HmacSha2.Parameters) (e : Nat × Range) :
    Except Error HmacSha2.Parameters :=
  match e.1 with
  | 1 => do pure { acc with variant := ← decodeNewtype ShaVariant.ofCode e.2 data }
  | 2 => do pure { acc with key := some (← decodeBox e.2 data) }
  | 3 => do pure { acc with flags := ← decodeNewtype ScopeFlags.ofWord e.2 data }
  | id => .error (.invalidContextParameter id)

def HmacSha2.parameters (parameters : HashMap Range) (data : Bytes) :
    Except Error HmacSha2.Parameters :=
  (HashOrder.iter parameters).foldlM (HmacSha2.seeParameter data) {}

def AesGcm.seeParameter (data : Bytes) (acc : AesGcm.Seen) (e : Nat × Range) :
    Except Error AesGcm.Seen :=
  match e.1 with
  | 1 => do pure { acc with iv := some (← decodeBox e.2 data) }
  | 2 => do pure { acc with variant := some (← decodeNewtype AesVariant.ofCode e.2 data) }
  | 3 => do pure { acc with key := some (← decodeBox e.2 data) }
  | 4 => do pure { acc with flags := some (← decodeNewtype ScopeFlags.ofWord e.2 data) }
  | id => .error (.invalidContextParameter id)

def AesGcm.parameters (parameters : HashMap Range) (data : Bytes) :
    Except Error AesGcm.Parameters := do
  let seen ← (HashOrder.iter parameters).foldlM (AesGcm.seeParameter data) {}
  seen.parameters

def seeResult (data : Bytes) (_ : Option Bytes) (e : Nat × Range) :
    Except Error (Option Bytes) :=
  match e.1 with
  | 1 => do pure (some (← decodeBox e.2 data))
  | id => .error (.invalidContextResult id)

def AesGcm.results (results : HashMap Range) (data : Bytes) : Except Error AesGcm.Results :=
  (HashOrder.iter results).foldlM (seeResult data) none

def HmacSha2.results (results : HashMap Range) (data : Bytes) : Except Error HmacSha2.Results := do
  match ← (HashOrder.iter results).foldlM (seeResult data) none with
  | some tag => pure tag
  | none => .error (.invalidContextResult 1)

def AbstractSyntaxBlock.intoOperations {P R Op : Type} (asb : AbstractSyntaxBlock) (data : Bytes)
    (paramsField resultsField : String) (parseParams : HashMap Range → Bytes → Except Error P)
    (parseResults : HashMap Range → Bytes → Except Error R) (make : P → R → Op) :
    Except Error (HashMap Op) := do
  let parameters ← (parseParams asb.parameters data).mapError (Error.invalidField paramsField)
  mapEntries (fun results => do
    let r ← (parseResults results data).mapError (Error.invalidField resultsField)
    pure (make parameters r)) asb.results

def UnknownOperation.parse {Op : Type} (wrap : UnknownOperation → Op) (asb : AbstractSyntaxBlock)
    (data : Bytes) : Except Error (HashMap Op) :=
  asb.intoOperations data "security context parameters" "security results" sliceMap sliceMap
    fun parameters results => wrap ⟨parameters, results⟩

def BibSet.unpack (asb : AbstractSyntaxBlock) (data : Bytes) :
    Except Error (HashMap BibOperation) :=
  match asb.context with
  | .bibHmacSha2 =>
    asb.intoOperations data "RFC9173 HMAC-SHA2 parameters" "RFC9173 HMAC-SHA2 results"
      HmacSha2.parameters HmacSha2.results fun p r => .hmacSha2 ⟨p, r⟩
  | .unrecognised id => UnknownOperation.parse (.unrecognised id) asb data
  | c => .error (.invalidContext c)

def BcbSet.unpack (asb : AbstractSyntaxBlock) (data : Bytes) :
    Except Error (HashMap BcbOperation) :=
  match asb.context with
  | .bcbAesGcm =>
    asb.intoOperations data "RFC9173 AES-GCM parameters" "RFC9173 AES-GCM results"
      AesGcm.parameters AesGcm.results fun p r => .aesGcm ⟨p, r⟩
  | .unrecognised id => UnknownOperation.parse (.unrecognised id) asb data
  | c => .error (.invalidContext c)

/-- `OperationSet::from_cbor`: the set, and the length of what was read. -/
def decode [Crates] {Op : Type} (unpack : AbstractSyntaxBlock → Bytes → Except Error (HashMap Op))
    (data : Bytes) : Except Error (OperationSet Op × Bool × Nat) := do
  let ((asb, _), len) ← runDec fromCbor data
  let operations ← unpack asb data
  pure (⟨asb.source, operations⟩, true, len)

end

/-! ## What the ranges delimit -/

structure Delimits (data : Bytes) (id : Nat) (r : Range) : Prop where
  start_le : r.start ≤ r.stop
  stop_le : r.stop ≤ data.length
  behind : ∃ before, data.take r.start = before ++ emitUint id
  value : IsItem (r.slice data)

def slices (data : Bytes) (m : HashMap Range) : HashMap Bytes := m.map fun _ r => r.slice data

def AllDelimit (data : Bytes) (m : HashMap Range) : Prop :=
  ∀ (k : Nat) (r : Range), m[k]? = some r → Delimits data k r

variable {m : HashMap Range}

theorem slices_get {data : Bytes} {k : Nat} :
    (slices data m)[k]? = m[k]?.map fun r => r.slice data :=
  Std.ExtTreeMap.getElem?_map

theorem slices_insert {data : Bytes} {k : Nat} {r : Range} :
    slices data (m.insert k r) = (slices data m).insert k (r.slice data) := by
  refine Std.ExtTreeMap.ext_getElem? fun n => ?_
  rw [slices_get, HashMap.getElem?_insert, HashMap.getElem?_insert, slices_get]
  split <;> rfl

theorem slices_empty (data : Bytes) : slices data ∅ = ∅ := by
  refine Std.ExtTreeMap.ext_getElem? fun n => ?_
  rw [slices_get, Std.ExtTreeMap.getElem?_empty, Std.ExtTreeMap.getElem?_empty]
  rfl

theorem AllDelimit.empty (data : Bytes) : AllDelimit data ∅ := by
  intro k r h
  rw [Std.ExtTreeMap.getElem?_empty] at h
  cases h

theorem AllDelimit.insert {data : Bytes} (h : AllDelimit data m) {k : Nat}
    {r : Range} (hr : Delimits data k r) : AllDelimit data (m.insert k r) := by
  intro n r' hn
  rw [HashMap.getElem?_insert] at hn
  split at hn
  · next hk =>
      cases hn
      rw [hk]
      exact hr
  · exact h n r' hn

section

variable {data : Bytes} {c : Cursor UInt8 Series}

theorem slice_of_placed {base : Nat} {u : Bytes} {c' : Cursor UInt8 Series}
    (hc : Placed Series.offset data base c) (hu : c.rest = u ++ c'.rest)
    (hoff : c'.st.offset = c.st.offset + u.length) :
    Range.slice ⟨base + c.st.offset, base + c'.st.offset⟩ data = u := by
  have hlen : base + c'.st.offset - (base + c.st.offset) = u.length := by omega
  rw [Range.slice, hlen, ← hc.rest, hu, List.take_left]

theorem rangeEntry_shows {offset outer : Nat}
    (hc : Placed Series.offset data (offset + outer) c) :
    Shows Series.offset data (offset + outer) (fun p => (p.1, p.2.slice data))
      (fun p => Delimits data p.1 p.2) (rangeEntry offset outer) Bpsec.rangeEntry c := by
  refine .after (requireCanonical_tracks 1 u64_resumes u64_starts _ _) hc
    fun id c₁ hid h₁ => offset_shows ?_
  have hwalks : Walks (mapFieldErr "value" (Series.item 1 (skipValue 16)) : Ser Error Bool) :=
    mapFieldErr_resumable _ (item_walks Nat.one_pos (skipValue_resumes 16) (skipValue_starts 16))
  have htracks := hwalks.stepwise.tracks
  cases hvalue : (mapFieldErr "value" (Series.item 1 (skipValue 16)) : Ser Error Bool) c₁ with
  | error x =>
    constructor
    · rw [Scan.bind_eq_of_error hvalue, Scan.bind_eq_of_error (by rw [Scan.consumed, hvalue])]
      rfl
    · intro a c' h
      rw [Scan.bind_eq_of_error hvalue] at h
      cases h
  | ok p =>
    obtain ⟨s, c₂⟩ := p
    obtain ⟨u, hu, hoff⟩ := htracks c₁.st c₁.rest s c₂ hvalue
    have h₂ := htracks.placed h₁ hvalue
    have hslice := slice_of_placed h₁ hu hoff
    have hconsumed : Scan.consumed
        (mapFieldErr "value" (Series.item 1 (skipValue 16)) : Ser Error Bool) c₁ =
          .ok ((s, u), c₂) := (Scan.consumed_ok hwalks.stepwise).mpr ⟨hvalue, hu⟩
    have hrun : (do
        let _ ← (mapFieldErr "value" (Series.item 1 (skipValue 16)) : Ser Error Bool)
        let dataEnd ← Cbor.offset
        pure (id, (⟨offset + outer + c₁.st.offset, offset + outer + dataEnd⟩ : Range))) c₁ =
          .ok ((id, ⟨offset + outer + c₁.st.offset, offset + outer + c₂.st.offset⟩), c₂) :=
      Scan.bind_eq_of_ok hvalue _
    refine ⟨?_, fun a c' h => ?_⟩
    · rw [Scan.bind_eq_of_ok hconsumed, hrun]
      show _ = Except.ok ((id, Range.slice _ data), c₂)
      rw [hslice]
      rfl
    · rw [hrun] at h
      cases h
      refine ⟨h₂, by simp only; omega, h₂.le, ?_, ?_⟩
      · -- the id is what stands in front of the place
        obtain ⟨⟨v, t⟩, c₃, hitem, hpure⟩ := Scan.bind_ok hid
        have hv : v = id ∧ t = true ∧ c₃ = c₁ := by
          dsimp only at hpure
          split at hpure
          · next ht =>
              cases hpure
              exact ⟨rfl, ht, rfl⟩
          · cases hpure
        obtain ⟨rfl, rfl, rfl⟩ := hv
        obtain ⟨len, hread, -⟩ := item_ok (Scan.mapErr_ok.mp hitem)
        have hspelled := (u64_spells v).untagged _ _ _ hread
        have hle := h₁.le
        have hsplit : data = data.take (offset + outer + c.st.offset) ++
            (emitUint v ++ data.drop (offset + outer + c₃.st.offset)) := by
          rw [← h₁.rest, ← hspelled, hc.rest, List.take_append_drop]
        refine ⟨data.take (offset + outer + c.st.offset), ?_⟩
        have htake : data.take (offset + outer + c₃.st.offset) ++
            data.drop (offset + outer + c₃.st.offset) =
            data.take (offset + outer + c.st.offset) ++ emitUint v ++
              data.drop (offset + outer + c₃.st.offset) := by
          rw [List.take_append_drop, List.append_assoc, ← hsplit]
        exact List.append_cancel_right htake
      · show IsItem (Range.slice _ data)
        rw [hslice]
        exact skipped_isItem (Scan.mapErr_ok.mp hvalue) hu

theorem definiteArray_shows {α β : Type} {base : Nat} {f : α → β} {P : α → Prop} {m : Ser Error α}
    {m' : Ser Error β} (s : Bool) (t : List Nat) (hc : Placed Series.offset data base c)
    (hm : ∀ c, Placed Series.offset data base c → Shows Series.offset data base f P m m' c) :
    Shows Series.offset data base f P (definiteArray m s t) (definiteArray m' s t) c := by
  refine .after (.look _) hc fun definite c' _ hplaced => ?_
  split
  · exact .throw _
  · exact hm c' hplaced

theorem rangeRound_shows {base : Nat} (hm : AllDelimit data m)
    (hc : Placed Series.offset data base c) :
    Shows Series.offset data base (Sum.map (slices data) (slices data))
      (Sum.elim (AllDelimit data) (AllDelimit data)) (rangeRound base m)
      (Bpsec.rangeRound (slices data m)) c := by
  refine offset_shows (unlessEnd_shows hc (fun _ hc => .pure hm hc) ?_)
  have hentry := parseArray_shows (placed_item hc) fun s t c₁ hc₁ =>
    definiteArray_shows s t hc₁ fun c₂ hc₂ => rangeEntry_shows hc₂
  refine (item_shows hc hentry).bind fun p c' _ hplaced hp => ?_
  have hnext : AllDelimit data (m.insert p.1 p.2) := hm.insert hp
  have hpure := Shows.pure (ε := Error) (f := Sum.map (slices data) (slices data))
    (P := Sum.elim (AllDelimit data) (AllDelimit data)) (a := .inl (m.insert p.1 p.2)) hnext hplaced
  rw [Sum.map_inl, slices_insert] at hpure
  exact hpure

theorem parseRanges_shows {D base : Nat} (hc : Placed Series.offset data base c) :
    Shows Series.offset data base (Option.map (slices data))
      (fun o => ∀ m, o = some m → AllDelimit data m) (parseRanges D base)
      (Bpsec.parseRanges D) c := by
  refine unlessEnd_shows hc (fun _ hc => .pure nofun hc) (offset_shows ?_)
  have hloop := parseArray_shows (placed_item hc) fun s t c₁ hc₁ =>
    definiteArray_shows s t hc₁ fun c₂ hc₂ =>
      Shows.loop (.invalidCBOR .tooBig) (I := AllDelimit data) (P := AllDelimit data)
        (fun b c hc hb => rangeRound_shows hb hc) (AllDelimit.empty data) hc₂
  rw [slices_empty] at hloop
  refine (item_shows hc hloop).bind fun m c' _ hplaced hm => .pure ?_ hplaced
  rintro _ ⟨⟩
  exact hm

/-! ## The block -/

def resultSlices (data : Bytes) (m : HashMap (HashMap Range)) : HashMap (HashMap Bytes) :=
  m.map fun _ r => slices data r

theorem resultSlices_get {m : HashMap (HashMap Range)} {t : Nat} :
    (resultSlices data m)[t]? = m[t]?.map (slices data) :=
  Std.ExtTreeMap.getElem?_map

theorem resultSlices_empty (data : Bytes) : resultSlices data ∅ = ∅ := by
  refine Std.ExtTreeMap.ext_getElem? fun n => ?_
  rw [resultSlices_get, Std.ExtTreeMap.getElem?_empty, Std.ExtTreeMap.getElem?_empty]
  rfl

theorem resultSlices_insert {m : HashMap (HashMap Range)} {t : Nat} {r : HashMap Range} :
    resultSlices data (m.insert t r) = (resultSlices data m).insert t (slices data r) := by
  refine Std.ExtTreeMap.ext_getElem? fun n => ?_
  rw [resultSlices_get, HashMap.getElem?_insert, HashMap.getElem?_insert, resultSlices_get]
  split <;> rfl

def AbstractSyntaxBlock.values (data : Bytes) (asb : AbstractSyntaxBlock) :
    Bpsec.AbstractSyntaxBlock where
  context := asb.context
  source := asb.source
  parameters := slices data asb.parameters
  results := resultSlices data asb.results

def ResultsDelimit (data : Bytes) (results : HashMap (HashMap Range)) : Prop :=
  ∀ (t : Nat) (m : HashMap Range), results[t]? = some m → AllDelimit data m

theorem ResultsDelimit.empty (data : Bytes) : ResultsDelimit data ∅ := by
  intro t m h
  rw [Std.ExtTreeMap.getElem?_empty] at h
  cases h

structure AbstractSyntaxBlock.Delimited (data : Bytes) (asb : AbstractSyntaxBlock) : Prop where
  parameters : AllDelimit data asb.parameters
  results : ResultsDelimit data asb.results

theorem resultRound_shows {base : Nat} {targets : List Nat} {acc : Nat × HashMap (HashMap Range)}
    (hacc : ResultsDelimit data acc.2) (hc : Placed Series.offset data base c) :
    Shows Series.offset data base (Sum.map (Prod.map id (resultSlices data)) (resultSlices data))
      (Sum.elim (fun acc => ResultsDelimit data acc.2) (ResultsDelimit data))
      (resultRound base targets acc)
      (Bpsec.AbstractSyntaxBlock.resultRound targets (Prod.map id (resultSlices data) acc)) c := by
  refine ((parseRanges_shows hc).mapErr _).bind fun o c' _ hplaced ho => ?_
  cases o with
  | none => exact .pure hacc hplaced
  | some m =>
    dsimp only [Option.map_some, Prod.map_fst, id]
    cases targets[acc.1]? with
    | none => exact .throw _
    | some target =>
      have hnext : ResultsDelimit data (acc.2.insert target m) := by
        intro t m' ht
        rw [HashMap.getElem?_insert] at ht
        split at ht
        · cases ht
          exact ho m rfl
        · exact hacc t m' ht
      have hpure := Shows.pure (ε := Error)
        (f := Sum.map (Prod.map id (resultSlices data)) (resultSlices data))
        (P := Sum.elim (fun acc => ResultsDelimit data acc.2) (ResultsDelimit data))
        (a := .inl (acc.1 + 1, acc.2.insert target m)) hnext hplaced
      rw [Sum.map_inl, Prod.map_apply, resultSlices_insert] at hpure
      exact hpure

theorem ensure_tracks (b : Bool) (x : Error) :
    Scan.Tracks Series.offset (ensure b x : Ser Error Unit) := by
  cases b with
  | true => exact .pure _
  | false => exact .throw _

theorem targetRound_tracks (targets : List Nat) :
    Scan.Tracks Series.offset (AbstractSyntaxBlock.targetRound targets) := by
  have hitem : Scan.Tracks Series.offset (Series.tryItem 1 (lift (untagged u64)) :
      Ser Error (Option (Nat × Bool))) :=
    (tryItem_walks Nat.one_pos (untagged_resumes u64_resumes u64_starts).lift
      (untagged_starts u64_starts).lift).stepwise.tracks
  refine .bind hitem fun o => ?_
  cases o with
  | none => exact .pure _
  | some p => exact .bind (ensure_tracks _ _) fun _ => .bind (ensure_tracks _ _) fun _ => .pure _

theorem resultFields_shows {targets : List Nat} {context : Context} {source : Eid}
    {parameters : HashMap Range} (hparams : AllDelimit data parameters)
    (hc : Placed Series.offset data 0 c) :
    Shows Series.offset data 0 (fun p => (p.1.values data, p.2)) (fun p => p.1.Delimited data)
      (do
        let offset ← Cbor.offset
        let results ← Series.item 0 (parseArray (definiteArray
          (Scan.loop (.invalidCBOR .tooBig) (resultRound offset targets) (0, ∅))))
        ensure (targets.length == results.size) .mismatchedTargetResult
        pure ((⟨context, source, parameters, results⟩ : AbstractSyntaxBlock), true))
      (do
        let results ← Series.item 0 (parseArray (definiteArray
          (Scan.loop (.invalidCBOR .tooBig) (Bpsec.AbstractSyntaxBlock.resultRound targets)
            (0, ∅))))
        ensure (targets.length == results.size) .mismatchedTargetResult
        pure ((⟨context, source, slices data parameters, results⟩ :
          Bpsec.AbstractSyntaxBlock), true)) c := by
  refine offset_shows ?_
  have hround : ∀ (acc : Nat × HashMap (HashMap Range)) (c₁ : Cursor UInt8 Series),
      Placed Series.offset data (0 + c.st.offset) c₁ → ResultsDelimit data acc.2 →
      Shows Series.offset data (0 + c.st.offset)
        (Sum.map (Prod.map id (resultSlices data)) (resultSlices data))
        (Sum.elim (fun acc => ResultsDelimit data acc.2) (ResultsDelimit data))
        (resultRound c.st.offset targets acc)
        (Bpsec.AbstractSyntaxBlock.resultRound targets (Prod.map id (resultSlices data) acc))
        c₁ := by
    rw [Nat.zero_add]
    exact fun acc c₁ hc₁ hacc => resultRound_shows hacc hc₁
  have hresults := parseArray_shows (placed_item hc) fun s t c₁ hc₁ =>
    definiteArray_shows s t hc₁ fun c₂ hc₂ =>
      Shows.loop (.invalidCBOR .tooBig) (b := (0, ∅)) hround (.empty data) hc₂
  rw [Prod.map_apply, resultSlices_empty] at hresults
  refine (item_shows hc hresults).bind fun results c' _ hplaced hr => ?_
  have hsize : (resultSlices data results).size = results.size := Std.ExtTreeMap.size_map
  rw [hsize]
  exact .after (ensure_tracks _ _) hplaced fun _ c₁ _ h₁ => .pure ⟨hparams, hr⟩ h₁

theorem fields_shows [Crates] (hc : Placed Series.offset data 0 c) :
    Shows Series.offset data 0 (fun p => (p.1.values data, p.2)) (fun p => p.1.Delimited data) fields
      Bpsec.AbstractSyntaxBlock.fields c := by
  have htargets : Scan.Tracks Series.offset (mapFieldErr "security targets" (Series.item 0
      (parseArray (definiteArray (Scan.loop (.invalidCBOR .tooBig)
        AbstractSyntaxBlock.targetRound [])))) : Ser Error (List Nat)) :=
    .mapErr _ (item_tracks 0 (parseArray_eats (definiteArray_tracks
      (.loop targetRound_tracks _))).1)
  have hempty : ∀ {c : Cursor UInt8 Series}, Placed Series.offset data 0 c →
      Shows Series.offset data 0 (slices data) (AllDelimit data) (pure ∅ : Ser Error _) (pure ∅)
        c := by
    intro c hc
    have hpure := Shows.pure (ε := Error) (f := slices data) (AllDelimit.empty data) hc
    rw [slices_empty] at hpure
    exact hpure
  refine .after htargets hc fun targets c₁ _ h₁ => .after (ensure_tracks _ _) h₁ fun _ c₂ _ h₂ => ?_
  refine .after (requireCanonical_tracks 0 (newtype_resumes _ rfl) (newtype_starts _ _) _ _) h₂
    fun context c₃ _ h₃ => ?_
  refine .after (requireCanonical_tracks 0 u64_resumes u64_starts _ _) h₃ fun flags c₄ _ h₄ => ?_
  refine .after (requireCanonical_tracks 0 Eid.fromCbor_resumes Eid.fromCbor_starts _ _) h₄
    fun source c₅ _ h₅ => .after (ensure_tracks _ _) h₅ fun _ c₆ _ h₆ => ?_
  dsimp only
  split
  · refine (hempty h₆).bind fun ps c₇ _ h₇ hps => ?_
    exact resultFields_shows hps h₇
  · refine ((parseRanges_shows h₆).mapErr _).bind fun o c₇ _ h₇ ho => ?_
    cases o with
    | none =>
      refine (hempty h₇).bind fun ps c₈ _ h₈ hps => ?_
      exact resultFields_shows hps h₈
    | some m =>
      refine (Shows.pure (f := slices data) (P := AllDelimit data) (ho m rfl) h₇).bind
        fun ps c₈ _ h₈ hps => ?_
      exact resultFields_shows hps h₈

theorem fromCbor_shows [Crates] (data : Bytes) :
    Shows id data 0 (fun p => (p.1.values data, p.2)) (fun p => p.1.Delimited data) fromCbor
      Bpsec.AbstractSyntaxBlock.fromCbor ⟨0, data⟩ := by
  have hplaced : Placed id data 0 ⟨0, data⟩ := ⟨Nat.zero_le _, rfl⟩
  exact parseSequence_shows hplaced fun _ hc => fields_shows hc

end

/-! ## The operations -/

theorem boundedSlice_eq {data : Bytes} {id : Nat} {r : Range} (h : Delimits data id r) :
    boundedSlice data r = .ok (r.slice data) :=
  if_pos ⟨h.start_le, h.stop_le⟩

section

variable [HashOrder] {data : Bytes}

omit [HashOrder] in
theorem decodeBox_eq {id : Nat} {r : Range} (h : Delimits data id r) :
    decodeBox r data = Bpsec.decodeBox (r.slice data) := by
  rw [decodeBox, boundedSlice_eq h]
  rfl

omit [HashOrder] in
theorem decodeNewtype_eq {α : Type} (f : Nat → α) {id : Nat} {r : Range}
    (h : Delimits data id r) : decodeNewtype f r data = Bpsec.decodeNewtype f (r.slice data) := by
  rw [decodeNewtype, boundedSlice_eq h]
  rfl

theorem sliceMap_eq (h : AllDelimit data m) : sliceMap m data = .ok (slices data m) := by
  refine mapEntries_ok.mpr ⟨fun k r hr => ⟨_, boundedSlice_eq (h k r hr), ?_⟩, fun k hk => ?_⟩
  · rw [slices_get, hr]
    rfl
  · rw [slices_get, hk]
    rfl

theorem slices_perm (m : HashMap Range) :
    (HashOrder.iter (slices data m)).Perm
      ((HashOrder.iter m).map fun e => (e.1, e.2.slice data)) := by
  have hkeys : ((HashOrder.iter m).map fun e => (e.1, e.2.slice data)).Pairwise
      fun a b => a.1 ≠ b.1 := List.pairwise_map.mpr (HashOrder.iter_pairwise m)
  refine (List.perm_ext_iff_of_nodup (nodup_of_keys (HashOrder.iter_pairwise _))
    (nodup_of_keys hkeys)).mpr fun e => ?_
  rw [HashOrder.mem_iter, slices_get, Option.map_eq_some_iff, List.mem_map]
  constructor
  · rintro ⟨r, hr, he⟩
    exact ⟨(e.1, r), HashOrder.mem_iter.mpr hr, Prod.ext rfl he⟩
  · rintro ⟨⟨k, r⟩, hr, rfl⟩
    exact ⟨r, HashOrder.mem_iter.mp hr, rfl⟩

theorem foldlM_slices {σ : Type} {step : σ → Nat × Range → Except Error σ}
    {step' : σ → Nat × Bytes → Except Error σ}
    (hstep : ∀ s (e : Nat × Range), Delimits data e.1 e.2 →
      step s e = step' s (e.1, e.2.slice data))
    (hswap : ∀ {s a b s₁ s₂}, a.1 ≠ b.1 → step' s a = .ok s₁ → step' s₁ b = .ok s₂ →
      ∃ s₁', step' s b = .ok s₁' ∧ step' s₁' a = .ok s₂) (hm : AllDelimit data m) {s s' : σ} :
    (HashOrder.iter m).foldlM step s = .ok s' ↔
      (HashOrder.iter (slices data m)).foldlM step' s = .ok s' := by
  have heq : (HashOrder.iter m).foldlM step s =
      ((HashOrder.iter m).map fun e => (e.1, e.2.slice data)).foldlM step' s := by
    rw [List.foldlM_map]
    exact Fold.foldlM_congr (P := fun _ => True) (fun _ _ _ => trivial)
      (fun he _ => hstep _ _ (hm _ _ (HashOrder.mem_iter.mp he))) trivial
  have hkeys : ((HashOrder.iter m).map fun e => (e.1, e.2.slice data)).Pairwise
      fun a b => a.1 ≠ b.1 := List.pairwise_map.mpr (HashOrder.iter_pairwise m)
  rw [heq]
  constructor
  · intro h
    refine Fold.foldlM_perm (fun h => h.symm) ?_ (slices_perm m).symm hkeys h
    exact hswap
  · intro h
    refine Fold.foldlM_perm (fun h => h.symm) ?_ (slices_perm m) (HashOrder.iter_pairwise _) h
    exact hswap

section

omit [HashOrder]

theorem HmacSha2.seeParameter_eq (s : HmacSha2.Parameters) (e : Nat × Range)
    (h : Delimits data e.1 e.2) :
    seeParameter data s e = Bpsec.HmacSha2.seeParameter s (e.1, e.2.slice data) := by
  obtain ⟨id, r⟩ := e
  simp only [seeParameter, Bpsec.HmacSha2.seeParameter, decodeBox_eq h, decodeNewtype_eq _ h]
  all_goals rfl

theorem AesGcm.seeParameter_eq (s : AesGcm.Seen) (e : Nat × Range)
    (h : Delimits data e.1 e.2) :
    seeParameter data s e = Bpsec.AesGcm.seeParameter s (e.1, e.2.slice data) := by
  obtain ⟨id, r⟩ := e
  simp only [seeParameter, Bpsec.AesGcm.seeParameter, decodeBox_eq h, decodeNewtype_eq _ h]
  all_goals rfl

theorem seeResult_eq (s : Option Bytes) (e : Nat × Range) (h : Delimits data e.1 e.2) :
    seeResult data s e = Bpsec.AesGcm.seeResult s (e.1, e.2.slice data) := by
  obtain ⟨id, r⟩ := e
  simp only [seeResult, Bpsec.AesGcm.seeResult, decodeBox_eq h]
  all_goals rfl

end

theorem HmacSha2.parameters_iff (hm : AllDelimit data m) {p : HmacSha2.Parameters} :
    parameters m data = .ok p ↔ Bpsec.HmacSha2.Parameters.fromCbor (slices data m) = .ok p :=
  foldlM_slices seeParameter_eq Bpsec.HmacSha2.seeParameter_swap hm

theorem AesGcm.parameters_iff (hm : AllDelimit data m) {p : AesGcm.Parameters} :
    parameters m data = .ok p ↔ Bpsec.AesGcm.Parameters.fromCbor (slices data m) = .ok p := by
  rw [parameters, Bpsec.AesGcm.Parameters.fromCbor, Fold.bind_ok, Fold.bind_ok]
  simp only [foldlM_slices seeParameter_eq Bpsec.AesGcm.seeParameter_swap hm]

theorem AesGcm.results_iff (hm : AllDelimit data m) {r : AesGcm.Results} :
    results m data = .ok r ↔ Bpsec.AesGcm.Results.fromCbor (slices data m) = .ok r :=
  foldlM_slices seeResult_eq Bpsec.AesGcm.seeResult_swap hm

theorem HmacSha2.results_iff (hm : AllDelimit data m) {r : HmacSha2.Results} :
    results m data = .ok r ↔ Bpsec.HmacSha2.Results.fromCbor (slices data m) = .ok r := by
  rw [results, Bpsec.HmacSha2.Results.fromCbor, Fold.bind_ok, Fold.bind_ok]
  refine exists_congr fun tag => and_congr ?_ ?_
  · exact foldlM_slices seeResult_eq Bpsec.AesGcm.seeResult_swap hm
  · cases tag <;> rfl

variable {asb : AbstractSyntaxBlock}

theorem intoOperations_iff {P R Op : Type} (h : asb.Delimited data)
    {paramsField resultsField : String} {params : HashMap Range → Bytes → Except Error P}
    {params' : HashMap Bytes → Except Error P} {results : HashMap Range → Bytes → Except Error R}
    {results' : HashMap Bytes → Except Error R} {make : P → R → Op} {ops : HashMap Op}
    (hp : ∀ {m}, AllDelimit data m → ∀ {p}, params m data = .ok p ↔ params' (slices data m) = .ok p)
    (hr : ∀ {m}, AllDelimit data m →
      ∀ {r}, results m data = .ok r ↔ results' (slices data m) = .ok r) :
    asb.intoOperations data paramsField resultsField params results make = .ok ops ↔
      (asb.values data).intoOperations paramsField resultsField params' results' make =
        .ok ops := by
  rw [AbstractSyntaxBlock.intoOperations, Bpsec.AbstractSyntaxBlock.intoOperations, Fold.bind_ok,
    Fold.bind_ok]
  refine exists_congr fun p => and_congr ?_ ?_
  · rw [Fold.mapError_ok, Fold.mapError_ok]
    exact hp h.parameters
  · rw [mapEntries_ok, mapEntries_ok]
    have hmake : ∀ {m : HashMap Range}, AllDelimit data m → ∀ w, (do
        let r ← (results m data).mapError (Error.invalidField resultsField)
        pure (make p r)) = Except.ok w ↔ (do
        let r ← (results' (slices data m)).mapError (Error.invalidField resultsField)
        pure (make p r)) = Except.ok w := by
      intro m hm w
      simp only [Fold.bind_ok, Fold.mapError_ok, hr hm]
    simp only [AbstractSyntaxBlock.values, resultSlices_get, Option.map_eq_some_iff,
      Option.map_eq_none_iff, forall_exists_index, and_imp, forall_apply_eq_imp_iff₂]
    refine and_congr_left fun _ => forall_congr' fun t => forall_congr' fun m => ?_
    refine forall_congr' fun ht => exists_congr fun w => and_congr_left fun _ => ?_
    exact hmake (h.results t m ht) w

theorem UnknownOperation.parse_iff {Op : Type} {wrap : UnknownOperation → Op}
    (h : asb.Delimited data) {ops : HashMap Op} :
    UnknownOperation.parse wrap asb data = .ok ops ↔
      Bpsec.UnknownOperation.parse wrap (asb.values data) = .ok ops := by
  refine intoOperations_iff h (fun hm p => ?_) (fun hm r => ?_)
  · rw [sliceMap_eq hm]
  · rw [sliceMap_eq hm]

theorem BibSet.unpack_iff (h : asb.Delimited data) {ops : HashMap BibOperation} :
    unpack asb data = .ok ops ↔ Bpsec.BibSet.unpack (asb.values data) = .ok ops := by
  have hcontext : (asb.values data).context = asb.context := rfl
  rw [unpack, Bpsec.BibSet.unpack, hcontext]
  cases asb.context with
  | bibHmacSha2 => exact intoOperations_iff h HmacSha2.parameters_iff HmacSha2.results_iff
  | bcbAesGcm => exact Iff.rfl
  | unrecognised id => exact UnknownOperation.parse_iff h

theorem BcbSet.unpack_iff (h : asb.Delimited data) {ops : HashMap BcbOperation} :
    unpack asb data = .ok ops ↔ Bpsec.BcbSet.unpack (asb.values data) = .ok ops := by
  have hcontext : (asb.values data).context = asb.context := rfl
  rw [unpack, Bpsec.BcbSet.unpack, hcontext]
  cases asb.context with
  | bibHmacSha2 => exact Iff.rfl
  | bcbAesGcm => exact intoOperations_iff h AesGcm.parameters_iff AesGcm.results_iff
  | unrecognised id => exact UnknownOperation.parse_iff h

end

section

variable [Crates] {data : Bytes}

theorem delimited {asb : AbstractSyntaxBlock} {s : Bool} {n : Nat}
    (h : runDec fromCbor data = .ok ((asb, s), n)) : asb.Delimited data := by
  obtain ⟨rest, hread⟩ := runDec_ok.mp h
  exact ((fromCbor_shows data).ok _ _ hread).2

theorem decode_iff {Op : Type} {unpack : AbstractSyntaxBlock → Bytes → Except Error (HashMap Op)}
    {unpack' : Bpsec.AbstractSyntaxBlock → Except Error (HashMap Op)}
    (hunpack : ∀ {asb : AbstractSyntaxBlock}, asb.Delimited data → ∀ {ops},
      unpack asb data = .ok ops ↔ unpack' (asb.values data) = .ok ops)
    {ops : OperationSet Op} {s : Bool} {n : Nat} :
    decode unpack data = .ok (ops, s, n) ↔
      ∃ rest, OperationSet.fromCbor unpack' ⟨0, data⟩ = .ok ((ops, s), ⟨n, rest⟩) := by
  have hsame := (fromCbor_shows data).same
  constructor
  · intro h
    obtain ⟨⟨⟨asb, s'⟩, n'⟩, hread, h⟩ := Fold.bind_ok.mp h
    obtain ⟨operations, hops, h⟩ := Fold.bind_ok.mp h
    cases h
    have hvalues := (hunpack (delimited hread)).mp hops
    obtain ⟨rest, hread⟩ := runDec_ok.mp hread
    rw [hread] at hsame
    exact ⟨rest, Scan.bind_ok_iff.mpr ⟨_, _, hsame, Scan.bind_ok_iff.mpr
      ⟨operations, _, verdict_ok.mpr ⟨hvalues, rfl⟩, rfl⟩⟩⟩
  · rintro ⟨rest, h⟩
    obtain ⟨⟨asb', s'⟩, c, hread', h⟩ := Scan.bind_ok h
    rw [hsame] at hread'
    obtain ⟨⟨⟨asb, s''⟩, c'⟩, hread, heq⟩ := Fold.map_ok.mp hread'
    cases heq
    obtain ⟨operations, c₂, hv, h⟩ := Scan.bind_ok h
    obtain ⟨hops, rfl⟩ := verdict_ok.mp hv
    cases h
    have hread := runDec_ok.mpr ⟨rest, hread⟩
    exact Fold.bind_ok.mpr ⟨_, hread, Fold.bind_ok.mpr
      ⟨operations, (hunpack (delimited hread)).mpr hops, rfl⟩⟩

theorem decode_toCbor [HashOrder] {Op : Type} (form : Form Op)
    (hemittable : ∀ {asb : Bpsec.AbstractSyntaxBlock}, asb.Ok → ∀ {operations : HashMap Op},
      form.unpack asb = .ok operations →
      (⟨asb.source, operations⟩ : OperationSet Op).Emittable form ∧ ∃ t, t ∈ operations)
    {unpack unpack' : AbstractSyntaxBlock → Bytes → Except Error (HashMap Op)}
    (hunpack : ∀ {data} {asb : AbstractSyntaxBlock}, asb.Delimited data → ∀ {ops},
      unpack asb data = .ok ops ↔ form.unpack (asb.values data) = .ok ops)
    (hunpack' : ∀ {data} {asb : AbstractSyntaxBlock}, asb.Delimited data → ∀ {ops},
      unpack' asb data = .ok ops ↔ form.unpack (asb.values data) = .ok ops)
    {ops : OperationSet Op} {s : Bool} {n : Nat} (h : decode unpack data = .ok (ops, s, n))
    (hlen : (ops.toCbor form.emitContext form.emitResult).length < wordSize) :
    decode unpack' (ops.toCbor form.emitContext form.emitResult) =
      .ok (ops, true, (ops.toCbor form.emitContext form.emitResult).length) := by
  obtain ⟨rest, hread⟩ := (decode_iff hunpack).mp h
  obtain ⟨hops, hne⟩ := fromCbor_emittable form hemittable _ _ _ hread
  exact (decode_iff hunpack').mpr ⟨[], (OperationSet.fromCbor_toCbor hops hne hlen).2⟩

/-- What `OperationSet::to_cbor` writes for a decoded set is decoded as the set, whatever the
orders of the hash maps, and every range that the decoder keeps is that of the value behind its
id. -/
theorem comes_back (o o' o'' : HashOrder) (data : Bytes) :
    (∀ asb s n, runDec fromCbor data = .ok ((asb, s), n) → asb.Delimited data) ∧
    (∀ (ops : BibSet) s n, decode (@BibSet.unpack o) data = .ok (ops, s, n) →
      (@Bpsec.BibSet.toCbor _ o' ops).length < wordSize →
      decode (@BibSet.unpack o'') (@Bpsec.BibSet.toCbor _ o' ops) =
        .ok (ops, true, (@Bpsec.BibSet.toCbor _ o' ops).length)) ∧
    (∀ (ops : BcbSet) s n, decode (@BcbSet.unpack o) data = .ok (ops, s, n) →
      (@Bpsec.BcbSet.toCbor _ o' ops).length < wordSize →
      decode (@BcbSet.unpack o'') (@Bpsec.BcbSet.toCbor _ o' ops) =
        .ok (ops, true, (@Bpsec.BcbSet.toCbor _ o' ops).length)) := by
  have hbib : ∀ (o : HashOrder) {data} {asb : AbstractSyntaxBlock}, asb.Delimited data →
      ∀ {ops}, @BibSet.unpack o asb data = .ok ops ↔
        @Bpsec.BibSet.unpack o' (asb.values data) = .ok ops := fun o {_ _} h {_} =>
    (@BibSet.unpack_iff o _ _ h _).trans ⟨BibSet.unpack_order o o', BibSet.unpack_order o' o⟩
  have hbcb : ∀ (o : HashOrder) {data} {asb : AbstractSyntaxBlock}, asb.Delimited data →
      ∀ {ops}, @BcbSet.unpack o asb data = .ok ops ↔
        @Bpsec.BcbSet.unpack o' (asb.values data) = .ok ops := fun o {_ _} h {_} =>
    (@BcbSet.unpack_iff o _ _ h _).trans ⟨BcbSet.unpack_order o o', BcbSet.unpack_order o' o⟩
  let _ : HashOrder := o'
  refine ⟨fun _ _ _ => delimited, fun ops s n h hlen => ?_, fun ops s n h hlen => ?_⟩
  · exact decode_toCbor BibSet.form BibSet.unpack_emittable (hbib o) (hbib o'') h hlen
  · exact decode_toCbor BcbSet.form BcbSet.unpack_emittable (hbcb o) (hbcb o'') h hlen

end

def twoTargets (context : UInt8) (parameter : Bytes) : Bytes :=
  [0x82, 0x01, 0x02, context, 0x01, 0x82, 0x02, 0x82, 0x02, 0x01, 0x81] ++ parameter ++
    [0x82, 0x81, 0x82, 0x01, 0x42, 0xAA, 0xBB, 0x81, 0x82, 0x01, 0x42, 0xCC, 0xDD]

def keyParameter : Bytes := [0x82, 0x02, 0x41, 0x07]

def ivParameter : Bytes := [0x82, 0x01, 0x4C] ++ List.replicate 12 0x07

@[reducible] def backwards : HashOrder :=
  ⟨fun m => m.toList.reverse, fun m => List.reverse_perm m.toList⟩

theorem comes_back_twoTargets :
    (∃ ops, @decode .reference _ (@BibSet.unpack .sorted) (twoTargets 1 keyParameter) =
        .ok (ops, true, 28) ∧
      @decode .reference _ (@BibSet.unpack .sorted)
        (@Bpsec.BibSet.toCbor .reference backwards ops) = .ok (ops, true, 28)) ∧
    ∃ ops, @decode .reference _ (@BcbSet.unpack .sorted) (twoTargets 2 ivParameter) =
        .ok (ops, true, 39) ∧
      @decode .reference _ (@BcbSet.unpack .sorted)
        (@Bpsec.BcbSet.toCbor .reference backwards ops) = .ok (ops, true, 39) := by
  constructor
  · obtain ⟨⟨ops, s, n⟩, h, hlen⟩ := Option.map_eq_some_iff.mp
      (by decide +kernel : (@decode .reference _ (@BibSet.unpack .sorted)
        (twoTargets 1 keyParameter)).toOption.map
          (fun r => ((@Bpsec.BibSet.toCbor .reference backwards r.1).length, r.2)) =
            some (28, true, 28))
    obtain ⟨hlen, hrest⟩ := Prod.mk.inj hlen
    cases hrest
    have hread := Fold.ok_of_toOption h
    have hback := (@comes_back .reference .sorted backwards .sorted (twoTargets 1 keyParameter)).2.1 ops _ _
      hread
    rw [hlen] at hback
    exact ⟨ops, hread, hback (by decide)⟩
  · obtain ⟨⟨ops, s, n⟩, h, hlen⟩ := Option.map_eq_some_iff.mp
      (by decide +kernel : (@decode .reference _ (@BcbSet.unpack .sorted)
        (twoTargets 2 ivParameter)).toOption.map
          (fun r => ((@Bpsec.BcbSet.toCbor .reference backwards r.1).length, r.2)) =
            some (39, true, 39))
    obtain ⟨hlen, hrest⟩ := Prod.mk.inj hlen
    cases hrest
    have hread := Fold.ok_of_toOption h
    have hback := (@comes_back .reference .sorted backwards .sorted (twoTargets 2 ivParameter)).2.2 ops _ _
      hread
    rw [hlen] at hback
    exact ⟨ops, hread, hback (by decide)⟩

end Ranged

end Hardy.Bpsec
