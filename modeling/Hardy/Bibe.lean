import Hardy.Bpa.Reported
import Hardy.Cbor.Located
import Hardy.Cbor.Widths

/-!
# Bundles in bundles

Model of `bibe/src/pdu.rs`: `encapsulate` puts a bundle into the payload of another one as a
BIBE-PDU, and `decapsulate` takes it out.  The PDU that `encapsulate` writes is one of many that
`decapsulate` takes: `Pdu` says which these are, and where the inner bundle stands in them.
-/

namespace Hardy.Bibe

open Cbor

inductive Error where
  | segmentedPdu
  | bundleParse (source : Hardy.Error)
  | bundleBuild (source : BuilderError)
  | cbor (source : Cbor.Error)

instance : FromCborError Error where
  ofCbor := .cbor
  needMore
    | .cbor x => x.short
    | _ => none
  needMore_ofCbor _ := rfl

def withLifetime (b : Builder) (lifetime : Duration) : Builder :=
  { b with
    lifetime := ⟨min lifetime.nanos (Duration.fromMillis (wordSize - 1)).nanos⟩
    lifetime_le := Nat.min_le_right _ _ }

def pdu (inner : Bytes) : Bytes :=
  emitArray [emitUint 0, emitUint 0, emitUint 0, emitBytes inner]

def outerBuilder (tunnelSource outerDest : Eid) (lifetime : Duration) (inner : Bytes) : Builder :=
  (withLifetime (.new tunnelSource outerDest) lifetime).withPayload (pdu inner)

def segmentRange (segmentStart : Nat) (value : Value) (_ : Bool) (tags : List Nat) :
    Except Cbor.Error Range :=
  match value with
  | .bytes start b => .ok ⟨segmentStart + start, segmentStart + (start + b.length)⟩
  | value => .error (.incorrectType "Byte String" (value.itemType tags))

/-- The closure of `decapsulate` over the items of the PDU. -/
def pduRange : Ser Error Range := do
  let (transmissionId, _) ← Series.item 1 (lift u64)
  let (totalLength, _) ← Series.item 1 (lift u64)
  let (segmentedOffset, _) ← Series.item 1 (lift u64)
  if transmissionId ≠ 0 ∨ totalLength ≠ 0 ∨ segmentedOffset ≠ 0 then throw .segmentedPdu
  else
    let segmentStart ← offset
    Series.item 1 (lift (parseValue fun value shortest tags =>
      verdict (segmentRange segmentStart value shortest tags)))

section

variable [Crates] [HashOrder]

def encapsulate (tunnelSource : Eid) (inner : Bytes) (outerDest : Eid)
    (timestamp : CreationTimestamp) : Except Error Bytes := do
  let parsed ← (parse inner).mapError .bundleParse
  let lifetime := parsed.bundle.primary.lifetime
  let (_, data) ← ((outerBuilder tunnelSource outerDest lifetime parsed.data).build
    timestamp).mapError .bundleBuild
  pure data

def decapsulate (outerBytes : Bytes) : Except Error Bytes := do
  let parsed ← (parse outerBytes).mapError .bundleParse
  match (parsed.bundle.blocks[1]?).bind (·.payload parsed.data) with
  | none => .error (.bundleParse (.missingBlock 1))
  | some payload =>
    let (innerRange, len) ← runDec (parseArray fun _ _ => pduRange) payload
    if len ≠ payload.length then .error (.cbor .additionalItems)
    else pure (innerRange.slice payload)

end

/-! ## What is taken for a PDU -/

def UintBytes (v : Nat) (e : Bytes) : Prop :=
  ∃ tags head, e = tags ++ head ∧ TagHeads tags ∧ HeadBytes 0 v head

def StringBytes (b e : Bytes) : Prop :=
  ∃ tags head, e = tags ++ (head ++ b) ∧ TagHeads tags ∧ HeadBytes 2 b.length head

def FourItems (start stop : Bytes) : Prop :=
  ∃ tags head, start = tags ++ head ∧ TagHeads tags ∧
    ((HeadBytes 4 4 head ∧ stop = []) ∨ (head = [0x9F] ∧ stop = [0xFF]))

/-- One array of three zeros and a byte string, and nothing else. -/
def Pdu (payload inner : Bytes) : Prop :=
  ∃ start zero₁ zero₂ zero₃ segment stop,
    payload = start ++ (zero₁ ++ (zero₂ ++ (zero₃ ++ (segment ++ stop)))) ∧ FourItems start stop ∧
      UintBytes 0 zero₁ ∧ UintBytes 0 zero₂ ∧ UintBytes 0 zero₃ ∧ StringBytes inner segment

def Front (front inner : Bytes) : Prop :=
  ∃ zero₁ zero₂ zero₃ head, front = zero₁ ++ (zero₂ ++ (zero₃ ++ head)) ∧ UintBytes 0 zero₁ ∧
    UintBytes 0 zero₂ ∧ UintBytes 0 zero₃ ∧ StringBytes inner (head ++ inner)

theorem Front.pdu {front inner start stop : Bytes} (h : Front front inner)
    (hfour : FourItems start stop) : Pdu (start ++ front ++ (inner ++ stop)) inner := by
  obtain ⟨zero₁, zero₂, zero₃, head, rfl, h₁, h₂, h₃, hstring⟩ := h
  refine ⟨start, zero₁, zero₂, zero₃, head ++ inner, stop, ?_, hfour, h₁, h₂, h₃, hstring⟩
  simp only [List.append_assoc]

variable {st : Series} {c : Cursor UInt8 Series} {d : Bytes}

theorem item_u64 {v : Nat × Bool}
    (h : Series.item 1 (lift u64 : Dec Error (Nat × Bool)) ⟨st, d⟩ = .ok (v, c)) :
    ∃ e, d = e ++ c.rest ∧ UintBytes v.1 e ∧
      c.st = { st with parsed := st.parsed + 1, offset := st.offset + e.length } := by
  obtain ⟨len, h, hst⟩ := item_ok h
  obtain ⟨⟨⟨tagged, marker⟩, s⟩, c₁, hhead, h⟩ := Scan.bind_ok (lift_ok_iff.mp h)
  dsimp only at h
  split at h
  · next w =>
      obtain ⟨rfl, hc⟩ := Scan.pure_ok_iff.mp h
      obtain ⟨tags, e, hu, hlen, ht, he⟩ := head_takes hhead
      rw [← hc] at hu hlen
      refine ⟨tags ++ e, hu, ⟨tags, e, rfl, ht, he.sized 0 w (Nat.zero_le _) rfl⟩, ?_⟩
      rw [hst]
      simpa using hlen
  · cases h

theorem item_segment {start : Nat} {r : Range}
    (h : Series.item 1 (lift (parseValue fun value shortest tags =>
      verdict (segmentRange start value shortest tags)) : Dec Error Range) ⟨st, d⟩ = .ok (r, c)) :
    ∃ head b, d = head ++ (b ++ c.rest) ∧ StringBytes b (head ++ b) ∧
      r = ⟨start + head.length, start + (head.length + b.length)⟩ ∧
      c.st = { st with parsed := st.parsed + 1, offset := st.offset + (head ++ b).length } := by
  obtain ⟨len, h, hst⟩ := item_ok h
  obtain ⟨⟨⟨tagged, marker⟩, s⟩, c₁, hhead, h⟩ := Scan.bind_ok (lift_ok_iff.mp h)
  obtain ⟨tags, e, hu, hlen, ht, he⟩ := head_takes (lift_ok_iff.mp hhead)
  cases marker with
  | bytes length =>
    cases length with
    | none =>
      obtain ⟨p, c₂, -, h⟩ := Scan.bind_ok h
      cases h
    | some length =>
      obtain ⟨off, c₂, hlook, h⟩ := Scan.bind_ok h
      cases hlook
      obtain ⟨b, ⟨st₃, r₃⟩, hext, h⟩ := Scan.bind_ok h
      have hext := lift_ok_iff.mp hext
      obtain ⟨hb, rfl, -⟩ := extent_spelled hext
      obtain ⟨u, hu', hlen', -⟩ := (extent_resumes b.length).stepwise.ok hext
      obtain rfl : u = b := List.append_cancel_right (hu'.symm.trans hb)
      cases h
      simp only [id, Nat.zero_add] at hlen hlen'
      refine ⟨tags ++ e, u, by rw [hu, hb], ⟨tags, e, List.append_assoc .., ht, ?_⟩, ?_, ?_⟩
      · exact he.sized 2 u.length (by decide) rfl
      · simp only [id, hlen]
      · rw [hst, hlen', hlen]
        simp only [List.length_append]
  | text length =>
    cases length with
    | none =>
      obtain ⟨p, c₂, -, h⟩ := Scan.bind_ok h
      cases h
    | some length =>
      obtain ⟨b, c₂, -, h⟩ := Scan.bind_ok h
      obtain ⟨text, c₃, -, h⟩ := Scan.bind_ok h
      cases h
  | array count =>
    obtain ⟨n, s', r', -, h, -⟩ := withSeries_ran h
    cases h
  | map count =>
    obtain ⟨n, s', r', -, h, -⟩ := withSeries_ran h
    cases h
  | _ => cases h

/-! ## What is taken out -/

theorem pduRange_ok {st : Series} {d : Bytes} {r : Range} {c : Cursor UInt8 Series}
    (h : pduRange ⟨st, d⟩ = .ok (r, c)) :
    ∃ front inner, d = front ++ (inner ++ c.rest) ∧
      Front front inner ∧
      r = ⟨st.offset + front.length, st.offset + (front.length + inner.length)⟩ ∧
      c.st = { st with
        parsed := st.parsed + 4, offset := st.offset + (front.length + inner.length) } ∧
      ∀ n, st.count = some n → st.parsed + 3 < n := by
  obtain ⟨⟨v₁, s₁⟩, ⟨st₁, d₁⟩, h₁, h⟩ := Scan.bind_ok h
  obtain ⟨⟨v₂, s₂⟩, ⟨st₂, d₂⟩, h₂, h⟩ := Scan.bind_ok h
  obtain ⟨⟨v₃, s₃⟩, ⟨st₃, d₃⟩, h₃, h⟩ := Scan.bind_ok h
  dsimp only at h
  split at h
  · cases h
  · next hzero =>
      obtain ⟨start, c₄, hoffset, hitem⟩ := Scan.bind_ok h
      cases hoffset
      obtain ⟨rfl, rfl, rfl⟩ : v₁ = 0 ∧ v₂ = 0 ∧ v₃ = 0 := by
        simpa [not_or] using hzero
      obtain ⟨e₁, hd₁, he₁, hst₁⟩ := item_u64 h₁
      obtain ⟨e₂, hd₂, he₂, hst₂⟩ := item_u64 h₂
      obtain ⟨e₃, hd₃, he₃, hst₃⟩ := item_u64 h₃
      obtain ⟨head, b, hd, hstring, rfl, hst⟩ := item_segment hitem
      dsimp only at hd₁ hst₁ hd₂ hst₂ hd₃ hst₃ hd hst
      refine ⟨e₁ ++ (e₂ ++ (e₃ ++ head)), b, ?_, ⟨e₁, e₂, e₃, head, rfl, he₁, he₂, he₃, hstring⟩,
        ?_, ?_, fun n hn => ?_⟩
      · rw [hd₁, hd₂, hd₃, hd]
        simp only [List.append_assoc]
      · simp only [hst₃, hst₂, hst₁, List.length_append, Range.mk.injEq]
        exact ⟨by simp only [Nat.add_assoc], by simp only [Nat.add_assoc]⟩
      · rw [hst, hst₃, hst₂, hst₁]
        simp only [List.length_append, Nat.add_assoc, Nat.reduceAdd]
      · have hcount : st₃.count = some n := by rw [hst₃, hst₂, hst₁, hn]
        obtain ⟨-, -, -, hlt⟩ := item_ran hcount hitem
        rw [hst₃, hst₂, hst₁] at hlt
        exact hlt

theorem itemCount_one {count n : Option Nat} (h : Series.itemCount 1 count = .ok n) : count = n := by
  cases count with
  | none => exact Except.ok.inj h
  | some k =>
    rw [Series.itemCount] at h
    split at h
    · rw [← Except.ok.inj h, Nat.max_self, Nat.mul_one]
    · cases h

theorem complete_four {count : Option Nat} {off : Nat} {r r' : Range}
    (hfull : ∀ n, count = some n → 3 < n)
    (h : (complete 1 r : Ser Error Range) ⟨⟨count, off, 4⟩, d⟩ = .ok (r', c)) :
    r' = r ∧ ((count = some 4 ∧ d = c.rest ∧ c.st.offset = off) ∨
      (count = none ∧ d = 0xFF :: c.rest ∧ c.st.offset = off + 1)) := by
  cases count with
  | some n =>
    rw [complete, unlessEnd_definite rfl] at h
    split at h
    · next hle =>
        obtain ⟨rfl, rfl⟩ := Scan.pure_ok_iff.mp h
        have h3 := hfull n rfl
        dsimp only at hle
        exact ⟨rfl, .inl ⟨congrArg some (by omega), rfl, rfl⟩⟩
    · cases h
  | none =>
    cases d with
    | nil =>
      rw [complete, unlessEnd_nil rfl Nat.one_pos] at h
      cases h
    | cons b d =>
      by_cases hb : b = 0xFF
      · subst hb
        rw [complete, unlessEnd_break rfl Nat.one_pos, if_pos (Nat.mod_one _)] at h
        obtain ⟨rfl, rfl⟩ := Scan.pure_ok_iff.mp h
        exact ⟨rfl, .inr ⟨rfl, rfl, rfl⟩⟩
      · rw [complete, unlessEnd_cons rfl hb] at h
        cases h

theorem runDec_pdu {payload : Bytes} {r : Range}
    (h : runDec (parseArray fun _ _ => pduRange) payload = .ok (r, payload.length)) :
    Pdu payload (r.slice payload) := by
  obtain ⟨rest, h⟩ := runDec_ok.mp h
  obtain ⟨⟨⟨tagged, marker⟩, s⟩, c₁, hhead, h⟩ := Scan.bind_ok h
  obtain ⟨tags, e, hu, hlen, ht, he⟩ := head_takes (lift_ok_iff.mp hhead)
  cases marker with
  | array count =>
    simp only [withSeries, overSeries] at h
    cases hcount : Series.itemCount 1 count with
    | error x =>
      rw [hcount] at h
      cases h
    | ok n =>
      rw [hcount] at h
      obtain ⟨st', h, hst'⟩ := Scan.within_ok.mp h
      obtain ⟨range, ⟨st₂, d₂⟩, hbody, h⟩ := Scan.bind_ok h
      obtain ⟨front, inner, hd₁, hfront, rfl, hst, hfull⟩ := pduRange_ok hbody
      dsimp only at hst hd₁
      rw [hst] at h
      obtain ⟨rfl, hclose⟩ := complete_four (by simpa using hfull) h
      dsimp only at hclose hst' ⊢
      rw [Nat.zero_add] at hlen
      have hwhole : payload = tags ++ e ++ front ++ (inner ++ d₂) := by
        rw [hu, hd₁, List.append_assoc (tags ++ e)]
      have hstart : c₁.st + front.length = (tags ++ e ++ front).length := by
        rw [hlen, @List.length_append _ (tags ++ e)]
      rw [← Nat.add_assoc] at hclose ⊢
      rw [hstart] at hclose ⊢
      have htotal := congrArg List.length hwhole
      rw [List.length_append, @List.length_append _ inner, hst'] at htotal
      rw [hwhole, ← List.append_assoc (tags ++ e ++ front), Range.slice_mid, List.append_assoc]
      refine hfront.pdu ⟨tags, e, rfl, ht, ?_⟩
      rcases hclose with ⟨rfl, rfl, hoff⟩ | ⟨rfl, rfl, hoff⟩
      · have hnil : d₂ = [] := List.length_eq_zero_iff.mp (by omega)
        exact .inl ⟨he.sized 4 4 (by decide) (congrArg Marker.array (itemCount_one hcount)), hnil⟩
      · rw [List.length_cons] at htotal
        have hnil : rest = [] := List.length_eq_zero_iff.mp (by omega)
        exact .inr ⟨he.array (congrArg Marker.array (itemCount_one hcount)), by rw [hnil]⟩
  | _ => cases h

/-! ## What is written -/

def pduFront (inner : Bytes) : Bytes :=
  emitUint 0 ++ (emitUint 0 ++ (emitUint 0 ++ emitUintMinor 2 inner.length))

theorem pdu_eq (inner : Bytes) : pdu inner = emitUintMinor 4 4 ++ (pduFront inner ++ inner) := by
  simp [pdu, emitArray, pduFront, emitBytes]

theorem pduRange_reads {inner : Bytes} (hlen : (emitBytes inner).length < wordSize) (off : Nat)
    (r : Bytes) :
    pduRange ⟨⟨some 4, off, 0⟩, pduFront inner ++ inner ++ r⟩ =
      .ok (⟨off + (pduFront inner).length, off + (pduFront inner).length + inner.length⟩,
        ⟨⟨some 4, off + (pduFront inner ++ inner).length, 4⟩, r⟩) := by
  have hzero : Reads (lift u64 : Dec Error (Nat × Bool)) (emitUint 0) (0, true) :=
    (u64_reads (by decide)).lift
  have hsegment : ∀ start, Reads (lift (parseValue fun value shortest tags =>
      verdict (segmentRange start value shortest tags)) : Dec Error Range) (emitBytes inner)
        ⟨start + (emitUintMinor 2 inner.length).length,
          start + ((emitUintMinor 2 inner.length).length + inner.length)⟩ :=
    fun start => (parseValue_reads_bytes hlen rfl).lift
  have hbytes : pduFront inner ++ inner ++ r =
      emitUint 0 ++ (emitUint 0 ++ (emitUint 0 ++ (emitBytes inner ++ r))) := by
    simp only [pduFront, emitBytes, List.append_assoc]
  have hlength : (emitUint 0).length = 1 := rfl
  rw [hbytes, pduRange]
  refine (Scan.bind_eq_of_ok (item_reads hzero (show 0 < 4 by decide) _) _).trans ?_
  refine (Scan.bind_eq_of_ok (item_reads hzero (show 1 < 4 by decide) _) _).trans ?_
  refine (Scan.bind_eq_of_ok (item_reads hzero (show 2 < 4 by decide) _) _).trans ?_
  refine (item_reads (D := 1) (hsegment _) (show 3 < 4 by decide) r).trans ?_
  simp only [pduFront, emitBytes, List.length_append, hlength, Except.ok.injEq, Prod.mk.injEq,
    Range.mk.injEq, Cursor.mk.injEq, Series.mk.injEq, true_and, and_true]
  omega

theorem runDec_written {inner : Bytes} (hlen : (pdu inner).length < wordSize) :
    runDec (parseArray fun _ _ => pduRange) (pdu inner) =
      .ok (⟨(emitUintMinor 4 4 ++ pduFront inner).length,
        (emitUintMinor 4 4 ++ pduFront inner).length + inner.length⟩, (pdu inner).length) := by
  have hbytes : (emitBytes inner).length < wordSize := by
    simp only [pdu_eq, pduFront, emitBytes, List.length_append] at hlen ⊢
    omega
  have hhead := head_emit (show 4 ≤ 5 by decide) (show 4 < wordSize by decide) 0
    (pduFront inner ++ inner)
  have hseries := withSeries_reads (show 4 < wordSize by decide) (pduRange_reads hbytes 1 [])
  refine runDec_ok.mpr ⟨[], ?_⟩
  rw [pdu_eq, parseArray, Scan.bind_eq_of_ok (lift_ok hhead)]
  rw [List.append_nil] at hseries
  refine hseries.trans ?_
  have hone : (emitUintMinor 4 4).length = 1 := rfl
  simp only [List.length_append, hone, Nat.add_assoc]

/-! ## Tunnels -/

section

variable [Crates] [HashOrder]

theorem parse_data {data : Bytes} {p : Parsed} (h : parse data = .ok p) : p.data = data := by
  obtain ⟨f, -, h⟩ := parse_ok.mp h
  rw [Finished.finish] at h
  split at h
  · rw [← Except.ok.inj h]
  · obtain ⟨⟨blocks, bibs⟩, -, h⟩ := Fold.bind_ok.mp h
    rw [← Except.ok.inj h]

theorem decapsulate_pdu {outer inner : Bytes} (h : decapsulate outer = .ok inner) :
    ∃ p block payload, parse outer = .ok p ∧ p.bundle.blocks[1]? = some block ∧
      block.payload outer = some payload ∧ Pdu payload inner := by
  obtain ⟨p, hp, h⟩ := Fold.bind_ok.mp h
  have hp := Fold.mapError_ok.mp hp
  dsimp only at h
  split at h
  · cases h
  · next payload hpayload =>
      obtain ⟨block, hblock, hpayload⟩ := Option.bind_eq_some_iff.mp hpayload
      obtain ⟨⟨r, len⟩, hrun, h⟩ := Fold.bind_ok.mp h
      dsimp only at h
      split at h
      · cases h
      · next hlen =>
          obtain rfl := Except.ok.inj h
          rw [not_not] at hlen
          subst hlen
          rw [parse_data hp] at hpayload
          exact ⟨p, block, payload, hp, hblock, hpayload, runDec_pdu hrun⟩

def outerPrimary (tunnelSource outerDest : Eid) (lifetime : Duration)
    (timestamp : CreationTimestamp) : PrimaryBlock where
  flags := {}
  id := ⟨tunnelSource, timestamp, none⟩
  crcType := .crc32Castagnoli
  destination := outerDest
  reportTo := tunnelSource
  lifetime := lifetime

variable {tunnelSource outerDest : Eid} {lifetime : Duration} {inner : Bytes}

omit [Crates] [HashOrder] in
theorem outerBuilder_primary (hlifetime : ∃ ms, ms < wordSize ∧ lifetime = .fromMillis ms)
    (timestamp : CreationTimestamp) :
    (outerBuilder tunnelSource outerDest lifetime inner).primary timestamp =
      outerPrimary tunnelSource outerDest lifetime timestamp := by
  obtain ⟨ms, hms, rfl⟩ := hlifetime
  have hmin : min (Duration.fromMillis ms).nanos (Duration.fromMillis (wordSize - 1)).nanos =
      (Duration.fromMillis ms).nanos := by
    refine Nat.min_eq_left (Nat.mul_le_mul_right _ ?_)
    omega
  show PrimaryBlock.mk _ _ _ _ _ ⟨min _ _⟩ = _
  rw [hmin]
  rfl

omit [Crates] [HashOrder] in
theorem outerBuilder_stated : (outerBuilder tunnelSource outerDest lifetime inner).payload.Stated :=
  ⟨show 1 < wordSize by decide, nofun, rfl⟩

omit [HashOrder] in
theorem outerPrimary_reads {last : Nat} {now : Int} {pb : Bytes} (hs : tunnelSource.WellFormed)
    (hd : outerDest.WellFormed) (hlifetime : ∃ ms, ms < wordSize ∧ lifetime = .fromMillis ms)
    (hpb : (outerPrimary tunnelSource outerDest lifetime (.now last now)).emit = .ok pb)
    (hlen : pb.length < wordSize) : Reads PrimaryBlock.fromCbor pb
      (outerPrimary tunnelSource outerDest lifetime (CreationTimestamp.now last now).reread, true) := by
  have hemit : (outerPrimary tunnelSource outerDest lifetime
      (CreationTimestamp.now last now).reread).emit = .ok pb := by
    rw [← hpb]
    refine PrimaryBlock.emit_congr ?_ rfl
    simp only [PrimaryBlock.items, outerPrimary, CreationTimestamp.toCbor_reread]
  refine PrimaryBlock.reads_emit ?_ hemit hlen
  exact {
    flags := fun _ h => by cases h
    crcType := rfl
    destination := hd
    source := hs
    reportTo := hs
    timestamp := CreationTimestamp.now_reread_wellFormed last now
    lifetime := hlifetime
    fragmented := rfl
    fragment := fun _ h => by cases h }

theorem decapsulate_encapsulate {p : Parsed} (last : Nat) (now : Int) (hs : tunnelSource.Decodable)
    (hsource : tunnelSource.isNull = false) (hd : outerDest.Decodable) (hp : parse inner = .ok p) :
    ∃ outer, encapsulate tunnelSource inner outerDest (.now last now) = .ok outer ∧
      (outer.length < wordSize → (∃ q, parse outer = .ok q ∧
        q.bundle.primary.lifetime = p.bundle.primary.lifetime) ∧ decapsulate outer = .ok inner) := by
  obtain ⟨⟨bundle, outer⟩, hbuild⟩ := Builder.build_isOk
    (b := outerBuilder tunnelSource outerDest p.bundle.primary.lifetime inner) (.now last now)
    rfl rfl outerBuilder_stated rfl
  refine ⟨outer, ?_, fun hlen => ?_⟩
  · refine Fold.bind_ok.mpr ⟨p, by rw [hp]; rfl, ?_⟩
    refine Fold.bind_ok.mpr ⟨(bundle, outer), ?_, rfl⟩
    rw [parse_data hp, hbuild]
    rfl
  · have hlifetime := (parse_primary hp).1.lifetime
    obtain ⟨pb, payload, hpb, hof, rfl, -⟩ := Builder.build_bare hbuild rfl outerBuilder_stated
      nofun hlen
    have hparts : pb.length < wordSize ∧ payload.body.length < wordSize := by
      simp only [bundleBytes, wireBytes_cons, wireBytes_nil, Wire.bytes, List.length_cons,
        List.length_append] at hlen
      omega
    rw [outerBuilder_primary hlifetime] at hpb
    have hreads := outerPrimary_reads (Eid.wellFormed_of_decodable hs)
      (Eid.wellFormed_of_decodable hd) hlifetime hpb hparts.1
    have hflags : (outerPrimary tunnelSource outerDest p.bundle.primary.lifetime
        (CreationTimestamp.now last now).reread).flagsOk = true := by
      simp [PrimaryBlock.flagsOk, outerPrimary, hsource]
    obtain ⟨q, hq, hprimary, block, hblock, hbody⟩ := parse_bare hof rfl rfl hreads
      (PrimaryBlock.emit_plain hpb) hflags hlen.le
    refine ⟨⟨q, hq, by rw [hprimary]; rfl⟩, ?_⟩
    have hpdu : payload.body = pdu inner := (Option.some.inj hof.1).symm
    have hrun := runDec_written (by rw [← hpdu]; exact hparts.2)
    refine Fold.bind_ok.mpr ⟨q, by rw [hq]; rfl, ?_⟩
    have hpayload : (q.bundle.blocks[1]?).bind (·.payload q.data) = some (pdu inner) := by
      rw [hblock, parse_data hq]
      exact hbody.trans rfl
    simp only [hpayload]
    refine Fold.bind_ok.mpr ⟨_, hrun, ?_⟩
    simp only [ne_eq, not_true_eq_false, if_false]
    have hslice := Range.slice_mid (emitUintMinor 4 4 ++ pduFront inner) inner []
    rw [List.append_nil, List.append_assoc (emitUintMinor 4 4), ← pdu_eq] at hslice
    rw [hslice]
    rfl

/-- A tunnel gives back what was put into it, and takes nothing but PDUs apart. -/
theorem tunnel_exact :
    (∀ (tunnelSource outerDest : Eid) (inner : Bytes) (p : Parsed) (last : Nat) (now : Int),
      tunnelSource.Decodable → tunnelSource.isNull = false → outerDest.Decodable →
      parse inner = .ok p →
        ∃ outer, encapsulate tunnelSource inner outerDest (.now last now) = .ok outer ∧
          (outer.length < wordSize →
            (∃ q, parse outer = .ok q ∧
              q.bundle.primary.lifetime = p.bundle.primary.lifetime) ∧
            decapsulate outer = .ok inner)) ∧
    ∀ outer inner, decapsulate outer = .ok inner →
      ∃ p block payload, parse outer = .ok p ∧ p.bundle.blocks[1]? = some block ∧
        block.payload outer = some payload ∧ Pdu payload inner :=
  ⟨fun _ _ _ _ last now hs hsource hd hp =>
    decapsulate_encapsulate last now hs hsource hd hp, fun _ _ => decapsulate_pdu⟩

end

/-- From `ipn:2.1` to `ipn:3.1` over a tunnel from `ipn:5.1` to `ipn:6.1`. -/
theorem requesting_tunnelled : ∃ outer p q,
    @encapsulate .reference .sorted (.ipn ⟨0, 5⟩ 1) Bpa.requestingData (.ipn ⟨0, 6⟩ 1) (.now 0 0) =
      .ok outer ∧
    @parse .reference .sorted Bpa.requestingData = .ok p ∧ @parse .reference .sorted outer = .ok q ∧
    q.bundle.primary.lifetime = p.bundle.primary.lifetime ∧
    @decapsulate .reference .sorted outer = .ok Bpa.requestingData := by
  have heid : ∀ n, n = 5 ∨ n = 6 → @Eid.Decodable .reference (.ipn ⟨0, n⟩ 1) := by
    intro n hn
    refine @Eid.decodable_of_wellFormed .reference _ ⟨Nat.zero_le _, ?_, by decide,
      fun _ => ⟨?_, ?_⟩⟩ ?_
    · rcases hn with rfl | rfl <;> decide
    · rcases hn with rfl | rfl <;> decide
    · rcases hn with rfl | rfl <;> decide
    · rcases hn with rfl | rfl <;> decide
  have hok : (@parse .reference .sorted Bpa.requestingData).toOption.isSome = true := by
    decide +kernel
  have hlen : (@encapsulate .reference .sorted (.ipn ⟨0, 5⟩ 1) Bpa.requestingData (.ipn ⟨0, 6⟩ 1)
      (.now 0 0)).toOption.map List.length = some 101 := by
    decide +kernel
  cases h : @parse .reference .sorted Bpa.requestingData with
  | error x => rw [h] at hok; cases hok
  | ok p =>
    obtain ⟨outer, houter, hback⟩ := (@tunnel_exact .reference .sorted).1 (.ipn ⟨0, 5⟩ 1)
      (.ipn ⟨0, 6⟩ 1) Bpa.requestingData p 0 0 (heid 5 (.inl rfl)) rfl (heid 6 (.inr rfl)) h
    rw [houter] at hlen
    have hlen : outer.length = 101 := Option.some.inj hlen
    obtain ⟨⟨q, hq, hlifetime⟩, hinner⟩ := hback (by rw [hlen]; decide)
    exact ⟨outer, p, q, houter, rfl, hq, hlifetime, hinner⟩

end Hardy.Bibe
