import Hardy.Crc

/-!
# The primary block

Model of `bpv7/src/primary_block.rs` with the wire forms of its fields:
`bundle::Flags`, `CreationTimestamp` and the checksum.

The source verifies the checksum over the slice it decodes from.  Here that
slice is put together from the bytes of the array head and the bytes the
fields consumed.
-/

namespace Hardy

open Cbor

variable [Crates]

/-! ## Fields -/

def BundleFlags.fromCbor : Dec Error (BundleFlags × Bool) :=
  newtype BundleFlags.ofWord .notCanonical

def BundleFlags.toCbor (f : BundleFlags) : Bytes := emitUint f.word

namespace CreationTimestamp

/-- The closure of `CreationTimestamp::from_cbor`. -/
def fields (shortest : Bool) (tags : List Nat) : Ser Error (CreationTimestamp × Bool) :=
  if !shortest || !tags.isEmpty then throw .notCanonical
  else do
    let (creationTime, _) ← mapFieldErr "bundle creation time"
      (Series.item 1 (newtype id Error.notCanonical))
    let sequenceNumber ← requireCanonical 1 u64 "sequence number" Error.notCanonical
    let definite ← isDefinite
    pure (⟨if creationTime = 0 then none else some creationTime, sequenceNumber⟩, definite)

def fromCbor : Dec Error (CreationTimestamp × Bool) := parseArray fields

def toCbor (t : CreationTimestamp) : Bytes :=
  emitArray [emitUint (t.creationTime.getD 0), emitUint t.sequenceNumber]

end CreationTimestamp

namespace PrimaryBlock

def parseItem {ε α : Type} [FromCborError ε] [ErrorInto ε Error] (m : Dec ε (α × Bool))
    (field : String) : Ser Error (α × Bool) :=
  mapFieldErr field (Series.item 1 (untagged m))

def fragmentInfoFromCbor (flags : BundleFlags) : Ser Error (Option FragmentInfo) :=
  if !flags.isFragment then pure none
  else do
    let offset ← requireCanonical 1 u64 "fragment offset" Error.notCanonical
    let totalAduLength ← requireCanonical 1 u64 "total adu length" Error.notCanonical
    ensure (decide (offset ≤ totalAduLength)) (.invalidFragmentInfo offset totalAduLength)
    pure (some ⟨offset, totalAduLength⟩)

def fields (shortest : Bool) (tags : List Nat) : Ser Error (PrimaryBlock × Bool) :=
  if !shortest || !tags.isEmpty then throw .notCanonical
  else do
    let definite ← isDefinite
    let version ← requireCanonical 1 u64 "version" Error.notCanonical
    ensure (version == 7) (.invalidVersion version)
    let flags ← requireCanonical 1 BundleFlags.fromCbor "bundle processing control flags"
      Error.notCanonical
    let crcType ← requireCanonical 1 CrcType.fromCbor "crc type" Error.notCanonical
    let (destination, destS) ← parseItem Eid.fromCbor "destination endpoint id"
    let (source, srcS) ← parseItem Eid.fromCbor "source endpoint id"
    let (reportTo, rptS) ← parseItem Eid.fromCbor "report-to endpoint id"
    let (timestamp, tsS) ← parseItem CreationTimestamp.fromCbor "timestamp"
    let lifetime ← requireCanonical 1 u64 "lifetime" Error.notCanonical
    let fragmentInfo ← fragmentInfoFromCbor flags
    pure (⟨flags, ⟨source, timestamp, fragmentInfo⟩, crcType, destination, reportTo,
      .fromMillis lifetime⟩, definite && (destS && srcS && rptS && tsS))

def crcItem (value : Value) (s : Bool) (tags : List Nat) : Except Error (Nat × Bytes) :=
  if !s || !tags.isEmpty then .error .notCanonical
  else match value with
    | .bytes start crc => .ok (start, crc)
    | _ => .error (.invalidCBOR
        (.incorrectType "Definite-length Byte String" (value.itemType tags)))

/-- The comparison of the checksum.  `before` is the slice up to the item with
the value, `item` the item and `after` what the end of the array added. -/
def checkCrc (crcType : CrcType) (crc : Option (Nat × Bytes)) (before item after : Bytes) :
    Except CrcError Unit :=
  match crcType, crc with
  | .none, none => .ok ()
  | .none, some _ => .error .unexpectedCrcValue
  | _, none => .error .missingCrc
  | crcType, some (start, crc) => do
      let value ← crcValue crcType (before ++ item.take start)
        (item.drop (start + crc.length) ++ after)
      if crc = value then .ok () else .error .incorrectCrc

def crcFromCbor (crcType : CrcType) (before : Bytes) : Ser Error Unit := do
  let (crc, item) ← Scan.consumed (mapFieldErr "CRC value"
    (Series.tryItem 1 (parseValue fun v s t => verdict (crcItem v s t)) :
      Ser Error (Option (Nat × Bytes))))
  let itemEnd ← offset
  -- `at_end` moves past nothing but a break byte
  let _ ← mapFieldErr "CRC value" (atEnd 1)
  let crcEnd ← offset
  Scan.mapErr (fun x => Error.invalidField "CRC value" (.invalidCrc x))
    (verdict (checkCrc crcType crc before item (List.replicate (crcEnd - itemEnd) 0xFF)))

/-- The closure of `PrimaryBlock::from_cbor`; `head` is the array head. -/
def closure (head : Bytes) (shortest : Bool) (tags : List Nat) :
    Ser Error (PrimaryBlock × Bool) := do
  let (p, read) ← Scan.consumed (fields shortest tags)
  crcFromCbor p.1.crcType (head ++ read)
  pure p

def fromCbor : Dec Error (PrimaryBlock × Bool) := do
  let ((head, shortest), bytes) ← Scan.consumed (lift Head.fromCbor)
  match head.marker with
  | .array count => withSeries 1 count (closure bytes shortest head.tags)
  | _ => throw (ofCbor (.incorrectType "Array" head.itemType))

def fragmentItems (i : Option FragmentInfo) : List Bytes :=
  match i with
  | none => []
  | some f => [emitUint f.offset, emitUint f.totalAduLength]

def items (p : PrimaryBlock) : List Bytes :=
  [emitUint 7, p.flags.toCbor, p.crcType.toCbor, p.destination.toCbor, p.id.source.toCbor,
    p.reportTo.toCbor, p.id.timestamp.toCbor, emitUint (p.lifetime.asMillis % wordSize)] ++
    fragmentItems p.id.fragmentInfo

def emit (p : PrimaryBlock) : Except Error Bytes :=
  match appendCrcValue p.crcType
      (emitArray (p.items ++ if p.crcType = .none then [] else [[]])) with
  | .ok b => .ok b
  | .error x => .error (.invalidCrc x)

end PrimaryBlock

/-! ## Resumption -/

omit [Crates] in
theorem u64_field_walks (field : String) :
    Walks (requireCanonical 1 u64 field Error.notCanonical) :=
  requireCanonical_walks Nat.one_pos u64_resumes u64_starts field rfl

omit [Crates] in
theorem u64_field_yields (field : String) :
    Scan.Yields (requireCanonical 1 u64 field Error.notCanonical) (· < wordSize) :=
  requireCanonical_yields u64_yields field _

omit [Crates] in
theorem newtype_field_walks {α : Type} (f : Nat → α) (field : String) :
    Walks (requireCanonical 1 (newtype f Error.notCanonical) field Error.notCanonical) :=
  requireCanonical_walks Nat.one_pos (newtype_resumes f rfl) (newtype_starts f _) field rfl

namespace CreationTimestamp

omit [Crates] in
theorem fields_walks (s : Bool) (tags : List Nat) : Walks (fields s tags) := by
  rw [fields]
  split
  · exact .throw rfl
  · refine (mapFieldErr_resumable _ (item_walks Nat.one_pos (newtype_resumes id rfl)
      (newtype_starts id _))).bind fun ⟨creationTime, _⟩ => ?_
    exact (u64_field_walks _).bind fun _ => .bind (.look _) fun _ => .pure _

omit [Crates] in
theorem fromCbor_resumes : Resumes fromCbor := parseArray_resumes fields_walks

omit [Crates] in
theorem fromCbor_starts : Starts fromCbor := parseArray_starts fields

end CreationTimestamp

namespace PrimaryBlock

omit [Crates] in
theorem parseItem_walks {ε α : Type} [FromCborError ε] [ErrorInto ε Error]
    {m : Dec ε (α × Bool)} (hm : Resumes m) (hs : Starts m) (field : String) :
    Walks (parseItem m field) :=
  mapFieldErr_resumable field
    (item_walks Nat.one_pos (untagged_resumes hm hs) (untagged_starts hs))

omit [Crates] in
theorem fragmentInfo_walks (flags : BundleFlags) : Walks (fragmentInfoFromCbor flags) := by
  rw [fragmentInfoFromCbor]
  split
  · exact .pure _
  · exact (u64_field_walks _).bind fun _ => (u64_field_walks _).bind fun _ =>
      (ensure_resumable _ rfl).map _

theorem fields_walks (s : Bool) (tags : List Nat) : Walks (fields s tags) := by
  have heid : ∀ field, Walks (parseItem Eid.fromCbor field) :=
    parseItem_walks Eid.fromCbor_resumes Eid.fromCbor_starts
  rw [fields]
  split
  · exact .throw rfl
  · refine .bind (.look _) fun _ => (u64_field_walks _).bind fun _ =>
      (ensure_resumable _ rfl).bind fun _ => (newtype_field_walks _ _).bind fun flags =>
      (newtype_field_walks _ _).bind fun _ => (heid _).bind fun ⟨_, _⟩ =>
      (heid _).bind fun ⟨_, _⟩ => (heid _).bind fun ⟨_, _⟩ => ?_
    refine (parseItem_walks CreationTimestamp.fromCbor_resumes
      CreationTimestamp.fromCbor_starts _).bind fun ⟨_, _⟩ => ?_
    exact (u64_field_walks _).bind fun _ => (fragmentInfo_walks flags).map _

omit [Crates] in
theorem crcItem_needMore {v : Value} {s : Bool} {t : List Nat} {x : Error}
    (h : crcItem v s t = .error x) : needMore x = none := by
  unfold crcItem at h
  split at h
  · cases h
    rfl
  · split at h <;> cases h
    rfl

omit [Crates] in
theorem crcItem_resumes :
    Resumes (parseValue fun v s t => (verdict (crcItem v s t) : Ser Error (Nat × Bytes))) :=
  parseValue_resumes (fun _ _ _ _ => verdict_scalar fun _ => crcItem_needMore)
    fun _ _ _ _ => verdict_resumable fun _ => crcItem_needMore

omit [Crates] in
theorem crcItem_walks : Walks (mapFieldErr "CRC value"
    (Series.tryItem 1 (parseValue fun v s t => verdict (crcItem v s t)) :
      Ser Error (Option (Nat × Bytes))) : Ser Error (Option (Nat × Bytes))) :=
  mapFieldErr_resumable _ (tryItem_walks Nat.one_pos crcItem_resumes (parseValue_starts _))

theorem crc_complete_walks (crcType : CrcType) (before : Bytes) (p : PrimaryBlock × Bool) :
    Walks (crcFromCbor crcType before >>= fun _ => complete 1 p) := by
  have hcheck : ∀ (crc : Option (Nat × Bytes)) (item after : Bytes),
      Walks (Scan.mapErr (fun x => Error.invalidField "CRC value" (.invalidCrc x))
        (verdict (checkCrc crcType crc before item after)) : Ser Error Unit) := by
    intro crc item after
    rcases checkCrc crcType crc before item after with x | u
    · exact .throw rfl
    · exact .pure u
  rw [crcFromCbor, bind_assoc]
  refine .bind (Scan.consumed_resumable crcItem_walks) fun ⟨crc, item⟩ => ?_
  dsimp only
  rw [bind_assoc]
  refine .bind (.look _) fun itemEnd => ?_
  simp only [bind_assoc]
  refine atEnd_bind_walks (fun x => by rw [needMore_invalidField, needMore_into]; rfl) ?_ ?_
  · exact .bind (.look _) fun _ => (hcheck _ _ _).bind fun _ => complete_walks Nat.one_pos p
  · intro st d a c hst h
    obtain ⟨_, c₁, h₁, h₂⟩ := Scan.bind_ok h
    cases h₁
    obtain ⟨_, c₂, h₃, h₄⟩ := Scan.bind_ok h₂
    have hc₂ : c₂ = ⟨st, d⟩ := by
      rw [Scan.mapErr_ok] at h₃
      revert h₃
      rcases checkCrc crcType crc before item _ with x | u
      · intro h₃
        cases h₃
      · intro h₃
        cases h₃
        rfl
    rw [hc₂] at h₄
    exact complete_grabs p _ _ _ _ hst h₄

theorem fromCbor_resumes : Resumes fromCbor := by
  refine (Scan.consumed_resumable head_resumes.lift).bind fun ⟨⟨head, shortest⟩, bytes⟩ => ?_
  dsimp only
  split
  · refine overSeries_resumes _ ?_
    rw [closure, bind_assoc]
    refine (Scan.consumed_resumable (fields_walks _ _)).bind fun ⟨p, read⟩ => ?_
    simp only [bind_assoc, pure_bind]
    exact crc_complete_walks _ _ p
  · exact .throw (needMore_ofCbor _)

theorem fromCbor_starts : Starts fromCbor := .bind (.consumed head_starts.lift) _

end PrimaryBlock

/-! ## The values the decoder produces -/

omit [Crates] in
theorem BundleFlags.ofWord_canonical {v : Nat} (hv : v < wordSize) : (ofWord v).Canonical :=
  restOk_unrecognisedOf hv

namespace CreationTimestamp

def WellFormed (t : CreationTimestamp) : Prop :=
  (∀ ms, t.creationTime = some ms → 0 < ms ∧ ms < wordSize) ∧ t.sequenceNumber < wordSize

omit [Crates] in
theorem fromCbor_yields : Scan.Yields fromCbor fun p => p.1.WellFormed := by
  refine parseArray_yields fun s tags => ?_
  rw [fields]
  split
  · exact .throw _
  · refine (Scan.Yields.mapErr _ (item_yields (newtype_yields (P := (· < wordSize))
      (fun _ h => h) _))).bind
      fun ⟨creationTime, _⟩ hc => ?_
    refine (u64_field_yields _).bind fun sequenceNumber hs => .of_bind
      fun _ => .pure ⟨fun ms hms => ?_, hs⟩
    dsimp only at hms hc
    split at hms
    · cases hms
    · next h0 =>
        cases hms
        exact ⟨Nat.pos_of_ne_zero h0, hc⟩

end CreationTimestamp

namespace PrimaryBlock

/-- Primary blocks that the decoder can produce. -/
structure WellFormed (p : PrimaryBlock) : Prop where
  flags : p.flags.Canonical
  crcType : p.crcType.isRecognised = true
  destination : p.destination.WellFormed
  source : p.id.source.WellFormed
  reportTo : p.reportTo.WellFormed
  timestamp : p.id.timestamp.WellFormed
  lifetime : ∃ ms, ms < wordSize ∧ p.lifetime = .fromMillis ms
  fragmented : p.id.fragmentInfo.isSome = p.flags.isFragment
  fragment : ∀ f, p.id.fragmentInfo = some f →
    f.offset ≤ f.totalAduLength ∧ f.totalAduLength < wordSize

theorem fields_yields (s : Bool) (tags : List Nat) :
    Scan.Yields (fields s tags) fun p =>
      p.1.crcType.isRecognised = true → p.1.WellFormed := by
  have heid : ∀ field, Scan.Yields (parseItem Eid.fromCbor field) fun p => p.1.WellFormed :=
    fun _ => .mapErr _ (item_yields (untagged_yields Eid.fromCbor_yields))
  have hfrag : ∀ flags : BundleFlags, Scan.Yields (fragmentInfoFromCbor flags) fun i =>
      i.isSome = flags.isFragment ∧
        ∀ f, i = some f → f.offset ≤ f.totalAduLength ∧ f.totalAduLength < wordSize := by
    intro flags
    rw [fragmentInfoFromCbor]
    split
    · next h => exact .pure ⟨by simpa using h.symm, nofun⟩
    · next h =>
        refine .of_bind fun offset => (u64_field_yields _).bind
          fun total ht => (ensure_yields _ _).bind fun _ hle => .pure ⟨by simpa using h, ?_⟩
        rintro f hf
        cases hf
        exact ⟨of_decide_eq_true hle, ht⟩
  rw [fields]
  split
  · exact .throw _
  · refine .of_bind fun _ => .of_bind fun _ => .of_bind fun _ =>
      (requireCanonical_yields (newtype_yields (fun v => BundleFlags.ofWord_canonical) _) _
        _).bind fun flags hflags => .of_bind fun crcType => (heid _).bind fun ⟨_, _⟩ hd =>
      (heid _).bind fun ⟨_, _⟩ hsrc => (heid _).bind fun ⟨_, _⟩ hr => ?_
    refine (Scan.Yields.mapErr _ (item_yields (untagged_yields
      CreationTimestamp.fromCbor_yields))).bind fun ⟨_, _⟩ ht => ?_
    exact (u64_field_yields _).bind fun ms hms =>
      (hfrag flags).bind fun i hi => .pure fun hcrc =>
        ⟨hflags, hcrc, hd, hsrc, hr, ht, ⟨ms, hms, rfl⟩, hi.1, hi.2⟩

theorem checkCrc_ok {crcType : CrcType} {crc : Option (Nat × Bytes)} {before item after : Bytes}
    (h : checkCrc crcType crc before item after = .ok ()) : crcType.isRecognised = true := by
  unfold checkCrc at h
  split at h
  · rfl
  · cases h
  · cases h
  · cases hv : crcValue crcType (before ++ item.take _) (item.drop _ ++ after) with
    | error x => rw [hv] at h; cases h
    | ok v => exact (crcValue_ok hv).2.1

theorem crcFromCbor_yields (crcType : CrcType) (before : Bytes) :
    Scan.Yields (crcFromCbor crcType before) fun _ => crcType.isRecognised = true := by
  refine .of_bind fun ⟨crc, item⟩ => .of_bind fun _ => .of_bind fun _ => .of_bind fun _ => ?_
  refine .mapErr _ ?_
  generalize hc : checkCrc crcType crc before item _ = r
  rcases r with x | ⟨⟩
  · exact .throw x
  · exact .pure (checkCrc_ok hc)

omit [Crates] in
theorem consumed_yields {ε σ α : Type} {m : Scan ε UInt8 σ α} {P : α → Prop}
    (hm : Scan.Yields m P) : Scan.Yields (Scan.consumed m) fun p => P p.1 := by
  intro c p c' h
  rw [Scan.consumed] at h
  rcases hr : m c with x | ⟨a, c₁⟩ <;> rw [hr] at h <;> cases h
  exact hm _ _ _ hr

theorem fromCbor_yields : Scan.Yields fromCbor fun p => p.1.WellFormed := by
  refine .of_bind fun ⟨⟨head, shortest⟩, bytes⟩ => ?_
  dsimp only
  split
  · refine withSeries_yields ?_
    refine (consumed_yields (fields_yields _ _)).bind fun ⟨p, read⟩ hp => ?_
    exact (crcFromCbor_yields _ _).bind fun _ hcrc => .pure (hp hcrc)
  · exact .throw _

end PrimaryBlock

/-! ## Round trip -/

omit [Crates] in
theorem u64_field_reads {v n p off : Nat} (hv : v < wordSize) (hp : p < n) (field : String)
    (r : Bytes) :
    requireCanonical 1 u64 field Error.notCanonical ⟨⟨some n, off, p⟩, emitUint v ++ r⟩ =
      .ok (v, ⟨⟨some n, off + (emitUint v).length, p + 1⟩, r⟩) :=
  requireCanonical_reads (u64_reads hv) (emitUint_plain v) hp field _ r

omit [Crates] in
theorem newtype_field_reads {α : Type} {f : Nat → α} {a : α} {v n p off : Nat}
    (hv : v < wordSize) (ha : f v = a) (hp : p < n) (field : String) (r : Bytes) :
    requireCanonical 1 (newtype f Error.notCanonical) field Error.notCanonical
        ⟨⟨some n, off, p⟩, emitUint v ++ r⟩ =
      .ok (a, ⟨⟨some n, off + (emitUint v).length, p + 1⟩, r⟩) :=
  ha ▸ requireCanonical_reads (newtype_reads hv _) (emitUint_plain v) hp field _ r

namespace CreationTimestamp

omit [Crates] in
theorem reads_toCbor {t : CreationTimestamp} (ht : t.WellFormed) :
    Reads fromCbor t.toCbor (t, true) := by
  obtain ⟨hc, hs⟩ := ht
  have hc' : t.creationTime.getD 0 < wordSize := by
    cases h : t.creationTime with
    | none => decide
    | some ms => exact (hc ms h).2
  have htime : (if t.creationTime.getD 0 = 0 then none else some (t.creationTime.getD 0)) =
      t.creationTime := by
    cases h : t.creationTime with
    | none => rfl
    | some ms => exact if_neg (Nat.ne_of_gt (hc ms h).1)
  rw [toCbor, emitArray_two]
  refine parseArray_reads (by decide) fun off r => ?_
  rw [List.append_assoc, fields, if_neg (by decide),
    Scan.bind_eq_of_ok (mapFieldErr_ok (item_reads (newtype_reads hc' _) (by decide) _))]
  dsimp only
  rw [Scan.bind_eq_of_ok (u64_field_reads hs (by decide) _ r), Scan.bind_apply, isDefinite,
    Scan.look]
  simp only [id, htime, Option.isSome_some, List.length_append, Nat.add_assoc]
  rfl

end CreationTimestamp

namespace PrimaryBlock

omit [Crates] in
theorem parseItem_reads {ε α : Type} [FromCborError ε] [ErrorInto ε Error]
    {m : Dec ε (α × Bool)} {e : Bytes} {a : α} {n p off : Nat} (h : Reads m e (a, true))
    (he : Plain e) (hp : p < n) (field : String) (r : Bytes) :
    parseItem m field ⟨⟨some n, off, p⟩, e ++ r⟩ =
      .ok ((a, true), ⟨⟨some n, off + e.length, p + 1⟩, r⟩) :=
  mapFieldErr_ok (item_reads (h.untagged he) hp r)

omit [Crates] in
theorem fragmentInfo_reads {flags : BundleFlags} {i : Option FragmentInfo} {n p off : Nat}
    (hsome : i.isSome = flags.isFragment)
    (hi : ∀ f, i = some f → f.offset ≤ f.totalAduLength ∧ f.totalAduLength < wordSize)
    (hn : p + (fragmentItems i).length ≤ n) (r : Bytes) :
    fragmentInfoFromCbor flags ⟨⟨some n, off, p⟩, (fragmentItems i).flatten ++ r⟩ =
      .ok (i, ⟨⟨some n, off + (fragmentItems i).flatten.length,
        p + (fragmentItems i).length⟩, r⟩) := by
  cases i with
  | none =>
    rw [fragmentInfoFromCbor, ← hsome]
    rfl
  | some f =>
    obtain ⟨hle, hlt⟩ := hi f rfl
    simp only [fragmentItems, List.length_cons, List.length_nil] at hn
    simp only [fragmentItems, List.flatten_cons, List.flatten_nil, List.append_nil,
      List.append_assoc, List.length_append, List.length_cons, List.length_nil]
    rw [fragmentInfoFromCbor, ← hsome, if_neg (by simp),
      Scan.bind_eq_of_ok (u64_field_reads (hle.trans_lt hlt) (by omega) _ _),
      Scan.bind_eq_of_ok (u64_field_reads hlt (by omega) _ _), ensure,
      if_pos (decide_eq_true hle)]
    simp only [pure_bind, Nat.add_assoc]
    rfl

def respelled (p : PrimaryBlock) (source reportTo : Eid) : PrimaryBlock :=
  { p with id := { p.id with source := source }, reportTo := reportTo }

omit [Crates] in
@[simp] theorem crcType_respelled (p : PrimaryBlock) (source reportTo : Eid) :
    (p.respelled source reportTo).crcType = p.crcType := rfl

variable {p : PrimaryBlock}

theorem fields_reads {source reportTo : Eid} (hp : (p.respelled source reportTo).WellFormed)
    (hs : Reads Eid.fromCbor p.id.source.toCbor (source, true))
    (hr : Reads Eid.fromCbor p.reportTo.toCbor (reportTo, true))
    (hlen : p.items.flatten.length < wordSize) {n off : Nat} (hn : p.items.length ≤ n) (r : Bytes) :
    fields true [] ⟨⟨some n, off, 0⟩, p.items.flatten ++ r⟩ =
      .ok ((p.respelled source reportTo, true),
        ⟨⟨some n, off + p.items.flatten.length, p.items.length⟩, r⟩) := by
  obtain ⟨hflags, hcrc, hdest, -, -, htime, ⟨ms, hms, hlife⟩, hfrag, hbounds⟩ := hp
  dsimp only [respelled] at hflags hcrc hdest htime hlife hfrag hbounds ⊢
  have hms' : p.lifetime.asMillis % wordSize = ms := by
    rw [hlife, Duration.asMillis_fromMillis, Nat.mod_eq_of_lt hms]
  rw [items, hms'] at hlen hn ⊢
  simp only [List.cons_append, List.nil_append, List.flatten_cons, List.append_assoc,
    List.length_append, List.length_cons] at hlen hn ⊢
  rw [fields, if_neg (by decide), Scan.bind_apply, isDefinite, Scan.look]
  simp only [Option.isSome_some]
  rw [Scan.bind_eq_of_ok (u64_field_reads (by decide) (by omega) _ _), ensure,
    if_pos (by decide), pure_bind, BundleFlags.toCbor, CrcType.toCbor,
    BundleFlags.fromCbor, CrcType.fromCbor,
    Scan.bind_eq_of_ok (newtype_field_reads (BundleFlags.word_lt hflags)
      (BundleFlags.ofWord_word hflags) (by omega) _ _),
    Scan.bind_eq_of_ok (newtype_field_reads (CrcType.code_lt hcrc)
      (CrcType.ofCode_code hcrc) (by omega) _ _),
    Scan.bind_eq_of_ok (parseItem_reads (Eid.reads_toCbor hdest (by omega))
      (Eid.toCbor_plain _) (by omega) _ _)]
  dsimp only
  rw [Scan.bind_eq_of_ok (parseItem_reads hs (Eid.toCbor_plain _) (by omega) _ _)]
  dsimp only
  rw [Scan.bind_eq_of_ok (parseItem_reads hr (Eid.toCbor_plain _) (by omega) _ _)]
  dsimp only
  rw [Scan.bind_eq_of_ok (parseItem_reads (CreationTimestamp.reads_toCbor htime)
    (emitArray_plain _) (by omega) _ _)]
  dsimp only
  rw [Scan.bind_eq_of_ok (u64_field_reads hms (by omega) _ _),
    Scan.bind_eq_of_ok (fragmentInfo_reads hfrag hbounds (by omega) r), ← hlife]
  have hcount : 0 + 1 + 1 + 1 + 1 + 1 + 1 + 1 + 1 +
      (fragmentItems p.id.fragmentInfo).length =
      (fragmentItems p.id.fragmentInfo).length + 1 + 1 + 1 + 1 + 1 + 1 + 1 + 1 := by omega
  rw [hcount]
  simp only [Nat.add_assoc]
  rfl

omit [Crates] in
theorem atEnd_field_definite {n off q : Nat} {field : String} (r : Bytes) :
    (mapFieldErr field (atEnd 1) : Ser Error Bool) ⟨⟨some n, off, q⟩, r⟩ =
      .ok (decide (n ≤ q), ⟨⟨some n, off, q⟩, r⟩) :=
  mapFieldErr_ok rfl

theorem crcFromCbor_of_item {crcType : CrcType} {before item : Bytes}
    {crc : Option (Nat × Bytes)} {n q off : Nat} {e r : Bytes}
    (hitem : Scan.consumed (mapFieldErr "CRC value"
      (Series.tryItem 1 (parseValue fun v s t => verdict (crcItem v s t)) :
        Ser Error (Option (Nat × Bytes))) : Ser Error (Option (Nat × Bytes)))
          ⟨⟨some n, off, q⟩, e ++ r⟩ =
      .ok ((crc, item), ⟨⟨some n, off + e.length, n⟩, r⟩))
    (hcheck : checkCrc crcType crc before item [] = .ok ()) :
    crcFromCbor crcType before ⟨⟨some n, off, q⟩, e ++ r⟩ =
      .ok ((), ⟨⟨some n, off + e.length, n⟩, r⟩) := by
  rw [crcFromCbor, Scan.bind_eq_of_ok hitem]
  dsimp only
  rw [Scan.bind_apply, offset, Scan.look]
  dsimp only
  rw [Scan.bind_eq_of_ok (atEnd_field_definite r), Scan.bind_apply, Scan.look]
  simp only [Nat.sub_self, List.replicate_zero, hcheck]
  rfl

theorem crc_reads_none (before : Bytes) {n off : Nat} (r : Bytes) :
    crcFromCbor .none before ⟨⟨some n, off, n⟩, r⟩ = .ok ((), ⟨⟨some n, off, n⟩, r⟩) := by
  exact crcFromCbor_of_item (e := []) ((Scan.consumed_ok crcItem_walks.stepwise).mpr
    ⟨mapFieldErr_ok (tryItem_end r), rfl⟩) rfl

theorem crc_reads_value {t : CrcType} {before v : Bytes}
    (hv : crcValue t (before ++ [t.headByte]) [] = .ok v) {n off : Nat} (r : Bytes) :
    crcFromCbor t before ⟨⟨some (n + 1), off, n⟩, t.headByte :: v ++ r⟩ =
      .ok ((), ⟨⟨some (n + 1), off + (t.headByte :: v).length, n + 1⟩, r⟩) := by
  obtain ⟨hlen, hr, hn⟩ := crcValue_ok hv
  have hitem : Reads (parseValue fun v s t => (verdict (crcItem v s t) : Ser Error (Nat × Bytes)))
      (t.headByte :: v) (1, v) := by
    rw [← emitBytes_crcValue hv]
    refine parseValue_reads_bytes ?_ ?_
    · rw [emitBytes_crcValue hv, List.length_cons, hlen]
      cases t <;> simp [CrcType.valueLen, wordSize]
    · rw [hlen]
      cases t <;> rfl
  refine crcFromCbor_of_item ((Scan.consumed_ok crcItem_walks.stepwise).mpr
    ⟨mapFieldErr_ok (tryItem_reads hitem (Nat.lt_succ_self n) r), rfl⟩) ?_
  have hafter : (t.headByte :: v).drop (1 + v.length) ++ [] = ([] : Bytes) := by
    rw [List.append_nil, List.drop_eq_nil_iff, List.length_cons]
    omega
  unfold checkCrc
  split
  · rfl
  · exact absurd rfl hn
  · next h => cases h
  · next h =>
      cases h
      rw [hafter]
      simp only [List.take_succ_cons, List.take_zero, hv]
      exact if_pos rfl

theorem fromCbor_of_closure {n : Nat} {e : Bytes} (hn : n < wordSize)
    (h : ∀ off r, closure (emitUintMinor 4 n) true [] ⟨⟨some n, off, 0⟩, e ++ r⟩ =
      .ok ((p, true), ⟨⟨some n, off + e.length, n⟩, r⟩)) :
    Reads fromCbor (emitUintMinor 4 n ++ e) (p, true) := by
  intro r
  have hhead := head_emit (show 4 ≤ 5 by decide) hn 0 (e ++ r)
  rw [List.append_assoc, fromCbor, Scan.bind_eq_of_ok
    ((Scan.consumed_ok head_resumes.lift.stepwise).mpr ⟨lift_ok hhead, rfl⟩)]
  refine (withSeries_reads hn (h _ r)).trans ?_
  rw [List.length_append, Nat.zero_add]

theorem reads_emit_respelled {source reportTo : Eid} (hp : (p.respelled source reportTo).WellFormed)
    (hs : Reads Eid.fromCbor p.id.source.toCbor (source, true))
    (hr : Reads Eid.fromCbor p.reportTo.toCbor (reportTo, true)) {e : Bytes} (he : p.emit = .ok e)
    (hlen : e.length < wordSize) : Reads fromCbor e (p.respelled source reportTo, true) := by
  have hcount : p.items.length ≤ 10 := by
    rw [items]
    cases p.id.fragmentInfo <;> simp [fragmentItems]
  have hfields : ∀ {n off : Nat} (r : Bytes), p.items.length ≤ n →
      p.items.flatten.length < wordSize →
      Scan.consumed (fields true []) ⟨⟨some n, off, 0⟩, p.items.flatten ++ r⟩ =
        .ok (((p.respelled source reportTo, true), p.items.flatten),
          ⟨⟨some n, off + p.items.flatten.length, p.items.length⟩, r⟩) :=
    fun r hn hl => (Scan.consumed_ok (fields_walks _ _).stepwise).mpr
      ⟨fields_reads hp hs hr hl hn r, rfl⟩
  obtain ⟨b, hb, rfl⟩ : ∃ b, appendCrcValue p.crcType
      (emitArray (p.items ++ if p.crcType = .none then [] else [[]])) = .ok b ∧ b = e := by
    rw [emit] at he
    split at he
    · next b hb => exact ⟨b, hb, Except.ok.inj he⟩
    · cases he
  rcases appendCrcValue_ok hb with ⟨hnone, rfl⟩ | ⟨v, hne, hv, rfl⟩
  · rw [hnone, if_pos rfl, List.append_nil, emitArray] at hlen ⊢
    rw [List.length_append] at hlen
    refine fromCbor_of_closure (hcount.trans_lt (by decide)) fun off r => ?_
    rw [closure, Scan.bind_eq_of_ok (hfields r le_rfl (by omega))]
    dsimp only
    rw [crcType_respelled, hnone, Scan.bind_eq_of_ok (crc_reads_none _ r)]
    rfl
  · rw [if_neg hne] at hlen hv ⊢
    have harray : emitArray (p.items ++ [[]]) =
        emitUintMinor 4 (p.items.length + 1) ++ p.items.flatten := by
      simp [emitArray]
    rw [harray] at hlen hv ⊢
    simp only [List.length_append] at hlen
    rw [List.append_assoc]
    refine fromCbor_of_closure ((Nat.add_le_add_right hcount 1).trans_lt (by decide))
      fun off r => ?_
    rw [List.append_assoc, closure, Scan.bind_eq_of_ok (hfields _ (Nat.le_succ _) (by omega))]
    dsimp only
    rw [crcType_respelled, Scan.bind_eq_of_ok (crc_reads_value hv r), List.length_append, Nat.add_assoc]
    rfl

theorem emit_congr {p q : PrimaryBlock} (hitems : p.items = q.items)
    (hcrc : p.crcType = q.crcType) : p.emit = q.emit := by
  rw [emit, emit, hitems, hcrc]

theorem emit_length {e : Bytes} (he : p.emit = .ok e) : p.items.flatten.length ≤ e.length := by
  rw [emit] at he
  split at he
  · next b hb =>
      obtain rfl := Except.ok.inj he
      rcases appendCrcValue_ok hb with ⟨h, rfl⟩ | ⟨v, h, -, rfl⟩
      · simpa [h] using Eid.length_emitArray p.items
      · simp [h, emitArray]
        omega
  · cases he

theorem reads_emit (hp : p.WellFormed) {e : Bytes} (he : p.emit = .ok e)
    (hlen : e.length < wordSize) : Reads fromCbor e (p, true) := by
  have hitems := emit_length he
  simp only [items, List.cons_append, List.flatten_cons, List.length_append] at hitems
  exact reads_emit_respelled hp (Eid.reads_toCbor hp.source (by omega))
    (Eid.reads_toCbor hp.reportTo (by omega)) he hlen

end PrimaryBlock

end Hardy
