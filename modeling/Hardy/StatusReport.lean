import Hardy.DtnTime
import Hardy.Routing.Table

/-!
# Status reports

Model of `bpv7/src/status_report.rs`: the reason codes, the status reports and
the administrative records that carry them, with their wire form.  A report
comes back with its times cut to milliseconds (`BundleStatusReport.reread`), and as it is where its
times are exact and its reason is the one of its code (`AdministrativeRecord.comes_back_iff`).
-/

namespace Hardy

open Cbor

namespace StatusReport

inductive Error where
  | unknownAdminRecordType (code : Nat)
  | reservedStatusReportReason
  | invalidField (field : String) (source : Error)
  | invalidEid (e : Eid.Error)
  | invalidBundle (e : Hardy.Error)
  | notCanonical
  | invalidCBOR (e : Cbor.Error)
deriving DecidableEq, Repr

def Error.needMore : Error → Option Nat
  | .invalidCBOR e => e.short
  | .invalidEid e => e.needMore
  | .invalidBundle e => e.needMore
  | .invalidField _ source => source.needMore
  | _ => none

def Error.ofCbor : Cbor.Error → Error
  | .unexpectedTag => .notCanonical
  | e => .invalidCBOR e

instance : FromCborError Error where
  ofCbor := Error.ofCbor
  needMore := Error.needMore
  needMore_ofCbor x := by cases x <;> rfl

instance : HasInvalidField Error where
  invalidField := .invalidField
  needMore_invalidField _ _ := rfl

instance : ErrorInto Eid.Error Error where
  into := .invalidEid
  needMore_into _ := rfl

instance : ErrorInto Hardy.Error Error where
  into := .invalidBundle
  needMore_into _ := rfl

end StatusReport

/-! ## Reason codes -/

namespace ReasonCode

def toU64 : ReasonCode → Nat
  | noAdditionalInformation => 0
  | lifetimeExpired => 1
  | forwardedOverUnidirectionalLink => 2
  | transmissionCanceled => 3
  | depletedStorage => 4
  | destinationEndpointIDUnavailable => 5
  | noKnownRouteToDestinationFromHere => 6
  | noTimelyContactWithNextNodeOnRoute => 7
  | blockUnintelligible => 8
  | hopLimitExceeded => 9
  | trafficPared => 10
  | blockUnsupported => 11
  | missingSecurityOperation => 12
  | unknownSecurityOperation => 13
  | unexpectedSecurityOperation => 14
  | failedSecurityOperation => 15
  | conflictingSecurityOperation => 16
  | unassigned v => v

def ofU64 : Nat → Except StatusReport.Error ReasonCode
  | 0 => .ok noAdditionalInformation
  | 1 => .ok lifetimeExpired
  | 2 => .ok forwardedOverUnidirectionalLink
  | 3 => .ok transmissionCanceled
  | 4 => .ok depletedStorage
  | 5 => .ok destinationEndpointIDUnavailable
  | 6 => .ok noKnownRouteToDestinationFromHere
  | 7 => .ok noTimelyContactWithNextNodeOnRoute
  | 8 => .ok blockUnintelligible
  | 9 => .ok hopLimitExceeded
  | 10 => .ok trafficPared
  | 11 => .ok blockUnsupported
  | 12 => .ok missingSecurityOperation
  | 13 => .ok unknownSecurityOperation
  | 14 => .ok unexpectedSecurityOperation
  | 15 => .ok failedSecurityOperation
  | 16 => .ok conflictingSecurityOperation
  | 255 => .error .reservedStatusReportReason
  | v => .ok (unassigned v)

def fromCbor : Dec StatusReport.Error (ReasonCode × Bool) := do
  let v ← parseCanonical u64 StatusReport.Error.notCanonical
  let reason ← verdict (ofU64 v)
  pure (reason, true)

def toCbor (r : ReasonCode) : Bytes := emitUint r.toU64

theorem ofU64_ok {v : Nat} (h : v ≠ 255) : ∃ reason, ofU64 v = .ok reason := by
  unfold ofU64
  split <;> first | exact ⟨_, rfl⟩ | exact absurd rfl h

end ReasonCode

/-- Ids whose fragment is in the range of its machine words. -/
structure Id.WellFormed (i : Id) : Prop where
  source : i.source.WellFormed
  timestamp : i.timestamp.WellFormed
  fragment : ∀ f, i.fragmentInfo = some f → f.offset < wordSize ∧ f.totalAduLength < wordSize

theorem PrimaryBlock.WellFormed.id {p : PrimaryBlock} (h : p.WellFormed) : p.id.WellFormed where
  source := h.source
  timestamp := h.timestamp
  fragment f hf := ⟨(h.fragment f hf).1.trans_lt (h.fragment f hf).2, (h.fragment f hf).2⟩

namespace StatusReport

/-! ## Status assertions -/

/-- The instant is there when the source has asked for it. -/
structure StatusAssertion where
  time : Option Int
deriving DecidableEq, Repr

def emitStatusAssertion : Option StatusAssertion → Bytes
  | none => emitArray [emitBool false]
  | some ⟨none⟩ => emitArray [emitBool true]
  | some ⟨some timestamp⟩ =>
    emitArray [emitBool true, emitUint (DtnTime.saturatingFrom timestamp)]

def StatusAssertion.ofTime (timestamp : Option Nat) : StatusAssertion :=
  ⟨(timestamp.filter (· ≠ 0)).map DtnTime.toDatetime⟩

/-- The closure of `parse_status_assertion`. -/
def statusAssertionFields (shortest : Bool) (tags : List Nat) :
    Ser Error (Option StatusAssertion × Bool) :=
  if !shortest || !tags.isEmpty then throw .notCanonical
  else do
    let definite ← isDefinite
    let status ← requireCanonical 1 bool "status" Error.notCanonical
    if status then
      let timestamp ← mapFieldErr "timestamp" (Series.tryItem 1 DtnTime.fromCbor)
      pure (some (.ofTime (timestamp.map Prod.fst)), definite)
    else pure (none, definite)

def parseStatusAssertion (field : String) : Ser Error (Option StatusAssertion × Bool) :=
  mapFieldErr field (Series.item 1 (parseArray statusAssertionFields))

/-! ## Reports -/

structure StatusInformation where
  received : Option StatusAssertion := none
  forwarded : Option StatusAssertion := none
  delivered : Option StatusAssertion := none
  deleted : Option StatusAssertion := none
deriving DecidableEq, Repr

structure BundleStatusReport extends StatusInformation where
  bundleId : Id
  reason : ReasonCode := .noAdditionalInformation
deriving DecidableEq, Repr

namespace StatusInformation

def toCbor (i : StatusInformation) : Bytes :=
  emitArray [emitStatusAssertion i.received, emitStatusAssertion i.forwarded,
    emitStatusAssertion i.delivered, emitStatusAssertion i.deleted]

def fields (shortest : Bool) (tags : List Nat) : Ser Error (StatusInformation × Bool) :=
  if !shortest || !tags.isEmpty then throw .notCanonical
  else do
    let definite ← isDefinite
    let (received, s₁) ← parseStatusAssertion "received status"
    let (forwarded, s₂) ← parseStatusAssertion "forwarded status"
    let (delivered, s₃) ← parseStatusAssertion "delivered status"
    let (deleted, s₄) ← parseStatusAssertion "deleted status"
    pure (⟨received, forwarded, delivered, deleted⟩, definite && s₁ && s₂ && s₃ && s₄)

end StatusInformation

namespace BundleStatusReport

variable [Crates]

def items (b : BundleStatusReport) : List Bytes :=
  [b.toStatusInformation.toCbor, b.reason.toCbor, b.bundleId.source.toCbor,
    b.bundleId.timestamp.toCbor] ++ PrimaryBlock.fragmentItems b.bundleId.fragmentInfo

def toCbor (b : BundleStatusReport) : Bytes := emitArray b.items

def fragmentInfoFromCbor : Ser Error (Option FragmentInfo) := do
  let offset ← mapFieldErr "fragment offset" (Series.tryItem 1 (untagged u64))
  match offset with
  | none => pure none
  | some (offset, s) => do
      ensure s (Error.invalidField "fragment offset" .notCanonical)
      let totalAduLength ← requireCanonical 1 u64 "fragment total ADU length" Error.notCanonical
      pure (some ⟨offset, totalAduLength⟩)

/-- The closure of `BundleStatusReport::from_cbor`. -/
def fields (shortest : Bool) (tags : List Nat) : Ser Error (BundleStatusReport × Bool) :=
  if !shortest || !tags.isEmpty then throw .notCanonical
  else do
    let definite ← isDefinite
    let (information, s) ← mapFieldErr "bundle status information"
      (Series.item 1 (parseArray StatusInformation.fields))
    let reason ← requireCanonical 1 ReasonCode.fromCbor "reason" Error.notCanonical
    let source ← requireCanonical 1 Eid.fromCbor "source" Error.notCanonical
    let timestamp ← requireCanonical 1 CreationTimestamp.fromCbor "timestamp" Error.notCanonical
    let fragmentInfo ← fragmentInfoFromCbor
    pure (⟨information, ⟨source, timestamp, fragmentInfo⟩, reason⟩, definite && s)

def fromCbor : Dec Error (BundleStatusReport × Bool) := parseArray fields

end BundleStatusReport

/-! ## Administrative records -/

inductive AdministrativeRecord where
  | bundleStatusReport (report : BundleStatusReport)
deriving DecidableEq, Repr

namespace AdministrativeRecord

variable [Crates]

def toCbor : AdministrativeRecord → Bytes
  | bundleStatusReport report => emitArray [emitUint 1, report.toCbor]

/-- The closure of `AdministrativeRecord::from_cbor`. -/
def fields (shortest : Bool) (tags : List Nat) : Ser Error (AdministrativeRecord × Bool) :=
  if !shortest || !tags.isEmpty then throw .notCanonical
  else do
    let definite ← isDefinite
    let code ← requireCanonical 1 u64 "record type code" Error.notCanonical
    if code = 1 then
      let (report, s) ← mapFieldErr "bundle status report"
        (Series.item 1 (untagged BundleStatusReport.fromCbor))
      pure (bundleStatusReport report, definite && s)
    else throw (.unknownAdminRecordType code)

def fromCbor : Dec Error (AdministrativeRecord × Bool) := parseArray fields

end AdministrativeRecord

/-! ## Round trip -/

theorem reason_reads {r reason : ReasonCode} (hlt : r.toU64 < wordSize)
    (h : ReasonCode.ofU64 r.toU64 = .ok reason) :
    Reads ReasonCode.fromCbor r.toCbor (reason, true) := by
  intro d
  rw [ReasonCode.fromCbor, ReasonCode.toCbor,
    Scan.bind_eq_of_ok (parseCanonical_reads (u64_reads hlt) (emitUint_plain _) _ d), h]
  rfl

theorem reason_refuses {r : ReasonCode} {x : Error} (hlt : r.toU64 < wordSize)
    (h : ReasonCode.ofU64 r.toU64 = .error x) : Refuses ReasonCode.fromCbor r.toCbor x := by
  intro d
  rw [ReasonCode.fromCbor, ReasonCode.toCbor,
    Scan.bind_eq_of_ok (parseCanonical_reads (u64_reads hlt) (emitUint_plain _) _ d), h]
  rfl

def StatusAssertion.reread (a : StatusAssertion) : StatusAssertion :=
  .ofTime (a.time.map DtnTime.saturatingFrom)

theorem statusAssertion_reads (a : Option StatusAssertion) :
    Reads (parseArray statusAssertionFields) (emitStatusAssertion a)
      (a.map StatusAssertion.reread, true) := by
  have hstatus : ∀ (b : Bool) {n off : Nat} (_ : 0 < n) (r : Bytes),
      requireCanonical 1 bool "status" Error.notCanonical ⟨⟨some n, off, 0⟩, emitBool b ++ r⟩ =
        .ok (b, ⟨⟨some n, off + (emitBool b).length, 1⟩, r⟩) :=
    fun b _ _ hn r => requireCanonical_reads (bool_reads b) (emitBool_plain b) hn _ _ r
  have hone : ∀ e : Bytes, emitArray [e] = emitUintMinor 4 1 ++ e := fun e => by
    simp [emitArray]
  rcases a with _ | ⟨_ | t⟩
  · rw [emitStatusAssertion, hone]
    refine parseArray_reads (by decide) fun off r => ?_
    rw [statusAssertionFields, if_neg (by decide), Scan.bind_apply, isDefinite, Scan.look]
    dsimp only [Option.isSome_some]
    rw [Scan.bind_eq_of_ok (hstatus false (by decide) r)]
    rfl
  · rw [emitStatusAssertion, hone]
    refine parseArray_reads (by decide) fun off r => ?_
    rw [statusAssertionFields, if_neg (by decide), Scan.bind_apply, isDefinite, Scan.look]
    dsimp only [Option.isSome_some]
    rw [Scan.bind_eq_of_ok (hstatus true (by decide) r), if_pos rfl,
      Scan.bind_eq_of_ok (mapFieldErr_ok (tryItem_end r))]
    rfl
  · rw [emitStatusAssertion, emitArray_two]
    refine parseArray_reads (by decide) fun off r => ?_
    rw [statusAssertionFields, if_neg (by decide), Scan.bind_apply, isDefinite, Scan.look]
    dsimp only [Option.isSome_some]
    rw [List.append_assoc, Scan.bind_eq_of_ok (hstatus true (by decide) _), if_pos rfl,
      DtnTime.fromCbor, Scan.bind_eq_of_ok (mapFieldErr_ok (tryItem_reads
        (newtype_reads (DtnTime.saturatingFrom_lt t) _) (by decide) r)), List.length_append,
      Nat.add_assoc]
    rfl

def StatusInformation.reread (i : StatusInformation) : StatusInformation where
  received := i.received.map StatusAssertion.reread
  forwarded := i.forwarded.map StatusAssertion.reread
  delivered := i.delivered.map StatusAssertion.reread
  deleted := i.deleted.map StatusAssertion.reread

theorem statusInformation_reads (i : StatusInformation) :
    Reads (parseArray StatusInformation.fields) i.toCbor (i.reread, true) := by
  have hstatus : ∀ (a : Option StatusAssertion) (field : String) {n off p : Nat} (_ : p < n)
      (r : Bytes), parseStatusAssertion field ⟨⟨some n, off, p⟩, emitStatusAssertion a ++ r⟩ =
        .ok ((a.map StatusAssertion.reread, true),
          ⟨⟨some n, off + (emitStatusAssertion a).length, p + 1⟩, r⟩) :=
    fun a _ _ _ _ hp r => mapFieldErr_ok (item_reads (statusAssertion_reads a) hp r)
  rw [StatusInformation.toCbor, emitArray]
  refine parseArray_reads (show 4 < wordSize by decide) fun off r => ?_
  rw [StatusInformation.fields, if_neg (by decide), Scan.bind_apply, isDefinite, Scan.look]
  simp only [List.flatten_cons, List.flatten_nil, List.append_nil, List.append_assoc,
    List.length_append, List.length_cons, List.length_nil, Option.isSome_some]
  rw [Scan.bind_eq_of_ok (hstatus _ _ (by decide) _)]
  dsimp only
  rw [Scan.bind_eq_of_ok (hstatus _ _ (by decide) _)]
  dsimp only
  rw [Scan.bind_eq_of_ok (hstatus _ _ (by decide) _)]
  dsimp only
  rw [Scan.bind_eq_of_ok (hstatus _ _ (by decide) _)]
  simp only [Nat.add_assoc]
  rfl

namespace BundleStatusReport

theorem fragmentInfo_reads {i : Option FragmentInfo} {n p off : Nat}
    (hi : ∀ f, i = some f → f.offset < wordSize ∧ f.totalAduLength < wordSize)
    (hn : p + (PrimaryBlock.fragmentItems i).length = n) (r : Bytes) :
    fragmentInfoFromCbor ⟨⟨some n, off, p⟩, (PrimaryBlock.fragmentItems i).flatten ++ r⟩ =
      .ok (i, ⟨⟨some n, off + (PrimaryBlock.fragmentItems i).flatten.length, n⟩, r⟩) := by
  cases i with
  | none =>
    obtain rfl : p = n := hn
    rw [fragmentInfoFromCbor]
    exact Scan.bind_eq_of_ok (mapFieldErr_ok (tryItem_end r)) _
  | some f =>
    obtain ⟨ho, ht⟩ := hi f rfl
    obtain rfl : p + 2 = n := hn
    simp only [PrimaryBlock.fragmentItems, List.flatten_cons, List.flatten_nil, List.append_nil,
      List.append_assoc, List.length_append]
    rw [fragmentInfoFromCbor, Scan.bind_eq_of_ok (mapFieldErr_ok (tryItem_reads
      ((u64_reads ho).untagged (emitUint_plain _)) (by omega) _))]
    dsimp only
    rw [ensure, if_pos rfl, pure_bind, Scan.bind_eq_of_ok (requireCanonical_reads
      (u64_reads ht) (emitUint_plain _) (by omega) _ _ r), Nat.add_assoc]
    rfl

theorem fields_information {b : BundleStatusReport} {n off : Nat} (hn : 0 < n) (r : Bytes) :
    (mapFieldErr "bundle status information" (Series.item 1 (parseArray StatusInformation.fields)) :
        Ser Error (StatusInformation × Bool))
        ⟨⟨some n, off, 0⟩, b.toStatusInformation.toCbor ++ r⟩ =
      .ok ((b.toStatusInformation.reread, true),
        ⟨⟨some n, off + b.toStatusInformation.toCbor.length, 1⟩, r⟩) :=
  mapFieldErr_ok (item_reads (statusInformation_reads _) hn r)

variable [Crates]

def reread (b : BundleStatusReport) (reason : ReasonCode) : BundleStatusReport where
  toStatusInformation := b.toStatusInformation.reread
  bundleId := b.bundleId
  reason := reason

theorem items_length_lt (b : BundleStatusReport) : b.items.length < wordSize := by
  rw [items]
  cases b.bundleId.fragmentInfo <;> simp [PrimaryBlock.fragmentItems, wordSize]

theorem reads_toCbor {b : BundleStatusReport} {reason : ReasonCode} (hid : b.bundleId.WellFormed)
    (hlt : b.reason.toU64 < wordSize) (hreason : ReasonCode.ofU64 b.reason.toU64 = .ok reason)
    (hlen : b.toCbor.length < wordSize) : Reads fromCbor b.toCbor (b.reread reason, true) := by
  have hitems : b.items.flatten.length ≤ b.toCbor.length := Eid.length_emitArray b.items
  refine parseArray_reads b.items_length_lt fun off r => ?_
  simp only [items, List.cons_append, List.nil_append, List.flatten_cons, List.append_assoc,
    List.length_append, List.length_cons] at hitems ⊢
  rw [fields, if_neg (by decide), Scan.bind_apply, isDefinite, Scan.look]
  dsimp only [Option.isSome_some]
  rw [Scan.bind_eq_of_ok (fields_information (by omega) _)]
  dsimp only
  rw [Scan.bind_eq_of_ok (requireCanonical_reads (reason_reads hlt hreason) (emitUint_plain _)
      (by omega) _ _ _),
    Scan.bind_eq_of_ok (requireCanonical_reads (Eid.reads_toCbor hid.source (by omega))
      (Eid.toCbor_plain _) (by omega) _ _ _),
    Scan.bind_eq_of_ok (requireCanonical_reads (CreationTimestamp.reads_toCbor hid.timestamp)
      (emitArray_plain _) (by omega) _ _ _),
    Scan.bind_eq_of_ok (fragmentInfo_reads hid.fragment (by omega) r)]
  simp only [Nat.add_assoc]
  rfl

theorem refuses_toCbor {b : BundleStatusReport} {x : Error} (hlt : b.reason.toU64 < wordSize)
    (hreason : ReasonCode.ofU64 b.reason.toU64 = .error x) :
    Refuses fromCbor b.toCbor (.invalidField "reason" x) := by
  refine parseArray_refuses b.items_length_lt fun off r => ?_
  simp only [items, List.cons_append, List.nil_append, List.flatten_cons, List.append_assoc,
    List.length_cons]
  rw [fields, if_neg (by decide), Scan.bind_apply, isDefinite, Scan.look]
  dsimp only [Option.isSome_some]
  rw [Scan.bind_eq_of_ok (fields_information (by omega) _)]
  exact Scan.bind_eq_of_error (requireCanonical_refuses (reason_refuses hlt hreason)
    (emitUint_plain _) (by omega) _ _ _) _

end BundleStatusReport

namespace AdministrativeRecord

theorem fields_code {n off : Nat} (hn : 0 < n) (r : Bytes) :
    (requireCanonical 1 u64 "record type code" Error.notCanonical : Ser Error Nat)
        ⟨⟨some n, off, 0⟩, emitUint 1 ++ r⟩ =
      .ok (1, ⟨⟨some n, off + (emitUint 1).length, 1⟩, r⟩) :=
  requireCanonical_reads (u64_reads (by decide)) (emitUint_plain 1) hn _ _ r

variable [Crates]

theorem reads_toCbor {b : BundleStatusReport} {reason : ReasonCode} (hid : b.bundleId.WellFormed)
    (hlt : b.reason.toU64 < wordSize) (hreason : ReasonCode.ofU64 b.reason.toU64 = .ok reason)
    (hlen : (bundleStatusReport b).toCbor.length < wordSize) :
    Reads fromCbor (bundleStatusReport b).toCbor (bundleStatusReport (b.reread reason), true) := by
  rw [toCbor, emitArray_two] at hlen ⊢
  simp only [List.length_append] at hlen
  refine parseArray_reads (by decide) fun off r => ?_
  rw [fields, if_neg (by decide), Scan.bind_apply, isDefinite, Scan.look]
  dsimp only [Option.isSome_some]
  rw [List.append_assoc, Scan.bind_eq_of_ok (fields_code (by decide) _), if_pos rfl,
    Scan.bind_eq_of_ok (mapFieldErr_ok (item_reads ((BundleStatusReport.reads_toCbor hid hlt
    hreason (by omega)).untagged (emitArray_plain _)) (by decide) r)), List.length_append,
    Nat.add_assoc]
  rfl

theorem refuses_toCbor {b : BundleStatusReport} {x : Error} (hlt : b.reason.toU64 < wordSize)
    (hreason : ReasonCode.ofU64 b.reason.toU64 = .error x) :
    Refuses fromCbor (bundleStatusReport b).toCbor
      (.invalidField "bundle status report" (.invalidField "reason" x)) := by
  rw [toCbor, emitArray_two]
  refine parseArray_refuses (by decide) fun off r => ?_
  rw [fields, if_neg (by decide), Scan.bind_apply, isDefinite, Scan.look]
  dsimp only [Option.isSome_some]
  rw [List.append_assoc, Scan.bind_eq_of_ok (fields_code (by decide) _), if_pos rfl]
  exact Scan.bind_eq_of_error (mapFieldErr_refuses (item_refuses
    ((BundleStatusReport.refuses_toCbor hlt hreason).untagged (emitArray_plain _)) (by decide) r)) _

end AdministrativeRecord

/-! ## Reports that come back as they are -/

theorem reason_kept {r : ReasonCode} : ReasonCode.ofU64 r.toU64 = .ok r ↔
    ∀ v, r = .unassigned v → 16 < v ∧ v ≠ 255 := by
  cases r with
  | unassigned v =>
    simp only [ReasonCode.toU64, ReasonCode.unassigned.injEq, forall_eq']
    constructor
    · intro h
      refine ⟨?_, ?_⟩
      · by_contra hlow
        have hle : v ≤ 16 := Nat.le_of_not_lt hlow
        interval_cases v <;> cases h
      · rintro rfl
        cases h
    · rintro ⟨hlow, hreserved⟩
      unfold ReasonCode.ofU64
      split <;> first | rfl | omega
  | _ => simp [ReasonCode.toU64, ReasonCode.ofU64]

def StatusAssertion.Exact (a : StatusAssertion) : Prop :=
  ∀ t, a.time = some t → dtnEpoch < t ∧ t ≤ dateTimeMax ∧ (t - dtnEpoch) % 1000000 = 0

theorem StatusAssertion.reread_exact {a : StatusAssertion} (h : a.Exact) : a.reread = a := by
  obtain ⟨_ | t⟩ := a
  · rfl
  · obtain ⟨hepoch, hmax, hwhole⟩ := h t rfl
    have hsame := DtnTime.toDatetime_saturatingFrom hepoch.le hmax hwhole
    have hne : DtnTime.saturatingFrom t ≠ 0 := by
      intro hzero
      have hmin : dateTimeMin ≤ dtnEpoch := by decide
      rw [hzero, DtnTime.toDatetime, saturateTime] at hsame
      omega
    simp only [reread, ofTime, Option.map_some]
    rw [Option.filter_some_pos (by simpa using hne), Option.map_some, hsame]

structure StatusInformation.Exact (i : StatusInformation) : Prop where
  received : ∀ a, i.received = some a → a.Exact
  forwarded : ∀ a, i.forwarded = some a → a.Exact
  delivered : ∀ a, i.delivered = some a → a.Exact
  deleted : ∀ a, i.deleted = some a → a.Exact

theorem StatusInformation.reread_exact {i : StatusInformation} (h : i.Exact) : i.reread = i := by
  have hsame : ∀ o : Option StatusAssertion, (∀ a, o = some a → a.Exact) →
      o.map StatusAssertion.reread = o := by
    rintro (_ | a) ho
    · rfl
    · rw [Option.map_some, StatusAssertion.reread_exact (ho a rfl)]
  rw [reread, hsame _ h.received, hsame _ h.forwarded, hsame _ h.delivered, hsame _ h.deleted]

section

variable [Crates]

def Decodable (i : Id) : Prop :=
  ∃ d report canonical d', AdministrativeRecord.fromCbor d =
    .ok ((.bundleStatusReport report, canonical), d') ∧ report.bundleId = i

theorem BundleStatusReport.fields_yields (s : Bool) (tags : List Nat) :
    Scan.Yields (BundleStatusReport.fields s tags) fun p => p.1.bundleId.WellFormed := by
  have hfragment : Scan.Yields BundleStatusReport.fragmentInfoFromCbor fun i =>
      ∀ f, i = some f → f.offset < wordSize ∧ f.totalAduLength < wordSize := by
    refine (Scan.Yields.mapErr _ (tryItem_yields (untagged_yields u64_yields))).bind
      fun offset ho => ?_
    cases offset with
    | none => exact .pure nofun
    | some p =>
      refine .of_bind fun _ => (requireCanonical_yields (P := (· < wordSize)) u64_yields _
        _).bind fun total ht =>
        .pure ?_
      rintro f hf
      cases hf
      exact ⟨ho p rfl, ht⟩
  rw [BundleStatusReport.fields]
  split
  · exact .throw _
  · exact .of_bind fun _ => .of_bind fun _ => .of_bind fun _ =>
      (requireCanonical_yields Eid.fromCbor_yields _ _).bind fun source hs =>
      (requireCanonical_yields CreationTimestamp.fromCbor_yields _ _).bind fun timestamp ht =>
      hfragment.bind fun i hi => .pure ⟨hs, ht, hi⟩

theorem AdministrativeRecord.fromCbor_yields : Scan.Yields AdministrativeRecord.fromCbor
    fun p => ∀ report, p.1 = .bundleStatusReport report → report.bundleId.WellFormed := by
  refine parseArray_yields fun s tags => ?_
  rw [AdministrativeRecord.fields]
  split
  · exact .throw _
  · refine .of_bind fun _ => .of_bind fun code => ?_
    split
    · refine (Scan.Yields.mapErr _ (item_yields (untagged_yields
        (parseArray_yields BundleStatusReport.fields_yields)))).bind fun p hp => .pure ?_
      rintro report hreport
      cases hreport
      exact hp
    · exact .throw _

theorem Decodable.wellFormed {i : Id} (h : Decodable i) : i.WellFormed := by
  obtain ⟨d, report, canonical, d', hread, rfl⟩ := h
  exact AdministrativeRecord.fromCbor_yields _ _ _ hread report rfl

/-- A record with exact times comes back as it is, whatever follows it, just when its reason is
not an `Unassigned` of a code that is assigned or reserved. -/
theorem AdministrativeRecord.comes_back_iff {b : BundleStatusReport} (hid : Decodable b.bundleId)
    (hexact : b.toStatusInformation.Exact) (hlt : b.reason.toU64 < wordSize)
    (hlen : (bundleStatusReport b).toCbor.length < wordSize) :
    Reads fromCbor (bundleStatusReport b).toCbor (bundleStatusReport b, true) ↔
      ∀ v, b.reason = .unassigned v → 16 < v ∧ v ≠ 255 := by
  have hreread : b.reread b.reason = b := by
    rw [BundleStatusReport.reread, StatusInformation.reread_exact hexact]
  rw [← reason_kept]
  cases hreason : ReasonCode.ofU64 b.reason.toU64 with
  | error x =>
    refine iff_of_false (fun hreads => ?_) nofun
    have hcontra := (hreads []).symm.trans (refuses_toCbor hlt hreason [])
    cases hcontra
  | ok reason =>
    have hback := reads_toCbor hid.wellFormed hlt hreason hlen
    constructor
    · intro hreads
      have hsame := Except.ok.inj ((hreads []).symm.trans (hback []))
      have hrecord := AdministrativeRecord.bundleStatusReport.inj (congrArg (·.1.1) hsame)
      exact congrArg Except.ok (congrArg BundleStatusReport.reason hrecord).symm
    · intro hsame
      rw [Except.ok.inj hsame, hreread] at hback
      exact hback

end

/-! ## A report with one time -/

namespace Received

local instance : Crates := .reference

def report (reason : ReasonCode) : BundleStatusReport where
  received := some ⟨some (dtnEpoch + 1000000000)⟩
  forwarded := some ⟨none⟩
  bundleId := ⟨.ipn ⟨0, 7⟩ 3, ⟨some 5, 1⟩, some ⟨10, 20⟩⟩
  reason := reason

theorem report_exact (reason : ReasonCode) : (report reason).toStatusInformation.Exact where
  received := by
    rintro a ha t ht
    cases ha
    cases ht
    decide
  forwarded := by
    rintro a ha t ht
    cases ha
    cases ht
  delivered := nofun
  deleted := nofun

theorem report_decodable (reason : ReasonCode) : Decodable (report reason).bundleId := by
  have hid : (report .lifetimeExpired).bundleId.WellFormed := by
    refine ⟨by simp [report, Eid.WellFormed, Eid.u32Max], ⟨?_, by decide⟩, ?_⟩
    · rintro ms hms
      cases hms
      decide
    · rintro f hf
      cases hf
      decide
  exact ⟨_, _, _, _, AdministrativeRecord.reads_toCbor hid (by decide) rfl (by decide) [], rfl⟩

theorem lifetimeExpired_comes_back :
    Reads AdministrativeRecord.fromCbor
      (AdministrativeRecord.bundleStatusReport (report .lifetimeExpired)).toCbor
      (.bundleStatusReport (report .lifetimeExpired), true) :=
  (AdministrativeRecord.comes_back_iff (report_decodable _) (report_exact _) (by decide)
    (by decide)).mpr nofun

/-- The reserved reason is written, and is refused when it is read. -/
theorem reserved_not_back : ¬ ∀ b : BundleStatusReport, Decodable b.bundleId →
    b.toStatusInformation.Exact → b.reason.toU64 < wordSize →
      (AdministrativeRecord.bundleStatusReport b).toCbor.length < wordSize →
        Reads AdministrativeRecord.fromCbor (AdministrativeRecord.bundleStatusReport b).toCbor
          (.bundleStatusReport b, true) := by
  intro h
  have hback := h (report (.unassigned 255)) (report_decodable _) (report_exact _) (by decide)
    (by decide) []
  have hrefused := AdministrativeRecord.refuses_toCbor
    (show (report (.unassigned 255)).reason.toU64 < wordSize by decide) rfl []
  cases hback.symm.trans hrefused

end Received

end StatusReport

end Hardy
