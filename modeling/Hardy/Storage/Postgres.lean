import Hardy.Parse.Rules
import Hardy.Storage.Readback

/-!
# Statuses in PostgreSQL

Model of `postgres-storage/src/status.rs`, and of the compare-and-swap on the columns in
`storage.rs`.  Unsigned numbers go into signed columns, where the larger ones do not fit, and
endpoint ids go in as their texts: the encoding of an `ipn` EID is lost, and an EID of an unknown
scheme is not read back.
-/

namespace Hardy.Storage.Postgres

open Cbor
open Bpa (BundleStatus)

inductive BundleStatusKind where
  | new
  | waiting
  | dispatching
  | forwardPending
  | aduFragment
  | waitingForService
  | forwardAckPending
  | dispatchPending
  | deliverPending
  | deliveryAckPending
deriving DecidableEq

inductive StatusConversionError where
  | peerId (peer : Nat)
  | queueId (queue : Nat)
  | timestamp (ms : Nat)
  | sequence (seq : Nat)
deriving DecidableEq

structure StatusFields where
  status : BundleStatusKind
  peerId : Option Int := none
  queueId : Option Int := none
  aduSource : Option Bytes := none
  aduTsMs : Option Int := none
  aduTsSeq : Option Int := none
  serviceEid : Option Bytes := none
  nextHop : Option Bytes := none
deriving DecidableEq

def tryI32 (error : Nat → StatusConversionError) (v : Nat) : Except StatusConversionError Int :=
  if v < 2 ^ 31 then .ok v else .error (error v)

def tryI64 (error : Nat → StatusConversionError) (v : Nat) : Except StatusConversionError Int :=
  if v < 2 ^ 63 then .ok v else .error (error v)

def tryU64 (v : Int) : Option Nat := if 0 ≤ v then some v.toNat else none

section

variable [Crates] [DebugText]

namespace StatusFields

def tryFrom : BundleStatus → Except StatusConversionError StatusFields
  | .new => .ok { status := .new }
  | .waiting => .ok { status := .waiting }
  | .dispatching => .ok { status := .dispatching }
  | .dispatchPending => .ok { status := .dispatchPending }
  | .forwardPending peer queue nextHop => do
      let peer ← tryI32 .peerId peer
      let queue ← tryI32 .queueId queue
      pure { status := .forwardPending, peerId := some peer, queueId := some queue,
             nextHop := some nextHop.display }
  | .aduFragment source timestamp => do
      let ms ← tryI64 .timestamp (timestamp.creationTime.getD 0)
      let seq ← tryI64 .sequence timestamp.sequenceNumber
      pure { status := .aduFragment, aduSource := some source.display, aduTsMs := some ms,
             aduTsSeq := some seq }
  | .waitingForService service =>
    .ok { status := .waitingForService, serviceEid := some service.display }
  | .forwardAckPending peer => do
      let peer ← tryI32 .peerId peer
      pure { status := .forwardAckPending, peerId := some peer }
  | .deliverPending service =>
    .ok { status := .deliverPending, serviceEid := some service.display }
  | .deliveryAckPending service =>
    .ok { status := .deliveryAckPending, serviceEid := some service.display }

def intoBundleStatus (f : StatusFields) : Option BundleStatus :=
  match f.status with
  | .new => some .new
  | .waiting => some .waiting
  | .dispatching => some .dispatching
  | .dispatchPending => some .dispatchPending
  | .forwardPending => do
      let peer ← f.peerId.bind tryU32
      let queue ← f.queueId.bind tryU32
      let nextHop ← parseParam f.nextHop
      some (.forwardPending peer queue nextHop)
  | .aduFragment => do
      let source ← parseParam f.aduSource
      let creationTime := (f.aduTsMs.filter (· ≠ 0)).bind tryU64
      let sequenceNumber ← f.aduTsSeq.bind tryU64
      some (.aduFragment source ⟨creationTime, sequenceNumber⟩)
  | .waitingForService => (parseParam f.serviceEid).map .waitingForService
  | .forwardAckPending => (f.peerId.bind tryU32).map .forwardAckPending
  | .deliverPending => (parseParam f.serviceEid).map .deliverPending
  | .deliveryAckPending => (parseParam f.serviceEid).map .deliveryAckPending

end StatusFields

/-- `PostgresStorage::swap_status` on the status columns of the bundle's row, if it has one.  The
store aborts the process on an error. -/
def swapStatus (row : Option StatusFields) (expected status : BundleStatus) :
    Except StatusConversionError (Bool × Option StatusFields) := do
  let expected ← StatusFields.tryFrom expected
  let fields ← StatusFields.tryFrom status
  pure (if row = some expected then (true, some fields) else (false, row))

/-! ## Statuses up to texts -/

def normal : BundleStatus → BundleStatus
  | .forwardPending peer queue nextHop => .forwardPending peer queue nextHop.normal
  | .aduFragment source timestamp => .aduFragment source.normal timestamp
  | .waitingForService service => .waitingForService service.normal
  | .deliverPending service => .deliverPending service.normal
  | .deliveryAckPending service => .deliveryAckPending service.normal
  | s => s

def NumbersFit : BundleStatus → Prop
  | .forwardPending peer queue _ => peer < 2 ^ 31 ∧ queue < 2 ^ 31
  | .forwardAckPending peer => peer < 2 ^ 31
  | .aduFragment _ timestamp =>
    timestamp.creationTime.getD 0 < 2 ^ 63 ∧ timestamp.sequenceNumber < 2 ^ 63
  | _ => True

def Fits (s : BundleStatus) : Prop := NumbersFit s ∧ ∀ e ∈ eidOf s, e.Known

/-- The status is stored, and comes back as it is but for the encoding of its EID. -/
def Stored (s : BundleStatus) : Prop :=
  ∃ f, StatusFields.tryFrom s = .ok f ∧ f.intoBundleStatus = some (normal s)

def fieldsOf : BundleStatus → StatusFields
  | .new => { status := .new }
  | .waiting => { status := .waiting }
  | .dispatching => { status := .dispatching }
  | .dispatchPending => { status := .dispatchPending }
  | .forwardPending peer queue nextHop =>
    { status := .forwardPending, peerId := some peer, queueId := some queue,
      nextHop := some nextHop.display }
  | .aduFragment source timestamp =>
    { status := .aduFragment, aduSource := some source.display,
      aduTsMs := some (timestamp.creationTime.getD 0 : Nat),
      aduTsSeq := some timestamp.sequenceNumber }
  | .waitingForService service =>
    { status := .waitingForService, serviceEid := some service.display }
  | .forwardAckPending peer => { status := .forwardAckPending, peerId := some peer }
  | .deliverPending service => { status := .deliverPending, serviceEid := some service.display }
  | .deliveryAckPending service =>
    { status := .deliveryAckPending, serviceEid := some service.display }

omit [Crates] [DebugText] in
theorem tryI32_ok {error : Nat → StatusConversionError} {v : Nat} {i : Int} :
    tryI32 error v = .ok i ↔ v < 2 ^ 31 ∧ i = v := by
  unfold tryI32
  split
  · next h => exact ⟨fun heq => ⟨h, (by cases heq; rfl)⟩, fun ⟨_, hi⟩ => (by rw [hi])⟩
  · next h => exact iff_of_false nofun fun hi => h hi.1

omit [Crates] [DebugText] in
theorem tryI64_ok {error : Nat → StatusConversionError} {v : Nat} {i : Int} :
    tryI64 error v = .ok i ↔ v < 2 ^ 63 ∧ i = v := by
  unfold tryI64
  split
  · next h => exact ⟨fun heq => ⟨h, (by cases heq; rfl)⟩, fun ⟨_, hi⟩ => (by rw [hi])⟩
  · next h => exact iff_of_false nofun fun hi => h hi.1

theorem tryFrom_ok {s : BundleStatus} {f : StatusFields} :
    StatusFields.tryFrom s = .ok f ↔ NumbersFit s ∧ fieldsOf s = f := by
  cases s <;>
    simp only [StatusFields.tryFrom, Fold.bind_ok, tryI32_ok, tryI64_ok, NumbersFit, fieldsOf,
      pure, Except.pure, Except.ok.injEq, true_and]
  case forwardPending peer queue e =>
    constructor
    · rintro ⟨_, ⟨hpeer, rfl⟩, _, ⟨hqueue, rfl⟩, hf⟩
      exact ⟨⟨hpeer, hqueue⟩, hf⟩
    · rintro ⟨⟨hpeer, hqueue⟩, hf⟩
      exact ⟨_, ⟨hpeer, rfl⟩, _, ⟨hqueue, rfl⟩, hf⟩
  case aduFragment e t =>
    constructor
    · rintro ⟨_, ⟨hms, rfl⟩, _, ⟨hseq, rfl⟩, hf⟩
      exact ⟨⟨hms, hseq⟩, hf⟩
    · rintro ⟨⟨hms, hseq⟩, hf⟩
      exact ⟨_, ⟨hms, rfl⟩, _, ⟨hseq, rfl⟩, hf⟩
  case forwardAckPending peer =>
    constructor
    · rintro ⟨_, ⟨hpeer, rfl⟩, hf⟩
      exact ⟨hpeer, hf⟩
    · rintro ⟨hpeer, hf⟩
      exact ⟨_, ⟨hpeer, rfl⟩, hf⟩

theorem fieldsOf_normal (s : BundleStatus) : fieldsOf (normal s) = fieldsOf s := by
  cases s <;> simp [normal, fieldsOf]

omit [Crates] [DebugText] in
theorem tryU64_cast (v : Nat) : tryU64 v = some v := if_pos (Int.natCast_nonneg v)

omit [Crates] [DebugText] in
theorem read_creationTime {t : CreationTimestamp} (h : t.WellFormed) :
    ((some ((t.creationTime.getD 0 : Nat) : Int)).filter (· ≠ 0)).bind tryU64 =
      t.creationTime := by
  cases ht : t.creationTime with
  | none => rfl
  | some ms =>
    obtain ⟨hpos, -⟩ := h.1 ms ht
    have hne : ((ms : Nat) : Int) ≠ 0 := by omega
    simp only [Option.getD_some, Option.filter, ne_eq, hne, not_false_eq_true, decide_true,
      if_true, Option.bind_some, tryU64_cast]

theorem map_parseParam_normal {e : Eid} (h : e.WellFormed) {f : Eid → BundleStatus}
    (hf : ∀ e e', f e = f e' → e = e') :
    (parseParam (some e.display)).map f = some (f e.normal) ↔ ∀ e' ∈ some e, e'.Known := by
  rw [parseParam_display h, Option.map_eq_some_iff]
  simp only [Option.mem_def, Option.some.injEq, forall_eq', ← Eid.readBack_eq_normal]
  constructor
  · rintro ⟨e', he', heq⟩
    rw [he', hf _ _ heq]
  · exact fun he => ⟨e.normal, he, rfl⟩

theorem into_fieldsOf {s : BundleStatus} (h : Assignable s) :
    (fieldsOf s).intoBundleStatus = some (normal s) ↔ ∀ e ∈ eidOf s, e.Known := by
  cases s with
  | forwardPending peer queue e =>
    obtain ⟨hpeer, hqueue, he⟩ := h
    have hread : (fieldsOf (.forwardPending peer queue e)).intoBundleStatus =
        (parseParam (some e.display)).map (.forwardPending peer queue) := by
      simp only [fieldsOf, StatusFields.intoBundleStatus, Option.bind_some, tryU32_cast hpeer,
        tryU32_cast hqueue]
      cases parseParam (some e.display) <;> rfl
    rw [hread]
    exact map_parseParam_normal he fun _ _ heq => by cases heq; rfl
  | aduFragment e t =>
    obtain ⟨he, ht⟩ := h
    have hread : (fieldsOf (.aduFragment e t)).intoBundleStatus =
        (parseParam (some e.display)).map (.aduFragment · t) := by
      simp only [fieldsOf, StatusFields.intoBundleStatus, Option.bind_some,
        read_creationTime ht, tryU64_cast]
      cases parseParam (some e.display) <;> rfl
    rw [hread]
    exact map_parseParam_normal he fun _ _ heq => by cases heq; rfl
  | forwardAckPending peer =>
    refine iff_of_true ?_ fun e he => by cases he
    simp only [fieldsOf, StatusFields.intoBundleStatus, Option.bind_some, tryU32_cast h]
    rfl
  | waitingForService e => exact map_parseParam_normal h fun _ _ heq => by cases heq; rfl
  | deliverPending e => exact map_parseParam_normal h fun _ _ heq => by cases heq; rfl
  | deliveryAckPending e => exact map_parseParam_normal h fun _ _ heq => by cases heq; rfl
  | new => exact iff_of_true rfl fun e he => by cases he
  | dispatchPending => exact iff_of_true rfl fun e he => by cases he
  | dispatching => exact iff_of_true rfl fun e he => by cases he
  | waiting => exact iff_of_true rfl fun e he => by cases he

theorem stored_iff {s : BundleStatus} (h : Assignable s) : Stored s ↔ Fits s := by
  simp only [Stored, tryFrom_ok, Fits, ← into_fieldsOf h]
  constructor
  · rintro ⟨_, ⟨hn, rfl⟩, hinto⟩
    exact ⟨hn, hinto⟩
  · rintro ⟨hn, hinto⟩
    exact ⟨_, ⟨hn, rfl⟩, hinto⟩

theorem fields_eq_iff {s s' : BundleStatus} (h : Stored s) (h' : Stored s') :
    StatusFields.tryFrom s = StatusFields.tryFrom s' ↔ normal s = normal s' := by
  obtain ⟨f, hf, hinto⟩ := h
  obtain ⟨f', hf', hinto'⟩ := h'
  rw [hf, hf', Except.ok.injEq]
  constructor
  · intro heq
    exact Option.some.inj (hinto.symm.trans (heq ▸ hinto'))
  · intro heq
    rw [← (tryFrom_ok.mp hf).2, ← (tryFrom_ok.mp hf').2, ← fieldsOf_normal s,
      ← fieldsOf_normal s', heq]

theorem swapStatus_ok {s s' : BundleStatus} {row : Option StatusFields} :
    (∃ r, swapStatus row s s' = .ok r) ↔ NumbersFit s ∧ NumbersFit s' := by
  simp only [swapStatus, Fold.bind_ok, tryFrom_ok]
  constructor
  · rintro ⟨_, _, ⟨hn, -⟩, _, ⟨hn', -⟩, -⟩
    exact ⟨hn, hn'⟩
  · rintro ⟨hn, hn'⟩
    exact ⟨_, _, ⟨hn, rfl⟩, _, ⟨hn', rfl⟩, rfl⟩

/-! ## Statuses of bundles -/

inductive Assigned (b : Hardy.Bundle) : BundleStatus → Prop where
  | new : Assigned b .new
  | waiting : Assigned b .waiting
  | dispatching : Assigned b .dispatching
  | dispatchPending : Assigned b .dispatchPending
  | aduFragment (h : b.primary.id.fragmentInfo.isSome = true) :
      Assigned b (.aduFragment b.primary.id.source b.primary.id.timestamp)
  | forwardPending {peer queue : Nat} {nextHop : Eid} (hpeer : peer ≤ Eid.u32Max)
      (hqueue : queue ≤ Eid.u32Max) (h : nextHop.WellFormed) :
      Assigned b (.forwardPending peer queue nextHop)
  | forwardAckPending {peer : Nat} (hpeer : peer ≤ Eid.u32Max) :
      Assigned b (.forwardAckPending peer)
  | waitingForService {service : Eid} (h : service.WellFormed) :
      Assigned b (.waitingForService service)
  | deliverPending {service : Eid} (h : service.WellFormed) : Assigned b (.deliverPending service)
  | deliveryAckPending {service : Eid} (h : service.WellFormed) :
      Assigned b (.deliveryAckPending service)

omit [DebugText] in
theorem Assigned.assignable [HashOrder] {data : Bytes} {p : Parsed} (h : parse data = .ok p)
    {s : BundleStatus} (hs : Assigned p.bundle s) : Assignable s := by
  have hp := (parse_primary h).1
  cases hs with
  | aduFragment _ => exact ⟨hp.source, hp.timestamp⟩
  | forwardPending hpeer hqueue he => exact ⟨hpeer, hqueue, he⟩
  | forwardAckPending hpeer => exact hpeer
  | waitingForService he => exact he
  | deliverPending he => exact he
  | deliveryAckPending he => exact he
  | _ => trivial

/-- Two statuses are stored, swaps of one for the other do not abort the process, and their
columns are equal only if they are the same status. -/
structure Storable (s s' : BundleStatus) : Prop where
  stored : Stored s
  stored' : Stored s'
  swap : ∀ row, ∃ r, swapStatus row s s' = .ok r
  distinct : StatusFields.tryFrom s = StatusFields.tryFrom s' → s = s'

/-- Two statuses are storable if and only if they fit their columns and differ in what
the columns keep. -/
theorem storable_iff [HashOrder] {data data' : Bytes} {p p' : Parsed} (h : parse data = .ok p)
    (h' : parse data' = .ok p') {s s' : BundleStatus} (hs : Assigned p.bundle s)
    (hs' : Assigned p'.bundle s') :
    Storable s s' ↔ Fits s ∧ Fits s' ∧ (normal s = normal s' → s = s') := by
  have hiff := stored_iff (hs.assignable h)
  have hiff' := stored_iff (hs'.assignable h')
  constructor
  · intro hst
    refine ⟨hiff.mp hst.stored, hiff'.mp hst.stored', fun hn => hst.distinct ?_⟩
    exact (fields_eq_iff hst.stored hst.stored').mpr hn
  · rintro ⟨hf, hf', hn⟩
    have hst := hiff.mpr hf
    have hst' := hiff'.mpr hf'
    exact ⟨hst, hst', fun _ => swapStatus_ok.mpr ⟨hf.1, hf'.1⟩,
      fun heq => hn ((fields_eq_iff hst hst').mp heq)⟩

end

section

local instance referenceCrates : Crates := .reference

local instance plainText : DebugText := .plain

local instance sortedMaps : HashOrder := .sorted

def fragmentBytes (top : UInt8) : Bytes :=
  [0x9F, 0x8A, 0x07, 0x01, 0x00, 0x82, 0x02, 0x82, 0x02, 0x01, 0x82, 0x02, 0x82, 0x01, 0x01, 0x82,
    0x01, 0x00, 0x82, 0x01, 0x1B, top, 0x00, 0x00, 0x00, 0x00, 0x00, 0x00, 0x01, 0x19, 0x03, 0xE8,
    0x00, 0x02, 0x85, 0x01, 0x01, 0x00, 0x00, 0x41, 0x2A, 0xFF]

def fragmentId (sequenceNumber : Nat) : Id :=
  ⟨.ipn ⟨0, 1⟩ 1, ⟨some 1, sequenceNumber⟩, some ⟨0, 2⟩⟩

theorem parse_low : (parse (fragmentBytes 0x7F)).toOption.map (·.bundle.primary.id) =
    some (fragmentId (2 ^ 63 - 2 ^ 56 + 1)) := by
  decide +kernel

theorem parse_high : (parse (fragmentBytes 0x80)).toOption.map (·.bundle.primary.id) =
    some (fragmentId (2 ^ 63 + 1)) := by
  decide +kernel

theorem storable_low : ∃ p, parse (fragmentBytes 0x7F) = .ok p ∧
    Storable .dispatching (.aduFragment p.bundle.primary.id.source p.bundle.primary.id.timestamp) := by
  have hread := parse_low
  cases h : parse (fragmentBytes 0x7F) with
  | error x =>
    rw [h] at hread
    cases hread
  | ok p =>
    rw [h] at hread
    have hid : p.bundle.primary.id = fragmentId (2 ^ 63 - 2 ^ 56 + 1) := Option.some.inj hread
    have hs : Assigned p.bundle
        (.aduFragment p.bundle.primary.id.source p.bundle.primary.id.timestamp) :=
      .aduFragment (by rw [hid]; rfl)
    refine ⟨p, rfl, (storable_iff h h .dispatching hs).mpr ?_⟩
    rw [hid]
    refine ⟨⟨trivial, nofun⟩, ⟨⟨by decide, by decide⟩, fun _ he => ?_⟩,
      nofun⟩
    cases he
    trivial

/-- The fragment with the larger number aborts the process wherever it is parked. -/
theorem high_not_storable : ∃ p, parse (fragmentBytes 0x80) = .ok p ∧ ∃ s, Assigned p.bundle s ∧
    (∀ row, swapStatus row .dispatching s = .error (.sequence (2 ^ 63 + 1))) ∧
    ¬ Storable .dispatching s := by
  have hread := parse_high
  cases h : parse (fragmentBytes 0x80) with
  | error x =>
    rw [h] at hread
    cases hread
  | ok p =>
    rw [h] at hread
    have hid : p.bundle.primary.id = fragmentId (2 ^ 63 + 1) := Option.some.inj hread
    have hswap : ∀ row, swapStatus row .dispatching
        (.aduFragment p.bundle.primary.id.source p.bundle.primary.id.timestamp) =
        .error (.sequence (2 ^ 63 + 1)) := by
      intro row
      rw [hid]
      rfl
    refine ⟨p, rfl, _, .aduFragment (by rw [hid]; rfl), hswap, fun hst => ?_⟩
    obtain ⟨r, hr⟩ := hst.swap none
    rw [hswap] at hr
    cases hr

end

end Hardy.Storage.Postgres
