import Hardy.Build.Roundtrip
import Hardy.Parse.Rules
import Hardy.StatusReport
import Hardy.Storage.Record

/-!
# Dispatching status reports

Model of `bpa/src/dispatcher/report.rs`: the four functions that report on a
bundle, each under its own flag, and the bundle that carries the report.  What
the store and the dispatch queue do with that bundle is not in the model, and
neither are the counters.
-/

namespace Hardy.Bpa

open Cbor StatusReport

inductive Panic where
  /-- The `unreachable!` of `get_admin_endpoint`. -/
  | noNodeId
  /-- "Failed to create new bundle" -/
  | build (e : BuilderError)
  /-- "Failed to extract extension fields from built bundle" -/
  | extract (e : Hardy.Error)

structure Dispatcher where
  statusReports : Bool
  nodeIds : Routing.NodeIds

/-- The readings of the clock during a report, and the pair that was issued last. -/
structure Clock where
  event : Int
  creation : Int
  originated : Int
  lastIssued : Nat

/-! ## Events -/

inductive ReportedEvent where
  | reception (reason : Hardy.ReasonCode)
  | forwarded
  | delivery
  | deletion (reason : Hardy.ReasonCode)
deriving DecidableEq, Repr

namespace ReportedEvent

def requested : ReportedEvent → BundleFlags → Bool
  | reception _ => (·.receiptReportRequested)
  | forwarded => (·.forwardReportRequested)
  | delivery => (·.deliveryReportRequested)
  | deletion _ => (·.deleteReportRequested)

def reason : ReportedEvent → Hardy.ReasonCode
  | reception reason => reason
  | forwarded => .noAdditionalInformation
  | delivery => .noAdditionalInformation
  | deletion reason => reason

end ReportedEvent

theorem ReportedEvent.requested_false {flags : BundleFlags} (h : flags.anyReport = false) (event : ReportedEvent) :
    event.requested flags = false := by
  simp only [BundleFlags.anyReport, Bool.or_eq_false_iff] at h
  cases event with
  | reception reason => exact h.1.1.1
  | forwarded => exact h.1.1.2
  | delivery => exact h.1.2
  | deletion reason => exact h.2

theorem anyReport_false {p : PrimaryBlock} (h : p.flagsOk = true)
    (hp : p.flags.isAdminRecord = true ∨ p.id.source.isNull = true) :
    p.flags.anyReport = false := by
  simp only [PrimaryBlock.flagsOk, Bool.and_eq_true, Bool.not_eq_true', Bool.and_eq_false_iff,
    Bool.or_eq_false_iff] at h
  rcases hp with hp | hp
  · exact h.2.resolve_left (by simp [hp])
  · exact (h.1.resolve_left (by simp [hp])).2

/-! ## Dispatch -/

variable [Crates]

def reportBuilder (nodeIds : Routing.NodeIds) (payload : Bytes) (reportTo : Eid) : Builder :=
  ((Builder.new (nodeIds.getAdminEndpoint reportTo) reportTo).withFlags
    { isAdminRecord := true }).withPayload payload

variable [HashOrder]

/-- `dispatch_status_report`, up to the bundle that goes to the store. -/
def Dispatcher.dispatchStatusReport (d : Dispatcher) (clock : Clock) (payload : Bytes)
    (reportTo : Eid) : Except Panic (Option (Storage.Bundle × Bytes)) :=
  if !d.statusReports then .ok none
  else if d.nodeIds.ipn.isNone && d.nodeIds.dtn.isNone then .error .noNodeId
  else do
    let (bundle, data) ← ((reportBuilder d.nodeIds payload reportTo).build
      (.now clock.lastIssued clock.creation)).mapError .build
    let extensions ← (extractExtensionBlockFields data bundle.blocks ∅).mapError .extract
    pure (some (⟨bundle, ⟨clock.originated, .originated, extensions, none, none⟩, .dispatching⟩,
      data))

/-! ## Reporting -/

def Dispatcher.report (d : Dispatcher) (clock : Clock) (b : Storage.Bundle)
    (requested : BundleFlags → Bool) (report : BundleStatusReport) :
    Except Panic (Option (Storage.Bundle × Bytes)) :=
  if requested b.bpv7.primary.flags then
    d.dispatchStatusReport clock (AdministrativeRecord.bundleStatusReport report).toCbor
      b.bpv7.primary.reportTo
  else .ok none

def statusAssertion (b : Storage.Bundle) (time : Int) : StatusAssertion :=
  ⟨if b.bpv7.primary.flags.reportStatusTime then some time else none⟩

namespace Dispatcher

variable (d : Dispatcher) (clock : Clock) (b : Storage.Bundle)

def reportBundleReception (reason : Hardy.ReasonCode) :=
  d.report clock b (·.receiptReportRequested)
    { bundleId := b.id, received := some (statusAssertion b b.receivedAt), reason := reason }

def reportBundleForwarded :=
  d.report clock b (·.forwardReportRequested)
    { bundleId := b.id, forwarded := some (statusAssertion b clock.event) }

def reportBundleDelivery :=
  d.report clock b (·.deliveryReportRequested)
    { bundleId := b.id, delivered := some (statusAssertion b clock.event) }

def reportBundleDeletion (reason : Hardy.ReasonCode) :=
  d.report clock b (·.deleteReportRequested)
    { bundleId := b.id, deleted := some (statusAssertion b clock.event), reason := reason }

end Dispatcher

def Dispatcher.on (d : Dispatcher) (clock : Clock) (b : Storage.Bundle) :
    ReportedEvent → Except Panic (Option (Storage.Bundle × Bytes))
  | .reception reason => d.reportBundleReception clock b reason
  | .forwarded => d.reportBundleForwarded clock b
  | .delivery => d.reportBundleDelivery clock b
  | .deletion reason => d.reportBundleDeletion clock b reason

section

variable {b : Storage.Bundle}

theorem Dispatcher.on_eq (d : Dispatcher) (clock : Clock) (b : Storage.Bundle) (event : ReportedEvent) :
    ∃ report : BundleStatusReport, report.bundleId = b.id ∧ report.reason = event.reason ∧
      d.on clock b event = d.report clock b event.requested report := by
  cases event with
  | reception reason => exact ⟨_, rfl, rfl, rfl⟩
  | forwarded => exact ⟨_, rfl, rfl, rfl⟩
  | delivery => exact ⟨_, rfl, rfl, rfl⟩
  | deletion reason => exact ⟨_, rfl, rfl, rfl⟩

theorem Dispatcher.on_silent (d : Dispatcher) (clock : Clock)
    (h : b.bpv7.primary.flags.anyReport = false) (event : ReportedEvent) :
    d.on clock b event = .ok none := by
  obtain ⟨report, -, -, heq⟩ := d.on_eq clock b event
  rw [heq, Dispatcher.report, event.requested_false h]
  rfl

end

end Hardy.Bpa
