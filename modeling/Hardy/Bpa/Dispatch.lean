import Hardy.Bpa.Handoff
import Hardy.Bpa.Restart
import Hardy.Bpsec.Reading
import Hardy.Services.Wakeup
import Hardy.StatusReport

/-!
# Dispatch

Model of `Dispatcher::process_bundle`, `administrative_bundle` and
`deliver_bundle` (`bpa/src/dispatcher`), with the delivery queues between them,
as tasks that take one step from an await to the next.  The rest of the node may
change the store, the routes and the tasks at every await; what it never does is
to queue a bundle for delivery.

A fragment is not for a service to see.  The test for it stands in one arm of
`process_bundle` only: a fragment that goes to the administrative endpoint is
read as if it were whole (`Fragmented.fragment_notifies`), and apart from that
nothing that reaches a service is a fragment (`dispatch_whole`).
-/

namespace Hardy

open Bpsec
open Routing (RouteTable NodeIds Subject DispatchAction Rib)
open StatusReport (AdministrativeRecord StatusAssertion StatusInformation)

/-! ## What reaches a service -/

def Payload.bytes : Payload → Bytes
  | .borrowed bytes => bytes
  | .decrypted bytes => bytes

/-- `services::StatusNotify` -/
inductive StatusNotify where
  | received
  | forwarded
  | delivered
  | deleted
deriving DecidableEq, Repr

/-- The notifications of a report, in the order of `administrative_bundle`. -/
def StatusReport.StatusInformation.notifications (i : StatusInformation) :
    List (StatusNotify × StatusAssertion) :=
  (i.received.map (StatusNotify.received, ·)).toList ++
    (i.forwarded.map (StatusNotify.forwarded, ·)).toList ++
    (i.delivered.map (StatusNotify.delivered, ·)).toList ++
    (i.deleted.map (StatusNotify.deleted, ·)).toList

namespace Bpa

section

variable [Crates] [HashOrder] [Ciphers] (keyProvider : Hardy.Bundle → Bytes → KeySource)

/-- The plaintext of the payload block, parsed afresh.  The reader does not
panic on the products of a parse. -/
def readPayload (data : Bytes) : Except Error Bytes :=
  match parse data with
  | .error e => .error e
  | .ok p =>
    let reader := DecryptingReader.new p.bundle.blocks p.data p.bcbs (keyProvider p.bundle p.data)
    match (reader.intoBlockData 1).getD (.error .altered) with
    | .error e => .error e
    | .ok none => .error .altered
    | .ok (some payload) => .ok payload.bytes

end

/-- What a service gets to see, with the bundle that it comes from. -/
inductive Upcall where
  /-- `on_status_notify` -/
  | notified (bundle : Bundle) (service : Routing.Service) (bundleId : Id) (kind : StatusNotify)
      (reason : Hardy.ReasonCode) (timestamp : Option Int)
  /-- `on_deliver` -/
  | delivered (bundle : Bundle) (service : Routing.Service) (payload : Bytes)

def Upcall.bundle : Upcall → Bundle
  | .notified b _ _ _ _ _ => b
  | .delivered b _ _ => b

inductive ServiceImpl where
  | lowLevel
  | application
deriving DecidableEq, Repr

/-! ## Tasks -/

inductive Task where
  /-- `process_bundle` -/
  | process (b : Bundle)
  /-- `administrative_bundle`, for an administrative record -/
  | admin (b : Bundle)
  /-- `administrative_bundle` has loaded the data. -/
  | record (b : Bundle) (data : Bytes)
  /-- `Service::deliver` -/
  | send (service : Routing.Service) (b : Bundle)
  /-- The bundle is in the delivery queue of a service. -/
  | queued (service : Routing.Service) (b : Bundle)
  /-- `deliver_bundle` has loaded the data, -/
  | loaded (service : Routing.Service) (b : Bundle) (data : Bytes)
  /-- and has claimed the bundle, -/
  | claimed (service : Routing.Service) (b : Bundle) (data : Bytes)
  /-- and the filters have let it through. -/
  | filtered (service : Routing.Service) (b : Bundle) (data : Bytes)
  | complete (b : Bundle)
  /-- `drop_bundle` -/
  | drop (b : Bundle) (reason : Hardy.ReasonCode)
  /-- `delete_bundle` -/
  | delete (b : Bundle)
  /-- `park_bundle` -/
  | park (b : Bundle) (status : BundleStatus)
  /-- A swap of the status without a look at the routes. -/
  | hold (b : Bundle) (status : BundleStatus)
  | reassemble (b : Bundle)
  /-- `ClaRegistry::forward` -/
  | forward (peer : Nat) (nextHop : Eid) (b : Bundle)

namespace Task

def offers : Task → Option Bundle
  | .send _ b | .queued _ b | .loaded _ b _ | .claimed _ b _ | .filtered _ b _ => some b
  | _ => none

end Task

/-! ## The dispatcher -/

/-- Where `process_bundle` parks a bundle that there is no route for. -/
def parkStatus (nodeIds : NodeIds) (b : Bundle) : BundleStatus :=
  match nodeIds.localServiceEid b.bpv7.primary.destination with
  | some service => .waitingForService service
  | none => .waiting

def processBundle (nodeIds : NodeIds) (hasExpired : Bool) (action : Option DispatchAction)
    (b : Bundle) : Task :=
  if hasExpired then .drop b .lifetimeExpired
  else match action with
    | some (.drop (some reason)) => .drop b reason
    | some (.drop none) => .delete b
    | some .adminEndpoint =>
      if !b.bpv7.primary.flags.isAdminRecord then .drop b .blockUnintelligible else .admin b
    | some (.deliver service) =>
      if b.id.fragmentInfo.isSome then .reassemble b else .send service b
    | some (.forward peer nextHop) => .forward peer nextHop b
    | none => .park b (parkStatus nodeIds b)

section

variable [Crates] [HashOrder] [Ciphers] (keyProvider : Hardy.Bundle → Bytes → KeySource)

/-- `administrative_bundle` from the data of the bundle on. -/
def administrativeRecord (nodeIds : NodeIds) (findService : Eid → Option Routing.Service)
    (b : Bundle) (data : Bytes) : Task × List Upcall :=
  match readPayload keyProvider data with
  | .error (.invalidBPSec .noKey) => (.hold b .waiting, [])
  | .error _ => (.drop b .blockUnintelligible, [])
  | .ok payload =>
    match Cbor.parseExact AdministrativeRecord.fromCbor payload with
    | .error _ => (.drop b .blockUnintelligible, [])
    | .ok (.bundleStatusReport report) =>
      match findService report.bundleId.source with
      | some service =>
        (.delete b, report.notifications.map fun n =>
          .notified b service report.bundleId n.1 report.reason n.2.time)
      | none =>
        (.hold b (.waitingForService
          ((nodeIds.localServiceEid report.bundleId.source).getD report.bundleId.source)), [])

/-- The offer of `offer_to_service`; the service accepts it or not. -/
def offerToService (service : Routing.Service) (impl : ServiceImpl) (accepts : Bool) (b : Bundle)
    (data : Bytes) : Task × List Upcall :=
  let result : Task := if accepts then .complete b else .park b (.waitingForService service.eid)
  match impl with
  | .lowLevel => (result, [.delivered b service data])
  | .application =>
    match readPayload keyProvider data with
    | .error (.invalidBPSec .noKey) => (.park b (.waitingForService service.eid), [])
    | .error _ => (.drop b .blockUnintelligible, [])
    | .ok payload => (result, [.delivered b service payload])

end

/-! ## The system -/

/-- `delete_bundle` -/
def Store.discard (s : Store) (b : Bundle) : Store :=
  (match b.metadata.storageName with
    | some name => s.deleteData name
    | none => s).tombstoneMetadata b.id

def BundleStatus.delivers : BundleStatus → Bool
  | .deliverPending _ | .deliveryAckPending _ => true
  | _ => false

/-- A change of the store that files every record under its id and queues no
bundle for delivery. -/
def Store.Keeps (s s' : Store) : Prop :=
  ∀ id r', s'.metadata id = some (.live r') → r'.id = id ∧ (r'.status.delivers = true →
    ∃ r, s.metadata id = some (.live r) ∧ r.status.delivers = true)

inductive Settles : Task → Store → Store → Prop where
  | complete {b : Bundle} {s s' : Store} (hwin : s.tombstoneIf b = some s') :
      Settles (.complete b) s (s'.discard b)
  | drop {b : Bundle} {reason : Hardy.ReasonCode} {s s' : Store}
      (hwin : s.tombstoneIf b = some s') : Settles (.drop b reason) s (s'.discard b)
  | delete {b : Bundle} {s : Store} : Settles (.delete b) s (s.discard b)
  | park {b b' : Bundle} {status : BundleStatus} {s s' : Store}
      (hswap : s.swapStatus b status = some (b', s')) : Settles (.park b status) s s'
  /-- The routes have changed in the meantime. -/
  | redispatch {b b₁ b₂ b₃ : Bundle} {status : BundleStatus} {s s₁ s₂ s₃ : Store}
      (hpark : s.swapStatus b status = some (b₁, s₁))
      (hclaim : s₁.swapStatus b₁ .dispatching = some (b₂, s₂))
      (hqueue : s₂.swapStatus b₂ .dispatchPending = some (b₃, s₃)) :
      Settles (.park b status) s s₃
  | hold {b b' : Bundle} {status : BundleStatus} {s s' : Store}
      (hswap : s.swapStatus b status = some (b', s')) : Settles (.hold b status) s s'
  | forward {b b' : Bundle} {peer queue : Nat} {nextHop : Eid} {s s' : Store}
      (hswap : s.swapStatus b (.forwardPending peer queue nextHop) = some (b', s')) :
      Settles (.forward peer nextHop b) s s'
  /-- The peer is gone. -/
  | returned {b b' : Bundle} {peer : Nat} {nextHop : Eid} {s s' : Store}
      (hswap : s.swapStatus b .waiting = some (b', s')) : Settles (.forward peer nextHop b) s s'
  /-- `ReassemblyResult::NotReady` -/
  | fragment {b b' : Bundle} {s s' : Store}
      (hswap : s.swapStatus b (.aduFragment b.id.source b.id.timestamp) = some (b', s')) :
      Settles (.reassemble b) s s'
  /-- The fragments are consumed, and the whole bundle is received anew. -/
  | reassembled {b : Bundle} {s s' : Store} (hkeeps : s.Keeps s') : Settles (.reassemble b) s s'
  /-- Somebody else has moved the bundle. -/
  | lost {t : Task} {s : Store} (hlast : t.offers = none) : Settles t s s

def Task.loads : Task → Option (Bundle × (Bytes → Task))
  | .admin b => some (b, .record b)
  | .queued service b => some (b, .loaded service b)
  | _ => none

namespace Dispatch

structure State where
  store : Store
  table : RouteTable
  tasks : Nat → Option Task
  /-- What the services have seen. -/
  log : List Upcall

inductive Label where
  | enter (k : Nat)
  | process (k : Nat)
  | load (k : Nat)
  | record (k : Nat)
  | send (k : Nat)
  | poll (k : Nat)
  | claim (k : Nat)
  | filter (k : Nat) (chain : FilterChain)
  | offer (k : Nat)
  | settle (k : Nat)
  | routes
  | other
  | restart

def State.setTask (s : State) (k : Nat) (t : Option Task) : State :=
  { s with tasks := Function.update s.tasks k t }

def State.goOn (s : State) (k : Nat) (r : Task × List Upcall) : State :=
  { s.setTask k (some r.1) with log := s.log ++ r.2 }

section

variable [Crates] [HashOrder] [Ciphers] [Globs] [StorageNames] (node : Node) (nodeIds : NodeIds)
  (ecmpHash : Eid × Eid × Option Nat → Nat) (subject : Bundle → Subject)

def State.find (s : State) (b : Bundle) : Option DispatchAction :=
  Rib.find ⟨s.table, ecmpHash, (), 0⟩ (subject b)

def State.findService (s : State) : Eid → Option Routing.Service :=
  Services.Wakeup.findService s.table

inductive Step : State → Label → State → Prop where
  /-- A bundle comes to `process_bundle`, from wherever. -/
  | enter {s : State} {k b} (hfree : s.tasks k = none) :
      Step s (.enter k) (s.setTask k (some (.process b)))
  | process {s : State} {k b} (hasExpired : Bool) (htask : s.tasks k = some (.process b)) :
      Step s (.process k)
        (s.setTask k (some (processBundle nodeIds hasExpired (s.find ecmpHash subject b) b)))
  /-- `load_data_or_drop` -/
  | load {s : State} {k t b next name data} (htask : s.tasks k = some t)
      (hloads : t.loads = some (b, next)) (hname : b.metadata.storageName = some name)
      (hdata : s.store.loadData name = some data) :
      Step s (.load k) (s.setTask k (some (next data)))
  | missing {s : State} {k t b next name} (htask : s.tasks k = some t)
      (hloads : t.loads = some (b, next)) (hname : b.metadata.storageName = some name)
      (hdata : s.store.loadData name = none) :
      Step s (.load k) (s.setTask k (some (.drop b .depletedStorage)))
  | missingExpired {s : State} {k t b next name} (htask : s.tasks k = some t)
      (hloads : t.loads = some (b, next)) (hname : b.metadata.storageName = some name)
      (hdata : s.store.loadData name = none) : Step s (.load k) (s.setTask k none)
  | record {s : State} {k b data} (htask : s.tasks k = some (.record b data)) :
      Step s (.record k)
        (s.goOn k (administrativeRecord node.keyProvider nodeIds s.findService b data))
  /-- `send_to` moves the bundle into the queue, -/
  | send {s : State} {k service b b' store} (htask : s.tasks k = some (.send service b))
      (hswap : s.store.swapStatus b (.deliverPending service.eid) = some (b', store)) :
      Step s (.send k) { s.setTask k (some (.queued service b')) with store }
  /-- which is full, so that the bundle is left to the storage poller, -/
  | spill {s : State} {k service b b' store} (htask : s.tasks k = some (.send service b))
      (hswap : s.store.swapStatus b (.deliverPending service.eid) = some (b', store)) :
      Step s (.send k) { s.setTask k none with store }
  /-- or closed. -/
  | closed {s : State} {k service b b' store} (htask : s.tasks k = some (.send service b))
      (hswap : s.store.swapStatus b (.deliverPending service.eid) = some (b', store)) :
      Step s (.send k)
        { s.setTask k (some (.park b' (.waitingForService service.eid))) with store }
  | sendLost {s : State} {k service b} (htask : s.tasks k = some (.send service b))
      (hswap : s.store.swapStatus b (.deliverPending service.eid) = none) :
      Step s (.send k) (s.setTask k none)
  /-- The storage poller of a delivery queue. -/
  | poll {s : State} {k id r} {service : Routing.Service} (hfree : s.tasks k = none)
      (hlive : s.store.metadata id = some (.live r))
      (hstatus : r.status = .deliverPending service.eid) :
      Step s (.poll k) (s.setTask k (some (.queued service r)))
  | expired {s : State} {k service b data} (htask : s.tasks k = some (.loaded service b data)) :
      Step s (.claim k) (s.setTask k (some (.drop b .lifetimeExpired)))
  | claim {s : State} {k service b data b' store}
      (htask : s.tasks k = some (.loaded service b data))
      (hswap : s.store.swapStatus b (.deliveryAckPending service.eid) = some (b', store)) :
      Step s (.claim k) { s.setTask k (some (.claimed service b' data)) with store }
  | claimLost {s : State} {k service b data} (htask : s.tasks k = some (.loaded service b data))
      (hswap : s.store.swapStatus b (.deliveryAckPending service.eid) = none) :
      Step s (.claim k) (s.setTask k none)
  | filter {s : State} {k service b data chain b' data'}
      (htask : s.tasks k = some (.claimed service b data))
      (hfilter : FilterChain.exec node.keyProvider chain b data = .ok (.continue b' data')) :
      Step s (.filter k chain) (s.setTask k (some (.filtered service b' data')))
  | filterDrop {s : State} {k service b data chain b' reason}
      (htask : s.tasks k = some (.claimed service b data))
      (hfilter : FilterChain.exec node.keyProvider chain b data = .ok (.drop b' (some reason))) :
      Step s (.filter k chain) (s.setTask k (some (.drop b' reason)))
  | filterDelete {s : State} {k service b data chain b'}
      (htask : s.tasks k = some (.claimed service b data))
      (hfilter : FilterChain.exec node.keyProvider chain b data = .ok (.drop b' none)) :
      Step s (.filter k chain) (s.setTask k (some (.delete b')))
  | filterFailed {s : State} {k service b data chain e r}
      (htask : s.tasks k = some (.claimed service b data))
      (hfilter : FilterChain.exec node.keyProvider chain b data = .error e)
      (hget : s.store.getMetadata b.id = some r)
      (hstatus : r.status = .deliveryAckPending service.eid) :
      Step s (.filter k chain) (s.setTask k (some (.park r (.waitingForService service.eid))))
  | filterLost {s : State} {k service b data chain e}
      (htask : s.tasks k = some (.claimed service b data))
      (hfilter : FilterChain.exec node.keyProvider chain b data = .error e)
      (hget : ∀ r, s.store.getMetadata b.id = some r →
        r.status ≠ .deliveryAckPending service.eid) :
      Step s (.filter k chain) (s.setTask k none)
  | offer {s : State} {k service b data} (impl : ServiceImpl) (accepts : Bool)
      (htask : s.tasks k = some (.filtered service b data)) :
      Step s (.offer k)
        (s.goOn k (offerToService node.keyProvider service impl accepts b data))
  | settle {s : State} {k t store} (htask : s.tasks k = some t) (hsettles : Settles t s.store store) :
      Step s (.settle k) { s.setTask k none with store }
  | routes {s : State} {table} : Step s .routes { s with table }
  /-- The rest of the node writes to the store. -/
  | other {s : State} {store} (hkeeps : s.store.Keeps store) : Step s .other { s with store }
  /-- The node comes up again on the stores it had. -/
  | restart {s : State} {table} (visits : List Visit) :
      Step s .restart
        { s with store := node.recover s.store visits, table, tasks := fun _ => none }

def machine : Machine State Label where
  start s := (∀ id, s.store.metadata id = none) ∧ (∀ k, s.tasks k = none) ∧ s.log = []
  step := Step node nodeIds ecmpHash subject

end

end Dispatch

/-! ## Stores without queued fragments -/

/-- Records are filed under their ids, and those on delivery are no fragments. -/
def Store.Whole (s : Store) : Prop :=
  ∀ id r, s.metadata id = some (.live r) →
    r.id = id ∧ (r.status.delivers = true → id.fragmentInfo = none)

namespace Store.Whole

variable {s s' : Store} {b b' : Bundle} {status : BundleStatus}

theorem keeps (h : s.Whole) (hk : s.Keeps s') : s'.Whole := by
  intro id r' hr'
  obtain ⟨hid, hd⟩ := hk id r' hr'
  refine ⟨hid, fun hdel => ?_⟩
  obtain ⟨r, hr, hdel'⟩ := hd hdel
  exact (h id r hr).2 hdel'

theorem update (h : s.Whole) {id : Id} {e : Option Entry}
    (he : ∀ r, e = some (.live r) →
      r.id = id ∧ (r.status.delivers = true → id.fragmentInfo = none)) (data : HashMap Bytes) :
    Store.Whole ⟨Function.update s.metadata id e, data⟩ := by
  intro id' r' hr'
  by_cases hid : id' = id
  · subst hid
    exact he r' ((Function.update_self id' e s.metadata).symm.trans hr')
  · exact h id' r' ((Function.update_of_ne hid e s.metadata).symm.trans hr')

theorem swapStatus (h : s.Whole) (hswap : s.swapStatus b status = some (b', s'))
    (hst : status.delivers = true → b.id.fragmentInfo = none) : s'.Whole := by
  obtain ⟨r, ⟨hr, -⟩, -, rfl⟩ := Store.swapStatus_eq_some.mp hswap
  refine h.update (fun r' hr' => ?_) s.data
  cases hr'
  exact ⟨(h b.id r hr).1, hst⟩

theorem tombstoneIf (h : s.Whole) (hwin : s.tombstoneIf b = some s') : s'.Whole := by
  obtain ⟨r, -, rfl⟩ := Store.tombstoneIf_eq_some.mp hwin
  exact h.update (fun r' hr' => by cases hr') s.data

theorem deleteData (h : s.Whole) (name : Nat) : (s.deleteData name).Whole := h

theorem tombstoneMetadata (h : s.Whole) (id : Id) : (s.tombstoneMetadata id).Whole := by
  intro id' r' hr'
  rw [Store.tombstoneMetadata] at hr'
  dsimp only at hr'
  split at hr'
  · obtain ⟨e, -, he⟩ := Option.map_eq_some_iff.mp hr'
    cases he
  · exact h id' r' hr'

theorem discard (h : s.Whole) (b : Bundle) : (s.discard b).Whole := by
  rw [Store.discard]
  split
  · exact (h.deleteData _).tombstoneMetadata _
  · exact h.tombstoneMetadata _

end Store.Whole

theorem swapStatus_id {s s' : Store} {b b' : Bundle} {status : BundleStatus}
    (h : s.swapStatus b status = some (b', s')) : b'.id = b.id := by
  obtain ⟨r, -, rfl, -⟩ := Store.swapStatus_eq_some.mp h
  rfl

def Task.parks : Task → Option BundleStatus
  | .park _ status | .hold _ status => some status
  | _ => none

theorem Settles.whole {t : Task} {s s' : Store} (h : Settles t s s') (hw : s.Whole)
    (hp : ∀ status, t.parks = some status → status.delivers = false) : s'.Whole := by
  have hno : ∀ {status : BundleStatus} {P : Prop}, status.delivers = false →
      status.delivers = true → P := fun h₁ h₂ => by rw [h₁] at h₂; cases h₂
  cases h with
  | complete hwin => exact (hw.tombstoneIf hwin).discard _
  | drop hwin => exact (hw.tombstoneIf hwin).discard _
  | delete => exact hw.discard _
  | park hswap => exact hw.swapStatus hswap (hno (hp _ rfl))
  | redispatch hpark hclaim hqueue =>
    exact ((hw.swapStatus hpark (hno (hp _ rfl))).swapStatus hclaim (hno rfl)).swapStatus
      hqueue (hno rfl)
  | hold hswap => exact hw.swapStatus hswap (hno (hp _ rfl))
  | forward hswap => exact hw.swapStatus hswap (hno rfl)
  | returned hswap => exact hw.swapStatus hswap (hno rfl)
  | fragment hswap => exact hw.swapStatus hswap (hno rfl)
  | reassembled hkeeps => exact hw.keeps hkeeps
  | lost => exact hw

section

variable [Crates] [HashOrder] [Ciphers] [StorageNames] {node : Node}

omit [Crates] [HashOrder] [Ciphers] [StorageNames] in
theorem Recovery.resume_whole {r : Recovery} {b : Bundle} {data : Bytes} (h : r.store.Whole) :
    (r.resume b data).store.Whole := by
  have hpark : ∀ status : BundleStatus, status.delivers = false →
      (r.repark b status).store.Whole := by
    intro status hst
    rw [Recovery.repark]
    split
    · next hswap => exact h.swapStatus hswap (fun hd => by rw [hst] at hd; cases hd)
    · exact h
  rw [Recovery.resume]
  split
  · exact h
  · exact h
  · exact h
  · exact hpark _ rfl
  · exact hpark _ rfl
  · exact hpark _ rfl
  · exact hpark _ rfl
  · exact h
  · exact h
  · exact h

omit [StorageNames] in
theorem Visited.whole {r r' : Recovery} {v : Visit} (hv : Visited node r v r')
    (h : r.store.Whole) : r'.store.Whole := by
  cases hv with
  | absent => exact h
  | junk => exact h.deleteData _
  | duplicate => exact h.deleteData _
  | resumed => exact Recovery.resume_whole h
  | @admitted data data' id bpv7 store hdata hread hid hinsert =>
    obtain ⟨-, rfl⟩ := insertMetadata_eq_some.mp hinsert
    refine Store.Whole.update (s := r.store) h (fun r' hr' => ?_) _
    cases hr'
    exact ⟨rfl, fun hd => by cases hd⟩
  | rejected _ _ _ _ hmeta _ =>
    intro id' r' hr'
    exact h id' r' (by rw [← hmeta]; exact hr')

theorem recover_whole {s : Store} (h : s.Whole) (visits : List Visit) :
    (node.recover s visits).Whole := by
  have hrun : ∀ (visits : List Visit) (r : Recovery), r.store.Whole →
      (visits.foldl node.restartBundle r).store.Whole := by
    intro visits
    induction visits with
    | nil => exact fun r hr => hr
    | cons v visits ih => exact fun r hr => ih _ ((visited node r v).whole hr)
  intro id r hr
  simp only [Node.recover, Recovery.removeUnconfirmed] at hr
  split at hr
  · obtain ⟨e, -, he⟩ := Option.map_eq_some_iff.mp hr
    cases he
  · exact hrun visits (.start s) h id r hr

end

/-! ## What each step does -/

/-- A task offers whole bundles only, and parks nothing in a delivery queue. -/
structure Task.Sound (t : Task) : Prop where
  offers : ∀ b, t.offers = some b → b.id.fragmentInfo = none
  parks : ∀ status, t.parks = some status → status.delivers = false

theorem Task.Sound.idle {t : Task} (ho : t.offers = none) (hp : t.parks = none) : t.Sound := by
  refine ⟨fun b hb => ?_, fun status hs => ?_⟩
  · rw [ho] at hb
    cases hb
  · rw [hp] at hs
    cases hs

theorem Task.Sound.offer {t : Task} (hp : t.parks = none)
    (h : ∀ b, t.offers = some b → b.id.fragmentInfo = none) : t.Sound := by
  refine ⟨h, fun status hs => ?_⟩
  rw [hp] at hs
  cases hs

theorem Task.Sound.park {b : Bundle} {status : BundleStatus} (h : status.delivers = false) :
    (Task.park b status).Sound :=
  ⟨fun _ hb => (by cases hb), fun _ hs => (by cases hs; exact h)⟩

theorem Task.Sound.hold {b : Bundle} {status : BundleStatus} (h : status.delivers = false) :
    (Task.hold b status).Sound :=
  ⟨fun _ hb => (by cases hb), fun _ hs => (by cases hs; exact h)⟩

theorem processBundle_sound (nodeIds : NodeIds) (hasExpired : Bool) (action : Option DispatchAction)
    (b : Bundle) : (processBundle nodeIds hasExpired action b).Sound := by
  unfold processBundle
  split
  · exact .idle rfl rfl
  · split
    · exact .idle rfl rfl
    · exact .idle rfl rfl
    · split
      · exact .idle rfl rfl
      · exact .idle rfl rfl
    · split
      · exact .idle rfl rfl
      · next hwhole =>
          refine .offer rfl fun b' hb' => ?_
          cases hb'
          simpa using hwhole
    · exact .idle rfl rfl
    · refine .park ?_
      unfold parkStatus
      split <;> rfl

section

variable [Crates] [HashOrder] [Ciphers] (keyProvider : Hardy.Bundle → Bytes → KeySource)

/-- The payload in the data reads as a status report that says something about a
bundle of a registered service. -/
def ReportsTo (findService : Eid → Option Routing.Service) (data : Bytes) : Prop :=
  ∃ payload report service, readPayload keyProvider data = .ok payload ∧
    Cbor.parseExact AdministrativeRecord.fromCbor payload = .ok (.bundleStatusReport report) ∧
    findService report.bundleId.source = some service ∧ report.notifications ≠ []

theorem administrativeRecord_spec (nodeIds : NodeIds) (findService : Eid → Option Routing.Service)
    (b : Bundle) (data : Bytes) :
    (administrativeRecord keyProvider nodeIds findService b data).1.Sound ∧
      (∀ e ∈ (administrativeRecord keyProvider nodeIds findService b data).2, e.bundle = b) ∧
      ((administrativeRecord keyProvider nodeIds findService b data).2 ≠ [] ↔
        ReportsTo keyProvider findService data) := by
  have hnone : ∀ {t : Task}, t.Sound → ¬ ReportsTo keyProvider findService data →
      administrativeRecord keyProvider nodeIds findService b data = (t, []) →
      (administrativeRecord keyProvider nodeIds findService b data).1.Sound ∧
        (∀ e ∈ (administrativeRecord keyProvider nodeIds findService b data).2, e.bundle = b) ∧
        ((administrativeRecord keyProvider nodeIds findService b data).2 ≠ [] ↔
          ReportsTo keyProvider findService data) := by
    intro t ht hr he
    rw [he]
    exact ⟨ht, fun e he => (by cases he), fun h => absurd rfl h, fun h => absurd h hr⟩
  cases hread : readPayload keyProvider data with
  | error x =>
    have hr : ¬ ReportsTo keyProvider findService data := by
      rintro ⟨payload, -, -, hp, -⟩
      rw [hread] at hp
      cases hp
    by_cases hx : x = .invalidBPSec .noKey
    · subst hx
      exact hnone (t := .hold b .waiting) (.hold rfl) hr (by rw [administrativeRecord, hread])
    · refine hnone (t := .drop b .blockUnintelligible) (.idle rfl rfl) hr ?_
      rw [administrativeRecord, hread]
      split
      · next h => exact absurd (Except.error.inj h) hx
      · rfl
      · next h => cases h
  | ok payload =>
    cases hrec : Cbor.parseExact AdministrativeRecord.fromCbor payload with
    | error x =>
      refine hnone (t := .drop b .blockUnintelligible) (.idle rfl rfl) ?_
        (by simp only [administrativeRecord, hread, hrec])
      rintro ⟨payload', report, -, hp, hrep, -⟩
      rw [hread] at hp
      cases hp
      rw [hrec] at hrep
      cases hrep
    | ok record =>
      obtain ⟨report⟩ := record
      cases hfind : findService report.bundleId.source with
      | none =>
        refine hnone (t := .hold b (.waitingForService _)) (.hold rfl) ?_
          (by simp only [administrativeRecord, hread, hrec, hfind]; rfl)
        rintro ⟨payload', report', service, hp, hrep, hs, -⟩
        rw [hread] at hp
        cases hp
        rw [hrec] at hrep
        cases hrep
        rw [hfind] at hs
        cases hs
      | some service =>
        simp only [administrativeRecord, hread, hrec, hfind]
        refine ⟨.idle rfl rfl, fun e he => ?_, fun hne => ?_, ?_⟩
        · obtain ⟨n, -, rfl⟩ := List.mem_map.mp he
          rfl
        · exact ⟨payload, report, service, hread, hrec, hfind,
            fun hnil => hne (List.map_eq_nil_iff.mpr hnil)⟩
        · rintro ⟨payload', report', service', hp, hrep, hs, hne⟩
          rw [hread] at hp
          cases hp
          rw [hrec] at hrep
          cases hrep
          exact fun hnil => hne (List.map_eq_nil_iff.mp hnil)

theorem offerToService_spec (service : Routing.Service) (impl : ServiceImpl) (accepts : Bool)
    (b : Bundle) (data : Bytes) :
    (offerToService keyProvider service impl accepts b data).1.Sound ∧
      ∀ e ∈ (offerToService keyProvider service impl accepts b data).2, e.bundle = b := by
  have hresult : (if accepts then Task.complete b
      else .park b (.waitingForService service.eid)).Sound := by
    split
    · exact .idle rfl rfl
    · exact .park rfl
  have hone : ∀ payload : Bytes, ∀ e ∈ [Upcall.delivered b service payload], e.bundle = b := by
    intro payload e he
    cases List.mem_singleton.mp he
    rfl
  unfold offerToService
  cases impl with
  | lowLevel => exact ⟨hresult, hone data⟩
  | application =>
    dsimp only
    split
    · exact ⟨.park rfl, fun e he => by cases he⟩
    · exact ⟨.idle rfl rfl, fun e he => by cases he⟩
    · exact ⟨hresult, hone _⟩

end

namespace Dispatch

/-! ## Runs -/

structure Inv (s : State) : Prop where
  stored : s.store.Whole
  sound : ∀ k t, s.tasks k = some t → t.Sound
  logged : ∀ e ∈ s.log, e.bundle.id.fragmentInfo = none

namespace Inv

variable {s : State} {k : Nat}

theorem setTask (h : Inv s) {t : Option Task} (ht : ∀ t', t = some t' → t'.Sound) :
    Inv (s.setTask k t) := by
  refine ⟨h.stored, fun k' t' ht' => ?_, h.logged⟩
  have ht' : Function.update s.tasks k t k' = some t' := ht'
  by_cases hk : k' = k
  · subst hk
    rw [Function.update_self] at ht'
    exact ht t' ht'
  · rw [Function.update_of_ne hk] at ht'
    exact h.sound k' t' ht'

theorem go (h : Inv s) {t : Task} (ht : t.Sound) : Inv (s.setTask k (some t)) :=
  h.setTask fun _ he => by cases he; exact ht

theorem leave (h : Inv s) : Inv (s.setTask k none) :=
  h.setTask fun _ he => by cases he

theorem withStore (h : Inv s) {store : Store} (hs : store.Whole) : Inv { s with store } :=
  ⟨hs, h.sound, h.logged⟩

theorem goOn (h : Inv s) {r : Task × List Upcall} (ht : r.1.Sound)
    (he : ∀ e ∈ r.2, e.bundle.id.fragmentInfo = none) : Inv (s.goOn k r) := by
  refine ⟨h.stored, (h.go ht).sound, fun e hmem => ?_⟩
  rcases List.mem_append.mp hmem with hmem | hmem
  · exact h.logged e hmem
  · exact he e hmem

end Inv

section

variable [Crates] [HashOrder] [Ciphers] [Globs] [StorageNames] {node : Node} {nodeIds : NodeIds}
  {ecmpHash : Eid × Eid × Option Nat → Nat} {subject : Bundle → Subject}

/-- No payload of a fragment passes for a report, and no filter on delivery makes
a fragment of a whole bundle. -/
def Harmless (node : Node) (s : State) : Label → Prop
  | .record k => ∀ b data, s.tasks k = some (.record b data) → b.id.fragmentInfo ≠ none →
      ¬ ReportsTo node.keyProvider s.findService data
  | .filter k chain => ∀ service b data b' data', s.tasks k = some (.claimed service b data) →
      FilterChain.exec node.keyProvider chain b data = .ok (.continue b' data') →
      b.id.fragmentInfo = none → b'.id.fragmentInfo = none
  | _ => True

theorem Inv.step {s s' : State} {l : Label} (h : Inv s) (hc : Harmless node s l)
    (hs : Step node nodeIds ecmpHash subject s l s') : Inv s' := by
  have hoffers : ∀ {k t b}, s.tasks k = some t → t.offers = some b → b.id.fragmentInfo = none :=
    fun ht hb => (h.sound _ _ ht).offers _ hb
  cases hs with
  | enter hfree => exact h.go (.idle rfl rfl)
  | process hasExpired htask => exact h.go (processBundle_sound _ _ _ _)
  | @load k t b next name data htask hloads hname hdata =>
    have hb : ∀ b, t.offers = some b → b.id.fragmentInfo = none := fun _ => hoffers htask
    refine h.go ?_
    cases t <;> cases hloads
    · exact .idle rfl rfl
    · refine .offer rfl fun b' hb' => ?_
      cases hb'
      exact hb _ rfl
  | missing htask => exact h.go (.idle rfl rfl)
  | missingExpired htask => exact h.leave
  | @record k b data htask =>
    obtain ⟨ht, hbundle, hevents⟩ := administrativeRecord_spec
      node.keyProvider nodeIds s.findService b data
    refine h.goOn ht fun e he => ?_
    rw [hbundle e he]
    by_contra hfrag
    exact hc b data htask hfrag (hevents.mp (List.ne_nil_of_mem he))
  | send htask hswap =>
    have hb := hoffers htask rfl
    refine (h.withStore (h.stored.swapStatus hswap fun _ => hb)).go (.offer rfl fun b' hb' => ?_)
    cases hb'
    rw [swapStatus_id hswap]
    exact hb
  | spill htask hswap =>
    exact (h.withStore (h.stored.swapStatus hswap fun _ => hoffers htask rfl)).leave
  | closed htask hswap =>
    exact (h.withStore (h.stored.swapStatus hswap fun _ => hoffers htask rfl)).go (.park rfl)
  | sendLost htask => exact h.leave
  | @poll k id r service hfree hlive hstatus =>
    refine h.go (.offer rfl fun b' hb' => ?_)
    cases hb'
    obtain ⟨hid, hwhole⟩ := h.stored id r hlive
    rw [hid]
    exact hwhole (by rw [hstatus]; rfl)
  | expired htask => exact h.go (.idle rfl rfl)
  | claim htask hswap =>
    have hb := hoffers htask rfl
    refine (h.withStore (h.stored.swapStatus hswap fun _ => hb)).go (.offer rfl fun b' hb' => ?_)
    cases hb'
    rw [swapStatus_id hswap]
    exact hb
  | claimLost htask => exact h.leave
  | filter htask hfilter =>
    refine h.go (.offer rfl fun b' hb' => ?_)
    cases hb'
    exact hc _ _ _ _ _ htask hfilter (hoffers htask rfl)
  | filterDrop htask => exact h.go (.idle rfl rfl)
  | filterDelete htask => exact h.go (.idle rfl rfl)
  | filterFailed htask => exact h.go (.park rfl)
  | filterLost htask => exact h.leave
  | @offer k service b data impl accepts htask =>
    obtain ⟨ht, hbundle⟩ := offerToService_spec
      node.keyProvider service impl accepts b data
    refine h.goOn ht fun e he => ?_
    rw [hbundle e he]
    exact hoffers htask rfl
  | settle htask hsettles =>
    exact (h.withStore (hsettles.whole h.stored (h.sound _ _ htask).parks)).leave
  | routes => exact ⟨h.stored, h.sound, h.logged⟩
  | other hkeeps => exact h.withStore (h.stored.keeps hkeeps)
  | restart visits => exact ⟨recover_whole h.stored visits, fun _ _ ht => (by cases ht), h.logged⟩

/-- What a service sees comes from whole bundles, and nothing else is on its way
to one: a fragment is dropped, parked or kept for reassembly, or goes to a peer. -/
theorem dispatch_whole {s : State}
    (h : ((machine node nodeIds ecmpHash subject).only (Harmless node)).Reachable s) :
    (∀ e ∈ s.log, e.bundle.id.fragmentInfo = none) ∧
      ∀ k t b, s.tasks k = some t → t.offers = some b → b.id.fragmentInfo = none := by
  have hinv : Inv s := by
    refine h.invariant ?_ fun _ _ _ hi ⟨hc, hs⟩ => hi.step hc hs
    rintro s ⟨hstore, htasks, hlog⟩
    refine ⟨fun id r hr => ?_, fun k t ht => ?_, fun e he => ?_⟩
    · rw [hstore] at hr
      cases hr
    · rw [htasks] at ht
      cases ht
    · rw [hlog] at he
      cases he
  exact ⟨hinv.logged, fun k t b ht hb => (hinv.sound k t ht).offers b hb⟩

theorem record_notifies {s : State} {k : Nat} {b : Bundle} {data : Bytes}
    (htask : s.tasks k = some (.record b data))
    (hreport : ReportsTo node.keyProvider s.findService data) :
    ∃ s', Step node nodeIds ecmpHash subject s (.record k) s' ∧ ∃ e ∈ s'.log, e.bundle = b := by
  obtain ⟨-, hbundle, hevents⟩ := administrativeRecord_spec
    node.keyProvider nodeIds s.findService b data
  obtain ⟨e, he⟩ := List.exists_mem_of_ne_nil _ (hevents.mpr hreport)
  exact ⟨_, .record htask, e, List.mem_append_right _ he, hbundle e he⟩

end

/-! ## A fragment for the administrative endpoint -/

namespace Fragmented

local instance : Globs := .literal

local instance : Crates := .reference

local instance : HashOrder := .sorted

local instance : Ciphers := DecryptingReader.transparent

local instance : StorageNames := .next

def nodeIds : NodeIds := ⟨some ⟨0, 1⟩, none⟩

def node : Node where
  maxBundleSize := 4096
  keyProvider _ _ := KeySet.source []
  primaryBlockIntegrity := false
  bundleAgeRequired := false
  applyRewrites _ _ _ _ := none

def service : Routing.Service := ⟨.ipn 5, .ipn ⟨0, 1⟩ 5⟩

def table : RouteTable :=
  match (RouteTable.new nodeIds).insert (.ofEid service.eid)
      ⟨.internal (.localService service), "services"⟩ 1 with
  | .ok (_, table) => table
  | .error _ => .new nodeIds

/-- The first 29 bytes of an administrative record of 50 bytes, which read as a
whole one: a report on a bundle of the service. -/
def data : Bytes :=
  [0x9F, 0x8B, 0x07, 0x03, 0x02, 0x82, 0x02, 0x82, 0x01, 0x00, 0x82, 0x02, 0x82, 0x09, 0x00,
    0x82, 0x01, 0x00, 0x82, 0x1B, 0x00, 0x00, 0x00, 0xBE, 0xEB, 0xCF, 0x08, 0x00, 0x00, 0x1B,
    0x00, 0x00, 0x00, 0x07, 0x57, 0xB1, 0x2C, 0x00, 0x00, 0x18, 0x32, 0x44, 0x0E, 0xC3, 0xFD,
    0xAD, 0x85, 0x01, 0x01, 0x00, 0x00, 0x58, 0x1D, 0x82, 0x01, 0x84, 0x84, 0x81, 0xF5, 0x81,
    0xF4, 0x81, 0xF4, 0x81, 0xF4, 0x00, 0x82, 0x02, 0x82, 0x01, 0x05, 0x82, 0x1B, 0x00, 0x00,
    0x00, 0xBE, 0xEB, 0xCF, 0x08, 0x00, 0x00, 0xFF]

def subject (b : Bundle) : Subject := ⟨b.bpv7.primary.destination, b.id.source, none, none⟩

def started : State := ⟨⟨fun _ => none, ∅⟩, table, fun _ => none, []⟩

def stored (b : Bundle) : Store :=
  ⟨fun id => if id = b.id then some (.live b) else none, (∅ : HashMap Bytes).insert 0 data⟩

theorem stored_keeps {b : Bundle} (hb : b.status = .dispatching) :
    started.store.Keeps (stored b) := by
  intro id r hr
  simp only [stored] at hr
  split at hr
  · next hid =>
      cases hr
      exact ⟨hid.symm, fun hd => by rw [hb] at hd; cases hd⟩
  · cases hr

theorem admin_found :
    Rib.find ⟨table, fun _ => 0, (), 0⟩ ⟨.ipn ⟨0, 1⟩ 0, .ipn ⟨0, 9⟩ 0, none, none⟩ =
      some .adminEndpoint := by
  decide

theorem data_read : ((parse data).toOption.map fun p =>
    let b := p.bundle.primary
    (b.destination, b.id.source, b.flags.isAdminRecord, b.id.fragmentInfo)) =
      some (.ipn ⟨0, 1⟩ 0, .ipn ⟨0, 9⟩ 0, true, some ⟨0, 50⟩) := by
  decide +kernel

theorem data_reports : ReportsTo node.keyProvider (Services.Wakeup.findService table) data := by
  have h : ((readPayload node.keyProvider data).toOption.bind fun payload =>
      (Cbor.parseExact AdministrativeRecord.fromCbor payload).toOption.map fun record =>
        record.casesOn fun report =>
          ((Services.Wakeup.findService table report.bundleId.source).isSome,
            report.notifications.isEmpty)) = some (true, false) := by
    decide +kernel
  obtain ⟨payload, hread, h⟩ := Option.bind_eq_some_iff.mp h
  obtain ⟨⟨report⟩, hrec, h⟩ := Option.map_eq_some_iff.mp h
  obtain ⟨hfind, hne⟩ := Prod.mk.injEq _ _ _ _ ▸ h
  obtain ⟨service, hfind⟩ := Option.isSome_iff_exists.mp hfind
  refine ⟨payload, report, service, ?_, ?_, hfind, ?_⟩
  · exact Fold.ok_of_toOption hread
  · exact Fold.ok_of_toOption hrec
  · exact fun hnil => by rw [hnil] at hne; cases hne

theorem node_step {s s' : State} (l : Label)
    (h : (machine node nodeIds (fun _ => 0) subject).Reachable s)
    (hs : Step node nodeIds (fun _ => 0) subject s l s') :
    (machine node nodeIds (fun _ => 0) subject).Reachable s' :=
  h.step l hs

def whole : Bundle :=
  let b := Bundle.plain 1 .dispatching
  { b with
    bpv7 := { b.bpv7 with primary := { b.bpv7.primary with destination := service.eid } }
    metadata := ⟨0, .ingress "tcp", some 0⟩ }

theorem service_found :
    processBundle nodeIds false (Rib.find ⟨table, fun _ => 0, (), 0⟩ (subject whole)) whole =
      .send service whole := by
  have hfind : Rib.find ⟨table, fun _ => 0, (), 0⟩ (subject whole) = some (.deliver service) := by
    decide
  rw [hfind]
  rfl

theorem only_step {s s' : State} (l : Label)
    (h : ((machine node nodeIds (fun _ => 0) subject).only (Harmless node)).Reachable s)
    (hc : Harmless node s l) (hs : Step node nodeIds (fun _ => 0) subject s l s') :
    ((machine node nodeIds (fun _ => 0) subject).only (Harmless node)).Reachable s' :=
  h.step l ⟨hc, hs⟩

/-- A whole bundle reaches the service. -/
theorem whole_delivered :
    ∃ s, ((machine node nodeIds (fun _ => 0) subject).only (Harmless node)).Reachable s ∧
      s.log.length = 1 ∧ ∀ e ∈ s.log, e.bundle.id.fragmentInfo = none := by
  have hstart : ((machine node nodeIds (fun _ => 0) subject).only (Harmless node)).Reachable
      started := .start ⟨fun _ => rfl, fun _ => rfl, rfl⟩
  have h₁ := only_step .other hstart trivial (.other (stored_keeps (b := whole) rfl))
  have h₂ := only_step (.enter 0) h₁ trivial (.enter (b := whole) rfl)
  have h₃ := only_step (.process 0) h₂ trivial (.process false rfl)
  have h₄ := only_step (.send 0) h₃ trivial (.send (congrArg some service_found) rfl)
  have h₅ := only_step (.load 0) h₄ trivial (.load rfl rfl rfl rfl)
  have h₆ := only_step (.claim 0) h₅ trivial (.claim rfl rfl)
  have h₇ := only_step (.filter 0 []) h₆ ?_ (.filter rfl rfl)
  · have h₈ := only_step (.offer 0) h₇ trivial (.offer .lowLevel true rfl)
    exact ⟨_, h₈, rfl, (dispatch_whole h₈).1⟩
  · intro service b data b' data' htask hfilter hwhole
    cases hfilter
    exact hwhole

theorem node_record {s : State} {b : Bundle}
    (h : (machine node nodeIds (fun _ => 0) subject).Reachable s)
    (htask : s.tasks 0 = some (.record b data)) (htable : s.table = table) :
    ∃ s', (machine node nodeIds (fun _ => 0) subject).Reachable s' ∧ ∃ e ∈ s'.log, e.bundle = b := by
  have hreport : ReportsTo node.keyProvider s.findService data := by
    rw [State.findService, htable]
    exact data_reports
  obtain ⟨s', hs, he⟩ := record_notifies htask hreport
  exact ⟨s', node_step (.record 0) h hs, he⟩

/-- The fragment reaches the service as a status report. -/
theorem fragment_notifies :
    ¬ ∀ s, (machine node nodeIds (fun _ => 0) subject).Reachable s →
      (∀ e ∈ s.log, e.bundle.id.fragmentInfo = none) ∧
        ∀ k t b, s.tasks k = some t → t.offers = some b → b.id.fragmentInfo = none := by
  intro h
  obtain ⟨p, -, hread⟩ := Option.map_eq_some_iff.mp data_read
  simp only [Prod.mk.injEq] at hread
  obtain ⟨hdest, hsource, hadmin, hfrag⟩ := hread
  let b : Bundle := ⟨p.bundle, ⟨0, .ingress "tcp", some 0⟩, .dispatching⟩
  have htask : processBundle nodeIds false
      (Rib.find ⟨table, fun _ => 0, (), 0⟩ (subject b)) b = .admin b := by
    have hsubject : subject b = ⟨.ipn ⟨0, 1⟩ 0, .ipn ⟨0, 9⟩ 0, none, none⟩ := by
      simp only [subject, Bundle.id, b, hdest, hsource]
    rw [hsubject, admin_found]
    simp only [processBundle, b, hadmin]
    rfl
  have hstart : (machine node nodeIds (fun _ => 0) subject).Reachable started :=
    .start ⟨fun _ => rfl, fun _ => rfl, rfl⟩
  have h₁ := node_step .other hstart (.other (stored_keeps (b := b) rfl))
  have h₂ := node_step (.enter 0) h₁ (.enter (b := b) rfl)
  have h₃ := node_step (.process 0) h₂ (.process false rfl)
  have h₄ := node_step (.load 0) h₃ (.load (congrArg some htask) rfl rfl rfl)
  obtain ⟨s, hs, e, he, hb⟩ := node_record h₄ rfl rfl
  have hwhole := (h s hs).1 e he
  rw [hb] at hwhole
  cases hfrag.symm.trans hwhole

end Fragmented

end Dispatch

end Bpa

end Hardy
