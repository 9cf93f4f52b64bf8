import Hardy.Routing.Rib
import Hardy.Services.Registry

/-!
# Waiting for a service

The interleaving of registrations of services with the tasks that park bundles for
them: `ServiceRegistry::register` with its poll and `unregister_service`,
`Dispatcher::process_bundle` with `park_bundle`, and `administrative_bundle`, each
cut at its awaits.

Tables are numbered as in `Hardy.Routing.Parking`, and as there the rest of the
node may change any record or route between two steps.  Where somebody other than
a dispatch task lets a bundle wait, that is remembered (`State.held`).
-/

namespace Hardy.Services.Wakeup

open Bpa (BundleStatus)
open Routing (RouteTable NodeIds Subject DispatchAction Rib)

def findService [Globs] (t : RouteTable) (dest : Eid) : Option Routing.Service :=
  t.rows.findSome? fun (pattern, entries) =>
    if pattern.matches dest then
      entries.findSome? fun e => match e.action with
        | .internal (.localService service) => some service
        | _ => none
    else none

inductive Stage where
  /-- The service is in the registry. -/
  | inserted
  /-- `add_service` has returned. -/
  | routed
  /-- The store has been asked for what waits: the bundles still to be handled. -/
  | polling (pending : Set Id)
  | polled

structure Registration where
  serviceId : ServiceId
  eid : Eid
  stage : Stage
  teardown : Teardown

/-- How far a dispatch task has got, with the number of the table that it takes for
current. -/
inductive Phase where
  | begun
  | seen (version : Nat)
  /-- The lookup has found the service of a registration. -/
  | delivering (version : Nat) (r : Nat)
  /-- `DeliverPending` is written, the queue is still to take the bundle. -/
  | queueing (version : Nat) (r : Nat)
  /-- The bundle is to be parked for the service with an EID. -/
  | parking (version : Nat) (service : Eid)
  | parked (version : Nat) (service : Eid)
  /-- `administrative_bundle` -/
  | admin
  /-- `find_service` has found nothing. -/
  | adminParking (service : Eid)

/-- A dispatch task, with the status of its copy of the bundle. -/
structure Task where
  id : Id
  copy : BundleStatus
  phase : Phase

structure State where
  table : RouteTable
  version : Nat
  registrations : Nat → Option Registration
  /-- `ServiceRegistry::services` -/
  services : ServiceId → Option Nat
  /-- The registration whose service the table has under a service id. -/
  entries : ServiceId → Option Nat
  status : Id → Option BundleStatus
  held : Id → Prop
  tasks : Nat → Option Task

inductive Label where
  | register (r : Nat) (serviceId : ServiceId)
  | addService (r : Nat)
  | poll (r : Nat)
  | unregister (r : Nat)
  | removeService (r : Nat)
  | routes
  | activate (k : Nat)
  | snapshot (k : Nat)
  | lookup (k : Nat)
  | deliver (k : Nat)
  | park (k : Nat)
  | recheck (k : Nat)
  | findService (k : Nat)
  | adminPark (k : Nat)
  | leave (k : Nat)
  | other

namespace State

open Function (update)

def setTask (s : State) (k : Nat) (t : Option Task) : State :=
  { s with tasks := update s.tasks k t }

def setRegistration (s : State) (r : Nat) (reg : Registration) : State :=
  { s with registrations := update s.registrations r (some reg) }

def setStatus (s : State) (id : Id) (status : Option BundleStatus) (held : Prop) : State :=
  { s with status := update s.status id status, held := update s.held id held }

end State

def Waits (status : Option BundleStatus) : Prop :=
  ∃ service, status = some (.waitingForService service)

section

variable [Globs] (ecmpHash : Eid × Eid × Option Nat → Nat) (priority : Nat)
  (nodeIds : NodeIds) (subject : Id → Subject) (reported : Id → Eid)

def State.find (s : State) (id : Id) : Option DispatchAction :=
  Rib.find ⟨s.table, ecmpHash, (), 0⟩ (subject id)

omit [Globs] in
/-- Where `process_bundle` parks a bundle without a route. -/
def parkStatus (id : Id) : BundleStatus :=
  match nodeIds.localServiceEid (subject id).destination with
  | some service => .waitingForService service
  | none => .waiting

omit [Globs] in
/-- The key under which `administrative_bundle` parks a status report. -/
def reportKey (id : Id) : Eid :=
  (nodeIds.localServiceEid (reported id)).getD (reported id)

/-- The table with the `Local` entry of a registration, where that is new. -/
def State.withService (s : State) (reg : Registration) : Except Routing.Error (Option RouteTable) :=
  (Rib.mk s.table ecmpHash () 0).published (.ofEid reg.eid) "services"
    (.internal (.localService ⟨reg.serviceId, reg.eid⟩)) priority

/-- The removal of the `Local` entry of a registration. -/
def State.withoutService (s : State) (reg : Registration) : Bool × RouteTable :=
  s.table.remove ((Rib.mk s.table ecmpHash () 0).expandPattern (.ofEid reg.eid))
    ⟨.internal (.localService ⟨reg.serviceId, reg.eid⟩), "services"⟩ priority

open Function (update) in
inductive Step : State → Label → State → Prop where
  /-- `register`, up to the insertion into the registry. -/
  | register {s : State} {r id eid} (hfree : s.registrations r = none)
      (hadmin : serviceIsAdminEndpoint id = false)
      (heid : resolveEid nodeIds id = some eid) (hid : s.services id = none) :
      Step s (.register r id) { s.setRegistration r ⟨id, eid, .inserted, .none⟩ with
        services := update s.services id (some r) }
  | addService {s : State} {r reg table} (hreg : s.registrations r = some reg)
      (hstage : reg.stage = .inserted)
      (hnew : s.withService ecmpHash priority reg = .ok (some table)) :
      Step s (.addService r) { s.setRegistration r { reg with stage := .routed } with
        table, version := s.version + 1, entries := update s.entries reg.serviceId (some r) }
  /-- The table has an entry already, or does not take one. -/
  | addServiceRefused {s : State} {r reg} (hreg : s.registrations r = some reg)
      (hstage : reg.stage = .inserted)
      (hold : ∀ table, s.withService ecmpHash priority reg ≠ .ok (some table)) :
      Step s (.addService r) (s.setRegistration r { reg with stage := .routed })
  /-- `poll_service_waiting` -/
  | pollBegin {s : State} {r reg} (hreg : s.registrations r = some reg)
      (hstage : reg.stage = .routed) :
      Step s (.poll r) (s.setRegistration r { reg with
        stage := .polling {id | s.status id = some (.waitingForService reg.eid)} })
  | pollClaim {s : State} {r reg pending id k} (hreg : s.registrations r = some reg)
      (hstage : reg.stage = .polling pending) (hid : id ∈ pending)
      (hstatus : s.status id = some (.waitingForService reg.eid)) (hfree : s.tasks k = none) :
      Step s (.poll r) (((s.setRegistration r { reg with
        stage := .polling (pending \ {id}) }).setStatus id (some .dispatching) False).setTask k
        (some ⟨id, .dispatching, .begun⟩))
  | pollLost {s : State} {r reg pending id} (hreg : s.registrations r = some reg)
      (hstage : reg.stage = .polling pending)
      (hstatus : s.status id ≠ some (.waitingForService reg.eid)) :
      Step s (.poll r) (s.setRegistration r { reg with stage := .polling (pending \ {id}) })
  | pollEnd {s : State} {r reg} (hreg : s.registrations r = some reg)
      (hstage : reg.stage = .polling ∅) :
      Step s (.poll r) (s.setRegistration r { reg with stage := .polled })
  /-- `unregister`, up to `close_queue`. -/
  | unregister {s : State} {r reg} (hreg : s.registrations r = some reg)
      (hid : s.services reg.serviceId = some r) :
      Step s (.unregister r) { s.setRegistration r { reg with teardown := .begun } with
        services := update s.services reg.serviceId none }
  | removeService {s : State} {r reg table} (hreg : s.registrations r = some reg)
      (hteardown : reg.teardown = .begun)
      (hremoved : s.withoutService ecmpHash priority reg = (true, table)) :
      Step s (.removeService r) { s.setRegistration r { reg with teardown := .done } with
        table, version := s.version + 1, entries := update s.entries reg.serviceId none }
  | removeServiceNone {s : State} {r reg} (hreg : s.registrations r = some reg)
      (hteardown : reg.teardown = .begun)
      (hnone : (s.withoutService ecmpHash priority reg).1 = false) :
      Step s (.removeService r) (s.setRegistration r { reg with teardown := .done })
  /-- Any other change of the routes. -/
  | routes {s : State} {table} :
      Step s .routes { s with table, version := s.version + 1 }
  /-- A producer hands out a copy, fresh or stale. -/
  | activate {s : State} {k id copy} (hfree : s.tasks k = none) :
      Step s (.activate k) (s.setTask k (some ⟨id, copy, .begun⟩))
  /-- `table_snapshot` -/
  | snapshot {s : State} {k id copy} (htask : s.tasks k = some ⟨id, copy, .begun⟩) :
      Step s (.snapshot k) (s.setTask k (some ⟨id, copy, .seen s.version⟩))
  | lookupNone {s : State} {k id copy v service} (htask : s.tasks k = some ⟨id, copy, .seen v⟩)
      (hfind : s.find ecmpHash subject id = none)
      (hpark : parkStatus nodeIds subject id = .waitingForService service) :
      Step s (.lookup k) (s.setTask k (some ⟨id, copy, .parking v service⟩))
  | lookupService {s : State} {k id copy v service r reg}
      (htask : s.tasks k = some ⟨id, copy, .seen v⟩)
      (hfind : s.find ecmpHash subject id = some (.deliver service))
      (hentry : s.entries service.serviceId = some r) (hreg : s.registrations r = some reg) :
      Step s (.lookup k) (s.setTask k (some ⟨id, copy, .delivering v r⟩))
  | lookupAdmin {s : State} {k id copy v} (htask : s.tasks k = some ⟨id, copy, .seen v⟩)
      (hfind : s.find ecmpHash subject id = some .adminEndpoint) :
      Step s (.lookup k) (s.setTask k (some ⟨id, copy, .admin⟩))
  /-- `send_to` moves the bundle into the queue, -/
  | deliver {s : State} {k id copy v r reg} (htask : s.tasks k = some ⟨id, copy, .delivering v r⟩)
      (hreg : s.registrations r = some reg) (hstatus : s.status id = some copy) :
      Step s (.deliver k) ((s.setStatus id (some (.deliverPending reg.eid)) False).setTask k
        (some ⟨id, .deliverPending reg.eid, .queueing v r⟩))
  /-- and finds it closed, -/
  | refused {s : State} {k id copy v r reg} (htask : s.tasks k = some ⟨id, copy, .queueing v r⟩)
      (hreg : s.registrations r = some reg) (hclosed : reg.teardown ≠ .none) :
      Step s (.deliver k) (s.setTask k (some ⟨id, copy, .parking v reg.eid⟩))
  /-- or not: `close_queue` comes a little after the service leaves the registry. -/
  | sent {s : State} {k id copy v r} (htask : s.tasks k = some ⟨id, copy, .queueing v r⟩) :
      Step s (.deliver k) (s.setTask k none)
  /-- The swap of `park_bundle` -/
  | park {s : State} {k id copy v service}
      (htask : s.tasks k = some ⟨id, copy, .parking v service⟩)
      (hstatus : s.status id = some copy) :
      Step s (.park k) ((s.setStatus id (some (.waitingForService service)) False).setTask k
        (some ⟨id, .waitingForService service, .parked v service⟩))
  | parkLost {s : State} {k id copy v service}
      (htask : s.tasks k = some ⟨id, copy, .parking v service⟩)
      (hstatus : s.status id ≠ some copy) :
      Step s (.park k) (s.setTask k none)
  /-- `table_changed_since`, and the swap back to `Dispatching` -/
  | recheckSame {s : State} {k id copy service}
      (htask : s.tasks k = some ⟨id, copy, .parked s.version service⟩) :
      Step s (.recheck k) (s.setTask k none)
  | recheckChanged {s : State} {k id copy v service}
      (htask : s.tasks k = some ⟨id, copy, .parked v service⟩) (hchanged : v ≠ s.version)
      (hstatus : s.status id = some (.waitingForService service)) :
      Step s (.recheck k) ((s.setStatus id (some .dispatching) False).setTask k
        (some ⟨id, .dispatching, .begun⟩))
  | recheckLost {s : State} {k id copy v service}
      (htask : s.tasks k = some ⟨id, copy, .parked v service⟩) (hchanged : v ≠ s.version)
      (hstatus : s.status id ≠ some (.waitingForService service)) :
      Step s (.recheck k) (s.setTask k none)
  /-- `find_service` in `administrative_bundle` -/
  | findService {s : State} {k id copy} (htask : s.tasks k = some ⟨id, copy, .admin⟩)
      (hfind : findService s.table (reported id) = none) :
      Step s (.findService k)
        (s.setTask k (some ⟨id, copy, .adminParking (reportKey nodeIds reported id)⟩))
  | adminPark {s : State} {k id copy service}
      (htask : s.tasks k = some ⟨id, copy, .adminParking service⟩)
      (hstatus : s.status id = some copy) :
      Step s (.adminPark k)
        ((s.setStatus id (some (.waitingForService service)) False).setTask k none)
  | adminParkLost {s : State} {k id copy service}
      (htask : s.tasks k = some ⟨id, copy, .adminParking service⟩)
      (hstatus : s.status id ≠ some copy) : Step s (.adminPark k) (s.setTask k none)
  /-- A task leaves by another arm, which writes the record or loses the bundle. -/
  | leave {s : State} {k t status} (htask : s.tasks k = some t)
      (hphase : t.phase = .begun ∨ (∃ v, t.phase = .seen v) ∨ (∃ v r, t.phase = .delivering v r) ∨
        t.phase = .admin)
      (hstatus : ¬Waits status) :
      Step s (.leave k) ((s.setStatus t.id status False).setTask k none)
  | leaveLost {s : State} {k t} (htask : s.tasks k = some t)
      (hphase : t.phase = .begun ∨ (∃ v, t.phase = .seen v) ∨ (∃ v r, t.phase = .delivering v r) ∨
        t.phase = .admin) :
      Step s (.leave k) (s.setTask k none)
  /-- The rest of the node writes a record. -/
  | other {s : State} {id status} : Step s .other (s.setStatus id status True)

def waking : Machine State Label where
  start s := (∀ r, s.registrations r = none) ∧ (∀ id, s.services id = none) ∧
    (∀ id, s.entries id = none) ∧ ∀ k, s.tasks k = none
  step := Step ecmpHash priority nodeIds subject reported

end

namespace State

structure Quiescent (s : State) : Prop where
  tasks : ∀ k, s.tasks k = none
  registrations : ∀ r reg, s.registrations r = some reg → reg.stage = .polled

def Registered (s : State) (service : Eid) (r : Nat) (reg : Registration) : Prop :=
  s.registrations r = some reg ∧ reg.eid = service ∧ s.services reg.serviceId = some r

/-- No bundle waits for a registered service because of a dispatch task. -/
def Awake (s : State) : Prop :=
  ∀ id service, s.status id = some (.waitingForService service) → ¬s.held id →
    ∀ r reg, ¬s.Registered service r reg

end State

/-! ## Parks that do not overlap a registration -/

def Stage.published : Stage → Bool
  | .inserted => false
  | _ => true

def Stage.listed : Stage → Bool
  | .inserted | .routed => false
  | _ => true

namespace State

def Published (s : State) (service : Eid) (r : Nat) : Prop :=
  ∃ reg, s.Registered service r reg ∧ reg.stage.published = true

def Listed (s : State) (service : Eid) (r : Nat) : Prop :=
  ∃ reg, s.Registered service r reg ∧ reg.stage.listed = true

end State

section

variable [Globs] (ecmpHash : Eid × Eid × Option Nat → Nat) (priority : Nat)
  (nodeIds : NodeIds) (subject : Id → Subject) (reported : Id → Eid)

/-- A lookup finds the service whose route has been added, the table takes the
route of a registration, and an administrative record is parked before the poll
of its service has asked for what waits. -/
def Apart (s : State) : Label → Prop
  | .lookup k => ∀ id copy, s.tasks k = some ⟨id, copy, .seen s.version⟩ →
      match s.find ecmpHash subject id with
      | none => ∀ service, parkStatus nodeIds subject id = .waitingForService service →
          ∀ r, ¬s.Published service r
      | some (.deliver service) => ∀ r reg, s.entries service.serviceId = some r →
          s.registrations r = some reg → ∀ r', s.Published reg.eid r' → r' = r
      | _ => True
  | .addService r => ∀ reg, s.registrations r = some reg → s.services reg.serviceId = some r →
      ∃ table, s.withService ecmpHash priority reg = .ok (some table)
  | .adminPark k => ∀ id copy service, s.tasks k = some ⟨id, copy, .adminParking service⟩ →
      s.status id = some copy → ∀ r, ¬s.Listed service r
  | _ => True

omit [Globs] in
/-- What a task knows of the registrations for its service: their routes are older
than its table, or the table has changed. -/
def Task.Sound (t : Task) (s : State) : Prop :=
  match t.phase with
  | .seen v | .parked v _ => v ≤ s.version
  | .delivering v r | .queueing v r => v ≤ s.version ∧ ∃ reg, s.registrations r = some reg ∧
      ∀ r', s.Published reg.eid r' → r' = r ∨ v < s.version
  | .parking v service => v ≤ s.version ∧ ∀ r, s.Published service r → v < s.version
  | _ => True

/-- Somebody is still going to look at a bundle that waits for a service. -/
inductive State.Pending (s : State) (id : Id) (service : Eid) : Prop where
  | poll {r : Nat} {reg : Registration} {pending : Set Id} (hreg : s.registrations r = some reg)
      (heid : reg.eid = service) (hstage : reg.stage = .polling pending) (hid : id ∈ pending)
  | task {k : Nat} {v : Nat}
      (htask : s.tasks k = some ⟨id, .waitingForService service, .parked v service⟩)
      (hchanged : v ≠ s.version)

structure Inv (s : State) : Prop where
  /-- The registry lists registrations with open queues. -/
  live : ∀ id r, s.services id = some r → s.registrations r ≠ none ∧
    ∀ reg, s.registrations r = some reg → reg.serviceId = id ∧ reg.teardown = .none
  sound : ∀ k t, s.tasks k = some t → t.Sound s
  guarded : ∀ id service, s.status id = some (.waitingForService service) → ¬s.held id →
    ∀ r, s.Listed service r → s.Pending id service

variable {ecmpHash priority nodeIds subject reported} {s s' : State} {l : Label}

/-! ### What a step leaves, and what it brings -/

theorem Step.live (hs : Step ecmpHash priority nodeIds subject reported s l s') (hi : Inv s) :
    ∀ id r, s'.services id = some r → s'.registrations r ≠ none ∧
      ∀ reg, s'.registrations r = some reg → reg.serviceId = id ∧ reg.teardown = .none := by
  have hl := hi.live
  cases hs <;>
    simp only [State.setTask, State.setRegistration, State.setStatus,
      Function.update_apply] at * <;>
    grind

theorem Step.version (hs : Step ecmpHash priority nodeIds subject reported s l s') :
    s.version ≤ s'.version := by
  cases hs <;> first | exact le_refl _ | exact Nat.le_succ _

theorem Step.registration (hs : Step ecmpHash priority nodeIds subject reported s l s') {r : Nat}
    {reg : Registration} (hr : s.registrations r = some reg) :
    ∃ reg', s'.registrations r = some reg' ∧ reg'.eid = reg.eid := by
  cases hs <;>
    simp only [State.setTask, State.setRegistration, State.setStatus,
      Function.update_apply] at * <;>
    grind

theorem Step.published (hs : Step ecmpHash priority nodeIds subject reported s l s') (hi : Inv s)
    (ha : Apart ecmpHash priority nodeIds subject s l) {service : Eid} {r : Nat}
    (hp : s'.Published service r) : s.Published service r ∨ s.version < s'.version := by
  have hl := hi.live
  simp only [State.Published, State.Registered] at *
  cases hs <;>
    simp only [State.setTask, State.setRegistration, State.setStatus, Function.update_apply,
      Apart] at * <;>
    grind [Stage.published]

theorem Task.Sound.step {t : Task} (ht : t.Sound s) (hi : Inv s)
    (ha : Apart ecmpHash priority nodeIds subject s l)
    (hs : Step ecmpHash priority nodeIds subject reported s l s') : t.Sound s' := by
  have hv := hs.version
  have hfound : ∀ {v r}, (v ≤ s.version ∧ ∃ reg, s.registrations r = some reg ∧
        ∀ r', s.Published reg.eid r' → r' = r ∨ v < s.version) →
      v ≤ s'.version ∧ ∃ reg, s'.registrations r = some reg ∧
        ∀ r', s'.Published reg.eid r' → r' = r ∨ v < s'.version := by
    rintro v r ⟨hle, reg, hreg, hp⟩
    obtain ⟨reg', hreg', heid⟩ := hs.registration hreg
    refine ⟨hle.trans hv, reg', hreg', fun r' hp' => ?_⟩
    rcases hs.published hi ha (heid ▸ hp') with hold | hlt
    · exact (hp r' hold).imp_right (·.trans_le hv)
    · exact .inr (hle.trans_lt hlt)
  obtain ⟨id, copy, phase⟩ := t
  cases phase with
  | seen v => exact Nat.le_trans ht hv
  | parked v => exact Nat.le_trans ht hv
  | delivering v r => exact hfound ht
  | queueing v r => exact hfound ht
  | parking v service =>
    obtain ⟨hle, hp⟩ := ht
    refine ⟨hle.trans hv, fun r hp' => ?_⟩
    rcases hs.published hi ha hp' with hold | hlt
    · exact (hp r hold).trans_le hv
    · exact hle.trans_lt hlt
  | _ => trivial

omit [Globs] in
theorem Task.Sound.same {t : Task} (ht : t.Sound s) (hv : s'.version = s.version)
    (hr : s'.registrations = s.registrations) (hservices : s'.services = s.services) :
    t.Sound s' := by
  have hp : s'.Published = s.Published := by
    funext service r
    simp only [State.Published, State.Registered, hr, hservices]
  unfold Task.Sound at ht ⊢
  rw [hv, hr, hp]
  exact ht

theorem Step.task (hs : Step ecmpHash priority nodeIds subject reported s l s') (hi : Inv s)
    (ha : Apart ecmpHash priority nodeIds subject s l) {k : Nat} {t : Task}
    (ht : s'.tasks k = some t) : s.tasks k = some t ∨ t.Sound s' := by
  cases hs with
  | @lookupNone k' id copy v service htask hfind hpark =>
    simp only [State.setTask, Function.update_apply] at ht
    split at ht
    · cases ht
      have hle : v ≤ s.version := hi.sound _ _ htask
      refine .inr ⟨hle, fun r hp => lt_of_le_of_ne hle fun hv => ?_⟩
      obtain rfl : v = s.version := hv
      have hnone := ha id copy htask
      rw [hfind] at hnone
      exact hnone service hpark r hp
    · exact .inl ht
  | @lookupService k' id copy v service r reg htask hfind hentry hreg =>
    simp only [State.setTask, Function.update_apply] at ht
    split at ht
    · cases ht
      have hle : v ≤ s.version := hi.sound _ _ htask
      refine .inr ⟨hle, reg, hreg, fun r' hp => or_iff_not_imp_right.mpr fun hv => ?_⟩
      obtain rfl : v = s.version := le_antisymm hle (not_lt.mp hv)
      have hsame := ha id copy htask
      rw [hfind] at hsame
      exact hsame r reg hentry hreg r' hp
    · exact .inl ht
  | @deliver k' id copy v r reg htask hreg hstatus =>
    simp only [State.setTask, State.setStatus, Function.update_apply] at ht
    split at ht
    · cases ht
      exact .inr (Task.Sound.same (t := ⟨id, copy, .delivering v r⟩) (hi.sound _ _ htask) rfl
        rfl rfl)
    · exact .inl ht
  | @refused k' id copy v r reg htask hreg hclosed =>
    simp only [State.setTask, Function.update_apply] at ht
    split at ht
    · cases ht
      obtain ⟨hle, reg', hreg', hp⟩ := hi.sound _ _ htask
      cases hreg.symm.trans hreg'
      -- the registration that is closed is not in the registry
      refine .inr ⟨hle, fun r' hp' => (hp r' hp').resolve_left ?_⟩
      rintro rfl
      obtain ⟨reg'', ⟨hreg'', -, hid⟩, -⟩ := hp'
      cases hreg.symm.trans hreg''
      exact hclosed ((hi.live _ _ hid).2 _ hreg).2
    · exact .inl ht
  | @park k' id copy v service htask hstatus =>
    simp only [State.setTask, State.setStatus, Function.update_apply] at ht
    split at ht
    · cases ht
      exact .inr (hi.sound _ _ htask).1
    · exact .inl ht
  | _ =>
    simp only [State.setTask, State.setRegistration, State.setStatus, Function.update_apply] at *
    grind [Task.Sound]

theorem Step.listed (hs : Step ecmpHash priority nodeIds subject reported s l s')
    {service : Eid} {r : Nat} (hp : s'.Listed service r) : s.Listed service r ∨
      ∀ id, s'.status id = some (.waitingForService service) → s'.Pending id service := by
  obtain ⟨reg', ⟨hreg', rfl, hid'⟩, hstage'⟩ := hp
  cases hs with
  | @pollBegin r₀ reg hreg hstage =>
    simp only [State.setRegistration, Function.update_apply] at hreg' hid'
    split at hreg'
    · cases hreg'
      exact .inr fun id hw => .poll (Function.update_self ..) rfl rfl hw
    · exact .inl ⟨reg', ⟨hreg', rfl, hid'⟩, hstage'⟩
  | _ =>
    left
    simp only [State.Listed, State.Registered, State.setTask, State.setRegistration,
      State.setStatus, Function.update_apply] at *
    grind [Stage.listed]

theorem Step.pending (hs : Step ecmpHash priority nodeIds subject reported s l s') (hi : Inv s)
    {id : Id} {service : Eid} (hp : s.Pending id service) :
    s'.Pending id service ∨ s'.status id ≠ some (.waitingForService service) := by
  cases hp with
  | @poll r reg pending hreg heid hstage hid =>
    by_contra hno
    obtain ⟨hno, hwaits⟩ := not_or.mp hno
    have hwaits := not_not.mp hwaits
    have hnone : ∀ r reg pending, s'.registrations r = some reg → reg.eid = service →
        reg.stage = .polling pending → id ∉ pending :=
      fun r reg pending hreg heid hstage hid => hno (.poll hreg heid hstage hid)
    have hr := hnone r
    clear hno hnone
    cases hs <;>
      simp only [State.setTask, State.setRegistration, State.setStatus,
        Function.update_apply] at * <;>
      grind
  | @task k v htask hchanged =>
    have hle : v ≤ s.version := hi.sound _ _ htask
    have hv : v ≠ s'.version := fun hv =>
      hchanged (le_antisymm hle (hv ▸ hs.version))
    by_cases hk : s'.tasks k = some ⟨id, .waitingForService service, .parked v service⟩
    · exact .inl (.task hk hv)
    · cases hs <;>
        simp only [State.setTask, State.setRegistration, State.setStatus,
          Function.update_apply] at * <;>
        grind

theorem Step.waits (hs : Step ecmpHash priority nodeIds subject reported s l s') {id : Id}
    {service : Eid} (hw : s'.status id = some (.waitingForService service)) (hh : ¬s'.held id) :
    (s.status id = some (.waitingForService service) ∧ ¬s.held id) ∨
    (∃ k copy v, s.tasks k = some ⟨id, copy, .parking v service⟩ ∧ s'.tasks k = some
      ⟨id, .waitingForService service, .parked v service⟩ ∧ s'.version = s.version) ∨
    ∃ k copy, l = .adminPark k ∧ s.tasks k = some ⟨id, copy, .adminParking service⟩ ∧
      s.status id = some copy := by
  cases hs <;>
    simp only [State.setTask, State.setRegistration, State.setStatus,
      Function.update_apply] at * <;>
    grind [Waits]

omit [Globs] in
theorem Stage.published_of_listed {stage : Stage} (h : stage.listed = true) :
    stage.published = true := by
  cases stage <;> first | rfl | cases h

theorem Inv.step (hi : Inv s) (ha : Apart ecmpHash priority nodeIds subject s l)
    (hs : Step ecmpHash priority nodeIds subject reported s l s') : Inv s' where
  live := hs.live hi
  sound k t ht := by
    rcases hs.task hi ha ht with hold | hnew
    · exact (hi.sound k t hold).step hi ha hs
    · exact hnew
  guarded id service hw hh r hl := by
    rcases hs.waits hw hh with ⟨hw₀, hh₀⟩ | ⟨k, copy, v, hk, hk', hv⟩ | ⟨k, copy, rfl, hk, hstatus⟩
    · rcases hs.listed hl with hl₀ | hall
      · exact (hs.pending hi (hi.guarded id service hw₀ hh₀ r hl₀)).resolve_right fun h => h hw
      · exact hall id hw
    · -- the table of the lookup is older than the registration
      obtain ⟨reg, hreg, hlisted⟩ := hl
      rcases hs.published hi ha ⟨reg, hreg, Stage.published_of_listed hlisted⟩ with hp | hlt
      · exact .task hk' (hv ▸ ((hi.sound _ _ hk).2 r hp).ne)
      · exact absurd hv hlt.ne'
    · rcases hs.listed hl with hl₀ | hall
      · exact absurd hl₀ (ha id copy service hk hstatus r)
      · exact hall id hw

theorem inv_reachable
    (h : ((waking ecmpHash priority nodeIds subject reported).only
      (Apart ecmpHash priority nodeIds subject)).Reachable s) : Inv s := by
  refine h.invariant ?_ fun _ _ _ hi ⟨ha, hs⟩ => hi.step ha hs
  rintro s ⟨hregs, hservices, -, htasks⟩
  refine ⟨fun id r hr => ?_, fun k t ht => ?_, fun id service _ _ r hl => ?_⟩
  · rw [hservices] at hr
    cases hr
  · rw [htasks] at ht
    cases ht
  · obtain ⟨reg, ⟨hreg, -⟩, -⟩ := hl
    rw [hregs] at hreg
    cases hreg

/-- When calls and tasks are at their end, no bundle that a dispatch task has
parked waits for a service that is registered. -/
theorem awake_of_apart
    (h : ((waking ecmpHash priority nodeIds subject reported).only
      (Apart ecmpHash priority nodeIds subject)).Reachable s) (hq : s.Quiescent) : s.Awake := by
  intro id service hw hh r reg hr
  have hpolled := hq.registrations r reg hr.1
  have hlisted : reg.stage.listed = true := by rw [hpolled]; rfl
  cases (inv_reachable h).guarded id service hw hh r ⟨reg, hr, hlisted⟩ with
  | poll hreg _ hstage =>
    rw [hq.registrations _ _ hreg] at hstage
    cases hstage
  | task htask =>
    rw [hq.tasks] at htask
    cases htask

end

/-! ## Bundles for a service that comes -/

namespace Reported

local instance : Globs := .literal

def nodeIds : NodeIds := ⟨some ⟨0, 1⟩, none⟩

def id : Id := ⟨.ipn ⟨0, 9⟩ 1, ⟨none, 0⟩, none⟩

/-- A status report to the node. -/
def subject : Subject := ⟨.ipn ⟨0, 1⟩ 0, .ipn ⟨0, 9⟩ 1, none, none⟩

def source : Eid := .ipn ⟨0, 1⟩ 5

/-- A bundle to the service itself. -/
def addressed : Subject := ⟨source, .ipn ⟨0, 9⟩ 1, none, none⟩

def started : State where
  table := .new nodeIds
  version := 0
  registrations _ := none
  services _ := none
  entries _ := none
  status i := if i = id then some .dispatching else none
  held _ := False
  tasks _ := none

theorem admin_found : started.find (fun _ => 0) (fun _ => subject) id = some .adminEndpoint := by
  decide

/-- The table with the route of the service. -/
def served : RouteTable :=
  match started.withService (fun _ => 0) 1 ⟨.ipn 5, source, .inserted, .none⟩ with
  | .ok (some table) => table
  | _ => started.table

theorem registration_taken :
    started.withService (fun _ => 0) 1 ⟨.ipn 5, source, .inserted, .none⟩ = .ok (some served) := rfl

theorem service_missing : Rib.find ⟨started.table, fun _ => 0, (), 0⟩ addressed = none := by decide

theorem service_found :
    Rib.find ⟨served, fun _ => 0, (), 0⟩ addressed = some (.deliver ⟨.ipn 5, source⟩) := by decide

theorem none_waits : {i | started.status i = some (.waitingForService source)} = (∅ : Set Id) := by
  ext i
  simp only [started, Set.mem_ofPred_eq, Set.mem_empty_iff_false, iff_false]
  split <;> simp

theorem none_left {status : BundleStatus} : {i | Function.update started.status id (some status) i =
    some (.waitingForService source)} \ {id} = ∅ := by
  ext i
  simp only [Set.mem_sdiff, Set.mem_ofPred_eq, Set.mem_singleton_iff, Set.mem_empty_iff_false,
    iff_false, not_and, not_not]
  intro hi
  by_contra hne
  rw [Function.update_of_ne hne] at hi
  simp [started, hne] at hi

def node (s : Subject) (C : State → Label → Prop) : Machine State Label :=
  (waking (fun _ => 0) 1 nodeIds (fun _ => s) fun _ => source).only C

variable {b : Subject} {C : State → Label → Prop}

theorem node_started : (node b C).Reachable started :=
  .start ⟨fun _ => rfl, fun _ => rfl, fun _ => rfl, fun _ => rfl⟩

theorem node_step {s s' : State} (h : (node b C).Reachable s) (l : Label) (hc : C s l)
    (hs : Step (fun _ => 0) 1 nodeIds (fun _ => b) (fun _ => source) s l s') :
    (node b C).Reachable s' :=
  h.step l ⟨hc, hs⟩

theorem apart_missing {s : State} {k : Nat} (htable : s.table = started.table)
    (hnone : ∀ r, s.registrations r = none) :
    Apart (fun _ => 0) 1 nodeIds (fun _ => addressed) s (.lookup k) := by
  intro i copy _
  rw [State.find, htable, service_missing]
  rintro service - r ⟨reg, ⟨hreg, -⟩, -⟩
  rw [hnone] at hreg
  cases hreg

theorem apart_found {s : State} {k : Nat} (htable : s.table = served)
    (hone : ∀ r reg, s.registrations r = some reg → r = 0) :
    Apart (fun _ => 0) 1 nodeIds (fun _ => addressed) s (.lookup k) := by
  intro i copy _
  rw [State.find, htable, service_found]
  rintro r reg - hreg r' ⟨reg', ⟨hreg', -⟩, -⟩
  rw [hone r reg hreg, hone r' reg' hreg']

/-- A bundle is parked for the service; then the service registers, and its poll lists the bundle
and has it delivered. -/
theorem registered_awake :
    ∃ s, (node addressed (Apart (fun _ => 0) 1 nodeIds fun _ => addressed)).Reachable s ∧
      (∃ reg, s.Registered source 0 reg) ∧ s.status id = some (.deliverPending source) ∧
      s.Awake := by
  have h₀ : (node addressed (Apart (fun _ => 0) 1 nodeIds fun _ => addressed)).Reachable started :=
    node_started
  have h₁ : (node addressed (Apart (fun _ => 0) 1 nodeIds fun _ => addressed)).Reachable
      (started.setTask 0 (some ⟨id, .dispatching, .begun⟩)) :=
    node_step h₀ (.activate 0) trivial (.activate rfl)
  have h₂ := node_step h₁ (.snapshot 0) trivial (.snapshot rfl)
  have h₃ := node_step h₂ (.lookup 0) (apart_missing rfl fun _ => rfl)
    (.lookupNone rfl service_missing rfl)
  have h₄ := node_step h₃ (.park 0) trivial (.park rfl rfl)
  have h₅ := node_step h₄ (.recheck 0) trivial (.recheckSame rfl)
  have h₆ := node_step h₅ (.register 0 (.ipn 5)) trivial (.register rfl rfl rfl rfl)
  have h₇ := node_step h₆ (.addService 0)
    (fun reg hreg _ => by cases hreg; exact ⟨served, registration_taken⟩)
    (.addService rfl rfl registration_taken)
  have h₈ := node_step h₇ (.poll 0) trivial (.pollBegin rfl rfl)
  have h₉ := node_step h₈ (.poll 0) trivial
    (.pollClaim (k := 0) rfl rfl (show id ∈ _ from rfl) rfl rfl)
  have h₁₀ := node_step h₉ (.poll 0) trivial (.pollEnd rfl (congrArg _ none_left))
  have h₁₁ := node_step h₁₀ (.snapshot 0) trivial (.snapshot rfl)
  have h₁₂ := node_step h₁₁ (.lookup 0)
    (apart_found rfl fun r reg hreg => by cases r <;> first | rfl | cases hreg)
    (.lookupService rfl service_found rfl rfl)
  have h₁₃ := node_step h₁₂ (.deliver 0) trivial (.deliver rfl rfl rfl)
  have h₁₄ := node_step h₁₃ (.deliver 0) trivial (.sent rfl)
  refine ⟨_, h₁₄, ⟨_, rfl, rfl, rfl⟩, rfl, awake_of_apart h₁₄ ⟨fun k => ?_, fun r reg hreg => ?_⟩⟩
  · cases k <;> rfl
  · cases r <;> cases hreg
    rfl

/-- The service registers between the lookup for the report and the park. -/
theorem report_asleep :
    ¬ ∀ s, (waking (fun _ => 0) 1 nodeIds (fun _ => subject) fun _ => source).Reachable s →
      s.Quiescent → s.Awake := by
  intro h
  have h₀ : (node subject fun _ _ => True).Reachable started := node_started
  have h₁ : (node subject fun _ _ => True).Reachable
      (started.setTask 0 (some ⟨id, .dispatching, .begun⟩)) :=
    node_step h₀ (.activate 0) trivial (.activate rfl)
  have h₂ := node_step h₁ (.snapshot 0) trivial (.snapshot rfl)
  have h₃ := node_step h₂ (.lookup 0) trivial (.lookupAdmin rfl admin_found)
  have h₄ := node_step h₃ (.findService 0) trivial (.findService rfl (by decide))
  have h₅ := node_step h₄ (.register 0 (.ipn 5)) trivial (.register rfl rfl rfl rfl)
  have h₆ := node_step h₅ (.addService 0) trivial (.addService rfl rfl registration_taken)
  have h₇ := node_step h₆ (.poll 0) trivial (.pollBegin rfl rfl)
  have h₈ := node_step h₇ (.poll 0) trivial (.pollEnd rfl (congrArg _ none_waits))
  have h₉ := node_step h₈ (.adminPark 0) trivial (.adminPark rfl rfl)
  refine h _ h₉.of_only ⟨fun k => ?_, fun r reg hreg => ?_⟩ id source ?_ ?_ 0 _ ⟨rfl, rfl, rfl⟩
  · cases k <;> rfl
  · cases r <;> cases hreg
    rfl
  · rfl
  · exact fun hheld => hheld

end Reported

end Hardy.Services.Wakeup
