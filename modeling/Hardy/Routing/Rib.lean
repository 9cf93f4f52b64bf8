import Hardy.Bpa.Store
import Hardy.Routing.Lookup

/-!
# The routing information base

Model of `bpa/src/routing/rib.rs`: the published route table, the routing
decision for a bundle, and the changes of the table with the queue resets and
the wakeups that follow them.  A call is one step here, and `wakeups` counts
the calls of `poll_waiting_notify.notify_one`.
-/

namespace Hardy.Routing

/-- What the store offers to routing: each reset moves the bundles of one
status on to a waiting status, and says how many there were. -/
class QueueResets (σ : Type) where
  resetPeerQueue : Nat → σ → Nat × σ
  resetPeerAckPending : Nat → σ → Nat × σ
  resetServiceQueue : Eid → σ → Nat × σ
  /-- Some bundle is `ForwardPending` for the peer. -/
  queued : Nat → σ → Bool
  /-- Some bundle is `ForwardAckPending` for the peer. -/
  inFlight : Nat → σ → Bool
  resetPeerQueue_count : ∀ p s, ((resetPeerQueue p s).1 != 0) = queued p s
  queued_resetPeerQueue : ∀ p q s, queued q (resetPeerQueue p s).2 = (q != p && queued q s)
  inFlight_resetPeerQueue : ∀ p q s, inFlight q (resetPeerQueue p s).2 = inFlight q s
  resetPeerAckPending_count : ∀ p s, ((resetPeerAckPending p s).1 != 0) = inFlight p s
  queued_resetPeerAckPending : ∀ p q s, queued q (resetPeerAckPending p s).2 = queued q s
  inFlight_resetPeerAckPending : ∀ p q s,
    inFlight q (resetPeerAckPending p s).2 = (q != p && inFlight q s)

/-! ## The in-memory store -/

/-- The statuses of the live entries of a `MetadataMemStorage`. -/
abbrev Statuses := List Bpa.BundleStatus

namespace Statuses

def isQueued (peer : Nat) : Bpa.BundleStatus → Bool
  | .forwardPending p _ _ => p == peer
  | _ => false

def isInFlight (peer : Nat) : Bpa.BundleStatus → Bool
  | .forwardAckPending p => p == peer
  | _ => false

def isDelivering (service : Eid) : Bpa.BundleStatus → Bool
  | .deliverPending s => s == service
  | _ => false

/-- The bundles of some statuses move to `parked`. -/
def reset (which : Bpa.BundleStatus → Bool) (parked : Bpa.BundleStatus) (s : Statuses) :
    Nat × Statuses :=
  (s.countP which, s.map fun status => if which status then parked else status)

theorem reset_count {which : Bpa.BundleStatus → Bool} {parked : Bpa.BundleStatus} {s : Statuses} :
    ((reset which parked s).1 != 0) = s.any which := by
  rw [reset, Bool.eq_iff_iff, bne_iff_ne, List.any_eq_true, ← Nat.pos_iff_ne_zero,
    List.countP_pos_iff]

theorem any_reset {which other : Bpa.BundleStatus → Bool} {parked : Bpa.BundleStatus} {s : Statuses}
    (hparked : other parked = false) :
    (reset which parked s).2.any other = s.any fun status => !which status && other status := by
  rw [reset, List.any_map]
  congr 1
  funext status
  by_cases h : which status = true
  · simp [h, hparked]
  · simp [h]

instance : QueueResets Statuses where
  resetPeerQueue p := reset (isQueued p) .waiting
  resetPeerAckPending p := reset (isInFlight p) .waiting
  resetServiceQueue e := reset (isDelivering e) (.waitingForService e)
  queued p s := s.any (isQueued p)
  inFlight p s := s.any (isInFlight p)
  resetPeerQueue_count _ _ := reset_count
  queued_resetPeerQueue p q s := by
    rw [any_reset rfl]
    by_cases h : q = p
    · subst h
      simp
    · rw [bne_iff_ne.mpr h, Bool.true_and]
      congr 1
      funext status
      cases status <;> simp [isQueued]
      grind
  inFlight_resetPeerQueue p q s := by
    rw [any_reset rfl]
    congr 1
    funext status
    cases status <;> simp [isQueued, isInFlight]
  resetPeerAckPending_count _ _ := reset_count
  queued_resetPeerAckPending p q s := by
    rw [any_reset rfl]
    congr 1
    funext status
    cases status <;> simp [isQueued, isInFlight]
  inFlight_resetPeerAckPending p q s := by
    rw [any_reset rfl]
    by_cases h : q = p
    · subst h
      simp
    · rw [bne_iff_ne.mpr h, Bool.true_and]
      congr 1
      funext status
      cases status <;> simp [isInFlight]
      grind

end Statuses

/-! ## Routing decisions -/

/-- What `Rib::find` reads of a bundle. -/
structure Subject where
  destination : Eid
  source : Eid
  previousNode : Option Eid
  flowLabel : Option Nat
deriving DecidableEq, Repr

def Subject.previous (b : Subject) : Eid := b.previousNode.getD b.source

inductive DispatchAction where
  | adminEndpoint
  | deliver (service : Service)
  | forward (peer : Nat) (nextHop : Eid)
  | drop (reason : Option ReasonCode)
deriving DecidableEq, Repr

structure Rib (σ : Type) where
  table : RouteTable
  /-- `ecmp_hash_state` -/
  ecmpHash : Eid × Eid × Option Nat → Nat
  store : σ
  wakeups : Nat

def selectPeer (ecmpHash : Eid × Eid × Option Nat → Nat) (peers : List (Nat × Eid)) (b : Subject) :
    Option DispatchAction :=
  let idx := if 1 < peers.length then
    ecmpHash (b.source, b.destination, b.flowLabel) % peers.length else 0
  peers[idx]?.map fun (peer, nextHop) => .forward peer nextHop

/-- The lookup of the destination, or of the previous node where that says to
reflect. -/
def RouteTable.resolve [Globs] (t : RouteTable) (b : Subject) : Option LookupResult :=
  match t.findRecurse b.destination true [] with
  | some .reflect => t.findRecurse b.previous false []
  | result => result

namespace Rib

variable {σ : Type} [Globs] [QueueResets σ]

omit [QueueResets σ] in
def find (r : Rib σ) (b : Subject) : Option DispatchAction :=
  match r.table.resolve b with
  | some .adminEndpoint => some .adminEndpoint
  | some (.deliver service) => some (.deliver service)
  | some (.drop reason) => some (.drop reason)
  | some (.forward peer nextHop) => some (.forward peer nextHop)
  | some (.forwardEcmp peers) => selectPeer r.ecmpHash peers b
  | some .reflect => none
  | none => none

omit [Globs] [QueueResets σ] in
def expandPattern (r : Rib σ) (pattern : EidPattern) : EidPattern :=
  match r.table.nodeIds.ipn with
  | some ipn => (pattern.expandLocalNode ipn).getD pattern
  | none => pattern

omit [Globs] [QueueResets σ] in
def expandAction (r : Rib σ) : Action → Action
  | .route (.via eid) => .route (.via ((r.table.nodeIds.expandLocalNode eid).getD eid))
  | action => action

omit [Globs] in
def resetPeerQueue (r : Rib σ) (peer : Nat) : Bool × Rib σ :=
  let (reset, store) := QueueResets.resetPeerQueue peer r.store
  (reset != 0, { r with store })

omit [Globs] in
def resetPeerAckPending (r : Rib σ) (peer : Nat) : Bool × Rib σ :=
  let (reset, store) := QueueResets.resetPeerAckPending peer r.store
  (reset != 0, { r with store })

omit [Globs] in
def resetAll {α : Type} (reset : Rib σ → α → Bool × Rib σ) (r : Rib σ) (keys : List α) :
    Bool × Rib σ :=
  keys.foldl (fun acc key => (acc.1 || (reset acc.2 key).1, (reset acc.2 key).2)) (false, r)

omit [Globs] in
def resetPeerQueues (r : Rib σ) (peers : List Nat) : Bool × Rib σ := resetAll resetPeerQueue r peers

def resetVia (r : Rib σ) (via : Eid) : Bool × Rib σ :=
  match r.table.findPeers via with
  | some peers => r.resetPeerQueues peers
  | none => (false, r)

omit [Globs] in
/-- `queued` and `in_flight` of a peer that is going. -/
def resetPeer (r : Rib σ) (peer : Nat) : Bool × Rib σ :=
  let (queued, r) := r.resetPeerQueue peer
  let (inFlight, r) := r.resetPeerAckPending peer
  (queued || inFlight, r)

omit [Globs] [QueueResets σ] in
/-- `poll_waiting_notify.notify_one`, where `wake` says so. -/
def notifyIf (wake : Bool) (r : Rib σ) : Rib σ := if wake then { r with wakeups := r.wakeups + 1 } else r

omit [QueueResets σ] in
/-- The table that `Rib::add` publishes, where the entry is new. -/
def published (r : Rib σ) (pattern : EidPattern) (source : String) (action : Action)
    (priority : Nat) : Except Error (Option RouteTable) := do
  let (inserted, table) ←
    r.table.insert (r.expandPattern pattern) ⟨r.expandAction action, source⟩ priority
  return if inserted then some table else none

def add (r : Rib σ) (pattern : EidPattern) (source : String) (action : Action) (priority : Nat) :
    Except Error (Bool × Rib σ) := do
  let some table ← r.published pattern source action priority | return (false, r)
  let vias := table.impactedVias (r.expandPattern pattern) priority
  let r := { r with table }
  let r := match action with
    | .route _ => (resetAll resetVia r vias).2
    | .internal _ => r
  return (true, notifyIf (action != .internal .adminEndpoint) r)

def afterRemoval (r : Rib σ) : Action → Bool × Rib σ
  | .route (.via via) => r.resetVia via
  | .internal (.forward peer) => r.resetPeer peer
  | .internal (.localService service) =>
    let (_, store) := QueueResets.resetServiceQueue service.eid r.store
    (true, { r with store })
  | _ => (false, r)

def remove (r : Rib σ) (pattern : EidPattern) (source : String) (action : Action)
    (priority : Nat) : Bool × Rib σ :=
  let pattern := r.expandPattern pattern
  let action := r.expandAction action
  let (removed, table) := r.table.remove pattern ⟨action, source⟩ priority
  if !removed then (false, r)
  else
    let (wake, r) := { r with table }.afterRemoval action
    (true, notifyIf wake r)

def removeBySource (r : Rib σ) (source : String) : Rib σ :=
  let (removed, table) := r.table.removeBySource source
  let r := { r with table }
  if removed.removedCount = 0 then r
  else
    let (viaChanged, r) := resetAll resetVia r removed.vias
    let (peerChanged, r) := resetAll resetPeer r removed.forwardPeers
    notifyIf (removed.hasLocal || viaChanged || peerChanged) r

end Rib

end Hardy.Routing
