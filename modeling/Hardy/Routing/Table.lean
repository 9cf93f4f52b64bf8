import Hardy.Pattern
import Hardy.Sorted

/-!
# The route table

Model of `bpa/src/routing/action.rs`, `bpa/src/routing/table.rs` and
`bpa/src/node_ids.rs`.  Routes are kept by priority, then by pattern from the
most specific on, then in the order of their actions.  The recursion of a
lookup through `Via` routes runs on fuel here; `Hardy.Routing.Lookup` shows
that the fuel never runs out.
-/

namespace Hardy

/-- `status_report::ReasonCode` -/
inductive ReasonCode where
  | noAdditionalInformation
  | lifetimeExpired
  | forwardedOverUnidirectionalLink
  | transmissionCanceled
  | depletedStorage
  | destinationEndpointIDUnavailable
  | noKnownRouteToDestinationFromHere
  | noTimelyContactWithNextNodeOnRoute
  | blockUnintelligible
  | hopLimitExceeded
  | trafficPared
  | blockUnsupported
  | missingSecurityOperation
  | unknownSecurityOperation
  | unexpectedSecurityOperation
  | failedSecurityOperation
  | conflictingSecurityOperation
  | unassigned (code : Nat)
deriving DecidableEq, Ord, Repr

/-- `hardy_bpv7::eid::Service` -/
inductive ServiceId where
  | ipn (number : Nat)
  | dtn (name : Bytes)
deriving DecidableEq, Ord, Repr

namespace Routing

structure Service where
  serviceId : ServiceId
  eid : Eid
deriving DecidableEq, Repr

/-! ## Local node ids -/

structure NodeIds where
  ipn : Option IpnNodeId
  dtn : Option Bytes
deriving DecidableEq, Repr

namespace NodeIds

def expandLocalNode (ids : NodeIds) : Eid → Option Eid
  | .localNode s => ids.ipn.map fun fqnn => .ipn fqnn s
  | _ => none

def localServiceEid (ids : NodeIds) (eid : Eid) : Option Eid :=
  match eid with
  | .localNode _ => ids.expandLocalNode eid
  | .ipn fqnn s | .legacyIpn fqnn s => if ids.ipn = some fqnn then some (.ipn fqnn s) else none
  | .dtn nodeName serviceName =>
    if ids.dtn = some nodeName then some (.dtn nodeName serviceName) else none
  | _ => none

def isLocal (ids : NodeIds) (eid : Eid) : Bool :=
  match eid with
  | .localNode _ => true
  | eid => (ids.localServiceEid eid).isSome

/-- `get_admin_endpoint`.  The source panics where there is no node id of either
scheme. -/
def getAdminEndpoint (ids : NodeIds) (destination : Eid) : Eid :=
  match destination, ids.ipn, ids.dtn with
  | .legacyIpn _ _, some fqnn, _ => .legacyIpn fqnn 0
  | .dtn _ _, _, some nodeName => .dtn nodeName []
  | _, none, some nodeName => .dtn nodeName []
  | _, some fqnn, _ => .ipn fqnn 0
  | _, none, none => .null

end NodeIds

/-! ## Actions -/

inductive RouteAction where
  | via (eid : Eid)
  | reflect
  | drop (reason : Option ReasonCode)
deriving DecidableEq, Repr

inductive InternalAction where
  | forward (peer : Nat)
  | localService (service : Service)
  | adminEndpoint
deriving DecidableEq, Repr

inductive Action where
  | route (action : RouteAction)
  | internal (action : InternalAction)
deriving DecidableEq, Repr

namespace RouteAction

def rank : RouteAction → Nat
  | .drop _ => 0
  | .reflect => 1
  | .via _ => 2

def cmp (a b : RouteAction) : Ordering :=
  (compare a.rank b.rank).then <|
    match a, b with
    | .drop a, .drop b => compare a b
    | .via a, .via b => compare a b
    | _, _ => .eq

end RouteAction

namespace InternalAction

def rank : InternalAction → Nat
  | .adminEndpoint => 0
  | .localService _ => 1
  | .forward _ => 2

/-- Services compare by their service id alone. -/
def cmp (a b : InternalAction) : Ordering :=
  (compare a.rank b.rank).then <|
    match a, b with
    | .localService a, .localService b => compare a.serviceId b.serviceId
    | .forward a, .forward b => compare a b
    | _, _ => .eq

end InternalAction

namespace Action

/-- Drop < AdminEndpoint < Local < Forward < Reflect < Via -/
def rank : Action → Nat
  | .route (.drop _) => 0
  | .internal .adminEndpoint => 1
  | .internal (.localService _) => 2
  | .internal (.forward _) => 3
  | .route .reflect => 4
  | .route (.via _) => 5

def cmp (a b : Action) : Ordering :=
  (compare a.rank b.rank).then <|
    match a, b with
    | .route a, .route b => a.cmp b
    | .internal a, .internal b => a.cmp b
    | _, _ => .eq

end Action

structure Entry where
  action : Action
  source : String
deriving DecidableEq, Repr

def Entry.cmp (a b : Entry) : Ordering := (a.action.cmp b.action).then (compare a.source b.source)

instance : Ord Entry := ⟨Entry.cmp⟩

/-! ## The table -/

structure RouteTable where
  routes : List (Nat × List (EidPattern × List Entry))
  nodeIds : NodeIds

inductive Error where
  | nullNextHop
  | viaOwnNode (eid : Eid)
deriving DecidableEq, Repr

namespace RouteTable

/-- The patterns with their entries, over all priorities, in the order in which
a lookup visits them. -/
def rows (t : RouteTable) : List (EidPattern × List Entry) := t.routes.flatMap (·.2)

/-- `RouteTable::remove` on one atom; `none` when the entry is not there. -/
def removeAtom [Globs] (t : RouteTable) (pattern : EidPattern) (entry : Entry) (priority : Nat) :
    Option RouteTable := do
  let patterns ← Sorted.get priority t.routes
  let actions ← Sorted.get pattern patterns
  let _ ← Sorted.remove entry actions
  some { t with routes := Sorted.update priority (fun patterns => Sorted.nonempty (Sorted.update
    pattern (fun actions => (Sorted.remove entry actions).bind Sorted.nonempty) patterns)) t.routes }

/-- One atom of a removal; the flag says whether something has been removed. -/
def removeStep [Globs] (entry : Entry) (priority : Nat) (r : Bool × RouteTable)
    (atom : EidPattern) : Bool × RouteTable :=
  match r.2.removeAtom atom entry priority with
  | some t => (true, t)
  | none => r

def remove [Globs] (t : RouteTable) (pattern : EidPattern) (entry : Entry) (priority : Nat) :
    Bool × RouteTable :=
  pattern.intoAtoms.foldl (removeStep entry priority) (false, t)

def withoutSource (t : RouteTable) (source : String) : RouteTable where
  nodeIds := t.nodeIds
  routes := t.routes.filterMap fun (priority, patterns) =>
    (Sorted.nonempty (patterns.filterMap fun (pattern, actions) =>
      (Sorted.nonempty (actions.filter (·.source ≠ source))).map (pattern, ·))).map (priority, ·)

def actionsOf (t : RouteTable) (source : String) : List Action :=
  (t.rows.flatMap (·.2)).filterMap fun e => if e.source = source then some e.action else none

/-- The first three results of `RouteTable::remove_by_source`: the next hops of
the `Via` routes, the peers and whether a service was among them. -/
structure Removed where
  vias : List Eid
  forwardPeers : List Nat
  hasLocal : Bool
  removedCount : Nat

def removeBySource (t : RouteTable) (source : String) : Removed × RouteTable :=
  let actions := t.actionsOf source
  ({ vias := (actions.filterMap fun
       | .route (.via dest) => some dest
       | _ => none).dedup
     forwardPeers := (actions.filterMap fun
       | .internal (.forward peer) => some peer
       | _ => none).dedup
     hasLocal := actions.any fun
       | .internal (.localService _) => true
       | _ => false
     removedCount := actions.length }, t.withoutSource source)

/-- `RouteTable::insert` on one atom: whether the entry is new. -/
def insertAtom [Globs] (t : RouteTable) (pattern : EidPattern) (entry : Entry) (priority : Nat) :
    Bool × RouteTable :=
  let actions := ((Sorted.get priority t.routes).bind (Sorted.get pattern)).getD []
  let (inserted, actions) := Sorted.insert entry actions
  (inserted, { t with routes := Sorted.upsert priority (fun patterns =>
    Sorted.upsert pattern (fun _ => actions) (patterns.getD [])) t.routes })

def insert [Globs] (t : RouteTable) (pattern : EidPattern) (entry : Entry) (priority : Nat) :
    Except Error (Bool × RouteTable) :=
  let inserted := pattern.intoAtoms.foldl (fun (inserted, t) atom =>
    let (new, t) := t.insertAtom atom entry priority
    (inserted || new, t)) (false, t)
  match entry.action with
  | .route (.via nextHop) =>
    if nextHop.isNull then .error .nullNextHop
    else if t.nodeIds.isLocal nextHop then .error (.viaOwnNode nextHop)
    else .ok inserted
  | _ => .ok inserted

def impactedVias [Globs] (t : RouteTable) (pattern : EidPattern) (priority : Nat) : List Eid :=
  ((t.routes.filter fun (p, _) => priority ≤ p).flatMap fun (_, patterns) =>
    (patterns.filter fun (p, _) => p.isSubset pattern).flatMap fun (_, actions) =>
      actions.filterMap fun e => match e.action with
        | .route (.via dest) => some dest
        | _ => none).dedup

/-- `RouteTable::new`: the administrative endpoints at priority 0. -/
def new [Globs] (nodeIds : NodeIds) : RouteTable where
  nodeIds := nodeIds
  routes :=
    let entry : Entry := ⟨.internal .adminEndpoint, "administrative endpoint"⟩
    let endpoints := (nodeIds.dtn.map fun name => Eid.dtn name []).toList ++
      (nodeIds.ipn.map fun fqnn => Eid.ipn fqnn 0).toList
    [(0, endpoints.foldl (fun m eid => Sorted.upsert (EidPattern.ofEid eid) (fun _ => [entry]) m)
      [])]

end RouteTable

/-! ## Lookup -/

inductive LookupResult where
  | adminEndpoint
  | deliver (service : Service)
  | forward (peer : Nat) (nextHop : Eid)
  | forwardEcmp (peers : List (Nat × Eid))
  | drop (reason : Option ReasonCode)
  | reflect
deriving DecidableEq, Repr

def sortedInsert (peer : Nat) (nextHop : Eid) : List (Nat × Eid) → List (Nat × Eid)
  | [] => [(peer, nextHop)]
  | (p, n) :: peers =>
    if peer < p then (peer, nextHop) :: (p, n) :: peers
    else if peer = p then (p, n) :: peers
    else (p, n) :: sortedInsert peer nextHop peers

def sortedInsertAll (new peers : List (Nat × Eid)) : List (Nat × Eid) :=
  new.foldl (fun peers p => sortedInsert p.1 p.2 peers) peers

/-- The entries of a pattern that matches `dest`: the peers they lead to, or the
result that ends the whole lookup.  `lookup` is the recursive call. -/
def gather (lookup : Eid → Option LookupResult) (reflect : Bool) (dest : Eid) (trail : List Eid) :
    List Entry → List (Nat × Eid) → Except LookupResult (List (Nat × Eid))
  | [], peers => .ok peers
  | e :: es, peers =>
    match e.action with
    | .route (.drop reason) => .error (.drop reason)
    | .route .reflect => if reflect then .error .reflect else gather lookup reflect dest trail es peers
    | .route (.via via) =>
      if dest ∈ trail then gather lookup reflect dest trail es peers
      else match lookup via with
        | some (.forward p n) => gather lookup reflect dest trail es (sortedInsert p n peers)
        | some (.forwardEcmp ps) => gather lookup reflect dest trail es (sortedInsertAll ps peers)
        | some other => .error other
        | none => gather lookup reflect dest trail es peers
    | .internal .adminEndpoint => .error .adminEndpoint
    | .internal (.localService service) => .error (.deliver service)
    | .internal (.forward peer) =>
      gather lookup reflect dest trail es (sortedInsert peer dest peers)

def selected : List (Nat × Eid) → Option LookupResult
  | [] => none
  | [(peer, nextHop)] => some (.forward peer nextHop)
  | peers => some (.forwardEcmp peers)

/-- The first pattern that matches `dest` and yields something. -/
def scan [Globs] (group : List Entry → Except LookupResult (List (Nat × Eid))) (dest : Eid) :
    List (EidPattern × List Entry) → Option LookupResult
  | [] => none
  | (pattern, actions) :: rows =>
    if pattern.matches dest then
      match group actions with
      | .error result => some result
      | .ok peers => (selected peers).or (scan group dest rows)
    else scan group dest rows

theorem scan_append [Globs] {group : List Entry → Except LookupResult (List (Nat × Eid))}
    {dest : Eid} {l l' : List (EidPattern × List Entry)} :
    scan group dest (l ++ l') = (scan group dest l).or (scan group dest l') := by
  induction l with
  | nil => rfl
  | cons row l ih =>
    rw [List.cons_append, scan, scan, ih]
    split
    · split
      · rfl
      · rw [Option.or_assoc]
    · rfl

namespace RouteTable

def vias (t : RouteTable) : List Eid :=
  (t.rows.flatMap (·.2)).filterMap fun e => match e.action with
    | .route (.via dest) => some dest
    | _ => none

variable [Globs]

/-- The body of `find_recurse`, to a depth of `fuel` recursive calls. -/
def findWithin (t : RouteTable) (reflect : Bool) : Nat → Eid → List Eid → Option LookupResult
  | 0, _, _ => none
  | fuel + 1, dest, trail =>
    scan (fun actions =>
      gather (fun via => t.findWithin reflect fuel via (dest :: trail)) reflect dest trail actions [])
      dest t.rows

def findRecurse (t : RouteTable) (dest : Eid) (reflect : Bool) (trail : List Eid) :
    Option LookupResult :=
  t.findWithin reflect (t.vias.length + 2) dest trail

def findPeers (t : RouteTable) (dest : Eid) : Option (List Nat) :=
  match t.findRecurse dest false [] with
  | some (.forward peer _) => some [peer]
  | some (.forwardEcmp peers) => some (peers.map (·.1))
  | _ => none

end RouteTable

end Routing

end Hardy
