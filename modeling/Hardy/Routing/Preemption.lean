import Hardy.Routing.Rib

/-!
# Queues that a new route supersedes

`Rib::add` resets the queues of the peers that `impacted_vias` leads to, in the
table with the new route.  The bundles whose lookup the new route changes can be
queued for other peers: `Rib.add_preempts_iff` says which of the two it takes.
-/

namespace Hardy.Routing

/-! ## Stored bundles -/

/-- What routing sees of a live entry of the metadata store. -/
structure Record where
  subject : Subject
  status : Bpa.BundleStatus
deriving DecidableEq, Repr

abbrev Records := List Record

namespace Records

def move (which : Bpa.BundleStatus → Bool) (parked : Bpa.BundleStatus) (rec : Record) : Record :=
  if which rec.status then { rec with status := parked } else rec

def reset (which : Bpa.BundleStatus → Bool) (parked : Bpa.BundleStatus) (s : Records) :
    Nat × Records :=
  (s.countP fun rec => which rec.status, s.map (move which parked))

def statuses (s : Records) : Statuses := s.map Record.status

variable {parked : Bpa.BundleStatus} {which : Bpa.BundleStatus → Bool}

theorem reset_eq {s : Records} :
    ((reset which parked s).1, (reset which parked s).2.statuses) =
      Statuses.reset which parked s.statuses := by
  refine Prod.ext ?_ ?_
  · simp only [reset, Statuses.reset, statuses, List.countP_map]
    rfl
  · simp only [reset, Statuses.reset, statuses, List.map_map]
    refine List.map_congr_left fun rec _ => ?_
    simp only [Function.comp_apply, move]
    split <;> rfl

theorem reset_fst {s : Records} :
    (reset which parked s).1 = (Statuses.reset which parked s.statuses).1 :=
  congrArg Prod.fst reset_eq

theorem statuses_reset {s : Records} :
    (reset which parked s).2.statuses = (Statuses.reset which parked s.statuses).2 :=
  congrArg Prod.snd reset_eq

instance : QueueResets Records where
  resetPeerQueue p := reset (Statuses.isQueued p) .waiting
  resetPeerAckPending p := reset (Statuses.isInFlight p) .waiting
  resetServiceQueue e := reset (Statuses.isDelivering e) (.waitingForService e)
  queued p s := QueueResets.queued p s.statuses
  inFlight p s := QueueResets.inFlight p s.statuses
  resetPeerQueue_count p s := by
    rw [reset_fst]
    exact QueueResets.resetPeerQueue_count p s.statuses
  queued_resetPeerQueue p q s := by
    rw [statuses_reset]
    exact QueueResets.queued_resetPeerQueue p q s.statuses
  inFlight_resetPeerQueue p q s := by
    rw [statuses_reset]
    exact QueueResets.inFlight_resetPeerQueue p q s.statuses
  resetPeerAckPending_count p s := by
    rw [reset_fst]
    exact QueueResets.resetPeerAckPending_count p s.statuses
  queued_resetPeerAckPending p q s := by
    rw [statuses_reset]
    exact QueueResets.queued_resetPeerAckPending p q s.statuses
  inFlight_resetPeerAckPending p q s := by
    rw [statuses_reset]
    exact QueueResets.inFlight_resetPeerAckPending p q s.statuses

def queuedForAny (peers : List Nat) (status : Bpa.BundleStatus) : Bool :=
  peers.any fun p => Statuses.isQueued p status

theorem queuedForAny_forwardPending {peers : List Nat} {peer queue : Nat} {nextHop : Eid} :
    queuedForAny peers (.forwardPending peer queue nextHop) = true ↔ peer ∈ peers := by
  simp [queuedForAny, Statuses.isQueued, List.any_eq_true]

theorem move_move {which which' : Bpa.BundleStatus → Bool}
    (h : which' parked = false) (rec : Record) :
    move which' parked (move which parked rec) =
      move (fun status => which status || which' status) parked rec := by
  by_cases hw : which rec.status = true
  · simp [move, hw, h]
  · simp [move, hw]

end Records

/-! ## The resets of `Rib::add` -/

namespace Rib

def parking (r : Rib Records) (peers : List Nat) : Rib Records :=
  { r with store := r.store.map (Records.move (Records.queuedForAny peers) .waiting) }

theorem parking_nil (r : Rib Records) : r.parking [] = r := by
  have hid : Records.move (Records.queuedForAny []) .waiting = id := rfl
  rw [parking, hid, List.map_id]

theorem parking_append (r : Rib Records) (peers peers' : List Nat) :
    (r.parking peers).parking peers' = r.parking (peers ++ peers') := by
  have hwaiting : Records.queuedForAny peers' .waiting = false := by
    simp [Records.queuedForAny, Statuses.isQueued]
  simp only [parking, List.map_map]
  congr 1
  refine List.map_congr_left fun rec _ => ?_
  rw [Function.comp_apply, Records.move_move hwaiting]
  congr 1
  funext status
  simp [Records.queuedForAny]

theorem resetAll_parking {α : Type} {reset : Rib Records → α → Bool × Rib Records}
    {peersOf : RouteTable → α → List Nat}
    (h : ∀ r key, (reset r key).2 = r.parking (peersOf r.table key)) (r : Rib Records)
    (keys : List α) : (resetAll reset r keys).2 = r.parking (keys.flatMap (peersOf r.table)) := by
  have hfold : ∀ (keys : List α) (moved : Bool) (r : Rib Records),
      (keys.foldl (fun acc key => (acc.1 || (reset acc.2 key).1, (reset acc.2 key).2))
        (moved, r)).2 = r.parking (keys.flatMap (peersOf r.table)) := by
    intro keys
    induction keys with
    | nil => exact fun _ r => (r.parking_nil).symm
    | cons key keys ih =>
      intro moved r
      rw [List.foldl_cons, ih, h, parking_append, List.flatMap_cons]
      rfl
  exact hfold keys false r

theorem resetPeerQueues_parking (r : Rib Records) (peers : List Nat) :
    (r.resetPeerQueues peers).2 = r.parking peers := by
  let peersOf : RouteTable → Nat → List Nat := fun _ p => [p]
  have hone : ∀ (r : Rib Records) (p : Nat),
      (r.resetPeerQueue p).2 = r.parking (peersOf r.table p) := by
    intro r p
    show _ = r.parking [p]
    have hsame : Records.queuedForAny [p] = Statuses.isQueued p := by
      funext status
      simp [Records.queuedForAny]
    rw [parking, hsame]
    rfl
  rw [resetPeerQueues, resetAll_parking hone, List.flatMap_singleton']

variable [Globs]

def peersVia (t : RouteTable) (via : Eid) : List Nat := (t.findPeers via).getD []

theorem resetVia_parking (r : Rib Records) (via : Eid) :
    (r.resetVia via).2 = r.parking (peersVia r.table via) := by
  rw [resetVia, peersVia]
  cases r.table.findPeers via with
  | none => exact (r.parking_nil).symm
  | some peers => exact r.resetPeerQueues_parking peers

def preempted (t : RouteTable) (pattern : EidPattern) (priority : Nat) : List Nat :=
  (t.impactedVias pattern priority).flatMap (peersVia t)

theorem mem_impactedVias {t : RouteTable} {pattern : EidPattern} {priority : Nat} {via : Eid} :
    via ∈ t.impactedVias pattern priority ↔
      ∃ k rows p actions e, (k, rows) ∈ t.routes ∧ priority ≤ k ∧ (p, actions) ∈ rows ∧
        p.isSubset pattern = true ∧ e ∈ actions ∧ e.action = .route (.via via) := by
  simp only [RouteTable.impactedVias, List.mem_dedup, List.mem_flatMap, List.mem_filter,
    List.mem_filterMap]
  constructor
  · rintro ⟨⟨k, rows⟩, ⟨hrows, hk⟩, ⟨p, actions⟩, ⟨hactions, hp⟩, e, he, hvia⟩
    refine ⟨k, rows, p, actions, e, hrows, of_decide_eq_true hk, hactions, hp, he, ?_⟩
    split at hvia
    · rename_i hact
      rw [hact, Option.some.inj hvia]
    · cases hvia
  · rintro ⟨k, rows, p, actions, e, hrows, hk, hactions, hp, he, hact⟩
    exact ⟨(k, rows), ⟨hrows, decide_eq_true hk⟩, (p, actions), ⟨hactions, hp⟩, e, he, by rw [hact]⟩

theorem add_route {r : Rib Records} {pattern : EidPattern} {source : String}
    {action : RouteAction} {priority : Nat} {inserted : Bool} {r' : Rib Records} :
    r.add pattern source (.route action) priority = .ok (inserted, r') ↔
      (r.published pattern source (.route action) priority = .ok none ∧ inserted = false ∧ r' = r) ∨
      ∃ t, r.published pattern source (.route action) priority = .ok (some t) ∧ inserted = true ∧
        r' = notifyIf true
          (({ r with table := t } : Rib Records).parking
            (preempted t (r.expandPattern pattern) priority)) := by
  rw [add]
  rcases hp : r.published pattern source (.route action) priority with e | (_ | t)
  · simp [bind, Except.bind]
  · simp [bind, Except.bind, pure, Except.pure, eq_comm]
  · have hresets := resetAll_parking resetVia_parking ({ r with table := t } : Rib Records)
      (t.impactedVias (r.expandPattern pattern) priority)
    have hwake : (Action.route action != .internal .adminEndpoint) = true :=
      bne_iff_ne.mpr (by simp)
    simp [hwake, bind, Except.bind, pure, Except.pure, hresets, preempted, eq_comm]

/-- The lookup forwards the bundle to the peer. -/
def Selects (r : Rib Records) (b : Subject) (peer : Nat) : Prop :=
  ∃ nextHop, r.find b = some (.forward peer nextHop)

/-- A stored bundle is queued for a peer that its lookup selects no more in the
table `t`. -/
def Superseded (r : Rib Records) (t : RouteTable) (b : Subject) (peer : Nat) : Prop :=
  (∃ queue nextHop, ⟨b, .forwardPending peer queue nextHop⟩ ∈ r.store) ∧ r.Selects b peer ∧
    ¬ ({ r with table := t } : Rib Records).Selects b peer

/-- A `Via` entry at the priority or after it, under a pattern that `pattern`
covers, leads to the peer. -/
def Led (t : RouteTable) (pattern : EidPattern) (priority peer : Nat) : Prop :=
  ∃ k rows p actions e via peers, (k, rows) ∈ t.routes ∧ priority ≤ k ∧ (p, actions) ∈ rows ∧
    p.isSubset pattern = true ∧ e ∈ actions ∧ e.action = .route (.via via) ∧
    t.findPeers via = some peers ∧ peer ∈ peers

theorem mem_preempted {t : RouteTable} {pattern : EidPattern} {priority peer : Nat} :
    peer ∈ preempted t pattern priority ↔ Led t pattern priority peer := by
  simp only [preempted, peersVia, List.mem_flatMap, mem_impactedVias, Led]
  constructor
  · rintro ⟨via, ⟨k, rows, p, actions, e, hrows, hk, hactions, hp, he, hact⟩, hpeer⟩
    cases hpeers : t.findPeers via with
    | none => simp [hpeers] at hpeer
    | some peers =>
      rw [hpeers] at hpeer
      exact ⟨k, rows, p, actions, e, via, peers, hrows, hk, hactions, hp, he, hact, hpeers, hpeer⟩
  · rintro ⟨k, rows, p, actions, e, via, peers, hrows, hk, hactions, hp, he, hact, hpeers, hpeer⟩
    exact ⟨via, ⟨k, rows, p, actions, e, hrows, hk, hactions, hp, he, hact⟩,
      by rw [hpeers]; exact hpeer⟩

/-- A new route preempts every queue that it supersedes, exactly where the
peers of these queues are still led to by a `Via` entry below the route. -/
theorem add_preempts_iff (r : Rib Records) (pattern : EidPattern) (source : String)
    (action : RouteAction) (priority : Nat) :
    (∀ inserted r', r.add pattern source (.route action) priority = .ok (inserted, r') →
      ∀ (i : Nat) b peer queue nextHop, r.store[i]? = some ⟨b, .forwardPending peer queue nextHop⟩ →
        r.Selects b peer → ¬ r'.Selects b peer → r'.store[i]? = some ⟨b, .waiting⟩) ↔
      ∀ t, r.published pattern source (.route action) priority = .ok (some t) →
        ∀ b peer, r.Superseded t b peer → Led t (r.expandPattern pattern) priority peer := by
  have hselects : ∀ t peers b peer,
      (notifyIf true (({ r with table := t } : Rib Records).parking peers)).Selects b peer ↔
        ({ r with table := t } : Rib Records).Selects b peer := fun _ _ _ _ => Iff.rfl
  have hstored : ∀ t peers (i : Nat) b peer queue nextHop,
      r.store[i]? = some ⟨b, .forwardPending peer queue nextHop⟩ →
      (notifyIf true (({ r with table := t } : Rib Records).parking peers)).store[i]? =
        some (if peer ∈ peers then ⟨b, .waiting⟩ else ⟨b, .forwardPending peer queue nextHop⟩) := by
    intro t peers i b peer queue nextHop hi
    simp only [notifyIf, if_true, parking, List.getElem?_map, hi, Option.map_some, Records.move,
      Records.queuedForAny_forwardPending]
  constructor
  · rintro h t ht b peer ⟨⟨queue, nextHop, hmem⟩, hold, hnew⟩
    obtain ⟨i, hi⟩ := List.mem_iff_getElem?.mp hmem
    have hadd := add_route.mpr (.inr ⟨t, ht, rfl, rfl⟩)
    have hwaiting := h true _ hadd i b peer queue nextHop hi hold ((hselects _ _ _ _).not.mpr hnew)
    rw [hstored t _ i b peer queue nextHop hi] at hwaiting
    refine mem_preempted.mp ?_
    by_contra hpeer
    rw [if_neg hpeer] at hwaiting
    cases hwaiting
  · intro h inserted r' hadd i b peer queue nextHop hi hold hnew
    rcases add_route.mp hadd with ⟨-, -, rfl⟩ | ⟨t, ht, -, rfl⟩
    · exact absurd hold hnew
    · have hsuper : r.Superseded t b peer :=
        ⟨⟨queue, nextHop, List.mem_of_getElem? hi⟩, hold, (hselects _ _ _ _).not.mp hnew⟩
      rw [hstored t _ i b peer queue nextHop hi, if_pos (mem_preempted.mpr (h t ht b peer hsuper))]

end Rib

/-! ## A drop inside a broader route

Node 5 is reached over node 4, and then one endpoint of node 5 is to be
dropped. -/

namespace Exception

local instance : Globs := .literal

def node (n : Nat) : EidPattern := .ofIpnNodeId ⟨0, n⟩

def endpoint : Eid := .ipn ⟨0, 5⟩ 1

def subject : Subject := ⟨endpoint, .ipn ⟨0, 9⟩ 1, none, none⟩

def record : Record := ⟨subject, .forwardPending 77 0 (.ipn ⟨0, 4⟩ 0)⟩

def rib : Rib Records where
  table := { nodeIds := ⟨some ⟨0, 1⟩, none⟩
             routes := [(0, [(node 4, [⟨.internal (.forward 77), "neighbours"⟩])]),
               (20, [(node 5, [⟨.route (.via (.ipn ⟨0, 4⟩ 0)), "static"⟩])])] }
  ecmpHash := fun _ => 0
  store := [record]
  wakeups := 0

/-- The bundle stays in the queue of the peer, while its lookup says to drop
it. -/
theorem exception_not_preempted :
    rib.find subject = some (.forward 77 (.ipn ⟨0, 4⟩ 0)) ∧
    ∃ r', rib.add (.ofEid endpoint) "static" (.route (.drop none)) 10 =
        .ok (true, r') ∧
      r'.find subject = some (.drop none) ∧ r'.store = [record] := by
  refine ⟨by decide, _, rfl, ?_, ?_⟩ <;> decide

end Exception

end Hardy.Routing
