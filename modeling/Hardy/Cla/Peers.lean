import Hardy.Machine
import Mathlib.Algebra.Order.Ring.Nat
import Mathlib.Data.Finset.Basic

/-!
# Peers

Model of `bpa/src/cla/peers.rs` and of the peer calls of `bpa/src/cla/registry.rs`
with their part of the route table: the interleaving of `add_peer`, `remove_peer`
and `unregister_cla`, each cut at its locks and awaits.

A CLA is known by the number of its `Arc<Cla>`, and a node id by the pattern
under which the table has its `Forward` entries.
-/

namespace Hardy.Cla

section

variable (α ν : Type)

structure Held where
  addr : α
  nodes : List ν
  peer : Nat
deriving DecidableEq

/-- A peer that goes, with the nodes whose routes are still to withdraw. -/
structure Job where
  nodes : List ν
  peer : Nat
deriving DecidableEq

inductive Stage where
  /-- The id is minted. -/
  | reserved
  /-- The address is taken by another peer. -/
  | declined
  | claimed
  /-- `Peer::start` has returned, with open queues. -/
  | built
  | published
  /-- The entry was still there; these nodes have no route yet. -/
  | routing (rest : List ν)
deriving DecidableEq

inductive Call where
  | adding (cla : Nat) (held : Held α ν) (stage : Stage ν)
  /-- `unregister_cla`, before it takes the peer map. -/
  | unregistering (cla : Nat)
  | removing (jobs : List (Job ν))
  /-- The first peer is out of the table, its queues are to be closed. -/
  | closing (job : Job ν) (jobs : List (Job ν))
  | unrouting (job : Job ν) (jobs : List (Job ν))
deriving DecidableEq

end

inductive Registered where
  | absent
  | present
  | gone
deriving DecidableEq

structure State (α ν : Type) where
  clas : Nat → Registered
  /-- `Cla::peers` -/
  peers : Nat → List (Held α ν)
  /-- `PeerTableInner::peers` -/
  table : Finset Nat
  reserved : Finset Nat
  next : Nat
  /-- The peers with open queues. -/
  queues : Finset Nat
  /-- The `Forward` entries. -/
  routes : Finset (ν × Nat)
  calls : Nat → Option (Call α ν)

inductive Label (α ν : Type) where
  | registerCla (cla : Nat)
  | addPeer (k : Nat) (cla : Nat) (addr : α) (nodes : List ν)
  | removePeer (k : Nat) (cla : Nat) (addr : α)
  | unregister (k : Nat) (cla : Nat)
  | go (k : Nat)

variable {α ν : Type} [DecidableEq α] [DecidableEq ν]

namespace State

open Function (update)

omit [DecidableEq α] [DecidableEq ν] in
def setCall (s : State α ν) (k : Nat) (c : Option (Call α ν)) : State α ν :=
  { s with calls := update s.calls k c }

/-- The loop of `reserve`, for at most `fuel` rounds. -/
def mint (s : State α ν) : Nat → Nat → Option Nat
  | 0, _ => none
  | fuel + 1, next =>
    let id := (next + 1) % 2 ^ 32
    if id ∈ s.table ∨ id ∈ s.reserved then s.mint fuel id else some id

/-- `cla.peers.lock().get` -/
def entry (s : State α ν) (cla : Nat) (addr : α) : Option (Held α ν) :=
  (s.peers cla).find? (·.addr = addr)

/-- `add_peer`, up to the reservation. -/
def addPeer (s : State α ν) (k cla : Nat) (addr : α) (nodes : List ν) : Option (State α ν) :=
  if s.clas cla = .absent ∨ (s.calls k).isSome then none
  else (s.mint (2 ^ 32) s.next).map fun id =>
    { s.setCall k (some (.adding cla ⟨addr, nodes, id⟩ .reserved)) with
      reserved := insert id s.reserved
      next := id }

/-- `remove_peer`, up to the removal from the peer map. -/
def removePeer (s : State α ν) (k cla : Nat) (addr : α) : Option (State α ν) :=
  if s.clas cla = .absent ∨ (s.calls k).isSome then none
  else (s.entry cla addr).map fun h =>
    { s.setCall k (some (.removing [⟨h.nodes, h.peer⟩])) with
      peers := update s.peers cla ((s.peers cla).filter (·.addr ≠ addr)) }

/-- `unregister`, up to the removal from the registry. -/
def unregister (s : State α ν) (k cla : Nat) : Option (State α ν) :=
  if s.clas cla ≠ .present ∨ (s.calls k).isSome then none
  else some { s.setCall k (some (.unregistering cla)) with clas := update s.clas cla .gone }

def goAdding (s : State α ν) (k cla : Nat) (h : Held α ν) : Stage ν → State α ν
  | .reserved =>
    if (s.entry cla h.addr).isSome then s.setCall k (some (.adding cla h .declined))
    else { s.setCall k (some (.adding cla h .claimed)) with
      peers := update s.peers cla (h :: s.peers cla) }
  | .declined => { s.setCall k none with reserved := s.reserved.erase h.peer }
  | .claimed =>
    { s.setCall k (some (.adding cla h .built)) with queues := insert h.peer s.queues }
  | .built => { s.setCall k (some (.adding cla h .published)) with
      reserved := s.reserved.erase h.peer
      table := insert h.peer s.table }
  | .published =>
    if (s.entry cla h.addr).any (·.peer = h.peer) then
      s.setCall k (some (.adding cla h (.routing h.nodes)))
    else s.setCall k (some (.removing [⟨[], h.peer⟩]))
  | .routing (n :: rest) =>
    { s.setCall k (some (.adding cla h (.routing rest))) with
      routes := insert (n, h.peer) s.routes }
  | .routing [] => s.setCall k none

def goOn (s : State α ν) (k : Nat) : Call α ν → State α ν
  | .adding cla h stage => s.goAdding k cla h stage
  | .unregistering cla =>
    { s.setCall k (some (.removing ((s.peers cla).map fun h => ⟨h.nodes, h.peer⟩))) with
      peers := update s.peers cla [] }
  | .removing [] => s.setCall k none
  | .removing (job :: jobs) =>
    if job.peer ∈ s.table then
      { s.setCall k (some (.closing job jobs)) with table := s.table.erase job.peer }
    else s.setCall k (some (.unrouting job jobs))
  | .closing job jobs =>
    { s.setCall k (some (.unrouting job jobs)) with queues := s.queues.erase job.peer }
  | .unrouting ⟨[], _⟩ jobs => s.setCall k (some (.removing jobs))
  | .unrouting ⟨n :: nodes, peer⟩ jobs =>
    { s.setCall k (some (.unrouting ⟨nodes, peer⟩ jobs)) with
      routes := s.routes.erase (n, peer) }

def step (s : State α ν) : Label α ν → Option (State α ν)
  | .registerCla cla =>
    if s.clas cla = .absent then some { s with clas := update s.clas cla .present } else none
  | .addPeer k cla addr nodes => s.addPeer k cla addr nodes
  | .removePeer k cla addr => s.removePeer k cla addr
  | .unregister k cla => s.unregister k cla
  | .go k => (s.calls k).map (s.goOn k)

def Quiescent (s : State α ν) : Prop := ∀ k, s.calls k = none

/-- The routes lead to the published peers that the registered CLAs hold. -/
def Agree (s : State α ν) : Prop :=
  ∀ n peer, (n, peer) ∈ s.routes ↔ peer ∈ s.table ∧
    ∃ cla, s.clas cla = .present ∧ ∃ h ∈ s.peers cla, h.peer = peer ∧ n ∈ h.nodes

/-- No route and no queue is for the id of a peer that is yet to be built. -/
def Fresh (s : State α ν) : Prop :=
  ∀ k cla h, s.calls k = some (.adding cla h .reserved) →
    (∀ n, (n, h.peer) ∉ s.routes) ∧ h.peer ∉ s.queues

end State

/-! ## Removals and additions that do not overlap -/

@[grind =] def Call.jobs : Call α ν → List (Job ν)
  | .removing jobs => jobs
  | .closing job jobs | .unrouting job jobs => job :: jobs
  | _ => []

@[grind =] def Stage.unclaimed : Stage ν → Bool
  | .reserved | .declined => true
  | _ => false

@[grind =] def Stage.reserving : Stage ν → Bool
  | .published | .routing _ => false
  | _ => true

@[grind =] def Stage.todo (nodes : List ν) : Stage ν → List ν
  | .routing rest => rest
  | _ => nodes

namespace State

open Function (update)

def Pending (s : State α ν) (n : ν) (peer : Nat) : Prop :=
  ∃ k call job, s.calls k = some call ∧ job ∈ call.jobs ∧ job.peer = peer ∧ n ∈ job.nodes

def Past (s : State α ν) (peer : Nat) : Prop :=
  (∃ k c h st, s.calls k = some (.adding c h st) ∧ h.peer = peer ∧ st.reserving = false) ∨
    ∃ k call job, s.calls k = some call ∧ job ∈ call.jobs ∧ job.peer = peer

/-- A new peer gets an id that no call works on, a CLA that is torn down gets no
entry, and a route is added only for a peer that is held or whose routes are still
to be withdrawn. -/
def Apart (s : State α ν) : Label α ν → Prop
  | .addPeer .. => ∀ id, s.mint (2 ^ 32) s.next = some id → ¬s.Past id
  | .go k => ∀ c h st, s.calls k = some (.adding c h st) → match st with
      | .reserved => (s.entry c h.addr).isSome ∨ s.clas c = .present ∨
          (∃ k', s.calls k' = some (.unregistering c)) ∨ h.nodes = []
      | .routing (n :: _) => (∃ c', ∃ h' ∈ s.peers c', h'.peer = h.peer) ∨ s.Pending n h.peer
      | _ => True
  | _ => True

inductive Move (s : State α ν) : State α ν → Prop where
  | registerCla {c : Nat} : s.clas c = .absent →
      Move s { s with clas := update s.clas c .present }
  | reserve {k c : Nat} {h : Held α ν} : s.calls k = none → h.peer ∉ s.table →
      h.peer ∉ s.reserved → ¬s.Past h.peer →
      Move s { s.setCall k (some (.adding c h .reserved)) with
        reserved := insert h.peer s.reserved
        next := h.peer }
  | decline {k c : Nat} {h : Held α ν} : s.calls k = some (.adding c h .reserved) →
      Move s (s.setCall k (some (.adding c h .declined)))
  | abandon {k c : Nat} {h : Held α ν} : s.calls k = some (.adding c h .declined) →
      Move s { s.setCall k none with reserved := s.reserved.erase h.peer }
  | claim {k c : Nat} {h : Held α ν} : s.calls k = some (.adding c h .reserved) →
      (∀ h' ∈ s.peers c, h'.addr ≠ h.addr) →
      (s.clas c = .present ∨ (∃ k', s.calls k' = some (.unregistering c)) ∨ h.nodes = []) →
      Move s { s.setCall k (some (.adding c h .claimed)) with
        peers := update s.peers c (h :: s.peers c) }
  | build {k c : Nat} {h : Held α ν} : s.calls k = some (.adding c h .claimed) →
      Move s { s.setCall k (some (.adding c h .built)) with queues := insert h.peer s.queues }
  | publish {k c : Nat} {h : Held α ν} : s.calls k = some (.adding c h .built) →
      Move s { s.setCall k (some (.adding c h .published)) with
        reserved := s.reserved.erase h.peer
        table := insert h.peer s.table }
  | keep {k c : Nat} {h : Held α ν} : s.calls k = some (.adding c h .published) →
      Move s (s.setCall k (some (.adding c h (.routing h.nodes))))
  | withdraw {k c : Nat} {h : Held α ν} : s.calls k = some (.adding c h .published) →
      (∀ h' ∈ s.peers c, h'.addr = h.addr → h'.peer ≠ h.peer) →
      Move s (s.setCall k (some (.removing [⟨[], h.peer⟩])))
  | addRoute {k c : Nat} {h : Held α ν} {n : ν} {rest : List ν} :
      s.calls k = some (.adding c h (.routing (n :: rest))) →
      (∃ c', ∃ h' ∈ s.peers c', h'.peer = h.peer) ∨ s.Pending n h.peer →
      Move s { s.setCall k (some (.adding c h (.routing rest))) with
        routes := insert (n, h.peer) s.routes }
  | added {k c : Nat} {h : Held α ν} : s.calls k = some (.adding c h (.routing [])) →
      Move s (s.setCall k none)
  | take {k c : Nat} {h : Held α ν} : s.calls k = none → h ∈ s.peers c →
      Move s { s.setCall k (some (.removing [⟨h.nodes, h.peer⟩])) with
        peers := update s.peers c ((s.peers c).filter (·.addr ≠ h.addr)) }
  | unregister {k c : Nat} : s.calls k = none → s.clas c = .present →
      Move s { s.setCall k (some (.unregistering c)) with clas := update s.clas c .gone }
  | takeAll {k c : Nat} : s.calls k = some (.unregistering c) →
      Move s { s.setCall k (some (.removing ((s.peers c).map fun h => ⟨h.nodes, h.peer⟩))) with
        peers := update s.peers c [] }
  | removed {k : Nat} : s.calls k = some (.removing []) → Move s (s.setCall k none)
  | drop {k : Nat} {job : Job ν} {jobs : List (Job ν)} :
      s.calls k = some (.removing (job :: jobs)) → job.peer ∈ s.table →
      Move s { s.setCall k (some (.closing job jobs)) with table := s.table.erase job.peer }
  | skip {k : Nat} {job : Job ν} {jobs : List (Job ν)} :
      s.calls k = some (.removing (job :: jobs)) → job.peer ∉ s.table →
      Move s (s.setCall k (some (.unrouting job jobs)))
  | close {k : Nat} {job : Job ν} {jobs : List (Job ν)} :
      s.calls k = some (.closing job jobs) →
      Move s { s.setCall k (some (.unrouting job jobs)) with
        queues := s.queues.erase job.peer }
  | unrouted {k peer : Nat} {jobs : List (Job ν)} :
      s.calls k = some (.unrouting ⟨[], peer⟩ jobs) →
      Move s (s.setCall k (some (.removing jobs)))
  | removeRoute {k peer : Nat} {n : ν} {nodes : List ν} {jobs : List (Job ν)} :
      s.calls k = some (.unrouting ⟨n :: nodes, peer⟩ jobs) →
      Move s { s.setCall k (some (.unrouting ⟨nodes, peer⟩ jobs)) with
        routes := s.routes.erase (n, peer) }

def Reserved (s : State α ν) : Prop :=
  ∀ k c h st, s.calls k = some (.adding c h st) → st.reserving = true →
    h.peer ∈ s.reserved ∧ h.peer ∉ s.table

def Sole (s : State α ν) : Prop :=
  ∀ k c h st k' c' h' st', s.calls k = some (.adding c h st) →
    s.calls k' = some (.adding c' h' st') → h.peer = h'.peer → k = k'

def Single (s : State α ν) : Prop :=
  ∀ c h c' h', h ∈ s.peers c → h' ∈ s.peers c' → h.peer = h'.peer → c = c' ∧ h = h'

def Address (s : State α ν) : Prop :=
  ∀ c h h', h ∈ s.peers c → h' ∈ s.peers c → h.addr = h'.addr → h = h'

def Own (s : State α ν) : Prop :=
  ∀ k c h st c' h', s.calls k = some (.adding c h st) → h' ∈ s.peers c' →
    h.peer = h'.peer → c = c' ∧ h = h' ∧ st.unclaimed = false

def Stays (s : State α ν) : Prop :=
  ∀ c h k call job, h ∈ s.peers c → s.calls k = some call → job ∈ call.jobs →
    job.peer ≠ h.peer

def Unclaimed (s : State α ν) : Prop :=
  ∀ k c h st k' call job, s.calls k = some (.adding c h st) → st.unclaimed = true →
    s.calls k' = some call → job ∈ call.jobs → job.peer ≠ h.peer

def Live (s : State α ν) : Prop :=
  ∀ c h, h ∈ s.peers c → h.peer ∈ s.table ∨
    ∃ k st, s.calls k = some (.adding c h st) ∧ st.reserving = true

def Home (s : State α ν) : Prop :=
  ∀ c h, h ∈ s.peers c → s.clas c = .present ∨
    (∃ k, s.calls k = some (.unregistering c)) ∨ h.nodes = []

def Todo (s : State α ν) : Prop :=
  ∀ k c h st n, s.calls k = some (.adding c h st) → n ∈ st.todo h.nodes → n ∈ h.nodes

def Route (s : State α ν) : Prop :=
  ∀ n peer, (n, peer) ∈ s.routes →
    (∃ c h, h ∈ s.peers c ∧ h.peer = peer ∧ n ∈ h.nodes ∧ peer ∈ s.table) ∨ s.Pending n peer

/-- A node of a peer that is held has its route, or the call that adds the peer is
to get there. -/
def Routed (s : State α ν) : Prop :=
  ∀ c h n, h ∈ s.peers c → n ∈ h.nodes → (n, h.peer) ∈ s.routes ∨
    ∃ k st, s.calls k = some (.adding c h st) ∧ n ∈ st.todo h.nodes

def Queue (s : State α ν) : Prop :=
  ∀ peer, peer ∈ s.queues → peer ∈ s.table ∨
    (∃ k c h, s.calls k = some (.adding c h .built) ∧ h.peer = peer) ∨
    ∃ k job jobs, s.calls k = some (.closing job jobs) ∧ job.peer = peer

structure Inv (s : State α ν) : Prop where
  reserved : s.Reserved
  sole : s.Sole
  single : s.Single
  address : s.Address
  own : s.Own
  stays : s.Stays
  unclaimed : s.Unclaimed
  live : s.Live
  home : s.Home
  todo : s.Todo
  route : s.Route
  routed : s.Routed
  queue : s.Queue

variable {s s' : State α ν}

/-! ### What a step leaves, and what it brings -/

theorem Move.held (hm : Move s s') {c : Nat} {h : Held α ν} (hh : h ∈ s'.peers c) :
    h ∈ s.peers c ∨ ∃ k, s.calls k = some (.adding c h .reserved) ∧
      s'.calls k = some (.adding c h .claimed) := by
  cases hm <;> simp only [setCall, Function.update_apply] at * <;> grind

omit [DecidableEq α] [DecidableEq ν] in
theorem pending_of_job {k : Nat} {call : Call α ν} {j : Job ν} (hk : s.calls k = some call)
    (hj : j ∈ call.jobs) : ∀ n ∈ j.nodes, s.Pending n j.peer :=
  fun _ hn => ⟨k, call, j, hk, hj, rfl, hn⟩

theorem Move.kept (hm : Move s s') (ha : s.Address) {c : Nat} {h : Held α ν}
    (hh : h ∈ s.peers c) : h ∈ s'.peers c ∨ ∀ n ∈ h.nodes, s'.Pending n h.peer := by
  cases hm with
  | @take k c' h' hk htaken =>
    by_cases hsame : c = c' ∧ h.addr = h'.addr
    · obtain ⟨rfl, haddr⟩ := hsame
      cases ha c h h' hh htaken haddr
      exact .inr (pending_of_job (j := ⟨h.nodes, h.peer⟩) (Function.update_self ..)
        (List.mem_singleton_self _))
    · left
      simp only [Function.update_apply]
      grind
  | @takeAll k c' hk =>
    by_cases hc : c = c'
    · subst hc
      exact .inr (pending_of_job (j := ⟨h.nodes, h.peer⟩) (Function.update_self ..)
        (List.mem_map.mpr ⟨h, hh, rfl⟩))
    · left
      simpa [hc, setCall] using hh
  | _ => simp only [setCall, Function.update_apply] at *; grind

theorem Move.job (hm : Move s s') {k : Nat} {call : Call α ν} {job : Job ν}
    (hk : s'.calls k = some call) (hj : job ∈ call.jobs) :
    (∃ k₀ call₀ job₀, s.calls k₀ = some call₀ ∧ job₀ ∈ call₀.jobs ∧ job₀.peer = job.peer) ∨
    (∃ c h, h ∈ s.peers c ∧ h.peer = job.peer ∧ h ∉ s'.peers c) ∨
    ∃ k₀ c h, s.calls k₀ = some (.adding c h .published) ∧ h.peer = job.peer ∧
      h ∉ s'.peers c := by
  cases hm with
  | @removeRoute k' peer n nodes jobs hk' =>
    simp only [setCall, Function.update_apply] at hk
    split at hk
    · cases hk
      rcases List.mem_cons.mp hj with rfl | hj
      · exact .inl ⟨_, _, ⟨n :: nodes, peer⟩, hk', List.mem_cons_self, rfl⟩
      · exact .inl ⟨_, _, job, hk', List.mem_cons_of_mem _ hj, rfl⟩
    · exact .inl ⟨_, _, job, hk, hj, rfl⟩
  | _ => simp only [setCall, Function.update_apply] at *; grind

theorem Move.pending (hm : Move s s') {n : ν} {peer : Nat} (hp : s.Pending n peer) :
    s'.Pending n peer ∨ (n, peer) ∉ s'.routes := by
  obtain ⟨k, call, job, hk, hj, rfl, hn⟩ := hp
  cases hm with
  | @removeRoute k' peer' n' nodes jobs hk' =>
    by_cases hkk : k = k'
    · subst hkk
      cases hk.symm.trans hk'
      rcases List.mem_cons.mp hj with rfl | hj
      · rcases List.mem_cons.mp hn with rfl | hn
        · exact .inr (Finset.notMem_erase _ _)
        · exact .inl (pending_of_job (j := ⟨nodes, peer'⟩) (Function.update_self ..)
            List.mem_cons_self n hn)
      · exact .inl (pending_of_job (Function.update_self ..) (List.mem_cons_of_mem _ hj) n hn)
    · refine .inl (pending_of_job (k := k) ?_ hj n hn)
      simpa [hkk, setCall] using hk
  | _ => simp only [setCall, Function.update_apply, Pending] at *; grind

theorem Move.table (hm : Move s s') {peer : Nat} (ht : peer ∈ s.table) : peer ∈ s'.table ∨
    ∃ k call job, s.calls k = some call ∧ job ∈ call.jobs ∧ job.peer = peer := by
  cases hm with
  | @drop k job jobs hk =>
    by_cases hp : peer = job.peer
    · exact .inr ⟨k, _, job, hk, List.mem_cons_self, hp.symm⟩
    · exact .inl (Finset.mem_erase.mpr ⟨hp, ht⟩)
  | publish => exact .inl (Finset.mem_insert_of_mem ht)
  | _ => exact .inl ht

theorem Move.adding (hm : Move s s') {k c : Nat} {h : Held α ν} {st : Stage ν}
    (hk : s'.calls k = some (.adding c h st)) :
    (st = .reserved ∧ s.calls k = none ∧ h.peer ∉ s.table ∧ h.peer ∉ s.reserved ∧
      ¬s.Past h.peer) ∨
    ∃ st₀, s.calls k = some (.adding c h st₀) ∧
      (st.unclaimed = true → st₀.unclaimed = true) ∧
      (st.reserving = true → st₀.reserving = true) ∧
      (∀ n ∈ st.todo h.nodes, n ∈ h.nodes ∨ n ∈ st₀.todo h.nodes) := by
  cases hm <;> simp only [setCall, Function.update_apply] at * <;> grind

theorem Move.routes (hm : Move s s') {n : ν} {peer : Nat} (hin : (n, peer) ∈ s'.routes) :
    (n, peer) ∈ s.routes ∨ ∃ k c h rest, s.calls k = some (.adding c h (.routing (n :: rest))) ∧
      h.peer = peer ∧ ((∃ c' h', h' ∈ s.peers c' ∧ h'.peer = h.peer) ∨ s.Pending n h.peer) := by
  cases hm with
  | @addRoute k c h n' rest hk hcond =>
    rcases Finset.mem_insert.mp hin with heq | hin
    · cases heq
      exact .inr ⟨k, c, h, rest, hk, rfl, hcond⟩
    · exact .inl hin
  | removeRoute => exact .inl (Finset.mem_of_mem_erase hin)
  | _ => exact .inl hin

theorem Move.kept_route (hm : Move s s') {n : ν} {peer : Nat} (hin : (n, peer) ∈ s.routes) :
    (n, peer) ∈ s'.routes ∨
      ∃ k call job, s.calls k = some call ∧ job ∈ call.jobs ∧ job.peer = peer := by
  cases hm with
  | @removeRoute k peer' n' nodes jobs hk =>
    by_cases hp : peer' = peer
    · exact .inr ⟨k, _, _, hk, List.mem_cons_self, hp⟩
    · refine .inl (Finset.mem_erase.mpr ⟨fun heq => hp ?_, hin⟩)
      exact (congrArg Prod.snd heq).symm
  | addRoute => exact .inl (Finset.mem_insert_of_mem hin)
  | _ => exact .inl hin

/-! ### Each part of the invariant -/

theorem Inv.move_reserved (hi : s.Inv) (hm : Move s s') : s'.Reserved := by
  have hr := hi.reserved
  have hs := hi.sole
  simp only [Reserved, Sole] at *
  cases hm <;> simp only [setCall, Function.update_apply] at * <;> grind

theorem Inv.move_sole (hi : s.Inv) (hm : Move s s') : s'.Sole := by
  have hs := hi.sole
  have hr := hi.reserved
  simp only [Sole, Reserved] at *
  cases hm <;> simp only [setCall, Function.update_apply, Past] at * <;> grind

theorem Inv.move_single (hi : s.Inv) (hm : Move s s') : s'.Single := by
  intro c h c' h' hh hh' hp
  rcases hm.held hh with hh | ⟨k, hk, hk₁⟩ <;> rcases hm.held hh' with hh' | ⟨k', hk', hk₁'⟩
  · exact hi.single c h c' h' hh hh' hp
  · cases (hi.own _ _ _ _ _ _ hk' hh hp.symm).2.2
  · cases (hi.own _ _ _ _ _ _ hk hh' hp).2.2
  · cases hi.sole _ _ _ _ _ _ _ _ hk hk' hp
    cases hk.symm.trans hk'
    exact ⟨rfl, rfl⟩

theorem Inv.move_address (hi : s.Inv) (hm : Move s s') : s'.Address := by
  have ha := hi.address
  simp only [Address] at *
  cases hm <;> simp only [setCall, Function.update_apply] at * <;> grind

theorem Inv.move_own (hi : s.Inv) (hm : Move s s') : s'.Own := by
  have ho := hi.own
  have hs := hi.sole
  have hr := hi.reserved
  have hl := hi.live
  simp only [Own, Sole, Reserved, Live] at *
  cases hm <;> simp only [setCall, Function.update_apply, Past] at * <;> grind

theorem Inv.move_stays (hi : s.Inv) (hm : Move s s') : s'.Stays := by
  intro c h k call job hh hk hj hp
  rcases hm.held hh with hh₀ | ⟨k₁, hk₁, -⟩
  · rcases hm.job hk hj with ⟨_, _, _, hk₀, hj₀, hp₀⟩ | ⟨c₀, h₀, hin, hp₀, hout⟩ |
      ⟨k₀, c₀, h₀, hk₀, hp₀, hout⟩
    · exact hi.stays c h _ _ _ hh₀ hk₀ hj₀ (hp₀.trans hp)
    · obtain ⟨rfl, rfl⟩ := hi.single _ _ _ _ hin hh₀ (hp₀.trans hp)
      exact hout hh
    · obtain ⟨rfl, rfl, -⟩ := hi.own _ _ _ _ _ _ hk₀ hh₀ (hp₀.trans hp)
      exact hout hh
  · rcases hm.job hk hj with ⟨_, _, _, hk₀, hj₀, hp₀⟩ | ⟨c₀, h₀, hin, hp₀, hout⟩ |
      ⟨k₀, c₀, h₀, hk₀, hp₀, hout⟩
    · exact hi.unclaimed _ _ _ _ _ _ _ hk₁ rfl hk₀ hj₀ (hp₀.trans hp)
    · cases (hi.own _ _ _ _ _ _ hk₁ hin (hp₀.trans hp).symm).2.2
    · cases hi.sole _ _ _ _ _ _ _ _ hk₀ hk₁ (hp₀.trans hp)
      cases hk₀.symm.trans hk₁

theorem Inv.move_unclaimed (hi : s.Inv) (hm : Move s s') : s'.Unclaimed := by
  intro k c h st k' call job hk hst hk' hj hp
  rcases hm.adding hk with ⟨-, -, ht, hr, hpast⟩ | ⟨st₀, hk₀, hun, -, -⟩
  · -- nothing is known of a new id
    rcases hm.job hk' hj with ⟨_, _, _, hk₁, hj₁, hp₁⟩ | ⟨c₁, h₁, hin, hp₁, -⟩ |
      ⟨k₁, c₁, h₁, hk₁, hp₁, -⟩
    · exact hpast (.inr ⟨_, _, _, hk₁, hj₁, hp₁.trans hp⟩)
    · rcases hi.live _ _ hin with ht' | ⟨_, _, hk₁, hres⟩
      · exact ht (hp ▸ hp₁ ▸ ht')
      · exact hr (hp ▸ hp₁ ▸ (hi.reserved _ _ _ _ hk₁ hres).1)
    · exact hpast (.inl ⟨_, _, _, _, hk₁, hp₁.trans hp, rfl⟩)
  · rcases hm.job hk' hj with ⟨_, _, _, hk₁, hj₁, hp₁⟩ | ⟨c₁, h₁, hin, hp₁, -⟩ |
      ⟨k₁, c₁, h₁, hk₁, hp₁, -⟩
    · exact hi.unclaimed _ _ _ _ _ _ _ hk₀ (hun hst) hk₁ hj₁ (hp₁.trans hp)
    · rw [(hi.own _ _ _ _ _ _ hk₀ hin (hp₁.trans hp).symm).2.2] at hun
      cases hun hst
    · cases hi.sole _ _ _ _ _ _ _ _ hk₁ hk₀ (hp₁.trans hp)
      cases hk₁.symm.trans hk₀
      cases hun hst

theorem Inv.move_live (hi : s.Inv) (hm : Move s s') : s'.Live := by
  intro c h hh
  rcases hm.held hh with hh₀ | ⟨k, -, hk⟩
  · rcases hi.live c h hh₀ with ht | ⟨k, st, hk, hst⟩
    · rcases hm.table ht with ht | ⟨_, _, _, hk, hj, hp⟩
      · exact .inl ht
      · exact absurd hp (hi.stays _ _ _ _ _ hh₀ hk hj)
    · have hclaimed := (hi.own _ _ _ _ _ _ hk hh₀ rfl).2.2
      cases hm <;> simp only [setCall, Function.update_apply] at * <;> grind
  · exact .inr ⟨k, _, hk, rfl⟩

theorem Inv.move_home (hi : s.Inv) (hm : Move s s') : s'.Home := by
  have hh := hi.home
  simp only [Home] at *
  cases hm <;> simp only [setCall, Function.update_apply] at * <;> grind

theorem Inv.move_todo (hi : s.Inv) (hm : Move s s') : s'.Todo := by
  intro k c h st n hk hn
  rcases hm.adding hk with ⟨rfl, -⟩ | ⟨st₀, hk₀, -, -, htodo⟩
  · exact hn
  · exact (htodo n hn).elim id (hi.todo _ _ _ _ n hk₀)

theorem Inv.move_route (hi : s.Inv) (hm : Move s s') : s'.Route := by
  intro n peer hin
  have hfrom : (∃ c h, h ∈ s.peers c ∧ h.peer = peer ∧ n ∈ h.nodes ∧ peer ∈ s.table) ∨
      s.Pending n peer := by
    rcases hm.routes hin with hin | ⟨k, c, h, rest, hk, rfl, ⟨c', h', hh', hp⟩ | hp⟩
    · exact hi.route n peer hin
    · obtain ⟨rfl, rfl, -⟩ := hi.own _ _ _ _ _ _ hk hh' hp.symm
      refine .inl ⟨c, h, hh', rfl, hi.todo _ _ _ _ n hk List.mem_cons_self, ?_⟩
      rcases hi.live c h hh' with ht | ⟨k', st', hk', hst'⟩
      · exact ht
      · cases hi.sole _ _ _ _ _ _ _ _ hk hk' rfl
        cases hk.symm.trans hk'
        cases hst'
    · exact .inr hp
  rcases hfrom with ⟨c, h, hh, rfl, hn, ht⟩ | hp
  · rcases hm.kept hi.address hh with hh' | hp
    · rcases hm.table ht with ht | ⟨_, _, _, hk, hj, hp⟩
      · exact .inl ⟨c, h, hh', rfl, hn, ht⟩
      · exact absurd hp (hi.stays _ _ _ _ _ hh hk hj)
    · exact .inr (hp n hn)
  · exact .inr ((hm.pending hp).resolve_right fun hout => hout hin)

theorem Inv.move_routed (hi : s.Inv) (hm : Move s s') : s'.Routed := by
  intro c h n hh hn
  rcases hm.held hh with hh₀ | ⟨k, -, hk⟩
  · rcases hi.routed c h n hh₀ hn with hin | ⟨k, st, hk, htodo⟩
    · rcases hm.kept_route hin with hin | ⟨_, _, _, hk, hj, hp⟩
      · exact .inl hin
      · exact absurd hp (hi.stays _ _ _ _ _ hh₀ hk hj)
    · have hclaimed := (hi.own _ _ _ _ _ _ hk hh₀ rfl).2.2
      cases hm <;> simp only [setCall, Function.update_apply] at * <;> grind
  · exact .inr ⟨k, _, hk, hn⟩

theorem Inv.move_queue (hi : s.Inv) (hm : Move s s') : s'.Queue := by
  have hq := hi.queue
  simp only [Queue] at *
  cases hm with
  | @build k c h hk =>
    intro peer hin
    rcases Finset.mem_insert.mp hin with rfl | hin
    · exact .inr (.inl ⟨k, c, h, Function.update_self .., rfl⟩)
    · have := hq peer hin
      simp only [setCall, Function.update_apply]
      grind
  | @drop k job jobs hk =>
    intro peer hin
    by_cases hp : job.peer = peer
    · exact .inr (.inr ⟨k, job, jobs, Function.update_self .., hp⟩)
    · have := hq peer hin
      simp only [setCall, Function.update_apply]
      grind
  | _ => simp only [setCall, Function.update_apply] at *; grind

theorem Inv.move (hi : s.Inv) (hm : Move s s') : s'.Inv where
  reserved := hi.move_reserved hm
  sole := hi.move_sole hm
  single := hi.move_single hm
  address := hi.move_address hm
  own := hi.move_own hm
  stays := hi.move_stays hm
  unclaimed := hi.move_unclaimed hm
  live := hi.move_live hm
  home := hi.move_home hm
  todo := hi.move_todo hm
  route := hi.move_route hm
  routed := hi.move_routed hm
  queue := hi.move_queue hm

/-! ### Runs -/

def start : State α ν where
  clas := fun _ => .absent
  peers := fun _ => []
  table := ∅
  reserved := ∅
  next := 0
  queues := ∅
  routes := ∅
  calls := fun _ => none

omit [DecidableEq α] [DecidableEq ν] in
theorem Inv.start : (start : State α ν).Inv := by
  constructor
  all_goals
    simp [State.start, Reserved, Sole, Single, Address, Own, Stays, Unclaimed, Live, Home, Todo,
      Route, Routed, Queue]

omit [DecidableEq α] [DecidableEq ν] in
theorem mint_fresh {fuel next id : Nat} (h : s.mint fuel next = some id) :
    id ∉ s.table ∧ id ∉ s.reserved := by
  induction fuel generalizing next with
  | zero => cases h
  | succ fuel ih =>
    simp only [mint] at h
    split at h
    · exact ih h
    · rename_i hfree
      cases h
      exact not_or.mp hfree

omit [DecidableEq ν] in
theorem mem_of_entry {c : Nat} {addr : α} {h : Held α ν} (he : s.entry c addr = some h) :
    h ∈ s.peers c ∧ h.addr = addr :=
  ⟨List.mem_of_find?_eq_some he, by simpa using List.find?_some he⟩

omit [DecidableEq ν] in
theorem entry_eq_none {c : Nat} {addr : α} :
    s.entry c addr = none ↔ ∀ h ∈ s.peers c, h.addr ≠ addr := by
  simp [entry]

theorem goAdding_move {k c : Nat} {h : Held α ν} {st : Stage ν}
    (hk : s.calls k = some (.adding c h st)) (hi : s.Inv) (ha : s.Apart (.go k)) :
    Move s (s.goAdding k c h st) := by
  have hcond := ha c h st hk
  cases st with
  | reserved =>
    simp only [goAdding]
    split
    · exact .decline hk
    · rename_i he
      refine .claim hk (entry_eq_none.mp (by simpa using he)) ?_
      exact hcond.resolve_left he
  | declined => exact .abandon hk
  | claimed => exact .build hk
  | built => exact .publish hk
  | published =>
    simp only [goAdding]
    split
    · exact .keep hk
    · rename_i he
      refine .withdraw hk fun h' hh' haddr hp => he ?_
      obtain ⟨h'', he'⟩ := Option.ne_none_iff_exists'.mp
        fun hnone => entry_eq_none.mp hnone h' hh' haddr
      obtain ⟨hin, haddr'⟩ := mem_of_entry he'
      cases hi.address c h'' h' hin hh' (haddr'.trans haddr.symm)
      simpa [he'] using hp
  | routing rest =>
    cases rest with
    | nil => exact .added hk
    | cons n rest => exact .addRoute hk hcond

theorem step_move {l : Label α ν} (hi : s.Inv) (ha : s.Apart l) (hs : s.step l = some s') :
    Move s s' := by
  cases l with
  | registerCla c =>
    simp only [step, Option.ite_none_right_eq_some] at hs
    obtain ⟨habsent, hs⟩ := hs
    cases hs
    exact .registerCla habsent
  | addPeer k c addr nodes =>
    simp only [step, addPeer, Option.ite_none_left_eq_some] at hs
    obtain ⟨hguard, hs⟩ := hs
    obtain ⟨id, hid, rfl⟩ := Option.map_eq_some_iff.mp hs
    have hnone : s.calls k = none := by simpa using (not_or.mp hguard).2
    exact .reserve (h := ⟨addr, nodes, id⟩) hnone (mint_fresh hid).1 (mint_fresh hid).2
      (ha id hid)
  | removePeer k c addr =>
    simp only [step, removePeer, Option.ite_none_left_eq_some] at hs
    obtain ⟨hguard, hs⟩ := hs
    obtain ⟨h, hh, rfl⟩ := Option.map_eq_some_iff.mp hs
    have hnone : s.calls k = none := by simpa using (not_or.mp hguard).2
    obtain ⟨hmem, rfl⟩ := mem_of_entry hh
    exact .take hnone hmem
  | unregister k c =>
    simp only [step, unregister, Option.ite_none_left_eq_some] at hs
    obtain ⟨hguard, hs⟩ := hs
    cases hs
    obtain ⟨hpresent, hnone⟩ := not_or.mp hguard
    exact .unregister (by simpa using hnone) (not_not.mp hpresent)
  | go k =>
    obtain ⟨call, hk, rfl⟩ := Option.map_eq_some_iff.mp hs
    cases call with
    | adding c h st => exact goAdding_move hk hi ha
    | unregistering c => exact .takeAll hk
    | removing jobs =>
      cases jobs with
      | nil => exact .removed hk
      | cons job jobs =>
        simp only [goOn]
        split
        · exact .drop hk ‹_›
        · exact .skip hk ‹_›
    | closing job jobs => exact .close hk
    | unrouting job jobs =>
      obtain ⟨nodes, peer⟩ := job
      cases nodes with
      | nil => exact .unrouted hk
      | cons n nodes => exact .removeRoute hk

end State

def peerCalls (α ν : Type) [DecidableEq α] [DecidableEq ν] : Machine (State α ν) (Label α ν) :=
  .ofStep (· = State.start) State.step

namespace State

variable {s : State α ν}

theorem Inv.reachable (hr : ((peerCalls α ν).only Apart).Reachable s) : s.Inv := by
  refine hr.invariant ?_ ?_
  · rintro s rfl
    exact Inv.start
  · rintro s l s' hi ⟨ha, hs⟩
    exact hi.move (step_move hi ha hs)

omit [DecidableEq α] [DecidableEq ν] in
theorem Inv.agree (hi : s.Inv) (hq : s.Quiescent) : s.Agree := by
  have hidle : ∀ {k call}, s.calls k ≠ some call := fun {k call} hk => by
    rw [hq k] at hk
    cases hk
  refine fun n peer => ⟨fun hin => ?_, ?_⟩
  · rcases hi.route n peer hin with ⟨c, h, hh, hp, hn, ht⟩ | ⟨_, _, _, hk, -⟩
    · rcases hi.home c h hh with hpresent | ⟨_, hk⟩ | hnil
      · exact ⟨ht, c, hpresent, h, hh, hp, hn⟩
      · exact absurd hk hidle
      · rw [hnil] at hn
        cases hn
    · exact absurd hk hidle
  · rintro ⟨-, c, -, h, hh, rfl, hn⟩
    exact (hi.routed c h n hh hn).resolve_right fun ⟨_, _, hk, _⟩ => hidle hk

omit [DecidableEq α] [DecidableEq ν] in
theorem Inv.fresh (hi : s.Inv) : s.Fresh := by
  intro k c h hk
  refine ⟨fun n hin => ?_, fun hin => ?_⟩
  · rcases hi.route n h.peer hin with ⟨c', h', hh', hp, -⟩ | ⟨_, _, _, hk', hj, hp, -⟩
    · cases (hi.own _ _ _ _ _ _ hk hh' hp.symm).2.2
    · exact hi.unclaimed _ _ _ _ _ _ _ hk rfl hk' hj hp
  · rcases hi.queue h.peer hin with ht | ⟨k', c', h', hk', hp⟩ | ⟨k', job, jobs, hk', hp⟩
    · exact (hi.reserved _ _ _ _ hk rfl).2 ht
    · cases hi.sole _ _ _ _ _ _ _ _ hk hk' hp.symm
      cases hk.symm.trans hk'
    · exact hi.unclaimed _ _ _ _ _ _ _ hk rfl hk' List.mem_cons_self hp

/-- Routes, table and peer maps agree whenever no call is in progress, and a new id
is free. -/
theorem routes_agree_of_apart (hr : ((peerCalls α ν).only Apart).Reachable s) :
    (s.Quiescent → s.Agree) ∧ s.Fresh :=
  ⟨(Inv.reachable hr).agree, (Inv.reachable hr).fresh⟩

end State

namespace Overlap

open State

/-- Two peers are added at once, for the nodes 7 and 8, and the first is removed. -/
theorem added_agrees : ∃ s, ((peerCalls Nat Nat).only Apart).Reachable s ∧ s.routes = {(8, 2)} ∧
    s.table = {2} ∧ s.Quiescent ∧ s.Agree := by
  have h : ((peerCalls Nat Nat).only Apart).Reachable State.start := .start rfl
  have h := h.step (Label.registerCla 0) ⟨trivial, rfl⟩
  have h := h.step (Label.addPeer 0 0 5 [7]) (And.intro (by
    rintro id - (⟨k, c, h, st, hk, -⟩ | ⟨k, call, job, hk, -⟩) <;> cases hk) rfl)
  have h := h.step (Label.addPeer 1 0 6 [8]) (And.intro (by
    rintro id - (⟨_ | k, c, h, st, hk, -, hst⟩ | ⟨_ | k, call, job, hk, hjob, -⟩)
    · cases hk
      cases hst
    · cases hk
    · cases hk
      cases hjob
    · cases hk) rfl)
  have h := h.step (Label.go 0) ⟨fun _ _ _ hk => by cases hk; exact .inr (.inl rfl), rfl⟩
  have h := h.step (Label.go 1) ⟨fun _ _ _ hk => by cases hk; exact .inr (.inl rfl), rfl⟩
  have h := h.step (Label.go 0) ⟨fun _ _ _ hk => by cases hk; trivial, rfl⟩
  have h := h.step (Label.go 1) ⟨fun _ _ _ hk => by cases hk; trivial, rfl⟩
  have h := h.step (Label.go 1) ⟨fun _ _ _ hk => by cases hk; trivial, rfl⟩
  have h := h.step (Label.go 1) ⟨fun _ _ _ hk => by cases hk; trivial, rfl⟩
  have h := h.step (Label.go 0) ⟨fun _ _ _ hk => by cases hk; trivial, rfl⟩
  have h := h.step (Label.go 0) ⟨fun _ _ _ hk => by cases hk; trivial, rfl⟩
  have h := h.step (Label.go 0)
    ⟨fun _ _ _ hk => by cases hk; exact .inl ⟨0, _, .tail _ (.head _), rfl⟩, rfl⟩
  have h := h.step (Label.go 1) ⟨fun _ _ _ hk => by cases hk; exact .inl ⟨0, _, .head _, rfl⟩, rfl⟩
  have h := h.step (Label.go 0) ⟨fun _ _ _ hk => by cases hk; trivial, rfl⟩
  have h := h.step (Label.removePeer 0 0 5) ⟨trivial, rfl⟩
  have h := h.step (Label.go 0) ⟨nofun, rfl⟩
  have h := h.step (Label.go 0) ⟨nofun, rfl⟩
  have h := h.step (Label.go 0) ⟨nofun, rfl⟩
  have h := h.step (Label.go 0) ⟨nofun, rfl⟩
  have h := h.step (Label.go 0) ⟨nofun, rfl⟩
  have h := h.step (Label.go 1) ⟨fun _ _ _ hk => by cases hk; trivial, rfl⟩
  refine ⟨_, h, by decide, by decide, ?_, (routes_agree_of_apart h).1 ?_⟩
  all_goals
    rintro (_ | _ | k) <;> rfl

/-- The peer goes between the check of `add_peer` and the route, which is added all
the same. -/
def crossing : List (Label Nat Nat) :=
  [.registerCla 0, .addPeer 0 0 5 [7], .go 0, .go 0, .go 0, .go 0, .removePeer 1 0 5, .go 1, .go 1,
    .go 1, .go 1, .go 1, .go 0, .go 0]

theorem crossing_disagrees :
    ¬ ∀ s, (peerCalls Nat Nat).Reachable s → (s.Quiescent → s.Agree) ∧ s.Fresh := by
  intro h
  obtain ⟨s, hs, hroutes, htable, hcalls⟩ : ∃ s,
      Machine.runSteps State.step State.start crossing = some s ∧ (7, 1) ∈ s.routes ∧
      s.table = ∅ ∧ ∀ k, s.calls k = none := by
    refine ⟨_, rfl, ?_, rfl, ?_⟩
    · exact Finset.mem_insert_self _ _
    · intro k
      rcases k with _ | _ | k <;> rfl
  have hin := (((h s (Machine.reachable_runSteps (.start rfl) hs)).1 hcalls) 7 1).mp hroutes
  rw [htable] at hin
  cases hin.1

end Overlap

end Hardy.Cla
