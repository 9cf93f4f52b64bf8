import Hardy.Machine
import Hardy.Routing.Table

/-!
# Teardown of registrations

The registrations of `cla/registry.rs`, `services/registry.rs` and
`routing/rib.rs` under names, ids, address types and route sources, with the
unregister calls and sink drops that take things away under the same keys, each
cut at its locks and awaits.

What belongs to whom is kept beside each key (`State.owner`): the code compares
the keys alone.  `add_peer` is one step here, `Hardy.Cla.Peers` has its own.
-/

namespace Hardy.Bpa.Teardown

inductive ClaAddressType where
  | tcp
  | «private»
deriving DecidableEq, Repr

inductive Handle where
  | cla (name : String) (addressType : Option ClaAddressType)
  | service (id : ServiceId)
  | agent (name : String)
deriving DecidableEq, Repr

section

variable (α ν κ : Type)

/-- The keys of the maps and of the route table. -/
inductive Thing where
  /-- `ClaRegistry::clas` -/
  | cla (name : String)
  /-- `ServiceRegistry::services` -/
  | service (id : ServiceId)
  /-- `Rib::agents` -/
  | agent (name : String)
  /-- `Rib::address_types` -/
  | handler (addressType : ClaAddressType)
  /-- `PeerTable` -/
  | peer (id : Nat)
  /-- A `Forward` entry. -/
  | forward (node : ν) (peer : Nat)
  /-- A `Local` entry. -/
  | localService (id : ServiceId)
  /-- An entry of a routing agent. -/
  | route (source : String) (route : κ)
deriving DecidableEq

/-- An entry of the peer map of a CLA. -/
structure Adjacency where
  addr : α
  nodes : List ν
  peer : Nat
deriving DecidableEq

inductive Removal where
  | removeAddressType (addressType : ClaAddressType)
  /-- `core::mem::take` on the peer map of a CLA. -/
  | takePeers (cla : Nat)
  /-- `PeerTable::remove` -/
  | removePeer (id : Nat)
  | removeForward (node : ν) (peer : Nat)
  | removeService (id : ServiceId)
  | removeBySource (name : String)
deriving DecidableEq

/-- A call on behalf of a registration, with the removals to come. -/
structure Call where
  caller : Nat
  todo : List (Removal ν)

structure Registration where
  handle : Handle
  /-- `add_address_type` or `add_service` has been called. -/
  claimed : Bool

structure State where
  registrations : Nat → Option Registration
  owner : Thing ν κ → Option Nat
  /-- `Cla::peers` -/
  peers : Nat → List (Adjacency α ν)
  calls : Nat → Option (Call ν)

inductive Label where
  | register (r : Nat) (handle : Handle)
  | claim (r : Nat)
  | addRoute (r : Nat) (route : κ)
  | removeRoute (r : Nat) (route : κ)
  | addPeer (r : Nat) (adjacency : Adjacency α ν)
  | removePeer (k r : Nat) (addr : α)
  /-- A call of `unregister` or the drop of a sink. -/
  | unregister (k r : Nat)
  | go (k : Nat)

end

variable {α ν κ : Type}

/-- `FORWARDS_NAME` and `SERVICES_NAME` -/
def Thing.source : Thing ν κ → Option String
  | .forward _ _ => some "neighbours"
  | .localService _ => some "services"
  | .route source _ => some source
  | _ => none

def Adjacency.things (a : Adjacency α ν) : List (Thing ν κ) :=
  .peer a.peer :: a.nodes.map (.forward · a.peer)

def Adjacency.removals (a : Adjacency α ν) : List (Removal ν) :=
  .removePeer a.peer :: a.nodes.map (.removeForward · a.peer)

def Handle.key : Handle → Thing ν κ
  | .cla name _ => .cla name
  | .service id => .service id
  | .agent name => .agent name

/-- `unregister_cla`, `unregister_service` or `unregister_agent`, for a
registration that has left its registry. -/
def Handle.removals (handle : Handle) (r : Nat) : List (Removal ν) :=
  match handle with
  | .cla _ addressType => addressType.toList.map .removeAddressType ++ [.takePeers r]
  | .service id => [.removeService id]
  | .agent name => [.removeBySource name]

section

variable [DecidableEq ν] [DecidableEq κ]

def Removal.hits : Removal ν → Thing ν κ → Bool
  | .removeAddressType addressType, .handler addressType' => addressType = addressType'
  | .removePeer id, .peer id' => id = id'
  | .removeForward node peer, .forward node' peer' => node = node' ∧ peer = peer'
  | .removeService id, .localService id' => id = id'
  | .removeBySource name, x => x.source = some name
  | _, _ => false

def install (owner : Thing ν κ → Option Nat) (r : Nat) (xs : List (Thing ν κ)) :
    Thing ν κ → Option Nat :=
  fun x => if x ∈ xs ∧ owner x = none then some r else owner x

namespace State

open Function (update)

variable [DecidableEq α]

omit [DecidableEq α] in
def register (s : State α ν κ) (r : Nat) (handle : Handle) : Option (State α ν κ) :=
  if (s.registrations r).isSome ∨ (s.owner handle.key).isSome then none
  else some { s with
    registrations := update s.registrations r (some ⟨handle, false⟩)
    owner := update s.owner handle.key (some r) }

omit [DecidableEq α] in
/-- `add_address_type`, or the insertion of `add_service`. -/
def claim (s : State α ν κ) (r : Nat) : Option (State α ν κ) :=
  (s.registrations r).bind fun reg =>
    if reg.claimed then none
    else some { s with
      registrations := update s.registrations r (some { reg with claimed := true })
      owner := match reg.handle with
        | .cla _ (some addressType) => update s.owner (.handler addressType) (some r)
        | .service id => install s.owner r [.localService id]
        | _ => s.owner }

omit [DecidableEq α] in
/-- `add_route` on the sink of an agent, which looks for its name only. -/
def addRoute (s : State α ν κ) (r : Nat) (route : κ) : Option (State α ν κ) :=
  (s.registrations r).bind fun reg => match reg.handle with
    | .agent name =>
      if s.owner (.agent name) = none then none
      else some { s with owner := install s.owner r [.route name route] }
    | _ => none

omit [DecidableEq α] in
/-- `remove_route`, which goes by the name too. -/
def removeRoute (s : State α ν κ) (r : Nat) (route : κ) : Option (State α ν κ) :=
  (s.registrations r).bind fun reg => match reg.handle with
    | .agent name =>
      if s.owner (.agent name) = none then none
      else some { s with owner := update s.owner (.route name route) none }
    | _ => none

def addPeer (s : State α ν κ) (r : Nat) (a : Adjacency α ν) : Option (State α ν κ) :=
  (s.registrations r).bind fun reg => match reg.handle with
    | .cla _ _ =>
      if (s.owner (.peer a.peer)).isSome ∨ ∃ a' ∈ s.peers r, a'.addr = a.addr then none
      else some { s with
        peers := update s.peers r (a :: s.peers r)
        owner := install s.owner r a.things }
    | _ => none

/-- `remove_peer`, up to the removal from the peer map. -/
def removePeer (s : State α ν κ) (k r : Nat) (addr : α) : Option (State α ν κ) :=
  if (s.calls k).isSome then none
  else ((s.peers r).find? (·.addr = addr)).map fun a => { s with
    peers := update s.peers r ((s.peers r).filter (·.addr ≠ addr))
    calls := update s.calls k (some ⟨r, a.removals⟩) }

omit [DecidableEq α] in
/-- `unregister`, up to the removal from the registry of whatever has the key. -/
def unregister (s : State α ν κ) (k r : Nat) : Option (State α ν κ) :=
  if (s.calls k).isSome then none
  else (s.registrations r).map fun reg =>
    match s.owner reg.handle.key with
    | none => s
    | some t => { s with
        owner := update s.owner reg.handle.key none
        calls := update s.calls k (some ⟨r, match s.registrations t with
          | some reg' => reg'.handle.removals t
          | none => []⟩) }

omit [DecidableEq α] in
def go (s : State α ν κ) (k : Nat) : Option (State α ν κ) :=
  (s.calls k).map fun call => match call.todo with
    | [] => { s with calls := update s.calls k none }
    | .takePeers c :: rest => { s with
        peers := update s.peers c []
        calls := update s.calls k
          (some ⟨call.caller, (s.peers c).flatMap (·.removals) ++ rest⟩) }
    | removal :: rest => { s with
        owner := fun x => if removal.hits x then none else s.owner x
        calls := update s.calls k (some ⟨call.caller, rest⟩) }

def step (s : State α ν κ) : Label α ν κ → Option (State α ν κ)
  | .register r handle => s.register r handle
  | .claim r => s.claim r
  | .addRoute r route => s.addRoute r route
  | .removeRoute r route => s.removeRoute r route
  | .addPeer r a => s.addPeer r a
  | .removePeer k r addr => s.removePeer k r addr
  | .unregister k r => s.unregister k r
  | .go k => s.go k

omit [DecidableEq ν] [DecidableEq κ] [DecidableEq α] in
def caller (s : State α ν κ) : Label α ν κ → Option Nat
  | .removePeer _ r _ | .unregister _ r => some r
  | .go k => (s.calls k).map (·.caller)
  | _ => none

omit [DecidableEq ν] [DecidableEq κ] [DecidableEq α] in
/-- What registration `q` owns, and its peers, are as before. -/
def Keeps (s s' : State α ν κ) (q : Nat) : Prop :=
  (∀ x, s.owner x = some q → s'.owner x = some q) ∧ s'.peers q = s.peers q

def start : State α ν κ where
  registrations := fun _ => none
  owner := fun _ => none
  peers := fun _ => []
  calls := fun _ => none

end State

def teardown (α ν κ : Type) [DecidableEq α] [DecidableEq ν] [DecidableEq κ] :
    Machine (State α ν κ) (Label α ν κ) :=
  .ofStep (· = State.start) State.step

end

/-! ## Teardowns that do not overlap a new registration -/

section

variable [DecidableEq α] [DecidableEq ν] [DecidableEq κ]

namespace State

open Function (update)

/-- No teardown of another registration is still to take `x` away. -/
def Clear (s : State α ν κ) (q : Nat) (x : Thing ν κ) : Prop :=
  ∀ k call removal, s.calls k = some call → removal ∈ call.todo → removal.hits x = true →
    call.caller = q

/-- An unregister call or drop takes effect while nobody else has the key of its
registration, nor what it is to remove by address type, id or source; nothing is
installed that the teardown of another registration is still to take away; and a
peer gets an id that no peer map and no table has. -/
def Apart (s : State α ν κ) : Label α ν κ → Prop
  | .unregister _ r => ∀ reg, s.registrations r = some reg → ∀ t,
      s.owner reg.handle.key = some t → t = r ∧
        ∀ removal ∈ reg.handle.removals r, ∀ x q, removal.hits x = true →
          s.owner x = some q → q = r
  | .claim r => ∀ reg, s.registrations r = some reg → match reg.handle with
      | .cla _ (some addressType) => s.Clear r (.handler addressType)
      | .service id => s.Clear r (.localService id)
      | _ => True
  | .addRoute r route => ∀ reg, s.registrations r = some reg → ∀ name,
      reg.handle = .agent name → s.Clear r (.route name route)
  | .addPeer r a => (∀ c, ∀ a' ∈ s.peers c, a'.peer ≠ a.peer) ∧
      ∀ x ∈ a.things, s.owner x = none ∧ s.Clear r x
  | _ => True

/-- A removal on behalf of `r` takes nothing that belongs to somebody else. -/
structure Spares (s : State α ν κ) (r : Nat) (removal : Removal ν) : Prop where
  owner : ∀ x q, removal.hits x = true → s.owner x = some q → q = r
  peers : ∀ c, removal = .takePeers c → c = r

structure Inv (s : State α ν κ) : Prop where
  spares : ∀ k call removal, s.calls k = some call → removal ∈ call.todo →
    s.Spares call.caller removal
  /-- What is kept for the peers of a CLA belongs to the CLA. -/
  held : ∀ c a x q, a ∈ s.peers c → x ∈ a.things → s.owner x = some q → q = c

variable {s s' : State α ν κ}

omit [DecidableEq κ] in
omit [DecidableEq α] in
@[simp] theorem hits_key (removal : Removal ν) (handle : Handle) :
    removal.hits (handle.key : Thing ν κ) = false := by
  cases removal <;> cases handle <;> simp [Removal.hits, Handle.key, Thing.source]

omit [DecidableEq κ] in
omit [DecidableEq α] in
theorem mem_things_of_hits {a : Adjacency α ν} {removal : Removal ν} {x : Thing ν κ}
    (hr : removal ∈ a.removals) (hx : removal.hits x = true) : x ∈ a.things := by
  rcases List.mem_cons.mp hr with rfl | hr
  · cases x <;> simp [Removal.hits] at hx
    simp [Adjacency.things, hx]
  · obtain ⟨n, hn, rfl⟩ := List.mem_map.mp hr
    cases x <;> simp [Removal.hits] at hx
    obtain ⟨rfl, rfl⟩ := hx
    exact List.mem_cons_of_mem _ (List.mem_map_of_mem hn)

omit [DecidableEq α] [DecidableEq ν] [DecidableEq κ] in
theorem disjoint_things {a b : Adjacency α ν} (hne : a.peer ≠ b.peer) {x : Thing ν κ}
    (ha : x ∈ a.things) : x ∉ b.things := by
  intro hb
  rcases List.mem_cons.mp ha with rfl | ha <;> rcases List.mem_cons.mp hb with hb | hb
  · exact hne (Thing.peer.inj hb)
  · obtain ⟨n, -, hb⟩ := List.mem_map.mp hb
    cases hb
  · obtain ⟨n, -, rfl⟩ := List.mem_map.mp ha
    cases hb
  · obtain ⟨n, -, rfl⟩ := List.mem_map.mp ha
    obtain ⟨n', -, hb⟩ := List.mem_map.mp hb
    exact hne (Thing.forward.inj hb).2.symm

section

omit [DecidableEq α]

theorem install_eq {owner : Thing ν κ → Option Nat} {r q : Nat} {xs : List (Thing ν κ)}
    {x : Thing ν κ} (h : install owner r xs x = some q) : owner x = some q ∨ x ∈ xs ∧ q = r := by
  rw [install] at h
  split at h
  · rename_i hx
    cases h
    exact .inr ⟨hx.1, rfl⟩
  · exact .inl h

omit [DecidableEq κ] in
theorem Inv.gain (hi : s.Inv) {r : Nat} (hcalls : s'.calls = s.calls)
    (hpeers : s'.peers = s.peers)
    (howner : ∀ x q, s'.owner x = some q → s.owner x = some q ∨ q = r ∧ s.Clear r x ∧
      ∀ c, ∀ a ∈ s.peers c, x ∉ a.things) : s'.Inv where
  spares k call removal hk hr := by
    rw [hcalls] at hk
    refine ⟨fun x q hx hq => ?_, (hi.spares k call removal hk hr).peers⟩
    rcases howner x q hq with hold | ⟨rfl, hclear, -⟩
    · exact (hi.spares k call removal hk hr).owner x q hx hold
    · exact (hclear k call removal hk hr hx).symm
  held c a x q ha hx hq := by
    rw [hpeers] at ha
    rcases howner x q hq with hold | ⟨-, -, hfree⟩
    · exact hi.held c a x q ha hx hold
    · exact absurd hx (hfree c a ha)

omit [DecidableEq κ] in
theorem Inv.lose (hi : s.Inv) {k r : Nat} {todo : List (Removal ν)}
    (howner : ∀ x q, s'.owner x = some q → s.owner x = some q)
    (hpeers : ∀ c, ∀ a ∈ s'.peers c, a ∈ s.peers c)
    (hcalls : s'.calls = Function.update s.calls k (some ⟨r, todo⟩))
    (htodo : ∀ removal ∈ todo, s.Spares r removal) : s'.Inv where
  spares k' call removal hk hr := by
    have hold : s.Spares call.caller removal := by
      rw [hcalls] at hk
      simp only [Function.update_apply] at hk
      split at hk
      · cases hk
        exact htodo removal hr
      · exact hi.spares k' call removal hk hr
    exact ⟨fun x q hx hq => hold.owner x q hx (howner x q hq), hold.peers⟩
  held c a x q ha hx hq := hi.held c a x q (hpeers c a ha) hx (howner x q hq)

omit [DecidableEq κ] in
theorem Inv.spares_peers (hi : s.Inv) {c : Nat} {a : Adjacency α ν} (ha : a ∈ s.peers c)
    {removal : Removal ν} (hr : removal ∈ a.removals) : s.Spares c removal := by
  refine ⟨fun x q hx hq => hi.held c a x q ha (mem_things_of_hits hr hx) hq, ?_⟩
  rintro c' rfl
  simp [Adjacency.removals] at hr

end

omit [DecidableEq α] [DecidableEq ν] [DecidableEq κ] in
theorem key_notMem_things (handle : Handle) (a : Adjacency α ν) :
    (handle.key : Thing ν κ) ∉ a.things := by
  cases handle <;> simp [Handle.key, Adjacency.things]

section

omit [DecidableEq α]

theorem Inv.register (hi : s.Inv) {r : Nat} {handle : Handle}
    (hs : s.register r handle = some s') : s'.Inv := by
  rw [State.register, Option.ite_none_left_eq_some] at hs
  obtain ⟨-, hs⟩ := hs
  cases hs
  refine hi.gain (r := r) rfl rfl fun x q hq => ?_
  simp only [Function.update_apply] at hq
  split at hq
  · rename_i hx
    cases hq
    subst hx
    refine .inr ⟨rfl, fun _ _ removal _ _ hhits => ?_, fun _ a _ => key_notMem_things handle a⟩
    rw [hits_key] at hhits
    cases hhits
  · exact .inl hq

theorem Inv.claim (hi : s.Inv) {r : Nat} (ha : s.Apart (.claim r)) (hs : s.claim r = some s') :
    s'.Inv := by
  obtain ⟨reg, hreg, hs⟩ := Option.bind_eq_some_iff.mp hs
  rw [Option.ite_none_left_eq_some] at hs
  obtain ⟨-, hs⟩ := hs
  cases hs
  have hclear := ha reg hreg
  refine hi.gain (r := r) rfl rfl fun x q hq => ?_
  split at hq
  · rename_i name addressType hhandle
    rw [hhandle] at hclear
    simp only [Function.update_apply] at hq
    split at hq
    · rename_i hx
      cases hq
      subst hx
      exact .inr ⟨rfl, hclear, fun _ a _ => by simp [Adjacency.things]⟩
    · exact .inl hq
  · rename_i id hhandle
    rw [hhandle] at hclear
    rcases install_eq hq with hold | ⟨hx, rfl⟩
    · exact .inl hold
    · cases List.mem_singleton.mp hx
      exact .inr ⟨rfl, hclear, fun _ a _ => by simp [Adjacency.things]⟩
  · exact .inl hq

theorem Inv.addRoute (hi : s.Inv) {r : Nat} {route : κ} (ha : s.Apart (.addRoute r route))
    (hs : s.addRoute r route = some s') : s'.Inv := by
  obtain ⟨reg, hreg, hs⟩ := Option.bind_eq_some_iff.mp hs
  split at hs
  · rename_i name hhandle
    rw [Option.ite_none_left_eq_some] at hs
    obtain ⟨-, hs⟩ := hs
    cases hs
    refine hi.gain (r := r) rfl rfl fun x q hq => ?_
    rcases install_eq hq with hold | ⟨hx, rfl⟩
    · exact .inl hold
    · cases List.mem_singleton.mp hx
      exact .inr ⟨rfl, ha reg hreg name hhandle, fun _ a _ => by simp [Adjacency.things]⟩
  · cases hs

theorem Inv.removeRoute (hi : s.Inv) {r : Nat} {route : κ} (hs : s.removeRoute r route = some s') :
    s'.Inv := by
  obtain ⟨reg, -, hs⟩ := Option.bind_eq_some_iff.mp hs
  split at hs
  · rw [Option.ite_none_left_eq_some] at hs
    obtain ⟨-, hs⟩ := hs
    cases hs
    have hold : ∀ {x y : Thing ν κ} {q : Nat}, update s.owner y none x = some q →
        s.owner x = some q := by
      intro x y q hq
      rw [Function.update_apply, ite_eq_iff] at hq
      exact (hq.resolve_left fun h => nomatch h.2).2
    refine ⟨fun k call removal hk hr => ⟨fun x q hx hq => ?_, ?_⟩, fun c a x q ha hx hq => ?_⟩
    · exact (hi.spares k call removal hk hr).owner x q hx (hold hq)
    · exact (hi.spares k call removal hk hr).peers
    · exact hi.held c a x q ha hx (hold hq)
  · cases hs

end

theorem Inv.addPeer (hi : s.Inv) {r : Nat} {a : Adjacency α ν} (ha : s.Apart (.addPeer r a))
    (hs : s.addPeer r a = some s') : s'.Inv := by
  obtain ⟨reg, hreg, hs⟩ := Option.bind_eq_some_iff.mp hs
  obtain ⟨hheld, hclear⟩ := ha
  split at hs
  · rw [Option.ite_none_left_eq_some] at hs
    obtain ⟨-, hs⟩ := hs
    cases hs
    constructor
    · intro k call removal hk hr
      refine ⟨fun x q hx hq => ?_, (hi.spares k call removal hk hr).peers⟩
      rcases install_eq hq with hold | ⟨hin, rfl⟩
      · exact (hi.spares k call removal hk hr).owner x q hx hold
      · exact ((hclear x hin).2 k call removal hk hr hx).symm
    · intro c b x q hb hx hq
      have hb' : c = r ∧ b = a ∨ b ∈ s.peers c := by
        simp only [Function.update_apply] at hb
        split at hb
        · rename_i hc
          rcases List.mem_cons.mp hb with rfl | hb
          · exact .inl ⟨hc, rfl⟩
          · exact .inr (hc ▸ hb)
        · exact .inr hb
      rcases hb' with ⟨rfl, rfl⟩ | hb'
      · rcases install_eq hq with hold | ⟨-, rfl⟩
        · rw [(hclear x hx).1] at hold
          cases hold
        · rfl
      · rcases install_eq hq with hold | ⟨hin, -⟩
        · exact hi.held c b x q hb' hx hold
        · exact absurd hin (disjoint_things (hheld c b hb') hx)
  · cases hs

omit [DecidableEq κ] in
theorem Inv.removePeer (hi : s.Inv) {k r : Nat} {addr : α}
    (hs : s.removePeer k r addr = some s') : s'.Inv := by
  rw [State.removePeer, Option.ite_none_left_eq_some] at hs
  obtain ⟨-, hs⟩ := hs
  obtain ⟨a, hfind, rfl⟩ := Option.map_eq_some_iff.mp hs
  have hmem := List.mem_of_find?_eq_some hfind
  refine hi.lose (fun _ _ hq => hq) (fun c b hb => ?_) rfl fun removal hr =>
    hi.spares_peers hmem hr
  simp only [Function.update_apply] at hb
  split at hb
  · rename_i hc
    exact hc ▸ List.mem_of_mem_filter hb
  · exact hb

omit [DecidableEq ν] in
theorem takePeers_mem {handle : Handle} {r c : Nat}
    (h : (.takePeers c : Removal ν) ∈ handle.removals r) : c = r := by
  cases handle <;> simp_all [Handle.removals]

omit [DecidableEq α] in
theorem Inv.unregister (hi : s.Inv) {k r : Nat} (ha : s.Apart (.unregister k r))
    (hs : s.unregister k r = some s') : s'.Inv := by
  rw [State.unregister, Option.ite_none_left_eq_some] at hs
  obtain ⟨-, hs⟩ := hs
  obtain ⟨reg, hreg, rfl⟩ := Option.map_eq_some_iff.mp hs
  split
  · exact hi
  · rename_i t ht
    obtain ⟨rfl, hown⟩ := ha reg hreg t ht
    rw [hreg]
    refine hi.lose (fun x q hq => ?_) (fun _ _ hin => hin) rfl fun removal hr => ⟨?_, ?_⟩
    · simp only [Function.update_apply] at hq
      split at hq
      · cases hq
      · exact hq
    · exact hown removal hr
    · rintro c rfl
      exact takePeers_mem hr

omit [DecidableEq κ] in
omit [DecidableEq α] in
theorem Inv.go (hi : s.Inv) {k : Nat} (hs : s.go k = some s') : s'.Inv := by
  obtain ⟨⟨r, todo⟩, hk, rfl⟩ := Option.map_eq_some_iff.mp hs
  have hspares := fun removal hr => hi.spares k _ removal hk hr
  cases todo with
  | nil =>
    refine ⟨fun k' call removal hk' hr => ?_, hi.held⟩
    simp only [Function.update_apply] at hk'
    split at hk'
    · cases hk'
    · exact ⟨(hi.spares k' call removal hk' hr).owner, (hi.spares k' call removal hk' hr).peers⟩
  | cons removal rest =>
    have hrest : ∀ removal ∈ rest, s.Spares r removal :=
      fun removal hr => hspares removal (List.mem_cons_of_mem _ hr)
    cases removal with
    | takePeers c =>
      obtain rfl : c = r := (hspares _ List.mem_cons_self).peers c rfl
      refine hi.lose (fun _ _ hq => hq) (fun c' a ha => ?_) rfl fun removal hr => ?_
      · simp only [Function.update_apply] at ha
        split at ha
        · cases ha
        · exact ha
      · rcases List.mem_append.mp hr with hr | hr
        · obtain ⟨a, ha, hr⟩ := List.mem_flatMap.mp hr
          exact hi.spares_peers ha hr
        · exact hrest removal hr
    | _ =>
      refine hi.lose (fun x q hq => ?_) (fun _ _ ha => ha) rfl hrest
      rw [ite_eq_iff] at hq
      exact (hq.resolve_left fun h => nomatch h.2).2

theorem Inv.step (hi : s.Inv) {l : Label α ν κ} (ha : s.Apart l) (hs : s.step l = some s') :
    s'.Inv := by
  cases l with
  | register r handle => exact hi.register hs
  | claim r => exact hi.claim ha hs
  | addRoute r route => exact hi.addRoute ha hs
  | removeRoute r route => exact hi.removeRoute hs
  | addPeer r a => exact hi.addPeer ha hs
  | removePeer k r addr => exact hi.removePeer hs
  | unregister k r => exact hi.unregister ha hs
  | go k => exact hi.go hs

theorem inv_reachable (h : ((teardown α ν κ).only Apart).Reachable s) : s.Inv := by
  refine h.invariant ?_ fun _ _ _ hi ⟨ha, hs⟩ => hi.step ha hs
  rintro s rfl
  exact ⟨nofun, nofun⟩

/-! ### What a teardown leaves alone -/

omit [DecidableEq ν] [DecidableEq κ] in
theorem removePeer_keeps {k r : Nat} {addr : α} (hs : s.removePeer k r addr = some s') {q : Nat}
    (hq : q ≠ r) : s.Keeps s' q := by
  rw [State.removePeer, Option.ite_none_left_eq_some] at hs
  obtain ⟨a, -, rfl⟩ := Option.map_eq_some_iff.mp hs.2
  exact ⟨fun _ hx => hx, Function.update_of_ne hq ..⟩

omit [DecidableEq α] in
theorem unregister_keeps {k r : Nat} (ha : s.Apart (.unregister k r))
    (hs : s.unregister k r = some s') {q : Nat} (hq : q ≠ r) : s.Keeps s' q := by
  rw [State.unregister, Option.ite_none_left_eq_some] at hs
  obtain ⟨reg, hreg, rfl⟩ := Option.map_eq_some_iff.mp hs.2
  split
  · exact ⟨fun _ hx => hx, rfl⟩
  · rename_i t ht
    obtain ⟨rfl, -⟩ := ha reg hreg t ht
    refine ⟨fun x hx => ?_, rfl⟩
    have hne : x ≠ reg.handle.key := by
      rintro rfl
      exact hq (Option.some.inj (hx.symm.trans ht))
    exact (Function.update_of_ne hne ..).trans hx

omit [DecidableEq κ] in
omit [DecidableEq α] in
theorem Inv.go_keeps (hi : s.Inv) {k : Nat} {call : Call ν} (hk : s.calls k = some call)
    (hs : s.go k = some s') {q : Nat} (hq : q ≠ call.caller) : s.Keeps s' q := by
  obtain ⟨r, todo⟩ := call
  rw [State.go, hk] at hs
  cases hs
  cases todo with
  | nil => exact ⟨fun _ hx => hx, rfl⟩
  | cons removal rest =>
    have hspares := hi.spares k _ removal hk List.mem_cons_self
    cases removal with
    | takePeers c =>
      obtain rfl : c = r := hspares.peers c rfl
      exact ⟨fun _ hx => hx, Function.update_of_ne hq ..⟩
    | _ =>
      refine ⟨fun x hx => ?_, rfl⟩
      exact (if_neg fun hhits => hq (hspares.owner x q hhits hx)).trans hx

/-- A call or drop on behalf of one registration takes nothing away from another. -/
theorem keeps_of_apart (h : ((teardown α ν κ).only Apart).Reachable s) {l : Label α ν κ}
    (ha : s.Apart l) (hs : s.step l = some s') {r : Nat} (hl : s.caller l = some r) {q : Nat}
    (hq : q ≠ r) : s.Keeps s' q := by
  cases l with
  | removePeer k r' addr =>
    cases hl
    exact removePeer_keeps hs hq
  | unregister k r' =>
    cases hl
    exact unregister_keeps ha hs hq
  | go k =>
    obtain ⟨call, hk, rfl⟩ := Option.map_eq_some_iff.mp hl
    exact (inv_reachable h).go_keeps hk hs hq
  | _ => cases hl

end State

end

/-! ## Registrations that come and go -/

namespace Again

open State

/-- An agent is torn down beside a service, which keeps its route. -/
theorem service_kept : ∃ s s' : State Nat Nat Nat, ((teardown Nat Nat Nat).only Apart).Reachable s ∧
    s.step (.go 0) = some s' ∧ s.owner (.localService (.ipn 5)) = some 1 ∧ s.Keeps s' 1 := by
  have h₀ : ((teardown Nat Nat Nat).only Apart).Reachable State.start := .start rfl
  have h₁ := Machine.Reachable.step (Label.register 0 (.agent "tvr")) h₀ ⟨trivial, rfl⟩
  have h₂ := Machine.Reachable.step (Label.register 1 (.service (.ipn 5))) h₁ ⟨trivial, rfl⟩
  have h₃ := Machine.Reachable.step (Label.claim 1) h₂ ⟨?_, rfl⟩
  · have h₄ := Machine.Reachable.step (Label.unregister 0 0) h₃ ⟨?_, rfl⟩
    · exact ⟨_, _, h₄, rfl, rfl, keeps_of_apart (l := .go 0) h₄ trivial rfl rfl Nat.one_ne_zero⟩
    · intro reg hreg t ht
      cases hreg
      cases ht
      refine ⟨rfl, fun removal hr x q hx hq => ?_⟩
      cases List.mem_singleton.mp hr
      cases x <;> simp [Removal.hits, Thing.source] at hx
      cases hq
  · intro reg hreg
    cases hreg
    intro k call removal hk
    cases hk

/-- The first registration is torn down up to the wait for its agent, then the
second one under the name gets a route. -/
def steps : List (Label Nat Nat Nat) :=
  [.register 0 (.agent "tvr"), .unregister 0 0, .register 1 (.agent "tvr"), .addRoute 1 7]

theorem again_lost : ¬ ∀ s l s' r q, (teardown Nat Nat Nat).Reachable s → s.step l = some s' →
    s.caller l = some r → q ≠ r → s.Keeps s' q := by
  intro h
  obtain ⟨s, s', hs, hgo, hcaller, howner, hlost⟩ : ∃ s s',
      Machine.runSteps State.step State.start steps = some s ∧ s.step (.go 0) = some s' ∧
      s.caller (.go 0) = some 0 ∧ s.owner (.route "tvr" 7) = some 1 ∧
      s'.owner (.route "tvr" 7) = none :=
    ⟨_, _, rfl, rfl, rfl, rfl, rfl⟩
  have hkeeps := h s (.go 0) s' 0 1 (Machine.reachable_runSteps (.start rfl) hs) hgo hcaller
    Nat.one_ne_zero
  rw [hkeeps.1 _ howner] at hlost
  cases hlost

end Again

end Hardy.Bpa.Teardown
