import Hardy.Machine
import Hardy.Routing.Table

/-!
# The service registry

Model of `bpa/src/services/registry.rs` with its part of the route table: the
interleaving of registrations and unregistrations, each cut at its awaits.

A registration is known by the number of its `Arc<Service>`, which the table
does not look at: its `Local` entries compare by service id alone, so an entry
that is still there keeps a new one out, and a removal takes whichever there is.
-/

namespace Hardy.Services

open Routing (NodeIds)

def serviceIsAdminEndpoint : ServiceId → Bool
  | .ipn n => n == 0
  | .dtn name => name.isEmpty

def resolveEid (nodeIds : NodeIds) : ServiceId → Option Eid
  | .ipn n => nodeIds.ipn.map fun fqnn => .ipn fqnn n
  | .dtn name => nodeIds.dtn.map fun nodeName => .dtn nodeName name

theorem resolveEid_injective {nodeIds : NodeIds} {a b : ServiceId} {eid : Eid}
    (ha : resolveEid nodeIds a = some eid) (hb : resolveEid nodeIds b = some eid) : a = b := by
  cases a <;> cases b <;> simp only [resolveEid, Option.map_eq_some_iff] at ha hb
  all_goals
    obtain ⟨x, -, rfl⟩ := ha
    obtain ⟨y, -, hy⟩ := hb
    cases hy
  all_goals rfl

/-! ## The entries of the table -/

structure Local where
  serviceId : ServiceId
  registration : Nat
deriving DecidableEq, Repr

/-- `impl Ord for Service` -/
instance : Ord Local := ⟨fun a b => compare a.serviceId b.serviceId⟩

theorem compare_bytes (t : Bytes) : compare t t = .eq := by
  induction t with
  | nil => rfl
  | cons b t ih =>
    have hb : compare b b = .eq := by simp [compare, compareOfLessAndEq]
    show List.compareLex compare (b :: t) (b :: t) = .eq
    rw [List.compareLex, hb]
    exact ih

theorem compare_serviceId (id : ServiceId) : compare id id = .eq := by
  cases id with
  | ipn n => simp [compare, instOrdServiceId.ord, compareOfLessAndEq]
  | dtn name =>
    show (compare name name).then .eq = .eq
    rw [compare_bytes]
    rfl

inductive Teardown where
  | none
  /-- The registry entry is gone and the queue closed, the route is there. -/
  | begun
  | done
deriving DecidableEq, Repr

structure Registration where
  serviceId : ServiceId
  eid : Eid
  /-- `add_service` has returned. -/
  routed : Bool
  teardown : Teardown
deriving DecidableEq, Repr

structure State where
  nodeIds : NodeIds
  registrations : List Registration
  /-- `ServiceRegistry::services` -/
  services : ServiceId → Option Nat
  /-- The entries under the pattern of an EID, at the priority of services. -/
  locals : Eid → List Local

/-- The steps of the calls, by the registration they are for. -/
inductive Label where
  | register (serviceId : ServiceId)
  | addService (r : Nat)
  | unregister (r : Nat)
  | removeService (r : Nat)
deriving DecidableEq, Repr

namespace State

open Function (update)

def At (s : State) (r : Nat) (reg : Registration) : Prop := s.registrations[r]? = some reg

def setRegistration (s : State) (r : Nat) (reg : Registration) : State :=
  { s with registrations := s.registrations.set r reg }

/-- `register`, up to the insertion into the registry. -/
def register (s : State) (id : ServiceId) : State :=
  if serviceIsAdminEndpoint id then s
  else match resolveEid s.nodeIds id with
    | none => s
    | some eid =>
      if (s.services id).isSome then s
      else { s with
        registrations := s.registrations ++ [⟨id, eid, false, .none⟩]
        services := update s.services id (some s.registrations.length) }

def addService (s : State) (r : Nat) : Option State :=
  s.registrations[r]?.bind fun reg =>
    if reg.routed then none
    else some { s.setRegistration r { reg with routed := true } with
      locals := update s.locals reg.eid
        (Sorted.insert ⟨reg.serviceId, r⟩ (s.locals reg.eid)).2 }

/-- `unregister` for the service of a sink, which registration `r` has been given,
up to `close_queue`. -/
def unregister (s : State) (r : Nat) : Option State :=
  s.registrations[r]?.bind fun reg =>
    if !reg.routed then none
    else match s.services reg.serviceId with
      | none => some s
      | some r' => s.registrations[r']?.map fun reg' =>
        { s.setRegistration r' { reg' with teardown := .begun } with
          services := update s.services reg.serviceId none }

def removeService (s : State) (r : Nat) : Option State :=
  s.registrations[r]?.bind fun reg =>
    if reg.teardown ≠ .begun then none
    else some { s.setRegistration r { reg with teardown := .done } with
      locals := update s.locals reg.eid
        ((Sorted.remove ⟨reg.serviceId, r⟩ (s.locals reg.eid)).getD (s.locals reg.eid)) }

def step (s : State) : Label → Option State
  | .register id => some (s.register id)
  | .addService r => s.addService r
  | .unregister r => s.unregister r
  | .removeService r => s.removeService r

def Quiescent (s : State) : Prop :=
  ∀ reg ∈ s.registrations, reg.routed = true ∧ reg.teardown ≠ .begun

/-- The registry and the table list the same services, by registrations whose
queues are open. -/
structure Agree (s : State) : Prop where
  listed : ∀ id eid, resolveEid s.nodeIds id = some eid →
    ((s.services id).isSome ↔ s.locals eid ≠ [])
  same : ∀ id eid, resolveEid s.nodeIds id = some eid → ∀ r, s.services id = some r →
    s.locals eid = [⟨id, r⟩]
  isOpen : ∀ id r, s.services id = some r →
    ∃ reg, s.At r reg ∧ reg.teardown = .none

end State

/-! ## Calls that do not overlap -/

namespace State

/-- A registration gets its route when no earlier one of its service id still has
a route to lose, and loses it when it has got it. -/
def Apart (s : State) : Label → Prop
  | .addService r => ∀ reg, s.At r reg → ∀ r' reg', s.At r' reg' →
      reg'.serviceId = reg.serviceId → reg'.teardown = .begun → r' = r
  | .removeService r => ∀ reg, s.At r reg → reg.routed = true
  | _ => True

structure Inv (s : State) : Prop where
  resolved : ∀ r reg, s.At r reg → resolveEid s.nodeIds reg.serviceId = some reg.eid
  /-- An entry of the table belongs to a registration that is there, or is going. -/
  entry : ∀ eid l, l ∈ s.locals eid → ∃ reg, s.At l.registration reg ∧
    reg.serviceId = l.serviceId ∧ reg.eid = eid ∧ reg.routed = true ∧
    (s.services l.serviceId = some l.registration ∨ reg.teardown = .begun)
  single : ∀ eid l, l ∈ s.locals eid → s.locals eid = [l]
  live : ∀ id r, s.services id = some r → ∃ reg, s.At r reg ∧ reg.serviceId = id ∧
    reg.teardown = .none ∧ (reg.routed = true → ⟨id, r⟩ ∈ s.locals reg.eid)
  unrouted : ∀ r reg, s.At r reg → reg.routed = false →
    s.services reg.serviceId = some r ∨ reg.teardown = .begun
  going : ∀ r reg, s.At r reg → reg.routed = true → reg.teardown = .begun →
    ⟨reg.serviceId, r⟩ ∈ s.locals reg.eid
  /-- A service with its route has no other registration that is going. -/
  alone : ∀ r reg r' reg', s.At r reg → s.At r' reg' → s.services reg.serviceId = some r →
    reg.routed = true → reg'.serviceId = reg.serviceId → reg'.teardown ≠ .begun

theorem Inv.agree {s : State} (h : s.Inv) (hq : s.Quiescent) : s.Agree := by
  have hsame : ∀ id eid, resolveEid s.nodeIds id = some eid → ∀ r, s.services id = some r →
      s.locals eid = [⟨id, r⟩] := by
    intro id eid hid r hr
    obtain ⟨reg, hreg, rfl, -, hin⟩ := h.live id r hr
    have heid : reg.eid = eid := Option.some.inj ((h.resolved r reg hreg).symm.trans hid)
    have hmem := hin (hq reg (List.mem_of_getElem? hreg)).1
    rw [heid] at hmem
    exact h.single eid _ hmem
  refine ⟨fun id eid hid => ⟨fun hs => ?_, fun hne => ?_⟩, hsame, fun id r hr => ?_⟩
  · obtain ⟨r, hr⟩ := Option.isSome_iff_exists.mp hs
    rw [hsame id eid hid r hr]
    exact List.cons_ne_nil _ _
  · obtain ⟨l, hl⟩ := List.exists_mem_of_ne_nil _ hne
    obtain ⟨reg, hreg, hservice, heid, -, hthere⟩ := h.entry eid l hl
    have hsame : id = reg.serviceId :=
      resolveEid_injective hid (heid ▸ h.resolved _ reg hreg)
    rcases hthere with hthere | hgoing
    · rw [hsame, hservice, hthere]
      rfl
    · exact absurd hgoing (hq reg (List.mem_of_getElem? hreg)).2
  · obtain ⟨reg, hreg, -, hnone, -⟩ := h.live id r hr
    exact ⟨reg, hreg, hnone⟩

theorem At.unique {s : State} {r : Nat} {a b : Registration} (ha : s.At r a) (hb : s.At r b) :
    a = b :=
  Option.some.inj (ha.symm.trans hb)

theorem at_set {s : State} {r k : Nat} {old new reg : Registration} (hr : s.At r old) :
    (s.setRegistration r new).At k reg ↔ k = r ∧ reg = new ∨ k ≠ r ∧ s.At k reg := by
  have hlt : r < s.registrations.length := (List.getElem?_eq_some_iff.mp hr).1
  rw [At, At, setRegistration, List.getElem?_set]
  by_cases hk : k = r
  · simp [hk, hlt, eq_comm]
  · simp [hk, Ne.symm hk]

theorem Inv.register {s : State} (h : s.Inv) (id : ServiceId) : (s.register id).Inv := by
  rw [State.register]
  split
  · exact h
  split
  · exact h
  rename_i eid heid
  split
  · exact h
  rename_i hfree
  have hnone : s.services id = none := by simpa using hfree
  generalize hs' : ({ s with
    registrations := s.registrations ++ [⟨id, eid, false, .none⟩]
    services := Function.update s.services id (some s.registrations.length) } : State) = s'
  have hlocals : s'.locals = s.locals := by rw [← hs']
  have hids : s'.nodeIds = s.nodeIds := by rw [← hs']
  have hself : s'.services id = some s.registrations.length := by simp [← hs']
  have hother : ∀ id', id' ≠ id → s'.services id' = s.services id' := by
    intro id' hne
    simp [← hs', hne]
  -- what is there keeps its number, and the new one is last
  have hlt : ∀ k reg, s.At k reg → k < s.registrations.length :=
    fun k reg hk => (List.getElem?_eq_some_iff.mp hk).1
  have hold : ∀ k reg, s.At k reg → s'.At k reg := by
    intro k reg hk
    rw [At, ← hs', List.getElem?_append_left (hlt k reg hk)]
    exact hk
  have hat : ∀ k reg, s'.At k reg → s.At k reg ∨
      k = s.registrations.length ∧ reg = ⟨id, eid, false, .none⟩ := by
    intro k reg hk
    rw [At, ← hs', List.getElem?_append] at hk
    split at hk
    · exact .inl hk
    · rename_i hge
      obtain ⟨hk0, hreg⟩ := List.getElem?_eq_some_iff.mp hk
      simp only [List.length_singleton] at hk0
      exact .inr ⟨by omega, by simpa using hreg.symm⟩
  have hlisted : ∀ id' r, s.services id' = some r → s'.services id' = some r := by
    intro id' r hr
    rw [hother id' fun hc => by rw [hc, hnone] at hr; cases hr]
    exact hr
  constructor
  · intro r reg hr
    rw [hids]
    rcases hat r reg hr with hr | ⟨-, rfl⟩
    · exact h.resolved r reg hr
    · exact heid
  · intro eid' l hl
    obtain ⟨reg, hreg, hid, he, hrouted, hthere⟩ := h.entry eid' l (hlocals ▸ hl)
    exact ⟨reg, hold _ reg hreg, hid, he, hrouted, hthere.imp_left (hlisted _ _)⟩
  · rw [hlocals]
    exact h.single
  · intro id' r hr
    by_cases hid : id' = id
    · subst hid
      rw [hself] at hr
      cases hr
      refine ⟨⟨id', eid, false, .none⟩, ?_, rfl, rfl, nofun⟩
      simp [At, ← hs']
    · obtain ⟨reg, hreg, hrest⟩ := h.live id' r (by rw [← hother id' hid, hr])
      exact ⟨reg, hold r reg hreg, hlocals ▸ hrest⟩
  · intro r reg hr hun
    rcases hat r reg hr with hr | ⟨rfl, rfl⟩
    · exact (h.unrouted r reg hr hun).imp_left (hlisted _ _)
    · exact .inl hself
  · intro r reg hr hrouted hbegun
    rcases hat r reg hr with hr | ⟨-, rfl⟩
    · exact hlocals ▸ h.going r reg hr hrouted hbegun
    · cases hrouted
  · intro r reg r' reg' hr hr' hs hrouted hsame hbegun
    rcases hat r reg hr with hr | ⟨-, rfl⟩
    · have hid : reg.serviceId ≠ id := by
        rintro hid
        rw [hid, hself] at hs
        have := hlt r reg hr
        cases hs
        omega
      rcases hat r' reg' hr' with hr' | ⟨-, rfl⟩
      · exact h.alone r reg r' reg' hr hr' (by rw [← hother _ hid, hs]) hrouted hsame hbegun
      · cases hbegun
    · cases hrouted

theorem Inv.addService {s s' : State} (h : s.Inv) {r : Nat} (hapart : s.Apart (.addService r))
    (hs : s.addService r = some s') : s'.Inv := by
  obtain ⟨reg, hreg, hs⟩ := Option.bind_eq_some_iff.mp hs
  rw [Option.ite_none_left_eq_some] at hs
  obtain ⟨hrouted, hs⟩ := hs
  have hrouted : reg.routed = false := by simpa using hrouted
  -- nobody else has an entry under the pattern of the service
  have hempty : s.locals reg.eid = [] := by
    by_contra hne
    obtain ⟨l, hl⟩ := List.exists_mem_of_ne_nil _ hne
    obtain ⟨other, hother, hid, heid, hr, hthere⟩ := h.entry _ l hl
    have hsame : other.serviceId = reg.serviceId :=
      resolveEid_injective (heid ▸ h.resolved _ other hother) (h.resolved r reg hreg)
    have hself : l.registration ≠ r := by
      intro hc
      rw [hc] at hother
      rw [hother.unique hreg, hrouted] at hr
      cases hr
    rcases hthere with hthere | hbegun
    · rw [← hid, hsame] at hthere
      rcases h.unrouted r reg hreg hrouted with hmine | hbegun
      · exact hself (Option.some.inj (hthere.symm.trans hmine))
      · exact h.alone _ other r reg hother hreg (hsame ▸ hthere) hr hsame.symm hbegun
    · exact hself (hapart reg hreg _ other hother hsame hbegun)
  have hlocal : s'.locals reg.eid = [⟨reg.serviceId, r⟩] := by
    cases hs
    simp [hempty, Sorted.insert]
  have hlocals : ∀ eid, eid ≠ reg.eid → s'.locals eid = s.locals eid := by
    intro eid hne
    cases hs
    simp [hne]
  have hids : s'.nodeIds = s.nodeIds := by cases hs; rfl
  have hservices : s'.services = s.services := by cases hs; rfl
  have hat : ∀ k reg', s'.At k reg' ↔ k = r ∧ reg' = { reg with routed := true } ∨
      k ≠ r ∧ s.At k reg' := by
    intro k reg'
    cases hs
    exact at_set hreg
  -- an entry that was there is under another pattern
  have hkeep : ∀ eid l, l ∈ s.locals eid → eid ≠ reg.eid := by
    rintro eid l hl rfl
    rw [hempty] at hl
    cases hl
  constructor
  · intro k reg' hk
    rw [hids]
    rcases (hat k reg').mp hk with ⟨-, rfl⟩ | ⟨-, hk⟩
    · exact h.resolved r reg hreg
    · exact h.resolved k reg' hk
  · intro eid l hl
    rw [hservices]
    by_cases heid : eid = reg.eid
    · subst heid
      rw [hlocal, List.mem_singleton] at hl
      subst hl
      exact ⟨_, (hat r _).mpr (.inl ⟨rfl, rfl⟩), rfl, rfl, rfl, h.unrouted r reg hreg hrouted⟩
    · rw [hlocals eid heid] at hl
      obtain ⟨other, hother, hid, he, hr, hthere⟩ := h.entry eid l hl
      have hne : l.registration ≠ r := by
        intro hc
        rw [hc] at hother
        exact heid (hother.unique hreg ▸ he.symm)
      exact ⟨other, (hat _ _).mpr (.inr ⟨hne, hother⟩), hid, he, hr, hthere⟩
  · intro eid l hl
    by_cases heid : eid = reg.eid
    · subst heid
      rw [hlocal] at hl ⊢
      rw [List.mem_singleton.mp hl]
    · rw [hlocals eid heid] at hl ⊢
      exact h.single eid l hl
  · intro id k hk
    rw [hservices] at hk
    obtain ⟨reg', hreg', hid, hnone, hin⟩ := h.live id k hk
    by_cases hkr : k = r
    · subst hkr
      cases hreg'.unique hreg
      refine ⟨_, (hat k _).mpr (.inl ⟨rfl, rfl⟩), hid, hnone, fun _ => ?_⟩
      rw [hlocal, ← hid]
      exact List.mem_singleton_self _
    · refine ⟨reg', (hat k reg').mpr (.inr ⟨hkr, hreg'⟩), hid, hnone, fun hr => ?_⟩
      rw [hlocals _ (hkeep _ _ (hin hr))]
      exact hin hr
  · intro k reg' hk hun
    rw [hservices]
    rcases (hat k reg').mp hk with ⟨-, rfl⟩ | ⟨-, hk⟩
    · cases hun
    · exact h.unrouted k reg' hk hun
  · intro k reg' hk hr hbegun
    rcases (hat k reg').mp hk with ⟨rfl, rfl⟩ | ⟨-, hk⟩
    · rw [hlocal]
      exact List.mem_singleton_self _
    · have hin := h.going k reg' hk hr hbegun
      rw [hlocals _ (hkeep _ _ hin)]
      exact hin
  · intro k reg' k' reg'' hk hk' hs hr hsame hbegun
    rw [hservices] at hs
    rcases (hat k reg').mp hk with ⟨rfl, rfl⟩ | ⟨-, hk⟩
    · rcases (hat k' reg'').mp hk' with ⟨-, rfl⟩ | ⟨hne, hk'⟩
      · obtain ⟨other, hother, -, hnone, -⟩ := h.live _ _ hs
        cases hother.unique hreg
        rw [hnone] at hbegun
        cases hbegun
      · exact hne (hapart reg hreg k' reg'' hk' hsame hbegun)
    · rcases (hat k' reg'').mp hk' with ⟨-, rfl⟩ | ⟨-, hk'⟩
      · exact h.alone k reg' r reg hk hreg hs hr hsame hbegun
      · exact h.alone k reg' k' reg'' hk hk' hs hr hsame hbegun

theorem Inv.unregister {s s' : State} (h : s.Inv) {r : Nat} (hs : s.unregister r = some s') :
    s'.Inv := by
  obtain ⟨caller, -, hs⟩ := Option.bind_eq_some_iff.mp hs
  rw [Option.ite_none_left_eq_some] at hs
  obtain ⟨-, hs⟩ := hs
  -- the registration that the service id has now, whoever asks
  generalize caller.serviceId = id at hs
  cases hr : s.services id with
  | none =>
    rw [hr] at hs
    cases hs
    exact h
  | some r =>
    rw [hr] at hs
    obtain ⟨reg, hreg, hs⟩ := Option.map_eq_some_iff.mp hs
    obtain ⟨reg', hreg', hid, hnone, hin⟩ := h.live id r hr
    cases At.unique (hreg : s.At r reg) hreg'
    have hlocals : s'.locals = s.locals := by rw [← hs]; rfl
    have hids : s'.nodeIds = s.nodeIds := by rw [← hs]; rfl
    have hself : s'.services id = none := by simp [← hs]
    have hother : ∀ id', id' ≠ id → s'.services id' = s.services id' := by
      intro id' hne
      simp [← hs, hne, State.setRegistration]
    have hat : ∀ k other, s'.At k other ↔ k = r ∧ other = { reg with teardown := .begun } ∨
        k ≠ r ∧ s.At k other := by
      intro k other
      rw [← hs]
      exact at_set hreg
    have hback : ∀ id' k, s'.services id' = some k → id' ≠ id ∧ s.services id' = some k := by
      intro id' k hk
      by_cases hc : id' = id
      · rw [hc, hself] at hk
        cases hk
      · exact ⟨hc, by rw [← hother id' hc, hk]⟩
    have hforth : ∀ id' k, s.services id' = some k → k ≠ r → s'.services id' = some k := by
      intro id' k hk hne
      rw [hother id' ?_, hk]
      rintro rfl
      exact hne (Option.some.inj (hk.symm.trans hr))
    constructor
    · intro k other hk
      rw [hids]
      rcases (hat k other).mp hk with ⟨-, rfl⟩ | ⟨-, hk⟩
      · exact h.resolved r reg hreg
      · exact h.resolved k other hk
    · intro eid l hl
      obtain ⟨other, hother, hid', he, hrouted, hthere⟩ := h.entry eid l (hlocals ▸ hl)
      by_cases hne : l.registration = r
      · rw [hne] at hother
        cases hother.unique hreg
        exact ⟨_, (hat _ _).mpr (.inl ⟨hne, rfl⟩), hid', he, hrouted, .inr rfl⟩
      · exact ⟨other, (hat _ _).mpr (.inr ⟨hne, hother⟩), hid', he, hrouted,
          hthere.imp_left fun hk => hforth _ _ hk hne⟩
    · rw [hlocals]
      exact h.single
    · intro id' k hk
      obtain ⟨hne, hk⟩ := hback id' k hk
      obtain ⟨other, hother, hid', hrest⟩ := h.live id' k hk
      refine ⟨other, (hat k other).mpr (.inr ⟨?_, hother⟩), hid', hlocals ▸ hrest⟩
      rintro rfl
      cases hother.unique hreg
      exact hne (hid'.symm.trans hid)
    · intro k other hk hun
      rcases (hat k other).mp hk with ⟨-, rfl⟩ | ⟨hne, hk⟩
      · exact .inr rfl
      · exact (h.unrouted k other hk hun).imp_left fun hs => hforth _ _ hs hne
    · intro k other hk hrouted hbegun
      rw [hlocals]
      rcases (hat k other).mp hk with ⟨rfl, rfl⟩ | ⟨-, hk⟩
      · exact hid ▸ hin hrouted
      · exact h.going k other hk hrouted hbegun
    · intro k other k' other' hk hk' hlisted hrouted hsame hbegun
      obtain ⟨hne, hlisted⟩ := hback _ k hlisted
      rcases (hat k other).mp hk with ⟨-, rfl⟩ | ⟨-, hk⟩
      · exact hne hid
      · rcases (hat k' other').mp hk' with ⟨-, rfl⟩ | ⟨-, hk'⟩
        · exact hne (hsame.symm.trans hid)
        · exact h.alone k other k' other' hk hk' hlisted hrouted hsame hbegun

theorem Inv.removeService {s s' : State} (h : s.Inv) {r : Nat}
    (hapart : s.Apart (.removeService r)) (hs : s.removeService r = some s') : s'.Inv := by
  obtain ⟨reg, hreg, hs⟩ := Option.bind_eq_some_iff.mp hs
  rw [Option.ite_none_left_eq_some] at hs
  obtain ⟨hbegun, hs⟩ := hs
  have hbegun : reg.teardown = .begun := not_not.mp hbegun
  have hrouted : reg.routed = true := hapart reg hreg
  have hmine : s.locals reg.eid = [⟨reg.serviceId, r⟩] :=
    h.single _ _ (h.going r reg hreg hrouted hbegun)
  have hlocal : s'.locals reg.eid = [] := by
    cases hs
    have heq : compare (⟨reg.serviceId, r⟩ : Local) ⟨reg.serviceId, r⟩ = .eq :=
      compare_serviceId reg.serviceId
    simp [hmine, Sorted.remove, heq]
  have hlocals : ∀ eid, eid ≠ reg.eid → s'.locals eid = s.locals eid := by
    intro eid hne
    cases hs
    simp [hne]
  have hids : s'.nodeIds = s.nodeIds := by cases hs; rfl
  have hservices : s'.services = s.services := by cases hs; rfl
  have hat : ∀ k other, s'.At k other ↔ k = r ∧ other = { reg with teardown := .done } ∨
      k ≠ r ∧ s.At k other := by
    intro k other
    cases hs
    exact at_set hreg
  -- the entry that goes is the only one under its pattern
  have hkeep : ∀ eid l, l ∈ s.locals eid → l.registration ≠ r → eid ≠ reg.eid := by
    rintro eid l hl hne rfl
    rw [hmine, List.mem_singleton] at hl
    exact hne (hl ▸ rfl)
  constructor
  · intro k other hk
    rw [hids]
    rcases (hat k other).mp hk with ⟨-, rfl⟩ | ⟨-, hk⟩
    · exact h.resolved r reg hreg
    · exact h.resolved k other hk
  · intro eid l hl
    have heid : eid ≠ reg.eid := by
      rintro rfl
      rw [hlocal] at hl
      cases hl
    rw [hlocals eid heid] at hl
    obtain ⟨other, hother, hid, he, hr, hthere⟩ := h.entry eid l hl
    have hne : l.registration ≠ r := by
      intro hc
      rw [hc] at hother
      exact heid (hother.unique hreg ▸ he.symm)
    exact ⟨other, (hat _ _).mpr (.inr ⟨hne, hother⟩), hid, he, hr, hservices ▸ hthere⟩
  · intro eid l hl
    have heid : eid ≠ reg.eid := by
      rintro rfl
      rw [hlocal] at hl
      cases hl
    rw [hlocals eid heid] at hl ⊢
    exact h.single eid l hl
  · intro id k hk
    rw [hservices] at hk
    obtain ⟨other, hother, hid, hnone, hin⟩ := h.live id k hk
    have hne : k ≠ r := by
      rintro rfl
      rw [hother.unique hreg, hbegun] at hnone
      cases hnone
    refine ⟨other, (hat k other).mpr (.inr ⟨hne, hother⟩), hid, hnone, fun hr => ?_⟩
    rw [hlocals _ (hkeep _ _ (hin hr) hne)]
    exact hin hr
  · intro k other hk hun
    rw [hservices]
    rcases (hat k other).mp hk with ⟨-, rfl⟩ | ⟨-, hk⟩
    · rw [hrouted] at hun
      cases hun
    · exact h.unrouted k other hk hun
  · intro k other hk hr hb
    rcases (hat k other).mp hk with ⟨-, rfl⟩ | ⟨hne, hk⟩
    · cases hb
    · have hin := h.going k other hk hr hb
      rw [hlocals _ (hkeep _ _ hin hne)]
      exact hin
  · intro k other k' other' hk hk' hlisted hr hsame hb
    rw [hservices] at hlisted
    rcases (hat k' other').mp hk' with ⟨-, rfl⟩ | ⟨-, hk'⟩
    · cases hb
    · rcases (hat k other).mp hk with ⟨rfl, rfl⟩ | ⟨-, hk⟩
      · exact h.alone k reg k' other' hreg hk' hlisted hr hsame hb
      · exact h.alone k other k' other' hk hk' hlisted hr hsame hb

def calls : Machine State Label := .ofStep
  (fun s => s.registrations = [] ∧ (∀ id, s.services id = none) ∧ ∀ eid, s.locals eid = [])
  step

/-- Whenever no call is in progress, the registry and the table agree, if the
calls have kept apart. -/
theorem agree_of_apart {s : State} (h : (calls.only Apart).Reachable s) (hq : s.Quiescent) :
    s.Agree := by
  refine Inv.agree ?_ hq
  refine h.invariant ?_ ?_
  · rintro s ⟨hregs, hservices, hlocals⟩
    constructor <;> simp [At, hregs, hservices, hlocals]
  · rintro s l s' hinv ⟨hapart, hstep⟩
    cases l with
    | register id =>
      cases hstep
      exact hinv.register id
    | addService r => exact hinv.addService hapart hstep
    | unregister r => exact hinv.unregister hstep
    | removeService r => exact hinv.removeService hapart hstep

end State

/-! ## Two registrations of one service -/

namespace Overlap

open State

def start : State := ⟨⟨some ⟨0, 1⟩, none⟩, [], fun _ => none, fun _ => []⟩

theorem calls_start : calls.start start := ⟨rfl, fun _ => rfl, fun _ => rfl⟩

def first (teardown : Teardown) : Registration := ⟨.ipn 1, .ipn ⟨0, 1⟩ 1, true, teardown⟩

/-- The service registers, goes, and comes back when its route is gone. -/
theorem registered_agrees : ∃ s, (calls.only Apart).Reachable s ∧
    s.registrations = [first .done, first .none] ∧ s.services (.ipn 1) = some 1 ∧ s.Agree := by
  have h := Machine.Reachable.start (M := calls.only Apart) calls_start
  have h := h.step (Label.register (.ipn 1)) ⟨trivial, rfl⟩
  have h := h.step (Label.addService 0) (And.intro (by
    rintro reg - (_ | r') reg' hreg' - -
    · rfl
    · cases hreg') rfl)
  have h := h.step (Label.unregister 0) ⟨trivial, rfl⟩
  have h := h.step (Label.removeService 0) ⟨fun _ hreg => by cases hreg; rfl, rfl⟩
  have h := h.step (Label.register (.ipn 1)) ⟨trivial, rfl⟩
  have h := h.step (Label.addService 1) (And.intro (by
    rintro reg - (_ | _ | r') reg' hreg' - hbegun
    · cases hreg'
      cases hbegun
    · rfl
    · cases hreg') rfl)
  refine ⟨_, h, rfl, rfl, agree_of_apart h fun reg hreg => ?_⟩
  change reg ∈ [first .done, first .none] at hreg
  simp only [List.mem_cons, List.not_mem_nil, or_false] at hreg
  rcases hreg with rfl | rfl <;> exact ⟨rfl, by decide⟩

/-- The service registers again before the route of its first registration is
gone, which keeps the new route out and then goes. -/
def again : List Label :=
  [.register (.ipn 1), .addService 0, .unregister 0, .register (.ipn 1), .addService 1,
    .removeService 0]

theorem again_disagrees : ¬ ∀ s, calls.Reachable s → s.Quiescent → s.Agree := by
  intro h
  obtain ⟨s, hs, hregs, hlisted, hlocals, hid⟩ : ∃ s,
      Machine.runSteps State.step start again = some s ∧
      s.registrations = [first .done, first .none] ∧ s.services (.ipn 1) = some 1 ∧
      s.locals (.ipn ⟨0, 1⟩ 1) = [] ∧
      resolveEid s.nodeIds (.ipn 1) = some (.ipn ⟨0, 1⟩ 1) :=
    ⟨_, rfl, rfl, rfl, rfl, rfl⟩
  have hq : s.Quiescent := by
    intro reg hreg
    rw [hregs] at hreg
    simp only [List.mem_cons, List.not_mem_nil, or_false] at hreg
    rcases hreg with rfl | rfl <;> exact ⟨rfl, by decide⟩
  have hsame := (h s (Machine.reachable_runSteps (.start calls_start) hs) hq).same _ _ hid 1 hlisted
  rw [hlocals] at hsame
  cases hsame

end Overlap

end Hardy.Services
