import Hardy.Machine
import Hardy.Routing.Withdrawal

/-!
# Parking against route changes

The interleaving of dispatch tasks, route additions and the task that polls for
waiting bundles: `Dispatcher::process_bundle` and `park_bundle`, `Rib::add`,
`Rib::start` and `Dispatcher::poll_waiting`, each cut at its awaits.

A table is known by the number of times it has been published.  The rest of the
node may change any record between two steps; where it puts one back to
`Waiting`, that is remembered (`State.held`), and so it is of a task that has
found a route and leaves its bundle where it is.
-/

namespace Hardy.Routing

open Bpa (BundleStatus)

/-- How far an activation of `process_bundle` has got, with the number of the
table that it takes for current. -/
inductive Phase where
  | begun
  | seen (version : Nat)
  /-- The lookup has found nothing. -/
  | unrouted (version : Nat)
  /-- The lookup has found a route. -/
  | routed (version : Nat)
  /-- The bundle is parked as `Waiting`, the check of the table is to come. -/
  | parked (version : Nat)

/-- An activation, with the status of its copy of the bundle. -/
structure Task where
  id : Id
  copy : BundleStatus
  phase : Phase

structure State where
  table : RouteTable
  version : Nat
  /-- The calls of `add` that have published and not notified yet. -/
  publishing : Nat
  /-- The permit of `poll_waiting_notify`. -/
  permit : Bool
  /-- The bundles that a running poll still has to emit. -/
  poll : Option (Set Id)
  status : Id → Option BundleStatus
  held : Id → Prop
  tasks : Nat → Option Task

namespace State

structure Quiescent (s : State) : Prop where
  publishing : s.publishing = 0
  permit : s.permit = false
  poll : s.poll = none
  tasks : ∀ k, s.tasks k = none

def setTask (s : State) (k : Nat) (t : Option Task) : State :=
  { s with tasks := Function.update s.tasks k t }

def setStatus (s : State) (id : Id) (status : Option BundleStatus) : State :=
  { s with status := Function.update s.status id status }

/-- Whether the bundle is left in `Waiting` by somebody who knows of a route. -/
def setHeld (s : State) (id : Id) (held : Prop) : State :=
  { s with held := Function.update s.held id held }

section

variable {s : State} {k : Nat} {t : Option Task} {id : Id} {status : Option BundleStatus}
  {held : Prop}

@[simp] theorem setTask_status : (s.setTask k t).status = s.status := rfl
@[simp] theorem setTask_held : (s.setTask k t).held = s.held := rfl
@[simp] theorem setStatus_held : (s.setStatus id status).held = s.held := rfl
@[simp] theorem setHeld_status : (s.setHeld id held).status = s.status := rfl
@[simp] theorem setStatus_status :
    (s.setStatus id status).status = Function.update s.status id status := rfl
@[simp] theorem setHeld_held : (s.setHeld id held).held = Function.update s.held id held := rfl

end

end State

section

variable [Globs] (ecmpHash : Eid × Eid × Option Nat → Nat) (subject : Id → Subject)

def State.find (s : State) (id : Id) : Option DispatchAction :=
  Rib.find ⟨s.table, ecmpHash, (), 0⟩ (subject id)

/-- Where `process_bundle` parks a bundle without a route. -/
def State.parkStatus (s : State) (id : Id) : BundleStatus :=
  match s.table.nodeIds.localServiceEid (subject id).destination with
  | some service => .waitingForService service
  | none => .waiting

inductive Label where
  | publish | reset | notify
  | pollBegin | pollEmit | pollSkip | pollEnd
  | activate | snapshot | lookup | park | recheck | handle
  | other

open Function in
inductive Step : State → Label → State → Prop where
  /-- `Rib::add` publishes a table with a new entry, which is no
  administrative endpoint. -/
  | publish {s : State} {pattern source action priority table}
      (hadd : (Rib.mk s.table ecmpHash () 0).published pattern source action priority =
        .ok (some table))
      (haction : action ≠ .internal .adminEndpoint) :
      Step s .publish
        { s with table, version := s.version + 1, publishing := s.publishing + 1 }
  /-- `reset_peer_queues`, on its way to the notification. -/
  | reset {s : State} {id peer queue nextHop} (hadd : 0 < s.publishing)
      (hstatus : s.status id = some (.forwardPending peer queue nextHop)) :
      Step s .reset ((s.setStatus id (some .waiting)).setHeld id False)
  | notify {s : State} {n : Nat} (hadd : s.publishing = n + 1) :
      Step s .notify { s with publishing := n, permit := true }
  /-- The polling task takes the permit and asks the store for what waits. -/
  | pollBegin {s : State} (hpermit : s.permit = true) (hidle : s.poll = none) :
      Step s .pollBegin
        { s with permit := false, poll := some {id | s.status id = some .waiting} }
  | pollEmit {s : State} {k id pending} (hpoll : s.poll = some pending) (hid : id ∈ pending)
      (hfree : s.tasks k = none) :
      Step s .pollEmit
        ({ s with poll := some (pending \ {id}) }.setTask k (some ⟨id, .waiting, .begun⟩))
  /-- What has ceased to wait need not be emitted. -/
  | pollSkip {s : State} {id pending} (hpoll : s.poll = some pending)
      (hgone : s.status id ≠ some .waiting) :
      Step s .pollSkip { s with poll := some (pending \ {id}) }
  | pollEnd {s : State} (hpoll : s.poll = some ∅) : Step s .pollEnd { s with poll := none }
  /-- Any other producer hands out a copy, fresh or stale. -/
  | activate {s : State} {k id copy} (hfree : s.tasks k = none) :
      Step s .activate (s.setTask k (some ⟨id, copy, .begun⟩))
  /-- An activation ends at the expiry checkpoint: `drop_bundle`, which loses or
  leaves a tombstone. -/
  | expire {s s' : State} {k id copy} (htask : s.tasks k = some ⟨id, copy, .begun⟩)
      (hdrop : s' = s ∧ s.status id ≠ some copy ∨
        s' = s.setStatus id none ∧ s.status id = some copy) :
      Step s .handle (s'.setTask k none)
  /-- `table_snapshot` -/
  | snapshot {s : State} {k id copy} (htask : s.tasks k = some ⟨id, copy, .begun⟩) :
      Step s .snapshot (s.setTask k (some ⟨id, copy, .seen s.version⟩))
  /-- `Rib::find` -/
  | lookupNone {s : State} {k id copy v} (htask : s.tasks k = some ⟨id, copy, .seen v⟩)
      (hfind : s.find ecmpHash subject id = none) :
      Step s .lookup (s.setTask k (some ⟨id, copy, .unrouted v⟩))
  | lookupSome {s : State} {k id copy v} (htask : s.tasks k = some ⟨id, copy, .seen v⟩)
      (hfind : s.find ecmpHash subject id ≠ none) :
      Step s .lookup (s.setTask k (some ⟨id, copy, .routed v⟩))
  /-- The swap of `park_bundle` -/
  | park {s : State} {k id copy v} (htask : s.tasks k = some ⟨id, copy, .unrouted v⟩)
      (hstatus : s.status id = some copy) (hwait : s.parkStatus subject id = .waiting) :
      Step s .park (((s.setStatus id (some .waiting)).setHeld id False).setTask k
        (some ⟨id, .waiting, .parked v⟩))
  | parkLocal {s : State} {k id copy v service}
      (htask : s.tasks k = some ⟨id, copy, .unrouted v⟩) (hstatus : s.status id = some copy)
      (hwait : s.parkStatus subject id = .waitingForService service) :
      Step s .park ((s.setStatus id (some (.waitingForService service))).setTask k none)
  | parkLost {s : State} {k id copy v} (htask : s.tasks k = some ⟨id, copy, .unrouted v⟩)
      (hstatus : s.status id ≠ some copy) : Step s .park (s.setTask k none)
  /-- `table_changed_since`, and the swap back to `Dispatching` -/
  | recheckSame {s : State} {k id copy} (htask : s.tasks k = some ⟨id, copy, .parked s.version⟩) :
      Step s .recheck (s.setTask k none)
  | recheckChanged {s : State} {k id copy v} (htask : s.tasks k = some ⟨id, copy, .parked v⟩)
      (hchanged : v ≠ s.version) (hstatus : s.status id = some .waiting) :
      Step s .recheck ((s.setStatus id (some .dispatching)).setTask k none)
  | recheckLost {s : State} {k id copy v} (htask : s.tasks k = some ⟨id, copy, .parked v⟩)
      (hchanged : v ≠ s.version) (hstatus : s.status id ≠ some .waiting) :
      Step s .recheck (s.setTask k none)
  /-- The route's handler claims the bundle or deletes it. -/
  | handle {s : State} {k id copy v status} (htask : s.tasks k = some ⟨id, copy, .routed v⟩)
      (hleave : status ≠ some .waiting) :
      Step s .handle ((s.setStatus id status).setTask k none)
  | handleLost {s : State} {k id copy v} (htask : s.tasks k = some ⟨id, copy, .routed v⟩)
      (hstatus : s.status id ≠ some copy) : Step s .handle (s.setTask k none)
  /-- The handler fails, and puts the bundle back or leaves it. -/
  | handleFailed {s : State} {k id copy v} (htask : s.tasks k = some ⟨id, copy, .routed v⟩)
      (hstatus : s.status id = some copy) :
      Step s .handle (((s.setStatus id (some .waiting)).setHeld id True).setTask k
        (some ⟨id, .waiting, .parked v⟩))
  | handleLeft {s : State} {k id copy v} (htask : s.tasks k = some ⟨id, copy, .routed v⟩) :
      Step s .handle ((s.setHeld id True).setTask k none)
  /-- The rest of the node writes a record. -/
  | other {s : State} {id status} (hleave : status ≠ some .waiting) :
      Step s .other (s.setStatus id status)
  | otherParks {s : State} {id} :
      Step s .other ((s.setStatus id (some .waiting)).setHeld id True)

/-- The running node: the polling task is notified once when it starts. -/
def parking : Machine State Label where
  start s := s.publishing = 0 ∧ s.permit = true ∧ s.poll = none ∧ ∀ k, s.tasks k = none
  step := Step ecmpHash subject

/-! ## Who still comes for a bundle -/

/-- The activation is going to take a waiting bundle out of `Waiting`, unless
it finds no route. -/
def Task.Carries (t : Task) (version : Nat) : Prop :=
  match t.phase with
  | .begun | .seen _ | .routed _ => t.copy = .waiting
  | .unrouted v => t.copy = .waiting ∧ v ≠ version
  | .parked v => v ≠ version

def Task.Sound (t : Task) (s : State) : Prop :=
  match t.phase with
  | .seen v => v ≤ s.version
  | .unrouted v => v ≤ s.version ∧ (v = s.version → s.find ecmpHash subject t.id = none)
  | _ => True

/-- Somebody is still going to look at the bundle. -/
inductive State.Pending (s : State) (id : Id) : Prop where
  | publishing (h : 0 < s.publishing)
  | permit (h : s.permit = true)
  | poll {pending : Set Id} (h : s.poll = some pending) (hid : id ∈ pending)
  | task {k : Nat} {t : Task} (h : s.tasks k = some t) (hid : t.id = id)
      (hcarries : t.Carries s.version)

structure Inv (s : State) : Prop where
  sound : ∀ k t, s.tasks k = some t → t.Sound ecmpHash subject s
  awake : ∀ id, s.status id = some .waiting → ¬s.held id → s.find ecmpHash subject id ≠ none →
    s.Pending id

/-- Everything but the records and the activations is the same. -/
structure State.SameRoutes (s s' : State) : Prop where
  table : s'.table = s.table
  version : s'.version = s.version
  publishing : s'.publishing = s.publishing
  permit : s'.permit = s.permit
  poll : s'.poll = s.poll

variable {ecmpHash subject} {s s' : State} {k : Nat} {id : Id} {t : Task} {new : Option Task}

omit [Globs] in
theorem State.Pending.replace (h : s.Pending id) (hs : s.SameRoutes s')
    (htasks : s'.tasks = Function.update s.tasks k new)
    (hk : ∀ t, s.tasks k = some t → t.id = id → t.Carries s.version →
      ∃ t', new = some t' ∧ t'.id = id ∧ t'.Carries s.version) : s'.Pending id := by
  cases h with
  | publishing h => exact .publishing (hs.publishing ▸ h)
  | permit h => exact .permit (hs.permit ▸ h)
  | poll h hid => exact .poll (hs.poll.trans h) hid
  | @task k' t h hid hcarries =>
    by_cases hkk : k' = k
    · subst hkk
      obtain ⟨t', rfl, hid', hcarries'⟩ := hk t h hid hcarries
      exact .task (k := k') (by rw [htasks, Function.update_self]) hid' (hs.version ▸ hcarries')
    · exact .task (k := k') (by rw [htasks, Function.update_of_ne hkk, h]) hid
        (hs.version ▸ hcarries)

theorem Task.Sound.same (h : t.Sound ecmpHash subject s) (hs : s.SameRoutes s') :
    t.Sound ecmpHash subject s' := by
  rw [Task.Sound] at h ⊢
  split
  · rename_i hp
    rw [hp] at h
    exact hs.version ▸ h
  · rename_i hp
    rw [hp] at h
    rw [State.find, hs.version, hs.table]
    exact h
  · trivial

theorem Inv.replace (h : Inv ecmpHash subject s) (hs : s.SameRoutes s')
    (htask : s.tasks k = some t) (htasks : s'.tasks = Function.update s.tasks k new)
    (hothers : ∀ id, id ≠ t.id → s'.status id = s.status id ∧ (s'.held id ↔ s.held id))
    (hself : s'.status t.id = some .waiting → ¬s'.held t.id →
      s'.find ecmpHash subject t.id ≠ none → s'.Pending t.id)
    (hnew : ∀ t', new = some t' → t'.Sound ecmpHash subject s') : Inv ecmpHash subject s' := by
  constructor
  · intro k' t' ht'
    rw [htasks] at ht'
    by_cases hk : k' = k
    · subst hk
      rw [Function.update_self] at ht'
      exact hnew t' ht'
    · rw [Function.update_of_ne hk] at ht'
      exact (h.sound k' t' ht').same hs
  · intro id hwait hheld hfind
    by_cases hid : id = t.id
    · subst hid
      exact hself hwait hheld hfind
    · obtain ⟨hstatus, hheld'⟩ := hothers id hid
      have hp := h.awake id (hstatus ▸ hwait) (fun hh => hheld (hheld'.mpr hh))
        (by rw [State.find, hs.table] at hfind; exact hfind)
      refine hp.replace hs htasks fun u hu huid _ => ?_
      rw [htask] at hu
      cases hu
      exact absurd huid.symm hid

omit [Globs] in
theorem State.setTask_same (s : State) (k : Nat) (t : Option Task) : s.SameRoutes (s.setTask k t) :=
  ⟨rfl, rfl, rfl, rfl, rfl⟩

theorem Inv.advance (h : Inv ecmpHash subject s) (htask : s.tasks k = some t)
    (hcarries : s.status t.id = some .waiting → s.find ecmpHash subject t.id ≠ none →
      t.Carries s.version → ∃ t', new = some t' ∧ t'.id = t.id ∧ t'.Carries s.version)
    (hnew : ∀ t', new = some t' → t'.Sound ecmpHash subject s) :
    Inv ecmpHash subject (s.setTask k new) := by
  refine h.replace (s.setTask_same k new) htask rfl (fun _ _ => ⟨rfl, .rfl⟩)
    (fun hwait hheld hfind => ?_) fun t' ht' => (hnew t' ht').same (s.setTask_same k new)
  refine (h.awake t.id hwait hheld hfind).replace (s.setTask_same k new) rfl fun u hu _ hc => ?_
  rw [htask] at hu
  cases hu
  exact hcarries hwait hfind hc

theorem Inv.done (h : Inv ecmpHash subject s) (htask : s.tasks k = some t)
    (hcarries : s.status t.id = some .waiting → s.find ecmpHash subject t.id ≠ none →
      ¬t.Carries s.version) : Inv ecmpHash subject (s.setTask k none) :=
  h.advance htask (fun hw hf hc => absurd hc (hcarries hw hf)) fun _ h => nomatch h

theorem Inv.leave (h : Inv ecmpHash subject s) (hs : s.SameRoutes s') (htask : s.tasks k = some t)
    (htasks : s'.tasks = Function.update s.tasks k new)
    (hothers : ∀ id, id ≠ t.id → s'.status id = s.status id ∧ (s'.held id ↔ s.held id))
    (hself : s'.status t.id ≠ some .waiting ∨ s'.held t.id)
    (hnew : ∀ t', new = some t' → t'.Sound ecmpHash subject s') : Inv ecmpHash subject s' :=
  h.replace hs htask htasks hothers
    (fun hwait hheld _ => absurd hwait (hself.resolve_right hheld)) hnew

theorem Inv.write (h : Inv ecmpHash subject s) (id : Id) (hs : s.SameRoutes s') (htasks : s'.tasks = s.tasks)
    (hothers : ∀ i, i ≠ id → s'.status i = s.status i ∧ (s'.held i ↔ s.held i))
    (hself : s'.status id ≠ some .waiting ∨ s'.held id) : Inv ecmpHash subject s' := by
  refine ⟨fun k t ht => (h.sound k t (htasks ▸ ht)).same hs, fun i hwait hheld hfind => ?_⟩
  by_cases hi : i = id
  · subst hi
    exact absurd hwait (hself.resolve_right hheld)
  · obtain ⟨hstatus, hheld'⟩ := hothers i hi
    have hp := h.awake i (hstatus ▸ hwait) (fun hh => hheld (hheld'.mpr hh))
      (by rw [State.find, hs.table] at hfind; exact hfind)
    cases hp with
    | publishing h => exact .publishing (hs.publishing ▸ h)
    | permit h => exact .permit (hs.permit ▸ h)
    | poll h hid => exact .poll (hs.poll.trans h) hid
    | task h hid hc => exact .task ((congrFun htasks _).trans h) hid (hs.version ▸ hc)

theorem Inv.activate (h : Inv ecmpHash subject s) (hfree : s.tasks k = none) (id : Id)
    (copy : BundleStatus) : Inv ecmpHash subject (s.setTask k (some ⟨id, copy, .begun⟩)) := by
  constructor
  · intro k' t' ht'
    change Function.update s.tasks k _ k' = some t' at ht'
    by_cases hk : k' = k
    · subst hk
      rw [Function.update_self] at ht'
      cases ht'
      trivial
    · rw [Function.update_of_ne hk] at ht'
      exact (h.sound k' t' ht').same (s.setTask_same k _)
  · intro i hwait hheld hfind
    refine (h.awake i hwait hheld hfind).replace (s.setTask_same k _) rfl fun t ht => ?_
    rw [hfree] at ht
    cases ht

theorem Inv.polled (h : Inv ecmpHash subject s) {pending : Set Id} (hpoll : s.poll = some pending)
    (hid : s.status id = some .waiting →
      ∃ k, s.tasks k = some ⟨id, .waiting, .begun⟩) :
    Inv ecmpHash subject { s with poll := some (pending \ {id}) } := by
  refine ⟨h.sound, fun i hwait hheld hfind => ?_⟩
  cases h.awake i hwait hheld hfind with
  | publishing h => exact .publishing h
  | permit h => exact .permit h
  | task h hid hc => exact .task h hid hc
  | @poll p hp hmem =>
    obtain rfl : p = pending := Option.some.inj (hp.symm.trans hpoll)
    by_cases hi : i = id
    · subst hi
      obtain ⟨k, hk⟩ := hid hwait
      exact .task hk rfl rfl
    · exact .poll rfl ⟨hmem, hi⟩

theorem Inv.publish (h : Inv ecmpHash subject s) (table : RouteTable) :
    Inv ecmpHash subject
      { s with table, version := s.version + 1, publishing := s.publishing + 1 } := by
  refine ⟨fun k t ht => ?_, fun _ _ _ _ => .publishing (Nat.succ_pos _)⟩
  have hsound := h.sound k t ht
  rw [Task.Sound] at hsound ⊢
  split
  · rename_i hp
    rw [hp] at hsound
    exact Nat.le_succ_of_le hsound
  · rename_i v hp
    rw [hp] at hsound
    exact ⟨Nat.le_succ_of_le hsound.1, fun hv => absurd (hv ▸ hsound.1) (Nat.not_succ_le_self _)⟩
  · trivial

theorem Inv.step {l : Label} (h : Inv ecmpHash subject s) (hstep : Step ecmpHash subject s l s') :
    Inv ecmpHash subject s' := by
  cases hstep with
  | publish hadd haction => exact h.publish _
  | reset hadd hstatus =>
    refine ⟨fun k t ht => ?_, fun _ _ _ _ => .publishing hadd⟩
    exact (h.sound k t ht).same ⟨rfl, rfl, rfl, rfl, rfl⟩
  | notify hadd =>
    exact ⟨fun k t ht => h.sound k t ht, fun _ _ _ _ => .permit rfl⟩
  | pollBegin hpermit hidle =>
    exact ⟨fun k t ht => h.sound k t ht, fun _ hwait _ _ => .poll rfl hwait⟩
  | @pollEmit k id pending hpoll hid hfree =>
    have hnew := h.activate hfree id .waiting
    exact hnew.polled hpoll fun _ => ⟨k, Function.update_self ..⟩
  | pollSkip hpoll hgone => exact h.polled hpoll fun hwait => absurd hwait hgone
  | pollEnd hpoll =>
    refine ⟨fun k t ht => h.sound k t ht, fun i hwait hheld hfind => ?_⟩
    cases h.awake i hwait hheld hfind with
    | publishing h => exact .publishing h
    | permit h => exact .permit h
    | task h hid hc => exact .task h hid hc
    | poll hp hmem =>
      rw [hpoll] at hp
      cases hp
      exact absurd hmem (Set.notMem_empty i)
  | activate hfree => exact h.activate hfree _ _
  | expire htask hdrop =>
    rcases hdrop with ⟨rfl, hlost⟩ | ⟨rfl, -⟩
    · exact h.done htask fun hw _ hc => hlost (hw.trans (congrArg some (Eq.symm hc)))
    · exact h.leave ⟨rfl, rfl, rfl, rfl, rfl⟩ htask rfl (fun _ hid => by simp [hid])
        (.inl (by simp)) fun _ h => nomatch h
  | snapshot htask =>
    refine h.advance htask (fun _ _ hc => ⟨_, rfl, rfl, hc⟩) fun t' ht' => ?_
    cases ht'
    exact le_refl _
  | lookupNone htask hfind =>
    refine h.advance htask (fun _ hf _ => absurd hfind hf) fun t' ht' => ?_
    cases ht'
    exact ⟨h.sound _ _ htask, fun _ => hfind⟩
  | lookupSome htask hfind =>
    refine h.advance htask (fun _ _ hc => ⟨_, rfl, rfl, hc⟩) fun t' ht' => ?_
    cases ht'
    trivial
  | @park k id copy v htask hstatus hwait =>
    -- the lookup was on the current table, or the check will see the change
    refine h.replace ⟨rfl, rfl, rfl, rfl, rfl⟩ htask rfl (fun _ hid => by simp [hid])
      (fun _ _ hfind => ?_) fun t' ht' => ?_
    · refine .task (Function.update_self k ..) rfl fun hv => ?_
      exact hfind ((h.sound _ _ htask).2 hv)
    · cases ht'
      trivial
  | parkLocal htask hstatus hwait =>
    exact h.leave ⟨rfl, rfl, rfl, rfl, rfl⟩ htask rfl (fun _ hid => by simp [hid])
      (.inl (by simp)) fun _ h => nomatch h
  | parkLost htask hstatus =>
    refine h.done htask fun hw _ hc => ?_
    exact hstatus (hw.trans (congrArg some hc.1.symm))
  | recheckSame htask => exact h.done htask fun _ _ hc => hc rfl
  | recheckChanged htask hchanged hstatus =>
    exact h.leave ⟨rfl, rfl, rfl, rfl, rfl⟩ htask rfl (fun _ hid => by simp [hid])
      (.inl (by simp)) fun _ h => nomatch h
  | recheckLost htask hchanged hstatus => exact h.done htask fun hw => absurd hw hstatus
  | handle htask hleave =>
    exact h.leave ⟨rfl, rfl, rfl, rfl, rfl⟩ htask rfl (fun _ hid => by simp [hid])
      (.inl (by simpa using hleave)) fun _ h => nomatch h
  | handleLost htask hstatus =>
    refine h.done htask fun hw _ hc => ?_
    exact hstatus (hw.trans (congrArg some (Eq.symm hc)))
  | handleFailed htask hstatus =>
    refine h.leave ⟨rfl, rfl, rfl, rfl, rfl⟩ htask rfl (fun _ hid => by simp [hid])
      (.inr (by simp)) fun t' ht' => ?_
    cases ht'
    trivial
  | handleLeft htask =>
    exact h.leave ⟨rfl, rfl, rfl, rfl, rfl⟩ htask rfl (fun _ hid => by simp [hid])
      (.inr (by simp)) fun _ h => nomatch h
  | @other id status hleave =>
    refine h.write id ⟨rfl, rfl, rfl, rfl, rfl⟩ rfl (fun _ hid => ?_) (.inl ?_)
    · simp [hid]
    · simpa using hleave
  | @otherParks id =>
    refine h.write id ⟨rfl, rfl, rfl, rfl, rfl⟩ rfl (fun _ hid => ?_) (.inr ?_)
    · simp [hid]
    · simp

theorem inv_reachable (h : (parking ecmpHash subject).Reachable s) : Inv ecmpHash subject s := by
  refine h.invariant (fun s hs => ?_) fun _ _ _ h hstep => h.step hstep
  refine ⟨fun k t ht => ?_, fun _ _ _ _ => .permit hs.2.1⟩
  rw [hs.2.2.2 k] at ht
  cases ht

/-- When nothing is under way, no bundle waits for a route that is there, but
for those that have been put back by somebody who knew of a route. -/
theorem no_route_while_waiting (h : (parking ecmpHash subject).Reachable s) (hq : s.Quiescent)
    (hwait : s.status id = some .waiting) (hheld : ¬s.held id) :
    s.find ecmpHash subject id = none := by
  by_contra hfind
  cases (inv_reachable h).awake id hwait hheld hfind with
  | publishing h => exact absurd hq.publishing h.ne'
  | permit h => exact absurd (hq.permit.symm.trans h) Bool.false_ne_true
  | poll h => exact absurd (hq.poll.symm.trans h) nofun
  | task h => exact absurd ((hq.tasks _).symm.trans h) nofun

end

/-! ## A run to its end -/

namespace Parked

local instance : Globs := .literal

def id : Id := ⟨.ipn ⟨0, 9⟩ 1, ⟨none, 0⟩, none⟩

/-- A node without routes, and one bundle that waits from before a restart. -/
def started : State where
  table := .new ⟨some ⟨0, 1⟩, none⟩
  version := 0
  publishing := 0
  permit := true
  poll := none
  status i := if i = id then some .waiting else none
  held _ := False
  tasks _ := none

/-- A route to another node. -/
def added : RouteTable :=
  match (Rib.mk started.table (fun _ => 0) () 0).published (Detour.node 4) "neighbours"
    (.internal (.forward 77)) 0 with
  | .ok (some table) => table
  | _ => started.table

/-- The poll hands the bundle to an activation.  A route is added while it parks
the bundle, and so a second one looks again, and finds nothing either. -/
theorem parked_reachable :
    ∃ s, (parking (fun _ => 0) fun _ => Detour.subject).Reachable s ∧ s.Quiescent ∧
      s.table = added ∧ s.status id = some .waiting ∧ ¬s.held id := by
  have hwait : started.status id = some .waiting := by simp [started]
  have h := Machine.Reachable.start (M := parking (fun _ => 0) fun _ => Detour.subject)
    (s := started) ⟨rfl, rfl, rfl, fun _ => rfl⟩
  have h := h.step _ (.pollBegin rfl rfl)
  have h := h.step _ (.pollEmit (k := 0) rfl hwait rfl)
  have hnone : ({i | started.status i = some .waiting} : Set Id) \ {id} = ∅ := by
    ext i
    simp [started]
  have h := h.step _ (.pollEnd (congrArg some hnone))
  have h := h.step _ (.snapshot (Function.update_self ..))
  have h := h.step _ (.lookupNone (Function.update_self ..) (by decide))
  have hadd : (Rib.mk started.table (fun _ => 0) () 0).published (Detour.node 4) "neighbours"
      (.internal (.forward 77)) 0 = .ok (some added) := rfl
  have h := h.step _ (.publish hadd nofun)
  have h := h.step _ (.park (Function.update_self ..) hwait (by decide))
  have h := h.step _ (.recheckChanged (Function.update_self ..) (by decide)
    (by simp))
  have h := h.step _ (.notify (n := 0) rfl)
  have h := h.step _ (@Step.activate _ _ _ _ 0 id .dispatching (by simp [State.setTask]))
  have h := h.step _ (.pollBegin rfl rfl)
  have h := h.step _ (.snapshot (Function.update_self ..))
  have h := h.step _ (.lookupNone (Function.update_self ..) (by decide))
  have h := h.step _ (.park (Function.update_self ..) (by simp [State.setTask]) (by decide))
  have h := h.step _ (.recheckSame (Function.update_self ..))
  have h := h.step _ (.pollEnd (congrArg some (Set.eq_empty_iff_forall_notMem.mpr fun i hi => by
    by_cases hid : i = id <;> simp_all [started, State.setTask])))
  exact ⟨_, h, ⟨rfl, rfl, rfl, fun k => by
    by_cases hk : k = 0 <;> simp [State.setTask, State.setStatus, State.setHeld, started, hk]⟩, rfl,
    by simp [State.setTask], by simp [State.setTask]⟩

theorem parked_unroutable :
    ∃ s : State, s.table = added ∧ s.status id = some .waiting ∧
      s.find (fun _ => 0) (fun _ => Detour.subject) id = none := by
  obtain ⟨s, hs, hq, htable, hwait, hheld⟩ := parked_reachable
  exact ⟨s, htable, hwait, no_route_while_waiting hs hq hwait hheld⟩

end Parked

end Hardy.Routing
