import Hardy.Routing.Installed
import Hardy.Tvr.Book

/-!
# Routes of the active contacts

The scheduler counts the contacts of each route, and a route is a whole pattern.  The
table keeps the atoms of the patterns, after expansion of the local node, and does not
count: a removal takes atoms out that another installed route has as well.  Where none
has them (`Apart`), the table holds just the routes of the active contacts.
-/

namespace Hardy.Tvr

open Routing RouteTable

/-- The routes of the scheduler, with the types that the `Rib` has for them. -/
abbrev Route := RouteKey EidPattern Routing.RouteAction

abbrev RouteOp := PendingRouteOp EidPattern Routing.RouteAction

section

variable {σ : Type} [Globs] [QueueResets σ] {r r' : Rib σ} {source : String} {key key' : Route}
  {keys keys' : Route → Bool} {ops : List RouteOp}

/-- `apply_route_op` under the agent's source name, where the table accepts it. -/
def applyRouteOp (source : String) (r : Rib σ) : RouteOp → Option (Rib σ)
  | .add key =>
    match r.add key.pattern source (.route key.action) key.priority with
    | .ok (_, r) => some r
    | .error _ => none
  | .remove key => some (r.remove key.pattern source (.route key.action) key.priority).2

def applyRouteOps (source : String) (r : Rib σ) (ops : List RouteOp) : Option (Rib σ) :=
  ops.foldlM (applyRouteOp source) r

structure Provides (r : Rib σ) (key : Route) (priority : Nat) (atom : EidPattern)
    (action : Action) : Prop where
  priority : key.priority = priority
  atom : HasAtom (r.expandPattern key.pattern) atom
  action : r.expandAction (.route key.action) = action

def Shares (r : Rib σ) (key key' : Route) : Prop :=
  ∃ priority atom action, Provides r key priority atom action ∧
    Provides r key' priority atom action

def Reflects (source : String) (r : Rib σ) (keys : Route → Bool) : Prop :=
  ∀ priority atom action, r.table.Installed priority atom ⟨action, source⟩ ↔
    ∃ key, keys key = true ∧ Provides r key priority atom action

/-- No route is removed while another one is installed that shares an entry with it. -/
def Apart (r : Rib σ) : (Route → Bool) → List RouteOp → Prop
  | _, [] => True
  | keys, .add key :: ops => Apart r (Function.update keys key true) ops
  | keys, .remove key :: ops =>
    (∀ key', keys key' = true → key' ≠ key → ¬ Shares r key key') ∧
      Apart r (Function.update keys key false) ops

/-! ## One operation -/

section

omit [QueueResets σ] [Globs]

theorem provides_congr (h : r'.table.nodeIds = r.table.nodeIds) {priority : Nat}
    {atom : EidPattern} {action : Action} :
    Provides r' key priority atom action ↔ Provides r key priority atom action := by
  have hpattern : r'.expandPattern = r.expandPattern := by
    funext pattern
    unfold Rib.expandPattern
    rw [h]
  have haction : r'.expandAction = r.expandAction := by
    funext action
    unfold Rib.expandAction
    rw [h]
  constructor
  · rintro ⟨hp, ha, hact⟩
    exact ⟨hp, hpattern ▸ ha, haction ▸ hact⟩
  · rintro ⟨hp, ha, hact⟩
    exact ⟨hp, hpattern ▸ ha, haction ▸ hact⟩

theorem shares_congr (h : r'.table.nodeIds = r.table.nodeIds) :
    Shares r' key key' ↔ Shares r key key' := by
  unfold Shares
  simp only [provides_congr h]

theorem apart_congr (h : r'.table.nodeIds = r.table.nodeIds) :
    Apart r' keys ops ↔ Apart r keys ops := by
  induction ops generalizing keys with
  | nil => exact Iff.rfl
  | cons op ops ih =>
    cases op with
    | add key => exact ih
    | remove key =>
      unfold Apart
      simp only [shares_congr h, ih]

theorem compare_expandAction {a : Action} {action : Routing.RouteAction} :
    compare (⟨a, source⟩ : Entry) ⟨r.expandAction (.route action), source⟩ = .eq ↔
      r.expandAction (.route action) = a := by
  obtain ⟨action', haction⟩ : ∃ action', r.expandAction (.route action) = .route action' := by
    cases action <;> exact ⟨_, rfl⟩
  rw [haction, Entry.compare_eq]
  constructor
  · rintro ⟨h, -⟩
    cases a with
    | route b => rw [Routing.RouteAction.eq_of_compare h]
    | internal b => cases b <;> cases action' <;> cases h
  · rintro rfl
    exact ⟨Std.ReflCmp.compare_self, rfl⟩

end

theorem reflects_add (h : r.table.InOrder) (hr : Reflects source r keys)
    (happly : applyRouteOp source r (.add key) = some r') :
    r'.table.InOrder ∧ r'.table.nodeIds = r.table.nodeIds ∧
      Reflects source r' (Function.update keys key true) := by
  rw [applyRouteOp] at happly
  split at happly
  · next hadd =>
      cases happly
      obtain ⟨hord, hids, hinst⟩ := Rib.add_installed h hadd
      refine ⟨hord, hids, fun priority atom action => ?_⟩
      rw [hinst, hr, compare_expandAction]
      simp only [provides_congr hids]
      constructor
      · rintro (⟨key', hkey', hprov⟩ | ⟨rfl, hatom, hact⟩)
        · refine ⟨key', ?_, hprov⟩
          rw [Function.update_apply]
          split
          · rfl
          · exact hkey'
        · exact ⟨key, Function.update_self .., ⟨rfl, hatom, hact⟩⟩
      · rintro ⟨key', hkey', hprov⟩
        rw [Function.update_apply] at hkey'
        split at hkey'
        · next heq =>
            obtain ⟨rfl, hatom, hact⟩ := heq ▸ hprov
            exact .inr ⟨rfl, hatom, hact⟩
        · exact .inl ⟨key', hkey', hprov⟩
  · cases happly

theorem reflects_remove_iff (h : r.table.InOrder) (hr : Reflects source r keys) :
    Reflects source (r.remove key.pattern source (.route key.action) key.priority).2
        (Function.update keys key false) ↔
      ∀ key', keys key' = true → key' ≠ key → ¬ Shares r key key' := by
  obtain ⟨-, hids, hinst⟩ := Rib.remove_installed key.pattern source (.route key.action) key.priority h
  unfold Reflects
  simp only [provides_congr hids, hinst, compare_expandAction]
  constructor
  · rintro hafter key' hkey' hne ⟨priority, atom, action, ⟨hp, ha, hact⟩, hprov'⟩
    have hgone := (hafter priority atom action).mpr
      ⟨key', (Function.update_of_ne hne ..).trans hkey', hprov'⟩
    exact hgone.2 ⟨hp.symm, ha, hact⟩
  · intro hapart priority atom action
    constructor
    · rintro ⟨hi, hnot⟩
      obtain ⟨key', hkey', hprov⟩ := (hr priority atom action).mp hi
      refine ⟨key', (Function.update_of_ne ?_ ..).trans hkey', hprov⟩
      rintro rfl
      exact hnot ⟨hprov.priority.symm, hprov.atom, hprov.action⟩
    · rintro ⟨key', hkey', hprov⟩
      rw [Function.update_apply] at hkey'
      split at hkey'
      · cases hkey'
      · next hne =>
          refine ⟨(hr priority atom action).mpr ⟨key', hkey', hprov⟩, ?_⟩
          rintro ⟨rfl, hatom, hact⟩
          exact hapart key' hkey' hne ⟨_, _, _, ⟨rfl, hatom, hact⟩, hprov⟩

theorem reflects_ops (h : r.table.InOrder) (hr : Reflects source r keys)
    (hops : replay keys ops = some keys') (happly : applyRouteOps source r ops = some r')
    (hapart : Apart r keys ops) :
    r'.table.InOrder ∧ Reflects source r' keys' := by
  induction ops generalizing keys r with
  | nil =>
    cases hops
    cases happly
    exact ⟨h, hr⟩
  | cons op ops ih =>
    obtain ⟨keys₁, hkeys₁, hops⟩ := Option.bind_eq_some_iff.mp
      ((List.foldlM_cons ..).symm.trans hops)
    obtain ⟨r₁, hr₁, hrest⟩ := Option.bind_eq_some_iff.mp
      ((List.foldlM_cons ..).symm.trans happly)
    cases op with
    | add key =>
      obtain ⟨hord, hids, hrefl⟩ := reflects_add h hr hr₁
      rw [PendingRouteOp.apply] at hkeys₁
      split at hkeys₁
      · cases hkeys₁
      · cases hkeys₁
        exact ih hord hrefl hops hrest ((apart_congr hids).mpr hapart)
    | remove key =>
      cases hr₁
      obtain ⟨hord, hids, -⟩ := Rib.remove_installed key.pattern source
        (.route key.action) key.priority h
      rw [PendingRouteOp.apply] at hkeys₁
      split at hkeys₁
      · cases hkeys₁
        exact ih hord ((reflects_remove_iff h hr).mpr hapart.1) hops hrest
          ((apart_congr hids).mpr hapart.2)
      · cases hkeys₁

end

/-! ## Runs -/

namespace Scheduler

section

variable {σ : Type} [Globs] [QueueResets σ] [HashOrder] {source : String}

/-- The scheduler with the routing information base that it works on, which has no entry
of its own at the start. -/
def routed (source : String) :
    Machine (Scheduler EidPattern Routing.RouteAction × Rib σ) (Command EidPattern Routing.RouteAction × Int) where
  start p := p.1 = new ∧ p.2.table.InOrder ∧
    ∀ priority atom action, ¬ p.2.table.Installed priority atom ⟨action, source⟩
  step p l p' := ∃ ops, Emits p.1 l ops p'.1 ∧ applyRouteOps source p.2 ops = some p'.2

/-- Where no route that the step removes shares an entry with one that is installed. -/
def KeepsApart (p : Scheduler EidPattern Routing.RouteAction × Rib σ)
    (l : Command EidPattern Routing.RouteAction × Int) : Prop :=
  ∀ ops t, Emits p.1 l ops t → Apart p.2 p.1.keys ops

/-- The entries of this source are those of its active contacts. -/
def Installs (source : String) (s : Scheduler EidPattern Routing.RouteAction) (r : Rib σ) : Prop :=
  ∀ priority atom action, r.table.Installed priority atom ⟨action, source⟩ ↔
    ∃ (id : Nat) (mc : ManagedContact EidPattern Routing.RouteAction), s.contacts[id]? = some mc ∧
      mc.active = true ∧ mc.priority = priority ∧
      HasAtom (r.expandPattern mc.contact.pattern) atom ∧
      r.expandAction (.route mc.contact.action) = action

omit [Globs] [QueueResets σ] [HashOrder] in
theorem installs_iff {s : Scheduler EidPattern Routing.RouteAction} {r : Rib σ} (h : Counted s) :
    Installs source s r ↔ Reflects source r s.keys := by
  refine forall_congr' fun priority => forall_congr' fun atom => forall_congr' fun action => ?_
  refine iff_congr Iff.rfl ⟨?_, ?_⟩
  · rintro ⟨id, mc, hmc, hactive, hp, ha, hact⟩
    exact ⟨mc.routeKey, (h.keys_iff _).mpr ⟨id, mc, hmc, hactive, rfl⟩, hp, ha, hact⟩
  · rintro ⟨key, hkey, hp, ha, hact⟩
    obtain ⟨id, mc, hmc, hactive, rfl⟩ := (h.keys_iff key).mp hkey
    exact ⟨id, mc, hmc, hactive, hp, ha, hact⟩

/-- In a run that only ever removes routes apart from the installed ones, the source's
entries in the table are always those of the active contacts. -/
theorem installs_of_apart (s : Scheduler EidPattern Routing.RouteAction) (r : Rib σ)
    (h : ((routed source).only KeepsApart).Reachable (s, r)) : Installs source s r := by
  have hinv : Kept (s, r).1 ∧ Counted (s, r).1 ∧ (s, r).2.table.InOrder ∧
      Reflects source (s, r).2 (s, r).1.keys := by
    refine h.invariant (I := fun p : Scheduler EidPattern Routing.RouteAction × Rib σ =>
      Kept p.1 ∧ Counted p.1 ∧ p.2.table.InOrder ∧ Reflects source p.2 p.1.keys) ?_ ?_
    · rintro ⟨_, r⟩ ⟨rfl, hord, hnone⟩
      refine ⟨.new, fun key => rfl, hord, fun priority atom action => ?_⟩
      refine ⟨fun hi => absurd hi (hnone priority atom action), ?_⟩
      rintro ⟨key, hkey, -⟩
      cases hkey
    · rintro ⟨s, r⟩ l ⟨t, r'⟩ ⟨hkept, hcounted, hord, hrefl⟩ ⟨hapart, ops, hemits, happly⟩
      obtain ⟨hkept', hcounts⟩ := hemits.books hkept
      obtain ⟨hcounted', hops⟩ := hcounts hcounted
      obtain ⟨hord', hrefl'⟩ := reflects_ops hord hrefl hops happly (hapart ops t hemits)
      exact ⟨hkept', hcounted', hord', hrefl'⟩
  exact (installs_iff hinv.2.1).mpr hinv.2.2.2

end

/-! ## Two contacts for one endpoint

One contact is for two endpoints and the other one for the first of them only.
-/

section

local instance : HashOrder := .sorted

local instance : Globs := .literal

def toEndpoint (node : Nat) : EidPatternItem := .ipn (.new 0 node (some 1))

def dropContact (items : List EidPatternItem) : Contact EidPattern Routing.RouteAction where
  pattern := .set items
  action := .drop none
  priority := none
  schedule := .permanent
  bandwidthBps := none
  delayUs := none

def bothEndpoints : Contact EidPattern Routing.RouteAction := dropContact [toEndpoint 1, toEndpoint 2]

def oneEndpoint : Contact EidPattern Routing.RouteAction := dropContact [toEndpoint 1]

def noRoutes : Rib Statuses := ⟨RouteTable.new ⟨none, none⟩, fun _ => 0, [], 0⟩

theorem noRoutes_not_installed {priority : Nat} {atom : EidPattern} {entry : Entry} :
    ¬ noRoutes.table.Installed priority atom entry := by
  rintro ⟨e, he, -⟩
  have hnone : noRoutes.table.entriesAt priority atom = [] := by
    change ((if compare priority 0 = .eq then some [] else none).bind
      (Sorted.get atom)).getD [] = []
    split
    · rfl
    · rfl
  rw [hnone] at he
  cases he

theorem noRoutes_start : (routed "tvr").start (new, noRoutes) :=
  ⟨rfl, inOrder_new _, fun _ _ _ => noRoutes_not_installed⟩

def withBoth : Scheduler EidPattern Routing.RouteAction :=
  (new.handleAdd "plan" [bothEndpoints, oneEndpoint] 100 0).1

def bothInstalled : RouteTable :=
  ((noRoutes.table.insertAtom (.set [toEndpoint 1]) ⟨.route (.drop none), "tvr"⟩ 100).2.insertAtom
    (.set [toEndpoint 2]) ⟨.route (.drop none), "tvr"⟩ 100).2

def withBothRib : Rib Statuses := ⟨bothInstalled, fun _ => 0, [], 1⟩

def withOne : Scheduler EidPattern Routing.RouteAction :=
  (withBoth.handleRemove "plan" [bothEndpoints]).1

def withOneRib : Rib Statuses :=
  (withBothRib.remove bothEndpoints.pattern "tvr" (.route (.drop none)) 100).2

theorem reachable_withOne : (routed "tvr").Reachable (withOne, withOneRib) := by
  refine .step (s := (withBoth, withBothRib)) (.remove "plan" [bothEndpoints], 0)
    (.step (s := (new, noRoutes)) (.add "plan" [bothEndpoints, oneEndpoint] 100, 0)
      (.start noRoutes_start) ⟨_, .add .., rfl⟩) ⟨_, .remove .., rfl⟩

/-- The other contact is active, and its route is not installed. -/
theorem not_installs :
    ¬ ∀ (s : Scheduler EidPattern Routing.RouteAction) (r : Rib Statuses),
      (routed "tvr").Reachable (s, r) → Installs "tvr" s r := by
  intro h
  have hcontact : withOne.contacts[1]? = some ⟨oneEndpoint, 100, true⟩ := rfl
  have hatom : HasAtom (withOneRib.expandPattern oneEndpoint.pattern) (.set [toEndpoint 1]) :=
    ⟨_, List.mem_singleton_self _, by decide⟩
  obtain ⟨e, he, -⟩ := (h withOne withOneRib reachable_withOne 100 (.set [toEndpoint 1])
    (.route (.drop none))).mpr ⟨1, _, hcontact, rfl, rfl, hatom, rfl⟩
  have hnone : withOneRib.table.entriesAt 100 (.set [toEndpoint 1]) = [] := rfl
  rw [hnone] at he
  cases he

def withFirst : Scheduler EidPattern Routing.RouteAction :=
  (new.handleAdd "plan" [bothEndpoints] 100 0).1

theorem withFirst_installs :
    Installs "tvr" (withFirst.handleRemove "plan" [bothEndpoints]).1 withOneRib := by
  refine installs_of_apart _ _ (.step (s := (withFirst, withBothRib))
    (.remove "plan" [bothEndpoints], 0) (.step (s := (new, noRoutes))
      (.add "plan" [bothEndpoints] 100, 0) (.start noRoutes_start) ⟨?_, _, .add .., rfl⟩)
    ⟨?_, _, .remove .., rfl⟩)
  · intro ops t hemits
    cases hemits
    exact trivial
  · intro ops t hemits
    cases hemits
    refine ⟨fun key' hkey' hne => ?_, trivial⟩
    have hrefs : withFirst.routeRefs = Function.update (fun _ => none)
        ⟨bothEndpoints.pattern, .drop none, 100⟩ (some 1) := rfl
    have hne : key' ≠ ⟨bothEndpoints.pattern, .drop none, 100⟩ := hne
    have hkeys : withFirst.keys key' = false := by
      rw [keys, hrefs, Function.update_of_ne hne]
      rfl
    rw [hkeys] at hkey'
    cases hkey'

end

end Scheduler

end Hardy.Tvr
