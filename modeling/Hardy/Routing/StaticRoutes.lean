import Hardy.Tvr.Routes

/-!
# Static routes

Model of the reload in `bpa-server/src/static_routes/agent.rs`.  The agent compares the
routes of its file with those it has by what was written: the pattern as a whole, and the
priority where there is one.  The table has entries for atoms, under a priority, and two
routes can stand for the same one.  A reload takes routes out before it adds any, so an
entry of a route that stays is lost where one that goes has it too, unless one that comes
has it again (`Restores`).
-/

namespace Hardy.Routing

open RouteTable Tvr

structure StaticRoute where
  pattern : EidPattern
  priority : Option Nat
  action : RouteAction
deriving DecidableEq

def StaticRoute.key (priority : Nat) (route : StaticRoute) : Route :=
  ⟨route.pattern, route.action, route.priority.getD priority⟩

/-- The agent's routes, with the information base and the list that was loaded last. -/
structure StaticRoutesAgent (σ : Type) where
  rib : Rib σ
  routes : List StaticRoute
  loaded : List StaticRoute

section

variable {σ : Type} [Globs] [QueueResets σ] {source : String} {priority : Nat}

def removeRoutes (source : String) (priority : Nat) (r : Rib σ) (routes : List StaticRoute) :
    Rib σ :=
  routes.foldl (fun r route =>
    (r.remove route.pattern source (.route route.action) (route.priority.getD priority)).2) r

def addRoutes (source : String) (priority : Nat) :
    Rib σ → List StaticRoute → Rib σ × List StaticRoute
  | r, [] => (r, [])
  | r, route :: routes =>
    match r.add route.pattern source (.route route.action) (route.priority.getD priority) with
    | .ok (_, r) =>
      let (r, accepted) := addRoutes source priority r routes
      (r, route :: accepted)
    | .error _ => addRoutes source priority r routes

def toRemove (routes newRoutes : List StaticRoute) : List StaticRoute :=
  routes.filter fun r => !newRoutes.any fun r2 => r = r2

def toAdd (routes newRoutes : List StaticRoute) : List StaticRoute :=
  newRoutes.filter fun r => !routes.any fun r2 => r = r2

def reloadRoutes (source : String) (priority : Nat) (a : StaticRoutesAgent σ) :
    Option (List StaticRoute) → StaticRoutesAgent σ
  | none => a
  | some newRoutes =>
    let removed := toRemove a.routes newRoutes
    let rib := removeRoutes source priority a.rib removed
    let (rib, accepted) := addRoutes source priority rib (toAdd a.routes newRoutes)
    { rib
      routes := (a.routes.filter fun r => !removed.contains r) ++ accepted
      loaded := newRoutes }

def Accepts (source : String) (priority : Nat) (a : StaticRoutesAgent σ) :
    Option (List StaticRoute) → Prop
  | none => True
  | some newRoutes =>
    (addRoutes source priority
      (removeRoutes source priority a.rib (toRemove a.routes newRoutes))
      (toAdd a.routes newRoutes)).2 = toAdd a.routes newRoutes

/-- The agent over any sequence of reloads, from a table that has nothing of its source. -/
def staticRoutes (source : String) (priority : Nat) :
    Machine (StaticRoutesAgent σ) (Option (List StaticRoute)) where
  start a := a.routes = [] ∧ a.loaded = [] ∧ a.rib.table.InOrder ∧
    ∀ priority atom action, ¬ a.rib.table.Installed priority atom ⟨action, source⟩
  step a l a' := Accepts source priority a l ∧ a' = reloadRoutes source priority a l

def Covers (priority : Nat) (r : Rib σ) (routes : List StaticRoute) (priority' : Nat)
    (atom : EidPattern) (action : Action) : Prop :=
  ∃ route ∈ routes, Provides r (route.key priority) priority' atom action

/-- The source's entries are those of the routes that were loaded last. -/
def Converged (source : String) (priority : Nat) (a : StaticRoutesAgent σ) : Prop :=
  ∀ priority' atom action, a.rib.table.Installed priority' atom ⟨action, source⟩ ↔
    Covers priority a.rib a.loaded priority' atom action

/-- An entry that a route that goes shares with one that stays is also that of one that
comes. -/
def Restores (priority : Nat) (a : StaticRoutesAgent σ) (l : Option (List StaticRoute)) : Prop :=
  ∀ newRoutes, l = some newRoutes → ∀ old ∈ a.routes, old ∉ newRoutes →
    ∀ kept ∈ a.routes, kept ∈ newRoutes → ∀ priority' atom action,
      Provides a.rib (old.key priority) priority' atom action →
      Provides a.rib (kept.key priority) priority' atom action →
        ∃ new ∈ newRoutes, new ∉ a.routes ∧ Provides a.rib (new.key priority) priority' atom action

/-! ## Removing and adding -/

variable {r : Rib σ} {routes newRoutes : List StaticRoute} {priority' : Nat} {atom : EidPattern}
  {action : Action}

section

omit [Globs] [QueueResets σ]

theorem covers_cons {route : StaticRoute} :
    Covers priority r (route :: routes) priority' atom action ↔
      Provides r (route.key priority) priority' atom action ∨
        Covers priority r routes priority' atom action := by
  simp [Covers]

theorem covers_congr {r' : Rib σ} (h : r'.table.nodeIds = r.table.nodeIds) :
    Covers priority r' routes priority' atom action ↔
      Covers priority r routes priority' atom action := by
  simp only [Covers, provides_congr h]

theorem provides_iff {route : StaticRoute} :
    (priority' = route.priority.getD priority ∧ HasAtom (r.expandPattern route.pattern) atom ∧
        compare (⟨action, source⟩ : Entry) ⟨r.expandAction (.route route.action), source⟩ = .eq) ↔
      Provides r (route.key priority) priority' atom action := by
  rw [compare_expandAction]
  constructor
  · rintro ⟨rfl, hatom, hact⟩
    exact ⟨rfl, hatom, hact⟩
  · rintro ⟨rfl, hatom, hact⟩
    exact ⟨rfl, hatom, hact⟩

end

theorem removeRoutes_installed (source : String) (priority : Nat) (routes : List StaticRoute)
    (h : r.table.InOrder) :
    (removeRoutes source priority r routes).table.InOrder ∧
      (removeRoutes source priority r routes).table.nodeIds = r.table.nodeIds ∧
      ∀ priority' atom action,
        (removeRoutes source priority r routes).table.Installed priority' atom ⟨action, source⟩ ↔
          r.table.Installed priority' atom ⟨action, source⟩ ∧
            ¬ Covers priority r routes priority' atom action := by
  induction routes generalizing r with
  | nil =>
    exact ⟨h, rfl, fun _ _ _ => (and_iff_left fun ⟨_, hmem, _⟩ => List.not_mem_nil hmem).symm⟩
  | cons route routes ih =>
    obtain ⟨hord, hids, hinst⟩ := Rib.remove_installed route.pattern source (.route route.action)
      (route.priority.getD priority) h
    obtain ⟨hord', hids', hinst'⟩ := ih hord
    refine ⟨hord', hids'.trans hids, fun priority' atom action => (hinst' ..).trans ?_⟩
    rw [hinst, provides_iff, covers_congr hids, covers_cons, and_assoc, not_or]

theorem addRoutes_length (source : String) (priority : Nat) (r : Rib σ)
    (routes : List StaticRoute) :
    (addRoutes source priority r routes).2.length ≤ routes.length := by
  induction routes generalizing r with
  | nil => exact Nat.le_refl _
  | cons route routes ih =>
    unfold addRoutes
    split
    · exact Nat.succ_le_succ (ih _)
    · exact Nat.le_succ_of_le (ih _)

theorem addRoutes_installed (h : r.table.InOrder)
    (haccepted : (addRoutes source priority r routes).2 = routes) :
    (addRoutes source priority r routes).1.table.InOrder ∧
      (addRoutes source priority r routes).1.table.nodeIds = r.table.nodeIds ∧
      ∀ priority' atom action,
        (addRoutes source priority r routes).1.table.Installed priority' atom ⟨action, source⟩ ↔
          r.table.Installed priority' atom ⟨action, source⟩ ∨
            Covers priority r routes priority' atom action := by
  induction routes generalizing r with
  | nil =>
    exact ⟨h, rfl, fun _ _ _ => (or_iff_left fun ⟨_, hmem, _⟩ => List.not_mem_nil hmem).symm⟩
  | cons route routes ih =>
    unfold addRoutes at haccepted ⊢
    split at haccepted
    · next hadd =>
        obtain ⟨hord, hids, hinst⟩ := Rib.add_installed h hadd
        obtain ⟨hord', hids', hinst'⟩ := ih hord (List.cons.inj haccepted).2
        refine ⟨hord', hids'.trans hids, fun priority' atom action => (hinst' ..).trans ?_⟩
        rw [hinst, provides_iff, covers_congr hids, covers_cons, or_assoc]
    · next hadd =>
        have hle := addRoutes_length source priority r routes
        have hlength := congrArg List.length haccepted
        rw [List.length_cons] at hlength
        omega

/-! ## Reloading -/

omit [Globs] in
theorem mem_toRemove {route : StaticRoute} :
    route ∈ toRemove routes newRoutes ↔ route ∈ routes ∧ route ∉ newRoutes := by
  unfold toRemove
  rw [List.mem_filter, Bool.not_eq_true', ← Bool.not_eq_true, List.any_eq_true]
  simp

omit [Globs] in
theorem mem_toAdd {route : StaticRoute} :
    route ∈ toAdd routes newRoutes ↔ route ∈ newRoutes ∧ route ∉ routes := mem_toRemove

variable {a : StaticRoutesAgent σ}

theorem mem_reloaded (h : Accepts source priority a (some newRoutes)) {route : StaticRoute} :
    route ∈ (reloadRoutes source priority a (some newRoutes)).routes ↔ route ∈ newRoutes := by
  have haccepted : (addRoutes source priority (removeRoutes source priority a.rib
      (toRemove a.routes newRoutes)) (toAdd a.routes newRoutes)).2 = toAdd a.routes newRoutes := h
  unfold reloadRoutes
  dsimp only
  rw [haccepted, List.mem_append, List.mem_filter, mem_toAdd, Bool.not_eq_true', ← Bool.not_eq_true,
    List.contains_iff_mem, mem_toRemove]
  tauto

theorem reloadRoutes_installed (hord : a.rib.table.InOrder)
    (h : Accepts source priority a (some newRoutes)) :
    (reloadRoutes source priority a (some newRoutes)).rib.table.InOrder ∧
      (reloadRoutes source priority a (some newRoutes)).rib.table.nodeIds = a.rib.table.nodeIds ∧
      ∀ priority' atom action, (reloadRoutes source priority a
        (some newRoutes)).rib.table.Installed priority' atom ⟨action, source⟩ ↔
          (a.rib.table.Installed priority' atom ⟨action, source⟩ ∧
            ¬ Covers priority a.rib (toRemove a.routes newRoutes) priority' atom action) ∨
            Covers priority a.rib (toAdd a.routes newRoutes) priority' atom action := by
  obtain ⟨hord, hids, hinst⟩ := removeRoutes_installed source priority
    (toRemove a.routes newRoutes) hord
  obtain ⟨hord', hids', hinst'⟩ := addRoutes_installed hord h
  refine ⟨hord', hids'.trans hids, fun priority' atom action => (hinst' ..).trans ?_⟩
  rw [hinst, covers_congr hids]

/-- What holds between two reloads: the routes are those that were loaded last. -/
structure Tracks (source : String) (priority : Nat) (a : StaticRoutesAgent σ) : Prop where
  inOrder : a.rib.table.InOrder
  routes : ∀ route, route ∈ a.routes ↔ route ∈ a.loaded
  converged : Converged source priority a

theorem converged_reload_iff (ha : Tracks source priority a)
    {l : Option (List StaticRoute)} (h : Accepts source priority a l) :
    Converged source priority (reloadRoutes source priority a l) ↔ Restores priority a l := by
  cases l with
  | none => exact ⟨fun _ _ hnone => absurd hnone (by simp), fun _ => ha.converged⟩
  | some newRoutes =>
    obtain ⟨-, hids, hinst⟩ := reloadRoutes_installed ha.inOrder h
    unfold Converged
    simp only [hinst, covers_congr hids]
    constructor
    · rintro hconv _ ⟨⟩ old hold hgone kept hkept hstays priority' atom action hprov hprov'
      rcases (hconv priority' atom action).mpr ⟨kept, hstays, hprov'⟩ with
        ⟨-, hnot⟩ | ⟨new, hnew, hprov''⟩
      · exact absurd ⟨old, mem_toRemove.mpr ⟨hold, hgone⟩, hprov⟩ hnot
      · obtain ⟨hnew, hcomes⟩ := mem_toAdd.mp hnew
        exact ⟨new, hnew, hcomes, hprov''⟩
    · intro hrestores priority' atom action
      constructor
      · rintro (⟨hi, hnot⟩ | ⟨new, hnew, hprov⟩)
        · obtain ⟨route, hroute, hprov⟩ := (ha.converged priority' atom action).mp hi
          refine ⟨route, ?_, hprov⟩
          by_contra hgone
          exact hnot ⟨route, mem_toRemove.mpr ⟨(ha.routes _).mpr hroute, hgone⟩, hprov⟩
        · exact ⟨new, (mem_toAdd.mp hnew).1, hprov⟩
      · rintro ⟨route, hroute, hprov⟩
        by_cases hold : route ∈ a.routes
        · by_cases hcovered : Covers priority a.rib (toRemove a.routes newRoutes) priority' atom
            action
          · obtain ⟨old, hgone, hprov'⟩ := hcovered
            obtain ⟨hgone, hnot⟩ := mem_toRemove.mp hgone
            obtain ⟨new, hnew, hcomes, hprov''⟩ := hrestores _ rfl old hgone hnot route hold hroute
              priority' atom action hprov' hprov
            exact .inr ⟨new, mem_toAdd.mpr ⟨hnew, hcomes⟩, hprov''⟩
          · refine .inl ⟨(ha.converged priority' atom action).mpr ⟨route, ?_, hprov⟩, hcovered⟩
            exact (ha.routes _).mp hold
        · exact .inr ⟨route, mem_toAdd.mpr ⟨hroute, hold⟩, hprov⟩

theorem tracks_of_restores
    (h : ((staticRoutes source priority).only (Restores priority)).Reachable a) :
    Tracks source priority a := by
  refine h.invariant (I := Tracks source priority) ?_ ?_
  · rintro ⟨rib, _, _⟩ ⟨rfl, rfl, hord, hnone⟩
    refine ⟨hord, fun route => Iff.rfl, fun priority' atom action => ?_⟩
    exact iff_of_false (hnone priority' atom action) fun ⟨_, hmem, _⟩ => List.not_mem_nil hmem
  · rintro a l _ ha ⟨hrestores, haccepts, rfl⟩
    refine ⟨?_, ?_, (converged_reload_iff ha haccepts).mpr hrestores⟩
    · cases l with
      | none => exact ha.inOrder
      | some newRoutes => exact (reloadRoutes_installed ha.inOrder haccepts).1
    · cases l with
      | none => exact ha.routes
      | some newRoutes => exact fun route => mem_reloaded haccepts

/-- In a run in which every entry that is taken out is restored, the source's entries are always
those of the routes that were loaded last, and they are after the next reload if and only if it
does the same. -/
theorem converged_of_restores (a : StaticRoutesAgent σ)
    (h : ((staticRoutes source priority).only (Restores priority)).Reachable a) :
    Converged source priority a ∧ ∀ l a', (staticRoutes source priority).step a l a' →
      (Converged source priority a' ↔ Restores priority a l) := by
  have ha := tracks_of_restores h
  refine ⟨ha.converged, ?_⟩
  rintro l _ ⟨haccepts, rfl⟩
  exact converged_reload_iff ha haccepts

end

/-! ## Two spellings of a route -/

section

local instance literal : Globs := .literal

/-- `ipn:0.1.1 drop` -/
def dropFirst : StaticRoute := ⟨.set [Scheduler.toEndpoint 1], none, .drop none⟩

def dropFirstAt : StaticRoute := { dropFirst with priority := some 100 }

def noStaticRoutes : StaticRoutesAgent Statuses := ⟨Scheduler.noRoutes, [], []⟩

theorem noStaticRoutes_start : (staticRoutes "static_routes" 100).start noStaticRoutes :=
  ⟨rfl, rfl, inOrder_new _, fun _ _ _ => Scheduler.noRoutes_not_installed⟩

def bothSpellings : StaticRoutesAgent Statuses :=
  reloadRoutes "static_routes" 100 noStaticRoutes (some [dropFirst, dropFirstAt])

def oneSpelling : StaticRoutesAgent Statuses :=
  reloadRoutes "static_routes" 100 bothSpellings (some [dropFirstAt])

theorem bothSpellings_step :
    (staticRoutes "static_routes" 100).step noStaticRoutes (some [dropFirst, dropFirstAt])
      bothSpellings := ⟨rfl, rfl⟩

theorem oneSpelling_step :
    (staticRoutes "static_routes" 100).step bothSpellings (some [dropFirstAt]) oneSpelling :=
  ⟨rfl, rfl⟩

/-- The route is in the file, and not in the table. -/
theorem oneSpelling_not_converged :
    ¬ ∀ a : StaticRoutesAgent Statuses, (staticRoutes "static_routes" 100).Reachable a →
      Converged "static_routes" 100 a := by
  intro h
  have hatom : HasAtom (oneSpelling.rib.expandPattern dropFirstAt.pattern)
      (.set [Scheduler.toEndpoint 1]) := ⟨_, List.mem_singleton_self _, by decide⟩
  obtain ⟨e, he, -⟩ := (h oneSpelling (.step _ (.step _ (.start noStaticRoutes_start)
    bothSpellings_step) oneSpelling_step) 100 (.set [Scheduler.toEndpoint 1])
    (.route (.drop none))).mpr ⟨dropFirstAt, List.mem_singleton_self _, rfl, hatom, rfl⟩
  have hnone : oneSpelling.rib.table.entriesAt 100 (.set [Scheduler.toEndpoint 1]) = [] := rfl
  rw [hnone] at he
  cases he

/-- With both spellings in the file all is well, and the next reload decides. -/
theorem bothSpellings_converged :
    Converged "static_routes" 100 bothSpellings ∧
      ∀ l a', (staticRoutes "static_routes" 100).step bothSpellings l a' →
        (Converged "static_routes" 100 a' ↔ Restores 100 bothSpellings l) :=
  converged_of_restores bothSpellings (.step (some [dropFirst, dropFirstAt])
    (.start noStaticRoutes_start) ⟨nofun,
      bothSpellings_step⟩)

end

end Hardy.Routing
