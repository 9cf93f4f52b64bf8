import Hardy.Machine
import Hardy.Routing.Installed

/-!
# Spellings of local endpoints

`NodeIds::local_service_eid` gives one name to the spellings of a local endpoint, and
`process_bundle` parks under it.  `Rib::find` looks up the destination as it is spelled.  The
legacy spelling is in the same patterns, so it finds what the name finds; `ipn:!.s` is not
(`reaches_iff`).
-/

namespace Hardy.Routing

open Bpa (BundleStatus)

/-! ## Patterns -/

section Patterns

variable [Globs]

def Alike (e c : Eid) : Prop := ∀ p : EidPattern, p.matches e = p.matches c

theorem alike_legacyIpn (fqnn : IpnNodeId) (s : Nat) : Alike (.legacyIpn fqnn s) (.ipn fqnn s) := by
  intro p
  cases p with
  | any => rfl
  | set items =>
    refine congrArg items.any (funext fun i => ?_)
    cases i with
    | dtn i => cases i <;> rfl
    | _ => rfl

theorem alike_localNode (s : Nat) : Alike (.localNode s) (.ipn ⟨0, Eid.u32Max⟩ s) := by
  intro p
  cases p with
  | any => rfl
  | set items =>
    refine congrArg items.any (funext fun i => ?_)
    cases i with
    | dtn i => cases i <;> rfl
    | _ => rfl

end Patterns

variable {e c : Eid}

theorem localServiceEid_eq {ids : NodeIds} (h : ids.localServiceEid e = some c) :
    (∃ fqnn s, ids.ipn = some fqnn ∧ c = .ipn fqnn s ∧
        (e = .localNode s ∨ e = .legacyIpn fqnn s ∨ e = .ipn fqnn s)) ∨
      ∃ nodeName serviceName, ids.dtn = some nodeName ∧ c = .dtn nodeName serviceName ∧ e = c := by
  cases e with
  | localNode s =>
    obtain ⟨fqnn, hipn, rfl⟩ := Option.map_eq_some_iff.mp h
    exact .inl ⟨fqnn, s, hipn, rfl, .inl rfl⟩
  | legacyIpn fqnn s =>
    obtain ⟨hipn, hc⟩ := Option.ite_none_right_eq_some.mp h
    exact .inl ⟨fqnn, s, hipn, (Option.some.inj hc).symm, .inr (.inl rfl)⟩
  | ipn fqnn s =>
    obtain ⟨hipn, hc⟩ := Option.ite_none_right_eq_some.mp h
    exact .inl ⟨fqnn, s, hipn, (Option.some.inj hc).symm, .inr (.inr rfl)⟩
  | dtn nodeName serviceName =>
    obtain ⟨hdtn, hc⟩ := Option.ite_none_right_eq_some.mp h
    obtain rfl := Option.some.inj hc
    exact .inr ⟨nodeName, serviceName, hdtn, rfl, rfl⟩
  | null => cases h
  | unknown scheme ssp => cases h

theorem alike_of_local [Globs] {ids : NodeIds} (h : ids.localServiceEid e = some c)
    (hspelled : (∃ s, e = .localNode s) → ids.ipn = some ⟨0, Eid.u32Max⟩) : Alike e c := by
  rcases localServiceEid_eq h with ⟨fqnn, s, hipn, rfl, rfl | rfl | rfl⟩ | ⟨_, _, -, -, rfl⟩
  · rw [hspelled ⟨s, rfl⟩] at hipn
    obtain rfl := Option.some.inj hipn
    exact alike_localNode s
  · exact alike_legacyIpn fqnn s
  · exact fun _ => rfl
  · exact fun _ => rfl

theorem isLocal_of_localServiceEid {ids : NodeIds}
    (h : ids.localServiceEid e = some c) : ids.isLocal e = true ∧ ids.isLocal c = true := by
  rcases localServiceEid_eq h with ⟨fqnn, s, hipn, rfl, rfl | rfl | rfl⟩ | ⟨n, d, hdtn, rfl, rfl⟩
  · simp [NodeIds.isLocal, NodeIds.localServiceEid, hipn]
  · simp [NodeIds.isLocal, NodeIds.localServiceEid, hipn]
  · simp [NodeIds.isLocal, NodeIds.localServiceEid, hipn]
  · simp [NodeIds.isLocal, NodeIds.localServiceEid, hdtn]

/-! ## Lookups -/

section Lookup

def peersOf : List (Nat × Eid) → List (Nat × Eid) := List.map fun p => (p.1, .null)

def LookupResult.unaddressed : LookupResult → LookupResult
  | .forward peer _ => .forward peer .null
  | .forwardEcmp peers => .forwardEcmp (peersOf peers)
  | r => r

def LookupResult.Ends (r : LookupResult) : Prop := r.unaddressed = r ∧ ∀ r', r'.unaddressed = r → r' = r

theorem LookupResult.ends_reflect : Ends .reflect := ⟨rfl, fun r' h => (by cases r' <;> cases h; rfl)⟩

theorem LookupResult.ends_adminEndpoint : Ends .adminEndpoint :=
  ⟨rfl, fun r' h => (by cases r' <;> cases h; rfl)⟩

theorem LookupResult.ends_deliver (service : Service) : Ends (.deliver service) :=
  ⟨rfl, fun r' h => (by cases r' <;> cases h; rfl)⟩

theorem eq_some_of_unaddressed {x y : Option LookupResult}
    (h : x.map LookupResult.unaddressed = y.map LookupResult.unaddressed) {r : LookupResult}
    (hr : r.Ends) : x = some r ↔ y = some r := by
  have hmap : ∀ z : Option LookupResult, z = some r ↔ z.map LookupResult.unaddressed = some r := by
    intro z
    rw [Option.map_eq_some_iff]
    exact ⟨fun hz => ⟨r, hz, hr.1⟩, fun ⟨r', hz, hr'⟩ => (by rw [hz, hr.2 r' hr'])⟩
  rw [hmap x, hmap y, h]

theorem peersOf_sortedInsert (peer : Nat) (nextHop : Eid) (peers : List (Nat × Eid)) :
    peersOf (sortedInsert peer nextHop peers) = sortedInsert peer .null (peersOf peers) := by
  induction peers with
  | nil => rfl
  | cons p peers ih =>
    simp only [peersOf, sortedInsert, List.map_cons] at ih ⊢
    split
    · rfl
    · split
      · rfl
      · rw [List.map_cons, ih]

theorem peersOf_sortedInsertAll {new peers peers' : List (Nat × Eid)}
    (h : peersOf peers = peersOf peers') :
    peersOf (sortedInsertAll new peers) = peersOf (sortedInsertAll new peers') := by
  induction new generalizing peers peers' with
  | nil => exact h
  | cons p new ih => exact ih (by rw [peersOf_sortedInsert, peersOf_sortedInsert, h])

theorem gather_unaddressed {lookup lookup' : Eid → Option LookupResult} {reflect : Bool}
    {trail trail' : List Eid} (htrail : e ∈ trail ↔ c ∈ trail') {es : List Entry}
    (hlookup : ∀ entry ∈ es, ∀ via, entry.action = .route (.via via) → lookup via = lookup' via)
    {peers peers' : List (Nat × Eid)} (h : peersOf peers = peersOf peers') :
    (gather lookup reflect e trail es peers).map peersOf =
      (gather lookup' reflect c trail' es peers').map peersOf := by
  induction es generalizing peers peers' with
  | nil => exact congrArg Except.ok h
  | cons entry es ih =>
    have ih' : ∀ {peers peers'}, peersOf peers = peersOf peers' → _ :=
      fun h => ih (fun e he => hlookup e (List.mem_cons_of_mem _ he)) h
    have hvia := hlookup entry List.mem_cons_self
    obtain ⟨action, source⟩ := entry
    rcases action with (via | _ | reason) | (peer | service | _)
    · rw [gather, gather]
      dsimp only
      by_cases hmem : e ∈ trail
      · rw [if_pos hmem, if_pos (htrail.mp hmem)]
        exact ih' h
      · rw [if_neg hmem, if_neg fun hc => hmem (htrail.mpr hc), hvia via rfl]
        split
        · exact ih' (by rw [peersOf_sortedInsert, peersOf_sortedInsert, h])
        · exact ih' (peersOf_sortedInsertAll h)
        · rfl
        · exact ih' h
    · rw [gather, gather]
      dsimp only
      split
      · rfl
      · exact ih' h
    · rfl
    · exact ih' (by rw [peersOf_sortedInsert, peersOf_sortedInsert, h])
    · rfl
    · rfl

theorem selected_unaddressed {peers peers' : List (Nat × Eid)} (h : peersOf peers = peersOf peers') :
    (selected peers).map LookupResult.unaddressed =
      (selected peers').map LookupResult.unaddressed := by
  have hselected : ∀ peers, (selected peers).map LookupResult.unaddressed =
      selected (peersOf peers) := by
    intro peers
    match peers with
    | [] => rfl
    | [p] => rfl
    | p :: q :: peers => rfl
  rw [hselected, hselected, h]

theorem scan_unaddressed [Globs]
    {group group' : List Entry → Except LookupResult (List (Nat × Eid))} (halike : Alike e c)
    {rows : List (EidPattern × List Entry)} (h : ∀ row ∈ rows, (group row.2).map peersOf = (group' row.2).map peersOf) :
    (scan group e rows).map LookupResult.unaddressed =
      (scan group' c rows).map LookupResult.unaddressed := by
  induction rows with
  | nil => rfl
  | cons row rows ih =>
    have ih := ih fun r hr => h r (List.mem_cons_of_mem _ hr)
    have hrow := h row List.mem_cons_self
    rw [scan, scan, halike row.1]
    split
    · cases hg : group row.2 with
      | error r =>
        cases hg' : group' row.2 with
        | error r' =>
          rw [hg, hg'] at hrow
          obtain rfl := Except.error.inj hrow
          rfl
        | ok peers' =>
          rw [hg, hg'] at hrow
          cases hrow
      | ok peers =>
        cases hg' : group' row.2 with
        | error r' =>
          rw [hg, hg'] at hrow
          cases hrow
        | ok peers' =>
          rw [hg, hg'] at hrow
          dsimp only
          rw [Option.map_or, Option.map_or, ih,
            selected_unaddressed (Except.ok.inj hrow)]
    · exact ih

theorem gather_trail {lookup : Eid → Option LookupResult} {reflect : Bool} {dest : Eid}
    {trail trail' : List Eid} (h : dest ∈ trail ↔ dest ∈ trail') {es : List Entry}
    {peers : List (Nat × Eid)} :
    gather lookup reflect dest trail es peers = gather lookup reflect dest trail' es peers := by
  induction es generalizing peers with
  | nil => rfl
  | cons entry es ih => simp only [gather, ih, h]

variable [Globs] {t : RouteTable} {reflect : Bool} {P : Eid → Prop}

theorem findWithin_trail (hvias : ∀ via ∈ t.vias, P via) {f : Nat} {dest : Eid} (hdest : P dest)
    {trail trail' : List Eid} (h : ∀ e, P e → (e ∈ trail ↔ e ∈ trail')) :
    t.findWithin reflect f dest trail = t.findWithin reflect f dest trail' := by
  induction f generalizing dest trail trail' with
  | zero => rfl
  | succ f ih =>
    rw [RouteTable.findWithin, RouteTable.findWithin]
    refine scan_congr fun row hrow => ?_
    rw [gather_trail (h dest hdest)]
    refine gather_congr fun entry hentry via hvia _ => ?_
    refine ih (hvias via (RouteTable.mem_vias.mpr ⟨row.1, entry, ⟨row.2, hrow, hentry⟩, hvia⟩))
      fun e he => ?_
    rw [List.mem_cons, List.mem_cons, h e he]

theorem findRecurse_unaddressed (hvias : ∀ via ∈ t.vias, P via) (halike : Alike e c)
    (he : ¬ P e) (hc : ¬ P c) :
    (t.findRecurse e reflect []).map LookupResult.unaddressed =
      (t.findRecurse c reflect []).map LookupResult.unaddressed := by
  rw [t.findRecurse_eq e, t.findRecurse_eq c]
  refine scan_unaddressed halike fun row hrow => gather_unaddressed (by simp) ?_ rfl
  intro entry hentry via hvia
  have hP := hvias via (RouteTable.mem_vias.mpr ⟨row.1, entry, ⟨row.2, hrow, hentry⟩, hvia⟩)
  refine findWithin_trail hvias hP fun v hv => ?_
  rw [List.mem_singleton, List.mem_singleton]
  exact iff_of_false (fun h => he (h ▸ hv)) fun h => hc (h ▸ hv)

end Lookup

/-! ## Routing decisions -/

def Subject.to (b : Subject) (e : Eid) : Subject := { b with destination := e }

section Decisions

variable [Globs] {σ : Type} {r : Rib σ} {b : Subject} {P : Eid → Prop}

theorem resolve_unaddressed {t : RouteTable} (hvias : ∀ via ∈ t.vias, P via)
    (halike : Alike e c) (he : ¬ P e) (hc : ¬ P c) :
    (t.resolve (b.to e)).map LookupResult.unaddressed =
      (t.resolve (b.to c)).map LookupResult.unaddressed := by
  have h : (t.findRecurse e true []).map LookupResult.unaddressed =
      (t.findRecurse c true []).map LookupResult.unaddressed :=
    findRecurse_unaddressed hvias halike he hc
  have hresolve : ∀ e, t.resolve (b.to e) = if t.findRecurse e true [] = some .reflect then
      t.findRecurse b.previous false [] else t.findRecurse e true [] := by
    intro e
    unfold RouteTable.resolve
    split
    · next hr => exact (if_pos hr).symm
    · next hr => exact (if_neg hr).symm
  rw [hresolve, hresolve]
  simp only [eq_some_of_unaddressed h LookupResult.ends_reflect]
  split
  · rfl
  · exact h

theorem find_adminEndpoint : r.find b = some .adminEndpoint ↔ r.table.resolve b = some .adminEndpoint := by
  unfold Rib.find
  split
  all_goals simp_all [selectPeer]

theorem find_deliver {service : Service} :
    r.find b = some (.deliver service) ↔ r.table.resolve b = some (.deliver service) := by
  unfold Rib.find
  split
  all_goals simp_all [selectPeer]

/-- `Dispatcher::process_bundle`, where the lookup finds nothing. -/
def Rib.parked (r : Rib σ) (b : Subject) : Option BundleStatus :=
  match r.find b with
  | some _ => none
  | none =>
    match r.table.nodeIds.localServiceEid b.destination with
    | some service => some (.waitingForService service)
    | none => some .waiting

/-- A bundle for `e` comes to the local endpoint that a bundle for `c` comes to, and does not
wait for its service. -/
structure Reaches (r : Rib σ) (b : Subject) (e c : Eid) : Prop where
  adminEndpoint : r.find (b.to c) = some .adminEndpoint → r.find (b.to e) = some .adminEndpoint
  deliver : ∀ service, r.find (b.to c) = some (.deliver service) →
    r.find (b.to e) = some (.deliver service)
  parked : r.parked (b.to e) = some (.waitingForService c) →
    ∀ service, r.find (b.to c) ≠ some (.deliver service)

theorem find_eq_none_of_parked {status : BundleStatus} (h : r.parked b = some status) :
    r.find b = none := by
  unfold Rib.parked at h
  split at h
  · cases h
  · assumption

theorem reaches_of_alike (hvias : ∀ via ∈ r.table.vias, P via) (halike : Alike e c)
    (he : ¬ P e) (hc : ¬ P c) : Reaches r b e c := by
  have h : (r.table.resolve (b.to e)).map LookupResult.unaddressed =
      (r.table.resolve (b.to c)).map LookupResult.unaddressed :=
    resolve_unaddressed hvias halike he hc
  have hdeliver : ∀ service, r.find (b.to c) = some (.deliver service) →
      r.find (b.to e) = some (.deliver service) := by
    intro service hfind
    rw [find_deliver] at hfind ⊢
    exact (eq_some_of_unaddressed h (LookupResult.ends_deliver service)).mpr hfind
  refine ⟨fun hfind => ?_, hdeliver, fun hparked service hfind => ?_⟩
  · rw [find_adminEndpoint] at hfind ⊢
    exact (eq_some_of_unaddressed h LookupResult.ends_adminEndpoint).mpr hfind
  · have hnone := find_eq_none_of_parked hparked
    rw [hdeliver service hfind] at hnone
    cases hnone

end Decisions

/-! ## The tables of a node -/

inductive Edit where
  | add (pattern : EidPattern) (source : String) (action : Action) (priority : Nat)
  | remove (pattern : EidPattern) (source : String) (action : Action) (priority : Nat)

section Tables

variable [Globs] {σ : Type} [QueueResets σ] {ids : NodeIds} {ecmpHash : Eid × Eid × Option Nat → Nat}
  {store : σ}

/-- `Rib::add` and `Rib::remove`, in any order, from `Rib::new` on. -/
def edits (ids : NodeIds) (ecmpHash : Eid × Eid × Option Nat → Nat) (store : σ) :
    Machine (Rib σ) Edit where
  start r := r = ⟨.new ids, ecmpHash, store, 0⟩
  step
    | r, .add pattern source action priority, r' =>
      ∃ new, r.add pattern source action priority = .ok (new, r')
    | r, .remove pattern source action priority, r' =>
      r' = (r.remove pattern source action priority).2

structure Outward (ids : NodeIds) (r : Rib σ) : Prop where
  inOrder : r.table.InOrder
  nodeIds : r.table.nodeIds = ids
  vias : ∀ via ∈ r.table.vias, ids.isLocal via = false

theorem mem_rows_new {row : EidPattern × List Entry} (h : row ∈ (RouteTable.new ids).rows) :
    ((∃ name, row.1 = .ofEid (.dtn name [])) ∨
        ∃ fqnn, ids.ipn = some fqnn ∧ row.1 = .ofEid (.ipn fqnn 0)) ∧
      row.2 = [⟨.internal .adminEndpoint, "administrative endpoint"⟩] := by
  have hfold : ∀ (es : List Entry) (Q : EidPattern → Prop) (endpoints : List Eid)
      (m : List (EidPattern × List Entry)), (∀ eid ∈ endpoints, Q (.ofEid eid)) →
      (∀ row ∈ m, Q row.1 ∧ row.2 = es) → ∀ row ∈ endpoints.foldl (fun m eid =>
        Sorted.upsert (EidPattern.ofEid eid) (fun _ => es) m) m, Q row.1 ∧ row.2 = es := by
    intro es Q endpoints
    induction endpoints with
    | nil => exact fun _ _ h => h
    | cons eid endpoints ih =>
      intro m hQ hm
      refine ih _ (fun eid h => hQ eid (List.mem_cons_of_mem _ h)) fun row hrow => ?_
      rcases Sorted.mem_upsert hrow with hrow | rfl | ⟨v, hv, hes⟩
      · exact hm row hrow
      · exact ⟨hQ eid List.mem_cons_self, rfl⟩
      · exact ⟨(hm _ hv).1, hes⟩
  obtain ⟨group, hgroup, hrow⟩ := RouteTable.mem_rows.mp h
  obtain rfl := List.mem_singleton.mp hgroup
  refine hfold _ (fun p => (∃ name, p = .ofEid (.dtn name [])) ∨
    ∃ fqnn, ids.ipn = some fqnn ∧ p = .ofEid (.ipn fqnn 0)) _ [] ?_ nofun row hrow
  intro eid heid
  rcases List.mem_append.mp heid with heid | heid
  · obtain ⟨name, -, rfl⟩ := Option.map_eq_some_iff.mp (Option.mem_toList.mp heid)
    exact .inl ⟨name, rfl⟩
  · obtain ⟨fqnn, hipn, rfl⟩ := Option.map_eq_some_iff.mp (Option.mem_toList.mp heid)
    exact .inr ⟨fqnn, hipn, rfl⟩

theorem edits_outward {r : Rib σ} (h : (edits ids ecmpHash store).Reachable r) : Outward ids r := by
  refine h.invariant ?_ ?_
  · rintro _ rfl
    refine ⟨RouteTable.inOrder_new ids, rfl, fun via hvia => ?_⟩
    obtain ⟨p, e, ⟨actions, hrow, he⟩, hact⟩ := RouteTable.mem_vias.mp hvia
    obtain ⟨-, rfl⟩ := mem_rows_new hrow
    rw [List.mem_singleton.mp he] at hact
    cases hact
  · rintro r (⟨pattern, source, action, priority⟩ | ⟨pattern, source, action, priority⟩) r' hr hstep
    · obtain ⟨new, hadd⟩ := hstep
      obtain ⟨hord, hids, -⟩ := Rib.add_installed hr.inOrder hadd
      refine ⟨hord, hids.trans hr.nodeIds, fun via hvia => ?_⟩
      obtain ⟨table, ht, htable⟩ := Rib.add_table hadd
      obtain ⟨hnew, hhas⟩ := RouteTable.insert_has ht
      rw [htable] at hvia
      split at hvia
      · obtain ⟨p, e, hpe, hact⟩ := RouteTable.mem_vias.mp hvia
        rcases hhas p e hpe with rfl | ⟨q, hq⟩
        · exact hr.nodeIds ▸ hnew via hact
        · exact hr.vias via (RouteTable.mem_vias.mpr ⟨q, e, hq, hact⟩)
      · exact hr.vias via hvia
    · obtain rfl : r' = _ := hstep
      obtain ⟨hord, hids, -⟩ := Rib.remove_installed pattern source action priority hr.inOrder
      refine ⟨hord, hids.trans hr.nodeIds, fun via hvia => ?_⟩
      rw [Rib.remove_table] at hvia
      obtain ⟨p, e, hpe, hact⟩ := RouteTable.mem_vias.mp hvia
      exact hr.vias via (RouteTable.mem_vias.mpr ⟨p, e, RouteTable.remove_has hpe, hact⟩)

/-! ## A service, and `ipn:!` -/

def registered (c : Eid) (service : Service) : Edit :=
  .add (.ofEid c) "services" (.internal (.localService service)) 1

def serviceTable (ids : NodeIds) (c : Eid) (service : Service) : RouteTable where
  nodeIds := ids
  routes := (RouteTable.new ids).routes ++
    [(1, [(.ofEid c, [⟨.internal (.localService service), "services"⟩])])]

omit [Globs] [QueueResets σ] in
theorem expandPattern_ofEid {r : Rib σ} {fqnn : IpnNodeId} {s : Nat}
    (h : fqnn ≠ ⟨0, Eid.u32Max⟩) : r.expandPattern (.ofEid (.ipn fqnn s)) = .ofEid (.ipn fqnn s) := by
  obtain ⟨a, n⟩ := fqnn
  unfold Rib.expandPattern
  split
  · simp only [ne_eq, IpnNodeId.mk.injEq] at h
    simp [EidPattern.ofEid, EidPattern.expandLocalNode, EidPatternItem.expandLocalNode,
      IpnPatternItem.expandLocalNode, IpnPatternItem.new, h]
  · rfl

theorem registered_step (ids : NodeIds) (ecmpHash : Eid × Eid × Option Nat → Nat) (store : σ)
    {fqnn : IpnNodeId} (s : Nat) (h : fqnn ≠ ⟨0, Eid.u32Max⟩) (service : Service) :
    ∃ r, (edits ids ecmpHash store).Reachable r ∧
      r.table = serviceTable ids (.ipn fqnn s) service := by
  have hpublished : (Rib.mk (.new ids) ecmpHash store 0).published (.ofEid (.ipn fqnn s)) "services"
      (.internal (.localService service)) 1 =
      .ok (some (serviceTable ids (.ipn fqnn s) service)) := by
    rw [Rib.published, expandPattern_ofEid h]
    rfl
  have hadd : (Rib.mk (.new ids) ecmpHash store 0).add (.ofEid (.ipn fqnn s)) "services"
      (.internal (.localService service)) 1 =
      .ok (true, ⟨serviceTable ids (.ipn fqnn s) service, ecmpHash, store, 1⟩) := by
    rw [Rib.add, hpublished]
    rfl
  exact ⟨_, .step (registered (.ipn fqnn s) service) (.start rfl) ⟨true, hadd⟩, rfl⟩

section

omit [QueueResets σ]

theorem rows_serviceTable {c : Eid} {service : Service} :
    (serviceTable ids c service).rows = (RouteTable.new ids).rows ++
      [(.ofEid c, [⟨.internal (.localService service), "services"⟩])] := by
  rw [RouteTable.rows, serviceTable, List.flatMap_append]
  rfl

theorem scan_adminEndpoint {lookup : Eid → Option LookupResult} {reflect : Bool} {dest : Eid}
    {trail : List Eid} {source : String} {rows : List (EidPattern × List Entry)}
    (h : ∀ row ∈ rows, row.2 = [⟨.internal .adminEndpoint, source⟩]) :
    scan (fun actions => gather lookup reflect dest trail actions []) dest rows = none ∨
      scan (fun actions => gather lookup reflect dest trail actions []) dest rows =
        some .adminEndpoint := by
  induction rows with
  | nil => exact .inl rfl
  | cons row rows ih =>
    rw [scan, h row List.mem_cons_self]
    split
    · exact .inr rfl
    · exact ih fun r hr => h r (List.mem_cons_of_mem _ hr)

theorem find_serviceTable {r : Rib σ} {fqnn : IpnNodeId} {s : Nat} {service : Service}
    (h : r.table = serviceTable ids (.ipn fqnn s) service) (b : Subject) :
    r.find (b.to (.ipn fqnn s)) = some .adminEndpoint ∨
      r.find (b.to (.ipn fqnn s)) = some (.deliver service) := by
  have hmatch : (EidPattern.ofEid (.ipn fqnn s)).matches (.ipn fqnn s) = true := by
    simp [EidPattern.ofEid, EidPattern.matches, EidPatternItem.matches, IpnPatternItem.matches,
      IpnPatternItem.new, IpnPattern.matches]
  have hfind : r.table.findRecurse (.ipn fqnn s) true [] = some .adminEndpoint ∨
      r.table.findRecurse (.ipn fqnn s) true [] = some (.deliver service) := by
    rw [RouteTable.findRecurse_eq, h, rows_serviceTable, scan_append]
    rcases scan_adminEndpoint fun row hrow => (mem_rows_new hrow).2 with hadmin | hadmin
    · right
      rw [hadmin, Option.none_or, scan, hmatch]
      rfl
    · left
      rw [hadmin]
      rfl
  have hresolve : r.table.resolve (b.to (.ipn fqnn s)) = r.table.findRecurse (.ipn fqnn s) true [] := by
    unfold RouteTable.resolve Subject.to
    rcases hfind with hfind | hfind <;> rw [hfind]
  rw [find_adminEndpoint, find_deliver, hresolve]
  exact hfind

theorem find_localNode {r : Rib σ} {fqnn : IpnNodeId} {s s' : Nat} {service : Service}
    (h : r.table = serviceTable ids (.ipn fqnn s) service) (hids : ids.ipn = some fqnn)
    (hne : fqnn ≠ ⟨0, Eid.u32Max⟩) (b : Subject) : r.find (b.to (.localNode s')) = none := by
  have hlocal : ∀ s, (EidPattern.ofEid (.ipn fqnn s)).matches (.localNode s') = false := by
    obtain ⟨a, n⟩ := fqnn
    intro s
    simp only [ne_eq, IpnNodeId.mk.injEq, not_and] at hne
    simp only [EidPattern.ofEid, EidPattern.matches, EidPatternItem.matches,
      IpnPatternItem.matches, IpnPatternItem.new, IpnPattern.matches, List.any_cons, List.any_nil,
      Bool.or_false, Bool.and_eq_false_iff, beq_eq_false_iff_ne]
    tauto
  have hfind : r.table.findRecurse (.localNode s') true [] = none := by
    rw [← Option.not_isSome_iff_eq_none, RouteTable.findRecurse_isSome]
    rintro ⟨p, e, ⟨actions, hrow, -⟩, hm, -⟩
    rw [h, rows_serviceTable] at hrow
    rcases List.mem_append.mp hrow with hrow | hrow
    · obtain ⟨⟨name, rfl⟩ | ⟨fqnn', hipn, rfl⟩, -⟩ := mem_rows_new hrow
      · cases hm
      · obtain rfl := Option.some.inj (hids.symm.trans hipn)
        rw [hlocal] at hm
        cases hm
    · obtain rfl := Prod.mk.inj (List.mem_singleton.mp hrow) |>.1
      rw [hlocal] at hm
      cases hm
  rw [Rib.find_eq_none, RouteTable.resolve, Subject.to, hfind]

end

/-- Bundles for a spelling of a local endpoint come to it over all tables iff the spelling is not
`ipn:!`, or `ipn:!` is the node's own number. -/
theorem reaches_iff (ids : NodeIds) (ecmpHash : Eid × Eid × Option Nat → Nat) (store : σ) {e c : Eid}
    (h : ids.localServiceEid e = some c) :
    (∀ r, (edits ids ecmpHash store).Reachable r → ∀ b, Reaches r b e c) ↔
      ((∃ s, e = .localNode s) → ids.ipn = some ⟨0, Eid.u32Max⟩) := by
  constructor
  · rintro hall ⟨s, rfl⟩
    obtain ⟨fqnn, hids, rfl⟩ := Option.map_eq_some_iff.mp h
    by_contra hne
    have hne : fqnn ≠ ⟨0, Eid.u32Max⟩ := fun hf => hne (hf ▸ hids)
    obtain ⟨r, hr, htable⟩ := registered_step ids ecmpHash store s hne ⟨.ipn s, .ipn fqnn s⟩
    have b : Subject := ⟨.null, .null, none, none⟩
    have hreaches := hall r hr b
    have hnone : r.find (b.to (.localNode s)) = none := find_localNode htable hids hne b
    rcases find_serviceTable htable b with hfind | hfind
    · cases hnone.symm.trans (hreaches.adminEndpoint hfind)
    · cases hnone.symm.trans (hreaches.deliver _ hfind)
  · intro hspelled r hr b
    have hout := edits_outward hr
    obtain ⟨he, hc⟩ := isLocal_of_localServiceEid h
    exact reaches_of_alike hout.vias (alike_of_local h hspelled) (by simp [he]) (by simp [hc])

end Tables

section

local instance literalGlobs : Globs := .literal

def spelledNode : NodeIds := ⟨some ⟨0, 1⟩, none⟩

def service7 : Service := ⟨.ipn 7, .ipn ⟨0, 1⟩ 7⟩

def toService7 (e : Eid) : Subject := ⟨e, .ipn ⟨0, 9⟩ 1, none, none⟩

theorem legacyIpn_reaches :
    spelledNode.localServiceEid (.legacyIpn ⟨0, 1⟩ 7) = some (.ipn ⟨0, 1⟩ 7) ∧
      ∀ r, (edits spelledNode (fun _ => 0) ([] : Statuses)).Reachable r →
        ∀ b, Reaches r b (.legacyIpn ⟨0, 1⟩ 7) (.ipn ⟨0, 1⟩ 7) := by
  refine ⟨rfl, (reaches_iff spelledNode (fun _ => 0) ([] : Statuses) rfl).mpr ?_⟩
  rintro ⟨s, hs⟩
  cases hs

/-- The service is there under its name, and a bundle for `ipn:!.7` is parked under that name. -/
theorem localNode_not_reaches : ∃ r, (edits spelledNode (fun _ => 0) ([] : Statuses)).Reachable r ∧
    spelledNode.localServiceEid (.localNode 7) = some (.ipn ⟨0, 1⟩ 7) ∧
    r.find (toService7 (.ipn ⟨0, 1⟩ 7)) = some (.deliver service7) ∧
    r.find (toService7 (.localNode 7)) = none ∧
    r.parked (toService7 (.localNode 7)) = some (.waitingForService (.ipn ⟨0, 1⟩ 7)) := by
  refine ⟨_, .step (registered (.ipn ⟨0, 1⟩ 7) service7) (.start rfl) ⟨true, rfl⟩, rfl, ?_, ?_, ?_⟩
  · decide
  · decide
  · decide

end

end Hardy.Routing
