import Hardy.Fold
import Hardy.Pattern.Node
import Hardy.Routing.Spellings

/-!
# The administrative endpoint

Model of how `NodeIds` come from node ids or from a configuration in `bpa/src/node_ids.rs`, and of
`get_admin_endpoint` with its unreachable branch.  The endpoint that is returned is always one that
`RouteTable::new` has a route for, but an empty list of node ids is accepted, and has none
(`NodeIds.hosted_iff`).
-/

namespace Hardy.Routing

namespace NodeIds

inductive Error where
  | localNode
  | multipleIpnNodeIds
  | multipleDtnNodeIds
  | invalidEid
deriving DecidableEq, Repr

/-- One turn of the loop of `try_from`. -/
def tryFromStep (ids : NodeIds) : NodeId → Except Error NodeIds
  | .ipn nodeId =>
    if ids.ipn.any (nodeId ≠ ·) then .error .multipleIpnNodeIds
    else .ok { ids with ipn := some nodeId }
  | .dtn nodeId =>
    if ids.dtn.any (nodeId ≠ ·) then .error .multipleDtnNodeIds
    else .ok { ids with dtn := some nodeId }
  | .localNode => .error .localNode

/-- `TryFrom<&[NodeId]>` -/
def tryFrom (nodeIds : List NodeId) : Except Error NodeIds := nodeIds.foldlM tryFromStep ⟨none, none⟩

/-- `From<&NodeIds>` -/
def toList (ids : NodeIds) : List NodeId := ids.ipn.toList.map .ipn ++ ids.dtn.toList.map .dtn

def parse [Crates] (text : Bytes) : Except Error NodeId :=
  match NodeId.fromStr text with
  | some nodeId => .ok nodeId
  | none => .error .invalidEid

inductive Given where
  | ids (nodeIds : List NodeId)
  | text (value : Bytes)
  | sequence (values : List Bytes)

/-- `try_from`, and `visit_str` and `visit_seq` of `Deserialize`. -/
def read [Crates] : Given → Except Error NodeIds
  | .ids nodeIds => tryFrom nodeIds
  | .text value => do tryFrom [← parse value]
  | .sequence values => do tryFrom (← values.mapM parse)

/-- `get_admin_endpoint`, where nothing is the panic of `unreachable`. -/
def adminEndpoint? (ids : NodeIds) (destination : Eid) : Option Eid :=
  match destination, ids.ipn, ids.dtn with
  | .legacyIpn _ _, some fqnn, _ => some (.legacyIpn fqnn 0)
  | .dtn _ _, _, some nodeName => some (.dtn nodeName [])
  | _, none, some nodeName => some (.dtn nodeName [])
  | _, some fqnn, _ => some (.ipn fqnn 0)
  | _, none, none => none

/-! ## What is accepted -/

variable {ids : NodeIds} {destination e : Eid}

theorem mem_toList {n : NodeId} :
    n ∈ ids.toList ↔
      (∃ fqnn, ids.ipn = some fqnn ∧ n = .ipn fqnn) ∨ ∃ name, ids.dtn = some name ∧ n = .dtn name := by
  simp [toList, eq_comm]

theorem eq_of_not_any {α : Type} [DecidableEq α] {o : Option α} {a : α}
    (h : ¬ o.any (fun x => decide (a ≠ x)) = true) :
    ∀ existing, o = some existing → existing = a := by
  rintro existing rfl
  simp only [Option.any_some, decide_eq_true_eq, ne_eq, not_not] at h
  exact h.symm

theorem mem_toList_step {ids' : NodeIds} {nodeId n : NodeId} (h : ids.tryFromStep nodeId = .ok ids') :
    n ∈ ids'.toList ↔ n ∈ ids.toList ∨ n = nodeId := by
  obtain ⟨ipn, dtn⟩ := ids
  cases nodeId with
  | localNode => cases h
  | ipn fqnn =>
    simp only [tryFromStep] at h
    split at h
    · cases h
    · next hany =>
        cases h
        have hsame := eq_of_not_any hany
        simp only [mem_toList, Option.some.injEq, exists_eq_left']
        constructor
        · rintro (rfl | h)
          · exact .inr rfl
          · exact .inl (.inr h)
        · rintro ((⟨existing, hipn, rfl⟩ | h) | rfl)
          · exact .inl (congrArg _ (hsame existing hipn))
          · exact .inr h
          · exact .inl rfl
  | dtn name =>
    simp only [tryFromStep] at h
    split at h
    · cases h
    · next hany =>
        cases h
        have hsame := eq_of_not_any hany
        simp only [mem_toList, Option.some.injEq, exists_eq_left']
        constructor
        · rintro (h | rfl)
          · exact .inl (.inl h)
          · exact .inr rfl
        · rintro ((h | ⟨existing, hdtn, rfl⟩) | rfl)
          · exact .inl h
          · exact .inr (congrArg _ (hsame existing hdtn))
          · exact .inr rfl

theorem mem_toList_of_tryFrom {nodeIds : List NodeId} (h : tryFrom nodeIds = .ok ids) (n : NodeId) :
    n ∈ ids.toList ↔ n ∈ nodeIds := by
  have hstep : ∀ {hist : List NodeId} {s : NodeIds} {nodeId : NodeId} {s' : NodeIds},
      nodeId ∈ nodeIds → (n ∈ s.toList ↔ n ∈ hist) → s.tryFromStep nodeId = .ok s' →
        (n ∈ s'.toList ↔ n ∈ hist ++ [nodeId]) := by
    intro hist s nodeId s' _ hhist hstep
    rw [mem_toList_step hstep, hhist, List.mem_append, List.mem_singleton]
  have hrun : n ∈ ids.toList ↔ n ∈ [] ++ nodeIds :=
    Fold.foldlM_history (P := fun hist s => n ∈ toList s ↔ n ∈ hist) hstep (by simp [toList]) h
  exact hrun

theorem toList_eq_nil_of_tryFrom {nodeIds : List NodeId} (h : tryFrom nodeIds = .ok ids) :
    ids.toList = [] ↔ nodeIds = [] := by
  simp only [List.eq_nil_iff_forall_not_mem, mem_toList_of_tryFrom h]

def Given.Empty : Given → Prop
  | .ids nodeIds => nodeIds = []
  | .text _ => False
  | .sequence values => values = []

theorem toList_eq_nil_of_read [Crates] {given : Given} (h : read given = .ok ids) :
    ids.toList = [] ↔ given.Empty := by
  cases given with
  | ids nodeIds => exact toList_eq_nil_of_tryFrom h
  | text value =>
    obtain ⟨nodeId, -, h⟩ := Fold.bind_ok.mp h
    rw [toList_eq_nil_of_tryFrom h]
    simp [Given.Empty]
  | sequence values =>
    obtain ⟨nodeIds, hparse, h⟩ := Fold.bind_ok.mp h
    rw [toList_eq_nil_of_tryFrom h]
    cases values with
    | nil =>
      cases hparse
      simp [Given.Empty]
    | cons value values =>
      rw [List.mapM_cons] at hparse
      obtain ⟨nodeId, -, hparse⟩ := Fold.bind_ok.mp hparse
      obtain ⟨_, -, hparse⟩ := Fold.bind_ok.mp hparse
      cases hparse
      simp [Given.Empty]

/-! ## The endpoint -/

def Registered (ids : NodeIds) (a : Eid) : Prop :=
  (∃ fqnn, ids.ipn = some fqnn ∧ a = .ipn fqnn 0) ∨
    ∃ nodeName, ids.dtn = some nodeName ∧ a = .dtn nodeName []

theorem adminEndpoint?_cases (h : ids.adminEndpoint? destination = some e) :
    (∃ fqnn, ids.ipn = some fqnn ∧ (e = .ipn fqnn 0 ∨ e = .legacyIpn fqnn 0)) ∨
      ∃ nodeName, ids.dtn = some nodeName ∧ e = .dtn nodeName [] := by
  obtain ⟨ipn, dtn⟩ := ids
  cases destination <;> cases ipn <;> cases dtn <;> simp_all [adminEndpoint?]

theorem adminEndpoint?_isSome : (ids.adminEndpoint? destination).isSome ↔ ids.toList ≠ [] := by
  obtain ⟨ipn, dtn⟩ := ids
  cases destination <;> cases ipn <;> cases dtn <;> simp [adminEndpoint?, toList]

section

variable [Globs]

def adminEntry : Entry := ⟨.internal .adminEndpoint, "administrative endpoint"⟩

theorem rows_new_both (fqnn : IpnNodeId) (nodeName : Bytes) :
    (RouteTable.new ⟨some fqnn, some nodeName⟩).rows =
      if EidPattern.cmp (.ofEid (.ipn fqnn 0)) (.ofEid (.dtn nodeName [])) = .lt then
        [(.ofEid (.ipn fqnn 0), [adminEntry]), (.ofEid (.dtn nodeName []), [adminEntry])]
      else [(.ofEid (.dtn nodeName []), [adminEntry]), (.ofEid (.ipn fqnn 0), [adminEntry])] := by
  have hrows : (RouteTable.new ⟨some fqnn, some nodeName⟩).rows =
      Sorted.upsert (EidPattern.ofEid (.ipn fqnn 0)) (fun _ => [adminEntry])
        [(.ofEid (.dtn nodeName []), [adminEntry])] ++ [] := rfl
  have hne : EidPattern.cmp (.ofEid (.ipn fqnn 0)) (.ofEid (.dtn nodeName [])) ≠ .eq := by
    intro h
    have htie : (EidPattern.ofEid (.ipn fqnn 0)).tieBreak (.ofEid (.dtn nodeName [])) = .lt :=
      (EidPattern.tieBreak_single _ _).trans rfl
    cases htie.symm.trans (Ordering.then_eq_eq.mp h).2
  rw [hrows, List.append_nil, Sorted.upsert]
  have hcompare : compare (EidPattern.ofEid (.ipn fqnn 0)) (.ofEid (.dtn nodeName [])) =
      EidPattern.cmp (.ofEid (.ipn fqnn 0)) (.ofEid (.dtn nodeName [])) := rfl
  rw [hcompare]
  cases hcmp : EidPattern.cmp (.ofEid (.ipn fqnn 0)) (.ofEid (.dtn nodeName [])) with
  | lt => rfl
  | eq => exact absurd hcmp hne
  | gt => rfl

theorem new_has {a : Eid} (h : ids.Registered a) :
    (RouteTable.new ids).Has (.ofEid a) adminEntry := by
  obtain ⟨ipn, dtn⟩ := ids
  rcases h with ⟨fqnn, rfl, rfl⟩ | ⟨nodeName, rfl, rfl⟩
  · rcases dtn with _ | nodeName
    · exact ⟨_, List.mem_singleton_self _, List.mem_singleton_self _⟩
    · refine ⟨[adminEntry], ?_, List.mem_singleton_self _⟩
      rw [rows_new_both]
      split <;> simp
  · rcases ipn with _ | fqnn
    · exact ⟨_, List.mem_singleton_self _, List.mem_singleton_self _⟩
    · refine ⟨[adminEntry], ?_, List.mem_singleton_self _⟩
      rw [rows_new_both]
      split <;> simp

theorem findRecurse_new {a : Eid} (hhas : (RouteTable.new ids).Has (.ofEid a) adminEntry)
    (hm : (EidPattern.ofEid a).matches e = true) (reflect : Bool) (trail : List Eid) :
    (RouteTable.new ids).findRecurse e reflect trail = some .adminEndpoint := by
  have hsome : ((RouteTable.new ids).findRecurse e reflect trail).isSome :=
    RouteTable.findRecurse_isSome.mpr ⟨_, _, hhas, hm, trivial⟩
  rw [RouteTable.findRecurse_eq] at hsome ⊢
  rcases scan_adminEndpoint fun row hrow => (mem_rows_new hrow).2 with hscan | hscan
  · rw [hscan] at hsome
    cases hsome
  · exact hscan

theorem adminEndpoint?_matches (h : ids.adminEndpoint? destination = some e) :
    ∃ a, ids.Registered a ∧ (EidPattern.ofEid a).matches e = true ∧ ids.isLocal e = true := by
  rcases adminEndpoint?_cases h with ⟨fqnn, hipn, rfl | rfl⟩ | ⟨nodeName, hdtn, rfl⟩
  · refine ⟨.ipn fqnn 0, .inl ⟨fqnn, hipn, rfl⟩, ?_, by simp [isLocal, localServiceEid, hipn]⟩
    simp [EidPattern.ofEid, EidPattern.matches, EidPatternItem.matches, IpnPatternItem.matches,
      IpnPatternItem.new, IpnPattern.matches]
  · refine ⟨.ipn fqnn 0, .inl ⟨fqnn, hipn, rfl⟩, ?_, by simp [isLocal, localServiceEid, hipn]⟩
    simp [EidPattern.ofEid, EidPattern.matches, EidPatternItem.matches, IpnPatternItem.matches,
      IpnPatternItem.new, IpnPattern.matches]
  · refine ⟨.dtn nodeName [], .inr ⟨nodeName, hdtn, rfl⟩, ?_, by simp [isLocal, localServiceEid, hdtn]⟩
    simp [EidPattern.ofEid, EidPattern.matches, EidPatternItem.matches, DtnPatternItem.matches]

/-- There is an administrative endpoint for the destination: it is local, and the table that is
built from the node ids resolves it. -/
def Hosted (ids : NodeIds) (destination : Eid) : Prop :=
  ∃ e, ids.adminEndpoint? destination = some e ∧ ids.isLocal e = true ∧
    ∀ reflect trail, (RouteTable.new ids).findRecurse e reflect trail = some .adminEndpoint

/-- A node has its administrative endpoint iff any node id was given. -/
theorem hosted_iff [Crates] {given : Given} (h : read given = .ok ids) (destination : Eid) :
    ids.Hosted destination ↔ ¬ given.Empty := by
  rw [← toList_eq_nil_of_read h]
  constructor
  · rintro ⟨e, he, -⟩
    exact adminEndpoint?_isSome.mp (Option.isSome_iff_exists.mpr ⟨e, he⟩)
  · intro hne
    obtain ⟨e, he⟩ := Option.isSome_iff_exists.mp (adminEndpoint?_isSome.mpr hne)
    refine ⟨e, he, ?_⟩
    obtain ⟨a, ha, hm, hlocal⟩ := adminEndpoint?_matches he
    exact ⟨hlocal, findRecurse_new (new_has ha) hm⟩

end

/-! ## A node with two names, and one with none -/

section

local instance literalGlobs : Globs := .literal

local instance referenceCrates : Crates := .reference

/-- `ipn:0.1.0` twice, and `dtn://n/` -/
def twoNames : List NodeId := [.ipn ⟨0, 1⟩, .dtn [0x6E], .ipn ⟨0, 1⟩]

/-- All forms of the endpoint are hosted. -/
theorem twoNames_hosted :
    Hosted ⟨some ⟨0, 1⟩, some [0x6E]⟩ (.legacyIpn ⟨0, 2⟩ 7) ∧
      Hosted ⟨some ⟨0, 1⟩, some [0x6E]⟩ (.dtn [0x6D] []) ∧
      Hosted ⟨some ⟨0, 1⟩, some [0x6E]⟩ .null := by
  have hread : read (.ids twoNames) = .ok ⟨some ⟨0, 1⟩, some [0x6E]⟩ := rfl
  have hne : ¬ (Given.ids twoNames).Empty := fun h => by cases h
  exact ⟨(hosted_iff hread _).mpr hne, (hosted_iff hread _).mpr hne, (hosted_iff hread _).mpr hne⟩

/-- The empty list is accepted, and there is no endpoint for any destination. -/
theorem empty_not_hosted :
    read (.ids []) = .ok ⟨none, none⟩ ∧ read (.sequence []) = .ok ⟨none, none⟩ ∧
      (∀ destination, adminEndpoint? ⟨none, none⟩ destination = none) ∧
      ¬ ∀ (given : Given) (ids : NodeIds), read given = .ok ids →
        ∀ destination, ids.Hosted destination := by
  have hnone : ∀ destination, adminEndpoint? ⟨none, none⟩ destination = none := by
    intro destination
    cases destination <;> rfl
  refine ⟨rfl, rfl, hnone, fun h => ?_⟩
  obtain ⟨e, he, -⟩ := h (.ids []) ⟨none, none⟩ rfl .null
  cases (hnone .null).symm.trans he

end

end NodeIds

end Hardy.Routing
