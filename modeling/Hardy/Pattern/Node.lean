import Hardy.Pattern.Roundtrip

/-!
# The pattern of a node

`From<NodeId>` for patterns, with the node ids that texts and wire EIDs have.
For the nodes of the `ipn` scheme the pattern has the EIDs of the node and no
others.  For those of the `dtn` scheme it never does: a glob sees the node name
and the demux as one path, and both may have a `/` (`NodeId.exact_iff`).
-/

namespace Hardy

open Cbor Grammar

inductive NodeId where
  | localNode
  | ipn (nodeId : IpnNodeId)
  | dtn (nodeName : Bytes)
deriving DecidableEq, Repr

theorem IpnNodeId.eq_iff {a b : IpnNodeId} :
    a.allocatorId = b.allocatorId ∧ a.nodeNumber = b.nodeNumber ↔ a = b := by
  cases a
  cases b
  simp

namespace Eid

def toNodeId : Eid → Option NodeId
  | .localNode _ => some .localNode
  | .legacyIpn fqnn _ | .ipn fqnn _ => some (.ipn fqnn)
  | .dtn nodeName _ => some (.dtn nodeName)
  | _ => none

/-! ## The text of EIDs -/

/-- The closure of `parse_ipn_parts`. -/
def ofTextParts (a b : Nat) (c : Option Nat) : Option Eid :=
  match c with
  | some s =>
    if a = 0 ∧ b = 0 then if s = 0 then some .null else none
    else if a = 0 ∧ b = u32Max then some (.localNode s)
    else some (.ipn ⟨a, b⟩ s)
  | none =>
    if a = 0 then if b = 0 then some .null else none
    else if a = u32Max then some (.localNode b)
    else some (.ipn ⟨0, a⟩ b)

def parseIpnParts : Parser UInt8 Eid :=
  bind decUint fun a => bind (preceded [0x2E] decUint) fun b =>
    tryMap (ofTextParts a b) (opt (preceded [0x2E] decUint))

def parseIpn : Parser UInt8 Eid :=
  alt (map .localNode (preceded [0x21, 0x2E] decUint)) parseIpnParts

def fromStr [Crates] (s : Bytes) : Option Eid :=
  match literal dtnColon s with
  | some (_, t) => parseDtn t
  | none => (literal ipnColon s).bind fun r => whole parseIpn r.2

def Obtained [Crates] (e : Eid) : Prop := (∃ s, fromStr s = some e) ∨ e.Decodable

theorem ofTextParts_wellFormed {a b : Nat} {c : Option Nat} {e : Eid} (ha : a ≤ u32Max)
    (hb : b ≤ u32Max) (hc : ∀ s ∈ c, s ≤ u32Max) (h : ofTextParts a b c = some e) :
    e.WellFormed := by
  cases c with
  | some s =>
    have hs := hc s rfl
    simp only [ofTextParts] at h
    repeat' split at h
    all_goals cases h
    all_goals simp only [WellFormed]
    all_goals omega
  | none =>
    simp only [ofTextParts] at h
    repeat' split at h
    all_goals cases h
    all_goals simp only [WellFormed]
    all_goals omega

theorem parseIpn_wellFormed : Yields parseIpn WellFormed := by
  refine Yields.alt (decUint_yields.preceded.map fun s hs => hs) ?_
  exact decUint_yields.bind fun a ha => decUint_yields.preceded.bind fun b hb =>
    decUint_yields.preceded.opt.tryMap fun c e hc h => ofTextParts_wellFormed ha hb hc h

theorem Obtained.wellFormed [Crates] {e : Eid} (h : e.Obtained) : e.WellFormed := by
  rcases h with ⟨s, h⟩ | h
  · rw [fromStr] at h
    split at h
    · exact parseDtn_wellFormed h
    · obtain ⟨r, -, hr⟩ := Option.bind_eq_some_iff.mp h
      exact parseIpn_wellFormed _ e _ (whole_eq_some.mp hr)
  · exact wellFormed_of_decodable h

theorem obtained_dtn [Crates] {n d : Bytes} (hn : validUtf8 n = true) (hd : d.all isVchar = true) :
    (Eid.dtn n d).Obtained := by
  refine .inl ⟨dtnColon ++ dtnText n d, ?_⟩
  rw [fromStr, literal_append]
  exact parseDtn_dtnText hn hd

end Eid

/-- `TryFrom<Eid>`, which takes the EIDs of administrative endpoints only. -/
def NodeId.tryFrom : Eid → Option NodeId
  | .localNode s => if s = 0 then some .localNode else none
  | .legacyIpn fqnn s | .ipn fqnn s => if s = 0 then some (.ipn fqnn) else none
  | .dtn nodeName serviceName => if serviceName.isEmpty then some (.dtn nodeName) else none
  | _ => none

theorem Eid.toNodeId_of_tryFrom {e : Eid} {nodeId : NodeId} (h : NodeId.tryFrom e = some nodeId) :
    e.toNodeId = some nodeId := by
  cases e with
  | null => cases h
  | unknown scheme ssp => cases h
  | _ => exact (Option.ite_none_right_eq_some.mp h).2

def NodeId.fromStr [Crates] (s : Bytes) : Option NodeId := (Eid.fromStr s).bind tryFrom

namespace EidPattern

variable [Crates] [GlobSyntax]

/-- `From<NodeId>`, where nothing is a panic of `expect`. -/
def ofNodeId : NodeId → Option EidPattern
  | .localNode => some (.set [.ipn (.new 0 Eid.u32Max none)])
  | .ipn nodeId => some (.ofIpnNodeId nodeId)
  | .dtn nodeName =>
    (DtnPatternItem.newGlob (nodeName ++ [0x2F, 0x2A, 0x2A])).map fun g => .set [.dtn g]

end EidPattern

namespace NodeId

variable [Crates] [GlobSyntax] [Globs]

def Obtained (nodeId : NodeId) : Prop :=
  (∃ s, fromStr s = some nodeId) ∨ ∃ e : Eid, e.Decodable ∧ e.toNodeId = some nodeId

/-- The pattern of the node is built without a panic and has the EIDs of the node
and no others. -/
def Exact (nodeId : NodeId) : Prop :=
  ∃ p, EidPattern.ofNodeId nodeId = some p ∧
    ∀ e : Eid, e.Obtained → (p.matches e = true ↔ e.toNodeId = some nodeId)

omit [GlobSyntax] [Globs] in
theorem Obtained.exists_eid {nodeId : NodeId} (h : nodeId.Obtained) :
    ∃ e : Eid, e.Obtained ∧ e.toNodeId = some nodeId := by
  rcases h with ⟨s, h⟩ | ⟨e, he, h⟩
  · obtain ⟨e, he, h⟩ := Option.bind_eq_some_iff.mp h
    exact ⟨e, .inl ⟨s, he⟩, Eid.toNodeId_of_tryFrom h⟩
  · exact ⟨e, .inr he, h⟩

omit [Crates] [GlobSyntax] in
theorem matches_node {a n : Nat} {e : Eid} :
    (EidPattern.set [.ipn (.new a n none)]).matches e = true ↔
      ∃ s, e.ipnParts = some (a, n, s) := by
  simp only [EidPattern.matches, List.any_cons, List.any_nil, Bool.or_false,
    EidPatternItem.matches, IpnPatternItem.matches_iff, IpnPatternItem.Has, IpnPatternItem.new,
    IpnPattern.matches, beq_iff_eq]
  constructor
  · rintro ⟨a', n', s, he, rfl, rfl, -⟩
    exact ⟨s, he⟩
  · rintro ⟨s, he⟩
    exact ⟨a, n, s, he, rfl, rfl, trivial⟩

omit [GlobSyntax] in
theorem localNode_exact [GlobSyntax] : Exact .localNode := by
  refine ⟨_, rfl, fun e he => matches_node.trans ?_⟩
  have hwf := he.wellFormed
  cases e with
  | ipn fqnn s =>
    refine iff_of_false ?_ (fun h => by cases h)
    rintro ⟨s', hs'⟩
    simp only [Eid.ipnParts, Option.some.injEq, Prod.mk.injEq] at hs'
    have := hwf.2.2.2 hs'.1
    omega
  | legacyIpn fqnn s =>
    refine iff_of_false ?_ (fun h => by cases h)
    rintro ⟨s', hs'⟩
    simp only [Eid.ipnParts, Option.some.injEq, Prod.mk.injEq] at hs'
    have := hwf.1
    omega
  | null => simp [Eid.ipnParts, Eid.toNodeId, Eid.u32Max]
  | localNode s => simp [Eid.ipnParts, Eid.toNodeId]
  | dtn n d => simp [Eid.ipnParts, Eid.toNodeId]
  | unknown scheme ssp => simp [Eid.ipnParts, Eid.toNodeId]

omit [GlobSyntax] [Globs] in
theorem Obtained.fqnn {fqnn : IpnNodeId} (h : Obtained (.ipn fqnn)) :
    fqnn.allocatorId = 0 → 0 < fqnn.nodeNumber ∧ fqnn.nodeNumber < Eid.u32Max := by
  obtain ⟨e, he, hnode⟩ := h.exists_eid
  have hwf := he.wellFormed
  cases e with
  | ipn fqnn' s =>
    cases hnode
    exact hwf.2.2.2
  | legacyIpn fqnn' s =>
    cases hnode
    exact fun h0 => absurd h0 hwf.1.ne'
  | _ => cases hnode

theorem ipn_exact {fqnn : IpnNodeId} (h : Obtained (.ipn fqnn)) : Exact (.ipn fqnn) := by
  refine ⟨_, rfl, fun e he => matches_node.trans ?_⟩
  have hnumber := h.fqnn
  cases e with
  | null =>
    refine iff_of_false ?_ (fun h => by cases h)
    rintro ⟨s, hs⟩
    simp only [Eid.ipnParts, Option.some.injEq, Prod.mk.injEq] at hs
    have := hnumber hs.1.symm
    omega
  | localNode s =>
    refine iff_of_false ?_ (fun h => by cases h)
    rintro ⟨s', hs'⟩
    simp only [Eid.ipnParts, Option.some.injEq, Prod.mk.injEq] at hs'
    have := hnumber hs'.1.symm
    omega
  | ipn fqnn' s => simp [Eid.ipnParts, Eid.toNodeId, IpnNodeId.eq_iff]
  | legacyIpn fqnn' s => simp [Eid.ipnParts, Eid.toNodeId, IpnNodeId.eq_iff]
  | dtn n d => simp [Eid.ipnParts, Eid.toNodeId]
  | unknown scheme ssp => simp [Eid.ipnParts, Eid.toNodeId]

theorem dtn_not_exact {nodeName : Bytes} (h : Obtained (.dtn nodeName)) :
    ¬ Exact (.dtn nodeName) := by
  rintro ⟨p, hp, hexact⟩
  obtain ⟨item, hitem, rfl⟩ := Option.map_eq_some_iff.mp hp
  obtain ⟨g, rfl⟩ : ∃ g, item = .glob g := by
    obtain ⟨t, -, ht⟩ := Option.bind_eq_some_iff.mp hitem
    rw [Option.ite_none_right_eq_some] at ht
    exact ⟨t, (Option.some.inj ht.2).symm⟩
  have hname : validUtf8 nodeName = true := by
    obtain ⟨e, he, hnode⟩ := h.exists_eid
    have hwf := he.wellFormed
    cases e with
    | dtn n d =>
      cases hnode
      exact hwf.1
    | _ => cases hnode
  have hlonger : validUtf8 (nodeName ++ [0x2F, 0x78]) = true := by
    rw [validUtf8_append (by decide), hname]
    rfl
  -- `//name/x/y` as a demux of the node and of the node with the longer name
  have hown : (Eid.dtn nodeName [0x78, 0x2F, 0x79]).Obtained := Eid.obtained_dtn hname rfl
  have hother : (Eid.dtn (nodeName ++ [0x2F, 0x78]) [0x79]).Obtained :=
    Eid.obtained_dtn hlonger rfl
  have hsame : (EidPattern.set [.dtn (.glob g)]).matches (.dtn nodeName [0x78, 0x2F, 0x79]) =
      (EidPattern.set [.dtn (.glob g)]).matches (.dtn (nodeName ++ [0x2F, 0x78]) [0x79]) := by
    simp [EidPattern.matches, EidPatternItem.matches, DtnPatternItem.matches,
      DtnPatternItem.doGlob]
  have hmatch := (hexact _ hown).mpr rfl
  have hnode := (hexact _ hother).mp (hsame ▸ hmatch)
  simp [Eid.toNodeId] at hnode

omit [Crates] [GlobSyntax] [Globs] in
theorem dtn_ne_localNode (nodeName : Bytes) : dtn nodeName ≠ .localNode := by
  intro h
  cases h

omit [Crates] [GlobSyntax] [Globs] in
theorem dtn_ne_ipn (nodeName : Bytes) (fqnn : IpnNodeId) : dtn nodeName ≠ .ipn fqnn := by
  intro h
  cases h

/-- The pattern of a node is total and exact for the nodes of the `ipn` scheme
only. -/
theorem exact_iff {nodeId : NodeId} (h : nodeId.Obtained) :
    nodeId.Exact ↔ ∀ nodeName, nodeId ≠ .dtn nodeName := by
  cases nodeId with
  | localNode => exact iff_of_true localNode_exact fun n => (dtn_ne_localNode n).symm
  | ipn fqnn => exact iff_of_true (ipn_exact h) fun n => (dtn_ne_ipn n fqnn).symm
  | dtn nodeName => exact iff_of_false (dtn_not_exact h) fun hne => hne nodeName rfl

/-! ## Two nodes -/

namespace Unclosed

open EidPattern.Escapes

/-- `ipn:1.0` -/
def ipnNode : Bytes := [0x69, 0x70, 0x6E, 0x3A, 0x31, 0x2E, 0x30]

/-- `dtn://a%5B/` -/
def bracketNode : Bytes := [0x64, 0x74, 0x6E, 0x3A, 0x2F, 0x2F, 0x61, 0x25, 0x35, 0x42, 0x2F]

omit [Crates] [GlobSyntax] [Globs] in
theorem ipnNode_exact : @Exact .reference brackets .literal (.ipn ⟨0, 1⟩) := by
  have hread : @fromStr .reference ipnNode = some (.ipn ⟨0, 1⟩) := by decide
  exact (@exact_iff .reference brackets .literal _ (.inl ⟨_, hread⟩)).mpr
    fun n => (dtn_ne_ipn n _).symm

omit [Crates] [GlobSyntax] [Globs] in
/-- The name of the node opens a bracket. -/
theorem bracketNode_not_exact : ¬ ∀ nodeId, @Obtained .reference nodeId →
    @Exact .reference brackets .literal nodeId := by
  intro h
  have hread : @fromStr .reference bracketNode = some (.dtn [0x61, 0x5B]) := by decide
  have hpanic : @EidPattern.ofNodeId .reference brackets (.dtn [0x61, 0x5B]) = none := by
    decide
  obtain ⟨p, hp, -⟩ := h _ (.inl ⟨_, hread⟩)
  rw [hpanic] at hp
  cases hp

end Unclosed

end NodeId

end Hardy
