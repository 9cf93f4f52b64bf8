import Hardy.Eid.Text
import Hardy.Storage.Record

/-!
# The stored documents

The JSON of a record and of a bundle id.  What is no endpoint id stands in the
document as it is, and every endpoint id stands there as its text: `Fields` are the
places where one stands.  A record is read back as it was when each of its endpoint
ids is (`StoredBundle.read_doc`), and then its id has a document of its own
(`Id.doc_inj`).
-/

namespace Hardy

open Cbor

variable [Crates] [DebugText]

/-! ## Bundle ids -/

structure IdDoc where
  source : Bytes
  timestamp : CreationTimestamp
  fragmentInfo : Option FragmentInfo
deriving DecidableEq

/-- `serde_json::to_vec` -/
def Id.doc (id : Id) : IdDoc := ⟨id.source.display, id.timestamp, id.fragmentInfo⟩

theorem Id.doc_inj {id id' : Id} (h : id.source.WellFormed) (h' : id'.source.WellFormed)
    (hl : id.source.Legible) (hl' : id'.source.Legible) (heq : id.doc = id'.doc) : id = id' := by
  obtain ⟨source, timestamp, fragmentInfo⟩ := id
  obtain ⟨source', timestamp', fragmentInfo'⟩ := id'
  simp only [Id.doc, IdDoc.mk.injEq] at heq
  obtain ⟨hsource, rfl, rfl⟩ := heq
  obtain rfl : source = source' := Eid.display_inj h h' hl hl' hsource
  rfl

namespace Storage

open Bpa (BundleStatus)

/-! ## Records -/

/-- A value at every place of a record where an endpoint id stands. -/
structure Fields (ε ν : Type) where
  source : ε
  destination : ε
  reportTo : ε
  previousNode : Option ε
  peerNode : Option ν

namespace Fields

variable {ε ε' ν ν' : Type}

def map (f : ε → ε') (g : ν → ν') (x : Fields ε ν) : Fields ε' ν' where
  source := f x.source
  destination := f x.destination
  reportTo := f x.reportTo
  previousNode := x.previousNode.map f
  peerNode := x.peerNode.map g

/-- A value that may be absent, but not fail. -/
def optionally (f : ε → Option ε') : Option ε → Option (Option ε')
  | none => some none
  | some x => (f x).map some

def read (f : ε → Option ε') (g : ν → Option ν') (x : Fields ε ν) : Option (Fields ε' ν') := do
  let source ← f x.source
  let destination ← f x.destination
  let reportTo ← f x.reportTo
  let previousNode ← optionally f x.previousNode
  let peerNode ← optionally g x.peerNode
  some ⟨source, destination, reportTo, previousNode, peerNode⟩

structure All (P : ε → Prop) (Q : ν → Prop) (x : Fields ε ν) : Prop where
  source : P x.source
  destination : P x.destination
  reportTo : P x.reportTo
  previousNode : ∀ e ∈ x.previousNode, P e
  peerNode : ∀ n ∈ x.peerNode, Q n

section

omit [Crates] [DebugText]

theorem optionally_map_eq {f : ε → Option ε'} {s : ε' → ε} {x : Option ε'} :
    optionally f (x.map s) = some x ↔ ∀ e ∈ x, f (s e) = some e := by
  cases x with
  | none => simp [optionally]
  | some e => simp [optionally]

theorem read_map_eq {f : ε → Option ε'} {g : ν → Option ν'} {s : ε' → ε} {s' : ν' → ν}
    {x : Fields ε' ν'} : (x.map s s').read f g = some x ↔
      x.All (fun e => f (s e) = some e) fun n => g (s' n) = some n := by
  constructor
  · intro h
    simp only [read, Option.bind_eq_bind, Option.bind_eq_some_iff] at h
    obtain ⟨_, h₁, _, h₂, _, h₃, _, h₄, _, h₅, hx⟩ := h
    cases Option.some.inj hx
    exact ⟨h₁, h₂, h₃, optionally_map_eq.mp h₄, optionally_map_eq.mp h₅⟩
  · intro h
    have hprevious := optionally_map_eq.mpr h.previousNode
    have hpeer := optionally_map_eq.mpr h.peerNode
    simp only [read, map, h.source, h.destination, h.reportTo, hprevious, hpeer]
    rfl

theorem isSome_peerNode_of_read {f : ε → Option ε'} {g : ν → Option ν'} {x : Fields ε ν}
    {y : Fields ε' ν'} (h : x.read f g = some y) : y.peerNode.isSome = x.peerNode.isSome := by
  simp only [read, Option.bind_eq_bind, Option.bind_eq_some_iff] at h
  obtain ⟨_, -, _, -, _, -, _, -, peerNode, hpeer, hy⟩ := h
  cases Option.some.inj hy
  cases hx : x.peerNode with
  | none =>
    rw [hx] at hpeer
    cases Option.some.inj hpeer
    rfl
  | some n =>
    rw [hx, optionally, Option.map_eq_some_iff] at hpeer
    obtain ⟨m, -, rfl⟩ := hpeer
    rfl

theorem isSome_peerNode_map {f : ε → ε'} {g : ν → ν'} {x : Fields ε ν} :
    (x.map f g).peerNode.isSome = x.peerNode.isSome := Option.isSome_map

end

end Fields

/-- `StoredBundle`: the record without its status. -/
structure StoredBundle where
  bpv7 : Hardy.Bundle
  metadata : BundleMetadata

namespace Origin

def peerNode : Origin → Option NodeId
  | .ingress peerNode _ => peerNode
  | _ => none

def withPeerNode (peerNode : Option NodeId) : Origin → Origin
  | .ingress _ cla => .ingress peerNode cla
  | o => o

end Origin

namespace StoredBundle

def intoBundle (s : StoredBundle) (status : BundleStatus) : Bundle := ⟨s.bpv7, s.metadata, status⟩

def fields (s : StoredBundle) : Fields Eid NodeId where
  source := s.bpv7.primary.id.source
  destination := s.bpv7.primary.destination
  reportTo := s.bpv7.primary.reportTo
  previousNode := s.metadata.extensions.previousNode
  peerNode := s.metadata.origin.peerNode

def fill (s : StoredBundle) (x : Fields Eid NodeId) : StoredBundle where
  bpv7 :=
    { s.bpv7 with
      primary :=
        { s.bpv7.primary with
          id := { s.bpv7.primary.id with source := x.source }
          destination := x.destination
          reportTo := x.reportTo } }
  metadata :=
    { s.metadata with
      origin := s.metadata.origin.withPeerNode x.peerNode
      extensions := { s.metadata.extensions with previousNode := x.previousNode } }

def blank : Fields Eid NodeId := ⟨.null, .null, .null, none, none⟩

end StoredBundle

/-- The JSON of a record: what is left without the endpoint ids, and their texts. -/
structure Doc where
  rest : StoredBundle
  texts : Fields Bytes Bytes

/-- `serde_json::to_vec` -/
def StoredBundle.doc (s : StoredBundle) : Doc where
  rest := s.fill blank
  texts := s.fields.map Eid.display NodeId.display

/-- `serde_json::from_slice` -/
def Doc.read (d : Doc) : Option StoredBundle :=
  (d.texts.read Eid.fromStr NodeId.fromStr).map d.rest.fill

def Bundle.stored (b : Bundle) : StoredBundle := ⟨b.bpv7, b.metadata⟩

namespace StoredBundle

variable {s : StoredBundle} {x y : Fields Eid NodeId}

section

omit [Crates] [DebugText]

@[simp] theorem fill_fill : (s.fill x).fill y = s.fill y := by
  obtain ⟨bpv7, metadata⟩ := s
  simp only [fill]
  congr 2
  cases metadata.origin <;> rfl

@[simp] theorem fill_fields : s.fill s.fields = s := by
  obtain ⟨bpv7, receivedAt, origin, extensions, storageName, flowLabel⟩ := s
  cases origin <;> rfl

theorem fields_fill (h : x.peerNode.isSome = s.fields.peerNode.isSome) :
    (s.fill x).fields = x := by
  obtain ⟨bpv7, receivedAt, origin, extensions, storageName, flowLabel⟩ := s
  obtain ⟨source, destination, reportTo, previousNode, peerNode⟩ := x
  have hnone : origin.peerNode = none → peerNode = none := by
    intro hpeer
    simpa [fields, hpeer] using h
  cases origin with
  | ingress peer cla => rfl
  | originated =>
    rw [hnone rfl]
    rfl
  | recovered =>
    rw [hnone rfl]
    rfl

end

theorem read_doc : s.doc.read = some s ↔
    s.fields.All (fun e => Eid.fromStr e.display = some e)
      fun n => NodeId.fromStr n.display = some n := by
  rw [← Fields.read_map_eq, doc, Doc.read, Option.map_eq_some_iff]
  constructor
  · rintro ⟨y, hy, hfill⟩
    dsimp only at hfill
    have hpeer := Fields.isSome_peerNode_of_read hy
    rw [fill_fill] at hfill
    rw [Fields.isSome_peerNode_map] at hpeer
    have hfields := fields_fill hpeer
    rw [hfill] at hfields
    rw [hy, hfields]
  · intro h
    refine ⟨_, h, ?_⟩
    rw [fill_fill, fill_fields]

end StoredBundle

/-! ## Records that their documents tell -/

namespace Bundle

def EidsWellFormed (b : Bundle) : Prop := b.stored.fields.All Eid.WellFormed NodeId.WellFormed

/-- The text of each endpoint id says all that the endpoint id says. -/
def EidsLegible (b : Bundle) : Prop := b.stored.fields.All Eid.Legible NodeId.Legible

theorem read_doc {b : Bundle} (h : b.EidsWellFormed) :
    b.stored.doc.read = some b.stored ↔ b.EidsLegible := by
  have heid : ∀ {e : Eid}, e.WellFormed → (Eid.fromStr e.display = some e ↔ e.Legible) := by
    intro e he
    rw [Eid.fromStr_display he, Eid.readBack_eq_self]
  rw [StoredBundle.read_doc]
  constructor
  · intro hread
    exact {
      source := (heid h.source).mp hread.source
      destination := (heid h.destination).mp hread.destination
      reportTo := (heid h.reportTo).mp hread.reportTo
      previousNode := fun e he => (heid (h.previousNode e he)).mp (hread.previousNode e he)
      peerNode := fun n hn =>
        (NodeId.fromStr_display (h.peerNode n hn)).mp (hread.peerNode n hn) }
  · intro hl
    exact {
      source := (heid h.source).mpr hl.source
      destination := (heid h.destination).mpr hl.destination
      reportTo := (heid h.reportTo).mpr hl.reportTo
      previousNode := fun e he => (heid (h.previousNode e he)).mpr (hl.previousNode e he)
      peerNode := fun n hn =>
        (NodeId.fromStr_display (h.peerNode n hn)).mpr (hl.peerNode n hn) }

end Bundle

end Storage

end Hardy
