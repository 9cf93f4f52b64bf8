import Hardy.Eid.Text

/-!
# Node names and service names

What the texts of node ids and of `dtn` EIDs lose.  `Display` of a node id does not encode the
node name, as that of an EID does, so it is read back when its name needs no encoding
(`NodeId.display_read`).  `is_valid_service_name` runs a parser that takes a prefix and never
fails, so it says yes to every name; the names that both forms of an EID keep are those of
visible ASCII (`Eid.isValidServiceName_exact`).
-/

namespace Hardy

open Cbor Grammar

section

variable [Crates]

/-! ## Node ids -/

namespace NodeId

theorem Obtained.wellFormed {nodeId : NodeId} (h : nodeId.Obtained) : nodeId.WellFormed := by
  obtain ⟨e, he, hnode⟩ := h.exists_eid
  exact ⟨e, he.wellFormed, hnode⟩

/-- The node ids that are read back from their texts. -/
theorem display_read {nodeId : NodeId} (h : nodeId.Obtained) :
    fromStr nodeId.display = some nodeId ↔ nodeId.Legible :=
  fromStr_display h.wellFormed

omit [Crates] in
/-- `dtn://n1/` -/
theorem display_read_plain : @fromStr .reference (display (.dtn [0x6E, 0x31])) =
    some (.dtn [0x6E, 0x31]) := by
  have hread : @fromStr .reference
      [0x64, 0x74, 0x6E, 0x3A, 0x2F, 0x2F, 0x6E, 0x31, 0x2F] = some (.dtn [0x6E, 0x31]) := by
    decide
  exact (@display_read .reference (.dtn [0x6E, 0x31]) (.inl ⟨_, hread⟩)).mpr ⟨rfl, rfl⟩

/-- `dtn://a%2541/`, the node of the name `a%41` -/
def escapedNode : Bytes :=
  [0x64, 0x74, 0x6E, 0x3A, 0x2F, 0x2F, 0x61, 0x25, 0x32, 0x35, 0x34, 0x31, 0x2F]

omit [Crates] in
/-- The text of that node is the text of the node `aA`. -/
theorem escapedNode_misread : ¬ ∀ nodeId : NodeId, @Obtained .reference nodeId →
    @fromStr .reference nodeId.display = some nodeId := by
  intro h
  have hread : @fromStr .reference escapedNode = some (.dtn [0x61, 0x25, 0x34, 0x31]) := by decide
  have hother : @fromStr .reference (display (.dtn [0x61, 0x25, 0x34, 0x31])) =
      some (.dtn [0x61, 0x41]) := by decide
  have hself := h _ (.inl ⟨_, hread⟩)
  rw [hother] at hself
  cases hself

end NodeId

/-! ## Service names -/

namespace Eid

def parseDtnServiceName : Parser UInt8 Bytes := takeWhile isVchar

def isValidServiceName (serviceName : Bytes) : Bool := (parseDtnServiceName serviceName).isSome

omit [Crates] in
theorem isValidServiceName_eq (serviceName : Bytes) : isValidServiceName serviceName = true := rfl

/-- The EID is read back from its text, and from its encoding where a slice has room for it. -/
structure RoundTrips [DebugText] (e : Eid) : Prop where
  text : fromStr e.display = some e
  wire : e.toCbor.length < wordSize → Reads fromCbor e.toCbor (e, true)

theorem parseDtn_service {t n s : Bytes} (h : parseDtn t = some (.dtn n s)) :
    s.all isVchar = true :=
  (parseDtn_wellFormed h).2

variable [DebugText]

theorem dtn_roundTrips {n s : Bytes} (hn : validUtf8 n = true) :
    (Eid.dtn n s).RoundTrips ↔ s.all isVchar = true := by
  constructor
  · rintro ⟨htext, -⟩
    rw [display, fromStr_dtnColon] at htext
    exact parseDtn_service htext
  · intro hs
    exact ⟨fromStr_display ⟨hn, hs⟩, reads_toCbor ⟨hn, hs⟩⟩

omit [Crates] in
omit [DebugText] in
theorem validUtf8_of_unreserved {n : Bytes} (h : n.all isUnreserved = true) :
    validUtf8 n = true := by
  refine validUtf8_of_ascii fun x hx => isVchar_ascii (isVchar_of_isRegname ?_)
  simp [isRegname, List.all_eq_true.mp h x hx]

/-- The validation is exact for the names that it should take, and for no others. -/
theorem isValidServiceName_exact (serviceName : Bytes) :
    (isValidServiceName serviceName = true ↔ ∀ nodeName : Bytes,
      nodeName.all isUnreserved = true → (Eid.dtn nodeName serviceName).RoundTrips) ↔
    serviceName.all isVchar = true := by
  constructor
  · intro h
    exact (dtn_roundTrips rfl).mp (h.mp (isValidServiceName_eq serviceName) [] rfl)
  · intro hs
    exact iff_of_true (isValidServiceName_eq serviceName) fun nodeName hn =>
      (dtn_roundTrips (validUtf8_of_unreserved hn)).mpr hs

end Eid

end

/-- `a b` is taken, and no text has it. -/
theorem Eid.spacedService_not_exact : ¬ ∀ serviceName : Bytes,
    isValidServiceName serviceName = true ↔ ∀ nodeName : Bytes,
      nodeName.all isUnreserved = true →
        @RoundTrips .reference .plain (.dtn nodeName serviceName) := by
  intro h
  have hexact := (@isValidServiceName_exact .reference .plain _).mp (h [0x61, 0x20, 0x62])
  cases hexact

end Hardy
