import Hardy.Pattern.Node

/-!
# The text of endpoint ids

`Display` of EIDs and of node ids, the form that they have in JSON.  The text of an
EID is read back as `Eid.readBack` says: the encoding of an `ipn` EID is not in its
text, and an EID of an unknown scheme has no text that is taken (`fromStr_display`).
A node name is percent-encoded in the text of an EID, and is not in the text of a
node id (`NodeId.fromStr_display`).
-/

namespace Hardy

open Cbor Grammar

/-- `Debug` of the scheme-specific part of an unknown EID, or of the error it has. -/
class DebugText where
  ssp : Bytes → Bytes

def DebugText.plain : DebugText := ⟨id⟩

namespace Eid

def ipnText (fqnn : IpnNodeId) (serviceNumber : Nat) : Bytes :=
  if fqnn.allocatorId = 0 then
    ipnColon ++ (decimal fqnn.nodeNumber ++ 0x2E :: decimal serviceNumber)
  else
    ipnColon ++ (decimal fqnn.allocatorId ++
      0x2E :: (decimal fqnn.nodeNumber ++ 0x2E :: decimal serviceNumber))

/-- `"unknown("` -/
def unknownOpen : Bytes := [0x75, 0x6E, 0x6B, 0x6E, 0x6F, 0x77, 0x6E, 0x28]

def display [Crates] [DebugText] : Eid → Bytes
  | .null => dtnColon ++ noneText
  | .localNode s => ipnColon ++ (0x21 :: 0x2E :: decimal s)
  | .legacyIpn fqnn s | .ipn fqnn s => ipnText fqnn s
  | .dtn nodeName serviceName => dtnColon ++ dtnText nodeName serviceName
  | .unknown scheme ssp => unknownOpen ++ decimal scheme ++ 0x29 :: 0x3A :: DebugText.ssp ssp

def readBack : Eid → Option Eid
  | .legacyIpn fqnn s => some (.ipn fqnn s)
  | .unknown _ _ => none
  | e => some e

def Legible : Eid → Prop
  | .legacyIpn _ _ | .unknown _ _ => False
  | _ => True

theorem readBack_eq_self {e : Eid} : e.readBack = some e ↔ e.Legible := by
  cases e <;> simp [readBack, Legible]

def Known : Eid → Prop
  | .unknown _ _ => False
  | _ => True

def normal : Eid → Eid
  | .legacyIpn fqnn s => .ipn fqnn s
  | e => e

theorem readBack_eq_normal {e : Eid} : e.readBack = some e.normal ↔ e.Known := by
  cases e <;> simp [readBack, normal, Known]

@[simp] theorem normal_normal {e : Eid} : e.normal.normal = e.normal := by
  cases e <;> rfl

@[simp] theorem display_normal [Crates] [DebugText] {e : Eid} : e.normal.display = e.display := by
  cases e <;> rfl

/-! ## Numbers between dots -/

theorem decUint_dot {n : Nat} (h : n ≤ u32Max) (r : Bytes) :
    decUint (decimal n ++ 0x2E :: r) = some (n, 0x2E :: r) :=
  (decUint_local rfl).next (not_mem_decimal rfl) (decUint_decimal h)

theorem decimal_head (n : Nat) : ∃ c t, decimal n = c :: t ∧ isDigit c = true := by
  rcases Nat.eq_zero_or_pos n with rfl | hn
  · exact ⟨0x30, [], rfl, rfl⟩
  · obtain ⟨c, t, ht, hc⟩ := decimal_first hn
    exact ⟨c, t, ht, isDigit_of_nonZero hc⟩

theorem parseIpnParts_two {a b : Nat} (ha : a ≤ u32Max) (hb : b ≤ u32Max) :
    parseIpnParts (decimal a ++ 0x2E :: decimal b) = (ofTextParts a b none).map (·, []) := by
  simp [parseIpnParts, Grammar.bind, decUint_dot ha, preceded, literal, decUint_decimal hb,
    Grammar.tryMap, Grammar.opt]

theorem parseIpnParts_three {a b c : Nat} (ha : a ≤ u32Max) (hb : b ≤ u32Max) (hc : c ≤ u32Max) :
    parseIpnParts (decimal a ++ 0x2E :: (decimal b ++ 0x2E :: decimal c)) =
      (ofTextParts a b (some c)).map (·, []) := by
  simp [parseIpnParts, Grammar.bind, decUint_dot ha, decUint_dot hb, preceded, literal,
    decUint_decimal hc, Grammar.tryMap, Grammar.opt]

theorem parseIpn_decimal (n : Nat) (r : Bytes) :
    parseIpn (decimal n ++ r) = parseIpnParts (decimal n ++ r) := by
  obtain ⟨c, t, ht, hc⟩ := decimal_head n
  have hne : (0x21 : UInt8) ≠ c := by
    rintro rfl
    cases hc
  have hlit : literal [0x21, 0x2E] (decimal n ++ r) = none := by
    simp [ht, literal, hne]
  simp [parseIpn, Grammar.alt, Grammar.map, preceded, Grammar.bind, hlit]

variable [Crates]

theorem fromStr_ipnColon (t : Bytes) : fromStr (ipnColon ++ t) = whole parseIpn t := by
  have hdtn : literal dtnColon (ipnColon ++ t) = none := rfl
  simp only [fromStr, hdtn, literal_append, Option.bind_some]

theorem fromStr_dtnColon (t : Bytes) : fromStr (dtnColon ++ t) = parseDtn t := by
  simp only [fromStr, literal_append]

theorem fromStr_ipnText {fqnn : IpnNodeId} {s : Nat} (h : (Eid.ipn fqnn s).WellFormed) :
    fromStr (ipnText fqnn s) = some (.ipn fqnn s) := by
  obtain ⟨ha, hn, hs, hzero⟩ := h
  obtain ⟨a, n⟩ := fqnn
  rw [ipnText]
  split
  · next h0 =>
      dsimp only at h0 hzero hn ⊢
      subst h0
      have hpos := hzero rfl
      rw [fromStr_ipnColon, whole, parseIpn_decimal, parseIpnParts_two hn hs, ofTextParts,
        if_neg (by omega), if_neg (by omega)]
      rfl
  · next h0 =>
      rw [fromStr_ipnColon, whole, parseIpn_decimal, parseIpnParts_three ha hn hs, ofTextParts]
      have h0 : a ≠ 0 := h0
      rw [if_neg fun h => h0 h.1, if_neg fun h => h0 h.1]
      rfl

theorem fromStr_display [DebugText] {e : Eid} (h : e.WellFormed) :
    fromStr e.display = e.readBack := by
  cases e with
  | null =>
    rw [display, fromStr_dtnColon]
    rfl
  | localNode s =>
    rw [display, fromStr_ipnColon, whole]
    simp [parseIpn, Grammar.alt, Grammar.map, preceded, Grammar.bind, literal,
      decUint_decimal h, readBack]
  | legacyIpn fqnn s =>
    obtain ⟨ha, ha', hn, hs⟩ := h
    exact fromStr_ipnText ⟨ha', hn, hs, fun h0 => absurd h0 ha.ne'⟩
  | ipn fqnn s => exact fromStr_ipnText h
  | dtn nodeName serviceName =>
    rw [display, fromStr_dtnColon]
    exact parseDtn_dtnText h.1 h.2
  | unknown scheme ssp => rfl

theorem display_inj [DebugText] {e e' : Eid} (h : e.WellFormed) (h' : e'.WellFormed)
    (hl : e.Legible) (hl' : e'.Legible) (heq : e.display = e'.display) : e = e' := by
  have hread := fromStr_display h
  rw [heq, fromStr_display h', readBack_eq_self.mpr hl', readBack_eq_self.mpr hl] at hread
  exact (Option.some.inj hread).symm

end Eid

namespace NodeId

def display : NodeId → Bytes
  | .localNode => ipnColon ++ [0x21, 0x2E, 0x30]
  | .ipn fqnn => Eid.ipnText fqnn 0
  | .dtn nodeName => dtnColon ++ (0x2F :: 0x2F :: (nodeName ++ [0x2F]))

variable [Crates]

/-- Every character of the name may stand in a text, and none is an escape. -/
def Legible : NodeId → Prop
  | .dtn nodeName => nodeName.all Eid.isRegname = true ∧ Crates.percentDecode nodeName = nodeName
  | _ => True

def WellFormed (nodeId : NodeId) : Prop := ∃ e : Eid, e.WellFormed ∧ e.toNodeId = some nodeId

omit [Crates] in
theorem WellFormed.ipn {fqnn : IpnNodeId} (h : WellFormed (.ipn fqnn)) :
    (Eid.ipn fqnn 0).WellFormed := by
  obtain ⟨e, he, hnode⟩ := h
  cases e with
  | ipn fqnn s =>
    cases hnode
    exact ⟨he.1, he.2.1, Nat.zero_le _, he.2.2.2⟩
  | legacyIpn fqnn s =>
    cases hnode
    exact ⟨he.2.1, he.2.2.1, Nat.zero_le _, fun h0 => absurd h0 he.1.ne'⟩
  | _ => cases hnode

omit [Crates] in
theorem WellFormed.dtn {nodeName : Bytes} (h : WellFormed (.dtn nodeName)) :
    validUtf8 nodeName = true := by
  obtain ⟨e, he, hnode⟩ := h
  cases e with
  | dtn n d =>
    cases hnode
    exact he.1
  | _ => cases hnode

theorem tryFrom_of_not_regname {nodeName : Bytes} (h : nodeName.all Eid.isRegname = false) :
    (Eid.parseDtn (0x2F :: 0x2F :: (nodeName ++ [0x2F]))).bind tryFrom = none := by
  obtain ⟨c, t, hcut⟩ : ∃ c t, nodeName.dropWhile Eid.isRegname = c :: t := by
    cases hd : nodeName.dropWhile Eid.isRegname with
    | nil =>
      rw [List.all_eq_true.mpr (List.dropWhile_eq_nil_iff.mp hd)] at h
      cases h
    | cons c t => exact ⟨c, t, rfl⟩
  have hdrop : (nodeName ++ [0x2F]).dropWhile Eid.isRegname = c :: (t ++ [0x2F]) := by
    rw [List.dropWhile_append, hcut]
    rfl
  rw [Eid.parseDtn, if_neg (by simp [Eid.noneText])]
  simp only [hdrop]
  split
  · next service hservice =>
      obtain ⟨rfl, rfl⟩ := List.cons.inj hservice
      split
      · simp [tryFrom]
      · rfl
  · rfl

theorem parseDtn_of_regname {nodeName : Bytes} (h : nodeName.all Eid.isRegname = true) :
    Eid.parseDtn (0x2F :: 0x2F :: (nodeName ++ [0x2F])) =
      if validUtf8 (Crates.percentDecode nodeName) then
        some (.dtn (Crates.percentDecode nodeName) []) else none := by
  have hall : ∀ c ∈ nodeName, Eid.isRegname c = true := List.all_eq_true.mp h
  have htake : (nodeName ++ [0x2F]).takeWhile Eid.isRegname = nodeName := by
    rw [List.takeWhile_append_of_pos hall]
    exact List.append_nil _
  have hdrop : (nodeName ++ [0x2F]).dropWhile Eid.isRegname = [0x2F] := by
    rw [List.dropWhile_append_of_pos hall]
    rfl
  rw [Eid.parseDtn, if_neg (by simp [Eid.noneText])]
  simp only [hdrop, htake, List.all_nil, Bool.and_true]

theorem fromStr_display {nodeId : NodeId} (h : nodeId.WellFormed) :
    fromStr nodeId.display = some nodeId ↔ nodeId.Legible := by
  cases nodeId with
  | localNode =>
    have hread : fromStr (display .localNode) = some .localNode := by
      rw [fromStr, display, Eid.fromStr_ipnColon]
      rfl
    exact iff_of_true hread trivial
  | ipn fqnn =>
    rw [fromStr, display, Eid.fromStr_ipnText h.ipn]
    exact iff_of_true rfl trivial
  | dtn nodeName =>
    rw [fromStr, display, Eid.fromStr_dtnColon, Legible]
    cases hall : nodeName.all Eid.isRegname with
    | false =>
      rw [tryFrom_of_not_regname hall]
      exact iff_of_false nofun fun h => absurd h.1 Bool.false_ne_true
    | true =>
      rw [parseDtn_of_regname hall]
      constructor
      · intro hread
        split at hread
        · exact ⟨rfl, by simpa [tryFrom] using hread⟩
        · cases hread
      · rintro ⟨-, hdecode⟩
        rw [hdecode, if_pos h.dtn]
        rfl

end NodeId

end Hardy
