import Hardy.Tcpcl.Framing

/-!
# Messages read back

Each message that can be built is read back from its encoding, however the stream of
messages is cut into chunks.  A rejection may name a message type that no message has,
and such a rejection is not read back.
-/

namespace Hardy.Tcpcl

open Cbor Decoder

/-! ## Flags -/

theorem or_and (a b m : UInt8) : (a ||| b) &&& m = (a &&& m) ||| (b &&& m) :=
  UInt8.toNat_inj.mp (by simp only [UInt8.toNat_and, UInt8.toNat_or, Nat.and_or_distrib_right])

theorem and_eq_zero {a m b : UInt8} (h : a &&& m = a) (hb : m &&& b = 0) : a &&& b = 0 := by
  rw [← h, UInt8.and_assoc, hb, UInt8.and_zero]

def SegmentFlags.Masked (f : SegmentFlags) : Prop := f.reserved &&& 0xFC = f.reserved

theorem SegmentFlags.ofU8_toU8 {f : SegmentFlags} (h : f.Masked) : ofU8 f.toU8 = f := by
  obtain ⟨start, finish, reserved⟩ := f
  have hmask : reserved &&& 0xFC = reserved := h
  have hone : reserved &&& 1 = 0 := and_eq_zero hmask rfl
  have htwo : reserved &&& 2 = 0 := and_eq_zero hmask rfl
  have hbits : (1 : UInt8) &&& 2 = 0 ∧ (2 : UInt8) &&& 1 = 0 ∧ (1 : UInt8) &&& 0xFC = 0 ∧
      (2 : UInt8) &&& 0xFC = 0 := ⟨rfl, rfl, rfl, rfl⟩
  cases start <;> cases finish <;> simp [ofU8, toU8, or_and, hmask, hone, htwo, hbits]

def TermFlags.Masked (f : TermFlags) : Prop := f.reserved &&& 0xFE = f.reserved

theorem TermFlags.ofU8_toU8 {f : TermFlags} (h : f.Masked) : ofU8 f.toU8 = f := by
  obtain ⟨reply, reserved⟩ := f
  have hmask : reserved &&& 0xFE = reserved := h
  have hone : reserved &&& 1 = 0 := and_eq_zero hmask rfl
  have hbit : (1 : UInt8) &&& 0xFE = 0 := rfl
  cases reply <;> simp [ofU8, toU8, or_and, hmask, hone, hbit]

def ExtensionFlags.Masked (f : ExtensionFlags) : Prop := f.reserved &&& 0xFE = f.reserved

theorem SessionInitExtensionFlags.ofU8_toU8 {f : ExtensionFlags} (h : f.reserved = 0) :
    ExtensionFlags.ofU8 (toU8 f) = f := by
  obtain ⟨critical, reserved⟩ := f
  cases h
  cases critical <;> rfl

theorem TransferSegmentExtensionFlags.ofU8_toU8 {f : ExtensionFlags} (h : f.Masked) :
    ExtensionFlags.ofU8 (toU8 f) = f := by
  obtain ⟨critical, reserved⟩ := f
  have hmask : reserved &&& 0xFE = reserved := h
  have hone : reserved &&& 1 = 0 := and_eq_zero hmask rfl
  have hbit : (1 : UInt8) &&& 0xFE = 0 := rfl
  cases critical <;> simp [ExtensionFlags.ofU8, toU8, or_and, hmask, hone, hbit]

/-! ## Reason codes -/

/-! The codes without a meaning are those up to 0xEF, and the others are for private use. -/

def SessionTermReasonCode.WellFormed : SessionTermReasonCode → Prop
  | .unassigned n => 6 ≤ n.toNat ∧ n ≤ 0xEF
  | .privateUse n => 0xEF < n
  | _ => True

theorem private_toNat {n : UInt8} (h : 0xEF < n) : 0xEF < n.toNat ∧ ¬ n ≤ 0xEF :=
  ⟨UInt8.lt_iff_toNat_lt.mp h, UInt8.not_le.mpr h⟩

theorem SessionTermReasonCode.ofU8_toU8 {c : SessionTermReasonCode} (h : c.WellFormed) :
    ofU8 c.toU8 = c := by
  cases c with
  | unassigned n =>
    obtain ⟨hlo, hhi⟩ := h
    rw [toU8, ofU8]
    split <;> first | omega | exact if_pos hhi
  | privateUse n =>
    obtain ⟨hlo, hhi⟩ := private_toNat h
    rw [toU8, ofU8]
    split <;> first | omega | exact if_neg hhi
  | _ => rfl

def MessageRejectionReasonCode.WellFormed : MessageRejectionReasonCode → Prop
  | .unassigned n => (n = 0 ∨ 4 ≤ n.toNat) ∧ n ≤ 0xEF
  | .privateUse n => 0xEF < n
  | _ => True

theorem MessageRejectionReasonCode.ofU8_toU8 {c : MessageRejectionReasonCode}
    (h : c.WellFormed) : ofU8 c.toU8 = c := by
  cases c with
  | unassigned n =>
    obtain ⟨rfl | hlo, hhi⟩ := h
    · rfl
    · rw [toU8, ofU8]
      split <;> first | omega | exact if_pos hhi
  | privateUse n =>
    obtain ⟨hlo, hhi⟩ := private_toNat h
    rw [toU8, ofU8]
    split <;> first | omega | exact if_neg hhi
  | _ => rfl

def TransferRefuseReasonCode.WellFormed : TransferRefuseReasonCode → Prop
  | .unassigned n => 7 ≤ n.toNat ∧ n ≤ 0xEF
  | .privateUse n => 0xEF < n
  | _ => True

theorem TransferRefuseReasonCode.ofU8_toU8 {c : TransferRefuseReasonCode} (h : c.WellFormed) :
    ofU8 c.toU8 = c := by
  cases c with
  | unassigned n =>
    obtain ⟨hlo, hhi⟩ := h
    rw [toU8, ofU8]
    split <;> first | omega | exact if_pos hhi
  | privateUse n =>
    obtain ⟨hlo, hhi⟩ := private_toNat h
    rw [toU8, ofU8]
    split <;> first | omega | exact if_neg hhi
  | _ => rfl

/-! ## Messages -/

/-- The message is read back behind its encoding, and waited for on a part of it. -/
structure ReadsBack (decode : Bytes → Decoded) (encoded : Bytes) (msg : Message) : Prop where
  whole : ∀ r, decode (encoded ++ r) = .ok (some msg, r)
  cut : ∀ p q, encoded = p ++ q → q ≠ [] → decode p = .ok (none, p)

theorem ne_append {c r q : Bytes} (hq : q ≠ []) (hc : c = []) : c ≠ r ++ q := by
  rintro rfl
  exact hq (List.append_eq_nil_iff.mp hc).2

theorem readsBack_inPlace {m : Decoder Message} {encoded : Bytes} {msg : Message} (hf : Firm m)
    (hm : Reads m encoded msg) : ReadsBack (decodeInPlace m) encoded msg where
  whole r := by rw [decodeInPlace, hm r]
  cut p q hpq hq := by
    have h := hm []
    rw [hpq, List.append_nil] at h
    rw [decodeInPlace, Firm.cut hf h fun r => ne_append hq rfl]

theorem SessionTermMessage.readsBack {m : SessionTermMessage} (hflags : m.messageFlags.Masked)
    (hreason : m.reasonCode.WellFormed) :
    ReadsBack SessionTermMessage.decode m.encode (.sessionTerm m) := by
  refine readsBack_inPlace ((firm_need 3).bind fun _ => firm_skipType.bind fun _ =>
    firm_getU8.bind fun _ => firm_getU8.bind fun _ => firm_pure _) ?_
  refine Reads.need ?_ (Nat.le_refl 3)
  refine Reads.bind (x := [_]) (reads_skipType _) (Reads.bind (x := [_]) (reads_getU8 _)
    ((reads_getU8 _).bind_pure ?_))
  rw [TermFlags.ofU8_toU8 hflags, SessionTermReasonCode.ofU8_toU8 hreason]
  exact Reads.pure _

theorem TransferAckMessage.readsBack {m : TransferAckMessage} (hflags : m.messageFlags.Masked) :
    ReadsBack TransferAckMessage.decode m.encode (.transferAck m) := by
  refine readsBack_inPlace ((firm_need 18).bind fun _ => firm_skipType.bind fun _ =>
    firm_getU8.bind fun _ => firm_getU64.bind fun _ => firm_getU64.bind fun _ => firm_pure _) ?_
  refine Reads.need ?_ ?_
  · refine Reads.bind (x := [_]) (reads_skipType _) (Reads.bind (x := [_]) (reads_getU8 _)
      ((reads_getU64 _).bind ((reads_getU64 _).bind_pure ?_)))
    rw [SegmentFlags.ofU8_toU8 hflags]
    exact Reads.pure _
  · simp [encode, putU64]

theorem TransferRefuseMessage.readsBack {m : TransferRefuseMessage}
    (hreason : m.reasonCode.WellFormed) :
    ReadsBack TransferRefuseMessage.decode m.encode (.transferRefuse m) := by
  refine readsBack_inPlace ((firm_need 10).bind fun _ => firm_skipType.bind fun _ =>
    firm_getU8.bind fun _ => firm_getU64.bind fun _ => firm_pure _) ?_
  refine Reads.need ?_ ?_
  · refine Reads.bind (x := [_]) (reads_skipType _) (Reads.bind (x := [_]) (reads_getU8 _)
      ((reads_getU64 _).bind_pure ?_))
    rw [TransferRefuseReasonCode.ofU8_toU8 hreason]
    exact Reads.pure _
  · simp [encode, putU64]

theorem MessageRejectMessage.readsBack {m : MessageRejectMessage}
    (hreason : m.reasonCode.WellFormed) {t : MessageType} (ht : m.rejectedMessage = t.toU8) :
    ReadsBack MessageRejectMessage.decode m.encode (.reject m) := by
  refine readsBack_inPlace ((firm_need 3).bind fun _ => firm_skipType.bind fun _ =>
    firm_getU8.bind fun _ => firm_getU8.bind fun b => ?_) ?_
  · cases MessageType.ofU8 b with
    | error e => exact firm_throw e
    | ok t => exact firm_pure _
  · refine Reads.need ?_ (Nat.le_refl 3)
    refine Reads.bind (x := [_]) (reads_skipType _) (Reads.bind (x := [_]) (reads_getU8 _)
      ((reads_getU8 _).bind_pure ?_))
    rw [ht, MessageType.ofU8_toU8, MessageRejectionReasonCode.ofU8_toU8 hreason]
    dsimp only
    rw [← ht]
    exact Reads.pure _

/-! ### Session initialization -/

section

variable [Crates]

/-- The text of the node id is read back and its length fits in 16 bits. -/
structure Sendable (nodeId : NodeId) : Prop where
  utf8 : validUtf8 nodeId.display = true
  parses : NodeId.fromStr nodeId.display = some nodeId
  length : nodeId.display.length < 65536

theorem Sendable.length_pos {nodeId : NodeId} (h : Sendable nodeId) :
    0 < nodeId.display.length := by
  refine List.length_pos_iff.mpr fun hnil => ?_
  have hparses := h.parses
  rw [hnil] at hparses
  cases hparses

theorem firm_decodeNodeId (length : UInt16) : Firm (decodeNodeId length) := by
  unfold decodeNodeId
  split
  · refine (firm_splitTo _).bind fun text => ?_
    split
    · exact firm_throw _
    · split
      · exact firm_pure _
      · exact firm_throw _
  · exact firm_pure _

theorem drops_decodeNodeId (length : UInt16) :
    Drops (decodeNodeId length) fun _ => length.toNat := by
  intro d a c h
  unfold decodeNodeId at h
  split at h
  · obtain ⟨text, c₁, h₁, h₂⟩ := Scan.bind_ok h
    obtain ⟨hle, -, rfl⟩ := splitTo_ok h₁
    cases hutf8 : validUtf8 text with
    | false =>
      rw [hutf8] at h₂
      cases h₂
    | true =>
      rw [hutf8] at h₂
      cases hparse : NodeId.fromStr text with
      | none =>
        rw [hparse] at h₂
        cases h₂
      | some nodeId =>
        rw [hparse] at h₂
        cases h₂
        exact ⟨rfl, hle⟩
  · next hzero =>
      cases h
      have hlength : length.toNat = 0 := by omega
      rw [hlength]
      exact ⟨rfl, Nat.zero_le _⟩

/-- `encode` of the node id and its length. -/
def nodeIdBytes : Option NodeId → Bytes
  | some nodeId => nodeId.display
  | none => []

theorem reads_decodeNodeId {nodeId : Option NodeId} (h : ∀ n ∈ nodeId, Sendable n) :
    Reads (decodeNodeId (.ofNat (nodeIdBytes nodeId).length)) (nodeIdBytes nodeId) nodeId := by
  cases nodeId with
  | none => exact Reads.pure none
  | some n =>
    have hn := h n rfl
    have hlength : (UInt16.ofNat n.display.length).toNat = n.display.length := by
      rw [UInt16.toNat_ofNat', Nat.mod_eq_of_lt hn.length]
    unfold decodeNodeId nodeIdBytes
    dsimp only
    rw [hlength, if_pos hn.length_pos]
    refine (reads_splitTo _).bind_pure ?_
    rw [hn.utf8, hn.parses]
    exact Reads.pure _

theorem SessionInitMessage.firm_parse : Firm SessionInitMessage.parse := by
  refine (firm_need 21).bind fun _ => firm_skipType.bind fun _ => firm_getU16.bind fun _ =>
    firm_getU64.bind fun _ => firm_getU64.bind fun _ => firm_getU16.bind fun _ =>
    (firm_decodeNodeId _).bind fun _ => (firm_need 4).bind fun _ => firm_getU32.bind fun _ =>
    (firm_decodeExtensions _ _ _).bind fun p => ?_
  obtain ⟨items, consumed⟩ := p
  exact firm_pure _

theorem SessionInitMessage.counts_parse : Counts SessionInitMessage.parse 0 :=
  .bind (drops_need 21) fun _ => .bind drops_skipType fun _ => .bind drops_getU16 fun _ =>
    .bind drops_getU64 fun _ => .bind drops_getU64 fun _ => .bind drops_getU16 fun length =>
    .bind (drops_decodeNodeId length) fun _ => .bind (drops_need 4) fun _ =>
    .bind drops_getU32 fun _ => (counts_decodeExtensions _ _ _).map

/-- The message as it is read: the session extension items with their flags. -/
structure SessionInitMessage.Buildable (m : SessionInitMessage) : Prop where
  nodeId : ∀ n ∈ m.nodeId, Sendable n
  length : ∀ e ∈ m.sessionExtensions, e.itemLength.toNat = e.itemValue.length
  flags : ∀ e ∈ m.sessionExtensions, e.flags.reserved = 0
  total : extensionsLength m.sessionExtensions < 2 ^ 32

omit [Crates] in
theorem SessionInitMessage.encode_eq (m : SessionInitMessage) : m.encode =
    [MessageType.sessInit.toU8] ++ (putU16 m.keepaliveInterval ++ (putU64 m.segmentMru ++
      (putU64 m.transferMru ++ (putU16 (.ofNat (nodeIdBytes m.nodeId).length) ++
        (nodeIdBytes m.nodeId ++
          encodeExtensions SessionInitExtensionFlags.toU8 m.sessionExtensions))))) := by
  unfold encode
  cases m.nodeId with
  | none => rfl
  | some n =>
    dsimp only [nodeIdBytes]
    rw [List.append_assoc]
    rfl

omit [Crates] in
theorem reads_extensions {flags : ExtensionFlags → UInt8} {items : List ExtensionItem}
    (hlength : ∀ e ∈ items, e.itemLength.toNat = e.itemValue.length)
    (hflags : ∀ e ∈ items, ExtensionFlags.ofU8 (flags e.flags) = e.flags)
    (htotal : extensionsLength items < 2 ^ 32) (consumed : Nat) :
    Reads (getU32 >>= fun length => decodeExtensions length.toNat consumed [])
      (encodeExtensions flags items) (items, consumed + extensionsLength items) := by
  have hnat : (UInt32.ofNat (extensionsLength items)).toNat = extensionsLength items := by
    rw [UInt32.toNat_ofNat', Nat.mod_eq_of_lt htotal]
  have hitems := reads_item flags items hlength hflags consumed []
  rw [List.nil_append, ← hnat] at hitems
  exact (reads_getU32 _).bind (hnat ▸ hitems)

theorem SessionInitMessage.reads_parse {m : SessionInitMessage} (h : m.Buildable) :
    ∃ n, Reads SessionInitMessage.parse m.encode (m, n) := by
  have hlength : (UInt16.ofNat (nodeIdBytes m.nodeId).length).toNat =
      (nodeIdBytes m.nodeId).length := by
    rw [UInt16.toNat_ofNat', Nat.mod_eq_of_lt]
    cases hid : m.nodeId with
    | none => exact Nat.zero_lt_succ _
    | some n => exact (h.nodeId n hid).length
  refine ⟨1 + 2 + 8 + 8 + 2 + (nodeIdBytes m.nodeId).length + 4 +
    extensionsLength m.sessionExtensions, ?_⟩
  rw [encode_eq]
  refine Reads.need (.bind (reads_skipType _) ((reads_getU16 _).bind ((reads_getU64 _).bind
    ((reads_getU64 _).bind ((reads_getU16 _).bind ((reads_decodeNodeId h.nodeId).bind
      (Reads.need (n := 4) ?_ ?_))))))) ?_
  · rw [hlength, ← bind_assoc]
    exact (reads_extensions h.length
      (fun e he => SessionInitExtensionFlags.ofU8_toU8 (h.flags e he)) h.total _).bind_pure
      (Reads.pure _)
  · rw [encodeExtensions, List.length_append, putU32, length_beBytes]
    exact Nat.le_add_right 4 _
  · simp only [List.length_append, List.length_singleton, putU16, putU64, length_beBytes]
    omega

theorem SessionInitMessage.readsBack {m : SessionInitMessage} (h : m.Buildable) :
    ReadsBack SessionInitMessage.decode m.encode (.sessionInit m) := by
  obtain ⟨n, hreads⟩ := reads_parse h
  refine ⟨fun r => ?_, fun p q hpq hq => ?_⟩
  · obtain ⟨used, hn, hrest, -⟩ := counts_parse _ _ _ _ (hreads r)
    rw [Nat.zero_add] at hn
    have hrest : r = (m.encode ++ r).drop n := hn ▸ hrest
    rw [decode, hreads r]
    dsimp only
    rw [← hrest]
  · have hall := hreads []
    rw [hpq, List.append_nil] at hall
    rw [decode, Firm.cut firm_parse hall fun r => ne_append hq rfl]

end

/-! ### Segments -/

theorem firm_decodeSegmentExtensions (start : Bool) : Firm (decodeSegmentExtensions start) := by
  cases start with
  | false => exact firm_pure _
  | true =>
    exact (firm_need 4).bind fun _ => firm_getU32.bind fun _ => firm_decodeExtensions _ _ _

theorem counts_decodeSegmentExtensions (start : Bool) :
    Counts (decodeSegmentExtensions start) 10 := by
  cases start with
  | false => exact Counts.pure [] 10
  | true =>
    exact .bind (drops_need 4) fun _ => .bind drops_getU32 fun _ =>
      counts_decodeExtensions _ _ _

theorem TransferSegmentMessage.firm_parse : Firm TransferSegmentMessage.parse := by
  refine Scan.Firm.bind ?_ fun p => (firm_need _).bind fun _ => firm_pure _
  refine (firm_need 10).bind fun _ => firm_skipType.bind fun _ => firm_getU8.bind fun _ =>
    firm_getU64.bind fun _ => (firm_decodeSegmentExtensions _).bind fun p => ?_
  obtain ⟨items, consumed⟩ := p
  exact (firm_need 8).bind fun _ => firm_getU64.bind fun _ => firm_pure _

theorem TransferSegmentMessage.parseHeader_ok {d : Bytes} {h : SegmentHeader} {n : Nat}
    {c : Cursor UInt8 Unit}
    (hp : TransferSegmentMessage.parseHeader ⟨(), d⟩ = .ok ((h, n), c)) :
    c.rest = d.drop (n + 8) ∧ n + 8 ≤ d.length := by
  obtain ⟨_, c₀, h₀, htype⟩ := Scan.bind_ok hp
  obtain ⟨_, c₁, h₁, hflags⟩ := Scan.bind_ok htype
  obtain ⟨flags, c₂, h₂, hid⟩ := Scan.bind_ok hflags
  obtain ⟨id, c₃, h₃, hitems⟩ := Scan.bind_ok hid
  obtain ⟨⟨items, consumed⟩, c₄, h₄, hlength⟩ := Scan.bind_ok hitems
  obtain ⟨_, c₅, h₅, hlast⟩ := Scan.bind_ok hlength
  obtain ⟨length, c₆, h₆, hpure⟩ := Scan.bind_ok hlast
  clear hp htype hflags hid hitems hlength hlast
  cases hpure
  obtain ⟨hten, rfl⟩ := need_ok h₀
  obtain ⟨hd₁, -⟩ := drops_skipType _ _ _ h₁
  obtain ⟨hd₂, -⟩ := drops_getU8 _ _ _ h₂
  obtain ⟨hd₃, -⟩ := drops_getU64 _ _ _ h₃
  obtain ⟨used, hn, hd₄, hused⟩ := counts_decodeSegmentExtensions _ _ _ _ _ h₄
  obtain ⟨-, rfl⟩ := need_ok h₅
  obtain ⟨hd₆, height⟩ := drops_getU64 _ _ _ h₆
  rw [hd₁] at hd₂
  rw [hd₂] at hd₃
  rw [hd₃, List.drop_drop, List.drop_drop] at hd₄ hused
  rw [hd₄, List.drop_drop] at hd₆ height
  rw [List.length_drop] at hused height
  dsimp only at hd₄ hused hd₆ height
  refine ⟨?_, by omega⟩
  rw [hd₆, List.drop_drop, hn]
  congr 1
  omega

theorem TransferSegmentMessage.parse_ok {d : Bytes} {p : SegmentHeader × Nat}
    {c : Cursor UInt8 Unit} (hp : TransferSegmentMessage.parse ⟨(), d⟩ = .ok (p, c)) :
    TransferSegmentMessage.parseHeader ⟨(), d⟩ = .ok (p, c) ∧
      p.1.dataLength.toNat ≤ c.rest.length := by
  obtain ⟨p, c₁, h₁, hdata⟩ := Scan.bind_ok hp
  obtain ⟨_, c₂, h₂, hpure⟩ := Scan.bind_ok hdata
  cases hpure
  obtain ⟨hle, rfl⟩ := need_ok h₂
  exact ⟨h₁, hle⟩

/-- The extension items are written with the first segment only. -/
structure TransferSegmentMessage.Buildable (m : TransferSegmentMessage) : Prop where
  messageFlags : m.messageFlags.Masked
  first : m.messageFlags.start = false → m.transferExtensions = []
  length : ∀ e ∈ m.transferExtensions, e.itemLength.toNat = e.itemValue.length
  flags : ∀ e ∈ m.transferExtensions, e.flags.Masked
  total : extensionsLength m.transferExtensions < 2 ^ 32
  data : m.data.length < 2 ^ 64

def TransferSegmentMessage.head (m : TransferSegmentMessage) : Bytes :=
  [MessageType.xferSegment.toU8] ++ ([m.messageFlags.toU8] ++ (putU64 m.transferId ++
    ((if m.messageFlags.start then
      encodeExtensions TransferSegmentExtensionFlags.toU8 m.transferExtensions else []) ++
        putU64 (.ofNat m.data.length))))

theorem TransferSegmentMessage.encode_eq (m : TransferSegmentMessage) :
    m.encode = m.head ++ m.data := by
  simp only [encode, head, List.append_assoc, List.cons_append, List.nil_append]

theorem TransferSegmentMessage.reads_header {b : UInt8} (id length : UInt64) {x : Bytes}
    {items : List ExtensionItem} {n : Nat}
    (hitems : Reads (decodeSegmentExtensions (SegmentFlags.ofU8 b).start) x (items, n)) :
    Reads parseHeader
      ([MessageType.xferSegment.toU8] ++ ([b] ++ (putU64 id ++ (x ++ putU64 length))))
      (⟨.ofU8 b, id, items, length⟩, n) := by
  have hlast : Reads (need 8 >>= fun _ => getU64 >>= fun length =>
      pure ((⟨.ofU8 b, id, items, length⟩ : SegmentHeader), n)) (putU64 length)
      (⟨.ofU8 b, id, items, length⟩, n) := by
    refine Reads.need ((reads_getU64 _).bind_pure (Reads.pure _)) ?_
    rw [putU64, length_beBytes]
  refine Reads.need (.bind (reads_skipType _) (.bind (reads_getU8 _)
    ((reads_getU64 _).bind (hitems.bind hlast)))) ?_
  simp only [List.length_append, List.length_singleton, putU64, length_beBytes]
  omega

theorem TransferSegmentMessage.reads_parseHeader {m : TransferSegmentMessage} (h : m.Buildable) :
    ∃ n, Reads parseHeader m.head
      (⟨m.messageFlags, m.transferId, m.transferExtensions, .ofNat m.data.length⟩, n) := by
  have hflags := SegmentFlags.ofU8_toU8 h.messageFlags
  suffices hitems : Reads
      (decodeSegmentExtensions (SegmentFlags.ofU8 m.messageFlags.toU8).start)
      (if m.messageFlags.start then
        encodeExtensions TransferSegmentExtensionFlags.toU8 m.transferExtensions else [])
      (m.transferExtensions,
        if m.messageFlags.start then 10 + 4 + extensionsLength m.transferExtensions else 10) by
    have hheader := reads_header m.transferId (.ofNat m.data.length) hitems
    rw [hflags] at hheader
    exact ⟨_, hheader⟩
  rw [hflags, decodeSegmentExtensions]
  cases hstart : m.messageFlags.start with
  | false =>
    rw [h.first hstart]
    exact Reads.pure ([], 10)
  | true =>
    refine Reads.need (reads_extensions h.length
      (fun e he => TransferSegmentExtensionFlags.ofU8_toU8 (h.flags e he)) h.total _) ?_
    rw [if_pos rfl, encodeExtensions, List.length_append, putU32, length_beBytes]
    omega

theorem TransferSegmentMessage.parse_encode {m : TransferSegmentMessage} (h : m.Buildable) :
    ∃ n, ∀ r, parse ⟨(), m.encode ++ r⟩ = .ok ((⟨m.messageFlags, m.transferId,
        m.transferExtensions, .ofNat m.data.length⟩, n), ⟨(), m.data ++ r⟩) := by
  obtain ⟨n, hreads⟩ := reads_parseHeader h
  refine ⟨n, fun r => ?_⟩
  have hr := hreads (m.data ++ r)
  rw [← List.append_assoc, ← encode_eq] at hr
  unfold parse
  rw [Scan.bind_eq_of_ok hr]
  refine Scan.bind_eq_of_ok (if_neg (Nat.not_lt.mpr ?_)) _
  rw [UInt64.toNat_ofNat', Nat.mod_eq_of_lt h.data, List.length_append]
  exact Nat.le_add_right _ _

theorem TransferSegmentMessage.readsBack {m : TransferSegmentMessage} (h : m.Buildable) :
    ReadsBack TransferSegmentMessage.decode m.encode (.transferSegment m) := by
  obtain ⟨n, hparse⟩ := parse_encode h
  have hlength : (UInt64.ofNat m.data.length).toNat = m.data.length := by
    rw [UInt64.toNat_ofNat', Nat.mod_eq_of_lt h.data]
  refine ⟨fun r => ?_, fun p q hpq hq => ?_⟩
  · obtain ⟨hrest, -⟩ := parseHeader_ok (parse_ok (hparse r)).1
    rw [decode, hparse r]
    dsimp only at hrest ⊢
    rw [← hrest, hlength, List.take_left, List.drop_left]
  · have hall := hparse []
    rw [List.append_nil, List.append_nil, hpq] at hall
    rcases hp : parse ⟨(), p⟩ with (_ | e) | ⟨⟨hd, k⟩, c⟩
    · rw [decode, hp]
    · rw [firm_parse.hard hp rfl q] at hall
      cases hall
    · -- the data would be there without the last part
      obtain ⟨-, hle⟩ := parse_ok hp
      rw [firm_parse.ok hp q] at hall
      obtain ⟨hhead, hc⟩ := Prod.mk.inj (Except.ok.inj hall)
      have hdata : c.rest ++ q = m.data := congrArg Cursor.rest hc
      rw [hhead, hlength, ← hdata, List.length_append] at hle
      exact absurd (List.length_eq_zero_iff.mp (by omega)) hq

/-! ## The stream -/

section

variable [Crates]

/-- The messages that are built: what is in them fits the fields that it is written to. -/
def Message.Buildable : Message → Prop
  | .sessionInit m => m.Buildable
  | .sessionTerm m => m.messageFlags.Masked ∧ m.reasonCode.WellFormed
  | .keepalive => True
  | .transferSegment m => m.Buildable
  | .transferAck m => m.messageFlags.Masked
  | .transferRefuse m => m.reasonCode.WellFormed
  | .reject m => m.reasonCode.WellFormed

omit [Crates] in
def Message.Known : Message → Prop
  | .reject m => ∃ t : MessageType, m.rejectedMessage = t.toU8
  | _ => True

theorem readsBack_dispatch {decode : Bytes → Decoded} {b : UInt8} {encoded : Bytes}
    {msg : Message} (h : ReadsBack decode (b :: encoded) msg)
    (hdecode : ∀ src, Message.decode (b :: src) = decode (b :: src)) :
    ReadsBack Message.decode (b :: encoded) msg where
  whole r := (hdecode _).trans (h.whole r)
  cut p q hpq hq := by
    cases p with
    | nil => rfl
    | cons b' p =>
      obtain ⟨rfl, -⟩ := List.cons.inj hpq
      exact (hdecode p).trans (h.cut _ q hpq hq)

theorem Message.readsBack {m : Message} (h : m.Buildable) (hk : m.Known) :
    ReadsBack Message.decode m.encode m := by
  cases m with
  | sessionInit m => exact readsBack_dispatch (SessionInitMessage.readsBack h) fun _ => rfl
  | sessionTerm m =>
    exact readsBack_dispatch (SessionTermMessage.readsBack h.1 h.2) fun _ => rfl
  | keepalive =>
    refine ⟨fun r => rfl, fun p q hpq hq => ?_⟩
    cases p with
    | nil => rfl
    | cons b p =>
      obtain ⟨-, hnil⟩ := List.cons.inj hpq
      exact absurd (List.append_eq_nil_iff.mp hnil.symm).2 hq
  | transferSegment m =>
    exact readsBack_dispatch (TransferSegmentMessage.readsBack h) fun _ => rfl
  | transferAck m => exact readsBack_dispatch (TransferAckMessage.readsBack h) fun _ => rfl
  | transferRefuse m =>
    exact readsBack_dispatch (TransferRefuseMessage.readsBack h) fun _ => rfl
  | reject m =>
    obtain ⟨t, ht⟩ := hk
    exact readsBack_dispatch (MessageRejectMessage.readsBack h ht) fun _ => rfl

theorem message_framing : FrameDecoder.Framing Message.encode Message.decode
    fun m => m.Buildable ∧ m.Known where
  nonempty m hm hnil := by
    have hwhole := (Message.readsBack hm.1 hm.2).whole []
    rw [hnil] at hwhole
    cases hwhole
  whole m hm := (Message.readsBack hm.1 hm.2).whole
  cut m hm := (Message.readsBack hm.1 hm.2).cut
  empty := rfl

/-- What is encoded is decoded, in whatever chunks it arrives, and no part of a message
is taken for one. -/
theorem feedAll_encode (ms : List Message) (chunks : List Bytes)
    (hms : ∀ m ∈ ms, m.Buildable ∧ m.Known) (hchunks : chunks.flatten = ms.flatMap Message.encode) :
    FrameDecoder.feedAll Message.decode chunks = .ok (ms, []) ∧
      ∀ m ∈ ms, ∀ p q, m.encode = p ++ q → q ≠ [] → Message.decode p = .ok (none, p) :=
  ⟨message_framing.feedAll_eq hms hchunks, fun m hm =>
    (Message.readsBack (hms m hm).1 (hms m hm).2).cut⟩

end

/-! ### Two messages, and a rejection of what is no message -/

section

local instance : Crates := .reference

theorem keepalive_and_refuse :
    FrameDecoder.feedAll Message.decode [[4, 3], [1, 0, 0, 0, 0, 0, 0, 0, 7]] =
        .ok ([.keepalive, .transferRefuse ⟨.completed, 7⟩], []) ∧
      ∀ m ∈ ([.keepalive, .transferRefuse ⟨.completed, 7⟩] : List Message), ∀ p q,
        m.encode = p ++ q → q ≠ [] → Message.decode p = .ok (none, p) := by
  refine feedAll_encode _ _ (fun m hm => ?_) rfl
  rcases List.mem_cons.mp hm with rfl | hm
  · exact ⟨trivial, trivial⟩
  · cases List.mem_singleton.mp hm
    exact ⟨trivial, trivial⟩

/-- The answer to a message of type 9 is not read back. -/
theorem reject_not_read_back :
    ¬ ∀ (ms : List Message) (chunks : List Bytes), (∀ m ∈ ms, m.Buildable) →
      chunks.flatten = ms.flatMap Message.encode →
      FrameDecoder.feedAll Message.decode chunks = .ok (ms, []) := by
  intro h
  have hread := h [.reject ⟨.unknownType, 9⟩] [[6, 1, 9]]
    (fun m hm => by cases List.mem_singleton.mp hm; exact trivial) rfl
  cases hread

end

end Hardy.Tcpcl
