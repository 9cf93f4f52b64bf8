import Hardy.Tcpcl.Roundtrip

/-!
# What a message takes off the buffer

The loops over extension items stop when less than the head of an item is left of the
declared length, and what is left is not skipped: it is read again as the field that
follows, and the message takes that much less off the buffer than its fields say.
-/

namespace Hardy.Tcpcl

open Cbor Decoder

section

variable {d : Bytes} {c : Cursor UInt8 Unit}

theorem beNat_take_lt {n : Nat} (b : Bytes) (h : n ≤ b.length) : beNat (b.take n) < 256 ^ n := by
  have hlt := beNat_lt (b.take n)
  rwa [List.length_take, Nat.min_eq_left h] at hlt

theorem getU8_eq {n : UInt8} (h : getU8 ⟨(), d⟩ = .ok (n, c)) : n = d.getD 0 0 := by
  cases d with
  | nil => cases h
  | cons b d =>
    cases h
    rfl

theorem getU16_toNat {n : UInt16} (h : getU16 ⟨(), d⟩ = .ok (n, c)) :
    n.toNat = beNat (d.take 2) := by
  obtain ⟨-, hle⟩ := drops_getU16 _ _ _ h
  obtain ⟨rfl, -⟩ := getU16_ok h
  rw [UInt16.toNat_ofNat']
  exact Nat.mod_eq_of_lt (beNat_take_lt d hle)

theorem getU32_toNat {n : UInt32} (h : getU32 ⟨(), d⟩ = .ok (n, c)) :
    n.toNat = beNat (d.take 4) := by
  obtain ⟨-, hle⟩ := drops_getU32 _ _ _ h
  obtain ⟨b, c₁, h₁, h₂⟩ := Scan.bind_ok h
  obtain ⟨-, rfl, rfl⟩ := splitTo_ok h₁
  cases h₂
  rw [UInt32.toNat_ofNat']
  exact Nat.mod_eq_of_lt (beNat_take_lt d hle)

end

/-! ## Session initialization -/

namespace SessionInitMessage

def nodeIdLength (src : Bytes) : Nat := beNat ((src.drop 19).take 2)

def extensionsDeclared (src : Bytes) : Nat :=
  beNat ((src.drop (21 + nodeIdLength src)).take 4)

def frameLength (src : Bytes) : Nat := 21 + nodeIdLength src + 4 + extensionsDeclared src

def Fills (src : Bytes) : Prop :=
  unfilled (extensionsDeclared src) (src.drop (21 + nodeIdLength src + 4)) = 0

variable [Crates]

theorem parse_ok {src : Bytes} {m : SessionInitMessage} {n : Nat} {c : Cursor UInt8 Unit}
    (h : parse ⟨(), src⟩ = .ok ((m, n), c)) :
    n ≤ src.length ∧ frameLength src =
      n + unfilled (extensionsDeclared src) (src.drop (21 + nodeIdLength src + 4)) := by
  obtain ⟨used, hn, -, hused⟩ := counts_parse _ _ _ _ h
  refine ⟨by omega, ?_⟩
  obtain ⟨_, c₀, h₀, htype⟩ := Scan.bind_ok h
  obtain ⟨_, c₁, h₁, hkeepalive⟩ := Scan.bind_ok htype
  obtain ⟨_, c₂, h₂, hsegment⟩ := Scan.bind_ok hkeepalive
  obtain ⟨_, c₃, h₃, htransfer⟩ := Scan.bind_ok hsegment
  obtain ⟨_, c₄, h₄, hlength⟩ := Scan.bind_ok htransfer
  obtain ⟨idLength, c₅, h₅, hid⟩ := Scan.bind_ok hlength
  obtain ⟨_, c₆, h₆, hneed⟩ := Scan.bind_ok hid
  obtain ⟨_, c₇, h₇, hdeclared⟩ := Scan.bind_ok hneed
  obtain ⟨declared, c₈, h₈, hitems⟩ := Scan.bind_ok hdeclared
  obtain ⟨⟨items, consumed⟩, c₉, h₉, hpure⟩ := Scan.bind_ok hitems
  clear h htype hkeepalive hsegment htransfer hlength hid hneed hdeclared hitems
  cases hpure
  obtain ⟨-, rfl⟩ := need_ok h₀
  obtain ⟨hd₁, -⟩ := drops_skipType _ _ _ h₁
  obtain ⟨hd₂, -⟩ := drops_getU16 _ _ _ h₂
  obtain ⟨hd₃, -⟩ := drops_getU64 _ _ _ h₃
  obtain ⟨hd₄, -⟩ := drops_getU64 _ _ _ h₄
  obtain ⟨hd₅, -⟩ := drops_getU16 _ _ _ h₅
  obtain ⟨hd₆, -⟩ := drops_decodeNodeId idLength _ _ _ h₆
  obtain ⟨-, rfl⟩ := need_ok h₇
  obtain ⟨hd₈, -⟩ := drops_getU32 _ _ _ h₈
  dsimp only at hd₁
  rw [hd₁, List.drop_drop] at hd₂
  rw [hd₂, List.drop_drop] at hd₃
  rw [hd₃, List.drop_drop] at hd₄
  rw [hd₄, List.drop_drop] at hd₅
  have hidLength : idLength.toNat = nodeIdLength src := by
    rw [getU16_toNat h₅, hd₄]
    rfl
  rw [hd₅, List.drop_drop, hidLength] at hd₆
  have hbefore : c₆.rest = src.drop (21 + nodeIdLength src) := hd₆
  have hdeclared : declared.toNat = extensionsDeclared src := by
    rw [getU32_toNat h₈, hbefore]
    rfl
  rw [hbefore, List.drop_drop] at hd₈
  rw [hdeclared, hidLength] at h₉
  obtain ⟨taken, htaken, -, -, hunfilled⟩ := decodeExtensions_ok h₉
  rw [hd₈] at hunfilled
  unfold frameLength
  dsimp only at hunfilled
  omega

theorem consumed_iff {src rest : Bytes} {m : SessionInitMessage}
    (h : decode src = .ok (some (.sessionInit m), rest)) :
    src.length - rest.length = frameLength src ↔ Fills src := by
  rw [decode] at h
  rcases hp : parse ⟨(), src⟩ with (_ | e) | ⟨⟨m', n⟩, c⟩
  · rw [hp] at h
    cases h
  · rw [hp] at h
    cases h
  · rw [hp] at h
    cases h
    obtain ⟨hn, hframe⟩ := parse_ok hp
    rw [List.length_drop, hframe, Fills]
    omega

end SessionInitMessage

/-! ## Segments -/

namespace TransferSegmentMessage

def isStart (src : Bytes) : Bool := (SegmentFlags.ofU8 (src.getD 1 0)).start

def extensionsDeclared (src : Bytes) : Nat := beNat ((src.drop 10).take 4)

def frameLength (src : Bytes) (m : TransferSegmentMessage) : Nat :=
  if isStart src then 10 + 4 + extensionsDeclared src + 8 + m.data.length
  else 10 + 8 + m.data.length

def Fills (src : Bytes) : Prop :=
  isStart src = true → unfilled (extensionsDeclared src) (src.drop 14) = 0

theorem parseHeader_length {src : Bytes} {hd : SegmentHeader} {n : Nat} {c : Cursor UInt8 Unit}
    (h : parseHeader ⟨(), src⟩ = .ok ((hd, n), c)) :
    if isStart src then
      10 + 4 + extensionsDeclared src = n + unfilled (extensionsDeclared src) (src.drop 14)
    else n = 10 := by
  obtain ⟨_, c₀, h₀, htype⟩ := Scan.bind_ok h
  obtain ⟨_, c₁, h₁, hflags⟩ := Scan.bind_ok htype
  obtain ⟨flags, c₂, h₂, hid⟩ := Scan.bind_ok hflags
  obtain ⟨id, c₃, h₃, hitems⟩ := Scan.bind_ok hid
  obtain ⟨⟨items, consumed⟩, c₄, h₄, hlength⟩ := Scan.bind_ok hitems
  obtain ⟨_, c₅, h₅, hlast⟩ := Scan.bind_ok hlength
  obtain ⟨length, c₆, h₆, hpure⟩ := Scan.bind_ok hlast
  clear h htype hflags hid hitems hlength hlast h₅ h₆
  cases hpure
  obtain ⟨-, rfl⟩ := need_ok h₀
  obtain ⟨hd₁, -⟩ := drops_skipType _ _ _ h₁
  obtain ⟨hd₂, -⟩ := drops_getU8 _ _ _ h₂
  obtain ⟨hd₃, -⟩ := drops_getU64 _ _ _ h₃
  dsimp only at hd₁
  rw [hd₁, List.drop_drop] at hd₂
  rw [hd₂, List.drop_drop] at hd₃
  have hstart : isStart src = (SegmentFlags.ofU8 flags).start := by
    rw [isStart, getU8_eq h₂, hd₁, List.getD_eq_getElem?_getD, List.getD_eq_getElem?_getD,
      List.getElem?_drop]
  rw [hstart]
  rw [decodeSegmentExtensions] at h₄
  split at h₄
  · next hs =>
      rw [if_pos hs]
      obtain ⟨_, c₅, h₅, hdeclared⟩ := Scan.bind_ok h₄
      obtain ⟨declared, c₆, h₆, hitems⟩ := Scan.bind_ok hdeclared
      obtain ⟨-, rfl⟩ := need_ok h₅
      obtain ⟨hd₄, -⟩ := drops_getU32 _ _ _ h₆
      have hdecl : declared.toNat = extensionsDeclared src := by
        rw [getU32_toNat h₆, hd₃]
        rfl
      rw [hdecl] at hitems
      obtain ⟨used, hused, -, -, hunfilled⟩ := decodeExtensions_ok hitems
      have hbase : c₆.rest = src.drop 14 := by
        rw [hd₄, hd₃, List.drop_drop]
        rfl
      rw [hbase] at hunfilled
      omega
  · next hs =>
      rw [if_neg hs]
      cases h₄
      rfl

theorem consumed_iff {src rest : Bytes} {m : TransferSegmentMessage}
    (h : decode src = .ok (some (.transferSegment m), rest)) :
    src.length - rest.length = frameLength src m ↔ Fills src := by
  rw [decode] at h
  rcases hp : parse ⟨(), src⟩ with (_ | e) | ⟨⟨hd, n⟩, c⟩
  · rw [hp] at h
    cases h
  · rw [hp] at h
    cases h
  · rw [hp] at h
    cases h
    obtain ⟨hheader, hle⟩ := parse_ok hp
    have hlength := parseHeader_length hheader
    obtain ⟨hrest, hn⟩ := parseHeader_ok hheader
    dsimp only at hrest hn hle hlength
    rw [hrest, List.length_drop] at hle
    have hdata : ((src.drop (n + 8)).take hd.dataLength.toNat).length = hd.dataLength.toNat := by
      rw [List.length_take, List.length_drop]
      omega
    have hconsumed : src.length - ((src.drop (n + 8)).drop hd.dataLength.toNat).length =
        n + 8 + hd.dataLength.toNat := by
      rw [List.length_drop, List.length_drop]
      omega
    rw [hconsumed, frameLength, Fills, hdata]
    split at hlength
    · next hs =>
        rw [if_pos hs]
        simp only [hs, true_implies]
        omega
    · next hs =>
        rw [if_neg hs]
        have hfills : isStart src = true →
            unfilled (extensionsDeclared src) (src.drop 14) = 0 := fun h => absurd h hs
        exact iff_of_true (by omega) hfills

end TransferSegmentMessage

/-! ## Either message -/

section

variable {α β : Type} {m : Decoder α} {k : α → Decoder β}

def Yields (m : Decoder α) (P : α → Prop) : Prop := ∀ c a c', m c = .ok (a, c') → P a

theorem Yields.bind {P : β → Prop} (hk : ∀ a, Yields (k a) P) : Yields (m >>= k) P := by
  intro c b c' h
  obtain ⟨a, c₁, -, h₂⟩ := Scan.bind_ok h
  exact hk a c₁ b c' h₂

theorem Yields.pure {P : α → Prop} {a : α} (ha : P a) : Yields (pure a) P := by
  intro c b c' h
  cases h
  exact ha

end

variable {src rest : Bytes} {msg : Message}

theorem decodeInPlace_yields {m : Decoder Message} {t : MessageType}
    (hm : Yields m fun msg => msg.messageType = t)
    (h : decodeInPlace m src = .ok (some msg, rest)) : msg.messageType = t := by
  rw [decodeInPlace] at h
  rcases hp : m ⟨(), src⟩ with (_ | e) | ⟨msg', c⟩
  · rw [hp] at h
    cases h
  · rw [hp] at h
    cases h
  · rw [hp] at h
    cases h
    exact hm _ _ _ hp

theorem SessionTermMessage.decode_type
    (h : decode src = .ok (some msg, rest)) : msg.messageType = .sessTerm :=
  decodeInPlace_yields (.bind fun _ => .bind fun _ => .bind fun _ => .bind fun _ => .pure rfl) h

theorem TransferAckMessage.decode_type
    (h : decode src = .ok (some msg, rest)) : msg.messageType = .xferAck :=
  decodeInPlace_yields
    (.bind fun _ => .bind fun _ => .bind fun _ => .bind fun _ => .bind fun _ => .pure rfl) h

theorem TransferRefuseMessage.decode_type
    (h : decode src = .ok (some msg, rest)) : msg.messageType = .xferRefuse :=
  decodeInPlace_yields (.bind fun _ => .bind fun _ => .bind fun _ => .bind fun _ => .pure rfl) h

theorem MessageRejectMessage.decode_type
    (h : decode src = .ok (some msg, rest)) : msg.messageType = .msgReject := by
  refine decodeInPlace_yields
    (.bind fun _ => .bind fun _ => .bind fun _ => .bind fun rejected => ?_) h
  intro c a c' hr
  rcases ht : MessageType.ofU8 rejected with e | t
  · rw [ht] at hr
    cases hr
  · rw [ht] at hr
    cases hr
    rfl

theorem TransferSegmentMessage.decode_type
    (h : decode src = .ok (some msg, rest)) : msg.messageType = .xferSegment := by
  rw [decode] at h
  split at h
  · cases h
    rfl
  · cases h
  · cases h

section

variable [Crates]

theorem SessionInitMessage.decode_type
    (h : decode src = .ok (some msg, rest)) : msg.messageType = .sessInit := by
  rw [decode] at h
  split at h
  · cases h
    rfl
  · cases h
  · cases h

theorem Message.decode_type {b : UInt8}
    (h : Message.decode (b :: src) = .ok (some msg, rest)) : b = msg.messageType.toU8 := by
  rw [Message.decode] at h
  rcases ht : MessageType.ofU8 b with e | t
  · rw [ht] at h
    cases h
  · have hb := MessageType.ofU8_eq_ok ht
    rw [ht] at h
    suffices hmsg : msg.messageType = t by rw [hb, hmsg]
    cases t with
    | xferSegment => exact TransferSegmentMessage.decode_type h
    | xferAck => exact TransferAckMessage.decode_type h
    | xferRefuse => exact TransferRefuseMessage.decode_type h
    | keepalive =>
      cases h
      rfl
    | sessTerm => exact SessionTermMessage.decode_type h
    | msgReject => exact MessageRejectMessage.decode_type h
    | sessInit => exact SessionInitMessage.decode_type h

theorem decode_sessionInit {m : SessionInitMessage}
    (h : Message.decode src = .ok (some (.sessionInit m), rest)) :
    SessionInitMessage.decode src = .ok (some (.sessionInit m), rest) := by
  cases src with
  | nil => cases h
  | cons b src =>
    cases Message.decode_type h
    exact h

theorem decode_transferSegment {m : TransferSegmentMessage}
    (h : Message.decode src = .ok (some (.transferSegment m), rest)) :
    TransferSegmentMessage.decode src = .ok (some (.transferSegment m), rest) := by
  cases src with
  | nil => cases h
  | cons b src =>
    cases Message.decode_type h
    exact h

/-- A message takes its frame off the buffer exactly if its extension items fill their
declared length. -/
theorem decode_consumed_iff (src rest : Bytes) :
    (∀ m, Message.decode src = .ok (some (.sessionInit m), rest) →
      (src.length - rest.length = SessionInitMessage.frameLength src ↔
        SessionInitMessage.Fills src)) ∧
    ∀ m, Message.decode src = .ok (some (.transferSegment m), rest) →
      (src.length - rest.length = TransferSegmentMessage.frameLength src m ↔
        TransferSegmentMessage.Fills src) :=
  ⟨fun _ h => SessionInitMessage.consumed_iff (decode_sessionInit h),
    fun _ h => TransferSegmentMessage.consumed_iff (decode_transferSegment h)⟩

end

/-! ### An item list that is cut short -/

/-- A first segment of no data, behind a list of three bytes that are no item. -/
def unfilledSegment : Bytes :=
  [1, 2, 0, 0, 0, 0, 0, 0, 0, 0, 0, 0, 0, 3, 0, 0, 0, 0, 0, 0, 0, 0, 0, 0, 0]

theorem reads_short (n : UInt32) (h : n.toNat < 5) :
    Reads (decodeSegmentExtensions true) (putU32 n) ([], 14) := by
  rw [decodeSegmentExtensions, if_pos rfl]
  refine Reads.need ((reads_getU32 n).bind_pure ?_) (Nat.le_of_eq (length_beBytes 4 _).symm)
  rw [decodeExtensions, if_pos h]
  exact Reads.pure _

theorem decode_unfilledSegment : TransferSegmentMessage.decode unfilledSegment =
    .ok (some (.transferSegment ⟨⟨true, false, 0⟩, 0, [], []⟩), [0, 0, 0]) := by
  have hheader := TransferSegmentMessage.reads_header (b := 2) 0 0
    (reads_short 3 (by decide)) [0, 0, 0]
  have hparse : TransferSegmentMessage.parse ⟨(), unfilledSegment⟩ =
      .ok ((⟨⟨true, false, 0⟩, 0, [], 0⟩, 14), ⟨(), [0, 0, 0]⟩) :=
    Scan.bind_eq_of_ok hheader _
  rw [TransferSegmentMessage.decode, hparse]
  rfl

section

local instance : Crates := .reference

def item : ExtensionItem := ⟨⟨false, 0⟩, 1, 1, [5]⟩

def listedInit : SessionInitMessage := ⟨0, 0, 0, none, [item]⟩

def listedSegment : TransferSegmentMessage := ⟨⟨true, true, 0⟩, 0, [item, item], [9]⟩

theorem listed_consumed :
    (listedInit.encode ++ [4]).length - 1 =
      SessionInitMessage.frameLength (listedInit.encode ++ [4]) ∧
    (listedSegment.encode ++ [4]).length - 1 =
      TransferSegmentMessage.frameLength (listedSegment.encode ++ [4]) listedSegment := by
  have hinit : (Message.sessionInit listedInit).Buildable :=
    ⟨fun n hn => absurd hn (Option.not_mem_none n), by decide, by decide, by decide⟩
  have hsegment : (Message.transferSegment listedSegment).Buildable :=
    ⟨rfl, fun h => absurd h (by decide), by decide,
      List.forall_mem_cons.mpr ⟨rfl, List.forall_mem_singleton.mpr rfl⟩, by decide, by decide⟩
  have hfills : SessionInitMessage.Fills (listedInit.encode ++ [4]) := by
    show unfilled 6 [0, 0, 1, 0, 1, 5, 4] = 0
    rw [unfilled, if_neg (by decide), unfilled, if_pos (by decide)]
    rfl
  have hfills' : TransferSegmentMessage.Fills (listedSegment.encode ++ [4]) := fun _ => by
    show unfilled 12 [0, 0, 1, 0, 1, 5, 0, 0, 1, 0, 1, 5, 0, 0, 0, 0, 0, 0, 0, 1, 9, 4] = 0
    rw [unfilled, if_neg (by decide), unfilled, if_neg (by decide), unfilled, if_pos (by decide)]
    rfl
  exact ⟨((decode_consumed_iff _ _).1 _ ((Message.readsBack hinit trivial).whole [4])).mpr hfills,
    ((decode_consumed_iff _ _).2 _ ((Message.readsBack hsegment trivial).whole [4])).mpr hfills'⟩

/-- Behind a list that is cut short, the frame is not what is consumed. -/
theorem unfilled_not_consumed :
    ¬ ∀ (src rest : Bytes) (m : TransferSegmentMessage),
      Message.decode src = .ok (some (.transferSegment m), rest) →
      src.length - rest.length = TransferSegmentMessage.frameLength src m := by
  intro h
  have hlength := h unfilledSegment [0, 0, 0] _ decode_unfilledSegment
  revert hlength
  decide

end

end Hardy.Tcpcl
