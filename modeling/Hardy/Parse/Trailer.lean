import Hardy.Fold
import Hardy.Parse.Rounds

/-!
# The end of a block

`blockBody` accepts a body followed by the checksum and the break byte that
the header announces, and nothing else (`blockBody_ok`).
-/

namespace Hardy

open Cbor

def breakBytes (isIndefinite : Bool) : Bytes := if isIndefinite then [0xFF] else []

/-- What follows the body of a block with the checksum value `v`. -/
def trailerBytes (crcType : CrcType) (isIndefinite : Bool) (v : Bytes) : Bytes :=
  (if crcType = .none then [] else crcType.headByte :: v) ++ breakBytes isIndefinite

/-! ## The pieces -/

variable {c : Cursor UInt8 Nat}

theorem breakByte_ok {st : Nat} {d : Bytes} :
    breakByte ⟨st, d⟩ = .ok ((), c) ↔ d = 0xFF :: c.rest ∧ c.st = st + 1 := by
  rw [breakByte, Scan.bind_ok_iff]
  constructor
  · rintro ⟨b, c₁, h₁, h₂⟩
    obtain ⟨hd, hst⟩ := byte_ok.mp (lift_ok_iff.mp h₁)
    obtain ⟨hb, rfl⟩ := ensure_ok.mp h₂
    rw [hd, beq_iff_eq.mp hb]
    exact ⟨rfl, hst⟩
  · rintro ⟨hd, hst⟩
    exact ⟨0xFF, c, lift_ok_iff.mpr (byte_ok.mpr ⟨hd, hst⟩), ensure_ok.mpr ⟨rfl, rfl⟩⟩

theorem consumeCrc_ok {head : UInt8} {n st : Nat} {d v : Bytes} :
    consumeCrc head n ⟨st, d⟩ = .ok (v, c) ↔
      d = head :: v ++ c.rest ∧ v.length = n ∧ c.st = st + (1 + n) := by
  rw [consumeCrc, Scan.bind_ok_iff]
  constructor
  · rintro ⟨b, c₁, h₁, h₂⟩
    obtain ⟨hd, hb, hst⟩ := takeBytes_ok.mp (lift_ok_iff.mp h₁)
    obtain ⟨u, c₂, h₃, h₄⟩ := Scan.bind_ok h₂
    obtain ⟨hh, rfl⟩ := ensure_ok.mp h₃
    obtain ⟨rfl, rfl⟩ := Scan.pure_ok_iff.mp h₄
    cases b with
    | nil => cases hh
    | cons x b =>
      rw [List.length_cons] at hb
      have hx : x = head := by simpa using hh
      rw [hd, hx]
      exact ⟨rfl, by simpa using (show b.length = n by omega), hst⟩
  · rintro ⟨hd, hv, hst⟩
    refine ⟨head :: v, c, lift_ok_iff.mpr (takeBytes_ok.mpr ⟨hd, ?_, hst⟩), ?_⟩
    · rw [List.length_cons, hv, Nat.add_comm]
    · exact Scan.bind_ok_iff.mpr ⟨(), c, ensure_ok.mpr ⟨by simp, rfl⟩, Scan.pure_ok_iff.mpr ⟨rfl, rfl⟩⟩

variable {crcType : CrcType}

theorem trailerCrc_ok {st : Nat} {d : Bytes} {crc : Option Bytes} :
    trailerCrc crcType ⟨st, d⟩ = .ok (crc, c) ↔
      (crcType = .none ∧ crc = none ∧ c = ⟨st, d⟩) ∨
      (crcType.isRecognised = true ∧ crcType ≠ .none ∧ ∃ v, crc = some v ∧
        v.length = crcType.valueLen ∧ d = crcType.headByte :: v ++ c.rest ∧
        c.st = st + (1 + crcType.valueLen)) := by
  have hsome : ∀ {head n}, (consumeCrc head n >>= fun v => pure (some v)) ⟨st, d⟩ = .ok (crc, c) ↔
      ∃ v, crc = some v ∧ v.length = n ∧ d = head :: v ++ c.rest ∧ c.st = st + (1 + n) := by
    intro head n
    rw [Scan.bind_ok_iff]
    constructor
    · rintro ⟨v, c₁, h₁, h₂⟩
      obtain ⟨rfl, rfl⟩ := Scan.pure_ok_iff.mp h₂
      obtain ⟨hd, hv, hst⟩ := consumeCrc_ok.mp h₁
      exact ⟨v, rfl, hv, hd, hst⟩
    · rintro ⟨v, rfl, hv, hd, hst⟩
      exact ⟨v, c, consumeCrc_ok.mpr ⟨hd, hv, hst⟩, Scan.pure_ok_iff.mpr ⟨rfl, rfl⟩⟩
  cases crcType with
  | none =>
    rw [trailerCrc, Scan.pure_ok_iff]
    simp
  | crc16X25 =>
    rw [trailerCrc, hsome]
    simp [CrcType.isRecognised, CrcType.valueLen, CrcType.headByte]
  | crc32Castagnoli =>
    rw [trailerCrc, hsome]
    simp [CrcType.isRecognised, CrcType.valueLen, CrcType.headByte]
  | unrecognised t =>
    simp only [trailerCrc, CrcType.isRecognised]
    exact ⟨fun h => (by cases h), fun h => by simp at h⟩

variable {isIndefinite : Bool}

theorem consumeBlockAfterBody_ok {st : Nat} {d : Bytes} {crc : Option Bytes} :
    consumeBlockAfterBody crcType isIndefinite ⟨st, d⟩ = .ok (crc, c) ↔
      ∃ c₁, trailerCrc crcType ⟨st, d⟩ = .ok (crc, c₁) ∧
        c₁.rest = breakBytes isIndefinite ++ c.rest ∧
        c.st = c₁.st + (breakBytes isIndefinite).length := by
  rw [consumeBlockAfterBody, Scan.bind_ok_iff]
  cases isIndefinite with
  | false =>
    constructor
    · rintro ⟨crc', c₁, h₁, h₂⟩
      obtain ⟨rfl, rfl⟩ := Scan.pure_ok_iff.mp h₂
      exact ⟨c, h₁, rfl, rfl⟩
    · rintro ⟨⟨st₁, d₁⟩, h₁, hd, hst⟩
      refine ⟨crc, _, h₁, Scan.pure_ok_iff.mpr ⟨rfl, ?_⟩⟩
      obtain ⟨cst, rest⟩ := c
      simp only [breakBytes, Bool.false_eq_true, if_false, List.nil_append, List.length_nil,
        Nat.add_zero] at hd hst
      rw [hd, hst]
  | true =>
    constructor
    · rintro ⟨crc', c₁, h₁, h₂⟩
      obtain ⟨u, c₂, h₃, h₄⟩ := Scan.bind_ok h₂
      obtain ⟨rfl, rfl⟩ := Scan.pure_ok_iff.mp h₄
      exact ⟨c₁, h₁, breakByte_ok.mp h₃⟩
    · rintro ⟨c₁, h₁, h₂⟩
      exact ⟨crc, c₁, h₁, Scan.bind_ok_iff.mpr ⟨(), c, breakByte_ok.mpr h₂,
        Scan.pure_ok_iff.mpr ⟨rfl, rfl⟩⟩⟩

/-! ## Checksums -/

variable [Crates]

/-- `v` is the checksum of a block that reads `before` up to its trailer. -/
def TrailerOk (crcType : CrcType) (isIndefinite : Bool) (before v : Bytes) : Prop :=
  if crcType = .none then v = []
  else crcValue crcType (before ++ [crcType.headByte]) (breakBytes isIndefinite) = .ok v

theorem length_trailerBytes {before v : Bytes} (h : TrailerOk crcType isIndefinite before v) :
    (trailerBytes crcType isIndefinite v).length = trailerByteLen crcType isIndefinite := by
  have hbreak : (breakBytes isIndefinite).length = if isIndefinite then 1 else 0 := by
    cases isIndefinite <;> rfl
  rw [trailerBytes, List.length_append, hbreak]
  unfold TrailerOk at h
  by_cases hn : crcType = .none
  · subst hn
    rfl
  · rw [if_neg hn] at h ⊢
    obtain ⟨hlen, hr, -⟩ := crcValue_ok h
    rw [List.length_cons, hlen]
    cases crcType with
    | none => exact absurd rfl hn
    | crc16X25 => rfl
    | crc32Castagnoli => rfl
    | unrecognised t => cases hr

theorem checkBlockCrc_some {before v : Bytes} :
    checkBlockCrc crcType isIndefinite before (some v) = .ok () ↔
      crcValue crcType (before ++ [crcType.headByte]) (breakBytes isIndefinite) = .ok v := by
  rw [checkBlockCrc, breakBytes]
  cases h : crcValue crcType (before ++ [crcType.headByte])
    (if isIndefinite = true then [0xFF] else []) with
  | error x => exact ⟨nofun, nofun⟩
  | ok w =>
    show (if w = v then _ else _) = _ ↔ _
    by_cases hw : w = v
    · simp [hw]
    · simp [hw]

theorem trailer_ok {before d : Bytes} {st : Nat} {crc : Option Bytes} :
    (consumeBlockAfterBody crcType isIndefinite ⟨st, d⟩ = .ok (crc, c) ∧
      checkBlockCrc crcType isIndefinite before crc = .ok ()) ↔
      ∃ v, crc = (if crcType = .none then none else some v) ∧
        TrailerOk crcType isIndefinite before v ∧
        d = trailerBytes crcType isIndefinite v ++ c.rest ∧
        c.st = st + (trailerBytes crcType isIndefinite v).length := by
  rw [consumeBlockAfterBody_ok]
  unfold TrailerOk
  constructor
  · rintro ⟨⟨c₁, h₁, hd, hst⟩, hcheck⟩
    rcases trailerCrc_ok.mp h₁ with ⟨rfl, rfl, rfl⟩ | ⟨hr, hn, v, rfl, hv, hd₁, hst₁⟩
    · exact ⟨[], by rw [if_pos rfl], by rw [if_pos rfl], hd, hst⟩
    · refine ⟨v, by rw [if_neg hn], ?_, ?_, ?_⟩
      · rw [if_neg hn]
        exact checkBlockCrc_some.mp hcheck
      · rw [hd₁, hd, trailerBytes, if_neg hn]
        simp
      · rw [hst, hst₁, trailerBytes, if_neg hn, List.length_append, List.length_cons, hv]
        omega
  · rintro ⟨v, rfl, hok, hd, hst⟩
    by_cases hn : crcType = .none
    · rw [if_pos hn] at hok ⊢
      subst hn
      rw [trailerBytes, if_pos rfl, List.nil_append] at hd hst
      exact ⟨⟨⟨st, d⟩, trailerCrc_ok.mpr (.inl ⟨rfl, rfl, rfl⟩), hd, hst⟩, rfl⟩
    · rw [if_neg hn] at hok ⊢
      obtain ⟨hlen, hr, -⟩ := crcValue_ok hok
      rw [trailerBytes, if_neg hn] at hd hst
      refine ⟨⟨⟨st + (1 + crcType.valueLen), breakBytes isIndefinite ++ c.rest⟩,
        trailerCrc_ok.mpr (.inr ⟨hr, hn, v, rfl, hlen, ?_, rfl⟩), rfl, ?_⟩,
        checkBlockCrc_some.mpr hok⟩
      · rw [hd]
        simp
      · rw [hst, List.length_append, List.length_cons, hlen]
        simp only
        omega

theorem blockBody_ok {header : BlockHeader} {head body d : Bytes} {st : Nat} :
    blockBody header head ⟨st, d⟩ = .ok (body, c) ↔
      body.length = header.dataEnd - header.dataStart ∧ ∃ v,
        TrailerOk header.crcType header.isIndefinite (head ++ body) v ∧
        d = body ++ (trailerBytes header.crcType header.isIndefinite v ++ c.rest) ∧
        c.st = st + body.length + trailerByteLen header.crcType header.isIndefinite := by
  rw [blockBody, Scan.bind_ok_iff]
  constructor
  · rintro ⟨body', ⟨st₁, d₁⟩, h₁, h₂⟩
    obtain ⟨crc, c₂, h₃, h₄⟩ := Scan.bind_ok h₂
    obtain ⟨u, c₃, h₅, h₆⟩ := Scan.bind_ok h₄
    obtain ⟨rfl, rfl⟩ := Scan.pure_ok_iff.mp h₆
    obtain ⟨hcheck, rfl⟩ := verdict_ok.mp h₅
    obtain ⟨hd, hlen, hst⟩ := takeBytes_ok.mp (lift_ok_iff.mp h₁)
    obtain ⟨v, -, hok, hd', hst'⟩ := trailer_ok.mp ⟨h₃, Fold.mapError_ok.mp hcheck⟩
    refine ⟨hlen, v, hok, ?_, ?_⟩
    · rw [hd, hd']
    · rw [hst', length_trailerBytes hok, hlen]
      exact congrArg (· + _) hst
  · rintro ⟨hlen, v, hok, hd, hst⟩
    have hst' : c.st =
        st + body.length + (trailerBytes header.crcType header.isIndefinite v).length := by
      rw [hst, length_trailerBytes hok]
    obtain ⟨hconsume, hcheck⟩ := trailer_ok.mpr ⟨v, rfl, hok, rfl, hst'⟩
    refine ⟨body, ⟨st + body.length, _⟩, lift_ok_iff.mpr (takeBytes_ok.mpr ⟨hd, hlen, by
      rw [hlen]⟩), ?_⟩
    exact Scan.bind_ok_iff.mpr ⟨_, c, hconsume, Scan.bind_ok_iff.mpr ⟨(), c,
      verdict_ok.mpr ⟨Fold.mapError_ok.mpr hcheck, rfl⟩, Scan.pure_ok_iff.mpr ⟨rfl, rfl⟩⟩⟩

end Hardy
