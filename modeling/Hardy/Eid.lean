import Hardy.Canonical

/-!
# Endpoint identifiers

Model of `bpv7/src/eid`: the wire form of endpoint ids in the `dtn` and `ipn`
schemes and the pass-through of unknown schemes.

`Eid.WellFormed` describes the values the decoder can produce
(`Eid.wellFormed_of_decodable`), and on those `Eid.toCbor` is inverted by
`Eid.fromCbor` (`Eid.reads_toCbor`).
-/

namespace Hardy

open Cbor

structure IpnNodeId where
  allocatorId : Nat
  nodeNumber : Nat
deriving DecidableEq, Repr

/-- Texts are their UTF-8 bytes. -/
inductive Eid where
  | null
  | localNode (serviceNumber : Nat)
  | legacyIpn (fqnn : IpnNodeId) (serviceNumber : Nat)
  | ipn (fqnn : IpnNodeId) (serviceNumber : Nat)
  | dtn (nodeName serviceName : Bytes)
  | unknown (scheme : Nat) (ssp : Bytes)
deriving DecidableEq, Repr

namespace Eid

instance : Inhabited Eid := ⟨.null⟩

def isNull : Eid → Bool
  | .null => true
  | _ => false

/-- `eid::Error`, as far as decoding raises it.  `ParseError` drops the text
that the parser combinators render. -/
inductive Error where
  | ipnInvalidAllocatorId (a : Nat)
  | ipnInvalidNodeNumber (n : Nat)
  | ipnInvalidServiceNumber (s : Nat)
  | unsupportedScheme (scheme : Nat)
  | parseError
  | invalidField (field : String) (source : Error)
  | invalidSsp
  | notCanonical
  | invalidCBOR (e : Cbor.Error)
deriving DecidableEq, Repr

def Error.needMore : Error → Option Nat
  | .invalidCBOR e => e.short
  | .invalidField _ source => source.needMore
  | _ => none

/-- `From<cbor::decode::Error>`: an unexpected tag is a canonicality error. -/
def Error.ofCbor : Cbor.Error → Error
  | .unexpectedTag => .notCanonical
  | e => .invalidCBOR e

instance : FromCborError Error where
  ofCbor := Error.ofCbor
  needMore := Error.needMore
  needMore_ofCbor x := by cases x <;> rfl

instance : HasInvalidField Error where
  invalidField := .invalidField
  needMore_invalidField _ _ := rfl

def u32Max : Nat := 4294967295

/-! ## The `dtn` scheme -/

def isRegname (b : UInt8) : Bool :=
  isUnreserved b || b == 0x21 || b == 0x24 || b == 0x26 || b == 0x27 || b == 0x28 ||
    b == 0x29 || b == 0x2A || b == 0x2B || b == 0x2C || b == 0x3B || b == 0x3D || b == 0x25

/-- `'\x21'..='\x7e'` -/
def isVchar (b : UInt8) : Bool := 0x21 ≤ b && b ≤ 0x7E

/-- `"none"` -/
def noneText : Bytes := [0x6E, 0x6F, 0x6E, 0x65]

def parseDtn [Crates] (t : Bytes) : Option Eid :=
  if noneText.isPrefixOf t then if t = noneText then some .null else none
  else match t with
    | 0x2F :: 0x2F :: rest =>
      match rest.dropWhile isRegname with
      | 0x2F :: service =>
        let name := Crates.percentDecode (rest.takeWhile isRegname)
        if validUtf8 name && service.all isVchar then some (.dtn name service) else none
      | _ => none
    | _ => none

/-- The closure for the scheme-specific part of a `dtn` EID. -/
def dtnSsp [Crates] (canonical : Bool) (value : Value) (s : Bool) (tags : List Nat) :
    Except Error (Eid × Bool) :=
  if !tags.isEmpty then .error .notCanonical
  else match value with
    | .unsignedInteger 0 => if !s then .error .notCanonical else .ok (.null, canonical)
    | .text t =>
      if !s then .error .notCanonical
      else if t = noneText then .ok (.null, false)
      else match parseDtn t with
        | some e => .ok (e, canonical)
        | none => .error .parseError
    | .textStream parts =>
      match parseDtn parts.flatten with
      | some e => .ok (e, false)
      | none => .error .parseError
    | value => .error (Cbor.ofCbor (.incorrectType
        "Untagged Text String or Unsigned Integer 0" (value.itemType tags)))

/-! ## The `ipn` scheme -/

/-- The final match of `ipn_from_cbor`. -/
def ofIpnParts (a b : Nat) (c : Option Nat) (canonical : Bool) :
    Except Error (Eid × Bool) :=
  match c with
  | some s =>
    if a = 0 ∧ b = 0 ∧ s = 0 then .ok (.null, canonical)
    else if a = 0 ∧ b = 0 then .ok (.null, false)
    else if u32Max < a then .error (.ipnInvalidAllocatorId a)
    else if u32Max < b then .error (.ipnInvalidNodeNumber b)
    else if u32Max < s then .error (.ipnInvalidServiceNumber s)
    else if a = 0 ∧ b = u32Max then .ok (.localNode s, canonical)
    else if a = 0 then .ok (.ipn ⟨0, b⟩ s, false)
    else .ok (.ipn ⟨a, b⟩ s, canonical)
  | none =>
    if a = 0 ∧ b = 0 then .ok (.null, canonical)
    else if a = 0 then .ok (.null, false)
    else if u32Max < b then .error (.ipnInvalidServiceNumber b)
    else if a = u32Max then .ok (.localNode b, canonical)
    else if a ≤ u32Max then .ok (.ipn ⟨0, a⟩ b, canonical)
    else .ok (.legacyIpn ⟨a / 2 ^ 32, a % 2 ^ 32⟩ b, canonical)

/-- A field of the `ipn` array. -/
def ipnPart : Ser Error Nat := do
  let (v, s) ← convert (Series.item 1 (untagged u64))
  if !s then throw .notCanonical else pure v

def ipnFromCbor (canonical : Bool) : Ser Error (Eid × Bool) := do
  let a ← ipnPart
  let b ← ipnPart
  match ← convert (Series.tryItem 1 (untagged u64)) with
  | some (c, s) =>
    if !s then throw .notCanonical else verdict (ofIpnParts a b (some c) canonical)
  | none => verdict (ofIpnParts a b none canonical)

/-- The closure for the scheme-specific part of an `ipn` EID. -/
def ipnSsp (canonical : Bool) (value : Value) (s : Bool) (tags : List Nat) :
    Ser Error (Eid × Bool) :=
  match value with
  | .array _ =>
    if !s || !tags.isEmpty then throw .notCanonical
    else do
      let definite ← isDefinite
      ipnFromCbor (canonical && definite)
  | value => throw (Cbor.ofCbor (.incorrectType "Untagged Array" (value.itemType tags)))

def ipnFieldErr : Error → Error
  | .invalidCBOR e => .invalidField "'ipn' scheme-specific part" (Error.ofCbor e)
  | x => x

/-! ## Any scheme -/

/-- `UnknownSsp::new`: exactly one well-formed data item. -/
def unknownSsp (data : Bytes) : Except Error Bytes :=
  match skipValue 16 ⟨0, data⟩ with
  | .error e => .error (.invalidCBOR e)
  | .ok (_, c) => if c.st ≠ data.length then .error .invalidSsp else .ok data

/-- The part of `Eid::from_cbor` after the scheme. -/
def sspFromCbor [Crates] (scheme : Nat) (canonical : Bool) : Ser Error (Eid × Bool) :=
  match scheme with
  | 0 => throw (.unsupportedScheme 0)
  | 1 =>
    mapFieldErr "'dtn' scheme-specific part"
      (Series.item 1 (parseValue fun v s t => verdict (dtnSsp canonical v s t)))
  | 2 => Scan.mapErr ipnFieldErr (Series.item 1 (parseValue (ipnSsp canonical)))
  | scheme => do
      let (_, data) ← convert (Scan.consumed (Series.item 1 (skipValue 16)))
      let ssp ← verdict (unknownSsp data)
      pure (.unknown scheme ssp, canonical)

/-- The closure of `Eid::from_cbor` over the outer array. -/
def fields [Crates] (s : Bool) (tags : List Nat) : Ser Error (Eid × Bool) :=
  if !s || !tags.isEmpty then throw .notCanonical
  else do
    let canonical ← isDefinite
    let (scheme, s) ← mapFieldErr "EID scheme" (Series.item 1 (untagged u64))
    if !s then throw (.invalidField "EID scheme" .notCanonical)
    else sspFromCbor scheme canonical

def fromCbor [Crates] : Dec Error (Eid × Bool) := parseArray fields

def dtnText [Crates] (nodeName serviceName : Bytes) : Bytes :=
  0x2F :: 0x2F :: (Crates.percentEncode nodeName ++ 0x2F :: serviceName)

def toCbor [Crates] : Eid → Bytes
  | .localNode s => emitArray [emitUint 2, emitArray [emitUint u32Max, emitUint s]]
  | .null => emitArray [emitUint 1, emitUint 0]
  | .dtn nodeName serviceName =>
    emitArray [emitUint 1, emitString (dtnText nodeName serviceName)]
  | .legacyIpn fqnn s =>
    emitArray [emitUint 2,
      emitArray [emitUint (fqnn.allocatorId * 2 ^ 32 + fqnn.nodeNumber), emitUint s]]
  | .ipn fqnn s =>
    if fqnn.allocatorId = 0 then
      emitArray [emitUint 2, emitArray [emitUint fqnn.nodeNumber, emitUint s]]
    else
      emitArray [emitUint 2,
        emitArray [emitUint fqnn.allocatorId, emitUint fqnn.nodeNumber, emitUint s]]
  | .unknown scheme ssp => emitArray [emitUint scheme, ssp]

/-! ## Resumption -/

section

variable [Crates]

omit [Crates] in
theorem ofIpnParts_error {a b : Nat} {c : Option Nat} {canonical : Bool} {x : Error}
    (h : ofIpnParts a b c canonical = .error x) : needMore x = none := by
  rw [ofIpnParts.eq_def] at h
  repeat' split at h
  all_goals cases h
  all_goals rfl

omit [Crates] in
theorem ipnPart_walks : Walks ipnPart := by
  refine (convert_resumable (item_walks Nat.one_pos (untagged_resumes u64_resumes u64_starts)
    (untagged_starts u64_starts))).bind fun ⟨v, s⟩ => ?_
  dsimp only
  split
  · exact .throw rfl
  · exact .pure v

omit [Crates] in
theorem ipnFromCbor_walks (canonical : Bool) : Walks (ipnFromCbor canonical) := by
  refine ipnPart_walks.bind fun a => ipnPart_walks.bind fun b =>
    (convert_resumable (tryItem_walks Nat.one_pos (untagged_resumes u64_resumes u64_starts)
      (untagged_starts u64_starts))).bind fun o => ?_
  split
  · split
    · exact .throw rfl
    · exact verdict_resumable fun _ => ofIpnParts_error
  · exact verdict_resumable fun _ => ofIpnParts_error

theorem dtnSsp_error {canonical : Bool} {v : Value} {s : Bool} {t : List Nat} (x : Error)
    (h : dtnSsp canonical v s t = .error x) : needMore x = none := by
  rw [dtnSsp.eq_def] at h
  repeat' split at h
  all_goals cases h
  all_goals rfl

omit [Crates] in
theorem ipnSsp_scalar (canonical : Bool) {v : Value} (hv : v.isSeries = false) (s : Bool)
    (t : List Nat) : Scalar (ipnSsp canonical v s t) := by
  intro x h
  cases v
  case array => cases hv
  all_goals
    cases h
    rfl

omit [Crates] in
theorem ipnSsp_series (canonical : Bool) {v : Value} (hv : v.isSeries = true) (s : Bool)
    (t : List Nat) : Walks (ipnSsp canonical v s t) := by
  cases v
  case array d =>
    simp only [ipnSsp]
    split
    · exact .throw rfl
    · exact .bind (.look _) fun _ => ipnFromCbor_walks _
  case map => exact .throw rfl
  all_goals cases hv

omit [Crates] in
theorem ipnFieldErr_needMore (x : Error) : needMore (ipnFieldErr x) = needMore x := by
  cases x with
  | invalidCBOR e => exact needMore_ofCbor (ε := Error) e
  | _ => rfl

omit [Crates] in
theorem unknownSsp_yields :
    Scan.Yields (convert (Scan.consumed (Series.item 1 (skipValue 16))) : Ser Error _)
      fun p => unknownSsp p.2 = .ok p.2 := by
  refine .mapErr _ ?_
  rintro ⟨st, d⟩ ⟨a, u⟩ c h
  have hstep := (item_walks Nat.one_pos (skipValue_resumes 16) (skipValue_starts 16)).stepwise
  obtain ⟨h, rfl⟩ := (Scan.consumed_ok hstep).mp h
  obtain ⟨len, h, -⟩ := item_ok h
  obtain ⟨v, hv, hlen, hr⟩ := (skipValue_resumes 16).stepwise.ok h
  obtain rfl : v = u := List.append_cancel_right hv.symm
  have hu := hr []
  simp only [id, Nat.zero_add] at hlen
  rw [List.append_nil] at hu
  simp [unknownSsp, hu, hlen]

theorem sspFromCbor_walks (scheme : Nat) (canonical : Bool) :
    Walks (sspFromCbor scheme canonical) := by
  rw [sspFromCbor.eq_def]
  split
  · exact .throw rfl
  · exact mapFieldErr_resumable _ (item_walks Nat.one_pos
      (parseValue_resumes (fun _ _ _ _ => verdict_scalar dtnSsp_error)
        fun _ _ _ _ => verdict_resumable dtnSsp_error)
      (parseValue_starts _))
  · exact .mapErr ipnFieldErr_needMore (item_walks Nat.one_pos
      (parseValue_resumes (fun v s t hv => ipnSsp_scalar canonical hv s t)
        fun v s t hv => ipnSsp_series canonical hv s t)
      (parseValue_starts _))
  · have hpure : ∀ p : Bool × Bytes, unknownSsp p.2 = .ok p.2 →
        (verdict (unknownSsp p.2) >>= fun ssp => pure (unknown scheme ssp, canonical) :
          Ser Error (Eid × Bool)) = pure (unknown scheme p.2, canonical) := by
      intro p hp
      rw [hp]
      rfl
    rw [unknownSsp_yields.bind_congr hpure]
    exact (convert_resumable (Scan.consumed_resumable
        (item_walks Nat.one_pos (skipValue_resumes 16) (skipValue_starts 16)))).map _

theorem fields_walks (s : Bool) (tags : List Nat) : Walks (fields s tags) := by
  rw [fields]
  split
  · exact .throw rfl
  · refine .bind (.look _) fun canonical => (mapFieldErr_resumable _
      (item_walks Nat.one_pos (untagged_resumes u64_resumes u64_starts)
        (untagged_starts u64_starts))).bind fun ⟨scheme, s⟩ => ?_
    dsimp only
    split
    · exact .throw rfl
    · exact sspFromCbor_walks _ _

theorem fromCbor_resumes : Resumes fromCbor := parseArray_resumes fields_walks

theorem fromCbor_starts : Starts fromCbor := parseArray_starts fields

/-! ## The values the decoder produces -/

def WellFormed : Eid → Prop
  | .null => True
  | .localNode s => s ≤ u32Max
  | .legacyIpn fqnn s =>
    0 < fqnn.allocatorId ∧ fqnn.allocatorId ≤ u32Max ∧ fqnn.nodeNumber ≤ u32Max ∧
      s ≤ u32Max
  | .ipn fqnn s =>
    fqnn.allocatorId ≤ u32Max ∧ fqnn.nodeNumber ≤ u32Max ∧ s ≤ u32Max ∧
      (fqnn.allocatorId = 0 → 0 < fqnn.nodeNumber ∧ fqnn.nodeNumber < u32Max)
  | .dtn nodeName serviceName => validUtf8 nodeName = true ∧ serviceName.all isVchar = true
  | .unknown scheme ssp => 2 < scheme ∧ scheme < wordSize ∧ unknownSsp ssp = .ok ssp

/-- The decoder produces the value on some input. -/
def Decodable (e : Eid) : Prop := ∃ c s c', fromCbor c = .ok ((e, s), c')

theorem parseDtn_wellFormed {t : Bytes} {e : Eid} (h : parseDtn t = some e) :
    e.WellFormed := by
  simp only [parseDtn] at h
  repeat' split at h
  all_goals cases h
  · trivial
  · next hc => exact Bool.and_eq_true_iff.mp hc

theorem dtnSsp_wellFormed {canonical : Bool} {v : Value} {s : Bool} {t : List Nat}
    {p : Eid × Bool} (h : dtnSsp canonical v s t = .ok p) : p.1.WellFormed := by
  rw [dtnSsp.eq_def] at h
  repeat' split at h
  all_goals cases h
  all_goals first | trivial | exact parseDtn_wellFormed (by assumption)

omit [Crates] in
theorem ofIpnParts_wellFormed {a b : Nat} {c : Option Nat} {canonical : Bool}
    {p : Eid × Bool} (ha : a < wordSize) (h : ofIpnParts a b c canonical = .ok p) :
    p.1.WellFormed := by
  have hw : wordSize = 2 ^ 64 := rfl
  have hu : u32Max = 4294967295 := rfl
  rw [ofIpnParts.eq_def] at h
  repeat' split at h
  all_goals cases h
  all_goals simp only [WellFormed] <;> omega

omit [Crates] in
theorem verdict_yields {ε σ α : Type} {r : Except ε α} {P : α → Prop}
    (h : ∀ a, r = .ok a → P a) : Scan.Yields (verdict r : Scan ε UInt8 σ α) P := by
  cases r with
  | ok a => exact .pure (h a rfl)
  | error x => exact .throw x

omit [Crates] in
theorem ipnPart_yields : Scan.Yields ipnPart fun v => v < wordSize := by
  refine (Scan.Yields.mapErr _ (item_yields (untagged_yields u64_yields))).bind
    fun ⟨v, s⟩ hv => ?_
  dsimp only at hv ⊢
  split
  · exact .throw _
  · exact .pure hv

omit [Crates] in
theorem ipnFromCbor_yields (canonical : Bool) :
    Scan.Yields (ipnFromCbor canonical) fun p => p.1.WellFormed := by
  refine ipnPart_yields.bind fun a ha => .of_bind fun b => .of_bind fun o => ?_
  split
  · split
    · exact .throw _
    · exact verdict_yields fun p hp => ofIpnParts_wellFormed ha hp
  · exact verdict_yields fun p hp => ofIpnParts_wellFormed ha hp

omit [Crates] in
theorem ipnSsp_yields (canonical : Bool) (v : Value) (s : Bool) (t : List Nat) :
    Scan.Yields (ipnSsp canonical v s t) fun p => p.1.WellFormed := by
  rw [ipnSsp.eq_def]
  split
  · split
    · exact .throw _
    · exact .of_bind fun _ => ipnFromCbor_yields _
  · exact .throw _

theorem sspFromCbor_yields {scheme : Nat} (hs : scheme < wordSize) (canonical : Bool) :
    Scan.Yields (sspFromCbor scheme canonical) fun p => p.1.WellFormed := by
  rw [sspFromCbor.eq_def]
  split
  · exact .throw _
  · exact .mapErr _ (item_yields (parseValue_yields fun _ _ _ =>
      verdict_yields fun _ => dtnSsp_wellFormed))
  · exact .mapErr _ (item_yields (parseValue_yields (ipnSsp_yields canonical)))
  · next h0 h1 h2 =>
      have h2 : 2 < scheme := by
        rcases scheme with _ | _ | _ | n
        · exact absurd rfl h0
        · exact absurd rfl h1
        · exact absurd rfl h2
        · omega
      refine unknownSsp_yields.bind fun p hp => ?_
      dsimp only
      rw [hp]
      exact .pure ⟨h2, hs, hp⟩

theorem fields_yields (s : Bool) (tags : List Nat) :
    Scan.Yields (fields s tags) fun p => p.1.WellFormed := by
  rw [fields]
  split
  · exact .throw _
  · refine .of_bind fun canonical => (Scan.Yields.mapErr _
      (item_yields (untagged_yields u64_yields))).bind fun ⟨scheme, s⟩ hs => ?_
    dsimp only at hs ⊢
    split
    · exact .throw _
    · exact sspFromCbor_yields hs canonical

theorem fromCbor_yields : Scan.Yields fromCbor fun p => p.1.WellFormed :=
  parseArray_yields fields_yields

theorem wellFormed_of_decodable {e : Eid} (h : e.Decodable) : e.WellFormed := by
  obtain ⟨c, s, c', h⟩ := h
  exact fromCbor_yields _ _ _ h

/-! ## Round trip -/

theorem fields_reads {scheme : Nat} {ssp : Bytes} {e : Eid} (hs : scheme < wordSize)
    (hssp : ∀ off r, sspFromCbor scheme true ⟨⟨some 2, off, 1⟩, ssp ++ r⟩ =
      .ok ((e, true), ⟨⟨some 2, off + ssp.length, 2⟩, r⟩)) :
    Reads fromCbor (emitArray [emitUint scheme, ssp]) (e, true) := by
  rw [emitArray_two]
  refine parseArray_reads (by decide) fun off r => ?_
  rw [List.append_assoc, List.length_append, ← Nat.add_assoc, fields, if_neg (by decide),
    Scan.bind_apply, isDefinite, Scan.look]
  simp only [Option.isSome_some]
  rw [Scan.bind_eq_of_ok (mapFieldErr_ok (item_reads
    ((u64_reads hs).untagged (emitUint_plain scheme)) (by decide) (ssp ++ r)))]
  exact hssp _ r

omit [Crates] in
theorem ipnPart_reads {v n p off : Nat} (hv : v < wordSize) (hp : p < n) (r : Bytes) :
    ipnPart ⟨⟨some n, off, p⟩, emitUint v ++ r⟩ =
      .ok (v, ⟨⟨some n, off + (emitUint v).length, p + 1⟩, r⟩) := by
  rw [ipnPart, Scan.bind_eq_of_ok (convert_ok
    (item_reads ((u64_reads hv).untagged (emitUint_plain v)) hp r))]
  rfl

omit [Crates] in
theorem ipnSsp_reads {body : Bytes} {n : Nat} {e : Eid} (hn : n < wordSize)
    (hbody : ∀ off r, ipnFromCbor true ⟨⟨some n, off, 0⟩, body ++ r⟩ =
      .ok ((e, true), ⟨⟨some n, off + body.length, n⟩, r⟩)) :
    Reads (parseValue (ipnSsp true)) (emitUintMinor 4 n ++ body) (e, true) := by
  refine parseValue_reads_array hn fun off r => ?_
  rw [ipnSsp, if_neg (by decide), Scan.bind_apply, isDefinite, Scan.look]
  exact hbody off r

omit [Crates] in
theorem ipnSsp_reads_two {a b : Nat} {e : Eid} (ha : a < wordSize) (hb : b < wordSize)
    (he : ofIpnParts a b none true = .ok (e, true)) :
    Reads (parseValue (ipnSsp true)) (emitArray [emitUint a, emitUint b]) (e, true) := by
  rw [emitArray_two]
  refine ipnSsp_reads (by decide) fun off r => ?_
  simp only [List.append_assoc, List.length_append, ← Nat.add_assoc, ipnFromCbor]
  rw [Scan.bind_eq_of_ok (ipnPart_reads ha (by decide) _),
    Scan.bind_eq_of_ok (ipnPart_reads hb (by decide) _),
    Scan.bind_eq_of_ok (convert_ok (tryItem_end r)), he]
  rfl

omit [Crates] in
theorem ipnSsp_reads_three {a b c : Nat} {e : Eid} (ha : a < wordSize) (hb : b < wordSize)
    (hc : c < wordSize) (he : ofIpnParts a b (some c) true = .ok (e, true)) :
    Reads (parseValue (ipnSsp true)) (emitArray [emitUint a, emitUint b, emitUint c])
      (e, true) := by
  rw [emitArray_three]
  refine ipnSsp_reads (by decide) fun off r => ?_
  simp only [List.append_assoc, List.length_append, ← Nat.add_assoc, ipnFromCbor]
  rw [Scan.bind_eq_of_ok (ipnPart_reads ha (by decide) _),
    Scan.bind_eq_of_ok (ipnPart_reads hb (by decide) _),
    Scan.bind_eq_of_ok (convert_ok (tryItem_reads
      ((u64_reads hc).untagged (emitUint_plain c)) (by decide) r))]
  simp only [he, Bool.not_true, Bool.false_eq_true, if_false]
  rfl

theorem sspFromCbor_ipn {ssp : Bytes} {e : Eid}
    (h : Reads (parseValue (ipnSsp true)) ssp (e, true)) (off : Nat) (r : Bytes) :
    sspFromCbor 2 true ⟨⟨some 2, off, 1⟩, ssp ++ r⟩ =
      .ok ((e, true), ⟨⟨some 2, off + ssp.length, 2⟩, r⟩) :=
  Scan.mapErr_ok.mpr (item_reads h (by decide) r)

theorem sspFromCbor_dtn {ssp : Bytes} {e : Eid}
    (h : Reads (parseValue fun v s t => verdict (dtnSsp true v s t)) ssp (e, true))
    (off : Nat) (r : Bytes) :
    sspFromCbor 1 true ⟨⟨some 2, off, 1⟩, ssp ++ r⟩ =
      .ok ((e, true), ⟨⟨some 2, off + ssp.length, 2⟩, r⟩) :=
  Scan.mapErr_ok.mpr (item_reads h (by decide) r)

omit [Crates] in
theorem skipValue_reads_ssp {ssp : Bytes} (h : unknownSsp ssp = .ok ssp) :
    ∃ s, Reads (skipValue 16) ssp s := by
  rw [unknownSsp] at h
  split at h
  · cases h
  · next s c hskip =>
      split at h
      · cases h
      · next hlen =>
          obtain ⟨u, hu, hpos, hr⟩ := (skipValue_resumes 16).stepwise.ok hskip
          have hst : c.st = ssp.length := Decidable.not_not.mp hlen
          have hrest : c.rest = [] := by
            have := congrArg List.length hu
            simp only [id, List.length_append] at this hpos
            exact List.length_eq_zero_iff.mp (by omega)
          rw [hrest, List.append_nil] at hu
          subst hu
          exact ⟨s, fun r => by rw [hr r, hst]⟩

theorem sspFromCbor_unknown {scheme : Nat} {ssp : Bytes} (h2 : 2 < scheme)
    (hssp : unknownSsp ssp = .ok ssp) (off : Nat) (r : Bytes) :
    sspFromCbor scheme true ⟨⟨some 2, off, 1⟩, ssp ++ r⟩ =
      .ok ((.unknown scheme ssp, true), ⟨⟨some 2, off + ssp.length, 2⟩, r⟩) := by
  obtain ⟨s, hread⟩ := skipValue_reads_ssp hssp
  have hstep := (item_walks Nat.one_pos (skipValue_resumes 16) (skipValue_starts 16)).stepwise
  rw [sspFromCbor.eq_def]
  split
  · omega
  · omega
  · omega
  · rw [Scan.bind_eq_of_ok (convert_ok ((Scan.consumed_ok hstep).mpr
      ⟨item_reads hread (by decide) r, rfl⟩))]
    simp only [hssp]
    rfl

theorem isRegname_of_encoded {nodeName : Bytes} {x : UInt8}
    (hx : x ∈ Crates.percentEncode nodeName) : isRegname x = true := by
  rcases Crates.percentEncode_chars nodeName x hx with h | rfl
  · simp [isRegname, h]
  · decide

theorem parseDtn_dtnText {nodeName serviceName : Bytes} (hn : validUtf8 nodeName = true)
    (hs : serviceName.all isVchar = true) :
    parseDtn (dtnText nodeName serviceName) = some (.dtn nodeName serviceName) := by
  have hall : ∀ x ∈ Crates.percentEncode nodeName, isRegname x = true := fun x hx => isRegname_of_encoded hx
  have htake : (Crates.percentEncode nodeName ++ 0x2F :: serviceName).takeWhile isRegname =
      Crates.percentEncode nodeName := by
    rw [List.takeWhile_append_of_pos hall]
    simp [show isRegname 0x2F = false by decide]
  have hdrop : (Crates.percentEncode nodeName ++ 0x2F :: serviceName).dropWhile isRegname =
      0x2F :: serviceName := by
    rw [List.dropWhile_append_of_pos hall]
    simp [show isRegname 0x2F = false by decide]
  rw [dtnText, parseDtn, if_neg (by simp [noneText, List.isPrefixOf])]
  simp only [hdrop, htake, Crates.percentDecode_encode, hn, hs, Bool.and_self, if_true]

omit [Crates] in
theorem validUtf8_of_ascii {b : Bytes} (h : ∀ x ∈ b, x < 0x80) : validUtf8 b = true := by
  induction b with
  | nil => rfl
  | cons x b ih =>
    rw [validUtf8.eq_def]
    simp only [if_pos (h x List.mem_cons_self)]
    exact ih fun y hy => h y (List.mem_cons_of_mem x hy)

omit [Crates] in
theorem isVchar_ascii {x : UInt8} (h : isVchar x = true) : x < 0x80 := by
  simp only [isVchar, Bool.and_eq_true, decide_eq_true_eq, UInt8.le_iff_toNat_le,
    UInt8.reduceToNat] at h
  simp only [UInt8.lt_iff_toNat_lt, UInt8.reduceToNat]
  omega

omit [Crates] in
theorem isVchar_of_isRegname {x : UInt8} (h : isRegname x = true) : isVchar x = true := by
  simp only [isRegname, isUnreserved, Bool.or_eq_true, Bool.and_eq_true, decide_eq_true_eq,
    beq_iff_eq, UInt8.le_iff_toNat_le, ← UInt8.toNat_inj, UInt8.reduceToNat] at h
  simp only [isVchar, Bool.and_eq_true, decide_eq_true_eq, UInt8.le_iff_toNat_le,
    UInt8.reduceToNat]
  omega

theorem dtnText_ascii {nodeName serviceName : Bytes} (hs : serviceName.all isVchar = true) :
    ∀ x ∈ dtnText nodeName serviceName, x < 0x80 := by
  intro x hx
  simp only [dtnText, List.mem_cons, List.mem_append] at hx
  rcases hx with rfl | rfl | hx | rfl | hx
  · decide
  · decide
  · exact isVchar_ascii (isVchar_of_isRegname (isRegname_of_encoded hx))
  · decide
  · exact isVchar_ascii (List.all_eq_true.mp hs x hx)

theorem dtnSsp_reads {nodeName serviceName : Bytes} (hn : validUtf8 nodeName = true)
    (hs : serviceName.all isVchar = true)
    (hlen : (emitString (dtnText nodeName serviceName)).length < wordSize) :
    Reads (parseValue fun v s t => verdict (dtnSsp true v s t))
      (emitString (dtnText nodeName serviceName)) (.dtn nodeName serviceName, true) := by
  refine parseValue_reads_text hlen (validUtf8_of_ascii (dtnText_ascii hs)) ?_
  have hne : dtnText nodeName serviceName ≠ noneText := by simp [dtnText, noneText]
  simp [dtnSsp, hne, parseDtn_dtnText hn hs]

omit [Crates] in
theorem ofIpnParts_localNode {s : Nat} (hs : s ≤ u32Max) :
    ofIpnParts u32Max s none true = .ok (.localNode s, true) := by
  have hu : u32Max = 4294967295 := rfl
  simp only [ofIpnParts]
  rw [if_neg (by omega), if_neg (by omega), if_neg (by omega), if_true]

omit [Crates] in
theorem ofIpnParts_two {n s : Nat} (hn : 0 < n) (hn' : n < u32Max) (hs : s ≤ u32Max) :
    ofIpnParts n s none true = .ok (.ipn ⟨0, n⟩ s, true) := by
  simp only [ofIpnParts]
  rw [if_neg (by omega), if_neg (by omega), if_neg (by omega), if_neg (by omega),
    if_pos (by omega)]

omit [Crates] in
theorem ofIpnParts_legacy {a n s : Nat} (ha : 0 < a) (hn : n ≤ u32Max) (hs : s ≤ u32Max) :
    ofIpnParts (a * 2 ^ 32 + n) s none true = .ok (.legacyIpn ⟨a, n⟩ s, true) := by
  have hu : u32Max = 4294967295 := rfl
  have hdiv : (a * 2 ^ 32 + n) / 2 ^ 32 = a := by omega
  have hmod : (a * 2 ^ 32 + n) % 2 ^ 32 = n := by omega
  simp only [ofIpnParts]
  rw [if_neg (by omega), if_neg (by omega), if_neg (by omega), if_neg (by omega),
    if_neg (by omega), hdiv, hmod]

omit [Crates] in
theorem ofIpnParts_three {a n s : Nat} (ha : 0 < a) (ha' : a ≤ u32Max) (hn : n ≤ u32Max)
    (hs : s ≤ u32Max) : ofIpnParts a n (some s) true = .ok (.ipn ⟨a, n⟩ s, true) := by
  simp only [ofIpnParts]
  rw [if_neg (by omega), if_neg (by omega), if_neg (by omega), if_neg (by omega),
    if_neg (by omega), if_neg (by omega), if_neg (by omega)]

omit [Crates] in
theorem length_emitArray (items : List Bytes) :
    items.flatten.length ≤ (emitArray items).length := by
  simp [emitArray]

theorem reads_toCbor {e : Eid} (he : e.WellFormed) (hlen : e.toCbor.length < wordSize) :
    Reads fromCbor e.toCbor (e, true) := by
  have hw : wordSize = 18446744073709551616 := rfl
  have hu : u32Max = 4294967295 := rfl
  cases e with
  | null =>
    exact fields_reads (by decide) (sspFromCbor_dtn (parseValue_reads_uint (by decide) rfl))
  | localNode s =>
    simp only [WellFormed] at he
    exact fields_reads (by decide) (sspFromCbor_ipn
      (ipnSsp_reads_two (by decide) (by omega) (ofIpnParts_localNode he)))
  | legacyIpn fqnn s =>
    obtain ⟨ha, ha', hn, hs⟩ := he
    exact fields_reads (by decide) (sspFromCbor_ipn
      (ipnSsp_reads_two (by omega) (by omega) (ofIpnParts_legacy ha hn hs)))
  | ipn fqnn s =>
    obtain ⟨a, n⟩ := fqnn
    obtain ⟨ha, hn, hs, h0⟩ := he
    dsimp only at ha hn h0
    rw [toCbor]
    dsimp only
    split
    · next hz =>
        subst hz
        exact fields_reads (by decide) (sspFromCbor_ipn (ipnSsp_reads_two (by omega)
          (by omega) (ofIpnParts_two (h0 rfl).1 (h0 rfl).2 hs)))
    · next hz =>
        exact fields_reads (by decide) (sspFromCbor_ipn (ipnSsp_reads_three (by omega)
          (by omega) (by omega)
          (ofIpnParts_three (Nat.pos_of_ne_zero hz) ha hn hs)))
  | dtn nodeName serviceName =>
    refine fields_reads (by decide) (sspFromCbor_dtn (dtnSsp_reads he.1 he.2 ?_))
    have := length_emitArray [emitUint 1, emitString (dtnText nodeName serviceName)]
    rw [toCbor] at hlen
    simp only [List.flatten_cons, List.flatten_nil, List.append_nil,
      List.length_append] at this
    omega
  | unknown scheme ssp =>
    exact fields_reads he.2.1 (sspFromCbor_unknown he.1 he.2.2)

theorem toCbor_plain (e : Eid) : Plain e.toCbor := by
  cases e with
  | ipn fqnn s =>
    rw [toCbor]
    split <;> exact emitArray_plain _
  | _ => exact emitArray_plain _

end

end Eid

end Hardy
