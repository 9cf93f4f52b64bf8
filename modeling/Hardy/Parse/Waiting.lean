import Hardy.Parse.Push

/-!
# Asking for more

When the parser asks for more input, more input should be able to help it.
It is so everywhere but in a BCB: its operation set is decoded from a body
that is complete, and a set that ends early asks for more input all the same.
`CutShort` is such a block; apart from it every wait of a round can be ended
(`round_rescue`) and is as long as it says (`round_bound`).
-/

namespace Hardy

open Cbor Bpsec

theorem waits_bind {ε τ σ α β : Type} {short : ε → Option Nat} {m : Scan ε τ σ α}
    {k : α → Scan ε τ σ β} {c : Cursor τ σ} (h : Waits short ((m >>= k) c)) :
    Waits short (m c) ∨ ∃ a c₁, m c = .ok (a, c₁) ∧ Waits short (k a c₁) := by
  obtain ⟨x, n, hx, hn⟩ := h
  rcases Scan.bind_error hx with h₁ | ⟨a, c₁, h₁, h₂⟩
  · exact .inl ⟨x, n, h₁, hn⟩
  · exact .inr ⟨a, c₁, h₁, x, n, h₂, hn⟩

/-! ## Waits in a trailer -/

theorem takeBytes_waits {n st : Nat} {d : Bytes}
    (h : Waits needMore ((lift (takeBytes n) : Dec Error Bytes) ⟨st, d⟩)) : d.length < n := by
  obtain ⟨x, k, hx, -⟩ := h
  by_contra hn
  simp only [lift, Scan.mapErr, takeBytes, Scan.take, if_neg hn] at hx
  cases hx

variable {x : Error}

theorem ensure_not_waits {holds : Bool} (hx : needMore x = none)
    (c : Cursor UInt8 Nat) : ¬ Waits needMore (ensure holds x c) := by
  cases holds with
  | false => exact Scan.not_waits_error hx
  | true => exact Scan.not_waits_ok _

variable {st : Nat}

theorem breakByte_waits {d : Bytes} (h : Waits needMore (breakByte ⟨st, d⟩)) : d = [] := by
  cases d with
  | nil => rfl
  | cons b d =>
    rcases waits_bind h with ⟨x, k, hx, -⟩ | ⟨a, c₁, -, h₂⟩
    · cases hx
    · exact absurd h₂ (ensure_not_waits rfl c₁)

theorem consumeCrc_waits {head : UInt8} {n st : Nat} {d : Bytes}
    (h : Waits needMore (consumeCrc head n ⟨st, d⟩)) : d.length < 1 + n := by
  rcases waits_bind h with h₁ | ⟨a, c₁, -, h₂⟩
  · exact takeBytes_waits h₁
  · rcases waits_bind h₂ with h₂ | ⟨u, c₂, -, h₃⟩
    · exact absurd h₂ (ensure_not_waits rfl c₁)
    · exact absurd h₃ (Scan.not_waits_ok _)

theorem trailerCrc_waits {crcType : CrcType} {d : Bytes}
    (h : Waits needMore (trailerCrc crcType ⟨st, d⟩)) :
    d.length < trailerByteLen crcType false := by
  cases crcType with
  | none => exact absurd h (Scan.not_waits_ok _)
  | crc16X25 =>
    rcases waits_bind h with h | ⟨a, c₁, -, h⟩
    · exact consumeCrc_waits h
    · exact absurd h (Scan.not_waits_ok _)
  | crc32Castagnoli =>
    rcases waits_bind h with h | ⟨a, c₁, -, h⟩
    · exact consumeCrc_waits h
    · exact absurd h (Scan.not_waits_ok _)
  | unrecognised t => exact absurd h (Scan.not_waits_error rfl)

variable {c : Cursor UInt8 Nat}

theorem length_of_trailerCrc {crcType : CrcType} {d : Bytes} {crc : Option Bytes}
    (h : trailerCrc crcType ⟨st, d⟩ = .ok (crc, c)) :
    d.length = trailerByteLen crcType false + c.rest.length := by
  rcases trailerCrc_ok.mp h with ⟨rfl, -, rfl⟩ | ⟨hr, hn, v, -, hv, rfl, -⟩
  · exact (Nat.zero_add _).symm
  · have hlen : trailerByteLen crcType false = crcType.valueLen + 1 := by
      cases crcType with
      | none => exact absurd rfl hn
      | crc16X25 => rfl
      | crc32Castagnoli => rfl
      | unrecognised t => cases hr
    rw [hlen, ← hv, List.length_append, List.length_cons]

section

variable [Crates]

variable {header : BlockHeader}

theorem blockBody_waits {head d : Bytes} (h : Waits needMore (blockBody header head ⟨st, d⟩)) :
    d.length < header.dataEnd - header.dataStart +
      trailerByteLen header.crcType header.isIndefinite := by
  have hlen : trailerByteLen header.crcType header.isIndefinite =
      trailerByteLen header.crcType false + if header.isIndefinite then 1 else 0 := rfl
  rcases waits_bind h with h₁ | ⟨body, ⟨st₁, d₁⟩, h₁, hafter⟩
  · have := takeBytes_waits h₁
    omega
  obtain ⟨hd, hbody, -⟩ := takeBytes_ok.mp (lift_ok_iff.mp h₁)
  rw [hd, List.length_append, hbody]
  refine Nat.add_lt_add_left ?_ _
  rcases waits_bind hafter with h₂ | ⟨crc, c₂, -, hcheck⟩
  · rcases waits_bind h₂ with h₃ | ⟨crc, c₃, h₃, hbreak⟩
    · exact Nat.lt_of_lt_of_le (trailerCrc_waits h₃) (hlen ▸ Nat.le_add_right _ _)
    · split at hbreak
      · next hi =>
          rcases waits_bind hbreak with h₄ | ⟨_, _, -, h₄⟩
          · rw [hlen, if_pos hi, length_of_trailerCrc h₃, breakByte_waits h₄]
            exact Nat.lt_succ_self _
          · exact absurd h₄ (Scan.not_waits_ok _)
      · exact absurd hbreak (Scan.not_waits_ok _)
  · rcases waits_bind hcheck with h₃ | ⟨_, _, -, h₃⟩
    · refine absurd h₃ ?_
      cases checkBlockCrc header.crcType header.isIndefinite (head ++ body) crc with
      | ok u => exact Scan.not_waits_ok _
      | error y => exact Scan.not_waits_error rfl
    · exact absurd h₃ (Scan.not_waits_ok _)

theorem blockBody_short {head d : Bytes} (h : d.length < header.dataEnd - header.dataStart) :
    Waits needMore (blockBody header head ⟨st, d⟩) := by
  have htake : (lift (takeBytes (header.dataEnd - header.dataStart)) : Dec Error Bytes) ⟨st, d⟩ =
      .error (ofCbor (.needMoreData (header.dataEnd - header.dataStart - d.length))) := by
    simp only [lift, Scan.mapErr, takeBytes, Scan.take, if_pos h]
  exact ⟨_, _, Scan.bind_eq_of_error htake _, rfl⟩

theorem blockBody_plain (hn : header.crcType = .none)
    (hi : header.isIndefinite = false) (head : Bytes) (st : Nat) {body : Bytes}
    (hlen : body.length = header.dataEnd - header.dataStart) (rest : Bytes) :
    blockBody header head ⟨st, body ++ rest⟩ = .ok (body, ⟨st + body.length, rest⟩) := by
  refine blockBody_ok.mpr ⟨hlen, [], ?_, ?_, ?_⟩
  · unfold TrailerOk
    rw [if_pos hn]
  · rw [trailerBytes, if_pos hn, hi]
    rfl
  · rw [hn, hi]
    rfl

theorem blockBody_last {head d body body' : Bytes} {t t' : UInt8}
    {c c' : Cursor UInt8 Nat} (hlong : header.dataEnd - header.dataStart ≤ d.length)
    (h : blockBody header head ⟨st, d ++ [t]⟩ = .ok (body, c)) (hc : c.rest = [])
    (h' : blockBody header head ⟨st, d ++ [t']⟩ = .ok (body', c')) (hc' : c'.rest = []) :
    t = t' := by
  obtain ⟨hlen, v, hok, hd, -⟩ := blockBody_ok.mp h
  obtain ⟨hlen', v', hok', hd', -⟩ := blockBody_ok.mp h'
  have hsame : body = body' := by
    have hb : body = d.take (header.dataEnd - header.dataStart) := by
      rw [← List.take_append_of_le_length hlong, hd, ← hlen, List.take_left]
    have hb' : body' = d.take (header.dataEnd - header.dataStart) := by
      rw [← List.take_append_of_le_length hlong, hd', ← hlen', List.take_left]
    rw [hb, hb']
  subst hsame
  have hv : v = v' := by
    unfold TrailerOk at hok hok'
    split at hok
    · next hn =>
        rw [if_pos hn] at hok'
        rw [hok, hok']
    · next hn =>
        rw [if_neg hn] at hok'
        exact Except.ok.inj (hok.symm.trans hok')
  rw [hc] at hd
  rw [hc', ← hv, ← hd] at hd'
  simpa using hd'.symm

theorem blockBody_spoil {head d : Bytes}
    (ht : ¬ (header.crcType = .none ∧ header.isIndefinite = false))
    (hw : Waits needMore (blockBody header head ⟨st, d⟩)) :
    ∃ r x, blockBody header head ⟨st, d ++ r⟩ = .error x ∧ needMore x = none := by
  obtain ⟨r, ⟨x, hx, hhard⟩ | ⟨body, st', h⟩⟩ := (blockBody_resumes header head).settles.exactly
    (blockBody_resumes header head).stepwise hw
  · exact ⟨r, x, hx, hhard⟩
  · obtain ⟨hlen, v, hok, hd, -⟩ := blockBody_ok.mp h
    rw [List.append_nil] at hd
    have htrail : trailerByteLen header.crcType header.isIndefinite ≠ 0 := by
      rw [← length_trailerBytes hok]
      intro h0
      rw [List.length_eq_zero_iff, trailerBytes, List.append_eq_nil_iff] at h0
      refine ht ⟨?_, ?_⟩
      · by_contra hn
        rw [if_neg hn] at h0
        cases h0.1
      · cases hi : header.isIndefinite with
        | false => rfl
        | true => rw [hi] at h0; cases h0.2
    have htotal := congrArg List.length hd
    rw [List.length_append, List.length_append, hlen, length_trailerBytes hok] at htotal
    have hshort := blockBody_waits hw
    have hr : r ≠ [] := by
      intro h0
      rw [h0, List.length_nil] at htotal
      omega
    obtain ⟨r₀, t, rfl⟩ : ∃ r₀ t, r = r₀ ++ [t] :=
      ⟨r.dropLast, r.getLast hr, (List.dropLast_append_getLast hr).symm⟩
    rw [List.length_append, List.length_singleton] at htotal
    refine ⟨r₀ ++ [t + 1], ?_⟩
    have hlong : header.dataEnd - header.dataStart ≤ (d ++ r₀).length := by
      rw [List.length_append]
      omega
    rcases h₁ : blockBody header head ⟨st, d ++ (r₀ ++ [t + 1])⟩ with x | ⟨body', c'⟩
    · refine ⟨x, rfl, ?_⟩
      cases hx : needMore x with
      | none => rfl
      | some k =>
        have := blockBody_waits ⟨x, k, h₁, hx⟩
        simp only [List.length_append, List.length_singleton] at this
        omega
    · obtain ⟨hlen', v', hok', hd', -⟩ := blockBody_ok.mp h₁
      have hnil : c'.rest = [] := by
        have := congrArg List.length hd'
        simp only [List.length_append, List.length_singleton, hlen', length_trailerBytes hok'] at this
        exact List.length_eq_zero_iff.mp (by omega)
      rw [← List.append_assoc] at h h₁
      have := blockBody_last hlong h rfl h₁ hnil
      exact absurd this (by simp)

/-! ## Bodies that are no operation set -/

omit [Crates] in
theorem parseArray_zero {ε α : Type} [FromCborError ε] (f : Bool → List Nat → Ser ε α) (st : Nat)
    (t : Bytes) : ∃ y, parseArray f ⟨st, 0 :: t⟩ = .error y ∧ needMore y = none := by
  have hhead : Head.fromCbor ⟨st, 0 :: t⟩ = .ok ((⟨[], .unsignedInteger 0⟩, true), ⟨st + 1, t⟩) :=
    head_emit (show 0 ≤ 5 by decide) (show 0 < wordSize by decide) st t
  exact ⟨_, Scan.bind_eq_of_ok (lift_ok hhead) _, needMore_ofCbor _⟩

variable [HashOrder]

theorem BcbSet.decode_nil : ∃ x, BcbSet.decode [] = .error x ∧ needMore x = none := ⟨_, rfl, rfl⟩

theorem BcbSet.decode_zero (t : Bytes) :
    ∃ x, BcbSet.decode (0 :: t) = .error x ∧ needMore x = none := by
  obtain ⟨y, hy, hn⟩ := parseArray_zero (definiteArray
    (Scan.loop (.invalidCBOR .tooBig) AbstractSyntaxBlock.targetRound [])) 0 t
  have hsub : subItem (parseArray (definiteArray (Scan.loop (.invalidCBOR .tooBig)
      AbstractSyntaxBlock.targetRound []))) ⟨⟨none, 0, 0⟩, 0 :: t⟩ = .error y := by
    unfold subItem
    exact Scan.within_error.mpr hy
  have hitem : Series.item 0 (parseArray (definiteArray (Scan.loop (.invalidCBOR .tooBig)
      AbstractSyntaxBlock.targetRound []))) ⟨⟨none, 0, 0⟩, 0 :: t⟩ = .error y := by
    unfold Series.item unlessEnd
    have hend : (lift (atEnd 0) : Ser Bpsec.Error Bool) ⟨⟨none, 0, 0⟩, 0 :: t⟩ =
        .ok (false, ⟨⟨none, 0, 0⟩, 0 :: t⟩) := rfl
    rw [Scan.bind_eq_of_ok hend]
    exact hsub
  have hfields : AbstractSyntaxBlock.fields ⟨⟨none, 0, 0⟩, 0 :: t⟩ =
      .error (.invalidField "security targets" y) :=
    Scan.bind_eq_of_error (Scan.mapErr_error.mpr ⟨y, hitem, rfl⟩) _
  have hset : OperationSet.fromCbor BcbSet.unpack ⟨0, 0 :: t⟩ =
      .error (.invalidField "security targets" y) := by
    unfold OperationSet.fromCbor AbstractSyntaxBlock.fromCbor parseSequence
    refine Scan.bind_eq_of_error (Scan.within_error.mpr ?_) _
    exact Scan.bind_eq_of_error hfields _
  have hfield : parseField (OperationSet.fromCbor BcbSet.unpack) "BCB operation set" ⟨0, 0 :: t⟩ =
      .error (.invalidField "BCB operation set"
        (.invalidBPSec (.invalidField "security targets" y))) := by
    unfold parseField
    refine Scan.bind_eq_of_error (Scan.within_error.mpr (Scan.mapErr_error.mpr ⟨_, ?_, rfl⟩)) _
    rw [untagged, Scan.onNext_cons]
    exact hset
  unfold BcbSet.decode decodeBody
  rw [hfield]
  exact ⟨_, rfl, hn⟩

/-! ## Blocks that are cut short -/

/-- A BCB whose operation set ends early: the block is complete and its set is
not, or its body has no set however it is completed. -/
structure CutShort (header : BlockHeader) (head : Bytes) (c : Cursor UInt8 Nat) : Prop where
  isBcb : header.blockType = .blockSecurity
  ends_early :
    (∃ body c', blockBody header head c = .ok (body, c') ∧ Waits needMore (BcbSet.decode body)) ∨
    (header.crcType = .none ∧ header.isIndefinite = false ∧
      c.rest.length < header.dataEnd - header.dataStart ∧
      ∀ r, c.rest.length + r.length = header.dataEnd - header.dataStart →
        Waits needMore (BcbSet.decode (c.rest ++ r)))

/-! ## After the header -/

section

variable {w : Walk} {bundle : Bundle} {start : Nat} {header : BlockHeader} {head : Bytes} {st : Nat}

theorem not_cutShort_nil : ¬ CutShort header head ⟨st, []⟩ := by
  intro h
  rcases h.ends_early with ⟨body, c', hb, hw⟩ | ⟨-, -, hlt, hall⟩
  · obtain ⟨-, v, -, hd, -⟩ := blockBody_ok.mp hb
    rw [(List.append_eq_nil_iff.mp hd.symm).1] at hw
    obtain ⟨x, hx, hhard⟩ := BcbSet.decode_nil
    rw [hx] at hw
    exact Scan.not_waits_error hhard hw
  · obtain ⟨x, hx, hhard⟩ := BcbSet.decode_zero
      (List.replicate (header.dataEnd - header.dataStart - 1) 0)
    have := hall (0 :: List.replicate (header.dataEnd - header.dataStart - 1) 0) (by
      simp only [List.length_nil, List.length_cons, List.length_replicate] at hlt ⊢
      omega)
    rw [List.nil_append, hx] at this
    exact Scan.not_waits_error hhard this

theorem parseExtension_of_body {c c₁ : Cursor UInt8 Nat} {body : Bytes}
    (h : blockBody header head c = .ok (body, c₁)) :
    parseExtension w bundle start header head c =
      (bcbOps header body).map fun ops => (w.record bundle header start ops, c₁) := by
  unfold parseExtension
  rw [Scan.bind_eq_of_ok h]
  cases bcbOps header body <;> rfl

theorem parseExtension_of_error (h : blockBody header head c = .error x) :
    parseExtension w bundle start header head c = .error x :=
  Scan.bind_eq_of_error h _

theorem extension_waits (hc : ¬ CutShort header head c) {k : Nat}
    (h : parseExtension w bundle start header head c = .error x) (hx : needMore x = some k) :
    blockBody header head c = .error x := by
  rcases hb : blockBody header head c with y | ⟨body, c₁⟩
  · rw [parseExtension_of_error hb] at h
    cases h
    rfl
  · rw [parseExtension_of_body hb] at h
    unfold bcbOps at h
    split at h
    · next ht =>
        refine absurd ⟨ht, .inl ⟨body, c₁, hb, ?_⟩⟩ hc
        cases hd : BcbSet.decode body with
        | ok ops => rw [hd] at h; cases h
        | error y =>
          rw [hd] at h
          cases h
          exact ⟨x, k, rfl, hx⟩
    · cases h

theorem extension_rescue {d : Bytes} (hc : ¬ CutShort header head ⟨st, d⟩)
    (hw : Waits needMore (parseExtension w bundle start header head ⟨st, d⟩)) :
    ∃ r, (∃ x, parseExtension w bundle start header head ⟨st, d ++ r⟩ = .error x ∧
        needMore x = none) ∨
      ∃ w' st', parseExtension w bundle start header head ⟨st, d ++ r⟩ = .ok (w', ⟨st', []⟩) := by
  obtain ⟨x, k, hx, hk⟩ := hw
  have hbody : Waits needMore (blockBody header head ⟨st, d⟩) :=
    ⟨x, k, extension_waits hc hx hk, hk⟩
  by_cases hbcb : header.blockType = .blockSecurity
  · by_cases ht : header.crcType = .none ∧ header.isIndefinite = false
    · -- without a trailer the body decides
      have hlt := blockBody_waits hbody
      have htrail : trailerByteLen header.crcType header.isIndefinite = 0 := by
        rw [ht.1, ht.2]
        rfl
      rw [htrail, Nat.add_zero] at hlt
      obtain ⟨r, hr, hnot⟩ : ∃ r : Bytes, d.length + r.length = header.dataEnd - header.dataStart ∧
          ¬ Waits needMore (BcbSet.decode (d ++ r)) := by
        by_contra hall
        exact hc ⟨hbcb, .inr ⟨ht.1, ht.2, hlt, fun r hr => by
          by_contra hno
          exact hall ⟨r, hr, hno⟩⟩⟩
      have hb := blockBody_plain ht.1 ht.2 head st
        (show (d ++ r).length = _ by rw [List.length_append, hr]) []
      rw [List.append_nil] at hb
      refine ⟨r, ?_⟩
      rw [parseExtension_of_body hb, bcbOps, if_pos hbcb]
      cases hd : BcbSet.decode (d ++ r) with
      | ok ops => exact .inr ⟨_, _, rfl⟩
      | error y =>
        refine .inl ⟨y, rfl, ?_⟩
        cases hy : needMore y with
        | none => rfl
        | some j => exact absurd ⟨y, j, hd, hy⟩ hnot
    · obtain ⟨r, y, hy, hhard⟩ := blockBody_spoil ht hbody
      exact ⟨r, .inl ⟨y, parseExtension_of_error hy, hhard⟩⟩
  · obtain ⟨r, ⟨y, hy, hhard⟩ | ⟨body, st', hb⟩⟩ := (blockBody_resumes header head).settles.exactly
      (blockBody_resumes header head).stepwise hbody
    · exact ⟨r, .inl ⟨y, parseExtension_of_error hy, hhard⟩⟩
    · refine ⟨r, .inr ⟨w.record bundle header start none, st', ?_⟩⟩
      rw [parseExtension_of_body hb, bcbOps, if_neg hbcb]
      rfl

theorem extension_nil (h : ¬ Waits needMore (parseExtension w bundle start header head ⟨st, []⟩)) :
    (∃ x, parseExtension w bundle start header head ⟨st, [] ++ []⟩ = .error x ∧
        needMore x = none) ∨
      ∃ w' st', parseExtension w bundle start header head ⟨st, [] ++ []⟩ = .ok (w', ⟨st', []⟩) := by
  rw [List.append_nil]
  rcases hp : parseExtension w bundle start header head ⟨st, []⟩ with x | ⟨w', ⟨st', d'⟩⟩
  · refine .inl ⟨x, rfl, ?_⟩
    cases hx : needMore x with
    | none => rfl
    | some k => exact absurd ⟨x, k, hp, hx⟩ h
  · rcases hb : blockBody header head ⟨st, []⟩ with y | ⟨body, c₁⟩
    · rw [parseExtension_of_error hb] at hp
      cases hp
    · obtain ⟨-, v, -, hd, -⟩ := blockBody_ok.mp hb
      have hnil : c₁.rest = [] :=
        (List.append_eq_nil_iff.mp (List.append_eq_nil_iff.mp hd.symm).2).2
      rw [parseExtension_of_body hb] at hp
      obtain ⟨ops, -, he⟩ := Fold.map_ok.mp hp
      cases he
      exact .inr ⟨_, _, by rw [← hnil]⟩

theorem extension_bound {d : Bytes} (hc : ¬ CutShort header head ⟨st, d⟩) {k : Nat}
    (h : parseExtension w bundle start header head ⟨st, d⟩ = .error x) (hx : needMore x = some k) :
    0 < k ∧ ∀ e : Bytes, e.length < k →
      Waits needMore (parseExtension w bundle start header head ⟨st, d ++ e⟩) := by
  obtain ⟨hpos, hw⟩ := (blockBody_resumes header head).stepwise.wait (extension_waits hc h hx) hx
  refine ⟨hpos, fun e he => ?_⟩
  obtain ⟨y, j, hy, hj⟩ := hw e he
  exact ⟨y, j, parseExtension_of_error hy, hj⟩

theorem CutShort.waits {d : Bytes} (hc : CutShort header head ⟨st, d⟩) (w : Walk)
    (bundle : Bundle) (start : Nat) (e : Bytes) :
    Waits needMore (parseExtension w bundle start header head ⟨st, d ++ e⟩) := by
  have hset : ∀ {body : Bytes} {c₁ : Cursor UInt8 Nat},
      blockBody header head ⟨st, d ++ e⟩ = .ok (body, c₁) → Waits needMore (BcbSet.decode body) →
      Waits needMore (parseExtension w bundle start header head ⟨st, d ++ e⟩) := by
    intro body c₁ hb hw
    obtain ⟨x, k, hx, hk⟩ := hw
    refine ⟨x, k, ?_, hk⟩
    rw [parseExtension_of_body hb, bcbOps, if_pos hc.isBcb, hx]
    rfl
  rcases hc.ends_early with ⟨body, c', hb, hw⟩ | ⟨hn, hi, hlt, hall⟩
  · exact hset ((blockBody_resumes header head).stepwise.extend hb e) hw
  · by_cases hle : (d ++ e).length < header.dataEnd - header.dataStart
    · obtain ⟨x, k, hx, hk⟩ := blockBody_short hle
      exact ⟨x, k, parseExtension_of_error hx, hk⟩
    · simp only [List.length_append] at hlt hle
      obtain ⟨r, rest, rfl, hr⟩ : ∃ r rest, e = r ++ rest ∧
          d.length + r.length = header.dataEnd - header.dataStart := by
        refine ⟨e.take (header.dataEnd - header.dataStart - d.length), _,
          (List.take_append_drop _ e).symm, ?_⟩
        rw [List.length_take]
        omega
      have hb := blockBody_plain hn hi head st
        (show (d ++ r).length = _ by rw [List.length_append, hr]) rest
      rw [List.append_assoc] at hb
      exact hset hb (hall r hr)

omit [HashOrder] in
theorem payloadTail_needMore
    (h : payloadTail header head start c = .error x) : needMore x = none := by
  unfold payloadTail at h
  by_cases hn : header.crcType = .none
  · rw [if_pos hn] at h
    cases h
  · rw [if_neg hn] at h
    cases hd : Digest.new header.crcType with
    | ok digest => rw [hd] at h; cases h
    | error y =>
      rw [hd] at h
      cases h
      rfl

omit [Crates] [HashOrder] in
theorem oversized_append {n : Nat} {d : Bytes} (h : oversized n header ⟨st, d⟩ = false)
    (e : Bytes) : oversized n header ⟨st, d ++ e⟩ = false := by
  simp only [oversized, Bool.and_eq_false_iff, decide_eq_false_iff_not, Bool.not_eq_false',
    decide_eq_true_eq, List.length_append] at h ⊢
  omega

omit [HashOrder] in
theorem payload_waits {n : Nat} {d : Bytes} {k : Nat}
    (h : parsePayload n w bundle start header head ⟨st, d⟩ = .error x) (hx : needMore x = some k) :
    oversized n header ⟨st, d⟩ = false ∧ inlinePayload header head ⟨st, d⟩ = .error x := by
  unfold parsePayload at h
  split at h
  · cases ht : payloadTail header head start ⟨st, d⟩ with
    | ok tail => rw [ht] at h; cases h
    | error y =>
      rw [ht] at h
      cases h
      have := payloadTail_needMore ht
      rw [hx] at this
      cases this
  · next ho =>
      refine ⟨Bool.eq_false_of_not_eq_true ho, ?_⟩
      rcases Scan.bind_error h with h₁ | ⟨u, c₁, -, h₂⟩
      · exact h₁
      · rcases Scan.bind_error h₂ with h₃ | ⟨_, c₂, -, h₃⟩
        · unfold atBundleEnd at h₃
          split at h₃
          · cases h₃
          · cases h₃
            cases hx
        · cases h₃

omit [HashOrder] in
theorem payload_rescue (n : Nat) (w : Walk) (bundle : Bundle) (start : Nat) (header : BlockHeader)
    (head : Bytes) (st : Nat) (d : Bytes) :
    ∃ e, ¬ Waits needMore (parsePayload n w bundle start header head ⟨st, d ++ e⟩) := by
  by_cases hw : Waits needMore (parsePayload n w bundle start header head ⟨st, d⟩)
  · obtain ⟨x, k, h, hk⟩ := hw
    obtain ⟨ho, -⟩ := payload_waits h hk
    obtain ⟨e, he⟩ := (inlinePayload_resumes header head).settles st d
    refine ⟨e, fun hw => ?_⟩
    obtain ⟨y, j, hy, hj⟩ := hw
    exact he ⟨y, j, (payload_waits hy hj).2, hj⟩
  · exact ⟨[], by rwa [List.append_nil]⟩

omit [HashOrder] in
theorem payload_bound {n : Nat} {d : Bytes} {k : Nat}
    (h : parsePayload n w bundle start header head ⟨st, d⟩ = .error x) (hx : needMore x = some k) :
    0 < k ∧ ∀ e : Bytes, e.length < k →
      Waits needMore (parsePayload n w bundle start header head ⟨st, d ++ e⟩) := by
  obtain ⟨ho, hin⟩ := payload_waits h hx
  obtain ⟨hpos, hw⟩ := (inlinePayload_resumes header head).stepwise.wait hin hx
  refine ⟨hpos, fun e he => ?_⟩
  obtain ⟨y, j, hy, hj⟩ := hw e he
  refine ⟨y, j, ?_, hj⟩
  unfold parsePayload
  rw [if_neg (by rw [oversized_append ho e]; exact Bool.false_ne_true)]
  exact Scan.bind_eq_of_error hy _

end

/-! ## Rounds -/

/-- The round does not stop in a BCB that is cut short. -/
def Whole (w : Walk) (c : Cursor UInt8 Nat) : Prop :=
  ∀ bundle header head c₁, w.state = .blocks bundle →
    blockHead w bundle c = .ok ((header, head), c₁) → ¬ CutShort header head c₁

def Settled (n : Nat) (w : Walk) (c : Cursor UInt8 Nat) : Prop :=
  ∀ s, Scan.run (.invalidCBOR .tooBig) (round n) w c = .error s → needMore s.failure = none

section

variable {n : Nat} {w : Walk} {st : Nat} {d : Bytes}

theorem settled_of_error (h : round n w c = .error x) (hx : needMore x = none) : Settled n w c := by
  intro s hs
  rw [Scan.run_unfold (round_progress n), h] at hs
  cases hs
  exact hx

theorem settled_of_end {c c' : Cursor UInt8 Nat} {o : Outcome}
    (h : round n w c = .ok (.inr o, c')) : Settled n w c := by
  intro s hs
  rw [Scan.run_unfold (round_progress n), h] at hs
  cases hs

theorem settled_of_advance {w' : Walk} {st' : Nat} {bundle : Bundle}
    (h : Advances w ⟨st, d⟩ w' ⟨st', []⟩) (hw' : w'.state = .blocks bundle) :
    Settled n w ⟨st, d ++ [0xFF]⟩ := by
  intro s hs
  have hround : round n w ⟨st, d ++ [0xFF]⟩ = .ok (.inl w', ⟨st', [0xFF]⟩) :=
    round_inl.mpr (h.extend [0xFF])
  rw [Scan.run_unfold (round_progress n), hround] at hs
  refine settled_of_error (x := .missingPayload) ?_ rfl s hs
  simp only [round, hw']
  exact parseBlock_of_error rfl

theorem parseExtension_state {bundle : Bundle} {start : Nat} {head : Bytes}
    {c c' : Cursor UInt8 Nat} {w' : Walk}
    (h : parseExtension w bundle start header head c = .ok (w', c')) :
    ∃ bundle', w'.state = .blocks bundle' := by
  obtain ⟨body, c₁, -, h⟩ := Scan.bind_ok h
  obtain ⟨ops, c₂, -, h⟩ := Scan.bind_ok h
  cases h
  exact ⟨_, rfl⟩

/-- After its header a round can be brought to an end. -/
theorem settled_after_head {bundle : Bundle} {head : Bytes}
    {c₁ : Cursor UInt8 Nat} (hw : w.state = .blocks bundle)
    (hh : blockHead w bundle ⟨st, d⟩ = .ok ((header, head), c₁)) (hc : ¬ CutShort header head c₁)
    (hwait : c₁.rest = [] ∨ Waits needMore (round n w ⟨st, d⟩)) :
    ∃ e, Settled n w ⟨st, d ++ e⟩ := by
  obtain ⟨st₁, d₁⟩ := c₁
  have hext : ∀ e, blockHead w bundle ⟨st, d ++ e⟩ = .ok ((header, head), ⟨st₁, d₁ ++ e⟩) :=
    (blockHead_resumes w bundle).stepwise.extend hh
  have hround : ∀ e, round n w ⟨st, d ++ e⟩ =
      if header.blockType = .payload then
        (parsePayload n w bundle st header head ⟨st₁, d₁ ++ e⟩).map fun p => (.inr p.1, p.2)
      else (parseExtension w bundle st header head ⟨st₁, d₁ ++ e⟩).map fun p => (.inl p.1, p.2) := by
    intro e
    simp only [round, hw]
    exact parseBlock_of_head (hext e)
  by_cases ht : header.blockType = .payload
  · obtain ⟨e, he⟩ := payload_rescue n w bundle st header head st₁ d₁
    have hr := hround e
    rw [if_pos ht] at hr
    refine ⟨e, ?_⟩
    rcases hp : parsePayload n w bundle st header head ⟨st₁, d₁ ++ e⟩ with x | ⟨o, c'⟩
    · rw [hp] at hr
      refine settled_of_error hr ?_
      cases hx : needMore x with
      | none => rfl
      | some k => exact absurd ⟨x, k, hp, hx⟩ he
    · rw [hp] at hr
      exact settled_of_end hr
  · have hfinal : ∃ e, (∃ x, parseExtension w bundle st header head ⟨st₁, d₁ ++ e⟩ = .error x ∧
        needMore x = none) ∨
        ∃ w' st', parseExtension w bundle st header head ⟨st₁, d₁ ++ e⟩ = .ok (w', ⟨st', []⟩) := by
      by_cases hpe : Waits needMore (parseExtension w bundle st header head ⟨st₁, d₁⟩)
      · exact extension_rescue hc hpe
      · rcases hwait with hnil | hwait
        · obtain rfl : d₁ = [] := hnil
          exact ⟨[], extension_nil hpe⟩
        · have hr := hround []
          rw [List.append_nil, List.append_nil, if_neg ht] at hr
          obtain ⟨x, k, hx, hk⟩ := hwait
          rw [hr] at hx
          cases hp : parseExtension w bundle st header head ⟨st₁, d₁⟩ with
          | ok p => rw [hp] at hx; cases hx
          | error y =>
            rw [hp] at hx
            cases hx
            exact absurd ⟨x, k, hp, hk⟩ hpe
    obtain ⟨e, ⟨x, hx, hhard⟩ | ⟨w', st', hok⟩⟩ := hfinal
    · refine ⟨e, settled_of_error (x := x) ?_ hhard⟩
      rw [hround, if_neg ht, hx]
      rfl
    · obtain ⟨bundle', hb'⟩ := parseExtension_state hok
      refine ⟨e ++ [0xFF], ?_⟩
      rw [← List.append_assoc]
      exact settled_of_advance (.block hw (hext e) ht hok) hb'

theorem round_rescue (hwhole : Whole w ⟨st, d⟩) (hw : Waits needMore (round n w ⟨st, d⟩)) :
    ∃ e, Settled n w ⟨st, d ++ e⟩ := by
  cases hs : w.state with
  | start =>
    have hd : d = [] := by
      cases d with
      | nil => rfl
      | cons b d =>
        simp only [round, hs] at hw
        rcases waits_bind hw with hw | ⟨_, _, -, hw⟩
        · rcases waits_bind hw with ⟨x, k, hx, -⟩ | ⟨b', c₁, -, hw⟩
          · cases hx
          · repeat' split at hw
            · exact absurd hw (Scan.not_waits_ok _)
            · exact absurd hw (Scan.not_waits_error rfl)
            · exact absurd hw (Scan.not_waits_error rfl)
            · exact absurd hw (Scan.not_waits_error rfl)
        · exact absurd hw (Scan.not_waits_ok _)
    subst hd
    refine ⟨[0], settled_of_error (x := .notABundle 0) ?_ rfl⟩
    simp only [round, hs]
    rfl
  | primaryBlock =>
    have hp : Waits needMore (parsePrimary ⟨st, d⟩) := by
      simp only [round, hs] at hw
      rcases waits_bind hw with hw | ⟨_, _, -, hw⟩
      · exact hw
      · exact absurd hw (Scan.not_waits_ok _)
    obtain ⟨r, ⟨x, hx, hhard⟩ | ⟨bundle, st', hok⟩⟩ :=
      parsePrimary_resumes.settles.exactly parsePrimary_resumes.stepwise hp
    · refine ⟨r, settled_of_error (x := x) ?_ hhard⟩
      simp only [round, hs]
      exact Scan.bind_eq_of_error hx _
    · refine ⟨r ++ [0xFF], ?_⟩
      rw [← List.append_assoc]
      exact settled_of_advance (.primary hs hok) rfl
  | blocks bundle =>
    rcases hh : blockHead w bundle ⟨st, d⟩ with x | ⟨⟨header, head⟩, c₁⟩
    · have hp : Waits needMore (blockHead w bundle ⟨st, d⟩) := by
        simp only [round, hs, parseBlock_of_error hh] at hw
        obtain ⟨y, k, hy, hk⟩ := hw
        cases hy
        exact ⟨x, k, hh, hk⟩
      obtain ⟨r, ⟨y, hy, hhard⟩ | ⟨⟨header, head⟩, st', hok⟩⟩ :=
        (blockHead_resumes w bundle).settles.exactly (blockHead_resumes w bundle).stepwise hp
      · refine ⟨r, settled_of_error (x := y) ?_ hhard⟩
        simp only [round, hs]
        exact parseBlock_of_error hy
      · obtain ⟨e, he⟩ := settled_after_head (n := n) hs hok not_cutShort_nil (.inl rfl)
        refine ⟨r ++ e, ?_⟩
        rw [← List.append_assoc]
        exact he
    · exact settled_after_head hs hh (hwhole bundle header head c₁ hs hh) (.inr hw)

theorem round_bound (hwhole : Whole w ⟨st, d⟩) {k : Nat}
    (h : round n w ⟨st, d⟩ = .error x) (hx : needMore x = some k) :
    0 < k ∧ ∀ e : Bytes, e.length < k → Waits needMore (round n w ⟨st, d ++ e⟩) := by
  cases hs : w.state with
  | start =>
    simp only [round, hs] at h ⊢
    exact (parseStart_resumes.map _).stepwise.wait h hx
  | primaryBlock =>
    simp only [round, hs] at h ⊢
    exact (parsePrimary_resumes.map _).stepwise.wait h hx
  | blocks bundle =>
    simp only [round, hs] at h ⊢
    rcases hh : blockHead w bundle ⟨st, d⟩ with y | ⟨⟨header, head⟩, c₁⟩
    · rw [parseBlock_of_error hh] at h
      cases h
      obtain ⟨hpos, hw⟩ := (blockHead_resumes w bundle).stepwise.wait hh hx
      refine ⟨hpos, fun e he => ?_⟩
      obtain ⟨z, j, hz, hj⟩ := hw e he
      exact ⟨z, j, parseBlock_of_error hz, hj⟩
    · have hc := hwhole bundle header head c₁ hs hh
      have hext : ∀ e, blockHead w bundle ⟨st, d ++ e⟩ = .ok ((header, head), ⟨c₁.st, c₁.rest ++ e⟩) :=
        (blockHead_resumes w bundle).stepwise.extend hh
      rw [parseBlock_of_head hh] at h
      split at h
      · next ht =>
          cases hp : parsePayload n w bundle st header head c₁ with
          | ok p => rw [hp] at h; cases h
          | error y =>
            rw [hp] at h
            cases h
            obtain ⟨hpos, hw⟩ := payload_bound hp hx
            refine ⟨hpos, fun e he => ?_⟩
            obtain ⟨z, j, hz, hj⟩ := hw e he
            refine ⟨z, j, ?_, hj⟩
            rw [parseBlock_of_head (hext e), if_pos ht, hz]
            rfl
      · next ht =>
          cases hp : parseExtension w bundle st header head c₁ with
          | ok p => rw [hp] at h; cases h
          | error y =>
            rw [hp] at h
            cases h
            obtain ⟨hpos, hw⟩ := extension_bound hc hp hx
            refine ⟨hpos, fun e he => ?_⟩
            obtain ⟨z, j, hz, hj⟩ := hw e he
            refine ⟨z, j, ?_, hj⟩
            rw [parseBlock_of_head (hext e), if_neg ht, hz]
            rfl

theorem round_stuck (hcut : ¬ Whole w ⟨st, d⟩) (e : Bytes) :
    Waits needMore (round n w ⟨st, d ++ e⟩) := by
  unfold Whole at hcut
  push Not at hcut
  obtain ⟨bundle, header, head, c₁, hs, hh, hc⟩ := hcut
  have ht : header.blockType ≠ .payload := by
    rw [hc.isBcb]
    decide
  obtain ⟨x, k, hx, hk⟩ := hc.waits w bundle st e
  refine ⟨x, k, ?_, hk⟩
  simp only [round, hs]
  rw [parseBlock_of_head ((blockHead_resumes w bundle).stepwise.extend hh e), if_neg ht, hx]
  rfl

end

/-! ## Pushes -/

/-- The parser after the bytes `d`, pushed in any chunks, when the last push has
asked for `more`. -/
inductive Waiting (chunkSize : Nat) : Bytes → Nat → BundleParser → Prop
  | first {d : Bytes} {more : Nat} {p : BundleParser}
      (h : (BundleParser.new chunkSize).push d = .ok (.needMore more p)) :
      Waiting chunkSize d more p
  | next {d chunk : Bytes} {more more' : Nat} {p p' : BundleParser} (hp : Waiting chunkSize d more p)
      (h : p.push chunk = .ok (.needMore more' p')) : Waiting chunkSize (d ++ chunk) more' p'

/-- What a caller expects of a parser that asks for `more`. -/
structure BundleParser.Honest (p : BundleParser) (more : Nat) : Prop where
  pos : 1 ≤ more
  least : ∀ chunks : List Bytes, chunks.flatten.length < more →
    ∀ data f rest, p.feed chunks ≠ .ok (some (.ready data f, rest))
  ends : ∃ e, ∀ more' p', p.push e ≠ .ok (.needMore more' p')

/-- The rounds stop at a block that is cut short. -/
def StopsCutShort (d : Bytes) : Prop :=
  ∃ w c bundle header head c₁, Scan.Rounds (round 0) ({}, ⟨0, d⟩) (w, c) ∧
    w.state = .blocks bundle ∧ blockHead w bundle c = .ok ((header, head), c₁) ∧
    CutShort header head c₁

theorem BundleParser.Given.stopped {p p' : BundleParser} {d chunk : Bytes} {more : Nat}
    (hp : p.Given d) (h : p.push chunk = .ok (.needMore more p')) :
    p'.Given (d ++ chunk) ∧ ∃ x, round p'.chunkSize p'.walk
      ⟨p'.offset, (d ++ chunk).drop p'.offset⟩ = .error x ∧ needMore x = some more := by
  have hpush := hp.push chunk
  rw [h] at hpush
  refine ⟨hpush.1, ?_⟩
  unfold BundleParser.push at h
  rw [hp.extended chunk] at h
  dsimp only at h
  split at h
  · cases h
  · cases h
  · next s hs =>
      split at h
      · next more' hm =>
          cases h
          obtain ⟨hr, hx⟩ := Scan.run_error (round_progress p.chunkSize) hs
          have hat := (rounds_at ((hp.append chunk).trans hr)).2
          exact ⟨s.failure, by rw [← hat]; exact hx, hm⟩
      · cases h

variable {p : BundleParser} {chunkSize more : Nat}

theorem Waiting.given {d : Bytes}
    (h : Waiting chunkSize d more p) : p.Given d ∧ ∃ x, round p.chunkSize p.walk
      ⟨p.offset, d.drop p.offset⟩ = .error x ∧ needMore x = some more := by
  induction h with
  | first h => exact (BundleParser.given_new chunkSize).stopped h
  | next _ h ih => exact ih.1.stopped h

theorem BundleParser.Given.feed_ready {d : Bytes} (hp : p.Given d)
    {chunks rest : List Bytes} {data : Bytes} {f : Finished}
    (h : p.feed chunks = .ok (some (.ready data f, rest))) :
    ∃ e, chunks.flatten = e ++ rest.flatten ∧ Completes (d ++ e) f := by
  induction chunks generalizing p d with
  | nil => cases h
  | cons chunk chunks ih =>
    have hpush := hp.push chunk
    unfold BundleParser.feed at h
    cases hr : p.push chunk with
    | error x => rw [hr] at h; cases h
    | ok progress =>
      rw [hr] at h hpush
      cases progress with
      | needMore more p' =>
        obtain ⟨e, he, hc⟩ := ih hpush.1 h
        refine ⟨chunk ++ e, ?_, ?_⟩
        · rw [List.flatten_cons, he, List.append_assoc]
        · rw [← List.append_assoc]
          exact hc
      | ready data' f' =>
        cases h
        exact ⟨chunk, rfl, hpush.2.1⟩
      | partialBody data' tail f' => cases h

theorem BundleParser.Given.push_settled {d e : Bytes} (hp : p.Given d) :
    (∀ more p', p.push e ≠ .ok (.needMore more p')) ↔
      Settled p.chunkSize p.walk ⟨p.offset, d.drop p.offset ++ e⟩ := by
  have hdrop : (d ++ e).drop p.offset = d.drop p.offset ++ e :=
    List.drop_append_of_le_length (rounds_at hp.rounds).1
  unfold BundleParser.push Settled
  simp only [hp.extended e, hdrop]
  rcases hr : Scan.run (.invalidCBOR .tooBig) (round p.chunkSize) p.walk
      ⟨p.offset, d.drop p.offset ++ e⟩ with s | ⟨o, c⟩
  · dsimp only
    constructor
    · intro h s' hs'
      cases hs'
      cases hm : needMore s.failure with
      | none => rfl
      | some more =>
        simp only [show s.failure.needMore = some more from hm] at h
        exact absurd rfl (h more _)
    · intro h more p'
      rw [show s.failure.needMore = none from h s rfl]
      exact fun h => (by cases h)
  · cases o with
    | done f => exact ⟨fun _ _ h => (by cases h), fun _ _ _ h => (by cases h)⟩
    | deferred f tail => exact ⟨fun _ _ h => (by cases h), fun _ _ _ h => (by cases h)⟩

theorem Waiting.stopsCutShort_iff {d : Bytes} (h : Waiting chunkSize d more p) :
    StopsCutShort d ↔ ¬ Whole p.walk ⟨p.offset, d.drop p.offset⟩ := by
  obtain ⟨hp, x, hx, -⟩ := h.given
  constructor
  · intro hcut hwhole
    obtain ⟨w, ⟨st, rest⟩, bundle, header, head, c₁, hr, hw, hh, hc⟩ := hcut
    have hnot : ¬ Whole w ⟨st, rest⟩ := fun hwh => hwh bundle header head c₁ hw hh hc
    have hstuck : Scan.Stuck (round p.chunkSize) (w, ⟨st, rest⟩) := by
      obtain ⟨y, k, hy, -⟩ := round_stuck (n := p.chunkSize) hnot []
      rw [List.append_nil] at hy
      exact stuck_of_not_inl fun w' c' h' => by cases hy.symm.trans h'
    have hstuck' : Scan.Stuck (round p.chunkSize) (p.walk, ⟨p.offset, d.drop p.offset⟩) :=
      stuck_of_not_inl fun w' c' h' => by cases hx.symm.trans h'
    cases (rounds_chunkSize hr).unique hp.rounds hstuck hstuck'
    exact hnot hwhole
  · intro hnot
    unfold Whole at hnot
    push Not at hnot
    obtain ⟨bundle, header, head, c₁, hw, hh, hc⟩ := hnot
    exact ⟨p.walk, _, bundle, header, head, c₁, rounds_chunkSize hp.rounds, hw, hh, hc⟩

theorem Waiting.not_honest {d : Bytes}
    (h : Waiting chunkSize d more p) (hcut : ¬ Whole p.walk ⟨p.offset, d.drop p.offset⟩) :
    ¬ p.Honest more := by
  obtain ⟨hp, -⟩ := h.given
  intro hh
  obtain ⟨e, he⟩ := hh.ends
  obtain ⟨y, k, hy, hk⟩ := round_stuck (n := p.chunkSize) hcut e
  have := hp.push_settled.mp he ⟨y, p.walk, _⟩ (by rw [Scan.run_unfold (round_progress _), hy])
  rw [hk] at this
  cases this

theorem Waiting.honest {d : Bytes}
    (h : Waiting chunkSize d more p) (hwhole : Whole p.walk ⟨p.offset, d.drop p.offset⟩) :
    p.Honest more := by
  obtain ⟨hp, x, hx, hmore⟩ := h.given
  obtain ⟨hpos, hbound⟩ := round_bound hwhole hx hmore
  obtain ⟨e, he⟩ := round_rescue hwhole ⟨x, more, hx, hmore⟩
  refine ⟨hpos, ?_, e, hp.push_settled.mpr he⟩
  intro chunks hlt data f rest hfeed
  obtain ⟨e', hflat, hc⟩ := hp.feed_ready hfeed
  have hlen := congrArg List.length hflat
  rw [List.length_append] at hlen
  obtain ⟨y, k, hy, hk⟩ := hbound e' (by omega)
  rw [← List.drop_append_of_le_length (rounds_at hp.rounds).1] at hy
  -- a round that waits is not the last one
  have hstuck : Scan.Stuck (round p.chunkSize) (p.walk, ⟨p.offset, (d ++ e').drop p.offset⟩) :=
    stuck_of_not_inl fun w' c' h' => by cases hy.symm.trans h'
  obtain ⟨c', hdone⟩ := (round_done (n := p.chunkSize)).mpr
    ((completes_iff (hp.append e') hstuck).mp hc)
  cases hy.symm.trans hdone

/-- A BCB at the cursor that is complete, and its operation set is not. -/
def endsEarly (w : Walk) (c : Cursor UInt8 Nat) : Bool :=
  match w.state with
  | .blocks bundle =>
    match blockHead w bundle c with
    | .ok ((header, head), c₁) =>
      header.blockType == .blockSecurity &&
        match blockBody header head c₁ with
        | .ok (body, _) =>
          match BcbSet.decode body with
          | .error x => (needMore x).isSome
          | .ok _ => false
        | .error _ => false
    | .error _ => false
  | _ => false

theorem not_whole_of_endsEarly {w : Walk} (h : endsEarly w c = true) : ¬ Whole w c := by
  unfold endsEarly at h
  split at h
  · next bundle hw =>
      split at h
      · next header head c₁ hh =>
          obtain ⟨ht, h⟩ := Bool.and_eq_true_iff.mp h
          split at h
          · next body c' hb =>
              split at h
              · next x hx =>
                  obtain ⟨k, hk⟩ := Option.isSome_iff_exists.mp h
                  exact fun hwhole => hwhole bundle header head c₁ hw hh
                    ⟨beq_iff_eq.mp ht, .inl ⟨body, c', hb, x, k, hx, hk⟩⟩
              · cases h
          · cases h
      · cases h
  · cases h

/-- A push of `d` stops in such a BCB. -/
def stopsEarly (chunkSize : Nat) (d : Bytes) : Bool :=
  match (BundleParser.new chunkSize).push d with
  | .ok (.needMore _ p) => endsEarly p.walk ⟨p.offset, d.drop p.offset⟩
  | _ => false

theorem not_honest_of_stopsEarly {chunkSize : Nat} {d : Bytes} (h : stopsEarly chunkSize d = true) :
    ∃ more p, Waiting chunkSize d more p ∧ ¬ p.Honest more := by
  unfold stopsEarly at h
  split at h
  · next more p hpush =>
      have hw : Waiting chunkSize d more p := .first hpush
      exact ⟨more, p, hw, hw.not_honest (not_whole_of_endsEarly h)⟩
  · cases h

end

/-- A parser that asks for more bytes needs that many and can be helped by
more, unless the bytes stop in a BCB that is cut short. -/
theorem needMore_honest [Crates] [HashOrder] {chunkSize more : Nat} {d : Bytes} {p : BundleParser}
    (h : Waiting chunkSize d more p) : p.Honest more ↔ ¬ StopsCutShort d := by
  rw [h.stopsCutShort_iff, not_not]
  constructor
  · intro hh
    by_contra hcut
    exact h.not_honest hcut hh
  · exact h.honest

/-- A primary block and a BCB of two bytes, which begin an array of two targets
and end after the first. -/
def truncatedBcb : Bytes :=
  [0x9F, 0x88, 0x07, 0x00, 0x00, 0x82, 0x02, 0x82, 0x01, 0x02, 0x82, 0x02, 0x82, 0x02, 0x01,
    0x82, 0x02, 0x82, 0x02, 0x01, 0x82, 0x00, 0x18, 0x28, 0x1A, 0x00, 0x0F, 0x42, 0x40,
    0x85, 0x0C, 0x02, 0x00, 0x00, 0x42, 0x82, 0x01]

/-- The bytes that a push asks for, and where the block begins that it stops in. -/
def asked [Crates] [HashOrder] (d : Bytes) : Option (Nat × Nat) :=
  match (BundleParser.new 4096).push d with
  | .ok (.needMore more p) => some (more, p.offset)
  | _ => none

theorem waiting_of_asked [Crates] [HashOrder] {d : Bytes} {more offset : Nat}
    (h : asked d = some (more, offset)) : ∃ p, p.offset = offset ∧ Waiting 4096 d more p := by
  unfold asked at h
  split at h
  · next p hpush =>
      cases h
      exact ⟨p, rfl, .first hpush⟩
  · cases h

/-- Inside the BCB, before the end of its data. -/
theorem needMore_honest_block : ∃ p, p.offset = 29 ∧
    @Waiting .reference .sorted 4096 (truncatedBcb.take 36) 1 p ∧
    (@BundleParser.Honest .reference .sorted p 1 ↔
      ¬ @StopsCutShort .reference .sorted (truncatedBcb.take 36)) := by
  obtain ⟨p, hoffset, h⟩ := @waiting_of_asked .reference .sorted (truncatedBcb.take 36) 1 29
    (by decide +kernel)
  exact ⟨p, hoffset, h, @needMore_honest .reference .sorted _ _ _ _ h⟩

/-- The parser asks for more, and nothing helps it. -/
theorem truncatedBcb_not_honest : ∃ more p, @Waiting .reference .sorted 4096 truncatedBcb more p ∧
    ¬ @BundleParser.Honest .reference .sorted p more :=
  @not_honest_of_stopsEarly .reference .sorted 4096 truncatedBcb (by decide +kernel)

end Hardy
