import Hardy.Cbor.Spelling
import Hardy.Pattern.Node

/-!
# The wire form of endpoint ids

Both directions between an EID and its bytes.  Every EID that a text or the wire
gives is read back from its own encoding, whatever follows (`obtained_reads`).
Conversely the flag of the decoder is to say that the bytes it read are that
encoding; `take_eq_toCbor_iff` names the spellings that it flags all the same.
-/

namespace Hardy.Eid

open Cbor

/-- `//name/service` -/
def dtnParts (name service : Bytes) : Bytes := 0x2F :: 0x2F :: (name ++ 0x2F :: service)

/-! ## The flag is lowered only -/

/-- A value with the flag needs the flag of what is around it. -/
abbrev Lowers (canonical : Bool) (p : Eid × Bool) : Prop := p.2 = true → canonical = true

variable {canonical : Bool}

theorem ofIpnParts_lowers {a b : Nat} {c : Option Nat} {p : Eid × Bool}
    (h : ofIpnParts a b c canonical = .ok p) : Lowers canonical p := by
  rw [ofIpnParts.eq_def] at h
  repeat' split at h
  all_goals cases h
  all_goals first | exact id | exact fun h => by cases h

variable [Crates]

omit [Crates] in
theorem ipnFromCbor_lowers (canonical : Bool) :
    Scan.Yields (ipnFromCbor canonical) (Lowers canonical) := by
  refine .of_bind fun a => .of_bind fun b => .of_bind fun o => ?_
  split
  · split
    · exact .throw _
    · exact verdict_yields fun p => ofIpnParts_lowers
  · exact verdict_yields fun p => ofIpnParts_lowers

omit [Crates] in
theorem ipnSsp_lowers (canonical : Bool) (v : Value) (s : Bool) (t : List Nat) :
    Scan.Yields (ipnSsp canonical v s t) (Lowers canonical) := by
  rw [ipnSsp.eq_def]
  split
  · split
    · exact .throw _
    · refine .of_bind fun definite c p c' h hp => ?_
      exact (Bool.and_eq_true_iff.mp (ipnFromCbor_lowers _ c p c' h hp)).1
  · exact .throw _

theorem dtnSsp_lowers {v : Value} {s : Bool} {t : List Nat}
    {p : Eid × Bool} (h : dtnSsp canonical v s t = .ok p) : Lowers canonical p := by
  rw [dtnSsp.eq_def] at h
  repeat' split at h
  all_goals cases h
  all_goals first | exact id | exact fun h => by cases h

theorem sspFromCbor_lowers (scheme : Nat) (canonical : Bool) :
    Scan.Yields (sspFromCbor scheme canonical) (Lowers canonical) := by
  rw [sspFromCbor.eq_def]
  split
  · exact .throw _
  · exact .mapErr _ (item_yields (parseValue_yields fun _ _ _ =>
      verdict_yields fun _ => dtnSsp_lowers))
  · exact .mapErr _ (item_yields (parseValue_yields (ipnSsp_lowers canonical)))
  · exact .of_bind fun _ => .of_bind fun _ => .pure id

/-! ## Encoding first -/

/-- Encoding and decoding, from the start of a slice. -/
theorem obtained_reads {e : Eid} (he : e.Obtained) (hlen : e.toCbor.length < wordSize)
    (r : Bytes) : fromCbor ⟨0, e.toCbor ++ r⟩ = .ok ((e, true), ⟨e.toCbor.length, r⟩) :=
  reads_toCbor he.wellFormed hlen r

omit [Crates] in
theorem obtained_reads_dtn : @fromCbor .reference
    ⟨0, @toCbor .reference (.dtn [0x61] [0x62]) ++ [0x00]⟩ =
      .ok ((.dtn [0x61] [0x62], true), ⟨8, [0x00]⟩) :=
  @obtained_reads .reference (.dtn [0x61] [0x62]) (@obtained_dtn .reference _ _ rfl rfl)
    (by decide) [0x00]

/-! ## What the flag says about the bytes -/

structure DtnParts (name service : Bytes) : Prop where
  regname : name.all isRegname = true
  utf8 : validUtf8 (Crates.percentDecode name) = true
  service : service.all isVchar = true

variable {e : Eid}

theorem parseDtn_some {t : Bytes} (ht : t ≠ noneText) (h : parseDtn t = some e) :
    ∃ name service, t = dtnParts name service ∧ DtnParts name service ∧
      e = .dtn (Crates.percentDecode name) service := by
  simp only [parseDtn, if_neg ht] at h
  split at h
  · cases h
  split at h
  · next _ rest _ =>
      split at h
      · next service hdrop =>
          rw [Option.ite_none_right_eq_some] at h
          obtain ⟨hok, h⟩ := h
          cases h
          obtain ⟨hutf, hserv⟩ := Bool.and_eq_true_iff.mp hok
          refine ⟨rest.takeWhile isRegname, service, ?_, ⟨?_, hutf, hserv⟩, rfl⟩
          · rw [dtnParts, ← hdrop, List.takeWhile_append_dropWhile]
          · exact List.all_eq_true.mpr fun x hx => List.mem_takeWhile_imp hx
      · cases h
  · cases h

theorem DtnParts.parseDtn {name service : Bytes} (h : DtnParts name service) :
    parseDtn (dtnParts name service) = some (.dtn (Crates.percentDecode name) service) := by
  have hall : ∀ x ∈ name, isRegname x = true := List.all_eq_true.mp h.regname
  have hslash : isRegname 0x2F = false := by decide
  have htake : (name ++ 0x2F :: service).takeWhile isRegname = name := by
    rw [List.takeWhile_append_of_pos hall, List.takeWhile_cons, hslash]
    simp
  have hdrop : (name ++ 0x2F :: service).dropWhile isRegname = 0x2F :: service := by
    rw [List.dropWhile_append_of_pos hall, List.dropWhile_cons, hslash]
    simp
  rw [dtnParts, Eid.parseDtn, if_neg (by simp [noneText, List.isPrefixOf])]
  simp only [hdrop, htake, h.utf8, h.service, Bool.and_self, if_true]

inductive Spelled : Eid → Bytes → Prop where
  | null : Spelled .null (emitArray [emitUint 1, emitUint 0])
  | dtn {name service : Bytes} : DtnParts name service →
      (emitString (dtnParts name service)).length < wordSize →
      Spelled (.dtn (Crates.percentDecode name) service)
        (emitArray [emitUint 1, emitString (dtnParts name service)])
  | ipnTwo {a b : Nat} {e : Eid} : ofIpnParts a b none true = .ok (e, true) →
      Spelled e (emitArray [emitUint 2, emitArray [emitUint a, emitUint b]])
  | ipnThree {a b s : Nat} {e : Eid} : ofIpnParts a b (some s) true = .ok (e, true) →
      Spelled e (emitArray [emitUint 2, emitArray [emitUint a, emitUint b, emitUint s]])
  | unknown {scheme : Nat} {ssp : Bytes} :
      Spelled (.unknown scheme ssp) (emitArray [emitUint scheme, ssp])

/-! ## Each part is spelled as it is emitted -/

omit [Crates] in
theorem ipnPart_spelled {n v : Nat} {s : Series} {d : Bytes} {c : Cursor UInt8 Series}
    (hs : s.count = some n) (h : ipnPart ⟨s, d⟩ = .ok (v, c)) :
    d = emitUint v ++ c.rest ∧ c.st.count = some n ∧ c.st.parsed = s.parsed + 1 ∧
      s.parsed < n := by
  obtain ⟨⟨w, t⟩, c₁, hitem, h⟩ := Scan.bind_ok h
  cases t with
  | false => cases h
  | true =>
    obtain ⟨rfl, rfl⟩ := Scan.pure_ok_iff.mp h
    exact item_spelled (u64_spells v).untagged hs (Scan.mapErr_ok.mp hitem)

theorem ipnFromCbor_spelled {n : Nat} {s : Series} {d : Bytes}
    {c : Cursor UInt8 Series} (hs : s.count = some n)
    (h : ipnFromCbor true ⟨s, d⟩ = .ok ((e, true), c)) :
    ∃ parts : List Bytes, d = parts.flatten ++ c.rest ∧ c.st.count = some n ∧
      c.st.parsed = s.parsed + parts.length ∧
      (n ≤ c.st.parsed → n = s.parsed + parts.length) ∧
      Spelled e (emitArray [emitUint 2, emitArray parts]) := by
  obtain ⟨a, c₁, ha, h⟩ := Scan.bind_ok h
  obtain ⟨b, c₂, hb, h⟩ := Scan.bind_ok h
  obtain ⟨o, c₃, ho, h⟩ := Scan.bind_ok h
  obtain ⟨hd, hcount₁, hparsed₁, hlt₁⟩ := ipnPart_spelled hs ha
  obtain ⟨hd₁, hcount₂, hparsed₂, hlt₂⟩ := ipnPart_spelled hcount₁ hb
  rcases tryItem_spelled hcount₂ (Scan.mapErr_ok.mp ho) with ⟨rfl, rfl, hle⟩ | ⟨p, rfl, hitem⟩
  · obtain ⟨hparts, rfl⟩ := verdict_ok.mp h
    refine ⟨[emitUint a, emitUint b], ?_, hcount₂, ?_, fun _ => ?_, .ipnTwo hparts⟩
    · rw [hd, hd₁]
      simp
    · rw [hparsed₂, hparsed₁]
      rfl
    · simp only [List.length_cons, List.length_nil]
      omega
  · obtain ⟨v, t⟩ := p
    cases t with
    | false => cases h
    | true =>
      obtain ⟨hparts, rfl⟩ := verdict_ok.mp h
      obtain ⟨hd₂, hcount₃, hparsed₃, hlt₃⟩ :=
        item_spelled (u64_spells v).untagged hcount₂ hitem
      refine ⟨[emitUint a, emitUint b, emitUint v], ?_, hcount₃, ?_, fun hle => ?_,
        .ipnThree hparts⟩
      · rw [hd, hd₁, hd₂]
        simp
      · rw [hparsed₃, hparsed₂, hparsed₁]
        rfl
      · simp only [List.length_cons, List.length_nil]
        omega

theorem ipnSsp_spelled {c c' : Cursor UInt8 Nat}
    (h : parseValue (ipnSsp canonical) c = .ok ((e, true), c')) :
    ∃ ssp, c.rest = ssp ++ c'.rest ∧ Spelled e (emitArray [emitUint 2, ssp]) := by
  obtain ⟨st, d⟩ := c
  obtain ⟨⟨tags, marker⟩, s, ⟨st₁, d₁⟩, hhead, hhanded⟩ := parseValue_handed h
  cases hhanded with
  | uint hm hrest h => cases h
  | text hm hrest hfits h => cases h
  | other hu ht ha h =>
    rw [ipnSsp.eq_def] at h
    split at h
    · exact absurd rfl (ha _)
    · cases h
  | @array count hm h =>
    obtain rfl : marker = .array count := hm
    obtain ⟨n, ser, r, hcount, hbody, hend⟩ := withSeries_ran h
    rw [ipnSsp] at hbody
    split at hbody
    · cases hbody
    next hflags =>
    simp only [Bool.or_eq_true, Bool.not_eq_true', not_or, Bool.not_eq_false] at hflags
    obtain ⟨rfl, htags⟩ := hflags
    obtain rfl : tags = [] := List.isEmpty_iff.mp htags
    obtain ⟨definite, c₁, hlook, hbody⟩ := Scan.bind_ok hbody
    cases hlook
    have hcanonical := Bool.and_eq_true_iff.mp (ipnFromCbor_lowers _ _ _ _ hbody rfl)
    cases count with
    | none =>
      cases hcount
      cases hcanonical.2
    | some k =>
      obtain rfl := itemCount_ok hcount
      rw [hcanonical.1, hcanonical.2] at hbody
      obtain ⟨parts, hd, hcount, hparsed, hlen, hspelled⟩ := ipnFromCbor_spelled rfl hbody
      obtain ⟨rfl, hle⟩ := hend _ hcount
      have hk := hlen hle
      simp only [Nat.max_self, Nat.mul_one, Nat.zero_add] at hk
      refine ⟨emitArray parts, ?_, hspelled⟩
      have hhead := head_spells (show 4 ≤ 5 by decide) _ _ _ hhead
      rw [hhead, hd, emitArray, hk, List.append_assoc]

theorem dtnSsp_ok {canonical s : Bool} {v : Value} {tags : List Nat}
    (h : dtnSsp canonical v s tags = .ok (e, true)) : s = true ∧ tags = [] ∧
      (v = .unsignedInteger 0 ∧ e = .null ∨
        ∃ t, v = .text t ∧ t ≠ noneText ∧ parseDtn t = some e) := by
  rw [dtnSsp.eq_def] at h
  split at h
  · cases h
  next htags =>
  have htags : tags = [] := by simpa using htags
  split at h
  · cases s with
    | false => cases h
    | true =>
      cases h
      exact ⟨rfl, htags, .inl ⟨rfl, rfl⟩⟩
  · cases s with
    | false => cases h
    | true =>
      rw [if_neg (by decide)] at h
      split at h
      · cases h
      · next t hne =>
          split at h
          · next e' hparse =>
              cases h
              exact ⟨rfl, htags, .inr ⟨t, rfl, hne, hparse⟩⟩
          · cases h
  · split at h <;> cases h
  · cases h

theorem dtnSsp_spelled {d : Bytes} {c : Cursor UInt8 Nat}
    (h : parseValue (fun v s t => verdict (dtnSsp canonical v s t)) ⟨0, d⟩ =
      .ok ((e, true), c)) :
    ∃ ssp, d = ssp ++ c.rest ∧ Spelled e (emitArray [emitUint 1, ssp]) := by
  obtain ⟨⟨tags, marker⟩, s, ⟨st₁, d₁⟩, hhead, hhanded⟩ := parseValue_handed h
  cases hhanded with
  | @uint v c₂ c₃ hm hrest h =>
    obtain rfl : marker = .unsignedInteger v := hm
    obtain ⟨rfl, rfl, ⟨hv, rfl⟩ | ⟨t, ht, -⟩⟩ := dtnSsp_ok (verdict_ok.mp h).1
    · cases hv
      refine ⟨emitUint 0, ?_, .null⟩
      rw [← hrest]
      exact head_spells (Nat.zero_le 5) _ _ _ hhead
    · cases ht
  | @text t c₂ c₃ hm hrest hfits h =>
    obtain rfl : marker = .text (some t.length) := hm
    obtain ⟨rfl, rfl, ⟨hv, -⟩ | ⟨t', ht, hne, hparse⟩⟩ := dtnSsp_ok (verdict_ok.mp h).1
    · cases hv
    · cases ht
      obtain ⟨name, service, rfl, hparts, rfl⟩ := parseDtn_some hne hparse
      have hst := head_spells_st (show 3 ≤ 5 by decide) hhead
      have hhead := head_spells (show 3 ≤ 5 by decide) _ _ _ hhead
      refine ⟨emitString (dtnParts name service), ?_, .dtn hparts ?_⟩
      · rw [hhead, hrest, emitString, List.append_assoc]
      · dsimp only at hst hfits
        rw [emitString, List.length_append]
        omega
  | other hu ht ha h =>
    obtain ⟨-, -, ⟨hv, -⟩ | ⟨t, hv, -⟩⟩ := dtnSsp_ok (verdict_ok.mp h).1
    · exact absurd hv (hu 0)
    · exact absurd hv (ht t)
  | array hm h =>
    obtain ⟨n, ser, r, -, h, -⟩ := withSeries_ran h
    obtain ⟨-, -, ⟨hv, -⟩ | ⟨t, hv, -⟩⟩ := dtnSsp_ok (verdict_ok.mp h).1
    · cases hv
    · cases hv

theorem sspFromCbor_spelled {scheme n : Nat} {s : Series}
    {d : Bytes} {c : Cursor UInt8 Series} (hs : s.count = some n)
    (h : sspFromCbor scheme canonical ⟨s, d⟩ = .ok ((e, true), c)) :
    ∃ ssp, d = ssp ++ c.rest ∧ c.st.count = some n ∧ c.st.parsed = s.parsed + 1 ∧
      s.parsed < n ∧ Spelled e (emitArray [emitUint scheme, ssp]) := by
  rw [sspFromCbor.eq_def] at h
  split at h
  · cases h
  · obtain ⟨⟨len, h⟩, hst⟩ := item_ran hs (Scan.mapErr_ok.mp h)
    obtain ⟨ssp, hd, hspelled⟩ := dtnSsp_spelled h
    exact ⟨ssp, hd, hst.1, hst.2.1, hst.2.2, hspelled⟩
  · obtain ⟨⟨len, h⟩, hst⟩ := item_ran hs (Scan.mapErr_ok.mp h)
    obtain ⟨ssp, hd, hspelled⟩ := ipnSsp_spelled h
    exact ⟨ssp, hd, hst.1, hst.2.1, hst.2.2, hspelled⟩
  · obtain ⟨⟨u, data⟩, c₁, hitem, h⟩ := Scan.bind_ok h
    obtain ⟨ssp, c₂, hread, h⟩ := Scan.bind_ok h
    obtain ⟨he, rfl⟩ := Scan.pure_ok_iff.mp h
    obtain ⟨hssp, rfl⟩ := verdict_ok.mp hread
    have hdata := unknownSsp_yields _ _ _ hitem
    have hstep :=
      (item_walks Nat.one_pos (skipValue_resumes 16) (skipValue_starts 16)).stepwise
    obtain ⟨hitem, hd⟩ := (Scan.consumed_ok hstep).mp (Scan.mapErr_ok.mp hitem)
    obtain ⟨-, hst⟩ := item_ran hs hitem
    obtain rfl : data = ssp := Except.ok.inj (hdata.symm.trans hssp)
    cases he
    exact ⟨data, hd, hst.1, hst.2.1, hst.2.2, .unknown⟩

theorem fromCbor_spelled {c c' : Cursor UInt8 Nat}
    (h : fromCbor c = .ok ((e, true), c')) : ∃ u, c.rest = u ++ c'.rest ∧ Spelled e u := by
  obtain ⟨st, d⟩ := c
  obtain ⟨⟨⟨tags, marker⟩, s⟩, ⟨st₁, d₁⟩, hhead, h⟩ := Scan.bind_ok h
  dsimp only at h
  split at h
  · next count =>
      obtain ⟨n, ser, r, hcount, hbody, hend⟩ := withSeries_ran h
      rw [fields] at hbody
      split at hbody
      · cases hbody
      next hflags =>
      simp only [Bool.or_eq_true, Bool.not_eq_true', not_or, Bool.not_eq_false] at hflags
      obtain ⟨rfl, htags⟩ := hflags
      obtain rfl : tags = [] := List.isEmpty_iff.mp htags
      obtain ⟨definite, c₁, hlook, hbody⟩ := Scan.bind_ok hbody
      cases hlook
      obtain ⟨⟨scheme, t⟩, ⟨ser₁, d₂⟩, hscheme, hbody⟩ := Scan.bind_ok hbody
      cases t with
      | false => cases hbody
      | true =>
        have hcanonical := sspFromCbor_lowers _ _ _ _ _ hbody rfl
        cases count with
        | none =>
          cases hcount
          cases hcanonical
        | some k =>
          obtain rfl := itemCount_ok hcount
          obtain ⟨hd₁, hcount₁, hparsed₁, hlt₁⟩ :=
            item_spelled (u64_spells scheme).untagged rfl (Scan.mapErr_ok.mp hscheme)
          obtain ⟨ssp, hd₂, hcount₂, hparsed₂, hlt₂, hspelled⟩ :=
            sspFromCbor_spelled hcount₁ hbody
          obtain ⟨rfl, hle⟩ := hend _ hcount₂
          have hone : ser₁.parsed = 1 := hparsed₁
          have htwo : ser.parsed = ser₁.parsed + 1 := hparsed₂
          have hlt : ser₁.parsed < k := by simpa using hlt₂
          have hle : k ≤ ser.parsed := by simpa using hle
          obtain rfl : k = 2 := by omega
          dsimp only at hd₁ hd₂
          refine ⟨_, ?_, hspelled⟩
          have hhead := head_spells (show 4 ≤ 5 by decide) _ _ _ (lift_ok_iff.mp hhead)
          rw [hhead, hd₁, hd₂, emitArray_two, List.append_assoc, List.append_assoc]
  · cases h

/-! ## The spellings that are not the encoding -/

/-- A name that is not as the encoder writes it: with an escape that needs none or
in lower case, or with a reserved character that is not escaped. -/
def Respelled (name : Bytes) : Prop := Crates.percentEncode (Crates.percentDecode name) ≠ name

/-- The input begins with an EID that has another encoding. -/
inductive Alias : Bytes → Prop where
  /-- `ipn:0.0` -/
  | nullTwo (r : Bytes) :
      Alias (emitArray [emitUint 2, emitArray [emitUint 0, emitUint 0]] ++ r)
  /-- `ipn:0.0.0` -/
  | nullThree (r : Bytes) :
      Alias (emitArray [emitUint 2, emitArray [emitUint 0, emitUint 0, emitUint 0]] ++ r)
  /-- The local node with its allocator. -/
  | localNode {s : Nat} (hs : s ≤ u32Max) (r : Bytes) :
      Alias (emitArray [emitUint 2, emitArray [emitUint 0, emitUint u32Max, emitUint s]] ++ r)
  | name {name service : Bytes} (hparts : DtnParts name service)
      (hfits : (emitString (dtnParts name service)).length < wordSize)
      (hne : Respelled name) (r : Bytes) :
      Alias (emitArray [emitUint 1, emitString (dtnParts name service)] ++ r)

omit [Crates] in
theorem emitString_inj {s t : Bytes} (ht : (emitString t).length < wordSize)
    (h : emitString s = emitString t) : s = t := by
  have hlength : ∀ u : Bytes, u.length ≤ (emitString u).length := by
    intro u
    rw [emitString, List.length_append]
    omega
  have hs : s.length < wordSize := (hlength s).trans_lt (h ▸ ht)
  have hread := head_emit (show 3 ≤ 5 by decide) hs 0 s
  have hread' := head_emit (show 3 ≤ 5 by decide) ((hlength t).trans_lt ht) 0 t
  rw [emitString, emitString] at h
  rw [h, hread'] at hread
  exact (congrArg (fun p => p.2.rest) (Except.ok.inj hread)).symm

theorem Alias.reads {data : Bytes} (h : Alias data) : ∃ e u r, data = u ++ r ∧
    Reads fromCbor u (e, true) ∧ e.toCbor ≠ u := by
  have hu : u32Max < wordSize := by decide
  have hscheme : ∀ x y : Bytes, emitArray [emitUint 1, x] ≠ emitArray [emitUint 2, y] := by
    intro x y h
    cases h
  cases h with
  | nullTwo r =>
    exact ⟨.null, _, r, rfl, fields_reads (by decide)
      (sspFromCbor_ipn (ipnSsp_reads_two (by decide) (by decide) rfl)), hscheme _ _⟩
  | nullThree r =>
    exact ⟨.null, _, r, rfl, fields_reads (by decide)
      (sspFromCbor_ipn (ipnSsp_reads_three (by decide) (by decide) (by decide) rfl)),
      hscheme _ _⟩
  | @localNode s hs r =>
    have hparts : ofIpnParts 0 u32Max (some s) true = .ok (.localNode s, true) := by
      simp only [u32Max] at hs
      simp [ofIpnParts, u32Max, hs]
    refine ⟨.localNode s, _, r, rfl, fields_reads (by decide)
      (sspFromCbor_ipn (ipnSsp_reads_three (by decide) hu (by omega) hparts)), fun h => ?_⟩
    -- two numbers and three
    cases h
  | @name name service hparts hfits hne r =>
    have hascii : ∀ x ∈ dtnParts name service, x < 0x80 := by
      intro x hx
      simp only [dtnParts, List.mem_cons, List.mem_append] at hx
      rcases hx with rfl | rfl | hx | rfl | hx
      · decide
      · decide
      · exact isVchar_ascii (isVchar_of_isRegname (List.all_eq_true.mp hparts.regname x hx))
      · decide
      · exact isVchar_ascii (List.all_eq_true.mp hparts.service x hx)
    have hssp : dtnSsp true (.text (dtnParts name service)) true [] =
        .ok (.dtn (Crates.percentDecode name) service, true) := by
      have hnone : dtnParts name service ≠ noneText := by simp [dtnParts, noneText]
      simp [dtnSsp, hnone, hparts.parseDtn]
    refine ⟨.dtn (Crates.percentDecode name) service, _, r, rfl, fields_reads (by decide)
      (sspFromCbor_dtn (parseValue_reads_text hfits (validUtf8_of_ascii hascii) hssp)),
      fun h => hne ?_⟩
    rw [toCbor, emitArray_two, emitArray_two] at h
    have htext := emitString_inj hfits (List.append_cancel_left (List.append_cancel_left h))
    exact List.append_cancel_right (List.cons.inj (List.cons.inj htext).2).2

theorem Spelled.eq_or_alias {u : Bytes} (h : Spelled e u) : u = e.toCbor ∨ ∀ r, Alias (u ++ r) := by
  cases h with
  | null => exact .inl rfl
  | @dtn name service hparts hfits =>
    by_cases hne : Respelled name
    · exact .inr fun r => .name hparts hfits hne r
    · refine .inl ?_
      rw [Respelled, Decidable.not_not] at hne
      rw [toCbor, dtnText, hne, dtnParts]
  | @ipnTwo a b e hparts =>
    simp only [ofIpnParts] at hparts
    repeat' split at hparts
    all_goals cases hparts
    · next h0 =>
        obtain ⟨rfl, rfl⟩ := h0
        exact .inr .nullTwo
    · next hmax =>
        subst hmax
        exact .inl rfl
    · exact .inl rfl
    · refine .inl ?_
      rw [toCbor, Nat.div_add_mod']
  | @ipnThree a b s e hparts =>
    simp only [ofIpnParts] at hparts
    repeat' split at hparts
    all_goals cases hparts
    · next h0 =>
        obtain ⟨rfl, rfl, rfl⟩ := h0
        exact .inr .nullThree
    · next hs hlocal =>
        obtain ⟨rfl, rfl⟩ := hlocal
        exact .inr (.localNode (Nat.le_of_not_lt hs))
    · next h0 =>
        refine .inl ?_
        rw [toCbor, if_neg h0]
  | unknown => exact .inl rfl

/-- The flag is truthful but for the aliases. -/
theorem take_eq_toCbor_iff {data : Bytes} {e : Eid} {c : Cursor UInt8 Nat}
    (h : fromCbor ⟨0, data⟩ = .ok ((e, true), c)) :
    data.take c.st = e.toCbor ↔ ¬ Alias data := by
  obtain ⟨u, hu, hspelled⟩ := fromCbor_spelled h
  obtain ⟨v, hv, hst, -⟩ := fromCbor_resumes.stepwise.ok h
  dsimp only at hu
  obtain rfl : v = u := List.append_cancel_right (hv.symm.trans hu)
  simp only [id, Nat.zero_add] at hst
  have htake : data.take c.st = v := by rw [hu, hst, List.take_left' rfl]
  rw [htake]
  constructor
  · rintro heq halias
    obtain ⟨e', w, r, hw, hread, hne⟩ := halias.reads
    have hdata := hread r
    rw [← hw, h] at hdata
    cases hdata
    rw [hw] at hu
    exact hne (heq ▸ (List.append_cancel_right hu).symm)
  · intro halias
    rcases hspelled.eq_or_alias with heq | hall
    · exact heq
    · exact absurd (hu ▸ hall c.rest) halias

omit [Crates] in
/-- `ipn:1.1` in two numbers. -/
theorem take_eq_toCbor_two :
    ([0x82, 0x02, 0x82, 0x01, 0x01, 0x00] : Bytes).take 5 =
        @toCbor .reference (.ipn ⟨0, 1⟩ 1) ↔
      ¬ @Alias .reference [0x82, 0x02, 0x82, 0x01, 0x01, 0x00] :=
  @take_eq_toCbor_iff .reference [0x82, 0x02, 0x82, 0x01, 0x01, 0x00] (.ipn ⟨0, 1⟩ 1)
    ⟨5, [0x00]⟩ rfl

omit [Crates] in
/-- The service 7 of the local node, with the allocator. -/
theorem flag_not_truthful : ¬ ∀ data e c, @fromCbor .reference ⟨0, data⟩ = .ok ((e, true), c) →
    data.take c.st = @toCbor .reference e := by
  intro h
  have hparts : ofIpnParts 0 u32Max (some 7) true = .ok (.localNode 7, true) := rfl
  have hssp := ipnSsp_reads_three (by decide) (by decide) (by decide) hparts
  have hread := @fields_reads .reference 2 _ _ (by decide) (@sspFromCbor_ipn .reference _ _ hssp) []
  exact absurd (h _ _ _ hread) (by decide)

end Hardy.Eid
