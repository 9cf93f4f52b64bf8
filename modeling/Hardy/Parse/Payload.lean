import Hardy.Parse.Trailer

/-!
# The end of the payload block

The parser finishes a payload in one of two ways: in the buffer, or by the
state machine `PayloadTail` on the bytes that follow it.  Both accept the same
bytes (`Closes`), however these are cut into runs.
-/

namespace Hardy

open Cbor

variable [Crates]

/-- A payload body with its trailer and the break of the bundle, and nothing
after that. -/
def Closes (header : BlockHeader) (head d : Bytes) : Prop :=
  ∃ body v, body.length = header.dataEnd - header.dataStart ∧
    TrailerOk header.crcType header.isIndefinite (head ++ body) v ∧
    d = body ++ (trailerBytes header.crcType header.isIndefinite v ++ [0xFF])

/-! ## In the buffer -/

variable {header : BlockHeader} {c : Cursor UInt8 Nat}

theorem inlinePayload_ok {head d : Bytes} {st : Nat} :
    inlinePayload header head ⟨st, d⟩ = .ok ((), c) ↔
      ∃ body v, body.length = header.dataEnd - header.dataStart ∧
        TrailerOk header.crcType header.isIndefinite (head ++ body) v ∧
        d = body ++ (trailerBytes header.crcType header.isIndefinite v ++ 0xFF :: c.rest) ∧
        c.st = st + body.length + trailerByteLen header.crcType header.isIndefinite + 1 := by
  rw [inlinePayload, Scan.bind_ok_iff]
  constructor
  · rintro ⟨body, c₁, h₁, h₂⟩
    obtain ⟨hlen, v, hok, hd, hst⟩ := blockBody_ok.mp h₁
    obtain ⟨hd', hst'⟩ := breakByte_ok.mp h₂
    refine ⟨body, v, hlen, hok, ?_, ?_⟩
    · rw [hd, hd']
    · rw [hst', hst]
  · rintro ⟨body, v, hlen, hok, hd, hst⟩
    exact ⟨body, ⟨_, 0xFF :: c.rest⟩, blockBody_ok.mpr ⟨hlen, v, hok, hd, rfl⟩,
      breakByte_ok.mpr ⟨rfl, hst⟩⟩

omit [Crates] in
theorem atBundleEnd_ok {c c' : Cursor UInt8 Nat} :
    atBundleEnd c = .ok ((), c') ↔ c.rest = [] ∧ c' = c := by
  rw [atBundleEnd]
  cases hr : c.rest with
  | nil => exact ⟨fun h => (by cases h; exact ⟨rfl, rfl⟩), fun h => by rw [h.2]; rfl⟩
  | cons b r => exact ⟨nofun, fun h => (by cases h.1)⟩

/-! ## In the tail -/

namespace PayloadTail

/-- `v` is the value of a checksum field, for a digest that is still to be fed
with `before` and, after the field, with `after`. -/
def Checks (digest : Option Digest) (before after v : Bytes) : Prop :=
  ∀ d, digest = some d → v = (((d.push before).pushZeros).push after).finalize

/-- What a tail in the middle of the body accepts if the rest of the body is
`body`. -/
def AcceptsBody (t : PayloadTail) (body e : Bytes) : Prop :=
  ∃ v, (if t.crcType = .none then v = []
      else v.length = t.crcType.valueLen ∧
        Checks t.digest (body ++ [t.crcType.headByte]) (breakBytes t.isIndefinite) v) ∧
    e = body ++ (trailerBytes t.crcType t.isIndefinite v ++ [0xFF])

def Accepts (t : PayloadTail) (e : Bytes) : Prop :=
  match t.phase with
  | .body => ∃ body, body.length = t.bodyRemaining ∧ t.AcceptsBody body e
  | .crcHead => t.AcceptsBody [] e
  | .crcValue => ∃ v, (t.crcValue ++ v).length = t.crcType.valueLen ∧
      (∀ d : Digest, t.digest = some d →
        t.crcValue ++ v = (d.push (breakBytes t.isIndefinite)).finalize) ∧
      e = v ++ (breakBytes t.isIndefinite ++ [0xFF])
  | .blockBreak => (∀ d : Digest, t.digest = some d → t.crcValue = (d.push [0xFF]).finalize) ∧
      e = [0xFF, 0xFF]
  | .outerBreak => e = [0xFF]
  | .done => e = []

structure Sound (t : PayloadTail) : Prop where
  digest_none : t.crcType = .none → t.digest = none
  valueLen_pos : t.crcType ≠ .none → 0 < t.crcType.valueLen
  body_pos : t.phase = .body → 0 < t.bodyRemaining
  crcHead : t.phase = .crcHead → t.crcType ≠ .none
  crcValue_nil : t.phase = .body ∨ t.phase = .crcHead → t.crcValue = []
  crcValue_lt : t.phase = .crcValue → t.crcValue.length < t.crcType.valueLen

variable {t : PayloadTail}

theorem Sound.late (hd : t.crcType = .none → t.digest = none)
    (hv : t.crcType ≠ .none → 0 < t.crcType.valueLen)
    (hp : t.phase = .blockBreak ∨ t.phase = .outerBreak ∨ t.phase = .done) : t.Sound := by
  rcases hp with hp | hp | hp <;> exact ⟨hd, hv, by simp [hp], by simp [hp], by simp [hp], by simp [hp]⟩

theorem verifyCrc_ok {t t' : PayloadTail} (h : t.verifyCrc = .ok t') :
    (∀ d : Digest, t.digest = some d → t.crcValue = d.finalize) ∧
      t' = { t with digest := none } := by
  unfold verifyCrc at h
  cases hd : t.digest with
  | none =>
    rw [hd] at h
    cases h
    exact ⟨nofun, by rw [← hd]⟩
  | some d =>
    rw [hd] at h
    simp only [Digest.verify, decide_eq_true_eq] at h
    split at h
    · next hv =>
        cases h
        refine ⟨fun d' h' => ?_, rfl⟩
        cases h'
        exact hv
    · cases h

theorem verifyCrc_error {x : Error} (h : t.verifyCrc = .error x) :
    ∃ d : Digest, t.digest = some d ∧ t.crcValue ≠ d.finalize := by
  unfold verifyCrc at h
  cases hd : t.digest with
  | none =>
    rw [hd] at h
    cases h
  | some d =>
    rw [hd] at h
    simp only [Digest.verify, decide_eq_true_eq] at h
    split at h
    · cases h
    · next hv => exact ⟨d, rfl, hv⟩

theorem acceptsBody_feed (t : PayloadTail) (p body e : Bytes) :
    t.AcceptsBody (p ++ body) (p ++ e) ↔ (t.feed p).AcceptsBody body e := by
  have hchecks : ∀ v, Checks t.digest (p ++ (body ++ [t.crcType.headByte]))
      (breakBytes t.isIndefinite) v ↔ Checks (t.feed p).digest (body ++ [t.crcType.headByte])
        (breakBytes t.isIndefinite) v := by
    intro v
    cases hd : t.digest with
    | none => simp [Checks, feed, hd]
    | some d => simp [Checks, feed, hd, Digest.push_append]
  simp only [AcceptsBody, List.append_assoc, hchecks, List.append_cancel_left_eq]
  rfl

theorem enterAfterBody_ok (hd : t.crcType = .none → t.digest = none)
    (hv : t.crcType ≠ .none → 0 < t.crcType.valueLen) (hp : t.crcValue = []) :
    ∃ t', t.enterAfterBody = .ok t' ∧ t'.Sound ∧ ∀ e, t.AcceptsBody [] e ↔ t'.Accepts e := by
  obtain ⟨digest, crcType, isIndefinite, phase, bodyRemaining, remaining, crcValue⟩ := t
  obtain rfl : crcValue = [] := hp
  by_cases hn : crcType = .none
  · subst hn
    obtain rfl : digest = none := hd rfl
    cases isIndefinite with
    | false =>
      refine ⟨_, rfl, .late (fun _ => rfl) hv (.inr (.inl rfl)), ?_⟩
      simp [afterBody, AcceptsBody, Accepts, trailerBytes, breakBytes]
    | true =>
      refine ⟨_, rfl, .late (fun _ => rfl) hv (.inl rfl), ?_⟩
      simp [afterBody, AcceptsBody, Accepts, trailerBytes, breakBytes]
  · have hphase : afterBody crcType isIndefinite = .crcHead := if_pos hn
    refine ⟨⟨digest, crcType, isIndefinite, .crcHead, bodyRemaining, remaining, []⟩, ?_,
      ⟨hd, hv, ?_, fun _ => hn, fun _ => rfl, ?_⟩, fun e => Iff.rfl⟩
    · simp [enterAfterBody, hphase]
    · simp
    · simp

/-- What a turn that was given `d` has done. -/
def Takes (t : PayloadTail) (d : Bytes) : Except Error (PayloadTail × Nat) → Prop
  | .error _ => ∀ e, ¬ t.Accepts (d ++ e)
  | .ok (t', n) => t'.Sound ∧ 0 < n ∧ ∀ e, t.Accepts (d ++ e) ↔ t'.Accepts (d.drop n ++ e)

theorem accepts_run (hp : t.phase = .body) {p : Bytes}
    (hlen : p.length ≤ t.bodyRemaining) (e : Bytes) :
    t.Accepts (p ++ e) ↔ ∃ body, body.length = t.bodyRemaining - p.length ∧
      (t.feed p).AcceptsBody body e := by
  simp only [Accepts, hp]
  constructor
  · rintro ⟨body, hb, h⟩
    obtain ⟨body', rfl⟩ : ∃ body', body = p ++ body' := by
      obtain ⟨v, -, he⟩ := h
      exact List.prefix_of_prefix_length_le (List.prefix_append p e)
        (he ▸ List.prefix_append body _) (by omega) |>.imp fun _ h => h.symm
    rw [List.length_append] at hb
    exact ⟨body', by omega, (acceptsBody_feed t p body' e).mp h⟩
  · rintro ⟨body, hb, h⟩
    exact ⟨p ++ body, by rw [List.length_append]; omega, (acceptsBody_feed t p body e).mpr h⟩

theorem turn_body (hs : t.Sound) (hp : t.phase = .body) (b : UInt8)
    (rest : Bytes) : Takes t (b :: rest) (t.turn b rest) := by
  have hpos := hs.body_pos hp
  have hnil := hs.crcValue_nil (.inl hp)
  obtain ⟨n, hn⟩ : ∃ n, n = min t.bodyRemaining (rest.length + 1) := ⟨_, rfl⟩
  have hrun : ((b :: rest).take n).length = n :=
    List.length_take_of_le (by rw [List.length_cons]; omega)
  have hturn : ∀ e, t.Accepts (b :: rest ++ e) ↔ ∃ body, body.length = t.bodyRemaining - n ∧
      (t.feed ((b :: rest).take n)).AcceptsBody body ((b :: rest).drop n ++ e) := by
    intro e
    have := accepts_run hp (p := (b :: rest).take n) (by omega) ((b :: rest).drop n ++ e)
    rwa [← List.append_assoc, List.take_append_drop, hrun] at this
  obtain ⟨u, hu⟩ : ∃ u : PayloadTail, u = { t.feed ((b :: rest).take n) with
    bodyRemaining := t.bodyRemaining - n } := ⟨_, rfl⟩
  have hud : u.crcType = .none → u.digest = none := by
    subst hu
    exact fun h => by simp [feed, hs.digest_none h]
  have huv : u.crcType ≠ .none → 0 < u.crcType.valueLen := by
    subst hu
    exact hs.valueLen_pos
  have heq : t.turn b rest =
      if u.bodyRemaining = 0 then u.enterAfterBody >>= fun t => .ok (t, n) else .ok (u, n) := by
    subst hu hn
    simp only [turn, hp]
    rfl
  rw [heq]
  by_cases hzero : u.bodyRemaining = 0
  · -- the body ends in this run
    obtain ⟨t', ht', hsound, hacc⟩ := enterAfterBody_ok hud huv (by subst hu; exact hnil)
    rw [if_pos hzero, ht']
    refine ⟨hsound, by omega, fun e => ?_⟩
    rw [hturn, ← hacc]
    subst hu
    constructor
    · rintro ⟨body, hb, h⟩
      obtain rfl : body = [] := List.length_eq_zero_iff.mp (hb.trans hzero)
      exact h
    · exact fun h => ⟨[], hzero.symm, h⟩
  · rw [if_neg hzero]
    refine ⟨⟨hud, huv, fun _ => Nat.pos_of_ne_zero hzero, ?_, ?_, ?_⟩, by omega, fun e => ?_⟩
    · subst hu
      exact hs.crcHead
    · subst hu
      exact hs.crcValue_nil
    · subst hu
      exact hs.crcValue_lt
    · rw [hturn, Accepts]
      subst hu
      simp only [feed, hp]
      rfl

theorem turn_crcHead (hs : t.Sound) (hp : t.phase = .crcHead) (b : UInt8)
    (rest : Bytes) : Takes t (b :: rest) (t.turn b rest) := by
  have hn := hs.crcHead hp
  have hnil := hs.crcValue_nil (.inr hp)
  have hturn : ∀ e, t.Accepts (b :: rest ++ e) ↔ b = t.crcType.headByte ∧
      ∃ v, v.length = t.crcType.valueLen ∧
        Checks t.digest [t.crcType.headByte] (breakBytes t.isIndefinite) v ∧
        rest ++ e = v ++ (breakBytes t.isIndefinite ++ [0xFF]) := by
    intro e
    simp only [Accepts, hp, AcceptsBody, hn, if_false, trailerBytes, List.nil_append,
      List.cons_append, List.cons.injEq, List.append_assoc]
    constructor
    · rintro ⟨v, ⟨hv, hc⟩, hb, he⟩
      exact ⟨hb, v, hv, hc, he⟩
    · rintro ⟨hb, v, hv, hc, he⟩
      exact ⟨v, ⟨hv, hc⟩, hb, he⟩
  by_cases hb : b = t.crcType.headByte
  · have heq : t.turn b rest = .ok ({ t with
        digest := t.digest.map fun d : Digest => (d.push [b]).pushZeros
        phase := .crcValue }, 1) := by
      simp only [turn, hp]
      rw [if_neg (not_not_intro hb)]
    rw [heq]
    refine ⟨⟨fun h => by simp [hs.digest_none h], hs.valueLen_pos, ?_, ?_, ?_, ?_⟩, Nat.one_pos,
      fun e => ?_⟩
    · simp
    · simp
    · simp
    · exact fun _ => by simpa [hnil] using hs.valueLen_pos hn
    · rw [hturn]
      simp only [Accepts, hnil, List.nil_append, List.drop_succ_cons, List.drop_zero]
      constructor
      · rintro ⟨-, v, hv, hc, he⟩
        refine ⟨v, hv, fun d hd => ?_, he⟩
        obtain ⟨d', hd', rfl⟩ := Option.map_eq_some_iff.mp hd
        rw [hb]
        exact hc d' hd'
      · rintro ⟨v, hv, hc, he⟩
        refine ⟨hb, v, hv, fun d hd => ?_, he⟩
        rw [← hb]
        exact hc _ (by rw [hd]; rfl)
  · have heq : t.turn b rest = .error .notCanonical := by
      simp only [turn, hp]
      rw [if_pos hb]
    rw [heq]
    exact fun e h => hb ((hturn e).mp h).1

theorem accepts_value (hp : t.phase = .crcValue) {p : Bytes}
    (hlen : t.crcValue.length + p.length ≤ t.crcType.valueLen) (e : Bytes) :
    t.Accepts (p ++ e) ↔ { t with crcValue := t.crcValue ++ p }.Accepts e := by
  simp only [Accepts, hp]
  constructor
  · rintro ⟨v, hv, hc, he⟩
    obtain ⟨v', rfl⟩ : ∃ v', v = p ++ v' := by
      rw [List.length_append] at hv
      exact List.prefix_of_prefix_length_le (List.prefix_append p e)
        (he ▸ List.prefix_append v _) (by omega) |>.imp fun _ h => h.symm
    rw [← List.append_assoc] at hv hc
    rw [List.append_assoc, List.append_cancel_left_eq] at he
    exact ⟨v', hv, hc, he⟩
  · rintro ⟨v, hv, hc, he⟩
    rw [List.append_assoc] at hv hc
    exact ⟨p ++ v, hv, hc, by rw [he, List.append_assoc]⟩

theorem turn_crcValue (hs : t.Sound) (hp : t.phase = .crcValue) (b : UInt8)
    (rest : Bytes) : Takes t (b :: rest) (t.turn b rest) := by
  have hlt := hs.crcValue_lt hp
  obtain ⟨n, hn⟩ : ∃ n, n = min (t.crcType.valueLen - t.crcValue.length) (rest.length + 1) :=
    ⟨_, rfl⟩
  have hrun : ((b :: rest).take n).length = n :=
    List.length_take_of_le (by rw [List.length_cons]; omega)
  obtain ⟨u, hu⟩ : ∃ u : PayloadTail, u = { t with
    crcValue := t.crcValue ++ (b :: rest).take n } := ⟨_, rfl⟩
  have hturn : ∀ e, t.Accepts (b :: rest ++ e) ↔ u.Accepts ((b :: rest).drop n ++ e) := by
    intro e
    rw [hu, ← accepts_value hp (by omega), ← List.append_assoc, List.take_append_drop]
  have hup : u.phase = .crcValue := by rw [hu, ← hp]
  have hud : u.crcType = .none → u.digest = none := by
    subst hu
    exact hs.digest_none
  have huv : u.crcType ≠ .none → 0 < u.crcType.valueLen := by
    subst hu
    exact hs.valueLen_pos
  have hule : u.crcValue.length ≤ u.crcType.valueLen := by
    subst hu
    simp only [List.length_append, hrun]
    omega
  have heq : t.turn b rest =
      if u.crcValue.length = u.crcType.valueLen then
        if u.isIndefinite then .ok ({ u with phase := .blockBreak }, n)
        else u.verifyCrc >>= fun t => .ok ({ t with phase := .outerBreak }, n)
      else .ok (u, n) := by
    subst hu hn
    simp only [turn, hp]
    rfl
  -- once the value is complete only its comparison and the breaks are left
  have hfull : u.crcValue.length = u.crcType.valueLen → ∀ e, u.Accepts e ↔
      (∀ d : Digest, u.digest = some d →
        u.crcValue = (d.push (breakBytes u.isIndefinite)).finalize) ∧
        e = breakBytes u.isIndefinite ++ [0xFF] := by
    intro hfull e
    simp only [Accepts, hup]
    constructor
    · rintro ⟨v, hv, hc, he⟩
      rw [List.length_append] at hv
      obtain rfl : v = [] := List.length_eq_zero_iff.mp (by omega)
      rw [List.append_nil] at hc
      exact ⟨hc, he⟩
    · rintro ⟨hc, he⟩
      exact ⟨[], by rw [List.append_nil, hfull], by rwa [List.append_nil], he⟩
  rw [heq]
  split
  · next hlen =>
      cases hi : u.isIndefinite with
      | true =>
        refine ⟨.late hud huv (.inl rfl), by omega, fun e => ?_⟩
        rw [hturn, hfull hlen, hi]
        rfl
      | false =>
        simp only [Bool.false_eq_true, if_false]
        simp only [hi, breakBytes, Bool.false_eq_true, if_false, Digest.push_nil,
          List.nil_append] at hfull
        cases hv : u.verifyCrc with
        | error x =>
          obtain ⟨d, hd, hne⟩ := verifyCrc_error hv
          exact fun e h => hne (((hfull hlen _).mp ((hturn e).mp h)).1 d hd)
        | ok t' =>
          obtain ⟨hc, rfl⟩ := verifyCrc_ok hv
          refine ⟨.late (fun _ => rfl) huv (.inr (.inl rfl)), by omega, fun e => ?_⟩
          rw [hturn, hfull hlen]
          exact ⟨fun h => h.2, fun h => ⟨hc, h⟩⟩
  · next hlen =>
      refine ⟨⟨hud, huv, ?_, ?_, ?_, fun _ => by omega⟩, by omega, hturn⟩
      · simp [hup]
      · simp [hup]
      · simp [hup]

theorem turn_blockBreak (hs : t.Sound) (hp : t.phase = .blockBreak) (b : UInt8)
    (rest : Bytes) : Takes t (b :: rest) (t.turn b rest) := by
  by_cases hb : b = 0xFF
  · have heq : t.turn b rest = (t.feed [0xFF]).verifyCrc >>= fun t =>
        .ok ({ t with phase := .outerBreak }, 1) := by
      simp only [turn, hp]
      rw [if_neg (not_not_intro hb)]
    have hturn : ∀ e, t.Accepts (b :: rest ++ e) ↔
        (∀ d : Digest, (t.feed [0xFF]).digest = some d → (t.feed [0xFF]).crcValue = d.finalize) ∧
          rest ++ e = [0xFF] := by
      intro e
      simp only [Accepts, hp, hb, feed, Option.map_eq_some_iff]
      constructor
      · rintro ⟨hc, he⟩
        refine ⟨?_, (List.cons.inj he).2⟩
        rintro d ⟨d', hd', rfl⟩
        exact hc d' hd'
      · rintro ⟨hc, he⟩
        exact ⟨fun d hd => hc _ ⟨d, hd, rfl⟩, congrArg (0xFF :: ·) he⟩
    rw [heq]
    cases hv : (t.feed [0xFF]).verifyCrc with
    | error x =>
      obtain ⟨d, hd, hne⟩ := verifyCrc_error hv
      exact fun e h => hne (((hturn e).mp h).1 d hd)
    | ok t' =>
      obtain ⟨hc, rfl⟩ := verifyCrc_ok hv
      refine ⟨.late (fun _ => rfl) hs.valueLen_pos (.inr (.inl rfl)), Nat.one_pos, fun e => ?_⟩
      rw [hturn]
      exact ⟨fun h => h.2, fun h => ⟨hc, h⟩⟩
  · have heq : t.turn b rest = .error .notCanonical := by
      simp only [turn, hp]
      rw [if_pos hb]
    rw [heq]
    intro e h
    simp only [Accepts, hp] at h
    exact hb (List.cons.inj h.2).1

theorem turn_outerBreak (hs : t.Sound) (hp : t.phase = .outerBreak) (b : UInt8)
    (rest : Bytes) : Takes t (b :: rest) (t.turn b rest) := by
  by_cases hb : b = 0xFF
  · have heq : t.turn b rest = .ok ({ t with phase := .done }, 1) := by
      simp only [turn, hp]
      rw [if_neg (not_not_intro hb)]
    rw [heq]
    refine ⟨.late hs.digest_none hs.valueLen_pos (.inr (.inr rfl)), Nat.one_pos, fun e => ?_⟩
    simp [Accepts, hp, hb]
  · have heq : t.turn b rest = .error .notCanonical := by
      simp only [turn, hp]
      rw [if_pos hb]
    rw [heq]
    intro e h
    simp only [Accepts, hp] at h
    exact hb (List.cons.inj h).1

theorem turn_takes (hs : t.Sound) (b : UInt8) (rest : Bytes) :
    Takes t (b :: rest) (t.turn b rest) := by
  cases hp : t.phase with
  | body => exact turn_body hs hp b rest
  | crcHead => exact turn_crcHead hs hp b rest
  | crcValue => exact turn_crcValue hs hp b rest
  | blockBreak => exact turn_blockBreak hs hp b rest
  | outerBreak => exact turn_outerBreak hs hp b rest
  | done =>
    have heq : t.turn b rest = .error .additionalData := by
      simp only [turn, hp]
    rw [heq]
    intro e h
    simp only [Accepts, hp] at h
    cases h

def Took (t : PayloadTail) (d : Bytes) : Except Error PayloadTail → Prop
  | .error _ => ∀ e, ¬ t.Accepts (d ++ e)
  | .ok t' => t'.Sound ∧ ∀ e, t.Accepts (d ++ e) ↔ t'.Accepts e

theorem turns_took (hs : t.Sound) {fuel : Nat} {d : Bytes}
    (hf : d.length ≤ fuel) : Took t d (turns fuel t d) := by
  induction fuel generalizing t d with
  | zero =>
    obtain rfl : d = [] := List.length_eq_zero_iff.mp (Nat.le_zero.mp hf)
    exact ⟨hs, fun e => Iff.rfl⟩
  | succ fuel ih =>
    cases d with
    | nil => exact ⟨hs, fun e => Iff.rfl⟩
    | cons b rest =>
      have hturn := turn_takes hs b rest
      rw [turns]
      rcases hr : t.turn b rest with x | ⟨u, n⟩
      · rw [hr] at hturn
        exact hturn
      · rw [hr] at hturn
        obtain ⟨hu, hpos, hacc⟩ := hturn
        have hdrop : ((b :: rest).drop n).length ≤ fuel := by
          rw [List.length_drop]
          rw [List.length_cons] at hf ⊢
          omega
        have hrest := ih hu hdrop
        show Took t (b :: rest) (turns fuel u ((b :: rest).drop n))
        cases hrun : turns fuel u ((b :: rest).drop n) with
        | error x =>
          rw [hrun] at hrest
          exact fun e h => hrest e ((hacc e).mp h)
        | ok t' =>
          rw [hrun] at hrest
          exact ⟨hrest.1, fun e => (hacc e).trans (hrest.2 e)⟩

theorem accepts_nil : t.Accepts [] ↔ t.phase = .done := by
  have htail : ∀ (a b : Bytes) (x : UInt8), [] ≠ a ++ (b ++ [x]) := by simp
  rw [Accepts]
  cases hp : t.phase with
  | body => exact ⟨fun ⟨_, _, _, _, h⟩ => absurd h (htail _ _ _), nofun⟩
  | crcHead => exact ⟨fun ⟨_, _, h⟩ => absurd h (htail _ _ _), nofun⟩
  | crcValue => exact ⟨fun ⟨_, _, _, h⟩ => absurd h (htail _ _ _), nofun⟩
  | blockBreak => exact ⟨fun h => (by cases h.2), nofun⟩
  | outerBreak => exact ⟨nofun, nofun⟩
  | done => exact ⟨fun _ => rfl, fun _ => rfl⟩

theorem push_ok {t t' : PayloadTail} (hs : t.Sound) {d : Bytes} {isDone : Bool}
    (h : t.push d = .ok (isDone, t')) :
    t'.Sound ∧ (isDone = true ↔ t'.Accepts []) ∧ ∀ e, t.Accepts (d ++ e) ↔ t'.Accepts e := by
  have htook := turns_took hs (Nat.le_refl d.length)
  rw [push] at h
  cases hr : turns d.length t d with
  | error x => rw [hr] at h; cases h
  | ok u =>
    rw [hr] at h htook
    obtain ⟨⟨h₁, h₂, h₃, h₄, h₅, h₆⟩, hacc⟩ := htook
    cases h
    have hs' : PayloadTail.Sound { u with remaining := u.remaining - d.length } :=
      ⟨h₁, h₂, h₃, h₄, h₅, h₆⟩
    refine ⟨hs', ?_, hacc⟩
    rw [accepts_nil, decide_eq_true_eq]

theorem push_error (hs : t.Sound) {d : Bytes} {x : Error}
    (h : t.push d = .error x) (e : Bytes) : ¬ t.Accepts (d ++ e) := by
  have htook := turns_took hs (Nat.le_refl d.length)
  rw [push] at h
  cases hr : turns d.length t d with
  | error y =>
    rw [hr] at htook
    exact htook e
  | ok u => rw [hr] at h; cases h

end PayloadTail

theorem trailerOk_checks {crcType : CrcType} {d : Digest} (hd : Digest.new crcType = .ok d)
    (isIndefinite : Bool) (a b v : Bytes) :
    TrailerOk crcType isIndefinite (a ++ b) v ↔ v.length = crcType.valueLen ∧
      PayloadTail.Checks (some (d.push a)) (b ++ [crcType.headByte]) (breakBytes isIndefinite) v := by
  obtain ⟨-, hn, hw, -⟩ := Digest.new_ok hd
  have hvalue : crcValue crcType (a ++ b ++ [crcType.headByte]) (breakBytes isIndefinite) =
      .ok ((((d.push a).push (b ++ [crcType.headByte])).pushZeros).push
        (breakBytes isIndefinite)).finalize := by
    rw [crcValue, hd, List.append_assoc, ← Digest.push_append]
    rfl
  unfold TrailerOk
  rw [if_neg hn, hvalue]
  constructor
  · intro h
    cases h
    refine ⟨?_, fun d' h' => ?_⟩
    · rw [Digest.length_finalize, Digest.width_push, Digest.width_pushZeros, Digest.width_push,
        Digest.width_push, hw]
    · cases h'
      rfl
  · exact fun h => congrArg _ (h.2 _ rfl).symm

theorem closes_append {head p : Bytes}
    (hlt : p.length ≤ header.dataEnd - header.dataStart) (e : Bytes) :
    Closes header head (p ++ e) ↔ ∃ body v,
      body.length = header.dataEnd - header.dataStart - p.length ∧
      TrailerOk header.crcType header.isIndefinite (head ++ p ++ body) v ∧
      e = body ++ (trailerBytes header.crcType header.isIndefinite v ++ [0xFF]) := by
  constructor
  · rintro ⟨body, v, hlen, hok, he⟩
    obtain ⟨body', rfl⟩ : ∃ body', body = p ++ body' :=
      List.prefix_of_prefix_length_le (List.prefix_append p e)
        (he ▸ List.prefix_append body _) (by omega) |>.imp fun _ h => h.symm
    rw [List.append_assoc, List.append_cancel_left_eq] at he
    rw [List.length_append] at hlen
    exact ⟨body', v, by omega, by rwa [List.append_assoc], he⟩
  · rintro ⟨body, v, hlen, hok, he⟩
    refine ⟨p ++ body, v, by rw [List.length_append]; omega, ?_, by rw [he, List.append_assoc]⟩
    rwa [← List.append_assoc]

theorem payloadTail_ok {head : Bytes} {start : Nat} {tail : PayloadTail}
    (h : payloadTail header head start c = .ok tail)
    (hlt : c.rest.length < header.dataEnd - header.dataStart) :
    tail.Sound ∧ ∀ e, tail.Accepts e ↔ Closes header head (c.rest ++ e) := by
  have hphase : 0 < header.dataEnd - header.dataStart - c.rest.length := by omega
  rw [payloadTail] at h
  simp only [closes_append (Nat.le_of_lt hlt), PayloadTail.Accepts, PayloadTail.AcceptsBody]
  by_cases hn : header.crcType = .none
  · rw [if_pos hn] at h
    cases h
    simp only [PayloadTail.new, if_pos hphase, hn, if_true, TrailerOk]
    refine ⟨⟨fun _ => rfl, fun h => absurd rfl h, fun _ => hphase, ?_, fun _ => rfl, ?_⟩, ?_⟩
    · simp
    · simp
    · intro e
      constructor
      · rintro ⟨body, hlen, v, hv, he⟩
        exact ⟨body, v, hlen, hv, he⟩
      · rintro ⟨body, v, hlen, hv, he⟩
        exact ⟨body, hlen, v, hv, he⟩
  · rw [if_neg hn] at h
    cases hd : Digest.new header.crcType with
    | error x => rw [hd] at h; cases h
    | ok d =>
      obtain ⟨hr, -, -, -⟩ := Digest.new_ok hd
      rw [hd] at h
      cases h
      simp only [PayloadTail.new, if_pos hphase, hn, if_false]
      refine ⟨⟨fun h => absurd h hn, fun _ => ?_, fun _ => hphase, ?_, fun _ => rfl, ?_⟩, ?_⟩
      · cases ht : header.crcType <;> simp_all [CrcType.valueLen, CrcType.isRecognised]
      · simp
      · simp
      · intro e
        simp only [trailerOk_checks hd]
        constructor
        · rintro ⟨body, hlen, v, hv, he⟩
          exact ⟨body, v, hlen, hv, he⟩
        · rintro ⟨body, v, hlen, hv, he⟩
          exact ⟨body, hlen, v, hv, he⟩

theorem payloadTail_error {head : Bytes} {start : Nat} {x : Error}
    (h : payloadTail header head start c = .error x) (d : Bytes) :
    ¬ Closes header head d := by
  rintro ⟨body, v, -, hok, -⟩
  rw [payloadTail] at h
  unfold TrailerOk at hok
  by_cases hn : header.crcType = .none
  · rw [if_pos hn] at h
    cases h
  · rw [if_neg hn] at h hok
    cases hd : Digest.new header.crcType with
    | error y =>
      rw [crcValue, hd] at hok
      cases hok
    | ok d => rw [hd] at h; cases h

theorem wholePayload_ok {w : Walk} {bundle : Bundle} {start st : Nat}
    {head d : Bytes} {o : Outcome} :
    wholePayload w bundle start header head ⟨st, d⟩ = .ok (o, c) ↔
      Closes header head d ∧ o = .done (w.finished bundle header start) ∧
        c = ⟨st + d.length, []⟩ := by
  rw [wholePayload, Scan.bind_ok_iff]
  constructor
  · rintro ⟨u, c₁, h₁, h₂⟩
    obtain ⟨u', c₂, h₃, h₄⟩ := Scan.bind_ok h₂
    obtain ⟨rfl, rfl⟩ := Scan.pure_ok_iff.mp h₄
    obtain ⟨hrest, rfl⟩ := atBundleEnd_ok.mp h₃
    obtain ⟨body, v, hlen, hok, hd, hst⟩ := inlinePayload_ok.mp h₁
    obtain ⟨cst, rest⟩ := c
    obtain rfl : rest = [] := hrest
    refine ⟨⟨body, v, hlen, hok, hd⟩, rfl, ?_⟩
    obtain rfl : cst = _ := hst
    rw [hd, List.length_append, List.length_append, length_trailerBytes hok]
    simp only [List.length_cons, List.length_nil]
    congr 1
    omega
  · rintro ⟨⟨body, v, hlen, hok, hd⟩, rfl, rfl⟩
    refine ⟨(), ⟨st + d.length, []⟩, inlinePayload_ok.mpr ⟨body, v, hlen, hok, hd, ?_⟩, ?_⟩
    · rw [hd, List.length_append, List.length_append, length_trailerBytes hok]
      simp only [List.length_cons, List.length_nil]
      omega
    · exact Scan.bind_ok_iff.mpr ⟨(), _, atBundleEnd_ok.mpr ⟨rfl, rfl⟩,
        Scan.pure_ok_iff.mpr ⟨rfl, rfl⟩⟩

end Hardy
