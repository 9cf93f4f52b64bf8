import Hardy.Parse.Index

/-!
# What the parser accepts

A bundle is accepted when rounds lead to its payload block and the payload
block closes it (`Completes`).  This does not mention the chunk size, and it
says what each outcome of a round means for longer input.
-/

namespace Hardy

open Cbor Bpsec

variable [Crates]

/-- The payload block is next, and nothing comes after it. -/
structure PayloadAt (w : Walk) (c : Cursor UInt8 Nat) (f : Finished) : Prop where
  intro ::
  exists_payload : ∃ bundle header head c₁, w.state = .blocks bundle ∧
    blockHead w bundle c = .ok ((header, head), c₁) ∧ header.blockType = .payload ∧
    Closes header head c₁.rest ∧ f = w.finished bundle header c.st

variable {header : BlockHeader}

theorem Closes.length {head d : Bytes} (h : Closes header head d) :
    d.length = header.dataEnd - header.dataStart +
      trailerByteLen header.crcType header.isIndefinite + 1 := by
  obtain ⟨body, v, hlen, hok, rfl⟩ := h
  simp only [List.length_append, length_trailerBytes hok, hlen, List.length_cons, List.length_nil]
  omega

variable {w : Walk} {n : Nat} {f : Finished}

theorem parsePayload_done {bundle : Bundle} {start : Nat} {head : Bytes} {c c' : Cursor UInt8 Nat} :
    parsePayload n w bundle start header head c = .ok (.done f, c') ↔
      Closes header head c.rest ∧ f = w.finished bundle header start ∧
        c' = ⟨c.st + c.rest.length, []⟩ := by
  rw [parsePayload]
  by_cases ho : oversized n header c = true
  · rw [if_pos ho]
    constructor
    · intro h
      split at h <;> cases h
    · rintro ⟨hc, -, -⟩
      -- a payload that closes the bundle is not oversized
      have hlen := hc.length
      simp only [oversized, Bool.and_eq_true, decide_eq_true_eq] at ho
      omega
  · rw [if_neg ho]
    constructor
    · intro h
      obtain ⟨hc, ho, hst⟩ := wholePayload_ok.mp h
      cases ho
      exact ⟨hc, rfl, hst⟩
    · rintro ⟨hc, rfl, hst⟩
      exact wholePayload_ok.mpr ⟨hc, rfl, hst⟩

variable [HashOrder]

variable {c : Cursor UInt8 Nat}

theorem round_done : (∃ c', round n w c = .ok (.inr (.done f), c')) ↔ PayloadAt w c f := by
  constructor
  · rintro ⟨c', h⟩
    obtain ⟨bundle, header, head, c₁, hw, hh, ht, hp⟩ := round_inr.mp h
    obtain ⟨hc, rfl, -⟩ := parsePayload_done.mp hp
    exact ⟨bundle, header, head, c₁, hw, hh, ht, hc, rfl⟩
  · rintro ⟨bundle, header, head, c₁, hw, hh, ht, hc, rfl⟩
    exact ⟨_, round_inr.mpr ⟨bundle, header, head, c₁, hw, hh, ht,
      parsePayload_done.mpr ⟨hc, rfl, rfl⟩⟩⟩

theorem stuck_of_not_inl
    (h : ∀ w' c', round n w c ≠ .ok (.inl w', c')) : Scan.Stuck (round n) (w, c) :=
  fun s' hr => h s'.1 s'.2 hr

theorem PayloadAt.stuck (h : PayloadAt w c f) : Scan.Stuck (round n) (w, c) := by
  obtain ⟨c', hr⟩ := (round_done (n := n)).mpr h
  exact stuck_of_not_inl fun w' c'' h' => by cases hr.symm.trans h'

/-- The bytes are a bundle, up to the rules that `finish` checks. -/
def Completes (data : Bytes) (f : Finished) : Prop :=
  ∃ w c, Scan.Rounds (round 0) ({}, ⟨0, data⟩) (w, c) ∧ PayloadAt w c f

theorem completes_iff {data : Bytes}
    (h : Scan.Rounds (round n) ({}, ⟨0, data⟩) (w, c)) (hs : Scan.Stuck (round n) (w, c)) :
    Completes data f ↔ PayloadAt w c f := by
  constructor
  · rintro ⟨w', c', h', hp⟩
    cases h.unique (rounds_chunkSize h') hs hp.stuck
    exact hp
  · exact fun hp => ⟨w, c, rounds_chunkSize h, hp⟩

theorem Completes.unique {data : Bytes} {f f' : Finished} (h : Completes data f)
    (h' : Completes data f') : f' = f := by
  obtain ⟨w, c, hr, hp⟩ := h
  have hp' := (completes_iff hr hp.stuck).mp h'
  obtain ⟨c₁, h₁⟩ := (round_done (n := 0)).mpr hp
  obtain ⟨c₂, h₂⟩ := (round_done (n := 0)).mpr hp'
  cases h₁.symm.trans h₂
  rfl

/-! ## Longer input -/

/-- No continuation of this state accepts anything. -/
def Dead (w : Walk) (c : Cursor UInt8 Nat) : Prop :=
  ∀ n, Scan.Stuck (round n) (w, c) ∧ ∀ f, ¬ PayloadAt w c f

theorem dead_of_error {x : Error} (h : ∀ n, round n w c = .error x) : Dead w c := by
  refine fun n => ⟨stuck_of_not_inl fun w' c' hr => ?_, fun f hf => ?_⟩
  · cases (h n).symm.trans hr
  obtain ⟨c', hr⟩ := (round_done (n := n)).mpr hf
  cases (h n).symm.trans hr

theorem Dead.not_completes {data : Bytes}
    (hd : Dead w c) (h : Scan.Rounds (round n) ({}, ⟨0, data⟩) (w, c)) (f : Finished) :
    ¬ Completes data f :=
  fun hc => (hd n).2 f ((completes_iff h (hd n).1).mp hc)

theorem payloadHead_extend {bundle : Bundle} {st : Nat} {d head : Bytes} {c₁ : Cursor UInt8 Nat}
    (hw : w.state = .blocks bundle)
    (hh : blockHead w bundle ⟨st, d⟩ = .ok ((header, head), c₁))
    (ht : header.blockType = .payload) (e : Bytes) :
    (∀ n, Scan.Stuck (round n) (w, ⟨st, d ++ e⟩)) ∧
      ∀ f, PayloadAt w ⟨st, d ++ e⟩ f ↔
        Closes header head (c₁.rest ++ e) ∧ f = w.finished bundle header st := by
  have hext := (blockHead_resumes w bundle).stepwise.extend hh e
  constructor
  · rintro n ⟨w', c'⟩ hr
    cases round_inl.mp hr with
    | start hw' h => rw [hw] at hw'; cases hw'
    | primary hw' h => rw [hw] at hw'; cases hw'
    | block hw' hhead htype h =>
      rw [hw] at hw'
      cases hw'
      cases hext.symm.trans hhead
      exact htype ht
  · intro f
    constructor
    · rintro ⟨bundle', header', head', c', hw', hh', -, hc, rfl⟩
      rw [hw] at hw'
      cases hw'
      cases hext.symm.trans hh'
      exact ⟨hc, rfl⟩
    · rintro ⟨hc, rfl⟩
      exact ⟨bundle, header, head, _, hw, hext, ht, hc, rfl⟩

theorem PayloadAt.dead_of_longer {st : Nat} {d e : Bytes}
    (h : PayloadAt w ⟨st, d⟩ f) (he : e ≠ []) : Dead w ⟨st, d ++ e⟩ := by
  obtain ⟨bundle, header, head, c₁, hw, hh, ht, hc, -⟩ := h
  obtain ⟨hstuck, hpay⟩ := payloadHead_extend hw hh ht e
  refine fun n => ⟨hstuck n, fun f' hf' => ?_⟩
  have hlong := ((hpay f').mp hf').1.length
  have hlen := List.length_pos_iff.mpr he
  rw [List.length_append, hc.length] at hlong
  omega

theorem deferred_extend {st : Nat} {d : Bytes} {tail : PayloadTail} {c' : Cursor UInt8 Nat}
    (h : round n w ⟨st, d⟩ = .ok (.inr (.deferred f tail), c')) :
    tail.Sound ∧ ∀ e, (∀ m, Scan.Stuck (round m) (w, ⟨st, d ++ e⟩)) ∧
      ∀ f', PayloadAt w ⟨st, d ++ e⟩ f' ↔ tail.Accepts e ∧ f' = f := by
  obtain ⟨bundle, header, head, c₁, hw, hh, ht, hp⟩ := round_inr.mp h
  rw [parsePayload] at hp
  split at hp
  · next ho =>
      rw [oversized, Bool.and_eq_true, decide_eq_true_eq] at ho
      cases htail : payloadTail header head st c₁ with
      | error x => rw [htail] at hp; cases hp
      | ok t =>
        rw [htail] at hp
        cases hp
        obtain ⟨hs, hacc⟩ := payloadTail_ok htail ho.1
        refine ⟨hs, fun e => ?_⟩
        obtain ⟨hstuck, hpay⟩ := payloadHead_extend hw hh ht e
        exact ⟨hstuck, fun f' => by rw [hpay, hacc]⟩
  · obtain ⟨-, ho, -⟩ := wholePayload_ok.mp hp
    cases ho

omit [HashOrder] in
theorem parsePayload_hard {bundle : Bundle} {start : Nat} {head : Bytes} {x : Error}
    (h : parsePayload n w bundle start header head c = .error x) (hx : needMore x = none)
    (e : Bytes) : ¬ Closes header head (c.rest ++ e) := by
  rw [parsePayload] at h
  split at h
  · cases htail : payloadTail header head start c with
    | error y => exact payloadTail_error htail _
    | ok t => rw [htail] at h; cases h
  · rintro ⟨body, v, hlen, hok, hd⟩
    have hinline : inlinePayload header head ⟨c.st, c.rest ++ e⟩ = .ok ((), ⟨_, []⟩) :=
      inlinePayload_ok.mpr ⟨body, v, hlen, hok, hd, rfl⟩
    rcases Scan.bind_error h with h₁ | ⟨u, c₁, h₁, h₂⟩
    · have := (inlinePayload_resumes header head).stepwise.hard
        (show inlinePayload header head ⟨c.st, c.rest⟩ = _ from h₁) hx e
      cases this.symm.trans hinline
    · -- bytes after the break stay there
      have hext := (inlinePayload_resumes header head).stepwise.extend
        (show inlinePayload header head ⟨c.st, c.rest⟩ = _ from h₁) e
      have hnil : c₁.rest ++ e = [] :=
        congrArg (fun p => p.2.rest) (Except.ok.inj (hext.symm.trans hinline))
      have hend : atBundleEnd c₁ = .ok ((), c₁) :=
        atBundleEnd_ok.mpr ⟨(List.append_eq_nil_iff.mp hnil).1, rfl⟩
      rw [Scan.bind_eq_of_ok hend] at h₂
      cases h₂

theorem round_hard {st : Nat} {d : Bytes} {x : Error}
    (h : round n w ⟨st, d⟩ = .error x) (hx : needMore x = none) (e : Bytes) :
    Dead w ⟨st, d ++ e⟩ := by
  cases hw : w.state with
  | start =>
    simp only [round, hw] at h
    have herr : ∀ m, round m w ⟨st, d ++ e⟩ = .error x := by
      intro m
      simp only [round, hw]
      rcases Scan.bind_error h with h₁ | ⟨u, c₁, -, h₂⟩
      · exact Scan.bind_eq_of_error (parseStart_resumes.stepwise.hard h₁ hx e) _
      · cases h₂
    exact dead_of_error herr
  | primaryBlock =>
    simp only [round, hw] at h
    have herr : ∀ m, round m w ⟨st, d ++ e⟩ = .error x := by
      intro m
      simp only [round, hw]
      rcases Scan.bind_error h with h₁ | ⟨u, c₁, -, h₂⟩
      · exact Scan.bind_eq_of_error (parsePrimary_resumes.stepwise.hard h₁ hx e) _
      · cases h₂
    exact dead_of_error herr
  | blocks bundle =>
    simp only [round, hw] at h
    rcases hh : blockHead w bundle ⟨st, d⟩ with y | ⟨⟨header, head⟩, c₁⟩
    · rw [parseBlock_of_error hh] at h
      cases h
      refine dead_of_error (x := x) fun m => ?_
      simp only [round, hw]
      exact parseBlock_of_error ((blockHead_resumes w bundle).stepwise.hard hh hx e)
    · rw [parseBlock_of_head hh] at h
      have hext := (blockHead_resumes w bundle).stepwise.extend hh e
      split at h
      · next ht =>
          obtain ⟨hstuck, hpay⟩ := payloadHead_extend hw hh ht e
          refine fun m => ⟨hstuck m, fun f hf => ?_⟩
          cases hp : parsePayload n w bundle st header head c₁ with
          | error y =>
            rw [hp] at h
            cases h
            exact parsePayload_hard hp hx e ((hpay f).mp hf).1
          | ok p => rw [hp] at h; cases h
      · next ht =>
          refine dead_of_error (x := x) fun m => ?_
          simp only [round, hw]
          rw [parseBlock_of_head hext, if_neg ht]
          cases hp : parseExtension w bundle st header head c₁ with
          | error y =>
            rw [hp] at h
            cases h
            rw [(parseExtension_firm w bundle st header head).hard
              (show parseExtension w bundle st header head ⟨c₁.st, c₁.rest⟩ = _ from hp) hx e]
            rfl
          | ok p => rw [hp] at h; cases h

end Hardy
