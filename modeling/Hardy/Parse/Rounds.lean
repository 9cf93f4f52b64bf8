import Hardy.Parse.Finish

/-!
# Rounds of the parser

What one round of the parser can do, and what it keeps on longer input.  The
parts of a round up to the end of a block survive truncation; the end of the
payload block does not, because it looks for the end of the input.
-/

namespace Hardy

open Cbor Bpsec

/-! ## The parts of a block -/

theorem verdict_firm {ε σ α : Type} {short : ε → Option Nat} (r : Except ε α) :
    Scan.Firm short (verdict r : Scan ε UInt8 σ α) := by
  cases r with
  | ok a => exact .const (.ok a)
  | error x => exact .const (.error x)

theorem breakByte_resumes : Resumes breakByte :=
  byte_resumes.lift.bind fun _ => ensure_resumable _ rfl

theorem consumeCrc_resumes (head : UInt8) (n : Nat) : Resumes (consumeCrc head n) :=
  (takeBytes_resumes _).lift.bind fun _ => (ensure_resumable _ rfl).map _

theorem trailerCrc_resumes (crcType : CrcType) : Resumes (trailerCrc crcType) := by
  cases crcType with
  | none => exact .pure _
  | crc16X25 => exact (consumeCrc_resumes _ _).map _
  | crc32Castagnoli => exact (consumeCrc_resumes _ _).map _
  | unrecognised t => exact .throw rfl

theorem consumeBlockAfterBody_resumes (crcType : CrcType) (isIndefinite : Bool) :
    Resumes (consumeBlockAfterBody crcType isIndefinite) := by
  refine (trailerCrc_resumes crcType).bind fun crc => ?_
  cases isIndefinite with
  | false => exact .pure _
  | true => exact breakByte_resumes.map _

theorem checkedHeader_resumes (w : Walk) (bundle : Bundle) :
    Resumes (checkedHeader w bundle) := by
  have hfield : Resumes (parseField BlockHeader.fromCbor "block") :=
    parseField_resumes BlockHeader.fromCbor_resumes BlockHeader.fromCbor_starts _
  refine .bind (.look id) fun start => (Scan.consumed_resumable hfield).bind
    fun ⟨header, head⟩ => ?_
  exact (ensure_resumable _ rfl).bind fun _ => (ensure_resumable _ rfl).bind fun _ =>
    (ensure_resumable _ rfl).bind fun _ => (ensure_resumable _ rfl).bind fun _ =>
    (ensure_resumable _ rfl).map _

theorem checkedHeader_starts (w : Walk) (bundle : Bundle) : Starts (checkedHeader w bundle) :=
  .look fun _ => .bind (.consumed (parseField_starts BlockHeader.fromCbor_starts _)) _

theorem blockHead_resumes (w : Walk) (bundle : Bundle) : Resumes (blockHead w bundle) :=
  .onNext (.throw rfl) (.throw _) (checkedHeader_resumes w bundle) (checkedHeader_starts w bundle)

theorem blockHead_starts (w : Walk) (bundle : Bundle) : Starts (blockHead w bundle) :=
  fun st => checkedHeader_starts w bundle st

theorem parseStart_resumes : Resumes parseStart := by
  refine byte_resumes.lift.bind fun first => ?_
  split
  · exact .pure _
  · split
    · exact .throw rfl
    · split <;> exact .throw rfl

theorem parseStart_starts : Starts parseStart := .bind byte_starts.lift _

variable [Crates]

theorem blockBody_resumes (header : BlockHeader) (head : Bytes) :
    Resumes (blockBody header head) := by
  refine (takeBytes_resumes _).lift.bind fun body =>
    (consumeBlockAfterBody_resumes _ _).bind fun crc => .bind (verdict_resumable ?_) fun _ => .pure _
  intro x hx
  cases h : checkBlockCrc header.crcType header.isIndefinite (head ++ body) crc with
  | ok u => rw [h] at hx; cases hx
  | error y => rw [h] at hx; cases hx; rfl

theorem inlinePayload_resumes (header : BlockHeader) (head : Bytes) :
    Resumes (inlinePayload header head) :=
  (blockBody_resumes header head).bind fun _ => breakByte_resumes

theorem parsePrimary_resumes : Resumes parsePrimary :=
  .bind (.look id) fun _ => (parseField_resumes PrimaryBlock.fromCbor_resumes
    PrimaryBlock.fromCbor_starts _).bind fun _ => (ensure_resumable _ rfl).bind fun _ =>
    .bind (.look id) fun _ => .pure _

theorem parsePrimary_starts : Starts parsePrimary :=
  .look fun _ => .bind (parseField_starts PrimaryBlock.fromCbor_starts _) _

variable [HashOrder]

theorem parseExtension_firm (w : Walk) (bundle : Bundle) (start : Nat) (header : BlockHeader)
    (head : Bytes) : Scan.Firm needMore (parseExtension w bundle start header head) :=
  (blockBody_resumes header head).stepwise.firm.bind fun _ =>
    (verdict_firm _).bind fun _ => .const (.ok _)

/-! ## One round -/

variable {chunkSize : Nat}

theorem parseBlock_of_head {w : Walk} {bundle : Bundle}
    {c c₁ : Cursor UInt8 Nat} {header : BlockHeader} {head : Bytes}
    (h : blockHead w bundle c = .ok ((header, head), c₁)) :
    parseBlock chunkSize w bundle c =
      if header.blockType = .payload then
        (parsePayload chunkSize w bundle c.st header head c₁).map fun p => (.inr p.1, p.2)
      else (parseExtension w bundle c.st header head c₁).map fun p => (.inl p.1, p.2) := by
  rw [parseBlock, Scan.bind_apply, Scan.look]
  dsimp only [id]
  rw [Scan.bind_eq_of_ok h]
  dsimp only
  split
  · rw [Scan.bind_apply]
    rcases parsePayload chunkSize w bundle c.st header head c₁ with x | ⟨o, c'⟩ <;> rfl
  · rw [Scan.bind_apply]
    rcases parseExtension w bundle c.st header head c₁ with x | ⟨o, c'⟩ <;> rfl

theorem parseBlock_of_error {w : Walk} {bundle : Bundle}
    {c : Cursor UInt8 Nat} {x : Error} (h : blockHead w bundle c = .error x) :
    parseBlock chunkSize w bundle c = .error x := by
  rw [parseBlock, Scan.bind_apply, Scan.look]
  dsimp only
  exact Scan.bind_eq_of_error h _

inductive Advances (w : Walk) (c : Cursor UInt8 Nat) : Walk → Cursor UInt8 Nat → Prop
  | start {c' : Cursor UInt8 Nat} (hw : w.state = .start) (h : parseStart c = .ok ((), c')) :
      Advances w c { w with state := .primaryBlock } c'
  | primary {c' : Cursor UInt8 Nat} {bundle : Bundle} (hw : w.state = .primaryBlock)
      (h : parsePrimary c = .ok (bundle, c')) : Advances w c { w with state := .blocks bundle } c'
  | block {c₁ c' : Cursor UInt8 Nat} {bundle : Bundle} {header : BlockHeader} {head : Bytes}
      {w' : Walk} (hw : w.state = .blocks bundle)
      (hhead : blockHead w bundle c = .ok ((header, head), c₁))
      (htype : header.blockType ≠ .payload)
      (h : parseExtension w bundle c.st header head c₁ = .ok (w', c')) : Advances w c w' c'

structure Ends (chunkSize : Nat) (w : Walk) (c : Cursor UInt8 Nat) (o : Outcome)
    (c' : Cursor UInt8 Nat) : Prop where
  intro ::
  exists_head : ∃ bundle header head c₁, w.state = .blocks bundle ∧
    blockHead w bundle c = .ok ((header, head), c₁) ∧ header.blockType = .payload ∧
    parsePayload chunkSize w bundle c.st header head c₁ = .ok (o, c')

variable {c c' : Cursor UInt8 Nat}

theorem round_ok {w : Walk} {out : Walk ⊕ Outcome} (h : round chunkSize w c = .ok (out, c')) :
    (∃ w', out = .inl w' ∧ Advances w c w' c') ∨ ∃ o, out = .inr o ∧ Ends chunkSize w c o c' := by
  cases hw : w.state with
  | start =>
    simp only [round, hw] at h
    obtain ⟨u, c₁, h₁, h₂⟩ := Scan.bind_ok h
    cases h₂
    exact .inl ⟨_, rfl, .start hw h₁⟩
  | primaryBlock =>
    simp only [round, hw] at h
    obtain ⟨bundle, c₁, h₁, h₂⟩ := Scan.bind_ok h
    cases h₂
    exact .inl ⟨_, rfl, .primary hw h₁⟩
  | blocks bundle =>
    simp only [round, hw] at h
    rcases hh : blockHead w bundle c with x | ⟨⟨header, head⟩, c₁⟩
    · rw [parseBlock_of_error hh] at h
      cases h
    · rw [parseBlock_of_head hh] at h
      split at h
      · next htype =>
          rcases hp : parsePayload chunkSize w bundle c.st header head c₁ with x | ⟨o, c₂⟩ <;>
            rw [hp] at h <;> cases h
          exact .inr ⟨o, rfl, bundle, header, head, c₁, hw, hh, htype, hp⟩
      · next htype =>
          rcases hp : parseExtension w bundle c.st header head c₁ with x | ⟨w', c₂⟩ <;>
            rw [hp] at h <;> cases h
          exact .inl ⟨w', rfl, .block hw hh htype hp⟩

theorem round_inl {w w' : Walk} : round chunkSize w c = .ok (.inl w', c') ↔ Advances w c w' c' := by
  constructor
  · intro h
    rcases round_ok h with ⟨_, heq, hadvances⟩ | ⟨_, heq, -⟩
    · cases heq
      exact hadvances
    · cases heq
  · intro h
    rw [round]
    cases h with
    | start hw h =>
      simp only [hw]
      exact Scan.bind_eq_of_ok h _
    | primary hw h =>
      simp only [hw]
      exact Scan.bind_eq_of_ok h _
    | block hw hhead htype h =>
      simp only [hw]
      rw [parseBlock_of_head hhead, if_neg htype, h]
      rfl

theorem Advances.round {w w' : Walk} (h : Advances w c w' c')
    (chunkSize : Nat) : Scan.Round (Hardy.round chunkSize) (w, c) (w', c') :=
  round_inl.mpr h

theorem round_inr {w : Walk} {o : Outcome} :
    round chunkSize w c = .ok (.inr o, c') ↔ Ends chunkSize w c o c' := by
  constructor
  · intro h
    rcases round_ok h with ⟨_, heq, -⟩ | ⟨_, heq, hends⟩
    · cases heq
    · cases heq
      exact hends
  · rintro ⟨bundle, header, head, c₁, hw, hh, htype, hp⟩
    rw [round]
    simp only [hw]
    rw [parseBlock_of_head hh, if_pos htype, hp]
    rfl

theorem Advances.span {w w' : Walk} (h : Advances w c w' c') :
    ∃ u, u ≠ [] ∧ c.rest = u ++ c'.rest ∧ c'.st = c.st + u.length := by
  obtain ⟨st, d⟩ := c
  have hne : ∀ {u : Bytes}, d = u ++ c'.rest → c'.rest.length < d.length → u ≠ [] := by
    rintro u hd hlt rfl
    rw [hd] at hlt
    exact absurd hlt (Nat.lt_irrefl _)
  cases h with
  | start hw h =>
    obtain ⟨u, hd, hpos, -⟩ := parseStart_resumes.stepwise.ok h
    exact ⟨u, hne hd (parseStart_resumes.stepwise.consumes parseStart_starts h), hd, hpos⟩
  | primary hw h =>
    obtain ⟨u, hd, hpos, -⟩ := parsePrimary_resumes.stepwise.ok h
    exact ⟨u, hne hd (parsePrimary_resumes.stepwise.consumes parsePrimary_starts h), hd, hpos⟩
  | @block c₁ _ bundle header head _ hw hhead htype h =>
    obtain ⟨u, hd, hpos, -⟩ := (blockHead_resumes w bundle).stepwise.ok hhead
    have hlt := (blockHead_resumes w bundle).stepwise.consumes (blockHead_starts w bundle) hhead
    obtain ⟨body, c₂, hb, hrest⟩ := Scan.bind_ok h
    obtain ⟨v, hd', hpos', -⟩ := (blockBody_resumes header head).stepwise.ok
      (show blockBody header head ⟨c₁.st, c₁.rest⟩ = _ from hb)
    have hc' : c' = c₂ := by
      obtain ⟨ops, c₃, hv, hp⟩ := Scan.bind_ok hrest
      cases hp
      cases hops : bcbOps header body with
      | error x => rw [hops] at hv; cases hv
      | ok o => rw [hops] at hv; cases hv; rfl
    subst hc'
    refine ⟨u ++ v, ?_, ?_, ?_⟩
    · intro h0
      rw [(List.append_eq_nil_iff.mp h0).1] at hd
      rw [hd] at hlt
      exact absurd hlt (Nat.lt_irrefl _)
    · rw [List.append_assoc, ← hd', ← hd]
    · simp only [id] at hpos hpos' ⊢
      rw [hpos', hpos, List.length_append, Nat.add_assoc]

theorem Advances.extend {w w' : Walk} {st : Nat} {d : Bytes} {c' : Cursor UInt8 Nat}
    (h : Advances w ⟨st, d⟩ w' c') (r : Bytes) :
    Advances w ⟨st, d ++ r⟩ w' ⟨c'.st, c'.rest ++ r⟩ := by
  cases h with
  | start hw h => exact .start hw (parseStart_resumes.stepwise.extend h r)
  | primary hw h => exact .primary hw (parsePrimary_resumes.stepwise.extend h r)
  | block hw hhead htype h =>
    exact .block hw ((blockHead_resumes w _).stepwise.extend hhead r) htype
      ((parseExtension_firm w _ st _ _).ok h r)

theorem round_progress (chunkSize : Nat) : Scan.Progress (round chunkSize) := by
  intro w w' c c' h
  obtain ⟨u, hu, hd, -⟩ := (round_inl.mp h).span
  have hpos := List.length_pos_iff.mpr hu
  rw [hd, List.length_append]
  omega

theorem round_extends (chunkSize : Nat) : Scan.Extends (round chunkSize) :=
  fun _ _ _ _ _ h r => round_inl.mpr ((round_inl.mp h).extend r)

/-! ## Positions -/

/-- The cursor of a parser in the middle of `data`. -/
def At (data : Bytes) (c : Cursor UInt8 Nat) : Prop :=
  c.st ≤ data.length ∧ c.rest = data.drop c.st

theorem Advances.at {data : Bytes} {w w' : Walk} (hc : At data c)
    (h : Advances w c w' c') : At data c' := by
  obtain ⟨u, -, hd, hst⟩ := h.span
  obtain ⟨hle, hrest⟩ := hc
  have hlen : data.length = c.st + (u.length + c'.rest.length) := by
    have := congrArg List.length (hrest.symm.trans hd)
    rw [List.length_drop, List.length_append] at this
    omega
  refine ⟨by omega, ?_⟩
  rw [hst, ← List.drop_drop, ← hrest, hd, List.drop_left' rfl]

theorem rounds_at {data : Bytes} {w : Walk} {c : Cursor UInt8 Nat}
    (h : Scan.Rounds (round chunkSize) ({}, ⟨0, data⟩) (w, c)) : At data c :=
  Scan.Rounds.invariant (P := fun _ c => At data c)
    (fun hc hr => (round_inl.mp hr).at hc) h ⟨Nat.zero_le _, rfl⟩

theorem rounds_chunkSize {n m : Nat} {s s' : Walk × Cursor UInt8 Nat}
    (h : Scan.Rounds (round n) s s') : Scan.Rounds (round m) s s' :=
  h.lift id fun s s' (hr : round n s.1 s.2 = _) =>
    show round m s.1 s.2 = .ok (.inl s'.1, s'.2) from round_inl.mpr (round_inl.mp hr)

end Hardy
