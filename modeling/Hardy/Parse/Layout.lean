import Hardy.Parse.Outcome

/-!
# The layout of a parsed bundle

The rules that `finish` checks stamp coverage on the blocks and leave the rest
of the index as the rounds have built it, so a parsed bundle tiles its bytes.
-/

namespace Hardy

open Cbor Bpsec

/-! ## Stamps -/

def Block.layout (b : Block) : Block := { b with bib := .none, bcb := none }

/-- The two indexes differ in coverage only. -/
def SameLayout (m m' : HashMap Block) : Prop :=
  ∀ n : Nat, m'[n]?.map Block.layout = m[n]?.map Block.layout

theorem SameLayout.refl (m : HashMap Block) : SameLayout m m := fun _ => rfl

theorem SameLayout.trans {m₁ m₂ m₃ : HashMap Block} (h : SameLayout m₁ m₂)
    (h' : SameLayout m₂ m₃) : SameLayout m₁ m₃ := fun n => (h' n).trans (h n)

variable {m m' : HashMap Block}

theorem SameLayout.get (h : SameLayout m m') {n : Nat} {b' : Block}
    (hb : m'[n]? = some b') : ∃ b, m[n]? = some b ∧ b'.layout = b.layout := by
  have := h n
  rw [hb] at this
  obtain ⟨b, hb, he⟩ := Option.map_eq_some_iff.mp this.symm
  exact ⟨b, hb, he.symm⟩

theorem SameLayout.symm (h : SameLayout m m') : SameLayout m' m :=
  fun n => (h n).symm

theorem modify_sameLayout (m : HashMap Block) (k : Nat) {stamp : Block → Block}
    (hs : ∀ b, (stamp b).layout = b.layout) : SameLayout m (m.modify k stamp) := by
  intro n
  rw [HashMap.getElem?_modify]
  split
  · rw [Option.map_map]
    exact congrArg (fun f => m[n]?.map f) (funext hs)
  · rfl

variable [HashOrder]

theorem stampTargets_sameLayout {Op : Type} (ops : OperationSet Op) (stamp : Block → Block)
    (hs : ∀ b, (stamp b).layout = b.layout) (m : HashMap Block) :
    SameLayout m (stampTargets ops stamp m) := by
  rw [stampTargets]
  induction HashOrder.iter ops.operations generalizing m with
  | nil => exact .refl m
  | cons e l ih => exact (modify_sameLayout m e.1 hs).trans (ih _)

theorem stampBcb_ok {e : Nat × BcbSet} :
    stampBcb m e = .ok m' ↔ e.2.check e.1 m = .ok () ∧
      m' = stampTargets e.2 (fun b => { b with bcb := some e.1 }) m := by
  rw [stampBcb, Fold.bind_ok]
  constructor
  · rintro ⟨⟨⟩, hc, h⟩
    cases h
    exact ⟨Fold.mapError_ok.mp hc, rfl⟩
  · rintro ⟨hc, rfl⟩
    exact ⟨(), Fold.mapError_ok.mpr hc, rfl⟩

theorem stampBcb_sameLayout {e : Nat × BcbSet} (h : stampBcb m e = .ok m') : SameLayout m m' := by
  obtain ⟨-, rfl⟩ := stampBcb_ok.mp h
  exact stampTargets_sameLayout e.2 (fun b => { b with bcb := some e.1 }) (fun _ => rfl) m

variable [Crates]

def stampedBib (s : BibPass) (bib : Nat) (ops : BibSet) : BibPass :=
  { s with
    blocks := stampTargets ops (fun b => { b with bib := .some bib }) s.blocks
    bibs := s.bibs.insert bib ops }

variable {data : Bytes}

theorem stampBib_ok {s s' : BibPass} {bib : Nat} :
    stampBib data s bib = .ok s' ↔ ∃ block, s.blocks[bib]? = some block ∧
      ((block.bcb.isSome = true ∧ s' = { s with hasUndecryptable := true }) ∨
        (block.bcb.isSome = false ∧ ∃ ops, BibSet.decode (block.payloadRange.slice data) = .ok ops ∧
          ops.check bib s.blocks = .ok () ∧ s' = stampedBib s bib ops)) := by
  rw [stampBib]
  cases hb : s.blocks[bib]? with
  | none => exact ⟨nofun, fun ⟨_, h, _⟩ => (by cases h)⟩
  | some block =>
    simp only [Option.some.injEq, exists_eq_left']
    cases hc : block.bcb.isSome with
    | true => simp [eq_comm]
    | false =>
      simp only [Bool.false_eq_true, if_false, false_and, true_and, false_or, Fold.bind_ok]
      constructor
      · rintro ⟨ops, hd, ⟨⟩, hch, h⟩
        cases h
        exact ⟨ops, hd, Fold.mapError_ok.mp hch, rfl⟩
      · rintro ⟨ops, hd, hch, rfl⟩
        exact ⟨ops, hd, (), Fold.mapError_ok.mpr hch, rfl⟩

theorem stampBib_sameLayout {s s' : BibPass} {bib : Nat}
    (h : stampBib data s bib = .ok s') : SameLayout s.blocks s'.blocks := by
  obtain ⟨block, -, ⟨-, rfl⟩ | ⟨-, ops, -, -, rfl⟩⟩ := stampBib_ok.mp h
  · exact .refl _
  · exact stampTargets_sameLayout ops (fun b => { b with bib := .some bib }) (fun _ => rfl) _

omit [HashOrder] [Crates] in
theorem sweep_sameLayout (m : HashMap Block) : SameLayout m (m.map fun _ b => sweepMaybe b) := by
  intro n
  rw [Std.ExtTreeMap.getElem?_map, Option.map_map]
  refine congrArg (fun f => m[n]?.map f) (funext fun b => ?_)
  simp only [Function.comp, sweepMaybe]
  split <;> rfl

variable {f : Finished}

theorem validate_ok {m : HashMap Block} {bibs : HashMap BibSet} :
    f.validate data = .ok (m, bibs) ↔ ∃ m₁ s,
      (HashOrder.iter f.bcbs).foldlM stampBcb f.bundle.blocks = .ok m₁ ∧
      f.pendingBibs.foldlM (stampBib data) { blocks := m₁ } = .ok s ∧
      m = (if s.hasUndecryptable then s.blocks.map fun _ b => sweepMaybe b else s.blocks) ∧
      bibs = s.bibs := by
  simp only [Finished.validate, Fold.bind_ok]
  constructor
  · rintro ⟨m₁, h₁, s, h₂, h⟩
    cases h
    exact ⟨m₁, s, h₁, h₂, rfl, rfl⟩
  · rintro ⟨m₁, s, h₁, h₂, rfl, rfl⟩
    exact ⟨m₁, h₁, s, h₂, rfl⟩

theorem validate_sameLayout {m : HashMap Block}
    {bibs : HashMap BibSet} (h : f.validate data = .ok (m, bibs)) :
    SameLayout f.bundle.blocks m := by
  obtain ⟨m₁, s, h₁, h₂, rfl, -⟩ := validate_ok.mp h
  have hbcb : SameLayout f.bundle.blocks m₁ :=
    Fold.foldlM_invariant (P := SameLayout f.bundle.blocks)
      (fun _ hs hr => hs.trans (stampBcb_sameLayout hr)) (.refl _) h₁
  have hbib : SameLayout f.bundle.blocks s.blocks :=
    Fold.foldlM_invariant (P := fun s : BibPass => SameLayout f.bundle.blocks s.blocks)
      (fun _ hs hr => hs.trans (stampBib_sameLayout hr)) hbcb h₂
  split
  · exact hbib.trans (sweep_sameLayout _)
  · exact hbib

theorem finish_ok {p : Parsed} (h : f.finish data = .ok p) :
    p.data = data ∧ p.bundle.primary = f.bundle.primary ∧ p.bcbs = f.bcbs ∧
      SameLayout f.bundle.blocks p.bundle.blocks := by
  rw [Finished.finish] at h
  split at h
  · cases h
    exact ⟨rfl, rfl, rfl, .refl _⟩
  · obtain ⟨⟨m, bibs⟩, hv, h⟩ := Fold.bind_ok.mp h
    cases h
    exact ⟨rfl, rfl, rfl, validate_sameLayout hv⟩

/-! ## The whole index -/

/-- The index of a bundle of `data`, with the payload block at the end. -/
structure Finished.Complete (f : Finished) (data : Bytes) (l : List Nat) (payload : Block) :
    Prop where
  indexed : Indexed f.bundle.blocks f.pendingBibs f.bcbs (l ++ [1]) payload.extent.stop
  get_payload : f.bundle.blocks[1]? = some payload
  length : data.length = payload.extent.stop + 1
  closed : data[payload.extent.stop]? = some 0xFF

omit [HashOrder] in
theorem Closes.spans {w : Walk} {bundle : Bundle} {st : Nat} {d head : Bytes}
    {header : BlockHeader} {c : Cursor UInt8 Nat}
    (hh : blockHead w bundle ⟨st, d⟩ = .ok ((header, head), c))
    (hc : Closes header head c.rest) : ∃ body v, Spans header d head body v [0xFF] := by
  obtain ⟨body, v, hlen, hok, hrest⟩ := hc
  have hb : blockBody header head ⟨c.st, c.rest⟩ = .ok (body, ⟨_, [0xFF]⟩) :=
    blockBody_ok.mpr ⟨hlen, v, hok, hrest, rfl⟩
  obtain ⟨v', hs, -⟩ := blockBody_spans hh hb
  exact ⟨body, v', hs⟩

omit [HashOrder] in
theorem PayloadAt.complete {w : Walk} {c : Cursor UInt8 Nat}
    (hp : PayloadAt w c f) (hc : At data c) (hw : w.Ok c.st) :
    ∃ l payload, f.Complete data l payload ∧ payload.extent.start = c.st := by
  obtain ⟨bundle, header, head, c₁, hs, hh, ht, hclose, rfl⟩ := hp
  obtain ⟨st, d⟩ := c
  simp only [Walk.Ok, hs] at hw
  obtain ⟨⟨l, hl⟩, hu⟩ := hw
  obtain ⟨body, v, hspan⟩ := hclose.spans hh
  obtain ⟨-, -, -, ha⟩ := blockHead_ok.mp hh
  have hnum : header.number = 1 := by
    have := hspan.wellFormed.numberOk
    simpa [BlockHeader.numberOk, ht] using this
  have hlen : data.length = header.extentEnd st + 1 := by
    have hd := hspan.length st
    have hrest : d.length = data.length - st := by
      have := congrArg List.length hc.2
      rwa [List.length_drop] at this
    have hle := hc.1
    simp only [List.length_cons, List.length_nil] at hd hle
    omega
  refine ⟨l, header.block st, ⟨?_, ?_, hlen, ?_⟩, rfl⟩
  · have hbcbs : ∀ m, m ∈ w.bcbs ↔
        m ∈ w.bcbs ∨ (m = header.number ∧ header.blockType = .blockSecurity) := by simp [ht]
    have hind := hspan.indexed ha hl hu hbcbs
    rw [if_neg (by rw [ht]; decide)] at hind
    rw [hnum] at hind
    simp only [Walk.finished, hnum]
    exact hind
  · simp only [Walk.finished, hnum]
    rw [HashMap.getElem?_insert, if_pos rfl]
  · have hlast : data.getLast? = some 0xFF := by
      have hd : d = data.drop st := hc.2
      rw [← List.take_append_drop st data, ← hd, hspan.eq]
      simp only [← List.append_assoc, List.getLast?_append]
      rfl
    rw [List.getLast?_eq_getElem?, hlen] at hlast
    exact hlast

theorem Completes.complete (h : Completes data f) : ∃ l payload, f.Complete data l payload := by
  obtain ⟨w, c, hr, hp⟩ := h
  obtain ⟨l, payload, hc, -⟩ := hp.complete (rounds_at hr) (rounds_ok hr)
  exact ⟨l, payload, hc⟩

/-! ## Truncated buffers -/

def Parsed.index (p : Parsed) : Bundle × HashMap BcbSet × HashMap BibSet :=
  (p.bundle, p.bcbs, p.bibs)

omit [HashOrder] [Crates] in
theorem Finished.Complete.in_front {l : List Nat} {payload : Block}
    (h : f.Complete data l payload) {n : Nat} {b : Block} (hb : f.bundle.blocks[n]? = some b)
    (hn : n ≠ 1) : b.payloadRange.stop ≤ payload.extent.start := by
  have hmem : n ∈ l := by
    have := (h.indexed.mem n).mpr (HashMap.mem_iff.mpr ⟨b, hb⟩)
    rcases List.mem_append.mp this with hl | hl
    · exact hl
    · exact absurd (List.mem_singleton.mp hl) hn
  obtain ⟨z, htiles, r, hr, hz, -⟩ := tiles_append.mp h.indexed.tiles
  rw [extents, h.get_payload] at hr
  cases hr
  obtain ⟨s, hs, -, -, hle⟩ := htiles.mem hmem
  rw [extents, hb] at hs
  cases hs
  have hin := (h.indexed.inside n b hb).2.2
  omega

theorem Finished.Complete.finish_truncated {d e : Bytes} {l : List Nat}
    {payload : Block} (h : f.Complete (d ++ e) l payload) (hle : payload.extent.start ≤ d.length) :
    (f.finish d).map Parsed.index = (f.finish (d ++ e)).map Parsed.index := by
  have hbibs : ∀ m₁, SameLayout f.bundle.blocks m₁ →
      f.pendingBibs.foldlM (stampBib d) { blocks := m₁ } =
        f.pendingBibs.foldlM (stampBib (d ++ e)) { blocks := m₁ } := by
    intro m₁ hm₁
    refine Fold.foldlM_congr (P := fun s : BibPass => SameLayout f.bundle.blocks s.blocks)
      (fun _ hs hr => hs.trans (stampBib_sameLayout hr)) (fun {s bib} hmem hs => ?_) hm₁
    rw [stampBib, stampBib]
    cases hb : s.blocks[bib]? with
    | none => rfl
    | some block =>
      obtain ⟨b, hb', hlay⟩ := hs.get hb
      obtain ⟨b', hb'', ht⟩ := (h.indexed.mem_bibs bib).mp hmem
      cases hb'.symm.trans hb''
      have hne : bib ≠ 1 := by
        intro h1
        have := ((h.indexed.number bib b hb').2).mpr h1
        rw [ht] at this
        cases this
      have hrange : block.payloadRange = b.payloadRange :=
        show block.layout.payloadRange = b.layout.payloadRange by rw [hlay]
      have hslice : block.payloadRange.slice (d ++ e) = block.payloadRange.slice d := by
        rw [hrange]
        exact Range.slice_append (Nat.le_trans (h.in_front hb' hne) hle) e
      simp only [hslice]
  have hval : f.validate d = f.validate (d ++ e) := by
    rw [Finished.validate, Finished.validate]
    cases h₁ : (HashOrder.iter f.bcbs).foldlM stampBcb f.bundle.blocks with
    | error x => rfl
    | ok m₁ =>
      have hm₁ : SameLayout f.bundle.blocks m₁ :=
        Fold.foldlM_invariant (P := SameLayout f.bundle.blocks)
          (fun _ hs hr => hs.trans (stampBcb_sameLayout hr)) (.refl _) h₁
      show (f.pendingBibs.foldlM (stampBib d) { blocks := m₁ } >>= _) =
        (f.pendingBibs.foldlM (stampBib (d ++ e)) { blocks := m₁ } >>= _)
      rw [hbibs m₁ hm₁]
  rw [Finished.finish, Finished.finish, hval]
  split
  · rfl
  · cases f.validate (d ++ e) <;> rfl

end Hardy
