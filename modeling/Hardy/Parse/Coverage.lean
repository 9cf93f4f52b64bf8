import Hardy.Bpsec.Decoding
import Hardy.Parse.Tiled

/-!
# The coverage index

What the two passes of `finish` stamp on the blocks: exactly the targets of
the operation sets, whatever the order in which the hash maps are walked.
-/

namespace Hardy

open Cbor Bpsec

/-! ## The rules, without an order -/

structure BcbTarget (blocks : HashMap Block) (bcb : Nat) (mustReplicate : Bool) (target : Nat)
    (b : Block) : Prop where
  get : blocks[target]? = some b
  not_primary : b.blockType ≠ .primary
  not_bcb : b.blockType ≠ .blockSecurity
  payload : b.blockType = .payload → mustReplicate = true
  unclaimed : ∀ n, b.bcb = some n → n = bcb

structure BibTarget (blocks : HashMap Block) (bib : Nat) (bibBcb : Option Nat) (target : Nat)
    (b : Block) : Prop where
  get : blocks[target]? = some b
  not_bcb : b.blockType ≠ .blockSecurity
  not_bib : b.blockType ≠ .blockIntegrity
  unclaimed : b.bib.isOther bib = false
  encrypted : b.bcb.isSome = true → bibBcb.isSome = true

variable {blocks : HashMap Block}

theorem BcbSet.checkTarget_ok {bcb target : Nat} {mustReplicate : Bool} :
    BcbSet.checkTarget blocks bcb mustReplicate target = .ok () ↔
      ∃ b, BcbTarget blocks bcb mustReplicate target b := by
  unfold BcbSet.checkTarget
  cases hb : blocks[target]? with
  | none => exact ⟨nofun, fun ⟨b, h⟩ => by cases hb.symm.trans h.get⟩
  | some b =>
    constructor
    · intro h
      dsimp only at h
      split at h
      · cases h
      · next hsec =>
          split at h
          · cases h
          · next hpay =>
              refine ⟨b, hb, fun ht => hsec (.inl ht), fun ht => hsec (.inr ht), fun ht => ?_,
                fun n hn => ?_⟩
              · exact Bool.eq_true_of_not_eq_false fun hr => hpay ⟨ht, hr⟩
              · rw [hn] at h
                by_contra hne
                simp only [ne_eq, hne, not_false_eq_true, if_true] at h
                cases h
    · intro h
      obtain ⟨b', hget, hprim, hbcb, hpay, hun⟩ := h
      cases hb.symm.trans hget
      dsimp only
      rw [if_neg (fun h => h.elim hprim hbcb), if_neg (fun h => by simp [hpay h.1] at h)]
      cases hc : b.bcb with
      | none => rfl
      | some n => exact if_neg (not_not_intro (hun n hc))

theorem BibSet.checkTarget_ok {bib target : Nat} {bibBcb : Option Nat} :
    BibSet.checkTarget blocks bib bibBcb target = .ok () ↔
      ∃ b, BibTarget blocks bib bibBcb target b := by
  unfold BibSet.checkTarget
  cases hb : blocks[target]? with
  | none => exact ⟨nofun, fun ⟨b, h⟩ => by cases hb.symm.trans h.get⟩
  | some b =>
    constructor
    · intro h
      dsimp only at h
      split at h
      · cases h
      · next hsec =>
          split at h
          · cases h
          · next hother =>
              split at h
              · cases h
              · next henc =>
                  refine ⟨b, hb, fun ht => hsec (.inl ht), fun ht => hsec (.inr ht),
                    Bool.eq_false_of_not_eq_true hother, fun hs => ?_⟩
                  by_contra hn
                  exact henc ⟨hs, by simpa using hn⟩
    · intro h
      obtain ⟨b', hget, hbcb, hbib, hun, henc⟩ := h
      cases hb.symm.trans hget
      dsimp only
      rw [if_neg (fun h => h.elim hbcb hbib), if_neg (by rw [hun]; exact Bool.false_ne_true),
        if_neg]
      intro h
      have := henc h.1
      simp_all

variable [HashOrder]

theorem BcbSet.check_ok {ops : BcbSet} {bcb : Nat} :
    ops.check bcb blocks = .ok () ↔ ∃ block, blocks[bcb]? = some block ∧
      block.flags.deleteBlockOnFailure = false ∧
      ∀ t, t ∈ ops.operations → ∃ b, BcbTarget blocks bcb block.flags.mustReplicate t b := by
  unfold BcbSet.check
  cases hb : blocks[bcb]? with
  | none => exact ⟨nofun, fun ⟨_, h, _⟩ => (by cases h)⟩
  | some block =>
    simp only [Option.some.injEq, exists_eq_left']
    cases hd : block.flags.deleteBlockOnFailure with
    | true => exact ⟨nofun, fun h => (by cases h.1)⟩
    | false =>
      simp only [Bool.false_eq_true, if_false, true_and, forM_iter, BcbSet.checkTarget_ok,
        HashMap.mem_iff]
      exact ⟨fun h t ⟨v, hv⟩ => h t v hv, fun h k v hv => h k ⟨v, hv⟩⟩

theorem BibSet.check_ok {ops : BibSet} {bib : Nat} :
    ops.check bib blocks = .ok () ↔ ∃ block, blocks[bib]? = some block ∧
      ∀ t, t ∈ ops.operations → ∃ b, BibTarget blocks bib block.bcb t b := by
  unfold BibSet.check
  cases hb : blocks[bib]? with
  | none => exact ⟨nofun, fun ⟨_, h, _⟩ => (by cases h)⟩
  | some block =>
    simp only [Option.some.injEq, exists_eq_left', forM_iter, BibSet.checkTarget_ok,
      HashMap.mem_iff]
    exact ⟨fun h t ⟨v, hv⟩ => h t v hv, fun h k v hv => h k ⟨v, hv⟩⟩

theorem getElem?_stampTargets {Op : Type} (ops : OperationSet Op) (stamp : Block → Block)
    (blocks : HashMap Block) (n : Nat) :
    (stampTargets ops stamp blocks)[n]? =
      if n ∈ ops.operations then blocks[n]?.map stamp else blocks[n]? := by
  unfold stampTargets
  rw [foldl_modify (HashOrder.iter_pairwise _)]
  have hmem : n ∈ (HashOrder.iter ops.operations).map Prod.fst ↔ n ∈ ops.operations := by
    rw [List.mem_map, HashMap.mem_iff]
    constructor
    · rintro ⟨e, he, rfl⟩
      exact ⟨e.2, HashOrder.mem_iter.mp he⟩
    · rintro ⟨v, hv⟩
      exact ⟨(n, v), HashOrder.mem_iter.mpr hv, rfl⟩
  simp only [hmem]

/-! ## The BCB pass -/

def Targets {Op : Type} (sets : List (Nat × OperationSet Op)) (k n : Nat) : Prop :=
  ∃ ops, (k, ops) ∈ sets ∧ n ∈ ops.operations

omit [HashOrder] in
theorem targets_concat {Op : Type} {sets : List (Nat × OperationSet Op)} {e : Nat × OperationSet Op}
    {k n : Nat} : Targets (sets ++ [e]) k n ↔ Targets sets k n ∨ (k = e.1 ∧ n ∈ e.2.operations) := by
  constructor
  · intro h
    obtain ⟨ops, hmem, hn⟩ := h
    rcases List.mem_append.mp hmem with hmem | hmem
    · exact .inl ⟨ops, hmem, hn⟩
    · cases List.mem_singleton.mp hmem
      exact .inr ⟨rfl, hn⟩
  · intro h
    rcases h with ⟨ops, hmem, hn⟩ | ⟨rfl, hn⟩
    · exact ⟨ops, List.mem_append_left _ hmem, hn⟩
    · exact ⟨e.2, List.mem_append_right _ (List.mem_singleton.mpr rfl), hn⟩

/-- The state of the BCB pass after the operation sets `sets`. -/
structure BcbStamped (sets : List (Nat × BcbSet)) (blocks : HashMap Block) : Prop where
  bcb : ∀ (n : Nat) (b : Block), blocks[n]? = some b → ∀ k, b.bcb = some k ↔ Targets sets k n
  bib : ∀ (n : Nat) (b : Block), blocks[n]? = some b → b.bib = .none
  target : ∀ k n, Targets sets k n →
    ∃ b : Block, blocks[n]? = some b ∧ b.blockType ≠ .primary ∧ b.blockType ≠ .blockSecurity

theorem BcbStamped.step {sets : List (Nat × BcbSet)} {blocks blocks' : HashMap Block}
    (h : BcbStamped sets blocks) {e : Nat × BcbSet} (hs : stampBcb blocks e = .ok blocks') :
    BcbStamped (sets ++ [e]) blocks' := by
  obtain ⟨hcheck, rfl⟩ := stampBcb_ok.mp hs
  obtain ⟨block, -, -, htargets⟩ := BcbSet.check_ok.mp hcheck
  have hget : ∀ (n : Nat) (b' : Block),
      (stampTargets e.2 (fun b => { b with bcb := some e.1 }) blocks)[n]? = some b' ↔
        ∃ b : Block, blocks[n]? = some b ∧
          b' = if n ∈ e.2.operations then { b with bcb := some e.1 } else b := by
    intro n b'
    rw [getElem?_stampTargets]
    split
    · simp [eq_comm]
    · simp
  refine ⟨?_, ?_, ?_⟩
  · intro n b' hb' k
    obtain ⟨b, hb, rfl⟩ := (hget n b').mp hb'
    rw [targets_concat]
    by_cases hn : n ∈ e.2.operations
    · obtain ⟨b₁, ht⟩ := htargets n hn
      cases hb.symm.trans ht.get
      rw [if_pos hn]
      simp only [Option.some.injEq, hn, and_true]
      constructor
      · exact fun hk => .inr hk.symm
      · intro hk
        rcases hk with hk | hk
        · exact (ht.unclaimed k ((h.bcb n b hb k).mpr hk)).symm
        · exact hk.symm
    · rw [if_neg hn, h.bcb n b hb k]
      simp [hn]
  · intro n b' hb'
    obtain ⟨b, hb, rfl⟩ := (hget n b').mp hb'
    split
    · exact h.bib n b hb
    · exact h.bib n b hb
  · intro k n ht
    have hold : ∃ b : Block, blocks[n]? = some b ∧ b.blockType ≠ .primary ∧
        b.blockType ≠ .blockSecurity := by
      rcases targets_concat.mp ht with ht | ⟨-, hn⟩
      · exact h.target k n ht
      · obtain ⟨b, hb⟩ := htargets n hn
        exact ⟨b, hb.get, hb.not_primary, hb.not_bcb⟩
    obtain ⟨b, hb, hp, hs⟩ := hold
    refine ⟨_, (hget n _).mpr ⟨b, hb, rfl⟩, ?_⟩
    split
    · exact ⟨hp, hs⟩
    · exact ⟨hp, hs⟩

theorem bcbPass {f : Finished} {l : List Nat} {pos : Nat} {m : HashMap Block}
    (hf : Indexed f.bundle.blocks f.pendingBibs f.bcbs l pos)
    (h : (HashOrder.iter f.bcbs).foldlM stampBcb f.bundle.blocks = .ok m) :
    BcbStamped (HashOrder.iter f.bcbs) m := by
  have h₀ : BcbStamped [] f.bundle.blocks := by
    refine ⟨fun n b hb k => ?_, fun n b hb => (hf.uncovered n b hb).1, fun k n ht => ?_⟩
    · rw [(hf.uncovered n b hb).2]
      exact ⟨nofun, fun ⟨_, h, _⟩ => (by cases h)⟩
    · obtain ⟨_, h, _⟩ := ht
      cases h
  have := Fold.foldlM_history (P := BcbStamped) (fun _ hs hstep => hs.step hstep) h₀ h
  rwa [List.nil_append] at this

/-! ## The BIB pass -/

def Block.unsigned (b : Block) : Block := { b with bib := .none }

/-- The state of the BIB pass over `blocks`, after the BIBs `hist`. -/
structure BibStamped (blocks : HashMap Block) (hist : List Nat) (s : BibPass) : Prop where
  rest : ∀ n : Nat, s.blocks[n]?.map Block.unsigned = blocks[n]?
  bib : ∀ (n : Nat) (b : Block), s.blocks[n]? = some b → ∀ k, b.bib = .some k ↔
    ∃ ops : BibSet, s.bibs[k]? = some ops ∧ n ∈ ops.operations
  settled : ∀ (n : Nat) (b : Block), s.blocks[n]? = some b → b.bib ≠ .maybe
  read : ∀ k, k ∈ s.bibs ↔ k ∈ hist ∧ ∃ b : Block, blocks[k]? = some b ∧ b.bcb = none
  hidden : s.hasUndecryptable = true ↔
    ∃ k ∈ hist, ∃ b : Block, blocks[k]? = some b ∧ b.bcb.isSome = true
  target : ∀ (k n : Nat) (ops : BibSet), s.bibs[k]? = some ops → n ∈ ops.operations →
    ∃ b : Block, blocks[n]? = some b ∧ b.blockType ≠ .blockSecurity ∧ b.blockType ≠ .blockIntegrity

namespace BibStamped

variable {blocks : HashMap Block} {hist : List Nat} {s : BibPass}

omit [HashOrder] in
theorem get (h : BibStamped blocks hist s) {n : Nat} {b : Block} (hb : s.blocks[n]? = some b) :
    blocks[n]? = some b.unsigned := by
  rw [← h.rest, hb]
  rfl

omit [HashOrder] in
theorem skip (h : BibStamped blocks hist s) {bib : Nat} {block : Block}
    (hb : s.blocks[bib]? = some block) (hc : block.bcb.isSome = true) :
    BibStamped blocks (hist ++ [bib]) { s with hasUndecryptable := true } := by
  have hget : blocks[bib]? = some block.unsigned := h.get hb
  refine ⟨h.rest, h.bib, h.settled, fun k => ?_, ?_, h.target⟩
  · rw [h.read k, List.mem_append, List.mem_singleton]
    constructor
    · exact fun ⟨hk, hb⟩ => ⟨.inl hk, hb⟩
    · intro hk
      obtain ⟨hk, b, hb', hn⟩ := hk
      rcases hk with hk | rfl
      · exact ⟨hk, b, hb', hn⟩
      · cases hget.symm.trans hb'
        rw [show block.bcb = none from hn] at hc
        cases hc
  · exact ⟨fun _ => ⟨bib, List.mem_append_right _ (List.mem_singleton.mpr rfl), _, hget, hc⟩,
      fun _ => rfl⟩

/-- A plaintext BIB stamps its targets. -/
theorem stamp (h : BibStamped blocks hist s) {bib : Nat} {block : Block} {ops : BibSet}
    (hfresh : bib ∉ hist) (hb : s.blocks[bib]? = some block) (hc : block.bcb.isSome = false)
    (hcheck : ops.check bib s.blocks = .ok ()) :
    BibStamped blocks (hist ++ [bib]) (stampedBib s bib ops) := by
  have hblock : blocks[bib]? = some block.unsigned := h.get hb
  have hnew : s.bibs[bib]? = none := by
    refine Std.ExtTreeMap.getElem?_eq_none fun hmem => hfresh ?_
    exact ((h.read bib).mp hmem).1
  obtain ⟨block', hb', htargets⟩ := BibSet.check_ok.mp hcheck
  cases hb.symm.trans hb'
  -- no target has been claimed before
  have hfree : ∀ (n : Nat) (b : Block), n ∈ ops.operations → s.blocks[n]? = some b → b.bib = .none := by
    intro n b hn hb
    obtain ⟨b', ht⟩ := htargets n hn
    cases hb.symm.trans ht.get
    cases hbib : b.bib with
    | none => rfl
    | maybe => exact absurd hbib (h.settled n b hb)
    | some k =>
      obtain ⟨ops', hops', -⟩ := (h.bib n b hb k).mp hbib
      have hk : k = bib := by
        have := ht.unclaimed
        rw [hbib] at this
        simpa [BibCoverage.isOther] using this
      rw [hk, hnew] at hops'
      cases hops'
  have hget : ∀ (n : Nat) (b' : Block), (stampedBib s bib ops).blocks[n]? = some b' ↔
      ∃ b : Block, s.blocks[n]? = some b ∧
        b' = if n ∈ ops.operations then { b with bib := .some bib } else b := by
    intro n b'
    simp only [stampedBib, getElem?_stampTargets]
    split
    · simp [eq_comm]
    · simp
  have hbibs : ∀ (k : Nat) (ops' : BibSet), (stampedBib s bib ops).bibs[k]? = some ops' ↔
      (k = bib ∧ ops' = ops) ∨ (k ≠ bib ∧ s.bibs[k]? = some ops') := by
    intro k ops'
    simp only [stampedBib, HashMap.getElem?_insert]
    by_cases hk : k = bib
    · simp [hk, eq_comm]
    · simp [hk]
  refine ⟨?_, ?_, ?_, ?_, ?_, ?_⟩
  · intro n
    rw [← h.rest n]
    simp only [stampedBib, getElem?_stampTargets]
    split
    · rw [Option.map_map]
      rfl
    · rfl
  · intro n b' hb' k
    obtain ⟨b, hb, rfl⟩ := (hget n b').mp hb'
    by_cases hn : n ∈ ops.operations
    · rw [if_pos hn]
      simp only [BibCoverage.some.injEq]
      constructor
      · intro hk
        exact ⟨ops, (hbibs k ops).mpr (.inl ⟨hk.symm, rfl⟩), hn⟩
      · intro hk
        obtain ⟨ops', hops', hn'⟩ := hk
        rcases (hbibs k ops').mp hops' with ⟨rfl, -⟩ | ⟨-, hold⟩
        · rfl
        · have := (h.bib n b hb k).mpr ⟨ops', hold, hn'⟩
          rw [hfree n b hn hb] at this
          cases this
    · rw [if_neg hn, h.bib n b hb k]
      constructor
      · intro hk
        obtain ⟨ops', hops', hn'⟩ := hk
        refine ⟨ops', (hbibs k ops').mpr (.inr ⟨?_, hops'⟩), hn'⟩
        intro hk
        rw [hk, hnew] at hops'
        cases hops'
      · intro hk
        obtain ⟨ops', hops', hn'⟩ := hk
        rcases (hbibs k ops').mp hops' with ⟨-, rfl⟩ | ⟨-, hold⟩
        · exact absurd hn' hn
        · exact ⟨ops', hold, hn'⟩
  · intro n b' hb'
    obtain ⟨b, hb, rfl⟩ := (hget n b').mp hb'
    split
    · exact nofun
    · exact h.settled n b hb
  · intro k
    have hmem : k ∈ (stampedBib s bib ops).bibs ↔ k = bib ∨ k ∈ s.bibs := by
      simp only [HashMap.mem_iff, hbibs]
      constructor
      · intro hk
        obtain ⟨ops', ⟨rfl, -⟩ | ⟨-, hold⟩⟩ := hk
        · exact .inl rfl
        · exact .inr ⟨ops', hold⟩
      · intro hk
        by_cases hkb : k = bib
        · exact ⟨ops, .inl ⟨hkb, rfl⟩⟩
        · rcases hk with hk | ⟨ops', hops'⟩
          · exact absurd hk hkb
          · exact ⟨ops', .inr ⟨hkb, hops'⟩⟩
    rw [hmem, h.read k, List.mem_append, List.mem_singleton]
    constructor
    · intro hk
      rcases hk with rfl | ⟨hk, hb⟩
      · exact ⟨.inr rfl, _, hblock, by simpa [Block.unsigned] using hc⟩
      · exact ⟨.inl hk, hb⟩
    · intro hk
      obtain ⟨hk | hk, hb⟩ := hk
      · exact .inr ⟨hk, hb⟩
      · exact .inl hk
  · rw [show (stampedBib s bib ops).hasUndecryptable = s.hasUndecryptable from rfl, h.hidden]
    constructor
    · intro hk
      obtain ⟨k, hk, hb⟩ := hk
      exact ⟨k, List.mem_append_left _ hk, hb⟩
    · intro hk
      obtain ⟨k, hk, b, hb, hs⟩ := hk
      rcases List.mem_append.mp hk with hk | hk
      · exact ⟨k, hk, b, hb, hs⟩
      · rw [List.mem_singleton.mp hk] at hb
        cases hblock.symm.trans hb
        rw [show block.unsigned.bcb = block.bcb from rfl, hc] at hs
        cases hs
  · intro k n ops' hops' hn
    rcases (hbibs k ops').mp hops' with ⟨-, rfl⟩ | ⟨-, hold⟩
    · obtain ⟨b, ht⟩ := htargets n hn
      exact ⟨b.unsigned, h.get ht.get, ht.not_bcb, ht.not_bib⟩
    · exact h.target k n ops' hold hn

end BibStamped

variable [Crates]

theorem bibPass {bibs : List Nat} {data : Bytes} {s : BibPass}
    (hplain : ∀ (n : Nat) (b : Block), blocks[n]? = some b → b.bib = .none) (hnodup : bibs.Nodup)
    (h : bibs.foldlM (stampBib data) { blocks := blocks } = .ok s) : BibStamped blocks bibs s := by
  have h₀ : BibStamped blocks [] { blocks := blocks } := by
    refine ⟨fun n => ?_, fun n b hb k => ?_, fun n b hb => ?_, fun k => ?_, ?_, fun k n ops hops => ?_⟩
    · show blocks[n]?.map Block.unsigned = blocks[n]?
      cases hb : blocks[n]? with
      | none => rfl
      | some b =>
        have := hplain n b hb
        obtain ⟨_, _, _, bib, _, _, _⟩ := b
        cases this
        rfl
    · rw [hplain n b hb]
      exact ⟨nofun, fun ⟨_, h, _⟩ => by simp at h⟩
    · rw [hplain n b hb]
      exact nofun
    · simp
    · simp
    · simp at hops
  have hpass := Fold.foldlM_history (P := fun hist s => hist.Nodup → BibStamped blocks hist s)
    (fun {hist s a s'} _ hs hstep hnd => ?_) (fun _ => h₀) h
  · exact hpass (by rwa [List.nil_append])
  · obtain ⟨hnd, -, hne⟩ := List.nodup_append.mp hnd
    have hfresh : a ∉ hist := fun ha => hne a ha a (List.mem_singleton.mpr rfl) rfl
    obtain ⟨block, hb, ⟨hc, rfl⟩ | ⟨hc, ops, -, hcheck, rfl⟩⟩ := stampBib_ok.mp hstep
    · exact (hs hnd).skip hb hc
    · exact (hs hnd).stamp hfresh hb hc hcheck

/-! ## The index of a parsed bundle -/

/-- The coverage that the blocks of a parsed bundle carry is that of its
operation sets. -/
structure Parsed.Covered (p : Parsed) : Prop where
  bcb : ∀ (n : Nat) (b : Block), p.bundle.blocks[n]? = some b → ∀ m, b.bcb = some m ↔
    ∃ ops : BcbSet, p.bcbs[m]? = some ops ∧ n ∈ ops.operations
  bcb_unique : ∀ (n m m' : Nat) (ops ops' : BcbSet), p.bcbs[m]? = some ops →
    p.bcbs[m']? = some ops' → n ∈ ops.operations → n ∈ ops'.operations → m = m'
  bib : ∀ (n : Nat) (b : Block), p.bundle.blocks[n]? = some b → ∀ m, b.bib = .some m ↔
    ∃ ops : BibSet, p.bibs[m]? = some ops ∧ n ∈ ops.operations
  bib_unique : ∀ (n m m' : Nat) (ops ops' : BibSet), p.bibs[m]? = some ops →
    p.bibs[m']? = some ops' → n ∈ ops.operations → n ∈ ops'.operations → m = m'
  hidden : ∀ (n : Nat) (b : Block), p.bundle.blocks[n]? = some b → b.blockType = .blockIntegrity →
    (n ∉ p.bibs ↔ b.bcb.isSome = true)
  maybe : ∀ (n : Nat) (b : Block), p.bundle.blocks[n]? = some b → (b.bib = .maybe ↔
    (∃ (k : Nat) (b' : Block), p.bundle.blocks[k]? = some b' ∧ b'.blockType = .blockIntegrity ∧
      b'.bcb.isSome = true) ∧ b.bcb.isSome = true ∧ b.blockType ≠ .blockIntegrity ∧
    b.blockType ≠ .blockSecurity ∧
    ¬ ∃ (m : Nat) (ops : BibSet), p.bibs[m]? = some ops ∧ n ∈ ops.operations)
  bcb_target : ∀ (m n : Nat) (ops : BcbSet), p.bcbs[m]? = some ops → n ∈ ops.operations →
    ∃ b : Block, p.bundle.blocks[n]? = some b ∧ b.blockType ≠ .primary ∧
      b.blockType ≠ .blockSecurity
  bib_target : ∀ (m n : Nat) (ops : BibSet), p.bibs[m]? = some ops → n ∈ ops.operations →
    ∃ b : Block, p.bundle.blocks[n]? = some b ∧ b.blockType ≠ .blockSecurity ∧
      b.blockType ≠ .blockIntegrity

theorem finish_validate {f : Finished} {data : Bytes} {p : Parsed} (h : f.finish data = .ok p) :
    f.validate data = .ok (p.bundle.blocks, p.bibs) ∧ p.bcbs = f.bcbs := by
  unfold Finished.finish at h
  split at h
  · next hnone =>
      cases h
      refine ⟨validate_ok.mpr ⟨f.bundle.blocks, { blocks := f.bundle.blocks }, ?_, ?_, rfl, rfl⟩, rfl⟩
      · have hempty : HashOrder.iter f.bcbs = [] := by
          rw [Std.ExtTreeMap.isEmpty_iff.mp hnone.1]
          exact (HashOrder.iter_perm ∅).eq_nil
        rw [hempty]
        rfl
      · rw [List.isEmpty_iff.mp hnone.2]
        rfl
  · obtain ⟨⟨m, bibs⟩, hv, h⟩ := Fold.bind_ok.mp h
    cases h
    exact ⟨hv, rfl⟩

omit [Crates] in
theorem targets_iter {sets : HashMap BcbSet} {k n : Nat} :
    Targets (HashOrder.iter sets) k n ↔ ∃ ops : BcbSet, sets[k]? = some ops ∧ n ∈ ops.operations := by
  unfold Targets
  simp only [HashOrder.mem_iter]

omit [HashOrder] [Crates] in
theorem sweepMaybe_same (b : Block) : (sweepMaybe b).bcb = b.bcb ∧
    (sweepMaybe b).blockType = b.blockType ∧ ∀ k, (sweepMaybe b).bib = .some k ↔ b.bib = .some k := by
  unfold sweepMaybe
  split
  · next h => exact ⟨rfl, rfl, fun k => by simp [h.2.2]⟩
  · exact ⟨rfl, rfl, fun k => Iff.rfl⟩

omit [HashOrder] [Crates] in
theorem sweepMaybe_maybe {b : Block} (h : b.bib ≠ .maybe) : (sweepMaybe b).bib = .maybe ↔
    b.bcb.isSome = true ∧ b.blockType ≠ .blockIntegrity ∧ b.blockType ≠ .blockSecurity ∧
      ¬ ∃ k, b.bib = .some k := by
  have hnone : b.bib = .none ↔ ¬ ∃ k, b.bib = .some k := by
    cases hb : b.bib with
    | none => simp
    | maybe => exact absurd hb h
    | some k => simp
  unfold sweepMaybe
  rw [← hnone]
  split
  · next hs => simpa [and_assoc, not_or] using hs
  · next hs =>
      refine ⟨fun h' => absurd h' h, fun h' => absurd ?_ hs⟩
      exact ⟨h'.1, not_or.mpr ⟨h'.2.1, h'.2.2.1⟩, h'.2.2.2⟩

theorem finish_covered {f : Finished} {data : Bytes} {l : List Nat} {pos : Nat} {p : Parsed}
    (hf : Indexed f.bundle.blocks f.pendingBibs f.bcbs l pos) (h : f.finish data = .ok p) :
    p.Covered := by
  obtain ⟨hv, hbcbs⟩ := finish_validate h
  obtain ⟨m₁, s, h₁, h₂, hblocks, hbibs⟩ := validate_ok.mp hv
  have hbcb := bcbPass hf h₁
  have hbib := bibPass hbcb.bib hf.bibs_nodup h₂
  have hlay : SameLayout f.bundle.blocks m₁ :=
    Fold.foldlM_invariant (P := SameLayout f.bundle.blocks)
      (fun _ hs hr => hs.trans (stampBcb_sameLayout hr)) (.refl _) h₁
  -- a block after the sweep, before it, and after the BCB pass
  have hget : ∀ (n : Nat) (b : Block), p.bundle.blocks[n]? = some b →
      ∃ b' : Block, s.blocks[n]? = some b' ∧ m₁[n]? = some b'.unsigned ∧
        b = (if s.hasUndecryptable = true then sweepMaybe b' else b') := by
    intro n b hb
    rw [hblocks] at hb
    split at hb
    · next hu =>
        rw [Std.ExtTreeMap.getElem?_map] at hb
        obtain ⟨b', hb', rfl⟩ := Option.map_eq_some_iff.mp hb
        exact ⟨b', hb', hbib.get hb', by rw [if_pos hu]⟩
    · next hu => exact ⟨b, hb, hbib.get hb, by rw [if_neg hu]⟩
  have hsame : ∀ b : Block, (if s.hasUndecryptable = true then sweepMaybe b else b).bcb = b.bcb ∧
      (if s.hasUndecryptable = true then sweepMaybe b else b).blockType = b.blockType ∧
      ∀ k, (if s.hasUndecryptable = true then sweepMaybe b else b).bib = .some k ↔ b.bib = .some k := by
    intro b
    split
    · exact sweepMaybe_same b
    · exact ⟨rfl, rfl, fun k => Iff.rfl⟩
  -- the BIBs of the bundle, with the coverage of the BCB pass
  have hpend : ∀ (k : Nat) (b' : Block), s.blocks[k]? = some b' →
      (k ∈ f.pendingBibs ↔ b'.blockType = .blockIntegrity) := by
    intro k b' hb'
    obtain ⟨b₀, hb₀, -, ht, -⟩ := hlay.same (hbib.get hb')
    rw [hf.mem_bibs]
    constructor
    · intro hk
      obtain ⟨b₁, hb₁, ht₁⟩ := hk
      cases hb₀.symm.trans hb₁
      exact ht.symm.trans ht₁
    · exact fun hk => ⟨b₀, hb₀, ht.trans hk⟩
  have hback : ∀ (n : Nat) (b : Block), m₁[n]? = some b → ∃ b' : Block, s.blocks[n]? = some b' ∧
      b'.unsigned = b ∧
      p.bundle.blocks[n]? = some (if s.hasUndecryptable = true then sweepMaybe b' else b') := by
    intro n b hb
    obtain ⟨b', hb', he⟩ := Option.map_eq_some_iff.mp ((hbib.rest n).trans hb)
    refine ⟨b', hb', he, ?_⟩
    rw [hblocks]
    split
    · rw [Std.ExtTreeMap.getElem?_map, hb']
      rfl
    · exact hb'
  have hhidden : s.hasUndecryptable = true ↔ ∃ (k : Nat) (b' : Block),
      p.bundle.blocks[k]? = some b' ∧ b'.blockType = .blockIntegrity ∧ b'.bcb.isSome = true := by
    rw [hbib.hidden]
    constructor
    · intro hk
      obtain ⟨k, hk, b, hb, hs⟩ := hk
      obtain ⟨b', hb', rfl, hb''⟩ := hback k b hb
      refine ⟨k, _, hb'', ?_, ?_⟩
      · rw [(hsame b').2.1]
        exact (hpend k b' hb').mp hk
      · rw [(hsame b').1]
        exact hs
    · intro hk
      obtain ⟨k, b, hb, ht, hs⟩ := hk
      obtain ⟨b', hb', hm, rfl⟩ := hget k b hb
      rw [(hsame b').2.1] at ht
      rw [(hsame b').1] at hs
      exact ⟨k, (hpend k b' hb').mpr ht, _, hm, hs⟩
  have hsome : ∀ (n : Nat) (b : Block), p.bundle.blocks[n]? = some b → ∀ k, b.bib = .some k ↔
      ∃ ops : BibSet, p.bibs[k]? = some ops ∧ n ∈ ops.operations := by
    intro n b hb k
    obtain ⟨b', hb', -, rfl⟩ := hget n b hb
    rw [(hsame b').2.2 k, hbib.bib n b' hb' k, hbibs]
  have hexact : ∀ (n : Nat) (b : Block), p.bundle.blocks[n]? = some b → ∀ m, b.bcb = some m ↔
      ∃ ops : BcbSet, p.bcbs[m]? = some ops ∧ n ∈ ops.operations := by
    intro n b hb m
    obtain ⟨b', -, hm, rfl⟩ := hget n b hb
    rw [(hsame b').1, hbcbs, ← targets_iter, ← hbcb.bcb n _ hm m]
    rfl
  have hbcbTarget : ∀ (m n : Nat) (ops : BcbSet), p.bcbs[m]? = some ops → n ∈ ops.operations →
      ∃ b : Block, p.bundle.blocks[n]? = some b ∧ b.blockType ≠ .primary ∧
        b.blockType ≠ .blockSecurity := by
    intro m n ops hops hn
    rw [hbcbs] at hops
    obtain ⟨b, hb, hp, hs⟩ := hbcb.target m n (targets_iter.mpr ⟨ops, hops, hn⟩)
    obtain ⟨b', -, rfl, hb''⟩ := hback n b hb
    refine ⟨_, hb'', ?_⟩
    rw [(hsame b').2.1]
    exact ⟨hp, hs⟩
  have hbibTarget : ∀ (m n : Nat) (ops : BibSet), p.bibs[m]? = some ops → n ∈ ops.operations →
      ∃ b : Block, p.bundle.blocks[n]? = some b ∧ b.blockType ≠ .blockSecurity ∧
        b.blockType ≠ .blockIntegrity := by
    intro m n ops hops hn
    rw [hbibs] at hops
    obtain ⟨b, hb, hs, hi⟩ := hbib.target m n ops hops hn
    obtain ⟨b', -, rfl, hb''⟩ := hback n b hb
    refine ⟨_, hb'', ?_⟩
    rw [(hsame b').2.1]
    exact ⟨hs, hi⟩
  refine ⟨hexact, ?_, hsome, ?_, ?_, ?_, hbcbTarget, hbibTarget⟩
  · intro n m m' ops ops' hm hm' hn hn'
    obtain ⟨b, hb, -⟩ := hbcbTarget m n ops hm hn
    have h₁ := (hexact n b hb m).mpr ⟨ops, hm, hn⟩
    have h₂ := (hexact n b hb m').mpr ⟨ops', hm', hn'⟩
    exact Option.some.inj (h₁.symm.trans h₂)
  · intro n m m' ops ops' hm hm' hn hn'
    obtain ⟨b, hb, -⟩ := hbibTarget m n ops hm hn
    have h₁ := (hsome n b hb m).mpr ⟨ops, hm, hn⟩
    have h₂ := (hsome n b hb m').mpr ⟨ops', hm', hn'⟩
    exact BibCoverage.some.inj (h₁.symm.trans h₂)
  · intro n b hb ht
    obtain ⟨b', hb', hm, rfl⟩ := hget n b hb
    rw [(hsame b').2.1] at ht
    rw [(hsame b').1, hbibs, hbib.read n]
    constructor
    · intro hn
      by_contra hc
      exact hn ⟨(hpend n b' hb').mpr ht, _, hm, by simpa [Block.unsigned] using hc⟩
    · intro hc hn
      obtain ⟨-, b₁, hb₁, hnone⟩ := hn
      cases hm.symm.trans hb₁
      rw [show b'.bcb = none from hnone] at hc
      cases hc
  · intro n b hb
    have hplain := hsome n b hb
    obtain ⟨b', hb', -, rfl⟩ := hget n b hb
    have hsettled := hbib.settled n b' hb'
    rw [← hhidden]
    simp only [hbibs, ← hbib.bib n b' hb']
    rw [(hsame b').1, (hsame b').2.1]
    by_cases hu : s.hasUndecryptable = true
    · rw [if_pos hu, sweepMaybe_maybe hsettled]
      simp only [hu, true_and]
    · rw [if_neg hu]
      exact ⟨fun h => absurd h hsettled, fun h => absurd h.1 hu⟩

end Hardy
