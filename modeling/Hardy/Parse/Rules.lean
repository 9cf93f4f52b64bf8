import Hardy.Parse.Compose

/-!
# The rules of `finish`, without an order

What the two passes of `finish` check, said of the operation sets as a whole
(`Rules`).  Bundles that follow the rules are accepted, and those that are
accepted follow them.
-/

namespace Hardy

open Cbor Bpsec

def Covers {Op : Type} (sets : HashMap (OperationSet Op)) (n : Nat) : Prop :=
  ∃ (k : Nat) (ops : OperationSet Op), sets[k]? = some ops ∧ n ∈ ops.operations

def Block.kind (b : Block) : BlockType × BlockFlags := (b.blockType, b.flags)

def kinds (blocks : HashMap Block) (n : Nat) : Option (BlockType × BlockFlags) :=
  blocks[n]?.map Block.kind

/-- RFC 9172 over the kinds of the blocks, the BCBs and the BIBs in plaintext. -/
structure Rules (kinds : Nat → Option (BlockType × BlockFlags)) (bcbs : HashMap BcbSet)
    (bibs : HashMap BibSet) : Prop where
  bcb : ∀ (k : Nat) (ops : BcbSet), bcbs[k]? = some ops → ∃ t flags, kinds k = some (t, flags) ∧
    flags.deleteBlockOnFailure = false ∧ ∀ n, n ∈ ops.operations → ∃ t' flags',
      kinds n = some (t', flags') ∧ t' ≠ .primary ∧ t' ≠ .blockSecurity ∧
        (t' = .payload → flags.mustReplicate = true)
  bcb_unique : ∀ (n k k' : Nat) (ops ops' : BcbSet), bcbs[k]? = some ops → bcbs[k']? = some ops' →
    n ∈ ops.operations → n ∈ ops'.operations → k = k'
  bib : ∀ (k n : Nat) (ops : BibSet), bibs[k]? = some ops → n ∈ ops.operations → ∃ t flags,
    kinds n = some (t, flags) ∧ t ≠ .blockSecurity ∧ t ≠ .blockIntegrity
  bib_unique : ∀ (n k k' : Nat) (ops ops' : BibSet), bibs[k]? = some ops → bibs[k']? = some ops' →
    n ∈ ops.operations → n ∈ ops'.operations → k = k'
  bib_plain : ∀ (k n : Nat) (ops : BibSet), bibs[k]? = some ops → n ∈ ops.operations →
    ¬ Covers bcbs n

theorem kinds_eq {blocks : HashMap Block} {n : Nat} {t : BlockType} {flags : BlockFlags} :
    kinds blocks n = some (t, flags) ↔
      ∃ b : Block, blocks[n]? = some b ∧ b.blockType = t ∧ b.flags = flags := by
  rw [kinds, Option.map_eq_some_iff]
  simp only [Block.kind, Prod.mk.injEq]

theorem SameLayout.kinds {m m' : HashMap Block} (h : SameLayout m m') : kinds m' = kinds m := by
  funext n
  have := congrArg (Option.map Block.kind) (h n)
  rw [Option.map_map, Option.map_map] at this
  exact this

variable [Crates] [HashOrder]

/-! ## Bundles that are accepted -/

structure BibRead (data : Bytes) (blocks : HashMap Block) (s : BibPass) : Prop where
  rest : ∀ n : Nat, s.blocks[n]?.map Block.unsigned = blocks[n]?.map Block.unsigned
  read : ∀ (k : Nat) (ops : BibSet), s.bibs[k]? = some ops → ∃ b : Block, blocks[k]? = some b ∧
    BibSet.decode (b.payloadRange.slice data) = .ok ops
  plain : ∀ (k n : Nat) (ops : BibSet), s.bibs[k]? = some ops → n ∈ ops.operations →
    ∃ b : Block, blocks[n]? = some b ∧ b.bcb = none

theorem BibRead.get {data : Bytes} {blocks : HashMap Block} {s : BibPass}
    (h : BibRead data blocks s) {n : Nat} {b : Block} (hb : s.blocks[n]? = some b) :
    ∃ b₀ : Block, blocks[n]? = some b₀ ∧ b₀.bcb = b.bcb ∧ b₀.payloadRange = b.payloadRange := by
  have := h.rest n
  rw [hb] at this
  obtain ⟨b₀, hb₀, he⟩ := Option.map_eq_some_iff.mp this.symm
  refine ⟨b₀, hb₀, ?_, ?_⟩
  · exact show b₀.unsigned.bcb = b.unsigned.bcb by rw [he]
  · exact show b₀.unsigned.payloadRange = b.unsigned.payloadRange by rw [he]

theorem BibRead.step {data : Bytes} {blocks : HashMap Block} {s s' : BibPass} {bib : Nat}
    (h : BibRead data blocks s) (hs : stampBib data s bib = .ok s') : BibRead data blocks s' := by
  obtain ⟨block, hb, ⟨-, rfl⟩ | ⟨hc, ops, hdec, hcheck, rfl⟩⟩ := stampBib_ok.mp hs
  · exact ⟨h.rest, h.read, h.plain⟩
  obtain ⟨block', hb', htargets⟩ := BibSet.check_ok.mp hcheck
  cases hb.symm.trans hb'
  have hbibs : ∀ (k : Nat) (ops' : BibSet), (stampedBib s bib ops).bibs[k]? = some ops' →
      (k = bib ∧ ops' = ops) ∨ s.bibs[k]? = some ops' := by
    intro k ops' hk
    simp only [stampedBib, HashMap.getElem?_insert] at hk
    split at hk
    · next hkb => exact .inl ⟨hkb, (Option.some.inj hk).symm⟩
    · exact .inr hk
  refine ⟨fun n => ?_, fun k ops' hk => ?_, fun k n ops' hk hn => ?_⟩
  · rw [← h.rest n]
    simp only [stampedBib, getElem?_stampTargets]
    split
    · rw [Option.map_map]
      rfl
    · rfl
  · rcases hbibs k ops' hk with ⟨rfl, rfl⟩ | hk
    · obtain ⟨b₀, hb₀, -, hr⟩ := h.get hb
      exact ⟨b₀, hb₀, by rw [hr]; exact hdec⟩
    · exact h.read k ops' hk
  · rcases hbibs k ops' hk with ⟨rfl, rfl⟩ | hk
    · obtain ⟨b, ht⟩ := htargets n hn
      obtain ⟨b₀, hb₀, hbcb, -⟩ := h.get ht.get
      refine ⟨b₀, hb₀, ?_⟩
      rw [hbcb]
      by_contra hne
      have := ht.encrypted (Option.isSome_iff_ne_none.mpr hne)
      rw [hc] at this
      cases this
    · exact h.plain k n ops' hk hn

section

variable {f : Finished} {data : Bytes} {l : List Nat} {pos : Nat}

theorem finish_rules {p : Parsed} (hf : Indexed f.bundle.blocks f.pendingBibs f.bcbs l pos)
    (h : f.finish data = .ok p) : Rules (kinds p.bundle.blocks) p.bcbs p.bibs := by
  have hcov := finish_covered hf h
  have hplay := (finish_ok h).2.2.2
  obtain ⟨hv, hbcbs⟩ := finish_validate h
  obtain ⟨m₁, s, h₁, h₂, hblocks, hbibs⟩ := validate_ok.mp hv
  have hread : BibRead data m₁ s :=
    Fold.foldlM_invariant (P := BibRead data m₁) (fun _ hs hr => hs.step hr)
      ⟨fun n => rfl, fun k ops hk => by simp at hk, fun k n ops hk => by simp at hk⟩ h₂
  refine ⟨?_, hcov.bcb_unique, ?_, hcov.bib_unique, ?_⟩
  · intro k ops hops
    rw [hbcbs] at hops
    obtain ⟨m₂, m₃, hlay, hstep⟩ := Fold.foldlM_steps (P := SameLayout f.bundle.blocks)
      (fun _ hs hr => hs.trans (stampBcb_sameLayout hr)) (.refl _) h₁ (k, ops)
      (HashOrder.mem_iter.mpr hops)
    obtain ⟨block, hb, hd, htargets⟩ := BcbSet.check_ok.mp (stampBcb_ok.mp hstep).1
    rw [hplay.kinds, ← hlay.kinds]
    refine ⟨_, _, kinds_eq.mpr ⟨block, hb, rfl, rfl⟩, hd, fun n hn => ?_⟩
    obtain ⟨b, ht⟩ := htargets n hn
    exact ⟨_, _, kinds_eq.mpr ⟨b, ht.get, rfl, rfl⟩, ht.not_primary, ht.not_bcb, ht.payload⟩
  · intro k n ops hops hn
    obtain ⟨b, hb, hs, hi⟩ := hcov.bib_target k n ops hops hn
    exact ⟨_, _, kinds_eq.mpr ⟨b, hb, rfl, rfl⟩, hs, hi⟩
  · rintro k n ops hops hn ⟨k', ops', hops', hn'⟩
    rw [hbibs] at hops
    rw [hbcbs] at hops'
    obtain ⟨b, hb, hnone⟩ := hread.plain k n ops hops hn
    have := ((bcbPass hf h₁).bcb n b hb k').mpr (targets_iter.mpr ⟨ops', hops', hn'⟩)
    rw [hnone] at this
    cases this

/-! ## Bundles that follow the rules -/

end

/-! ## Compositions that follow the rules -/

omit [HashOrder] in
theorem Bundle.addAll_block (bundle : Bundle) (start : Nat) {l : List Wire} {x : Wire}
    (hnum : l.Pairwise fun x y => y.header.number ≠ x.header.number) (hx : x ∈ l) :
    ∃ l₁ l₂, l = l₁ ++ x :: l₂ ∧ (bundle.addAll start l).blocks[x.header.number]? =
      some (x.header.block (start + (wireBytes l₁).length)) := by
  obtain ⟨l₁, l₂, rfl⟩ := List.append_of_mem hx
  refine ⟨l₁, l₂, rfl, ?_⟩
  obtain ⟨-, hl₂, -⟩ := List.pairwise_append.mp hnum
  rw [addAll_append, addAll, addAll_other (List.pairwise_cons.mp hl₂).1, add,
    HashMap.getElem?_insert]
  exact if_pos rfl

namespace Composition

variable {m : Composition}

theorem Ok.numbers (h : m.Ok) :
    m.wires.Pairwise fun x y => y.header.number ≠ x.header.number := h.admissible.numbers

theorem Ok.block (h : m.Ok) {x : Wire} (hx : x ∈ m.wires) : ∃ u v,
    m.bytes = u ++ (x.bytes ++ v) ∧ m.bundle.blocks[x.header.number]? =
      some (x.header.block u.length) := by
  obtain ⟨l₁, l₂, hl, hb⟩ := Bundle.addAll_block m.head m.start h.numbers hx
  refine ⟨0x9F :: (m.primaryBytes ++ wireBytes l₁), wireBytes l₂ ++ [0xFF], ?_, ?_⟩
  · rw [bytes, hl, bundleBytes, wireBytes_append, wireBytes_cons]
    simp only [List.cons_append, List.append_assoc]
  · rw [bundle, hb]
    simp only [start, List.length_cons, List.length_append]
    congr 2
    omega

omit [HashOrder] in
theorem mem_bundle (m : Composition) {n : Nat} :
    n ∈ m.bundle.blocks ↔ n = 0 ∨ ∃ x ∈ m.wires, x.header.number = n := by
  rw [bundle, Bundle.mem_addAll]
  simp only [head, primaryBundle, Std.ExtTreeMap.mem_insert, Nat.compare_eq_eq,
    Std.ExtTreeMap.not_mem_empty, or_false]
  exact or_congr_left eq_comm

theorem Ok.indexed (h : m.Ok) : ∃ l pos,
    Indexed m.finished.bundle.blocks m.finished.pendingBibs m.finished.bcbs l pos := by
  obtain ⟨l, payload, hc⟩ := h.completes.complete
  exact ⟨_, _, hc.indexed⟩

structure Parses (m : Composition) (p : Parsed) : Prop where
  ok : m.Ok
  finish : m.finished.finish m.bytes = .ok p

end Composition

theorem parse_composition {data : Bytes} {p : Parsed} (h : parse data = .ok p) :
    ∃ m : Composition, m.Parses p ∧ m.bytes = data := by
  obtain ⟨f, hf, hfin⟩ := parse_ok.mp h
  obtain ⟨m, hm, rfl, rfl⟩ := Composition.of_completes hf
  exact ⟨m, ⟨hm, hfin⟩, rfl⟩

namespace Composition.Parses

variable {m : Composition} {p : Parsed}

theorem primary_wellFormed (h : m.Parses p) :
    m.primary.WellFormed ∧ m.primary.flagsOk = true :=
  ⟨parseField_yields PrimaryBlock.fromCbor_yields _ _ _ _ (h.ok.reads 0 []), h.ok.flagsOk⟩

theorem data (h : m.Parses p) : p.data = m.bytes := (finish_ok h.finish).1

theorem primary (h : m.Parses p) : p.bundle.primary = m.primary :=
  (finish_ok h.finish).2.1.trans (Bundle.addAll_primary _ _ _)

theorem layout (h : m.Parses p) : SameLayout m.bundle.blocks p.bundle.blocks :=
  (finish_ok h.finish).2.2.2

theorem covered (h : m.Parses p) : p.Covered := by
  obtain ⟨l, pos, hindexed⟩ := h.ok.indexed
  exact finish_covered hindexed h.finish

theorem rules (h : m.Parses p) : Rules (kinds p.bundle.blocks) p.bcbs p.bibs := by
  obtain ⟨l, pos, hindexed⟩ := h.ok.indexed
  exact finish_rules hindexed h.finish

theorem wire (h : m.Parses p) {n : Nat} {b : Block} (hb : p.bundle.blocks[n]? = some b)
    (hn : n ≠ 0) : ∃ x ∈ m.wires, ∃ u v, x.header.number = n ∧ m.bytes = u ++ (x.bytes ++ v) ∧
      b.layout = x.header.block u.length := by
  obtain ⟨b₀, hb₀, hlayout⟩ := h.layout.get hb
  rcases m.mem_bundle.mp (HashMap.mem_iff.mpr ⟨b₀, hb₀⟩) with h0 | ⟨x, hx, rfl⟩
  · exact absurd h0 hn
  obtain ⟨u, v, hbytes, hblock⟩ := h.ok.block hx
  cases hb₀.symm.trans hblock
  exact ⟨x, hx, u, v, rfl, hbytes, hlayout⟩

end Composition.Parses

theorem parse_primary {data : Bytes} {p : Parsed} (h : parse data = .ok p) :
    p.bundle.primary.WellFormed ∧ p.bundle.primary.flagsOk = true := by
  obtain ⟨m, hm, -⟩ := parse_composition h
  rw [hm.primary]
  exact hm.primary_wellFormed

theorem parse_primary_eq {pb r : Bytes} {primary : PrimaryBlock} {p : Parsed}
    (hreads : Reads PrimaryBlock.fromCbor pb (primary, true)) (hplain : Plain pb)
    (h : parse (0x9F :: (pb ++ r)) = .ok p) : p.bundle.primary = primary := by
  obtain ⟨m, hm, hbytes⟩ := parse_composition h
  obtain ⟨hcons, hrest⟩ := List.cons.inj hbytes
  have hread := hm.ok.reads 0 (wireBytes m.wires ++ [0xFF])
  rw [hrest, parseField_reads hreads hplain] at hread
  rw [hm.primary]
  exact (Prod.mk.inj (Except.ok.inj hread)).1.symm

omit [HashOrder] in
theorem Wire.wellFormed (x : Wire) : x.header.WellFormed :=
  parseField_yields BlockHeader.fromCbor_yields _ _ _ _ (x.reads 0 [])

end Hardy
