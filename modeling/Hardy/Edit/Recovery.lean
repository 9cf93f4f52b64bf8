import Hardy.Edit.Shrink
import Hardy.Parse.Rules

/-!
# Editors that come back from failures

An operation of the editor that fails hands the editor back.  Every operation but one hands back
the editor it was given: `remove_block` takes the block out before it reads the security block
that the header of the block names.  A header keeps that name when the security block is gone, and
the number can have gone to a block of any content by then.
-/

namespace Hardy

open Cbor Bpsec

inductive EditorCall where
  | withBundleFlags (flags : BundleFlags)
  | withBundleCrcType (crcType : CrcType)
  | withTimestamp (timestamp : CreationTimestamp)
  | withSource (source : Eid)
  | withDestination (destination : Eid)
  | withReportTo (reportTo : Eid)
  | withLifetime (lifetime : Duration)
  | withFragmentInfo (fragmentInfo : Option FragmentInfo)
  | pushBlock (blockType : BlockType)
  | insertBlock (blockType : BlockType)
  | updateBlock (number : Nat)
  | removeBlock (number : Nat)

/-- What the calls of the setters of a builder make of it. -/
inductive EditBuilder.Becomes (b : EditBuilder) : EditBuilder → Prop
  | refl : Becomes b b
  | withFlags {b' : EditBuilder} (h : Becomes b b') (flags : BlockFlags) :
      Becomes b (b'.withFlags flags)
  | withCrcType {b' : EditBuilder} (h : Becomes b b') (crcType : CrcType) :
      Becomes b (b'.withCrcType crcType)
  | withData {b' : EditBuilder} (h : Becomes b b') (data : Bytes) : Becomes b (b'.withData data)

theorem EditBuilder.Becomes.same {b b' : EditBuilder} (h : b.Becomes b') :
    b'.editor = b.editor ∧ b'.number = b.number ∧ b'.isNew = b.isNew ∧
      b'.template.block.bib = b.template.block.bib ∧
      b'.template.block.bcb = b.template.block.bcb := by
  induction h with
  | refl => exact ⟨rfl, rfl, rfl, rfl, rfl⟩
  | withFlags _ _ ih => exact ih
  | withCrcType _ _ ih => exact ih
  | withData _ _ ih => exact ih

theorem HashMap.mem_insert {β : Type} {m : HashMap β} {n k : Nat} {v : β} :
    n ∈ m.insert k v ↔ n = k ∨ n ∈ m := by
  rw [mem_iff, mem_iff, getElem?_insert]
  split
  · next h => simp [h]
  · next h => simp [h]

theorem Fold.map_error {ε α β : Type} {f : α → β} {r : Except ε α} {y : ε} :
    r.map f = .error y ↔ r = .error y := by
  cases r with
  | error x =>
    constructor
    · rintro ⟨⟩
      rfl
    · rintro ⟨⟩
      rfl
  | ok a =>
    constructor
    · rintro ⟨⟩
    · rintro ⟨⟩

namespace Editor

def run [Crates] [HashOrder] (e : Editor) : EditorCall → Edit (Editor ⊕ EditBuilder)
  | .withBundleFlags flags => (e.withBundleFlags flags).map .inl
  | .withBundleCrcType crcType => (e.withBundleCrcType crcType).map .inl
  | .withTimestamp timestamp => (e.withTimestamp timestamp).map .inl
  | .withSource source => (e.withSource source).map .inl
  | .withDestination destination => (e.withDestination destination).map .inl
  | .withReportTo reportTo => (e.withReportTo reportTo).map .inl
  | .withLifetime lifetime => (e.withLifetime lifetime).map .inl
  | .withFragmentInfo fragmentInfo => (e.withFragmentInfo fragmentInfo).map .inl
  | .pushBlock blockType => (e.pushBlock blockType).map .inr
  | .insertBlock blockType => (e.insertBlock blockType).map .inr
  | .updateBlock number => (e.updateBlock number).map .inr
  | .removeBlock number => (e.removeBlock number).map .inl

/-- The editors that a sequence of operations leads to, some of which may have failed. -/
inductive Reached [Crates] [HashOrder] (original : Bundle) (sourceData : Bytes) : Editor → Prop
  | new : Reached original sourceData (.new original sourceData)
  | edited {e e' : Editor} {call : EditorCall} (h : Reached original sourceData e)
      (hrun : e.run call = .ok (.inl e')) : Reached original sourceData e'
  | built {e : Editor} {call : EditorCall} {b b' : EditBuilder}
      (h : Reached original sourceData e) (hrun : e.run call = .ok (.inr b))
      (hb : b.Becomes b') : Reached original sourceData b'.rebuild
  | failed {e e' : Editor} {call : EditorCall} {x : EditorError}
      (h : Reached original sourceData e) (hrun : e.run call = .error (e', x)) :
      Reached original sourceData e'

/-! ## Where templates come from -/

def StemsFrom (original : Bundle) (n : Nat) : EditTemplate → Prop
  | .keep t => ∃ b : Block, original.blocks[n]? = some b ∧ b.blockType = t
  | .update t => ∃ b : Block, original.blocks[n]? = some b ∧ t.block.bib = b.bib ∧
      t.block.bcb = b.bcb
  | .insert t => t.block.bib = .none ∧ t.block.bcb = none

structure Stems (o : Bundle) (e : Editor) : Prop where
  original : e.original = o
  template : ∀ (n : Nat) (t : EditTemplate), e.blocks[n]? = some t → StemsFrom o n t

section

variable {o : Bundle} {e e' : Editor} {n k : Nat}

theorem Stems.new (o : Bundle) (data : Bytes) : Stems o (.new o data) := by
  refine ⟨rfl, fun n t ht => ?_⟩
  rw [Editor.new, Std.ExtTreeMap.getElem?_map] at ht
  obtain ⟨b, hb, rfl⟩ := Option.map_eq_some_iff.mp ht
  exact ⟨b, hb, rfl⟩

theorem Stems.congr (h : Stems o e) (ho : e'.original = e.original)
    (hb : ∀ n : Nat, e'.blocks[n]? = e.blocks[n]? ∨ e'.blocks[n]? = none) : Stems o e' := by
  refine ⟨ho.trans h.original, fun n t ht => ?_⟩
  rcases hb n with hn | hn
  · exact h.template n t (hn.symm.trans ht)
  · rw [hn] at ht
    cases ht

theorem Stems.eraseBlock (h : Stems o e) (n : Nat) : Stems o (e.eraseBlock n) := by
  refine h.congr rfl fun m => ?_
  rw [blocks_eraseBlock]
  split
  · exact .inr rfl
  · exact .inl rfl

theorem Stems.setBlock (h : Stems o e) {t : EditTemplate} (ht : StemsFrom o n t) :
    Stems o (e.setBlock n t) := by
  refine ⟨h.original, fun m t' ht' => ?_⟩
  rw [blocks_setBlock] at ht'
  split at ht'
  · next hm =>
      cases ht'
      rw [hm]
      exact ht
  · exact h.template m t' ht'

theorem Stems.restages (h : Stems o e) {t t' : BlockTemplate} {isNew : Bool}
    (hn : n ∈ e.blocks) (ht : e.Restages n t isNew) (hbib : t'.block.bib = t.block.bib)
    (hbcb : t'.block.bcb = t.block.bcb) : StemsFrom o n (staged isNew t') := by
  obtain ⟨t₀, ht₀⟩ := HashMap.mem_iff.mp hn
  have hstems := h.template n t₀ ht₀
  cases t₀ with
  | keep blockType =>
    obtain ⟨rfl, -, b, hb, hblock, -⟩ := ht.kept blockType ht₀
    rw [h.original] at hb
    refine ⟨b, hb, ?_, ?_⟩
    · rw [hbib, hblock]
    · rw [hbcb, hblock]
  | update t₀ =>
    obtain ⟨rfl, rfl⟩ := ht.staged t₀ ht₀
    obtain ⟨b, hb, h₁, h₂⟩ := hstems
    exact ⟨b, hb, hbib.trans h₁, hbcb.trans h₂⟩
  | insert t₀ =>
    obtain ⟨rfl, rfl⟩ := ht.inserted t₀ ht₀
    exact ⟨hbib.trans hstems.1, hbcb.trans hstems.2⟩

theorem Stems.header (h : Stems o e) {header : Block} {body : Option Bytes}
    (hn : e.block n = some (header, body)) : header.bib = .none ∧ header.bcb = none ∨
      ∃ b : Block, o.blocks[n]? = some b ∧ header.bib = b.bib ∧ header.bcb = b.bcb := by
  unfold block at hn
  cases ht : e.blocks[n]? with
  | none => rw [ht] at hn; cases hn
  | some t =>
    have hstems := h.template n t ht
    rw [ht] at hn
    cases t with
    | keep blockType =>
      obtain ⟨b, hb, hpair⟩ := Option.map_eq_some_iff.mp hn
      cases hpair
      rw [h.original] at hb
      exact .inr ⟨header, hb, rfl, rfl⟩
    | update t =>
      cases hn
      exact .inr hstems
    | insert t =>
      cases hn
      exact .inl hstems

/-! ## What the cascade leaves -/

structure Beside (e : Editor) (k : Nat) (e' : Editor) : Prop where
  original : e'.original = e.original
  sourceData : e'.sourceData = e.sourceData
  blocks : ∀ n : Nat, n ≠ k → e'.blocks[n]? = e.blocks[n]?

theorem Beside.refl (e : Editor) (k : Nat) : Beside e k e := ⟨rfl, rfl, fun _ _ => rfl⟩

theorem clearBib_beside (e : Editor) (n : Nat) : Beside e k (clearBib e n) :=
  ⟨rfl, rfl, fun _ _ => rfl⟩

theorem clearBcb_beside (e : Editor) (n : Nat) : Beside e k (clearBcb e n) :=
  ⟨rfl, rfl, fun _ _ => rfl⟩

def Bare (e : Editor) (k : Nat) : Prop :=
  ∀ header body, e.block k = some (header, body) →
    (∀ j, header.bib ≠ .some j) ∧ header.bcb = none

def Unreadable {Op : Type} (parse : Bytes → Except Bpsec.Error (OperationSet Op)) (e : Editor)
    (k : Nat) : Prop :=
  ∃ header body x, e.block k = some (header, some body) ∧ parse body = .error x

def coverage (e : Editor) (n : Nat) : BibCoverage × Option Nat :=
  match e.block n with
  | some (block, _) => (block.bib, block.bcb)
  | none => (.none, none)

variable [Crates] [HashOrder]

def stripBib (fuel : Nat) (e : Editor) (n : Nat) : BibCoverage → Edit Editor
  | .some bib =>
    removeFromTargets (parseExact (OperationSet.fromCbor BibSet.unpack)) BibSet.toCbor
      "BIB Abstract Syntax Block" clearBib (removeBlockInner fuel) e n bib
  | _ => .ok e

def stripBcb (fuel : Nat) (e : Editor) (n : Nat) : Option Nat → Edit Editor
  | some bcb =>
    removeFromTargets (parseExact (OperationSet.fromCbor BcbSet.unpack)) BcbSet.toCbor
      "BCB Abstract Syntax Block" clearBcb (removeBlockInner fuel) e n bcb
  | none => .ok e

theorem removeBlockInner_succ (fuel : Nat) (e : Editor) (n : Nat) :
    removeBlockInner (fuel + 1) e n =
      if n ∈ (e.uncover n).blocks then
        (stripBib fuel ((e.uncover n).eraseBlock n) n (e.coverage n).1 >>= fun e' =>
          stripBcb fuel e' n (e.coverage n).2)
      else .ok (e.uncover n) := by
  rw [removeBlockInner, coverage]
  cases e.block n with
  | none => rfl
  | some v =>
    obtain ⟨block, body⟩ := v
    dsimp only
    cases block.bib <;> rfl

theorem removeBlockInner_bare (fuel : Nat) (h : e.Bare k) :
    ∃ e', removeBlockInner fuel e k = .ok e' ∧ Beside e k e' := by
  cases fuel with
  | zero => exact ⟨e, rfl, rfl, rfl, fun _ _ => rfl⟩
  | succ fuel =>
    obtain ⟨overrides, hu, -⟩ := uncover_eq e k
    have hbeside : Beside e k (e.uncover k) := by
      rw [hu]
      exact ⟨rfl, rfl, fun _ _ => rfl⟩
    have herased : Beside e k ((e.uncover k).eraseBlock k) := by
      refine ⟨hbeside.original, hbeside.sourceData, fun n hn => ?_⟩
      rw [blocks_eraseBlock, if_neg hn]
      exact hbeside.blocks n hn
    have hbib : ∀ j, (e.coverage k).1 ≠ .some j := by
      unfold coverage
      cases hb : e.block k with
      | none => exact fun _ => nofun
      | some v => exact (h v.1 v.2 hb).1
    have hbcb : (e.coverage k).2 = none := by
      unfold coverage
      cases hb : e.block k with
      | none => rfl
      | some v => exact (h v.1 v.2 hb).2
    rw [removeBlockInner_succ, hbcb]
    split
    · cases hcov : (e.coverage k).1 with
      | some j => exact absurd hcov (hbib j)
      | none => exact ⟨_, rfl, herased⟩
      | maybe => exact ⟨_, rfl, herased⟩
    · exact ⟨_, rfl, hbeside⟩

section

variable {Op : Type} {parse : Bytes → Except Bpsec.Error (OperationSet Op)}
  {emit : OperationSet Op → Bytes} {field : String} {clear : Editor → Nat → Editor} {fuel : Nat}

theorem removeFromTargets_beside (hclear : ∀ e n, Beside e k (clear e n)) (hbare : e.Bare k)
    (h : removeFromTargets parse emit field clear (removeBlockInner fuel) e n k = .ok e') :
    Beside e k e' := by
  rcases removeFromTargets_ok h with ⟨rfl, -⟩ | ⟨b, body, ops, -, -, -, hcase⟩
  · exact ⟨rfl, rfl, fun _ _ => rfl⟩
  rcases hcase with ⟨-, e₁, h₁, rfl⟩ | ⟨-, t, isNew, -, -, rfl⟩
  · obtain ⟨e₂, h₂, hbeside⟩ := removeBlockInner_bare fuel hbare
    cases h₁.symm.trans h₂
    have hlast := hclear e₁ n
    exact ⟨hlast.original.trans hbeside.original, hlast.sourceData.trans hbeside.sourceData,
      fun m hm => (hlast.blocks m hm).trans (hbeside.blocks m hm)⟩
  · have hlast := hclear (e.setBlock k (staged isNew { t with data := some (emit (ops.without n)) })) n
    refine ⟨hlast.original, hlast.sourceData, fun m hm => (hlast.blocks m hm).trans ?_⟩
    rw [blocks_setBlock, if_neg hm]

theorem removeFromTargets_error {e' : Editor} {x : EditorError} (hbare : e.Bare k)
    (hupdate : (e.block k).isSome = true → ∃ b, e.updateBlockInner k = .ok b)
    (h : removeFromTargets parse emit field clear (removeBlockInner fuel) e n k = .error (e', x)) :
    e' = e ∧ e.Unreadable parse k := by
  unfold removeFromTargets at h
  split at h
  · next header body hb =>
      split at h
      · next y hy =>
          cases h
          exact ⟨rfl, header, body, y, hb, hy⟩
      · next ops hops =>
          split at h
          · dsimp only at h
            split at h
            · obtain ⟨e₁, h₁, -⟩ := removeBlockInner_bare fuel hbare
              rw [h₁] at h
              cases h
            · obtain ⟨b, hb'⟩ := hupdate (by rw [hb]; rfl)
              rw [hb'] at h
              cases h
          · cases h
  · cases h

theorem removeFromTargets_unreadable (h : e.Unreadable parse k) :
    ∃ x, removeFromTargets parse emit field clear (removeBlockInner fuel) e n k =
      .error (e, x) := by
  obtain ⟨header, body, x, hb, hx⟩ := h
  refine ⟨.ofError (.invalidField field (.invalidBPSec x)), ?_⟩
  rw [removeFromTargets, hb]
  dsimp only
  rw [hx]

omit [Crates] [HashOrder] in
theorem removeFromTargets_stems (hclear : ∀ e n, (clear e n).original = e.original ∧
    (clear e n).blocks = e.blocks) {removeBlock : Editor → Nat → Edit Editor}
    (hremove : ∀ {e e'}, Stems o e → removeBlock e k = .ok e' → Stems o e') (hs : Stems o e)
    (h : removeFromTargets parse emit field clear removeBlock e n k = .ok e') : Stems o e' := by
  have hcleared : ∀ {e}, Stems o e → Stems o (clear e n) := fun {e} hs =>
    hs.congr (hclear e n).1 fun m => .inl (by rw [(hclear e n).2])
  rcases removeFromTargets_ok h with ⟨rfl, -⟩ | ⟨b, body, ops, -, -, -, hcase⟩
  · exact hs
  rcases hcase with ⟨-, e₁, h₁, rfl⟩ | ⟨-, t, isNew, hk, ht, rfl⟩
  · exact hcleared (hremove hs h₁)
  · exact hcleared (hs.setBlock (hs.restages hk ht rfl rfl))

end

omit [Crates] [HashOrder] in
theorem clearBib_same (e : Editor) (n : Nat) :
    (clearBib e n).original = e.original ∧ (clearBib e n).blocks = e.blocks := ⟨rfl, rfl⟩

omit [Crates] [HashOrder] in
theorem clearBcb_same (e : Editor) (n : Nat) :
    (clearBcb e n).original = e.original ∧ (clearBcb e n).blocks = e.blocks := ⟨rfl, rfl⟩

theorem removeBlockInner_stems (fuel : Nat) : ∀ {e e' : Editor} {n : Nat}, Stems o e →
    removeBlockInner fuel e n = .ok e' → Stems o e' := by
  induction fuel with
  | zero =>
    intro e e' n hs h
    cases h
    exact hs
  | succ fuel ih =>
    intro e e' n hs h
    obtain ⟨overrides, hu, -⟩ := uncover_eq e n
    have huncover : Stems o (e.uncover n) := by
      rw [hu]
      exact hs.congr rfl fun _ => .inl rfl
    rw [removeBlockInner_succ] at h
    split at h
    · obtain ⟨e₁, h₁, h₂⟩ := Fold.bind_ok.mp h
      have hfirst : Stems o e₁ := by
        cases hbib : (e.coverage n).1 with
        | some k =>
          rw [hbib] at h₁
          exact removeFromTargets_stems clearBib_same ih (huncover.eraseBlock n) h₁
        | none =>
          rw [hbib] at h₁
          cases h₁
          exact huncover.eraseBlock n
        | maybe =>
          rw [hbib] at h₁
          cases h₁
          exact huncover.eraseBlock n
      cases hbcb : (e.coverage n).2 with
      | some k =>
        rw [hbcb] at h₂
        exact removeFromTargets_stems clearBcb_same ih hfirst h₂
      | none =>
        rw [hbcb] at h₂
        cases h₂
        exact hfirst
    · cases h
      exact huncover

/-! ## Failures -/

def Outer (o : Bundle) (k : Nat) : Prop :=
  ∃ s : Block, o.blocks[k]? = some s ∧ s.blockType ≠ .primary ∧ (∀ j, s.bib ≠ .some j) ∧
    s.bcb = none

/-- What the parser promises of the coverage in a bundle.  No block has a BIB in plaintext and a
BCB. -/
structure Sealed (o : Bundle) : Prop where
  bib : ∀ (n : Nat) (b : Block), o.blocks[n]? = some b → ∀ k, b.bib = .some k →
    b.bcb = none ∧ Outer o k
  bcb : ∀ (n : Nat) (b : Block), o.blocks[n]? = some b → ∀ k, b.bcb = some k → Outer o k

section

variable {header : Block} {body : Option Bytes} {x : EditorError}

omit [Crates] [HashOrder]

theorem Outer.bare (h : Outer o k) (hs : Stems o e) : e.Bare k := by
  obtain ⟨s, hk, -, hbib, hbcb⟩ := h
  intro header body hb
  rcases hs.header hb with ⟨h₁, h₂⟩ | ⟨b, hb', h₁, h₂⟩
  · rw [h₁]
    exact ⟨fun _ => nofun, h₂⟩
  · cases hk.symm.trans hb'
    rw [h₁, h₂]
    exact ⟨hbib, hbcb⟩

theorem Sealed.bib_header (ho : Sealed o) (hs : Stems o e) (hn : e.block n = some (header, body))
    (hk : header.bib = .some k) : header.bcb = none ∧ n ≠ k ∧ Outer o k := by
  rcases hs.header hn with ⟨h₁, -⟩ | ⟨b, hb, h₁, h₂⟩
  · cases h₁.symm.trans hk
  · obtain ⟨hbcb, houter⟩ := ho.bib n b hb k (h₁.symm.trans hk)
    refine ⟨h₂.trans hbcb, ?_, houter⟩
    rintro rfl
    obtain ⟨s, hs', -, hbib, -⟩ := houter
    cases hb.symm.trans hs'
    exact hbib n (h₁.symm.trans hk)

theorem Sealed.bcb_header (ho : Sealed o) (hs : Stems o e) (hn : e.block n = some (header, body))
    (hk : header.bcb = some k) : n ≠ k ∧ Outer o k := by
  rcases hs.header hn with ⟨-, h₂⟩ | ⟨b, hb, -, h₂⟩
  · cases h₂.symm.trans hk
  · have houter := ho.bcb n b hb k (h₂.symm.trans hk)
    refine ⟨?_, houter⟩
    rintro rfl
    obtain ⟨s, hs', -, -, hbcb⟩ := houter
    cases hb.symm.trans hs'
    cases hbcb.symm.trans (h₂.symm.trans hk)

theorem updateBlockInner_total (hn : e.block n = some (header, body))
    (hne : ∀ t, e.blocks[n]? = some (.keep t) → t ≠ .primary) :
    ∃ b, e.updateBlockInner n = .ok b := by
  unfold block at hn
  unfold updateBlockInner
  cases ht : e.blocks[n]? with
  | none => rw [ht] at hn; cases hn
  | some t =>
    rw [ht] at hn
    cases t with
    | keep blockType =>
      obtain ⟨b, hb, -⟩ := Option.map_eq_some_iff.mp hn
      dsimp only
      rw [if_neg (hne blockType ht), hb]
      exact ⟨_, rfl⟩
    | update t => exact ⟨_, rfl⟩
    | insert t => exact ⟨_, rfl⟩

theorem Outer.updates (h : Outer o k) (hs : Stems o e) (hk : (e.block k).isSome = true) :
    ∃ b, e.updateBlockInner k = .ok b := by
  obtain ⟨⟨header, body⟩, hb⟩ := Option.isSome_iff_exists.mp hk
  refine updateBlockInner_total hb fun t ht => ?_
  obtain ⟨b, hb, rfl⟩ := hs.template k _ ht
  obtain ⟨s, hs', hne, -⟩ := h
  cases hb.symm.trans hs'
  exact hne

end

section

variable {header : Block} {body : Option Bytes} {x : EditorError}

omit [Crates] [HashOrder] in
theorem updateBlockInner_beside {e₁ : Editor} (hs : Stems o e) (hb : Beside e k e₁) (hne : n ≠ k)
    (hn : e.block n = some (header, body)) (ht : header.blockType ≠ .primary) :
    ∃ b, e₁.updateBlockInner n = .ok b := by
  have hsame := hb.blocks n hne
  refine updateBlockInner_total ((block_congr hb.original hb.sourceData hsame).trans hn)
    fun t hk => ?_
  rw [hsame] at hk
  obtain ⟨b, ho, rfl⟩ := hs.template n _ hk
  rw [block_keep hk, hs.original, ho] at hn
  cases hn
  exact ht

theorem updateBlock_error (ho : Sealed o) (hs : Stems o e)
    (h : e.updateBlock n = .error (e', x)) : e' = e := by
  unfold updateBlock at h
  cases hn : e.block n with
  | none =>
    rw [hn] at h
    cases h
    rfl
  | some v =>
    obtain ⟨block, body⟩ := v
    rw [hn] at h
    dsimp only at h
    split at h
    · cases h
      rfl
    split at h
    · cases h
      rfl
    next hprimary _ =>
    cases hbib : block.bib with
    | maybe =>
      rw [hbib] at h
      cases h
      rfl
    | some k =>
      obtain ⟨hbcb, hne, houter⟩ := ho.bib_header hs hn hbib
      rw [hbib, hbcb] at h
      dsimp only at h
      split at h
      · cases h
        rfl
      rcases Fold.bind_error.mp h with h | ⟨e₁, h₁, h₂⟩
      · exact (removeFromTargets_error (houter.bare hs) (houter.updates hs) h).1
      · have hbeside := removeFromTargets_beside clearBib_beside (houter.bare hs) h₁
        obtain ⟨b, hb⟩ := updateBlockInner_beside hs hbeside hne hn hprimary
        cases h₂.symm.trans hb
    | none =>
      rw [hbib] at h
      cases hbcb : block.bcb with
      | none =>
        rw [hbcb] at h
        obtain ⟨b, hb⟩ := updateBlockInner_beside hs (Beside.refl e (n + 1))
          (Nat.succ_ne_self n).symm hn hprimary
        cases Eq.symm hb |>.trans h
      | some k =>
        obtain ⟨hne, houter⟩ := ho.bcb_header hs hn hbcb
        rw [hbcb] at h
        replace h : (e.removeFromBcbTargets n k >>= fun e₁ => e₁.updateBlockInner n) =
          .error (e', x) := h
        rcases Fold.bind_error.mp h with h | ⟨e₁, h₁, h₂⟩
        · exact (removeFromTargets_error (houter.bare hs) (houter.updates hs) h).1
        · have hbeside := removeFromTargets_beside clearBcb_beside (houter.bare hs) h₁
          obtain ⟨b, hb⟩ := updateBlockInner_beside hs hbeside hne hn hprimary
          cases h₂.symm.trans hb

/-- The header of the block names, as its BIB or else as its BCB, a block whose body is not an
operation set. -/
def Misdirected (e : Editor) (n : Nat) : Prop :=
  ∃ header body, e.block n = some (header, body) ∧ isSecurity header.blockType = false ∧
    ((∃ k, header.bib = .some k ∧
        e.Unreadable (parseExact (OperationSet.fromCbor BibSet.unpack)) k) ∨
      header.bib = .none ∧ ∃ k, header.bcb = some k ∧
        e.Unreadable (parseExact (OperationSet.fromCbor BcbSet.unpack)) k)

omit [Crates] [HashOrder] in
theorem unreadable_eraseBlock {Op : Type} {parse : Bytes → Except Bpsec.Error (OperationSet Op)}
    (hne : n ≠ k) : (e.eraseBlock n).Unreadable parse k ↔ e.Unreadable parse k := by
  unfold Unreadable
  rw [block_eraseBlock hne.symm]

theorem uncover_plain (hn : e.block n = some (header, body))
    (ht : isSecurity header.blockType = false) : e.uncover n = e := by
  refine uncover_of_no_targets ?_
  rw [bibTargets, hn]
  cases body with
  | none => rfl
  | some body =>
    dsimp only
    refine if_neg fun h => ?_
    rw [h] at ht
    cases ht

omit [Crates] [HashOrder] in
theorem mem_of_block (hn : e.block n = some (header, body)) : n ∈ e.blocks := by
  unfold block at hn
  cases ht : e.blocks[n]? with
  | none => rw [ht] at hn; cases hn
  | some t => exact HashMap.mem_iff.mpr ⟨t, ht⟩

theorem removeBlockInner_plain (fuel : Nat) (hn : e.block n = some (header, body))
    (ht : isSecurity header.blockType = false) :
    removeBlockInner (fuel + 1) e n = (stripBib fuel (e.eraseBlock n) n header.bib >>= fun e' =>
      stripBcb fuel e' n header.bcb) := by
  rw [removeBlockInner_succ, uncover_plain hn ht, if_pos (mem_of_block hn), coverage, hn]

theorem removeBlockInner_error {fuel : Nat} (ho : Sealed o) (hs : Stems o e)
    (hn : e.block n = some (header, body)) (ht : isSecurity header.blockType = false)
    (hmaybe : header.bib ≠ .maybe) (h : removeBlockInner (fuel + 1) e n = .error (e', x)) :
    e.Misdirected n := by
  refine ⟨header, body, hn, ht, ?_⟩
  rw [removeBlockInner_plain fuel hn ht] at h
  cases hbib : header.bib with
  | maybe => exact absurd hbib hmaybe
  | some k =>
    obtain ⟨hbcb, hne, houter⟩ := ho.bib_header hs hn hbib
    rw [hbib, hbcb] at h
    have hs' := hs.eraseBlock n
    rcases Fold.bind_error.mp h with h | ⟨e₁, -, h₂⟩
    · have herror := removeFromTargets_error (houter.bare hs') (houter.updates hs') h
      exact .inl ⟨k, rfl, (unreadable_eraseBlock hne).mp herror.2⟩
    · cases h₂
  | none =>
    rw [hbib] at h
    cases hbcb : header.bcb with
    | none =>
      rw [hbcb] at h
      cases h
    | some k =>
      obtain ⟨hne, houter⟩ := ho.bcb_header hs hn hbcb
      rw [hbcb] at h
      have hs' := hs.eraseBlock n
      have herror := removeFromTargets_error (houter.bare hs') (houter.updates hs') h
      exact .inr ⟨rfl, k, rfl, (unreadable_eraseBlock hne).mp herror.2⟩

theorem removeBlockInner_misdirected (fuel : Nat) (ho : Sealed o) (hs : Stems o e)
    (h : e.Misdirected n) :
    ∃ x, removeBlockInner (fuel + 1) e n = .error (e.eraseBlock n, x) := by
  obtain ⟨header, body, hn, ht, ⟨k, hbib, hread⟩ | ⟨hbib, k, hbcb, hread⟩⟩ := h
  · obtain ⟨-, hne, -⟩ := ho.bib_header hs hn hbib
    obtain ⟨x, hx⟩ := removeFromTargets_unreadable ((unreadable_eraseBlock hne).mpr hread)
    rw [removeBlockInner_plain fuel hn ht, hbib]
    exact ⟨x, Fold.bind_error.mpr (.inl hx)⟩
  · obtain ⟨hne, -⟩ := ho.bcb_header hs hn hbcb
    obtain ⟨x, hx⟩ := removeFromTargets_unreadable ((unreadable_eraseBlock hne).mpr hread)
    rw [removeBlockInner_plain fuel hn ht, hbib, hbcb]
    exact ⟨x, hx⟩

theorem removeBlock_error (ho : Sealed o) (hs : Stems o e)
    (h : e.removeBlock n = .error (e', x)) : e' = e ∨ 2 ≤ n ∧ e.Misdirected n := by
  unfold removeBlock at h
  split at h
  · cases h
    exact .inl rfl
  split at h
  · cases h
    exact .inl rfl
  have htwo : 2 ≤ n := by omega
  cases hn : e.block n with
  | none =>
    rw [hn] at h
    have hbare : e.Bare n := fun header body hb => by cases hn.symm.trans hb
    obtain ⟨e₁, h₁, -⟩ := removeBlockInner_bare (e.blocks.size + 1) hbare
    cases h₁.symm.trans h
  | some v =>
    obtain ⟨block, body⟩ := v
    rw [hn] at h
    dsimp only at h
    split at h
    · cases h
      exact .inl rfl
    next hsecurity =>
    have ht := Bool.eq_false_of_not_eq_true hsecurity
    cases hbib : block.bib with
    | maybe =>
      rw [hbib] at h
      cases h
      exact .inl rfl
    | some k =>
      rw [hbib] at h
      dsimp only at h
      split at h
      · cases h
        exact .inl rfl
      · refine .inr ⟨htwo, removeBlockInner_error ho hs hn ht ?_ h⟩
        rw [hbib]
        exact nofun
    | none =>
      rw [hbib] at h
      refine .inr ⟨htwo, removeBlockInner_error ho hs hn ht ?_ h⟩
      rw [hbib]
      exact nofun

theorem removeBlock_misdirected (ho : Sealed o) (hs : Stems o e) (htwo : 2 ≤ n)
    (h : e.Misdirected n) : ∃ x, e.removeBlock n = .error (e.eraseBlock n, x) := by
  obtain ⟨x, hx⟩ := removeBlockInner_misdirected e.blocks.size ho hs h
  obtain ⟨header, body, hn, ht, hnamed⟩ := h
  refine ⟨x, ?_⟩
  rw [removeBlock, if_neg (by omega), if_neg (by omega), hn]
  dsimp only
  rw [ht, if_neg Bool.false_ne_true]
  rcases hnamed with ⟨k, hbib, hread⟩ | ⟨hbib, -⟩
  · obtain ⟨-, -, houter⟩ := ho.bib_header hs hn hbib
    have hplain : e.isEncrypted k = false := by
      unfold isEncrypted
      cases hk : e.block k with
      | none => rfl
      | some v =>
        have hbcb := (houter.bare hs v.1 v.2 hk).2
        exact Option.isSome_eq_false_iff.mpr (Option.isNone_iff_eq_none.mpr hbcb)
    rw [hbib]
    dsimp only
    rw [hplain]
    exact hx
  · rw [hbib]
    exact hx

/-! ## Runs -/

omit [Crates] [HashOrder] in
theorem StemsFrom.congr {t t' : BlockTemplate} {isNew : Bool}
    (h : StemsFrom o n (staged isNew t)) (hbib : t'.block.bib = t.block.bib)
    (hbcb : t'.block.bcb = t.block.bcb) : StemsFrom o n (staged isNew t') := by
  cases isNew with
  | true => exact ⟨hbib.trans h.1, hbcb.trans h.2⟩
  | false =>
    obtain ⟨b, hb, h₁, h₂⟩ := h
    exact ⟨b, hb, hbib.trans h₁, hbcb.trans h₂⟩

structure BuilderStems (o : Bundle) (b : EditBuilder) : Prop where
  editor : Stems o b.editor
  template : StemsFrom o b.number (staged b.isNew b.template)

omit [Crates] [HashOrder] in
theorem BuilderStems.rebuild {b b' : EditBuilder} (h : BuilderStems o b) (hb : b.Becomes b') :
    Stems o b'.rebuild := by
  obtain ⟨he, hn, hnew, hbib, hbcb⟩ := hb.same
  rw [rebuild_eq, he, hn, hnew]
  exact h.editor.setBlock (h.template.congr hbib hbcb)

variable {b : EditBuilder}

omit [Crates] [HashOrder] in
theorem updateBlockInner_stems (hs : Stems o e)
    (h : e.updateBlockInner n = .ok b) : BuilderStems o b := by
  obtain ⟨rfl, rfl, hmem, hre⟩ := updateBlockInner_ok h
  exact ⟨hs, hs.restages hmem hre rfl rfl⟩

theorem updateBlock_stems (hs : Stems o e) (h : e.updateBlock n = .ok b) : BuilderStems o b := by
  unfold updateBlock at h
  cases hn : e.block n with
  | none =>
    rw [hn] at h
    cases h
  | some v =>
    obtain ⟨block, body⟩ := v
    rw [hn] at h
    dsimp only at h
    split at h
    · cases h
    split at h
    · cases h
    have hbcb : ∀ {e₁ : Editor}, Stems o e₁ → (match block.bcb with
        | some bcb => e₁.removeFromBcbTargets n bcb >>= fun e => e.updateBlockInner n
        | none => e₁.updateBlockInner n) = .ok b → BuilderStems o b := by
      intro e₁ h₁ h
      split at h
      · next k _ =>
          obtain ⟨e₂, h₂, h₃⟩ := Fold.bind_ok.mp h
          exact updateBlockInner_stems (removeFromTargets_stems clearBcb_same
            (removeBlockInner_stems _) h₁ h₂) h₃
      · exact updateBlockInner_stems h₁ h
    cases hbib : block.bib with
    | maybe =>
      rw [hbib] at h
      cases h
    | some k =>
      rw [hbib] at h
      dsimp only at h
      split at h
      · cases h
      · obtain ⟨e₁, h₁, h₂⟩ := Fold.bind_ok.mp h
        exact hbcb (removeFromTargets_stems clearBib_same (removeBlockInner_stems _) hs h₁) h₂
    | none =>
      rw [hbib] at h
      exact hbcb hs h

variable {blockType : BlockType}

omit [Crates] [HashOrder] in
theorem allocBlock_stems (hs : Stems o e)
    (h : e.allocBlock blockType = .ok b) : BuilderStems o b := by
  unfold allocBlock at h
  split at h
  · cases h
  · cases h
    exact ⟨hs, rfl, rfl⟩

omit [Crates] in
theorem pushBlock_stems (hs : Stems o e)
    (h : e.pushBlock blockType = .ok b) : BuilderStems o b := by
  unfold pushBlock at h
  dsimp only at h
  split at h
  · cases h
  split at h
  · cases h
  split at h
  · cases h
  · exact allocBlock_stems hs h

theorem insertBlock_stems (hs : Stems o e)
    (h : e.insertBlock blockType = .ok b) : BuilderStems o b := by
  unfold insertBlock at h
  dsimp only at h
  split at h
  · cases h
  split at h
  · cases h
  have hfound : ∀ {number : Nat} {t : EditTemplate}, ((HashOrder.iter e.blocks).find? fun t =>
      t.2.blockType == blockType.canonicalize) = some (number, t) → StemsFrom o number t :=
    fun hfind => hs.template _ _ (HashOrder.mem_iter.mp (List.mem_of_find?_eq_some hfind))
  split at h
  · exact updateBlock_stems hs h
  · next hfind =>
      cases h
      exact ⟨hs, hfound hfind⟩
  · next hfind =>
      cases h
      exact ⟨hs, hfound hfind⟩
  · exact allocBlock_stems hs h

section

omit [Crates] [HashOrder]

theorem editPrimary_error {f : PrimaryBlock → PrimaryBlock}
    (h : e.editPrimary f = .error (e', x)) : e' = e := by
  unfold editPrimary at h
  split at h
  · cases h
    rfl
  · cases h

theorem editPrimary_stems {f : PrimaryBlock → PrimaryBlock} (hs : Stems o e)
    (h : e.editPrimary f = .ok e') : Stems o e' := by
  unfold editPrimary at h
  split at h
  · cases h
  · cases h
    exact hs.congr rfl fun _ => .inl rfl

theorem allocBlock_error (h : e.allocBlock blockType = .error (e', x)) : e' = e := by
  unfold allocBlock at h
  split at h
  · cases h
    rfl
  · cases h

end

omit [Crates] in
theorem pushBlock_error (h : e.pushBlock blockType = .error (e', x)) : e' = e := by
  unfold pushBlock at h
  dsimp only at h
  split at h
  · cases h
    rfl
  split at h
  · cases h
    rfl
  split at h
  · cases h
    rfl
  · exact allocBlock_error h

theorem insertBlock_error (ho : Sealed o) (hs : Stems o e)
    (h : e.insertBlock blockType = .error (e', x)) : e' = e := by
  unfold insertBlock at h
  dsimp only at h
  split at h
  · cases h
    rfl
  split at h
  · cases h
    rfl
  split at h
  · exact updateBlock_error ho hs h
  · cases h
  · cases h
  · exact allocBlock_error h

theorem removeBlock_stems (hs : Stems o e) (h : e.removeBlock n = .ok e') : Stems o e' := by
  unfold removeBlock at h
  split at h
  · cases h
  split at h
  · cases h
  dsimp only at h
  split at h
  · exact removeBlockInner_stems _ hs h
  split at h
  · cases h
  split at h
  · cases h
  · split at h
    · cases h
    · exact removeBlockInner_stems _ hs h
  · exact removeBlockInner_stems _ hs h

/-- The call takes the block out before it fails. -/
def Loses (e : Editor) : EditorCall → Prop
  | .removeBlock n => 2 ≤ n ∧ e.Misdirected n
  | _ => False

variable {call : EditorCall}

theorem run_error (ho : Sealed o) (hs : Stems o e) (h : e.run call = .error (e', x)) :
    e' = e ∨ e.Loses call := by
  cases call with
  | pushBlock blockType => exact .inl (pushBlock_error (Fold.map_error.mp h))
  | insertBlock blockType => exact .inl (insertBlock_error ho hs (Fold.map_error.mp h))
  | updateBlock n => exact .inl (updateBlock_error ho hs (Fold.map_error.mp h))
  | removeBlock n => exact removeBlock_error ho hs (Fold.map_error.mp h)
  | _ => exact .inl (editPrimary_error (Fold.map_error.mp h))

theorem run_loses (ho : Sealed o) (hs : Stems o e) (hl : e.Loses call)
    (h : e.run call = .error (e', x)) : ∃ n, 2 ≤ n ∧ n ∈ e.blocks ∧ e' = e.eraseBlock n := by
  cases call with
  | removeBlock n =>
    obtain ⟨htwo, hm⟩ := hl
    obtain ⟨y, hy⟩ := removeBlock_misdirected ho hs htwo hm
    cases (Fold.map_error.mp h).symm.trans hy
    obtain ⟨header, body, hn, -⟩ := hm
    exact ⟨n, htwo, mem_of_block hn, rfl⟩
  | _ => exact hl.elim

theorem run_edited (hs : Stems o e) (h : e.run call = .ok (.inl e')) : Stems o e' := by
  cases call with
  | pushBlock blockType => obtain ⟨b, -, hb⟩ := Fold.map_ok.mp h; cases hb
  | insertBlock blockType => obtain ⟨b, -, hb⟩ := Fold.map_ok.mp h; cases hb
  | updateBlock n => obtain ⟨b, -, hb⟩ := Fold.map_ok.mp h; cases hb
  | removeBlock n =>
    obtain ⟨e₁, h₁, he⟩ := Fold.map_ok.mp h
    cases he
    exact removeBlock_stems hs h₁
  | _ =>
    obtain ⟨e₁, h₁, he⟩ := Fold.map_ok.mp h
    cases he
    exact editPrimary_stems hs h₁

theorem run_built (hs : Stems o e) (h : e.run call = .ok (.inr b)) : BuilderStems o b := by
  cases call with
  | pushBlock blockType =>
    obtain ⟨b', h₁, hb⟩ := Fold.map_ok.mp h
    cases hb
    exact pushBlock_stems hs h₁
  | insertBlock blockType =>
    obtain ⟨b', h₁, hb⟩ := Fold.map_ok.mp h
    cases hb
    exact insertBlock_stems hs h₁
  | updateBlock n =>
    obtain ⟨b', h₁, hb⟩ := Fold.map_ok.mp h
    cases hb
    exact updateBlock_stems hs h₁
  | _ => obtain ⟨e₁, -, he⟩ := Fold.map_ok.mp h; cases he

theorem Reached.stems {data : Bytes} (ho : Sealed o) (h : Reached o data e) : Stems o e := by
  induction h with
  | new => exact Stems.new o data
  | edited _ hrun ih => exact run_edited ih hrun
  | built _ hrun hb ih => exact (run_built ih hrun).rebuild hb
  | failed _ hrun ih =>
    rcases run_error ho ih hrun with rfl | hl
    · exact ih
    · obtain ⟨n, -, -, rfl⟩ := run_loses ho ih hl hrun
      exact ih.eraseBlock n

end

/-! ## The blocks of the rebuilt bundle -/

omit [Crates] [HashOrder] in
theorem mapM_keys {α β γ ε : Type} {f : α → Except ε β} {key : α → γ} {key' : β → γ}
    (hf : ∀ a b, f a = .ok b → key' b = key a) {l : List α} {l' : List β} (h : l.mapM f = .ok l') :
    l'.map key' = l.map key := by
  induction l generalizing l' with
  | nil =>
    cases h
    rfl
  | cons a l ih =>
    rw [List.mapM_cons] at h
    obtain ⟨b, hb, h⟩ := Fold.bind_ok.mp h
    obtain ⟨l₁, hl, h⟩ := Fold.bind_ok.mp h
    cases h
    rw [List.map_cons, List.map_cons, hf a b hb, ih hl]

theorem extensionChunks_keys {l : List (Nat × Block × Chunk)} (h : e.extensionChunks = .ok l) :
    l.map Prod.fst = (HashOrder.iter ((e.blocks.erase 0).erase 1)).map Prod.fst := by
  refine mapM_keys (fun t x hx => ?_) h
  obtain ⟨v, -, hv⟩ := Fold.bind_ok.mp hx
  cases hv
  rfl

theorem parts_extensions {p : Parts} (h : e.parts = .ok p) :
    p.extensions.map Prod.fst = (HashOrder.iter ((e.blocks.erase 0).erase 1)).map Prod.fst := by
  unfold parts at h
  split at h
  · cases h
  · obtain ⟨⟨primary, block, chunk⟩, -, h⟩ := Fold.bind_ok.mp h
    dsimp only at h
    split at h
    · cases h
    · obtain ⟨l, hl, h⟩ := Fold.bind_ok.mp h
      obtain ⟨w, -, h⟩ := Fold.bind_ok.mp h
      cases h
      exact extensionChunks_keys hl

omit [Crates] in
theorem mem_iter_keys {β : Type} {m : HashMap β} :
    n ∈ (HashOrder.iter m).map Prod.fst ↔ n ∈ m := by
  rw [HashMap.mem_iff, List.mem_map]
  constructor
  · rintro ⟨x, hx, rfl⟩
    exact ⟨x.2, HashOrder.mem_iter.mp hx⟩
  · rintro ⟨v, hv⟩
    exact ⟨(n, v), HashOrder.mem_iter.mpr hv, rfl⟩

section

omit [Crates] [HashOrder]

theorem mem_foldl_insert {β γ : Type} {key : β → Nat} {val : β → γ} {l : List β} {m : HashMap γ} :
    n ∈ l.foldl (fun m x => m.insert (key x) (val x)) m ↔ n ∈ l.map key ∨ n ∈ m := by
  induction l generalizing m with
  | nil => simp
  | cons x l ih =>
    rw [List.foldl_cons, ih, List.map_cons, List.mem_cons, HashMap.mem_insert]
    tauto

theorem mem_foldl_modify {β γ : Type} {key : β → Nat} {f : β → γ → γ} {l : List β}
    {m : HashMap γ} : n ∈ l.foldl (fun m x => m.modify (key x) (f x)) m ↔ n ∈ m := by
  induction l generalizing m with
  | nil => rfl
  | cons x l ih =>
    rw [List.foldl_cons, ih]
    exact Std.ExtTreeMap.mem_modify

theorem mem_place {offset : Nat} {l : List (Nat × Chunk)} {m : HashMap Block} :
    n ∈ Chunk.place offset l m ↔ n ∈ m := by
  induction l generalizing offset m with
  | nil => rfl
  | cons x l ih =>
    rw [Chunk.place, ih]
    exact Std.ExtTreeMap.mem_modify

end

theorem rebuildBundle_mem {bundle : Bundle} {chunks : List Chunk}
    (h : e.rebuildBundle = .ok (bundle, chunks)) (htwo : 2 ≤ n) :
    n ∈ bundle.blocks ↔ n ∈ e.blocks := by
  obtain ⟨p, hp, h⟩ := Fold.bind_ok.mp h
  cases h
  have hone : n ≠ 1 := by omega
  have hzero : n ≠ 0 := by omega
  have hkey : n ∈ (HashOrder.iter ((e.blocks.erase 0).erase 1)).map Prod.fst ↔ n ∈ e.blocks := by
    rw [mem_iter_keys, HashMap.mem_erase, HashMap.mem_erase]
    simp only [hone, hzero, ne_eq, not_false_eq_true, true_and]
  show n ∈ Chunk.place 1 _ (e.applyOverrides p.blocks) ↔ n ∈ e.blocks
  rw [mem_place, applyOverrides, mem_foldl_modify, mem_foldl_modify, Parts.blocks,
    HashMap.mem_insert, mem_foldl_insert, HashMap.mem_insert, parts_extensions hp, hkey]
  simp only [hone, hzero, false_or, Std.ExtTreeMap.not_mem_empty, or_false]

end

/-! ## Parsed bundles -/

section

variable [Crates] [HashOrder] {data : Bytes} {p : Parsed}

theorem finish_kinds {f : Finished} {l : List Nat} {pos k : Nat}
    (hf : Indexed f.bundle.blocks f.pendingBibs f.bcbs l pos) (h : f.finish data = .ok p) :
    (k ∈ p.bibs → ∃ b : Block, p.bundle.blocks[k]? = some b ∧ b.blockType = .blockIntegrity) ∧
      (k ∈ p.bcbs → ∃ b : Block, p.bundle.blocks[k]? = some b ∧ b.blockType = .blockSecurity) := by
  have hlayout := (finish_ok h).2.2.2
  obtain ⟨hv, hbcbs⟩ := finish_validate h
  obtain ⟨m₁, s, h₁, h₂, -, hbibs⟩ := validate_ok.mp hv
  have hread := bibPass (bcbPass hf h₁).bib hf.bibs_nodup h₂
  have hkind : ∀ t, (∃ b : Block, f.bundle.blocks[k]? = some b ∧ b.blockType = t) →
      ∃ b : Block, p.bundle.blocks[k]? = some b ∧ b.blockType = t := by
    rintro t ⟨b, hb, ht⟩
    have hkinds : kinds p.bundle.blocks k = some (t, b.flags) := by
      rw [hlayout.kinds]
      exact kinds_eq.mpr ⟨b, hb, ht, rfl⟩
    obtain ⟨b', hb', ht', -⟩ := kinds_eq.mp hkinds
    exact ⟨b', hb', ht'⟩
  constructor
  · intro hk
    rw [hbibs] at hk
    exact hkind _ ((hf.mem_bibs k).mp ((hread.read k).mp hk).1)
  · intro hk
    rw [hbcbs] at hk
    exact hkind _ ((hf.mem_bcbs k).mp hk)

theorem sealed_of_parse (h : parse data = .ok p) : Sealed p.bundle := by
  obtain ⟨m, hm, -⟩ := parse_composition h
  obtain ⟨l, pos, hindexed⟩ := hm.ok.indexed
  have hcov := hm.covered
  have hkinds := fun k => finish_kinds (k := k) hindexed hm.finish
  constructor
  · intro n b hb k hk
    obtain ⟨ops, hops, hn⟩ := (hcov.bib n b hb k).mp hk
    have hmem : k ∈ p.bibs := HashMap.mem_iff.mpr ⟨ops, hops⟩
    obtain ⟨s, hs, ht⟩ := (hkinds k).1 hmem
    refine ⟨?_, s, hs, by rw [ht]; exact nofun, fun j hj => ?_, ?_⟩
    · cases hbcb : b.bcb with
      | none => rfl
      | some j =>
        obtain ⟨ops', hops', hn'⟩ := (hcov.bcb n b hb j).mp hbcb
        exact absurd ⟨j, ops', hops', hn'⟩ (hm.rules.bib_plain k n ops hops hn)
    · obtain ⟨ops', hops', hk'⟩ := (hcov.bib k s hs j).mp hj
      obtain ⟨s', hs', -, hne⟩ := hcov.bib_target j k ops' hops' hk'
      cases hs.symm.trans hs'
      exact hne ht
    · cases hbcb : s.bcb with
      | none => rfl
      | some j => exact absurd hmem ((hcov.hidden k s hs ht).mpr (by rw [hbcb]; rfl))
  · intro n b hb k hk
    obtain ⟨ops, hops, hn⟩ := (hcov.bcb n b hb k).mp hk
    obtain ⟨s, hs, ht⟩ := (hkinds k).2 (HashMap.mem_iff.mpr ⟨ops, hops⟩)
    refine ⟨s, hs, by rw [ht]; exact nofun, fun j hj => ?_, ?_⟩
    · obtain ⟨ops', hops', hk'⟩ := (hcov.bib k s hs j).mp hj
      obtain ⟨s', hs', hne, -⟩ := hcov.bib_target j k ops' hops' hk'
      cases hs.symm.trans hs'
      exact hne ht
    · cases hbcb : s.bcb with
      | none => rfl
      | some j =>
        obtain ⟨ops', hops', hk'⟩ := (hcov.bcb k s hs j).mp hbcb
        obtain ⟨s', hs', -, hne⟩ := hcov.bcb_target j k ops' hops' hk'
        cases hs.symm.trans hs'
        exact absurd ht hne

/-- A failed operation changes nothing, unless it is the removal of a block whose header names a
security block that cannot be read; then the block is lost. -/
theorem failed_keeps (hp : parse data = .ok p) {e e' : Editor} (he : Reached p.bundle data e)
    {call : EditorCall} {x : EditorError} (h : e.run call = .error (e', x)) :
    (¬ e.Loses call → e'.rebuildBundle = e.rebuildBundle ∧ e'.rebuild = e.rebuild) ∧
      ∀ r, e.rebuildBundle = .ok r → e'.rebuildBundle = .ok r → ¬ e.Loses call := by
  have ho := sealed_of_parse hp
  have hs := he.stems ho
  constructor
  · intro hl
    rcases run_error ho hs h with rfl | hloses
    · exact ⟨rfl, rfl⟩
    · exact absurd hloses hl
  · rintro ⟨bundle, chunks⟩ hr hr' hl
    obtain ⟨n, htwo, hn, rfl⟩ := run_loses ho hs hl h
    have hmem := (rebuildBundle_mem hr' htwo).mp ((rebuildBundle_mem hr htwo).mpr hn)
    exact (HashMap.mem_erase.mp hmem).1 rfl

end

/-! ## A lost block -/

/-- A bundle with a BIB, block 3, on an extension block alone, block 2. -/
def signedExtension : Bytes :=
  [0x9F, 0x88, 0x07, 0x00, 0x00, 0x82, 0x02, 0x82, 0x01, 0x02, 0x82, 0x02, 0x82, 0x02, 0x01, 0x82,
    0x02, 0x82, 0x02, 0x01, 0x82, 0x00, 0x18, 0x28, 0x1A, 0x00, 0x0F, 0x42, 0x40, 0x85, 0x0B,
    0x03, 0x00, 0x00, 0x4B, 0x81, 0x02, 0x09, 0x00, 0x82, 0x02, 0x82, 0x02, 0x01, 0x81, 0x80,
    0x85, 0x18, 0xC8, 0x02, 0x00, 0x00, 0x41, 0xAA, 0x85, 0x01, 0x01, 0x00, 0x00, 0x41, 0x07,
    0xFF]

section

local instance sortedBlocks : HashOrder := .sorted

local instance referenceCrates : Crates := .reference

def reuseNumber (p : Parsed) : Edit Editor := do
  let b ← (Editor.new p.bundle signedExtension).updateBlock 2
  let b ← b.rebuild.pushBlock (.unrecognised 201)
  pure (b.withData [0xFF]).rebuild

def rebuilds (e : Editor) (n : Nat) : Option Bool :=
  e.rebuildBundle.toOption.map fun r => r.1.blocks.contains n

def losesBlock (n : Nat) (e : Editor) : Bool :=
  match e.run (.removeBlock n) with
  | .error (e', _) => e.rebuilds n == some true && e'.rebuilds n == some false
  | .ok _ => false

/-- The payload block cannot be removed, and nothing changes. -/
theorem failed_keeps_payload : ∃ p, parse signedExtension = .ok p ∧ ∃ e e' x,
    (Editor.new p.bundle signedExtension).run (.withLifetime ⟨0⟩) = .ok (.inl e) ∧
      e.run (.removeBlock 1) = .error (e', x) ∧ e'.rebuild = e.rebuild := by
  have h : (parse signedExtension).toOption.map (fun p =>
      (Editor.new p.bundle signedExtension).primaryRefusal.isNone) = some true := by decide +kernel
  obtain ⟨p, hp, h⟩ := Option.map_eq_some_iff.mp h
  have hparse := Fold.ok_of_toOption hp
  obtain ⟨e, hedit⟩ : ∃ e, (Editor.new p.bundle signedExtension).run (.withLifetime ⟨0⟩) =
      .ok (.inl e) := by
    rw [run, withLifetime, editPrimary, Option.isNone_iff_eq_none.mp h]
    exact ⟨_, rfl⟩
  have hrun : e.run (.removeBlock 1) = .error (e, .payloadBlock) := rfl
  have hkeeps := failed_keeps hparse (.edited .new hedit) hrun
  exact ⟨p, hparse, e, e, _, hedit, hrun, (hkeeps.1 fun hl => absurd hl.1 (by decide)).2⟩

theorem removal_loses_block : ∃ p, parse signedExtension = .ok p ∧
    ∃ e e' x, Reached p.bundle signedExtension e ∧ e.run (.removeBlock 2) = .error (e', x) ∧
      (∃ r, e.rebuildBundle = .ok r) ∧ e'.rebuildBundle ≠ e.rebuildBundle := by
  have h : (parse signedExtension).toOption.map (fun p => (reuseNumber p).toOption.map
      (losesBlock 2)) = some (some true) := by decide +kernel
  obtain ⟨p, hp, h⟩ := Option.map_eq_some_iff.mp h
  obtain ⟨e, he, h⟩ := Option.map_eq_some_iff.mp h
  refine ⟨p, Fold.ok_of_toOption hp, e, ?_⟩
  obtain ⟨b, hb, he⟩ := Fold.bind_ok.mp (Fold.ok_of_toOption he)
  obtain ⟨b', hb', he⟩ := Fold.bind_ok.mp he
  cases he
  have hupdate : (Editor.new p.bundle signedExtension).run (.updateBlock 2) = .ok (.inr b) :=
    Fold.map_ok.mpr ⟨b, hb, rfl⟩
  have hpush : b.rebuild.run (.pushBlock (.unrecognised 201)) = .ok (.inr b') :=
    Fold.map_ok.mpr ⟨b', hb', rfl⟩
  have hreached : Reached p.bundle signedExtension (b'.withData [0xFF]).rebuild :=
    .built (.built .new hupdate .refl) hpush (.withData .refl [0xFF])
  unfold losesBlock at h
  split at h
  · next e' x hrun =>
      obtain ⟨hbefore, hafter⟩ := Bool.and_eq_true_iff.mp h
      refine ⟨e', x, hreached, hrun, ?_, fun heq => ?_⟩
      · obtain ⟨r, hr, -⟩ := Option.map_eq_some_iff.mp (beq_iff_eq.mp hbefore)
        exact ⟨r, Fold.ok_of_toOption hr⟩
      · have hsame : e'.rebuilds 2 = (b'.withData [0xFF]).rebuild.rebuilds 2 := by
          rw [rebuilds, rebuilds, heq]
        rw [beq_iff_eq.mp hafter, beq_iff_eq.mp hbefore] at hsame
        cases hsame
  · cases h

end

end Editor

end Hardy
