import Hardy.Bpsec.Decoded
import Hardy.Edit.Editor

/-!
# What the editor's operations do

One inversion lemma for each operation that strips a target from a security
block: which template is written, which block goes, and which coverage is
taken back.
-/

namespace Hardy

open Cbor Bpsec

namespace Editor

/-! ## Templates -/

def setBlock (e : Editor) (n : Nat) (t : EditTemplate) : Editor :=
  { e with blocks := e.blocks.insert n t }

def eraseBlock (e : Editor) (n : Nat) : Editor := { e with blocks := e.blocks.erase n }

theorem blocks_setBlock (e : Editor) (n m : Nat) (t : EditTemplate) :
    (e.setBlock n t).blocks[m]? = if m = n then some t else e.blocks[m]? := by
  rw [setBlock, HashMap.getElem?_insert]

theorem blocks_eraseBlock (e : Editor) (n m : Nat) :
    (e.eraseBlock n).blocks[m]? = if m = n then none else e.blocks[m]? := by
  rw [eraseBlock, HashMap.getElem?_erase]

theorem block_congr {e e' : Editor} (ho : e'.original = e.original)
    (hs : e'.sourceData = e.sourceData) {n : Nat} (h : e'.blocks[n]? = e.blocks[n]?) :
    e'.block n = e.block n := by
  rw [block, block, h, ho, hs]

variable {e : Editor}

theorem block_eraseBlock {n m : Nat} (h : m ≠ n) : (e.eraseBlock n).block m = e.block m := by
  have hget : (e.eraseBlock n).blocks[m]? = e.blocks[m]? := by
    rw [blocks_eraseBlock, if_neg h]
  exact block_congr (by rfl) (by rfl) hget

theorem block_update {n : Nat} {t : BlockTemplate}
    (h : e.blocks[n]? = some (.update t)) : e.block n = some (t.block, t.data) := by
  rw [block, h]

theorem block_insert {n : Nat} {t : BlockTemplate}
    (h : e.blocks[n]? = some (.insert t)) : e.block n = some (t.block, t.data) := by
  rw [block, h]

theorem block_keep {n : Nat} {t : BlockType} (h : e.blocks[n]? = some (.keep t)) :
    e.block n = e.original.blocks[n]?.map fun b => (b, b.payload e.sourceData) := by
  rw [block, h]

structure Restages (e : Editor) (n : Nat) (t : BlockTemplate) (isNew : Bool) : Prop where
  staged : ∀ t', e.blocks[n]? = some (.update t') → t = t' ∧ isNew = false
  inserted : ∀ t', e.blocks[n]? = some (.insert t') → t = t' ∧ isNew = true
  kept : ∀ blockType, e.blocks[n]? = some (.keep blockType) → isNew = false ∧
    blockType ≠ .primary ∧ ∃ b : Block, e.original.blocks[n]? = some b ∧
      t.block = {
        blockType := blockType.canonicalize
        flags := b.flags
        crcType := b.crcType
        bib := b.bib
        bcb := b.bcb } ∧
      t.data = if b.bcb.isSome then none else b.payload e.sourceData

theorem updateBlockInner_ok {n : Nat} {b : EditBuilder}
    (h : e.updateBlockInner n = .ok b) : b.editor = e ∧ b.number = n ∧ n ∈ e.blocks ∧
      e.Restages n b.template b.isNew := by
  unfold updateBlockInner at h
  split at h
  · cases h
  · next t ht =>
      split at h
      · cases h
      · next hne =>
          cases ho : e.original.blocks[n]? with
          | none => rw [ho] at h; cases h
          | some block =>
            rw [ho] at h
            cases h
            refine ⟨rfl, rfl, HashMap.mem_iff.mpr ⟨_, ht⟩, ?_, ?_, ?_⟩
            · exact fun t' h' => by cases ht.symm.trans h'
            · exact fun t' h' => by cases ht.symm.trans h'
            · intro blockType h'
              cases ht.symm.trans h'
              exact ⟨rfl, hne, block, ho, rfl, rfl⟩
  · next t ht =>
      cases h
      refine ⟨rfl, rfl, HashMap.mem_iff.mpr ⟨_, ht⟩, ?_, ?_, ?_⟩
      · exact fun t' h' => by cases ht.symm.trans h'
      · exact fun t' h' => by cases ht.symm.trans h'; exact ⟨rfl, rfl⟩
      · exact fun t' h' => by cases ht.symm.trans h'
  · next t ht =>
      cases h
      refine ⟨rfl, rfl, HashMap.mem_iff.mpr ⟨_, ht⟩, ?_, ?_, ?_⟩
      · exact fun t' h' => by cases ht.symm.trans h'; exact ⟨rfl, rfl⟩
      · exact fun t' h' => by cases ht.symm.trans h'
      · exact fun t' h' => by cases ht.symm.trans h'

def staged (isNew : Bool) (t : BlockTemplate) : EditTemplate :=
  if isNew then .insert t else .update t

theorem rebuild_eq (b : EditBuilder) :
    b.rebuild = b.editor.setBlock b.number (staged b.isNew b.template) := rfl

/-! ## Stripping a target -/

theorem removeFromTargets_ok {Op : Type} {parse : Bytes → Except Bpsec.Error (OperationSet Op)}
    {emit : OperationSet Op → Bytes} {field : String} {clear : Editor → Nat → Editor}
    {removeBlock : Editor → Nat → Edit Editor} {e e' : Editor} {n k : Nat}
    (h : removeFromTargets parse emit field clear removeBlock e n k = .ok e') :
    e' = e ∧ (∀ b body ops, e.block k = some (b, some body) → parse body = .ok ops →
        n ∉ ops.operations) ∨
      ∃ b body ops, e.block k = some (b, some body) ∧ parse body = .ok ops ∧
        n ∈ ops.operations ∧
        ((ops.without n).operations.isEmpty = true ∧
            (∃ e₁, removeBlock e k = .ok e₁ ∧ e' = clear e₁ n) ∨
          (ops.without n).operations.isEmpty = false ∧ ∃ t isNew, k ∈ e.blocks ∧
            e.Restages k t isNew ∧
            e' = clear (e.setBlock k (staged isNew { t with data := some (emit (ops.without n)) })) n) := by
  unfold removeFromTargets at h
  split at h
  · next b body hb =>
      split at h
      · cases h
      · next ops hops =>
          split at h
          · next hn =>
              refine .inr ⟨b, body, ops, hb, hops, hn, ?_⟩
              dsimp only at h
              split at h
              · next hempty =>
                  obtain ⟨e₁, h₁, h₂⟩ := Fold.bind_ok.mp h
                  cases h₂
                  exact .inl ⟨hempty, e₁, h₁, rfl⟩
              · next hempty =>
                  refine .inr ⟨Bool.eq_false_of_not_eq_true hempty, ?_⟩
                  obtain ⟨builder, hbuild, h₁⟩ := Fold.bind_ok.mp h
                  cases h₁
                  obtain ⟨rfl, rfl, hmem, hre⟩ := updateBlockInner_ok hbuild
                  exact ⟨builder.template, builder.isNew, hmem, hre, rfl⟩
          · next hn =>
              cases h
              refine .inl ⟨rfl, fun b' body' ops' hb' hops' => ?_⟩
              cases hb.symm.trans hb'
              cases hops.symm.trans hops'
              exact hn
  · next hb =>
      cases h
      exact .inl ⟨rfl, fun b body ops hb' => absurd hb' (hb b body)⟩

variable [Crates] [HashOrder]

theorem uncover_eq (e : Editor) (k : Nat) :
    ∃ o, e.uncover k = { e with bibOverrides := o } ∧
      ∀ n : Nat, n ∉ e.bibTargets k → o[n]? = e.bibOverrides[n]? := by
  have hfold : ∀ (l : List Nat) (e : Editor), ∃ o,
      l.foldl (fun e target => if e.coveredBy k target then e.clearBib target else e) e =
        { e with bibOverrides := o } ∧ ∀ n : Nat, n ∉ l → o[n]? = e.bibOverrides[n]? := by
    intro l
    induction l with
    | nil => exact fun e => ⟨e.bibOverrides, rfl, fun _ _ => rfl⟩
    | cons a l ih =>
      intro e
      rw [List.foldl_cons]
      split
      · obtain ⟨o, ho, hsame⟩ := ih (e.clearBib a)
        refine ⟨o, by rw [ho]; rfl, fun n hn => ?_⟩
        rw [List.mem_cons, not_or] at hn
        rw [hsame n hn.2, clearBib, HashMap.getElem?_insert, if_neg hn.1]
      · obtain ⟨o, ho, hsame⟩ := ih e
        exact ⟨o, ho, fun n hn => hsame n fun h => hn (List.mem_cons_of_mem _ h)⟩
  exact hfold (e.bibTargets k) e

theorem uncover_of_no_targets {k : Nat} (h : e.bibTargets k = []) : e.uncover k = e := by
  rw [uncover, h]
  rfl

end Editor

end Hardy
