import Hardy.Edit.Rebuilt
import Hardy.Machine
import Hardy.Parse.Tiled

/-!
# The extension editor

Model of `bpv7/src/extension_editor.rs`.  An extension editor holds an editor that it lends to
nobody, and refuses every call that is not about an extension block without coverage.  Against it
stands a map of extension blocks: the calls that are accepted, applied to the map in turn, give
the extension blocks of the bundle that comes out, and every other block comes out as it went in.
-/

namespace Hardy

open Cbor

inductive ExtensionError where
  | reservedType (blockType : BlockType)
  | reservedBlock (number : Nat)
  | noSuchBlock (number : Nat)
  | covered (number : Nat)
  | editor (source : EditorError)

structure ExtensionEditor where
  editor : Editor
  edited : Bool

inductive ExtensionCall where
  | insert (blockType : BlockType) (flags : BlockFlags) (crcType : CrcType) (data : Bytes)
  | replace (number : Nat) (data : Bytes)
  | remove (number : Nat)

namespace ExtensionEditor

def new (original : Bundle) (sourceData : Bytes) : ExtensionEditor :=
  ⟨.new original sourceData, false⟩

def isReserved : BlockType → Bool
  | .primary => true
  | .payload => true
  | .blockIntegrity => true
  | .blockSecurity => true
  | _ => false

def checkTarget (e : ExtensionEditor) (number : Nat) : Except ExtensionError Unit :=
  if number ≤ 1 then .error (.reservedBlock number)
  else match e.editor.block number with
    | none => .error (.noSuchBlock number)
    | some (block, _) =>
      if Editor.isSecurity block.blockType then .error (.reservedType block.blockType)
      else if block.bib ≠ .none ∨ block.bcb.isSome then .error (.covered number)
      else .ok ()

variable [Crates] [HashOrder]

def insert (e : ExtensionEditor) (blockType : BlockType) (flags : BlockFlags) (crcType : CrcType)
    (data : Bytes) : ExtensionEditor × Except ExtensionError Nat :=
  let blockType := blockType.canonicalize
  if isReserved blockType then (e, .error (.reservedType blockType))
  else match e.editor.pushBlock blockType with
    | .ok builder =>
      (⟨(((builder.withFlags flags).withCrcType crcType).withData data).rebuild, true⟩,
        .ok builder.number)
    | .error (editor, x) => ({ e with editor }, .error (.editor x))

def replace (e : ExtensionEditor) (number : Nat) (data : Bytes) :
    ExtensionEditor × Except ExtensionError Unit :=
  match e.checkTarget number with
  | .error x => (e, .error x)
  | .ok () =>
    match e.editor.updateBlock number with
    | .ok builder => (⟨(builder.withData data).rebuild, true⟩, .ok ())
    | .error (editor, x) => ({ e with editor }, .error (.editor x))

def remove (e : ExtensionEditor) (number : Nat) : ExtensionEditor × Except ExtensionError Unit :=
  match e.checkTarget number with
  | .error x => (e, .error x)
  | .ok () =>
    match e.editor.removeBlock number with
    | .ok editor => (⟨editor, true⟩, .ok ())
    | .error (editor, x) => ({ e with editor }, .error (.editor x))

def finish (e : ExtensionEditor) : Except ExtensionError (Option (Bundle × List Chunk)) :=
  if e.edited then (e.editor.rebuildBundle.map some).mapError .editor else .ok none

/-- A call, with the number of the block that it is about when it is accepted. -/
def run (e : ExtensionEditor) : ExtensionCall → ExtensionEditor × Except ExtensionError Nat
  | .insert blockType flags crcType data => e.insert blockType flags crcType data
  | .replace number data => ((e.replace number data).1, (e.replace number data).2.map fun _ => number)
  | .remove number => ((e.remove number).1, (e.remove number).2.map fun _ => number)

def runAll (e : ExtensionEditor) :
    List ExtensionCall → ExtensionEditor × List (ExtensionCall × Except ExtensionError Nat)
  | [] => (e, [])
  | call :: calls =>
    let r := (e.run call).1.runAll calls
    (r.1, (call, (e.run call).2) :: r.2)

end ExtensionEditor

/-! ## Operations that strip nothing -/

namespace Editor

variable {e : Editor} {n : Nat} {header : Block} {body : Option Bytes}

theorem freeNumber_ok {blocks : HashMap EditTemplate} {fuel number : Nat}
    (h : freeNumber blocks fuel number = some n) : number ≤ n ∧ n ∉ blocks := by
  induction fuel generalizing number with
  | zero => cases h
  | succ fuel ih =>
    rw [freeNumber] at h
    split at h
    · split at h
      · obtain ⟨hle, hn⟩ := ih h
        exact ⟨by omega, hn⟩
      · cases h
    · next hfree =>
        cases h
        exact ⟨le_rfl, hfree⟩

variable [Crates] [HashOrder]

omit [Crates] in
theorem pushBlock_ok {blockType : BlockType} {b : EditBuilder} (h : e.pushBlock blockType = .ok b) :
    2 ≤ b.number ∧ b.number ∉ e.blocks ∧ b = ⟨e, b.number, true,
      .new blockType.canonicalize {} e.original.primary.crcType none⟩ := by
  unfold pushBlock at h
  dsimp only at h
  split at h
  · cases h
  split at h
  · cases h
  split at h
  · cases h
  unfold allocBlock at h
  split at h
  · cases h
  · next number hfree =>
      cases h
      obtain ⟨hle, hn⟩ := freeNumber_ok hfree
      exact ⟨hle, hn, rfl⟩

theorem updateBlock_uncovered (hn : e.block n = some (header, body))
    (hsec : isSecurity header.blockType = false) (hprimary : header.blockType ≠ .primary)
    (hbib : header.bib = .none) (hbcb : header.bcb = none) :
    e.updateBlock n = e.updateBlockInner n := by
  rw [updateBlock, hn]
  dsimp only
  rw [if_neg hprimary, hsec, hbib, hbcb]
  rfl

theorem removeBlock_uncovered (hn : e.block n = some (header, body)) (htwo : 2 ≤ n)
    (hsec : isSecurity header.blockType = false) (hbib : header.bib = .none)
    (hbcb : header.bcb = none) : e.removeBlock n = .ok (e.eraseBlock n) := by
  rw [removeBlock, if_neg (by omega), if_neg (by omega), hn]
  dsimp only
  rw [hsec, hbib]
  show e.removeBlockInner (e.blocks.size + 1) n = _
  rw [removeBlockInner_plain _ hn hsec, hbib, hbcb]
  rfl

end Editor

/-! ## Maps of extension blocks -/

/-- What an extension block is, with its bytes while it is as it was parsed. -/
structure ExtensionBlock where
  blockType : BlockType
  flags : BlockFlags
  crcType : CrcType
  data : Bytes
  parsed : Option Bytes

def ExtensionBlock.header (x : ExtensionBlock) : Block where
  blockType := x.blockType
  flags := x.flags
  crcType := x.crcType

def Block.isProtected (b : Block) (n : Nat) : Bool :=
  decide (n ≤ 1) || Editor.isSecurity b.blockType || b.bib != .none || b.bcb.isSome

def Bundle.isProtected (o : Bundle) (n : Nat) : Bool :=
  match o.blocks[n]? with
  | some b => b.isProtected n
  | none => false

abbrev Extensions := Nat → Option ExtensionBlock

namespace Extensions

def ofBundle (o : Bundle) (source : Bytes) : Extensions := fun n =>
  match o.blocks[n]? with
  | none => none
  | some b =>
    if b.isProtected n then none
    else (b.payload source).map fun data =>
      ⟨b.blockType, b.flags, b.crcType, data, some (b.extent.slice source)⟩

/-- The effect of a call that is accepted, on a block that is there or under a number that is
free. -/
def apply (taken : Nat → Bool) (m : Extensions) :
    ExtensionCall × Except ExtensionError Nat → Option Extensions
  | (_, .error _) => some m
  | (.insert blockType flags crcType data, .ok n) =>
    if (m n).isNone ∧ taken n = false then
      some (Function.update m n (some ⟨blockType.canonicalize, flags, crcType, data, none⟩))
    else none
  | (.replace n data, .ok _) =>
    (m n).map fun x => Function.update m n (some { x with data, parsed := none })
  | (.remove n, .ok _) => (m n).map fun _ => Function.update m n none

def Encodes [Crates] (n : Nat) (x : ExtensionBlock) (bytes : Bytes) : Prop :=
  match x.parsed with
  | some wire => bytes = wire
  | none => ∃ block, x.header.emit n x.data = .ok (block, bytes)

/-- A bundle that comes out of an extension editor: the blocks out of its scope are as they
were, and the others are those of the map. -/
structure Written [Crates] (o : Bundle) (source : Bytes) (m : Extensions) (b : Bundle)
    (bytes : Bytes) : Prop where
  primary : b.primary = o.primary
  kept : ∀ (n : Nat) (block : Block), o.blocks[n]? = some block → block.isProtected n = true →
    ∃ extent : Range, b.blocks[n]? = some { block with extent } ∧
      extent.slice bytes = block.extent.slice source
  extension : ∀ n x, m n = some x → ∃ block : Block, b.blocks[n]? = some block ∧
    block.blockType = x.blockType ∧ block.flags = x.flags ∧ block.crcType = x.crcType ∧
    block.bib = .none ∧ block.bcb = none ∧ block.payload bytes = some x.data ∧
    Encodes n x (block.extent.slice bytes)
  only : ∀ n, n ∈ b.blocks → o.isProtected n = true ∨ (m n).isSome = true

/-! ## What the editor holds -/

def Stages (o : Bundle) (source : Bytes) (n : Nat) (x : ExtensionBlock) : EditTemplate → Prop
  | .keep t => ∃ b : Block, o.blocks[n]? = some b ∧ b.bib = .none ∧ b.bcb = none ∧
      b.payload source = some x.data ∧ t = b.blockType ∧
      x = ⟨b.blockType, b.flags, b.crcType, x.data, some (b.extent.slice source)⟩
  | .update t => t.block = x.header ∧ t.data = some x.data ∧ x.parsed = none
  | .insert t => t.block = x.header ∧ t.data = some x.data ∧ x.parsed = none

/-- An editor stages the map, and keeps the other blocks. -/
structure Tracks (o : Bundle) (source : Bytes) (m : Extensions) (e : Editor) : Prop where
  original : e.original = o
  sourceData : e.sourceData = source
  primary : e.primary = none
  bibOverrides : e.bibOverrides = ∅
  bcbOverrides : e.bcbOverrides = ∅
  kept : ∀ (n : Nat) (b : Block), o.blocks[n]? = some b → b.isProtected n = true →
    e.blocks[n]? = some (.keep b.blockType)
  absent : ∀ n, m n = none → o.isProtected n = false → e.blocks[n]? = none
  staged : ∀ n x, m n = some x → ∃ t, e.blocks[n]? = some t ∧ Stages o source n x t
  scope : ∀ n x, m n = some x → 2 ≤ n ∧ o.isProtected n = false ∧
    ExtensionEditor.isReserved x.blockType = false ∧ x.blockType.canonicalize = x.blockType

section

variable {o : Bundle} {source : Bytes} {m : Extensions} {e : Editor} {n : Nat} {x : ExtensionBlock}

theorem ofBundle_some (h : ofBundle o source n = some x) : ∃ b : Block, o.blocks[n]? = some b ∧
    b.isProtected n = false ∧ b.payload source = some x.data ∧
    x = ⟨b.blockType, b.flags, b.crcType, x.data, some (b.extent.slice source)⟩ := by
  unfold ofBundle at h
  split at h
  · cases h
  · next b hb =>
      split at h
      · cases h
      · next hp =>
          obtain ⟨data, hdata, rfl⟩ := Option.map_eq_some_iff.mp h
          exact ⟨b, hb, by simpa using hp, hdata, rfl⟩

theorem exists_of_isProtected (h : o.isProtected n = true) : ∃ b, o.blocks[n]? = some b := by
  unfold Bundle.isProtected at h
  split at h
  · next b hb => exact ⟨b, hb⟩
  · cases h

theorem isProtected_eq {b : Block} (h : o.blocks[n]? = some b) :
    o.isProtected n = b.isProtected n := by
  rw [Bundle.isProtected, h]

theorem not_protected {b : Block} : b.isProtected n = false ↔
    2 ≤ n ∧ Editor.isSecurity b.blockType = false ∧ b.bib = .none ∧ b.bcb = none := by
  simp only [Block.isProtected, Bool.or_eq_false_iff, decide_eq_false_iff_not, bne_eq_false_iff_eq,
    Option.isSome_eq_false_iff, Option.isNone_iff_eq_none, and_assoc]
  exact and_congr_left' (by omega)

theorem isSecurity_of_isReserved {t : BlockType} (h : ExtensionEditor.isReserved t = false) :
    Editor.isSecurity t = false ∧ t ≠ .primary := by
  cases t <;> simp_all [ExtensionEditor.isReserved, Editor.isSecurity]

theorem Stages.keep {t : BlockType} (h : Stages o source n x (.keep t)) : t = x.blockType := by
  obtain ⟨b, -, -, -, -, rfl, hx⟩ := h
  exact (congrArg ExtensionBlock.blockType hx).symm

theorem Stages.restages {t : EditTemplate} (h : Stages o source n x t)
    (ht : e.blocks[n]? = some t) (ho : e.original = o)
    (hcanonical : x.blockType.canonicalize = x.blockType) {t' : BlockTemplate} {isNew : Bool}
    (hre : e.Restages n t' isNew) : t'.block = x.header := by
  cases t with
  | keep t =>
    obtain ⟨-, -, b, hb, hblock, -⟩ := hre.kept t ht
    obtain ⟨b', hb', hbib, hbcb, -, rfl, hx⟩ := h
    rw [ho] at hb
    cases hb.symm.trans hb'
    rw [hblock, hbib, hbcb, ExtensionBlock.header]
    rw [hx] at hcanonical ⊢
    rw [hcanonical]
  | update t =>
    obtain ⟨rfl, -⟩ := hre.staged t ht
    exact h.1
  | insert t =>
    obtain ⟨rfl, -⟩ := hre.inserted t ht
    exact h.1

namespace Tracks

theorem view (h : Tracks o source m e) (hx : m n = some x) : ∃ header : Block,
    e.block n = some (header, some x.data) ∧ header.blockType = x.blockType ∧
      header.bib = .none ∧ header.bcb = none := by
  obtain ⟨t, ht, hs⟩ := h.staged n x hx
  cases t with
  | keep t =>
    obtain ⟨b, hb, hbib, hbcb, hdata, -, hx⟩ := hs
    refine ⟨b, ?_, (congrArg ExtensionBlock.blockType hx).symm, hbib, hbcb⟩
    rw [Editor.block_keep ht, h.original, hb, h.sourceData, ← hdata]
    rfl
  | update t =>
    obtain ⟨hblock, hdata, -⟩ := hs
    refine ⟨t.block, ?_, ?_, ?_, ?_⟩
    · rw [Editor.block_update ht, hdata]
    all_goals rw [hblock]; rfl
  | insert t =>
    obtain ⟨hblock, hdata, -⟩ := hs
    refine ⟨t.block, ?_, ?_, ?_, ?_⟩
    · rw [Editor.block_insert ht, hdata]
    all_goals rw [hblock]; rfl

theorem checkTarget_ok {edited : Bool} (h : Tracks o source m e) :
    ExtensionEditor.checkTarget ⟨e, edited⟩ n = .ok () ↔ (m n).isSome = true := by
  unfold ExtensionEditor.checkTarget
  dsimp only
  cases hm : m n with
  | some x =>
    obtain ⟨header, hview, htype, hbib, hbcb⟩ := h.view hm
    obtain ⟨htwo, -, hreserved, -⟩ := h.scope n x hm
    obtain ⟨hsec, -⟩ := isSecurity_of_isReserved hreserved
    rw [if_neg (by omega), hview]
    simp [htype, hsec, hbib, hbcb]
  | none =>
    simp only [Option.isSome_none, Bool.false_eq_true, iff_false]
    by_cases hn : n ≤ 1
    · rw [if_pos hn]
      exact fun h => by cases h
    rw [if_neg hn]
    cases hp : o.isProtected n with
    | false =>
      have hnone : e.block n = none := by
        rw [Editor.block, h.absent n hm hp]
      rw [hnone]
      exact fun h => by cases h
    | true =>
      obtain ⟨b, hb⟩ := exists_of_isProtected hp
      rw [isProtected_eq hb] at hp
      rw [Editor.block_keep (h.kept n b hb hp), h.original, hb]
      dsimp only [Option.map_some]
      split
      · exact fun h => by cases h
      split
      · exact fun h => by cases h
      · next hsec hcov =>
          have hfree : b.isProtected n = false :=
            not_protected.mpr ⟨by omega, by simpa using hsec, by simpa using hcov⟩
          rw [hfree] at hp
          cases hp

theorem set (h : Tracks o source m e) {t : EditTemplate} (ht : Stages o source n x t)
    (hscope : 2 ≤ n ∧ o.isProtected n = false ∧ ExtensionEditor.isReserved x.blockType = false ∧
      x.blockType.canonicalize = x.blockType) :
    Tracks o source (Function.update m n (some x)) (e.setBlock n t) := by
  refine ⟨h.original, h.sourceData, h.primary, h.bibOverrides, h.bcbOverrides, ?_, ?_, ?_, ?_⟩
  · intro k b hb hp
    have hk : k ≠ n := by
      rintro rfl
      rw [isProtected_eq hb, hp] at hscope
      exact absurd hscope.2.1 (by simp)
    rw [Editor.blocks_setBlock, if_neg hk]
    exact h.kept k b hb hp
  · intro k hk hp
    by_cases hkn : k = n
    · subst hkn
      rw [Function.update_self] at hk
      cases hk
    · rw [Function.update_of_ne hkn] at hk
      rw [Editor.blocks_setBlock, if_neg hkn]
      exact h.absent k hk hp
  · intro k y hy
    by_cases hkn : k = n
    · subst hkn
      rw [Function.update_self] at hy
      cases hy
      exact ⟨t, by rw [Editor.blocks_setBlock, if_pos rfl], ht⟩
    · rw [Function.update_of_ne hkn] at hy
      rw [Editor.blocks_setBlock, if_neg hkn]
      exact h.staged k y hy
  · intro k y hy
    by_cases hkn : k = n
    · subst hkn
      rw [Function.update_self] at hy
      cases hy
      exact hscope
    · rw [Function.update_of_ne hkn] at hy
      exact h.scope k y hy

theorem erase (h : Tracks o source m e) (hx : m n = some x) :
    Tracks o source (Function.update m n none) (e.eraseBlock n) := by
  obtain ⟨-, hn, -⟩ := h.scope n x hx
  have hother : ∀ k y, Function.update m n none k = some y → k ≠ n ∧ m k = some y := by
    intro k y hy
    by_cases hkn : k = n
    · rw [hkn, Function.update_self] at hy
      cases hy
    · rw [Function.update_of_ne hkn] at hy
      exact ⟨hkn, hy⟩
  refine ⟨h.original, h.sourceData, h.primary, h.bibOverrides, h.bcbOverrides, ?_, ?_, ?_, ?_⟩
  · intro k b hb hp
    have hk : k ≠ n := by
      rintro rfl
      rw [isProtected_eq hb, hp] at hn
      cases hn
    rw [Editor.blocks_eraseBlock, if_neg hk]
    exact h.kept k b hb hp
  · intro k hk hp
    rw [Editor.blocks_eraseBlock]
    split
    · rfl
    · next hkn =>
        rw [Function.update_of_ne hkn] at hk
        exact h.absent k hk hp
  · intro k y hy
    obtain ⟨hkn, hy⟩ := hother k y hy
    rw [Editor.blocks_eraseBlock, if_neg hkn]
    exact h.staged k y hy
  · intro k y hy
    obtain ⟨hkn, hy⟩ := hother k y hy
    exact h.scope k y hy

theorem replace [Crates] [HashOrder] (h : Tracks o source m e) (hx : m n = some x) (data : Bytes) :
    ∃ b, e.updateBlock n = .ok b ∧ Tracks o source
      (Function.update m n (some { x with data, parsed := none })) (b.withData data).rebuild := by
  obtain ⟨header, hview, htype, hbib, hbcb⟩ := h.view hx
  obtain ⟨htwo, hfree, hreserved, hcanonical⟩ := h.scope n x hx
  obtain ⟨hsec, hprimary⟩ := isSecurity_of_isReserved hreserved
  rw [← htype] at hsec hprimary
  obtain ⟨t, ht, hs⟩ := h.staged n x hx
  have hkeep : ∀ t', e.blocks[n]? = some (.keep t') → t' ≠ .primary := by
    intro t' ht'
    cases ht.symm.trans ht'
    rw [hs.keep, ← htype]
    exact hprimary
  rw [Editor.updateBlock_uncovered hview hsec hprimary hbib hbcb]
  obtain ⟨b, hb⟩ := Editor.updateBlockInner_total hview hkeep
  obtain ⟨hbe, hbn, -, hre⟩ := Editor.updateBlockInner_ok hb
  have hblock : b.template.block = x.header :=
    hs.restages ht h.original hcanonical hre
  refine ⟨b, hb, ?_⟩
  rw [Editor.rebuild_eq]
  show Tracks o source _ (b.editor.setBlock b.number (Editor.staged b.isNew _))
  rw [hbe, hbn]
  refine h.set ?_ ⟨htwo, hfree, hreserved, hcanonical⟩
  cases b.isNew with
  | true => exact ⟨hblock, rfl, rfl⟩
  | false => exact ⟨hblock, rfl, rfl⟩

theorem remove [Crates] [HashOrder] (h : Tracks o source m e) (hx : m n = some x) :
    ∃ e', e.removeBlock n = .ok e' ∧ Tracks o source (Function.update m n none) e' := by
  obtain ⟨header, hview, htype, hbib, hbcb⟩ := h.view hx
  obtain ⟨htwo, -, hreserved, -⟩ := h.scope n x hx
  obtain ⟨hsec, -⟩ := isSecurity_of_isReserved hreserved
  rw [← htype] at hsec
  exact ⟨_, Editor.removeBlock_uncovered hview htwo hsec hbib hbcb, h.erase hx⟩

theorem insert [Crates] [HashOrder] (h : Tracks o source m e) {blockType : BlockType}
    (hreserved : ExtensionEditor.isReserved blockType.canonicalize = false) {b : EditBuilder}
    (hb : e.pushBlock blockType.canonicalize = .ok b) (flags : BlockFlags) (crcType : CrcType)
    (data : Bytes) : m b.number = none ∧ o.isProtected b.number = false ∧
      Tracks o source (Function.update m b.number
        (some ⟨blockType.canonicalize, flags, crcType, data, none⟩))
        (((b.withFlags flags).withCrcType crcType).withData data).rebuild := by
  obtain ⟨htwo, hfree, hb⟩ := Editor.pushBlock_ok hb
  have hnone : e.blocks[b.number]? = none := Std.ExtTreeMap.getElem?_eq_none hfree
  have hm : m b.number = none := by
    cases hm : m b.number with
    | none => rfl
    | some x =>
      obtain ⟨t, ht, -⟩ := h.staged _ x hm
      rw [hnone] at ht
      cases ht
  have hp : o.isProtected b.number = false := by
    refine Bool.eq_false_iff.mpr fun hp => ?_
    obtain ⟨block, hblock⟩ := exists_of_isProtected hp
    rw [isProtected_eq hblock] at hp
    cases hnone.symm.trans (h.kept _ block hblock hp)
  refine ⟨hm, hp, ?_⟩
  have hcanonical : blockType.canonicalize.canonicalize = blockType.canonicalize :=
    BlockType.canonicalize_idem blockType
  rw [Editor.rebuild_eq]
  show Tracks o source _ (b.editor.setBlock b.number (Editor.staged b.isNew _))
  rw [hb]
  refine h.set ?_ ⟨htwo, hp, hreserved, hcanonical⟩
  refine ⟨?_, rfl, rfl⟩
  simp only [EditBuilder.withFlags, EditBuilder.withCrcType, EditBuilder.withData,
    BlockTemplate.new, ExtensionBlock.header, hcanonical]

end Tracks

/-! ## What the bundle is given by -/

structure InPlace (o : Bundle) (source : Bytes) : Prop where
  primary : ∃ b, o.blocks[0]? = some b
  payloadBlock : ∃ b, o.blocks[1]? = some b
  inSource : ∀ (n : Nat) (b : Block), o.blocks[n]? = some b →
    b.extent.start ≤ b.extent.stop ∧ b.extent.stop ≤ source.length
  data : ∀ (n : Nat) (b : Block), o.blocks[n]? = some b →
    b.data.start ≤ b.data.stop ∧ b.data.stop ≤ (b.extent.slice source).length
  blockType : ∀ (n : Nat) (b : Block), o.blocks[n]? = some b → 2 ≤ n →
    b.blockType ≠ .primary ∧ b.blockType ≠ .payload ∧ b.blockType.canonicalize = b.blockType

theorem inPlace_of_parse [Crates] [HashOrder] {data : Bytes} {p : Parsed}
    (h : parse data = .ok p) : InPlace p.bundle p.data := by
  obtain ⟨c, hc, hbytes⟩ := parse_composition h
  obtain ⟨stop, hlen, htiles⟩ := tilesBytes_of_parse h
  have hdata : p.data = data := hc.data.trans hbytes
  have hextent : ∀ (n : Nat) (b : Block), p.bundle.blocks[n]? = some b →
      b.extent.start < b.extent.stop ∧ b.extent.stop ≤ p.data.length := by
    intro n b hb
    have hlt := htiles.nonempty n b hb
    have hlast := (htiles.cover (b.extent.stop - 1)).mpr ⟨n, b, hb, by omega, by omega⟩
    rw [hdata]
    exact ⟨hlt, by omega⟩
  obtain ⟨primary, hprimary, -⟩ := htiles.primary_first
  obtain ⟨payload, hpayload, -⟩ := htiles.payload_last
  refine ⟨⟨primary, hprimary⟩, ⟨payload, hpayload⟩, fun n b hb => ?_, fun n b hb => ?_,
    fun n b hb htwo => ?_⟩
  · obtain ⟨hlt, hle⟩ := hextent n b hb
    exact ⟨hlt.le, hle⟩
  · obtain ⟨-, hle⟩ := hextent n b hb
    obtain ⟨-, hstart, hstop⟩ := htiles.inside n b hb
    simp only [Block.payloadRange] at hstart hstop
    simp only [Range.slice, List.length_take, List.length_drop]
    omega
  · obtain ⟨x, -, u, v, rfl, -, hlayout⟩ := hc.wire hb (by omega)
    have htype : b.blockType = x.header.blockType := congrArg Block.blockType hlayout
    have hok := x.wellFormed.numberOk
    rw [htype]
    refine ⟨fun ht => ?_, fun ht => ?_, x.wellFormed.blockType.1⟩
    · rw [ht] at hok
      simp [BlockHeader.numberOk] at hok
    · have hone : x.header.number ≠ 1 := by omega
      rw [ht] at hok
      simp [BlockHeader.numberOk, hone] at hok

namespace InPlace

theorem isReserved (h : InPlace o source) {b : Block} (hb : o.blocks[n]? = some b)
    (hp : b.isProtected n = false) : ExtensionEditor.isReserved b.blockType = false := by
  obtain ⟨htwo, hsec, -⟩ := not_protected.mp hp
  obtain ⟨hprimary, hpayload, -⟩ := h.blockType n b hb htwo
  cases ht : b.blockType <;> simp_all [ExtensionEditor.isReserved, Editor.isSecurity]

theorem payload (h : InPlace o source) {b : Block} (hb : o.blocks[n]? = some b) :
    b.payload source = some (b.data.slice (b.extent.slice source)) :=
  Block.payload_eq ((h.inSource n b hb).1.trans (h.inSource n b hb).2) (h.data n b hb).1
    (h.data n b hb).2

theorem tracks (h : InPlace o source) : Tracks o source (ofBundle o source) (.new o source) := by
  have hnew : ∀ k : Nat, (Editor.new o source).blocks[k]? =
      o.blocks[k]?.map fun b => .keep b.blockType := by
    intro k
    rw [Editor.new, Std.ExtTreeMap.getElem?_map]
  refine ⟨rfl, rfl, rfl, rfl, rfl, ?_, ?_, ?_, ?_⟩
  · intro k b hb _
    rw [hnew, hb]
    rfl
  · intro k hk hp
    rw [hnew]
    cases hb : o.blocks[k]? with
    | none => rfl
    | some b =>
      have hdata := h.payload hb
      rw [isProtected_eq hb] at hp
      simp [ofBundle, hb, hp, hdata] at hk
  · intro k y hy
    obtain ⟨b, hb, hp, hdata, heq⟩ := ofBundle_some hy
    obtain ⟨-, -, hbib, hbcb⟩ := not_protected.mp hp
    exact ⟨.keep b.blockType, by rw [hnew, hb]; rfl, b, hb, hbib, hbcb, hdata, rfl, heq⟩
  · intro k y hy
    obtain ⟨b, hb, hp, hdata, heq⟩ := ofBundle_some hy
    obtain ⟨htwo, -⟩ := not_protected.mp hp
    rw [heq]
    exact ⟨htwo, isProtected_eq hb ▸ hp, h.isReserved hb hp, (h.blockType k b hb htwo).2.2⟩

end InPlace

/-! ## Runs -/

structure Inv (o : Bundle) (source : Bytes) (m : Extensions) (e : ExtensionEditor) : Prop where
  tracks : Tracks o source m e.editor
  unedited : e.edited = false → e.editor = .new o source ∧ m = ofBundle o source

variable [Crates] [HashOrder]

theorem Inv.step {e : ExtensionEditor} (h : Inv o source m e) (call : ExtensionCall) :
    (∃ x, (e.run call).2 = .error x ∧ (e.run call).1 = e) ∨
      ∃ n m', (e.run call).2 = .ok n ∧ apply o.isProtected m (call, .ok n) = some m' ∧
        Inv o source m' (e.run call).1 := by
  have hedited : ∀ {m' : Extensions} {e' : Editor}, Tracks o source m' e' →
      Inv o source m' ⟨e', true⟩ := fun ht => ⟨ht, nofun⟩
  cases call with
  | insert blockType flags crcType data =>
    rw [ExtensionEditor.run, ExtensionEditor.insert]
    split
    · exact .inl ⟨_, rfl, rfl⟩
    · next hreserved =>
        cases hpush : e.editor.pushBlock blockType.canonicalize with
        | error r =>
          obtain ⟨e', y⟩ := r
          cases Editor.pushBlock_error hpush
          exact .inl ⟨_, rfl, rfl⟩
        | ok b =>
          obtain ⟨hm, hp, ht⟩ := h.tracks.insert (by simpa using hreserved) hpush flags crcType
            data
          exact .inr ⟨b.number, _, rfl, if_pos ⟨by rw [hm]; rfl, hp⟩, hedited ht⟩
  | replace number data =>
    rw [ExtensionEditor.run, ExtensionEditor.replace]
    cases hcheck : e.checkTarget number with
    | error y => exact .inl ⟨y, rfl, rfl⟩
    | ok u =>
      obtain ⟨x, hx⟩ := Option.isSome_iff_exists.mp (h.tracks.checkTarget_ok.mp hcheck)
      obtain ⟨b, hb, ht⟩ := h.tracks.replace hx data
      rw [hb]
      exact .inr ⟨number, _, rfl, by rw [apply, hx]; rfl, hedited ht⟩
  | remove number =>
    rw [ExtensionEditor.run, ExtensionEditor.remove]
    cases hcheck : e.checkTarget number with
    | error y => exact .inl ⟨y, rfl, rfl⟩
    | ok u =>
      obtain ⟨x, hx⟩ := Option.isSome_iff_exists.mp (h.tracks.checkTarget_ok.mp hcheck)
      obtain ⟨e', he, ht⟩ := h.tracks.remove hx
      rw [he]
      exact .inr ⟨number, _, rfl, by rw [apply, hx]; rfl, hedited ht⟩

def accepted (trace : List (ExtensionCall × Except ExtensionError Nat)) : List ExtensionCall :=
  (trace.filter fun c => c.2.isOk).map Prod.fst

theorem Inv.runAll {e : ExtensionEditor} (h : Inv o source m e) (calls : List ExtensionCall) :
    ∃ m', Machine.runSteps (apply o.isProtected) m (e.runAll calls).2 = some m' ∧
      Inv o source m' (e.runAll calls).1 ∧
      (e.runAll (accepted (e.runAll calls).2)).1 = (e.runAll calls).1 := by
  induction calls generalizing m e with
  | nil => exact ⟨m, rfl, h, rfl⟩
  | cons call calls ih =>
    rw [ExtensionEditor.runAll]
    rcases h.step call with ⟨x, hx, he⟩ | ⟨n, m₁, hn, happly, hinv⟩
    · rw [he, hx]
      obtain ⟨m', hrun, hinv, hsame⟩ := ih h
      exact ⟨m', hrun, hinv, hsame⟩
    · obtain ⟨m', hrun, hinv', hsame⟩ := ih hinv
      rw [hn]
      refine ⟨m', ?_, hinv', hsame⟩
      rw [Machine.runSteps, happly]
      exact hrun

/-! ## What comes out -/

omit [Crates] [HashOrder] in
theorem Tracks.plain (h : Tracks o source m e) (hp : InPlace o source) : e.Plain := by
  obtain ⟨primary, hprimary⟩ := hp.primary
  obtain ⟨payload, hpayload⟩ := hp.payloadBlock
  refine ⟨h.primary, h.bibOverrides, h.bcbOverrides, ⟨_, h.kept 0 primary hprimary rfl⟩,
    HashMap.mem_iff.mpr ⟨_, h.kept 1 payload hpayload rfl⟩, ?_⟩
  rw [h.original, h.sourceData]
  exact hp.inSource

omit [HashOrder] in
theorem builtChunk_ok {t : BlockTemplate} {block : Block} {chunk : Chunk}
    (h : Editor.builtChunk n t = .ok (block, chunk)) (ht : t.data = some x.data)
    (hx : t.block = x.header) : ∃ bytes, x.header.emit n x.data = .ok (block, bytes) ∧
      chunk = .new bytes := by
  rw [Editor.builtChunk, ht, hx] at h
  dsimp only at h
  split at h
  · cases h
  · next b bytes hemit =>
      cases h
      exact ⟨bytes, hemit, rfl⟩

structure BuiltAs (n : Nat) (x : ExtensionBlock) (block : Block) (wire : Bytes) : Prop where
  blockType : block.blockType = x.blockType
  flags : block.flags = x.flags
  crcType : block.crcType = x.crcType
  bib : block.bib = .none
  bcb : block.bcb = none
  start_le : block.data.start ≤ block.data.stop
  stop_le : block.data.stop ≤ wire.length
  data : block.data.slice wire = x.data
  encodes : Encodes n x wire

omit [HashOrder] in
theorem builtAs_of_staged {t : BlockTemplate} {block : Block} {chunk : Chunk}
    (hblock : t.block = x.header) (hdata : t.data = some x.data) (hparsed : x.parsed = none)
    (hb : Editor.builtChunk n t = .ok (block, chunk)) :
    BuiltAs n x block (chunk.content source) := by
  obtain ⟨bytes, hemit, rfl⟩ := builtChunk_ok hb hdata hblock
  obtain ⟨heq, hle, hstop, hslice⟩ := Block.emit_data hemit
  have hencodes : Encodes n x bytes := by
    rw [Encodes, hparsed]
    exact ⟨block, hemit⟩
  refine ⟨?_, ?_, ?_, ?_, ?_, hle, hstop, hslice, hencodes⟩
  all_goals rw [heq]; rfl

omit [HashOrder] in
theorem Stages.built {t : EditTemplate} (h : Stages o source n x t) (hp : InPlace o source)
    (ho : e.original = o) {block : Block} {chunk : Chunk}
    (hb : e.buildChunk n t = .ok (block, chunk)) :
    BuiltAs n x block (chunk.content source) := by
  cases t with
  | keep t =>
    obtain ⟨b, hblock, hbib, hbcb, hdata, -, hx⟩ := h
    rw [Editor.buildChunk, Editor.keptChunk, ho, hblock] at hb
    cases hb
    obtain ⟨hle, hstop⟩ := hp.data n block hblock
    rw [hp.payload hblock] at hdata
    refine ⟨?_, ?_, ?_, hbib, hbcb, hle, hstop, Option.some.inj hdata, ?_⟩
    all_goals rw [hx]
    rfl
  | update t =>
    obtain ⟨hblock, hdata, hparsed⟩ := h
    exact builtAs_of_staged hblock hdata hparsed hb
  | insert t =>
    obtain ⟨hblock, hdata, hparsed⟩ := h
    exact builtAs_of_staged hblock hdata hparsed hb

theorem Tracks.written (h : Tracks o source m e) (hp : InPlace o source) {bundle : Bundle}
    {chunks : List Chunk} {bytes : Bytes} (hr : e.rebuildBundle = .ok (bundle, chunks))
    (hbytes : Chunk.flatten chunks source = .ok bytes) : Written o source m bundle bytes := by
  rw [← h.sourceData] at hbytes
  obtain ⟨hprimary, hblocks⟩ := (h.plain hp).rebuilt hr hbytes
  refine ⟨hprimary.trans (congrArg Bundle.primary h.original), ?_, ?_, ?_⟩
  · intro n block hblock hprot
    have hn := hblocks n
    rw [h.kept n block hblock hprot] at hn
    obtain ⟨block', chunk, start, hb, hget, -, hslice⟩ := hn
    rw [Editor.buildChunk, Editor.keptChunk, h.original, hblock] at hb
    cases hb
    rw [h.sourceData] at hslice
    exact ⟨_, hget, hslice⟩
  · intro n x hx
    obtain ⟨t, ht, hs⟩ := h.staged n x hx
    have hn := hblocks n
    rw [ht] at hn
    obtain ⟨block, chunk, start, hb, hget, hle, hslice⟩ := hn
    have hbuilt := hs.built hp h.original hb
    rw [← h.sourceData, ← hslice] at hbuilt
    refine ⟨_, hget, hbuilt.blockType, hbuilt.flags, hbuilt.crcType, hbuilt.bib, hbuilt.bcb, ?_,
      hbuilt.encodes⟩
    have hin : start ≤ bytes.length := (Nat.le_add_right _ _).trans hle
    have hpayload := Block.payload_eq (b := { block with extent := ⟨start, start + chunk.len⟩ }) hin
      hbuilt.start_le hbuilt.stop_le
    exact hpayload.trans (congrArg some hbuilt.data)
  · intro n hn
    obtain ⟨block, hblock⟩ := HashMap.mem_iff.mp hn
    by_contra hnot
    rw [not_or, Bool.not_eq_true, Option.not_isSome_iff_eq_none] at hnot
    have hget := hblocks n
    rw [h.absent n hnot.2 hnot.1] at hget
    cases hget.symm.trans hblock

omit [HashOrder] in
theorem InPlace.written (h : InPlace o source) : Written o source (ofBundle o source) o source := by
  refine ⟨rfl, fun n block hb _ => ⟨block.extent, hb, rfl⟩, fun n x hx => ?_, fun n hn => ?_⟩
  · obtain ⟨b, hb, hp, hdata, heq⟩ := ofBundle_some hx
    obtain ⟨-, -, hbib, hbcb⟩ := not_protected.mp hp
    have hencodes : Encodes n x (b.extent.slice source) := by
      rw [heq]
      rfl
    refine ⟨b, hb, ?_, ?_, ?_, hbib, hbcb, hdata, hencodes⟩
    all_goals rw [heq]
  · obtain ⟨b, hb⟩ := HashMap.mem_iff.mp hn
    rw [isProtected_eq hb]
    cases hp : b.isProtected n with
    | true => exact .inl rfl
    | false => exact .inr (by simp [ofBundle, hb, hp, h.payload hb])

theorem Tracks.rebuild_error (h : Tracks o source m e) (hp : InPlace o source) {y : EditorError}
    (hr : e.rebuildBundle = .error y) :
    ∃ n x, m n = some x ∧ x.crcType.isRecognised = false := by
  obtain ⟨n, t, ht, y, hb⟩ := (h.plain hp).rebuild_error hr
  have hkept : ∀ b, o.blocks[n]? = some b → ∀ blockType, t ≠ .keep blockType := by
    rintro b hblock blockType rfl
    rw [Editor.buildChunk, Editor.keptChunk, h.original, hblock] at hb
    cases hb
  have hbuilt : ∀ (x : ExtensionBlock) (t : BlockTemplate), t.block = x.header →
      t.data = some x.data → Editor.builtChunk n t = .error y → x.crcType.isRecognised = false := by
    intro x t hblock hdata hb
    rw [Editor.builtChunk, hdata, hblock] at hb
    dsimp only at hb
    split at hb
    · next hemit => exact Block.emit_error hemit
    · cases hb
  cases hx : m n with
  | none =>
    cases hprot : o.isProtected n with
    | false =>
      rw [h.absent n hx hprot] at ht
      cases ht
    | true =>
      obtain ⟨b, hblock⟩ := exists_of_isProtected hprot
      rw [isProtected_eq hblock] at hprot
      cases (h.kept n b hblock hprot).symm.trans ht
      exact absurd rfl (hkept b hblock b.blockType)
  | some x =>
    obtain ⟨t', ht', hs⟩ := h.staged n x hx
    cases ht.symm.trans ht'
    refine ⟨n, x, hx, ?_⟩
    cases t with
    | keep t =>
      obtain ⟨b, hblock, -⟩ := hs
      exact absurd rfl (hkept b hblock t)
    | update t => exact hbuilt x t hs.1 hs.2.1 hb
    | insert t => exact hbuilt x t hs.1 hs.2.1 hb

/-- Whatever calls an extension editor gets, it stays in its scope: refused calls are as if they
had not been made, the accepted ones take effect on the map of extension blocks, and the bundle
that comes out has the blocks of the map and the blocks out of scope as they were. -/
theorem calls_scoped {data : Bytes} {p : Parsed} (h : parse data = .ok p)
    (calls : List ExtensionCall) :
    let r := (ExtensionEditor.new p.bundle p.data).runAll calls
    ((ExtensionEditor.new p.bundle p.data).runAll (accepted r.2)).1 = r.1 ∧
      ∃ m, Machine.runSteps (apply p.bundle.isProtected) (ofBundle p.bundle p.data) r.2 = some m ∧
        match r.1.finish with
        | .ok none => Written p.bundle p.data m p.bundle p.data
        | .ok (some (bundle, chunks)) => 2 + Chunk.totalLen chunks ≤ isizeMax →
            ∃ bytes, Chunk.flatten chunks p.data = .ok bytes ∧
              Written p.bundle p.data m bundle bytes
        | .error _ => ∃ n x, m n = some x ∧ x.crcType.isRecognised = false := by
  have hplace := inPlace_of_parse h
  have hinv : Inv p.bundle p.data (ofBundle p.bundle p.data) (.new p.bundle p.data) :=
    ⟨hplace.tracks, fun _ => ⟨rfl, rfl⟩⟩
  obtain ⟨m, hrun, hinv, hsame⟩ := hinv.runAll calls
  refine ⟨hsame, m, hrun, ?_⟩
  unfold ExtensionEditor.finish
  cases hedited : (ExtensionEditor.runAll (.new p.bundle p.data) calls).1.edited with
  | false =>
    obtain ⟨-, rfl⟩ := hinv.unedited hedited
    exact hplace.written
  | true =>
    rw [if_pos rfl]
    cases hr : (ExtensionEditor.runAll (.new p.bundle p.data) calls).1.editor.rebuildBundle with
    | error y => exact hinv.tracks.rebuild_error hplace hr
    | ok r =>
      intro hlen
      have hfits := (hinv.tracks.plain hplace).chunks_fit hr
      rw [hinv.tracks.sourceData] at hfits
      have hbytes := Chunk.flatten_ok.mpr ⟨hlen, hfits, rfl⟩
      exact ⟨_, hbytes, hinv.tracks.written hplace hr hbytes⟩

end

section

local instance sortedEntries : HashOrder := .sorted

local instance referenceChecksums : Crates := .reference

/-- An alias of the type of a BIB, a new block that is replaced, and calls about the signed block
and its BIB. -/
def scopedCalls : List ExtensionCall :=
  [.insert (.unrecognised 11) {} .none [1], .insert (.unrecognised 201) {} .crc16X25 [1],
    .remove 2, .replace 4 [2, 3], .remove 3, .replace 1 [9]]

theorem signedExtension_calls : ∃ p, parse Editor.signedExtension = .ok p ∧
    ((ExtensionEditor.new p.bundle p.data).runAll scopedCalls).2.map (fun c => c.2.toOption) =
      [none, some 4, none, some 4, none, none] ∧
    ∃ m, Machine.runSteps (apply p.bundle.isProtected) (ofBundle p.bundle p.data)
      ((ExtensionEditor.new p.bundle p.data).runAll scopedCalls).2 = some m := by
  have h : (parse Editor.signedExtension).toOption.map (fun p =>
      ((ExtensionEditor.new p.bundle p.data).runAll scopedCalls).2.map fun c => c.2.toOption) =
      some [none, some 4, none, some 4, none, none] := by decide +kernel
  obtain ⟨p, hp, h⟩ := Option.map_eq_some_iff.mp h
  have hparse := Fold.ok_of_toOption hp
  obtain ⟨-, m, hrun, -⟩ := calls_scoped hparse scopedCalls
  exact ⟨p, hparse, h, m, hrun⟩

end

end Extensions

end Hardy
