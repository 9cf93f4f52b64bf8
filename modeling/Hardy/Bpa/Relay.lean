import Hardy.Bpa.Admission
import Hardy.Bpa.Handoff
import Hardy.Edit.Extension
import Hardy.Routing.Table

/-!
# Relaying

Model of `update_extension_blocks` in `bpa/src/dispatcher/forward.rs`: what a node does to a
bundle before it offers it to the next hop.
-/

namespace Hardy

namespace Bpa

variable [Crates]

/-- A block that is written anew on every hop. -/
structure Stamp where
  blockType : BlockType
  flags : BlockFlags
  data : Bytes

/-- The configuration, with what the record of the bundle and the clock say. -/
structure Relay where
  nodeIds : Routing.NodeIds
  ipnLegacyPeers : List EidPattern
  primary : PrimaryBlock
  extensions : ExtensionFields
  receivedAt : Int
  now : Int

namespace Relay

/-- The age in milliseconds, from 0 to the last `u64`. -/
def bundleAge (r : Relay) : Nat :=
  min ((r.now - r.primary.creationTime r.extensions.age r.receivedAt).tdiv 1000000).toNat
    (wordSize - 1)

def stamps (r : Relay) : List Stamp :=
  let reportOnFailure := !r.primary.flags.isAdminRecord && !r.primary.id.source.isNull
  let previousNode : Stamp := ⟨.previousNode, { reportOnFailure },
    (r.nodeIds.getAdminEndpoint r.primary.destination).toCbor⟩
  let hopCount := r.extensions.hopCount.map fun h : HopInfo =>
    (⟨.hopCount, { reportOnFailure, mustReplicate := true },
      { h with count := min (h.count + 1) (wordSize - 1) : HopInfo }.toCbor⟩ : Stamp)
  let bundleAge : List Stamp :=
    if r.extensions.age.isSome || r.primary.id.timestamp.creationTime.isNone then
      [⟨.bundleAge, { reportOnFailure, mustReplicate := true }, Cbor.emitUint r.bundleAge⟩]
    else []
  previousNode :: (hopCount.toList ++ bundleAge)

def legacyIpn : Eid → Option Eid
  | .ipn fqnn serviceNumber => some (.legacyIpn fqnn serviceNumber)
  | _ => none

omit [Crates] in
def reencode (r : Relay) (editor : Editor) : Except EditorError Editor := do
  let editor ←
    match legacyIpn r.primary.id.source with
    | some source => (editor.withSource source).mapError Prod.snd
    | none => pure editor
  match legacyIpn r.primary.destination with
  | some destination => (editor.withDestination destination).mapError Prod.snd
  | none => pure editor

end Relay

variable [HashOrder]

def stamp (editor : Editor) (s : Stamp) : Except EditorError Editor :=
  ((editor.insertBlock s.blockType).mapError Prod.snd).map fun builder =>
    ((builder.withFlags s.flags).withData s.data).rebuild

/-- `update_extension_blocks`, for data that nobody else holds (`unique`) or that is shared. -/
def Relay.updateExtensionBlocks [Globs] (r : Relay) (unique : Bool) (sourceData : Bytes)
    (nextHop : Eid) : Except EditorError (Hardy.Bundle × Bytes) := do
  let parsed ← (parse sourceData).mapError .ofError
  let editor ← r.stamps.foldlM stamp (.new parsed.bundle parsed.data)
  let editor ← if r.ipnLegacyPeers.any (·.matches nextHop) then r.reencode editor else pure editor
  let (bundle, chunks) ← editor.rebuildBundle
  let data ← Chunk.flattenBytes unique chunks parsed.data
  pure (bundle, data)

/-- `forward_bundle` to a peer; `relay` gives what the record of a bundle says of its blocks. -/
def Handoff.forward [Globs] (peer : Nat) (nextHop : Eid) (chain : FilterChain)
    (relay : Bundle → Relay) (unique : Bool) : Handoff where
  target := .peer peer nextHop
  chain := chain
  rewrite b data :=
    ((relay b).updateExtensionBlocks unique data nextHop).map fun p => (p.1.blocks, p.2)

/-- Without Egress filters every forward resolves its claim. -/
theorem Handoff.forward_resolved [Globs] [Bpsec.Ciphers]
    {keyProvider : Hardy.Bundle → Bytes → Bpsec.KeySource} {peer : Nat} {nextHop : Eid}
    {relay : Bundle → Relay} {unique : Bool} {s : State} {b : Bundle} {data : Bytes}
    (hs : (machine keyProvider (forward peer nextHop [] relay unique)).Reachable s)
    (hreturned : s.phase = .returned) (hclaim : s.claim = some (b, data))
    (haccepted : s.answer ≠ some .accepted) (hmoved : ¬s.moved) :
    (forward peer nextHop [] relay unique).Resolved s b :=
  resolved_of_no_filters rfl hs hreturned hclaim haccepted hmoved

end Bpa

/-! ## One stamp -/

namespace Extensions

open Bpa (Stamp stamp)

variable {o : Bundle} {source : Bytes} {m : Extensions} {e : Editor} {n : Nat} {x : ExtensionBlock}

theorem Stages.blockType {t : EditTemplate} (h : Stages o source n x t) :
    t.blockType = x.blockType := by
  cases t with
  | keep t => exact h.keep
  | update t => exact congrArg Block.blockType h.1
  | insert t => exact congrArg Block.blockType h.1

namespace Tracks

theorem of_free (h : Tracks o source m e) {t : EditTemplate} (ht : e.blocks[n]? = some t)
    (hfree : ∀ b : Block, o.blocks[n]? = some b → b.blockType = t.blockType →
      b.isProtected n = false) : ∃ x, m n = some x ∧ Stages o source n x t := by
  cases hm : m n with
  | some x =>
    obtain ⟨t', ht', hs⟩ := h.staged n x hm
    cases ht.symm.trans ht'
    exact ⟨x, rfl, hs⟩
  | none =>
    cases hp : o.isProtected n with
    | false =>
      rw [h.absent n hm hp] at ht
      cases ht
    | true =>
      obtain ⟨b, hb⟩ := exists_of_isProtected hp
      rw [isProtected_eq hb] at hp
      cases ht.symm.trans (h.kept n b hb hp)
      rw [hfree b hb rfl] at hp
      cases hp

theorem fresh (h : Tracks o source m e) (hn : n ∉ e.blocks) :
    m n = none ∧ o.isProtected n = false := by
  have hnone : e.blocks[n]? = none := Std.ExtTreeMap.getElem?_eq_none hn
  constructor
  · refine Option.eq_none_iff_forall_ne_some.mpr fun x hx => ?_
    obtain ⟨t, ht, -⟩ := h.staged n x hx
    cases hnone.symm.trans ht
  · refine Bool.eq_false_iff.mpr fun hp => ?_
    obtain ⟨b, hb⟩ := exists_of_isProtected hp
    cases hnone.symm.trans (h.kept n b hb (isProtected_eq hb ▸ hp))

theorem restamp (h : Tracks o source m e) (hx : m n = some x) {b : EditBuilder}
    (hbe : b.editor = e) (hbn : b.number = n) (hblock : b.template.block = x.header)
    (flags : BlockFlags) (data : Bytes) : Tracks o source
      (Function.update m n (some ⟨x.blockType, flags, x.crcType, data, none⟩))
      ((b.withFlags flags).withData data).rebuild := by
  obtain ⟨htwo, hfree, hreserved, hcanonical⟩ := h.scope n x hx
  rw [Editor.rebuild_eq]
  show Tracks o source _ (b.editor.setBlock b.number (Editor.staged b.isNew _))
  rw [hbe, hbn]
  refine h.set ?_ ⟨htwo, hfree, hreserved, hcanonical⟩
  have hheader : ((b.withFlags flags).withData data).template.block =
      (⟨x.blockType, flags, x.crcType, data, none⟩ : ExtensionBlock).header := by
    simp only [EditBuilder.withFlags, EditBuilder.withData, hblock, ExtensionBlock.header]
  cases b.isNew with
  | true => exact ⟨hheader, rfl, rfl⟩
  | false => exact ⟨hheader, rfl, rfl⟩

variable [Crates] [HashOrder]

theorem updates (h : Tracks o source m e) (hx : m n = some x) : ∃ b, e.updateBlock n = .ok b ∧
    b.editor = e ∧ b.number = n ∧ b.template.block = x.header := by
  obtain ⟨header, hview, htype, hbib, hbcb⟩ := h.view hx
  obtain ⟨-, -, hreserved, hcanonical⟩ := h.scope n x hx
  obtain ⟨hsec, hprimary⟩ := isSecurity_of_isReserved hreserved
  obtain ⟨t', ht', hs⟩ := h.staged n x hx
  rw [← htype] at hsec hprimary
  have hkeep : ∀ t', e.blocks[n]? = some (.keep t') → t' ≠ .primary := by
    intro t'' ht''
    cases ht'.symm.trans ht''
    rw [hs.keep, ← htype]
    exact hprimary
  rw [Editor.updateBlock_uncovered hview hsec hprimary hbib hbcb]
  obtain ⟨b, hb⟩ := Editor.updateBlockInner_total hview hkeep
  obtain ⟨hbe, hbn, -, hre⟩ := Editor.updateBlockInner_ok hb
  exact ⟨b, hb, hbe, hbn, hs.restages ht' h.original hcanonical hre⟩

end Tracks

/-- One block of the type of the stamp, and it is as the stamp says. -/
def Shows (s : Stamp) (m : Extensions) : Prop :=
  ∃ n crcType, m n = some ⟨s.blockType, s.flags, crcType, s.data, none⟩ ∧
    ∀ k x, m k = some x → x.blockType = s.blockType → k = n

/-- The blocks of other types are the same. -/
def SameBut (types : List BlockType) (m m' : Extensions) : Prop :=
  ∀ n x, x.blockType ∉ types → (m' n = some x ↔ m n = some x)

def Recognised (m : Extensions) : Prop := ∀ n x, m n = some x → x.crcType.isRecognised = true

theorem update_stamp {s : Stamp} {crcType : CrcType} (hm : Recognised m)
    (honly : ∀ k x, m k = some x → (x.blockType = s.blockType ↔ k = n))
    (hcrc : crcType.isRecognised = true) {m' : Extensions}
    (hm' : m' = Function.update m n (some ⟨s.blockType, s.flags, crcType, s.data, none⟩)) :
    (∀ s' ∈ [s], Shows s' m') ∧ SameBut [s.blockType] m m' ∧ Recognised m' := by
  have hself : m' n = some ⟨s.blockType, s.flags, crcType, s.data, none⟩ := by
    rw [hm', Function.update_self]
  have hother : ∀ k, k ≠ n → m' k = m k := fun k hk => by rw [hm', Function.update_of_ne hk]
  refine ⟨List.forall_mem_singleton.mpr ⟨n, crcType, hself, fun k x hk ht => ?_⟩,
    fun k x hx => ?_, fun k x hk => ?_⟩
  · by_contra hne
    rw [hother k hne] at hk
    exact hne ((honly k x hk).mp ht)
  · rw [List.mem_singleton] at hx
    by_cases hkn : k = n
    · subst hkn
      rw [hself]
      constructor
      · rintro ⟨⟩
        exact absurd rfl hx
      · exact fun hk => absurd ((honly k x hk).mpr rfl) hx
    · rw [hother k hkn]
  · by_cases hkn : k = n
    · subst hkn
      cases hself.symm.trans hk
      exact hcrc
    · rw [hother k hkn] at hk
      exact hm k x hk

/-- The blocks that the stamps replace are out of any coverage, and of each type there is one. -/
structure Free (o : Bundle) (m : Extensions) (t : BlockType) : Prop where
  unique : t.isUnique = true
  unprotected : ∀ (n : Nat) (b : Block), o.blocks[n]? = some b → b.blockType = t →
    b.isProtected n = false
  one : ∀ i j x y, m i = some x → m j = some y → x.blockType = t → y.blockType = t → i = j

/-- What an editor that stages `m` comes to with some stamps. -/
def Stamped (o : Bundle) (source : Bytes) (l : List Stamp) (m : Extensions) :
    Except EditorError Editor → Prop
  | .ok e => ∃ m', Tracks o source m' e ∧ (∀ s ∈ l, Shows s m') ∧
      SameBut (l.map Stamp.blockType) m m' ∧ Recognised m'
  | .error y => y = .outOfBlockNumbers

variable [Crates] [HashOrder]

theorem Tracks.stamp (h : Tracks o source m e) {s : Stamp} (hs : Free o m s.blockType)
    (hm : Recognised m) (hprimary : o.primary.crcType.isRecognised = true) :
    Stamped o source [s] m (Bpa.stamp e s) := by
  obtain ⟨hcanonical, hreserved, hne, hsec⟩ : s.blockType.canonicalize = s.blockType ∧
      ExtensionEditor.isReserved s.blockType = false ∧ s.blockType ≠ .primary ∧
      Editor.isSecurity s.blockType = false := by
    have hu := hs.unique
    cases ht : s.blockType <;> rw [ht] at hu <;> first | exact ⟨rfl, rfl, nofun, rfl⟩ | cases hu
  -- A builder for the block of the type comes to the same, wherever it is from.
  have hreplace : ∀ {n x} {b : EditBuilder}, m n = some x → x.blockType = s.blockType →
      b.editor = e → b.number = n → b.template.block = x.header →
      Stamped o source [s] m (.ok ((b.withFlags s.flags).withData s.data).rebuild) := by
    intro n x b hx htype hbe hbn hblock
    have htracks := h.restamp hx hbe hbn hblock s.flags s.data
    rw [htype] at htracks
    refine ⟨_, htracks, update_stamp hm (fun k y hk => ?_) (hm n x hx) rfl⟩
    refine ⟨fun ht => hs.one k n y x hk hx ht htype, fun hkn => ?_⟩
    rw [hkn, hx] at hk
    exact Option.some.inj hk ▸ htype
  unfold Bpa.stamp Editor.insertBlock
  dsimp only
  rw [hcanonical, if_neg hne, hsec]
  cases hfind : (HashOrder.iter e.blocks).find? fun t => t.2.blockType == s.blockType with
  | some entry =>
    obtain ⟨n, t⟩ := entry
    have ht := HashOrder.mem_iter.mp (List.mem_of_find?_eq_some hfind)
    have htype : t.blockType = s.blockType := by simpa using List.find?_some hfind
    obtain ⟨x, hx, hstages⟩ := h.of_free ht fun b hb hbt =>
      hs.unprotected n b hb (hbt.trans htype)
    rw [hstages.blockType] at htype
    cases t with
    | keep t =>
      obtain ⟨b, hb, hbe, hbn, hblock⟩ := h.updates hx
      simp only [hb]
      exact hreplace hx htype hbe hbn hblock
    | update t => exact hreplace hx htype rfl rfl hstages.1
    | insert t => exact hreplace hx htype rfl rfl hstages.1
  | none =>
    unfold Editor.allocBlock
    cases hfree : Editor.freeNumber e.blocks (e.blocks.size + 1) 2 with
    | none => rfl
    | some n =>
      obtain ⟨htwo, hn⟩ := Editor.freeNumber_ok hfree
      obtain ⟨hmn, hfree⟩ := h.fresh hn
      have hcrc : e.original.primary.crcType.isRecognised = true := h.original ▸ hprimary
      have hnew : Tracks o source (Function.update m n (some
          ⟨s.blockType, s.flags, e.original.primary.crcType, s.data, none⟩))
          (((⟨e, n, true, .new s.blockType {} e.original.primary.crcType none⟩ :
            EditBuilder).withFlags s.flags).withData s.data).rebuild := by
        refine h.set ⟨?_, rfl, rfl⟩ ⟨htwo, hfree, hreserved, hcanonical⟩
        simp only [EditBuilder.withFlags, EditBuilder.withData, BlockTemplate.new, hcanonical,
          ExtensionBlock.header]
      refine ⟨_, hnew, update_stamp hm (fun k x hk => ?_) hcrc rfl⟩
      refine ⟨fun htype => ?_, fun hkn => by rw [hkn, hmn] at hk; cases hk⟩
      obtain ⟨t, ht, hstages⟩ := h.staged k x hk
      refine absurd ?_ (List.find?_eq_none.mp hfind (k, t) (HashOrder.mem_iter.mpr ht))
      rw [beq_iff_eq, ← htype]
      exact hstages.blockType

/-! ## All stamps -/

omit [Crates] [HashOrder] in
theorem Shows.sameBut {s : Stamp} {types : List BlockType} {m' : Extensions} (h : Shows s m)
    (hsame : SameBut types m m') (hs : s.blockType ∉ types) : Shows s m' := by
  obtain ⟨n, crcType, hn, honly⟩ := h
  exact ⟨n, crcType, (hsame n _ hs).mpr hn,
    fun k x hk ht => honly k x ((hsame k x (ht ▸ hs)).mp hk) ht⟩

omit [Crates] [HashOrder] in
theorem Free.sameBut {t : BlockType} {types : List BlockType} {m' : Extensions} (h : Free o m t)
    (hsame : SameBut types m m') (ht : t ∉ types) : Free o m' t :=
  ⟨h.unique, h.unprotected, fun i j x y hi hj hx hy => h.one i j x y
    ((hsame i x (hx ▸ ht)).mp hi) ((hsame j y (hy ▸ ht)).mp hj) hx hy⟩

theorem Tracks.stampAll {l : List Stamp} (h : Tracks o source m e)
    (hl : ∀ s ∈ l, Free o m s.blockType) (htypes : (l.map Stamp.blockType).Nodup)
    (hm : Recognised m) (hprimary : o.primary.crcType.isRecognised = true) :
    Stamped o source l m (l.foldlM Bpa.stamp e) := by
  induction l generalizing m e with
  | nil => exact ⟨m, h, nofun, fun _ _ _ => Iff.rfl, hm⟩
  | cons s l ih =>
    obtain ⟨hs, hl⟩ := List.forall_mem_cons.mp hl
    obtain ⟨hnew, htypes⟩ := List.nodup_cons.mp htypes
    have hstep := h.stamp hs hm hprimary
    rw [List.foldlM_cons]
    cases hstamp : Bpa.stamp e s with
    | error y =>
      rw [hstamp] at hstep
      exact hstep
    | ok e₁ =>
      rw [hstamp] at hstep
      obtain ⟨m₁, h₁, hshows, hsame, hm₁⟩ := hstep
      have hshows := hshows s List.mem_cons_self
      have hne : ∀ s' ∈ l, s'.blockType ∉ [s.blockType] := fun s' hs' heq =>
        hnew (List.mem_singleton.mp heq ▸ List.mem_map_of_mem hs')
      have hrest := ih h₁ (fun s' hs' => (hl s' hs').sameBut hsame (hne s' hs')) htypes hm₁
      show Stamped o source (s :: l) m (l.foldlM Bpa.stamp e₁)
      cases hfold : l.foldlM Bpa.stamp e₁ with
      | error y =>
        rw [hfold] at hrest
        exact hrest
      | ok e' =>
        rw [hfold] at hrest
        obtain ⟨m', h', hall, hsame', hm'⟩ := hrest
        refine ⟨m', h', List.forall_mem_cons.mpr ⟨hshows.sameBut hsame' hnew, hall⟩, ?_, hm'⟩
        intro n x hx
        rw [List.map_cons, List.mem_cons, not_or] at hx
        exact (hsame' n x hx.2).trans (hsame n x (by simpa using hx.1))

end Extensions

/-! ## The ranges that are kept -/

namespace Chunk

variable {P : Nat → Prop} {l chunks : List Chunk} {c : Chunk}

theorem merge_starts (hl : ∀ r, unchanged r ∈ l → P r.start)
    (hc : ∀ r, unchanged r = c → P r.start) : ∀ r, unchanged r ∈ merge l c → P r.start := by
  have happend : ∀ r, unchanged r ∈ l ++ [c] → P r.start := by
    intro r hr
    rcases List.mem_append.mp hr with hr | hr
    · exact hl r hr
    · exact hc r (List.mem_singleton.mp hr)
  intro r hr
  unfold merge at hr
  split at hr
  · next last next hlast =>
      split at hr
      · rcases List.mem_append.mp hr with hr | hr
        · exact hl r (List.dropLast_subset _ hr)
        · cases List.mem_singleton.mp hr
          exact hl last (List.mem_of_getLast? hlast)
      · exact happend r hr
  · exact happend r hr

theorem foldl_merge_starts {acc : List Chunk} (hacc : ∀ r, unchanged r ∈ acc → P r.start)
    (hl : ∀ r, unchanged r ∈ l → P r.start) : ∀ r, unchanged r ∈ l.foldl merge acc → P r.start := by
  induction l generalizing acc with
  | nil => exact hacc
  | cons c l ih =>
    refine ih (merge_starts hacc fun r hr => hl r (hr ▸ List.mem_cons_self)) fun r hr => ?_
    exact hl r (List.mem_cons_of_mem _ hr)

/-- In place or not, a plan comes to the same. -/
theorem flattenBytes_eq {source : Bytes} (unique : Bool)
    (hfits : ∀ c ∈ chunks, c.Fits source) (hpos : ∀ r, unchanged r ∈ chunks → 0 < r.start)
    (hsource : source.length ≤ isizeMax) :
    flattenBytes unique chunks source = flatten chunks source := by
  cases unique with
  | false => rfl
  | true =>
    rw [flattenBytes, if_pos rfl]
    by_cases hlen : 2 + totalLen chunks ≤ isizeMax
    · exact (flattenInplace_fits hfits hpos (by omega)).trans
        (flatten_ok.mpr ⟨hlen, hfits, rfl⟩).symm
    · exact flattenInplace_too_long hsource (by omega)

end Chunk

namespace Bpa

variable [Crates] [HashOrder] {p : Parsed}

theorem rebuilt_starts {e : Editor} (h : e.Plain)
    (hpos : ∀ (n : Nat) (b : Block), e.original.blocks[n]? = some b → 0 < b.extent.start)
    {bundle : Hardy.Bundle} {chunks : List Chunk} (hr : e.rebuildBundle = .ok (bundle, chunks)) :
    ∀ r, Chunk.unchanged r ∈ chunks → 0 < r.start := by
  obtain ⟨p, hp, hr⟩ := Fold.bind_ok.mp hr
  cases hr
  refine Chunk.foldl_merge_starts nofun fun r hr => ?_
  rw [(p.assembled_perm.map Prod.snd).mem_iff, List.map_map] at hr
  obtain ⟨⟨n, block, chunk⟩, hx, heq⟩ := List.mem_map.mp hr
  cases heq
  obtain ⟨t, -, hb⟩ := (h.mem_all hp).mp hx
  have hbuilt : ∀ t : BlockTemplate, Editor.builtChunk n t ≠ .ok (block, .unchanged r) := by
    intro t ht
    unfold Editor.builtChunk at ht
    split at ht
    · cases ht
    · split at ht <;> cases ht
  cases t with
  | keep t =>
    rw [Editor.buildChunk, Editor.keptChunk] at hb
    split at hb
    · cases hb
    · next b ho =>
        cases hb
        exact hpos n block ho
  | update t => exact absurd hb (hbuilt t)
  | insert t => exact absurd hb (hbuilt t)

/-- A bundle that has been relayed: of each type that is stamped there is one block, which is as
the stamp says, and all others are there as they were, the payload and the security blocks
among them. -/
structure Relayed (p : Parsed) (l : List Stamp) (bundle : Hardy.Bundle) (bytes : Bytes) :
    Prop where
  primary : bundle.primary = p.bundle.primary
  stamped : ∀ s ∈ l, ∃ (n : Nat) (c : Block), bundle.blocks[n]? = some c ∧
    c.blockType = s.blockType ∧ c.flags = s.flags ∧ c.payload bytes = some s.data ∧
    ∀ (k : Nat) (c : Block), bundle.blocks[k]? = some c → c.blockType = s.blockType → k = n
  kept : ∀ (n : Nat) (b : Block), p.bundle.blocks[n]? = some b →
    b.blockType ∉ l.map Stamp.blockType → ∃ c : Block, bundle.blocks[n]? = some c ∧
      c.blockType = b.blockType ∧ c.bib = b.bib ∧ c.bcb = b.bcb ∧
      c.extent.slice bytes = b.extent.slice p.data
  only : ∀ (n : Nat) (c : Block), bundle.blocks[n]? = some c →
    c.blockType ∉ l.map Stamp.blockType → n ∈ p.bundle.blocks

omit [HashOrder] in
theorem relayed_of_written {l : List Stamp} {m : Extensions} {bundle : Hardy.Bundle}
    {bytes : Bytes} (hin : Extensions.InPlace p.bundle p.data)
    (hw : Extensions.Written p.bundle p.data m bundle bytes)
    (hfree : ∀ s ∈ l, ∀ (n : Nat) (b : Block), p.bundle.blocks[n]? = some b →
      b.blockType = s.blockType → b.isProtected n = false)
    (hshows : ∀ s ∈ l, Extensions.Shows s m)
    (hsame : Extensions.SameBut (l.map Stamp.blockType) (.ofBundle p.bundle p.data) m) :
    Relayed p l bundle bytes := by
  refine ⟨hw.primary, fun s hs => ?_, fun n b hb ht => ?_, fun n c hc ht => ?_⟩
  · obtain ⟨n, crcType, hn, honly⟩ := hshows s hs
    obtain ⟨c, hc, htype, hflags, -, -, -, hpayload, -⟩ := hw.extension n _ hn
    refine ⟨n, c, hc, htype, hflags, hpayload, fun k c' hc' ht' => ?_⟩
    rcases hw.only k (HashMap.mem_iff.mpr ⟨c', hc'⟩) with hp | hm
    · obtain ⟨b, hb⟩ := Extensions.exists_of_isProtected hp
      rw [Extensions.isProtected_eq hb] at hp
      obtain ⟨extent, hkept, -⟩ := hw.kept k b hb hp
      cases hc'.symm.trans hkept
      exact absurd hp (by rw [hfree s hs k b hb ht']; exact Bool.false_ne_true)
    · obtain ⟨x, hx⟩ := Option.isSome_iff_exists.mp hm
      obtain ⟨c'', hc'', htype', -⟩ := hw.extension k x hx
      cases hc'.symm.trans hc''
      exact honly k x hx (htype'.symm.trans ht')
  · cases hp : b.isProtected n with
    | true =>
      obtain ⟨extent, hkept, hslice⟩ := hw.kept n b hb hp
      exact ⟨_, hkept, rfl, rfl, rfl, hslice⟩
    | false =>
      obtain ⟨-, -, hbib, hbcb⟩ := Extensions.not_protected.mp hp
      have hm : Extensions.ofBundle p.bundle p.data n = some ⟨b.blockType, b.flags, b.crcType,
          b.data.slice (b.extent.slice p.data), some (b.extent.slice p.data)⟩ := by
        rw [Extensions.ofBundle, hb]
        simp [hp, hin.payload hb]
      obtain ⟨c, hc, htype, -, -, hbib', hbcb', -, hbytes⟩ :=
        hw.extension n _ ((hsame n _ ht).mpr hm)
      exact ⟨c, hc, htype, hbib'.trans hbib.symm, hbcb'.trans hbcb.symm, hbytes⟩
  · rcases hw.only n (HashMap.mem_iff.mpr ⟨c, hc⟩) with hp | hm
    · exact HashMap.mem_iff.mpr (Extensions.exists_of_isProtected hp)
    · obtain ⟨x, hx⟩ := Option.isSome_iff_exists.mp hm
      obtain ⟨c', hc', htype, -⟩ := hw.extension n x hx
      cases hc.symm.trans hc'
      obtain ⟨b, hb, -⟩ := Extensions.ofBundle_some ((hsame n x (htype ▸ ht)).mp hx)
      exact HashMap.mem_iff.mpr ⟨b, hb⟩

theorem recognised_of_parse {data : Bytes} (h : parse data = .ok p) :
    Extensions.Recognised (.ofBundle p.bundle p.data) := by
  intro n x hx
  obtain ⟨b, hb, hp, -, heq⟩ := Extensions.ofBundle_some hx
  obtain ⟨c, hc, -⟩ := parse_composition h
  have htwo := (Extensions.not_protected.mp hp).1
  obtain ⟨w, -, u, -, -, -, hlayout⟩ := hc.wire hb (by omega)
  have htype : b.crcType = w.header.crcType := congrArg Block.crcType hlayout
  have htrailer := w.trailer
  rw [heq]
  show b.crcType.isRecognised = true
  rw [htype]
  unfold TrailerOk at htrailer
  split at htrailer
  · next hnone =>
      rw [hnone]
      rfl
  · exact (crcValue_ok htrailer).2.1

theorem free_of_parse {data : Bytes} (hp : parse data = .ok p) {t : BlockType}
    (hunique : t.isUnique = true)
    (hplain : ∀ (n : Nat) (b : Block), p.bundle.blocks[n]? = some b → b.blockType = t →
      b.bib = .none ∧ b.bcb = none) :
    Extensions.Free p.bundle (.ofBundle p.bundle p.data) t := by
  obtain ⟨stop, -, htiles⟩ := tilesBytes_of_parse hp
  refine ⟨hunique, fun n b hb ht => ?_, fun i j x y hi hj hx hy => ?_⟩
  · have hu := ht ▸ hunique
    refine Extensions.not_protected.mpr ⟨?_, ?_, hplain n b hb ht⟩
    · by_contra hlt
      have hn : n = 0 ∨ n = 1 := by omega
      rcases hn with rfl | rfl
      · obtain ⟨c, hc, htype, -⟩ := htiles.primary_first
        cases hb.symm.trans hc
        rw [htype] at hu
        cases hu
      · obtain ⟨c, hc, htype, -⟩ := htiles.payload_last
        cases hb.symm.trans hc
        rw [htype] at hu
        cases hu
    · cases hbt : b.blockType <;> rw [hbt] at hu <;> first | rfl | cases hu
  · obtain ⟨b, hb, -, -, hbx⟩ := Extensions.ofBundle_some hi
    obtain ⟨c, hc, -, -, hcy⟩ := Extensions.ofBundle_some hj
    have hbt : b.blockType = t := (congrArg ExtensionBlock.blockType hbx).symm.trans hx
    have hct : c.blockType = t := (congrArg ExtensionBlock.blockType hcy).symm.trans hy
    exact htiles.unique j i c b hc hb (hct ▸ hunique) (hbt.trans hct.symm)

omit [HashOrder] in
theorem Relay.stamps_types (r : Relay) : (r.stamps.map Stamp.blockType).Nodup ∧
    ∀ s ∈ r.stamps, s.blockType.isUnique = true := by
  unfold stamps
  cases r.extensions.hopCount <;> dsimp only <;> split <;>
    simp [BlockType.isUnique]

/-- No security operation is over a block that a stamp replaces. -/
def Uncovered (o : Hardy.Bundle) (l : List Stamp) : Prop :=
  ∀ s ∈ l, ∀ (n : Nat) (b : Block), o.blocks[n]? = some b → b.blockType = s.blockType →
    b.bib = .none ∧ b.bcb = none

def Outcome (p : Parsed) (l : List Stamp) : Except EditorError (Hardy.Bundle × Bytes) → Prop
  | .ok (bundle, bytes) => Relayed p l bundle bytes
  | .error y => y = .outOfBlockNumbers ∨ y = .panicked "capacity overflow"

section

variable [Globs] {data : Bytes} {nextHop : Eid} {r : Relay}

theorem outcome (hp : parse data = .ok p) (hdata : data.length ≤ isizeMax)
    (hpeer : r.ipnLegacyPeers.any (·.matches nextHop) = false)
    (hplain : Uncovered p.bundle r.stamps) (unique : Bool) :
    Outcome p r.stamps (r.updateExtensionBlocks unique data nextHop) := by
  have hin := Extensions.inPlace_of_parse hp
  obtain ⟨stop, -, htiles⟩ := tilesBytes_of_parse hp
  obtain ⟨hnodup, hunique⟩ := r.stamps_types
  have hfree := fun s hs => free_of_parse hp (hunique s hs) (hplain s hs)
  have hstamped := hin.tracks.stampAll hfree hnodup (recognised_of_parse hp)
    (parse_primary hp).1.crcType
  unfold Relay.updateExtensionBlocks
  rw [hp]
  dsimp only [Except.mapError, bind, Except.bind]
  cases hfold : r.stamps.foldlM stamp (.new p.bundle p.data) with
  | error y =>
    rw [hfold] at hstamped
    exact .inl hstamped
  | ok e =>
    rw [hfold] at hstamped
    obtain ⟨m, htracks, hshows, hsame, hm⟩ := hstamped
    simp only [hpeer, Bool.false_eq_true, if_false, pure, Except.pure]
    cases hr : e.rebuildBundle with
    | error y =>
      obtain ⟨n, x, hx, hcrc⟩ := htracks.rebuild_error hin hr
      exact absurd (hm n x hx) (by rw [hcrc]; exact Bool.false_ne_true)
    | ok rebuilt =>
      obtain ⟨bundle, chunks⟩ := rebuilt
      have hpos := rebuilt_starts (htracks.plain hin) (fun n b hb => by
        rw [htracks.original] at hb
        exact ((htiles.cover _).mpr ⟨n, b, hb, le_rfl, htiles.nonempty n b hb⟩).1) hr
      have hfits := (htracks.plain hin).chunks_fit hr
      rw [htracks.sourceData] at hfits
      have hsource : p.data.length ≤ isizeMax := by
        obtain ⟨c, hc, hbytes⟩ := parse_composition hp
        rw [hc.data, hbytes]
        exact hdata
      dsimp only
      rw [Chunk.flattenBytes_eq unique hfits hpos hsource]
      by_cases hlen : 2 + Chunk.totalLen chunks ≤ isizeMax
      · have hflatten := Chunk.flatten_ok.mpr ⟨hlen, hfits, rfl⟩
        rw [hflatten]
        exact relayed_of_written hin (htracks.written hin hr hflatten)
          (fun s hs => (hfree s hs).unprotected) hshows hsame
      · rw [Chunk.flatten, Chunk.allocate, if_neg hlen]
        exact .inr rfl

/-- A relay changes the blocks that it stamps and nothing else.  It fails where the bundle has a
block under every number, or the bytes are too many for a vector. -/
theorem relays (hp : parse data = .ok p) (hdata : data.length ≤ isizeMax)
    (hpeer : r.ipnLegacyPeers.any (·.matches nextHop) = false)
    (hplain : Uncovered p.bundle r.stamps) (unique : Bool) :
    (∀ bundle bytes, r.updateExtensionBlocks unique data nextHop = .ok (bundle, bytes) →
      Relayed p r.stamps bundle bytes) ∧
    ∀ y, r.updateExtensionBlocks unique data nextHop = .error y →
      y = .outOfBlockNumbers ∨ y = .panicked "capacity overflow" := by
  have h := outcome hp hdata hpeer hplain unique
  constructor
  · intro bundle bytes hr
    rw [hr] at h
    exact h
  · intro y hr
    rw [hr] at h
    exact h

end

/-- The node `ipn:5.0` relays a bundle that has a hop count. -/
def hopRelay : Relay where
  nodeIds := ⟨some ⟨0, 5⟩, none⟩
  ipnLegacyPeers := []
  primary := {
    flags := {}
    id := ⟨.ipn ⟨0, 2⟩ 1, ⟨some 1, 0⟩, none⟩
    crcType := .none
    destination := .ipn ⟨0, 3⟩ 1
    reportTo := .null
    lifetime := ⟨0⟩ }
  extensions.hopCount := (Cbor.parseExact HopInfo.fromCbor [0x82, 0x18, 0x1E, 0x00]).toOption
  receivedAt := 0
  now := 0

omit [Crates] [HashOrder] in
theorem hopCountBundle_relayed : ∃ p bundle bytes,
    @parse .reference .sorted hopCountBundle = .ok p ∧
    @Relay.updateExtensionBlocks .reference .sorted .literal hopRelay true hopCountBundle .null =
      .ok (bundle, bytes) ∧
    Relayed p (@Relay.stamps .reference hopRelay) bundle bytes := by
  have hplain : (@parse .reference .sorted hopCountBundle).toOption.map (fun p =>
      (@HashOrder.iter .sorted _ p.bundle.blocks).all fun e =>
        decide (e.2.bib = .none ∧ e.2.bcb = none)) = some true := by decide +kernel
  have hok : (@Relay.updateExtensionBlocks .reference .sorted .literal hopRelay true
      hopCountBundle .null).toOption.isSome = true := by decide +kernel
  obtain ⟨p, hp, hplain⟩ := Option.map_eq_some_iff.mp hplain
  obtain ⟨⟨bundle, bytes⟩, hr⟩ := Option.isSome_iff_exists.mp hok
  have hparse := Fold.ok_of_toOption hp
  have hupdated := Fold.ok_of_toOption hr
  have hfree : ∀ (n : Nat) (b : Block), p.bundle.blocks[n]? = some b →
      b.bib = .none ∧ b.bcb = none := by
    intro n b hb
    have hmem : (n, b) ∈ @HashOrder.iter .sorted _ p.bundle.blocks :=
      (@HashOrder.mem_iter _ .sorted _ _).mpr hb
    exact of_decide_eq_true (List.all_eq_true.mp hplain (n, b) hmem)
  have hlen : hopCountBundle.length ≤ isizeMax := by decide
  have hpeer : hopRelay.ipnLegacyPeers.any (@EidPattern.matches .literal · .null) = false := rfl
  exact ⟨p, bundle, bytes, hparse, hupdated, (@relays .reference .sorted p .literal hopCountBundle
    .null hopRelay hparse hlen hpeer (fun _ _ n b hb _ => hfree n b hb) true).1 _ _ hupdated⟩

end Bpa

end Hardy
