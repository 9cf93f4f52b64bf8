import Hardy.Build.Roundtrip
import Hardy.Edit.Assemble
import Hardy.Edit.Recovery

/-!
# The rebuilt bundle

Where `rebuild_bundle` puts the blocks, and what their bytes are.  A block that is kept has the
bytes that it had in the source; a block that is staged has the bytes that its template is emitted
as, with its data where the entry of the block says.
-/

namespace Hardy

open Cbor

namespace Fold

variable {ε α β : Type} {f : α → Except ε β} {l : List α}

theorem mem_mapM {l' : List β} (h : l.mapM f = .ok l') :
    (∀ a ∈ l, ∃ b, f a = .ok b) ∧ ∀ b, b ∈ l' ↔ ∃ a ∈ l, f a = .ok b := by
  induction l generalizing l' with
  | nil =>
    cases h
    simp
  | cons a l ih =>
    rw [List.mapM_cons] at h
    obtain ⟨b, hb, h⟩ := bind_ok.mp h
    obtain ⟨bs, hbs, h⟩ := bind_ok.mp h
    cases h
    obtain ⟨hall, hmem⟩ := ih hbs
    refine ⟨List.forall_mem_cons.mpr ⟨⟨b, hb⟩, hall⟩, fun b' => ?_⟩
    rw [List.mem_cons, hmem]
    simp [hb, eq_comm]

theorem mapM_error {y : ε} (h : l.mapM f = .error y) : ∃ a ∈ l, f a = .error y := by
  induction l with
  | nil => cases h
  | cons a l ih =>
    rw [List.mapM_cons] at h
    rcases bind_error.mp h with h | ⟨b, -, h⟩
    · exact ⟨a, List.mem_cons_self, h⟩
    · rcases bind_error.mp h with h | ⟨bs, -, h⟩
      · obtain ⟨a', ha', h⟩ := ih h
        exact ⟨a', List.mem_cons_of_mem _ ha', h⟩
      · cases h

end Fold

/-! ## Emitted blocks -/

theorem Block.payload_eq {b : Block} {source : Bytes} (hin : b.extent.start ≤ source.length)
    (hle : b.data.start ≤ b.data.stop)
    (hstop : b.data.stop ≤ (b.extent.slice source).length) :
    b.payload source = some (b.data.slice (b.extent.slice source)) := by
  simp only [Range.slice, List.length_take, List.length_drop] at hstop
  have hstart : b.payloadRange.start ≤ b.payloadRange.stop ∧
      b.payloadRange.stop ≤ source.length := by
    simp only [Block.payloadRange]
    omega
  rw [Block.payload, if_pos hstart]
  simp only [Block.payloadRange, Range.slice, List.drop_take, List.take_take, List.drop_drop]
  congr 2
  omega

section

variable [Crates] {b block : Block} {n : Nat} {data bytes : Bytes}

theorem Block.emit_data (h : b.emit n data = .ok (block, bytes)) :
    block = { b with data := b.dataRange n data } ∧
      block.data.start ≤ block.data.stop ∧ block.data.stop ≤ bytes.length ∧
      block.data.slice bytes = data := by
  obtain ⟨out, hcrc, hb⟩ := Fold.bind_ok.mp h
  obtain ⟨rfl, rfl⟩ := Prod.mk.inj (Except.ok.inj hb)
  rw [Block.emitArray_eq] at hcrc
  obtain ⟨tail, rfl⟩ : ∃ tail, out = b.headBytes n data.length ++ data ++ tail := by
    rcases appendCrcValue_ok hcrc with ⟨-, rfl⟩ | ⟨v, -, -, rfl⟩
    · exact ⟨[], (List.append_nil _).symm⟩
    · exact ⟨_, rfl⟩
  have hrange : b.dataRange n data =
      ⟨(b.headBytes n data.length).length, (b.headBytes n data.length).length + data.length⟩ := by
    rw [b.length_headBytes n data]
    rfl
  dsimp only
  rw [hrange]
  refine ⟨rfl, Nat.le_add_right _ _, ?_, Range.slice_mid _ _ _⟩
  simp only [List.length_append]
  omega

theorem Block.emit_error {x : CrcError} (h : b.emit n data = .error x) :
    b.crcType.isRecognised = false := by
  rcases Fold.bind_error.mp h with h | ⟨out, -, h⟩
  · by_contra hr
    obtain ⟨out, hout⟩ := appendCrcValue_isOk (by simpa using hr) (b.emitArray n data)
    rw [hout] at h
    cases h
  · cases h

end

/-! ## What is put together -/

namespace Editor

section

variable [Crates] [HashOrder] {e : Editor} {p : Parts}

theorem parts_ok : e.parts = .ok p ↔ ∃ template payload, e.blocks[0]? = some template ∧
    e.blocks[1]? = some payload ∧
    e.primaryChunk template = .ok (p.primary, p.primaryBlock, p.primaryChunk) ∧
    e.extensionChunks = .ok p.extensions ∧
    e.buildChunk 1 payload = .ok (p.payloadBlock, p.payloadChunk) := by
  unfold parts
  constructor
  · intro h
    split at h
    · cases h
    · next template h0 =>
        obtain ⟨⟨primary, block, chunk⟩, hprimary, h⟩ := Fold.bind_ok.mp h
        dsimp only at h
        split at h
        · cases h
        · next payload h1 =>
            obtain ⟨extensions, hextensions, h⟩ := Fold.bind_ok.mp h
            obtain ⟨w, hpayload, h⟩ := Fold.bind_ok.mp h
            cases h
            exact ⟨template, payload, h0, h1, hprimary, hextensions, hpayload⟩
  · rintro ⟨template, payload, h0, h1, hprimary, hextensions, hpayload⟩
    rw [h0, h1]
    simp only [hprimary, hextensions, hpayload]
    rfl

variable {block : Block}

theorem mem_extensionChunks {l : List (Nat × Block × Chunk)} (h : e.extensionChunks = .ok l)
    {n : Nat} {chunk : Chunk} : (n, block, chunk) ∈ l ↔
      n ≠ 0 ∧ n ≠ 1 ∧ ∃ t, e.blocks[n]? = some t ∧ e.buildChunk n t = .ok (block, chunk) := by
  have hget : (n ≠ 0 ∧ n ≠ 1 ∧ ∃ t, e.blocks[n]? = some t ∧ e.buildChunk n t = .ok (block, chunk)) ↔
      ∃ t, (n, t) ∈ HashOrder.iter ((e.blocks.erase 0).erase 1) ∧
        e.buildChunk n t = .ok (block, chunk) := by
    simp only [HashOrder.mem_iter, HashMap.getElem?_erase]
    by_cases h0 : n = 0 <;> by_cases h1 : n = 1 <;> simp [h0, h1]
  rw [hget, (Fold.mem_mapM h).2]
  constructor
  · rintro ⟨⟨k, t⟩, hk, hx⟩
    obtain ⟨v, hv, hx⟩ := Fold.bind_ok.mp hx
    cases hx
    exact ⟨t, hk, hv⟩
  · rintro ⟨t, ht, hv⟩
    exact ⟨(n, t), ht, Fold.bind_ok.mpr ⟨_, hv, rfl⟩⟩

def Parts.all (p : Parts) : List (Nat × Block × Chunk) :=
  (0, p.primaryBlock, p.primaryChunk) ::
    (p.extensions ++ [(1, p.payloadBlock, p.payloadChunk)])

theorem parts_keys (h : e.parts = .ok p) : (p.all.map Prod.fst).Nodup := by
  have hkeys := parts_extensions h
  have hpair := HashOrder.iter_pairwise ((e.blocks.erase 0).erase 1)
  have hnodup : (p.extensions.map Prod.fst).Nodup := hkeys ▸ List.pairwise_map.mpr hpair
  have hmem : ∀ n : Nat, n ∈ p.extensions.map Prod.fst → n ≠ 0 ∧ n ≠ 1 := by
    intro n hn
    rw [hkeys, mem_iter_keys, HashMap.mem_erase, HashMap.mem_erase] at hn
    exact ⟨hn.2.1, hn.1⟩
  simp only [Parts.all, List.map_cons, List.map_append, List.map_nil, List.nodup_cons,
    List.mem_append, List.mem_singleton, not_or]
  refine ⟨⟨fun h0 => (hmem 0 h0).1 rfl, by decide⟩, ?_⟩
  refine List.nodup_append.mpr ⟨hnodup, List.nodup_singleton 1, fun n hn k hk => ?_⟩
  rw [List.mem_singleton.mp hk]
  exact (hmem n hn).2

theorem parts_blocks (h : e.parts = .ok p) {n : Nat} :
    p.blocks[n]? = some block ↔ ∃ chunk, (n, block, chunk) ∈ p.all := by
  have hkeys := parts_keys h
  have hfold : p.blocks = HashMap.ofPairs (p.all.map fun x => (x.1, x.2.1)) := by
    simp [Parts.blocks, Parts.all, HashMap.ofPairs, List.foldl_map]
  have hpair : (p.all.map fun x => (x.1, x.2.1)).Pairwise fun a b => a.1 ≠ b.1 := by
    rw [List.pairwise_map]
    exact List.pairwise_map.mp hkeys
  rw [hfold, HashMap.getElem?_ofPairs hpair, List.mem_map]
  constructor
  · rintro ⟨⟨k, b, c⟩, hx, heq⟩
    cases heq
    exact ⟨c, hx⟩
  · rintro ⟨c, hx⟩
    exact ⟨_, hx, rfl⟩

omit [Crates] [HashOrder] in
theorem Parts.assembled_perm (p : Parts) :
    (Chunk.assembled p.primaryChunk p.extensionChunks p.payloadChunk).Perm
      (p.all.map fun x => (x.1, x.2.2)) := by
  simp only [Chunk.assembled, Parts.all, List.map_cons, List.map_append, List.map_nil]
  exact .cons _ ((Chunk.order_perm p.extensionChunks).append_right _)

theorem parts_placed (h : e.parts = .ok p) {source bytes : Bytes}
    (hfits : ∀ x ∈ p.all, x.2.2.Fits source) (hbytes : Chunk.flatten p.chunks source = .ok bytes)
    {n : Nat} {chunk : Chunk} (hx : (n, block, chunk) ∈ p.all)
    (blocks : HashMap Block) : ∃ start, start + chunk.len ≤ bytes.length ∧
      (Range.mk start (start + chunk.len)).slice bytes = chunk.content source ∧
      (Chunk.place 1 (Chunk.assembled p.primaryChunk p.extensionChunks p.payloadChunk) blocks)[n]? =
        blocks[n]?.map fun b => { b with extent := ⟨start, start + chunk.len⟩ } := by
  have hperm := p.assembled_perm
  have hkeys : ((Chunk.assembled p.primaryChunk p.extensionChunks p.payloadChunk).map
      Prod.fst).Nodup := by
    refine (hperm.map Prod.fst).nodup_iff.mpr ?_
    rw [List.map_map]
    exact parts_keys h
  have hall : ∀ c ∈ (Chunk.assembled p.primaryChunk p.extensionChunks p.payloadChunk).map Prod.snd,
      c.Fits source := by
    intro c hc
    rw [(hperm.map Prod.snd).mem_iff, List.map_map] at hc
    obtain ⟨x, hx, rfl⟩ := List.mem_map.mp hc
    exact hfits x hx
  obtain ⟨-, -, rfl⟩ := Chunk.flatten_ok.mp hbytes
  rw [Parts.chunks, (Chunk.assemble_written hall).2]
  obtain ⟨l, l', hsplit⟩ := List.append_of_mem
    (hperm.mem_iff.mpr (List.mem_map.mpr ⟨_, hx, rfl⟩))
  rw [hsplit] at hkeys hall ⊢
  rw [Chunk.place_get hkeys]
  rw [List.map_append, List.map_cons] at hall ⊢
  have hlen : (Chunk.written source (l.map Prod.snd)).length = Chunk.totalLen (l.map Prod.snd) :=
    Chunk.length_written fun c hc => hall c (List.mem_append_left _ hc)
  have hchunk : (chunk.content source).length = chunk.len :=
    Chunk.length_content (hall chunk (List.mem_append_right _ List.mem_cons_self))
  have hstart : (0x9F :: Chunk.written source (l.map Prod.snd)).length =
      1 + Chunk.totalLen (l.map Prod.snd) := by
    rw [List.length_cons, hlen, Nat.add_comm]
  have hslice := Range.slice_mid (0x9F :: Chunk.written source (l.map Prod.snd))
    (chunk.content source) (Chunk.written source (l'.map Prod.snd) ++ [0xFF])
  rw [hstart, hchunk] at hslice
  refine ⟨1 + Chunk.totalLen (l.map Prod.snd), ?_, ?_, rfl⟩
  · simp only [Chunk.written_append, Chunk.written_cons, List.length_cons, List.length_append, hlen,
      hchunk]
    omega
  · rw [← hslice]
    simp only [Chunk.written_append, Chunk.written_cons, List.cons_append, List.append_assoc]

/-! ## Editors with templates alone -/

/-- Nothing is staged but in the templates, and the primary block is kept. -/
structure Plain (e : Editor) : Prop where
  primary : e.primary = none
  bibOverrides : e.bibOverrides = ∅
  bcbOverrides : e.bcbOverrides = ∅
  primaryKept : ∃ t, e.blocks[0]? = some (.keep t)
  payload : 1 ∈ e.blocks
  inSource : ∀ (n : Nat) (b : Block), e.original.blocks[n]? = some b →
    b.extent.start ≤ b.extent.stop ∧ b.extent.stop ≤ e.sourceData.length

namespace Plain

omit [HashOrder] in
theorem fits (h : e.Plain) {n : Nat} {t : EditTemplate} {chunk : Chunk}
    (hb : e.buildChunk n t = .ok (block, chunk)) : chunk.Fits e.sourceData := by
  have hbuilt : ∀ t : BlockTemplate, builtChunk n t = .ok (block, chunk) →
      chunk.Fits e.sourceData := by
    intro t ht
    unfold builtChunk at ht
    split at ht
    · cases ht
    · split at ht
      · cases ht
      · cases ht
        trivial
  cases t with
  | keep blockType =>
    rw [buildChunk, keptChunk] at hb
    cases ho : e.original.blocks[n]? with
    | none => rw [ho] at hb; cases hb
    | some b =>
      rw [ho] at hb
      cases hb
      exact h.inSource n block ho
  | update t => exact hbuilt t hb
  | insert t => exact hbuilt t hb

omit [Crates] in
theorem overrides (h : e.Plain) (blocks : HashMap Block) : e.applyOverrides blocks = blocks := by
  have hnil : ∀ {β : Type}, HashOrder.iter (∅ : HashMap β) = [] := by
    intro β
    refine List.eq_nil_iff_forall_not_mem.mpr fun x hx => ?_
    rw [HashOrder.mem_iter, Std.ExtTreeMap.getElem?_empty] at hx
    cases hx
  rw [applyOverrides, h.bibOverrides, h.bcbOverrides, hnil, hnil]
  rfl

omit [HashOrder] in
theorem primaryChunk_eq (h : e.Plain) {template : EditTemplate}
    (h0 : e.blocks[0]? = some template) :
    e.primaryChunk template = (e.buildChunk 0 template).map fun x =>
      (e.original.primary, x.1, x.2) := by
  obtain ⟨t, ht⟩ := h.primaryKept
  cases h0.symm.trans ht
  simp only [primaryChunk, h.primary, buildChunk]
  cases e.keptChunk 0 <;> rfl

theorem mem_all (h : e.Plain) (hp : e.parts = .ok p) {n : Nat} {chunk : Chunk} :
    (n, block, chunk) ∈ p.all ↔
      ∃ t, e.blocks[n]? = some t ∧ e.buildChunk n t = .ok (block, chunk) := by
  obtain ⟨template, payload, h0, h1, hprimary, hextensions, hpayload⟩ := parts_ok.mp hp
  rw [h.primaryChunk_eq h0] at hprimary
  obtain ⟨x, hx, heq⟩ := Fold.map_ok.mp hprimary
  have hbuild : e.buildChunk 0 template = .ok (p.primaryBlock, p.primaryChunk) :=
    hx.trans (congrArg Except.ok (Prod.mk.inj heq).2)
  simp only [Parts.all, List.mem_cons, List.mem_append, List.not_mem_nil, or_false, Prod.mk.injEq,
    mem_extensionChunks hextensions]
  constructor
  · rintro (⟨rfl, rfl, rfl⟩ | ⟨-, -, t, ht, hb⟩ | ⟨rfl, rfl, rfl⟩)
    · exact ⟨template, h0, hbuild⟩
    · exact ⟨t, ht, hb⟩
    · exact ⟨payload, h1, hpayload⟩
  · rintro ⟨t, ht, hb⟩
    by_cases hn0 : n = 0
    · subst hn0
      cases h0.symm.trans ht
      cases hbuild.symm.trans hb
      exact .inl ⟨rfl, rfl, rfl⟩
    · by_cases hn1 : n = 1
      · subst hn1
        cases h1.symm.trans ht
        cases hpayload.symm.trans hb
        exact .inr (.inr ⟨rfl, rfl, rfl⟩)
      · exact .inr (.inl ⟨hn0, hn1, t, ht, hb⟩)

theorem builds (h : e.Plain) (hp : e.parts = .ok p) {n : Nat} {t : EditTemplate}
    (ht : e.blocks[n]? = some t) : ∃ block chunk, e.buildChunk n t = .ok (block, chunk) := by
  obtain ⟨template, payload, h0, h1, hprimary, hextensions, hpayload⟩ := parts_ok.mp hp
  by_cases hn0 : n = 0
  · subst hn0
    cases h0.symm.trans ht
    rw [h.primaryChunk_eq h0] at hprimary
    obtain ⟨x, hx, -⟩ := Fold.map_ok.mp hprimary
    exact ⟨x.1, x.2, hx⟩
  by_cases hn1 : n = 1
  · subst hn1
    cases h1.symm.trans ht
    exact ⟨_, _, hpayload⟩
  have hmem : (n, t) ∈ HashOrder.iter ((e.blocks.erase 0).erase 1) := by
    rw [HashOrder.mem_iter, HashMap.getElem?_erase, if_neg hn1, HashMap.getElem?_erase, if_neg hn0]
    exact ht
  obtain ⟨x, hx⟩ := (Fold.mem_mapM hextensions).1 _ hmem
  obtain ⟨v, hv, -⟩ := Fold.bind_ok.mp hx
  exact ⟨v.1, v.2, hv⟩

theorem fits_all (h : e.Plain) (hp : e.parts = .ok p) : ∀ x ∈ p.all, x.2.2.Fits e.sourceData := by
  intro x hx
  obtain ⟨t, -, hb⟩ := (h.mem_all hp).mp hx
  exact h.fits hb

theorem chunks_fit (h : e.Plain) {bundle : Bundle} {chunks : List Chunk}
    (hr : e.rebuildBundle = .ok (bundle, chunks)) : ∀ c ∈ chunks, c.Fits e.sourceData := by
  obtain ⟨p, hp, hr⟩ := Fold.bind_ok.mp hr
  cases hr
  refine (Chunk.assemble_written fun c hc => ?_).1
  rw [(p.assembled_perm.map Prod.snd).mem_iff, List.map_map] at hc
  obtain ⟨x, hx, rfl⟩ := List.mem_map.mp hc
  exact h.fits_all hp x hx

theorem rebuilt (h : e.Plain) {bundle : Bundle} {chunks : List Chunk} {bytes : Bytes}
    (hr : e.rebuildBundle = .ok (bundle, chunks))
    (hbytes : Chunk.flatten chunks e.sourceData = .ok bytes) :
    bundle.primary = e.original.primary ∧ ∀ n : Nat, match e.blocks[n]? with
      | none => bundle.blocks[n]? = none
      | some t => ∃ block chunk start, e.buildChunk n t = .ok (block, chunk) ∧
          bundle.blocks[n]? = some { block with extent := ⟨start, start + chunk.len⟩ } ∧
          start + chunk.len ≤ bytes.length ∧
          (Range.mk start (start + chunk.len)).slice bytes = chunk.content e.sourceData := by
  obtain ⟨p, hp, hr⟩ := Fold.bind_ok.mp hr
  cases hr
  rw [h.overrides]
  refine ⟨?_, fun n => ?_⟩
  · obtain ⟨template, payload, h0, h1, hprimary, hextensions, hpayload⟩ := parts_ok.mp hp
    rw [h.primaryChunk_eq h0] at hprimary
    obtain ⟨x, -, heq⟩ := Fold.map_ok.mp hprimary
    exact (Prod.mk.inj heq).1.symm
  have hfits := h.fits_all hp
  have hentry : ∀ block, p.blocks[n]? = some block ↔
      ∃ t chunk, e.blocks[n]? = some t ∧ e.buildChunk n t = .ok (block, chunk) := by
    intro block
    rw [parts_blocks hp]
    simp only [h.mem_all hp]
    exact exists_comm
  split
  · next hn =>
      refine Option.eq_none_iff_forall_not_mem.mpr fun block hblock => ?_
      have hmem := mem_place.mp (HashMap.mem_iff.mpr ⟨block, hblock⟩)
      obtain ⟨b, hb⟩ := HashMap.mem_iff.mp hmem
      obtain ⟨t, -, ht, -⟩ := (hentry b).mp hb
      rw [hn] at ht
      cases ht
  · next t ht =>
      obtain ⟨block, chunk, hb⟩ := h.builds hp ht
      obtain ⟨start, hle, hslice, hplace⟩ :=
        parts_placed hp hfits hbytes ((h.mem_all hp).mpr ⟨t, ht, hb⟩) p.blocks
      refine ⟨block, chunk, start, hb, ?_, hle, hslice⟩
      rw [hplace, (hentry block).mpr ⟨t, chunk, ht, hb⟩]
      rfl

theorem rebuild_error (h : e.Plain) {x : EditorError} (hr : e.rebuildBundle = .error x) :
    ∃ n t, e.blocks[n]? = some t ∧ ∃ y, e.buildChunk n t = .error y := by
  obtain ⟨t, h0⟩ := h.primaryKept
  obtain ⟨payload, h1⟩ := HashMap.mem_iff.mp h.payload
  rcases Fold.bind_error.mp hr with hp | ⟨p, -, hp⟩
  · rw [parts, h0, h1] at hp
    dsimp only at hp
    rcases Fold.bind_error.mp hp with hp | ⟨w, -, hp⟩
    · rw [h.primaryChunk_eq h0] at hp
      exact ⟨0, _, h0, x, Fold.map_error.mp hp⟩
    rcases Fold.bind_error.mp hp with hp | ⟨l, -, hp⟩
    · obtain ⟨⟨n, t⟩, hmem, hx⟩ := Fold.mapM_error hp
      rw [HashOrder.mem_iter, HashMap.getElem?_erase, HashMap.getElem?_erase] at hmem
      have ht : e.blocks[n]? = some t := by
        by_cases hn0 : n = 0 <;> by_cases hn1 : n = 1 <;> simp_all
      rcases Fold.bind_error.mp hx with hx | ⟨v, -, hx⟩
      · exact ⟨n, t, ht, x, hx⟩
      · cases hx
    rcases Fold.bind_error.mp hp with hp | ⟨w, -, hp⟩
    · exact ⟨1, payload, h1, x, hp⟩
    · cases hp
  · cases hp

end Plain

end

end Editor

end Hardy
