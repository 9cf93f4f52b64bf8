import Hardy.Checks.Verify
import Hardy.Order
import Hardy.Parse.Tiled

/-!
# Verification in two passes

The streaming gate verifies a bundle while only a part of its payload is
resident, and the payload targets once it has drained the rest.  Everything
but a payload target reads bytes in front of the payload, so the first pass
does what the one pass over the whole bundle does; what it leaves is what the
second pass checks.
-/

namespace Hardy.Checks

open Cbor Bpsec

/-! ## Residency -/

/-- The blocks of `data` when its first `k` bytes are resident: every block is
in `data`, and all but the payload are among the resident bytes. -/
structure SplitAt (data : Bytes) (k : Nat) (blocks : HashMap Block) : Prop where
  le : k ≤ data.length
  resident : ∀ (n : Nat) (b : Block), blocks[n]? = some b → n ≠ 1 → b.payloadRange.stop ≤ k
  whole : ∀ (n : Nat) (b : Block), blocks[n]? = some b →
    b.payloadRange.start ≤ b.payloadRange.stop ∧ b.payloadRange.stop ≤ data.length
  payload : ∀ b : Block, blocks[1]? = some b → b.blockType = .payload

variable {data : Bytes}

theorem payload_take {b : Block} {k : Nat} (h : b.payloadRange.stop ≤ k)
    (hk : k ≤ data.length) : b.payload (data.take k) = b.payload data := by
  have hlen : (data.take k).length = k := by rw [List.length_take, Nat.min_eq_left hk]
  have hslice : b.payloadRange.slice (data.take k) = b.payloadRange.slice data := by
    have := Range.slice_append (hlen.symm ▸ h : b.payloadRange.stop ≤ (data.take k).length)
      (data.drop k)
    rwa [List.take_append_drop, eq_comm] at this
  simp only [Block.payload, hslice, hlen]
  refine if_congr (and_congr_right fun _ => ?_) rfl rfl
  exact ⟨fun h => Nat.le_trans h hk, fun _ => h⟩

theorem payload_take_cases (b : Block) {k : Nat} (hk : k ≤ data.length) :
    b.payload (data.take k) = none ∨ b.payload (data.take k) = b.payload data := by
  by_cases h : b.payloadRange.stop ≤ k
  · exact .inr (payload_take h hk)
  · refine .inl ?_
    rw [Block.payload, if_neg]
    rw [List.length_take, Nat.min_eq_left hk]
    exact fun hin => h hin.2

namespace SplitAt

variable {data : Bytes} {k : Nat} {blocks blocks' : HashMap Block}

theorem sameLayout (h : SplitAt data k blocks) (hl : SameLayout blocks blocks') :
    SplitAt data k blocks' := by
  refine ⟨h.le, ?_, ?_, ?_⟩
  · intro n b' hb' hn
    obtain ⟨b, hb, -, -, hr⟩ := hl.same hb'
    rw [← hr]
    exact h.resident n b hb hn
  · intro n b' hb'
    obtain ⟨b, hb, -, -, hr⟩ := hl.same hb'
    rw [← hr]
    exact h.whole n b hb
  · intro b' hb'
    obtain ⟨b, hb, -, ht, -⟩ := hl.same hb'
    rw [← ht]
    exact h.payload b hb

theorem ne_one (h : SplitAt data k blocks) {n : Nat} {b : Block} (hb : blocks[n]? = some b)
    (ht : b.blockType ≠ .payload) : n ≠ 1 := by
  rintro rfl
  exact ht (h.payload b hb)

theorem payload_isSome (h : SplitAt data k blocks) {n : Nat} {b : Block}
    (hb : blocks[n]? = some b) : b.payload data ≠ none := by
  rw [Block.payload, if_pos (h.whole n b hb)]
  exact Option.some_ne_none _

variable (decrypted updates : HashMap Bytes)

theorem overlay_header (source source' : Bytes) (n : Nat) :
    (overlay blocks source decrypted updates).header n =
      (overlay blocks source' decrypted updates).header n := by
  simp only [Reader.header, overlay, Option.map_map]
  rfl

theorem overlay_eq (h : SplitAt data k blocks) {n : Nat} (hn : n ≠ 1) :
    overlay blocks (data.take k) decrypted updates n = overlay blocks data decrypted updates n := by
  unfold overlay
  cases hb : blocks[n]? with
  | none => rfl
  | some b => rw [Option.map_some, Option.map_some, payload_take (h.resident n b hb hn) h.le]

theorem agreeOn (h : SplitAt data k blocks) {target : Nat} (ht : target ≠ 1) (source : Nat) :
    (overlay blocks (data.take k) decrypted updates).AgreeOn
      (overlay blocks data decrypted updates) target source where
  primary := h.overlay_eq decrypted updates (by decide)
  target := h.overlay_eq decrypted updates ht
  source := overlay_header decrypted updates _ _ source

end SplitAt

variable [Crates] [HashOrder] [Ciphers]

/-! ## Decryption -/

section

variable {data : Bytes} {k : Nat} {blocks : HashMap Block} (keys : KeySource)
  (bcbs : HashMap BcbSet) (bibs : HashMap BibSet) (decrypted updates : HashMap Bytes)

omit [HashOrder] in
theorem decryptTarget_take (h : SplitAt data k blocks) {target : Nat} (ht : target ≠ 1)
    (ops : BcbSet) (bcb : Nat) :
    decryptTarget (data.take k) keys blocks decrypted updates ops bcb target =
      decryptTarget data keys blocks decrypted updates ops bcb target := by
  unfold decryptTarget
  cases ops.operations[target]? with
  | none => rfl
  | some op => exact BcbOperation.decrypt_congr _ (h.agreeOn decrypted updates ht bcb) op keys

theorem resolveBib_take {s : BibResolution} (h : SplitAt data k s.blocks) {bib : Nat}
    (hb : bib ≠ 1) :
    resolveBib (data.take k) keys bcbs updates s bib = resolveBib data keys bcbs updates s bib := by
  unfold resolveBib
  simp only [decryptTarget_take keys s.decrypted updates h hb]

theorem resolveBib_sameLayout {s s' : BibResolution} {bib : Nat}
    (h : resolveBib data keys bcbs updates s bib = .ok s') : SameLayout s.blocks s'.blocks := by
  unfold resolveBib at h
  split at h
  · cases h
  · split at h
    · cases h
    · split at h
      · cases h
        exact .refl _
      · cases h
        exact .refl _
      · cases h
      · obtain ⟨set, -, h⟩ := Fold.bind_ok.mp h
        cases h
        exact stampTargets_sameLayout set (fun b => { b with bib := .some bib }) (fun _ => rfl) _

omit [Crates] [HashOrder] [Ciphers] in
theorem settle_sameLayout (s : BibResolution) : SameLayout s.blocks s.settle.blocks := by
  unfold BibResolution.settle
  split
  · intro n
    rw [Std.ExtTreeMap.getElem?_map, Option.map_map]
    refine congrArg (fun f => s.blocks[n]?.map f) (funext fun b => ?_)
    simp only [Function.comp, collapseMaybe]
    split <;> rfl
  · exact .refl _

omit [Crates] [Ciphers] in
theorem mem_encryptedBibs {n : Nat} (h : n ∈ encryptedBibs blocks) :
    ∃ b : Block, blocks[n]? = some b ∧ b.blockType = .blockIntegrity ∧ b.bcb.isSome := by
  obtain ⟨e, he, hn⟩ := List.mem_filterMap.mp h
  split at hn
  · next hc =>
      cases hn
      exact ⟨e.2, HashOrder.mem_iter.mp he, hc⟩
  · cases hn

omit [Crates] [Ciphers] in
theorem mem_encryptedExtensions {x : Nat × BlockType × Nat} (h : x ∈ encryptedExtensions blocks) :
    ∃ b : Block, blocks[x.1]? = some b ∧ isWellKnown b.blockType = true := by
  obtain ⟨e, he, hx⟩ := List.mem_filterMap.mp h
  split at hx
  · next hc =>
      obtain ⟨bcb, -, rfl⟩ := Option.map_eq_some_iff.mp hx
      exact ⟨e.2, HashOrder.mem_iter.mp he, hc⟩
  · cases hx

theorem coveredBibs_take (h : SplitAt data k blocks) :
    decryptAndValidateCoveredBibs (data.take k) keys blocks bcbs bibs decrypted updates =
      decryptAndValidateCoveredBibs data keys blocks bcbs bibs decrypted updates := by
  have hfold : ∀ l : List Nat, (∀ n ∈ l, n ≠ 1) → ∀ s : BibResolution, SplitAt data k s.blocks →
      l.foldlM (resolveBib (data.take k) keys bcbs updates) s =
        l.foldlM (resolveBib data keys bcbs updates) s := by
    intro l hl s hs
    refine Fold.foldlM_congr (P := fun s : BibResolution => SplitAt data k s.blocks)
      (fun _ hs hr => hs.sameLayout (resolveBib_sameLayout keys bcbs updates hr))
      (fun hn hs => ?_) hs
    exact resolveBib_take keys bcbs updates hs (hl _ hn)
  unfold decryptAndValidateCoveredBibs
  rw [hfold _ (fun n hn => ?_) _ h]
  obtain ⟨b, hb, ht, -⟩ := mem_encryptedBibs hn
  exact h.ne_one hb (by rw [ht]; nofun)

theorem coveredBibs_sameLayout {s : BibResolution}
    (hs : decryptAndValidateCoveredBibs data keys blocks bcbs bibs decrypted updates = .ok s) :
    SameLayout blocks s.blocks := by
  obtain ⟨s₁, h₁, h⟩ := Fold.bind_ok.mp hs
  cases h
  have hlay : SameLayout blocks s₁.blocks :=
    Fold.foldlM_invariant (P := fun s : BibResolution => SameLayout blocks s.blocks)
      (fun _ hs hr => hs.trans (resolveBib_sameLayout keys bcbs updates hr)) (.refl _) h₁
  exact hlay.trans (settle_sameLayout s₁)

theorem extensions_take (h : SplitAt data k blocks) (x : ExtensionPass) :
    (encryptedExtensions blocks).foldlM
        (decryptExtension (data.take k) keys blocks bcbs updates) x =
      (encryptedExtensions blocks).foldlM (decryptExtension data keys blocks bcbs updates) x := by
  refine Fold.foldlM_congr (P := fun _ => True) (fun _ _ _ => trivial) (fun {s e} he _ => ?_) trivial
  obtain ⟨b, hb, ht⟩ := mem_encryptedExtensions he
  have hne : e.1 ≠ 1 := h.ne_one hb (by rintro hp; rw [hp] at ht; cases ht)
  unfold decryptExtension
  simp only [decryptTarget_take keys s.decrypted updates h hne]

/-! ## One operation -/

variable (bib : Nat) (source : Eid)

omit [HashOrder] in
theorem verifyTarget_whole (h : SplitAt data k blocks) (e : Nat × BibOperation) :
    verifyTarget data keys blocks decrypted updates bib source e ≠ .ok true := by
  unfold verifyTarget
  cases hb : blocks[e.1]? with
  | none => nofun
  | some target =>
    dsimp only
    split
    · nofun
    · rw [if_neg (fun hc => h.payload_isSome hb hc.2.2)]
      intro ht
      obtain ⟨-, -, ht⟩ := Fold.bind_ok.mp ht
      cases ht

omit [Crates] [HashOrder] [Ciphers] in
theorem overlay_payload {target : Block} (hb : blocks[1]? = some target)
    (hr : 1 ∈ decrypted ∨ 1 ∈ updates ∨ target.payload (data.take k) = target.payload data) :
    overlay blocks (data.take k) decrypted updates 1 = overlay blocks data decrypted updates 1 := by
  simp only [overlay, hb, Option.map_some]
  rcases hr with hd | hu | hp
  · obtain ⟨p, hd⟩ := HashMap.mem_iff.mp hd
    rw [hd]
  · obtain ⟨p, hu⟩ := HashMap.mem_iff.mp hu
    rw [hu]
  · rw [hp]

omit [HashOrder] in
theorem verifyTarget_take (h : SplitAt data k blocks) (e : Nat × BibOperation) :
    (e.1 = 1 ∧ verifyTarget (data.take k) keys blocks decrypted updates bib source e = .ok true) ∨
      verifyTarget (data.take k) keys blocks decrypted updates bib source e =
        verifyTarget data keys blocks decrypted updates bib source e := by
  obtain ⟨t, op⟩ := e
  by_cases hne : t = 1
  · subst hne
    unfold verifyTarget
    cases hb : blocks[1]? with
    | none => exact .inr rfl
    | some target =>
      dsimp only
      by_cases hskip : target.bcb.isSome ∧ 1 ∉ decrypted
      · rw [if_pos hskip, if_pos hskip]
        exact .inr rfl
      · have hwhole : ¬ (1 ∉ decrypted ∧ 1 ∉ updates ∧ target.payload data = none) :=
          fun hc => h.payload_isSome hb hc.2.2
        rw [if_neg hskip, if_neg hskip, if_neg hwhole]
        by_cases hleft : 1 ∉ decrypted ∧ 1 ∉ updates ∧ target.payload (data.take k) = none
        · rw [if_pos hleft]
          exact .inl ⟨rfl, rfl⟩
        · rw [if_neg hleft]
          have hread : 1 ∈ decrypted ∨ 1 ∈ updates ∨
              target.payload (data.take k) = target.payload data := by
            rcases payload_take_cases target h.le with hp | hp
            · by_contra hno
              exact hleft ⟨fun hd => hno (.inl hd), fun hu => hno (.inr (.inl hu)), hp⟩
            · exact .inr (.inr hp)
          have hagree : (overlay blocks (data.take k) decrypted updates).AgreeOn
              (overlay blocks data decrypted updates) 1 bib :=
            ⟨h.overlay_eq decrypted updates (by decide),
              overlay_payload decrypted updates hb hread,
              SplitAt.overlay_header decrypted updates _ _ bib⟩
          rw [BibOperation.verify_congr source hagree]
          exact .inr rfl
  · refine .inr ?_
    unfold verifyTarget
    cases hb : blocks[t]? with
    | none => rfl
    | some target =>
      simp only [payload_take (h.resident t target hb hne) h.le,
        BibOperation.verify_congr source (h.agreeOn decrypted updates hne bib)]

omit [HashOrder] in
theorem verifyPayloadTarget_iff (h : SplitAt data k blocks) {ops : BibSet} {op : BibOperation}
    (hop : ops.operations[1]? = some op)
    (hleft : verifyTarget (data.take k) keys blocks decrypted updates bib ops.source (1, op) =
      .ok true) :
    verifyPayloadTarget data keys blocks decrypted updates (bib, ops) = .ok () ↔
      verifyTarget data keys blocks decrypted updates bib ops.source (1, op) = .ok false := by
  unfold verifyTarget at hleft ⊢
  unfold verifyPayloadTarget
  rw [hop]
  cases hb : blocks[1]? with
  | none =>
    rw [hb] at hleft
    cases hleft
  | some target =>
    rw [hb] at hleft
    dsimp only at hleft ⊢
    have hskip : ¬ (target.bcb.isSome ∧ 1 ∉ decrypted) := by
      intro hskip
      rw [if_pos hskip] at hleft
      cases hleft
    rw [if_neg hskip, if_neg hskip, if_neg (fun hc => h.payload_isSome hb hc.2.2), Fold.bind_ok]
    exact ⟨fun ho => ⟨(), ho, rfl⟩, fun ⟨_, ho, _⟩ => ho⟩

end

/-! ## All operations -/

section

variable {data : Bytes} {keys : KeySource} {blocks : HashMap Block} {bibs : HashMap BibSet}
  {decrypted updates : HashMap Bytes}

theorem verifyBib_ok {bib : Nat} {ops : BibSet} {d : Bool} :
    verifyBib data keys blocks decrypted updates bib ops = .ok d ↔
      (∀ t op, ops.operations[t]? = some op →
        ∃ b, verifyTarget data keys blocks decrypted updates bib ops.source (t, op) = .ok b) ∧
      (d = true ↔ ∃ t op, ops.operations[t]? = some op ∧
        verifyTarget data keys blocks decrypted updates bib ops.source (t, op) = .ok true) := by
  rw [verifyBib, Fold.foldlM_or]
  refine and_congr ⟨fun h t op hop => ?_, fun h e he => ?_⟩ (iff_congr Iff.rfl ?_)
  · exact h (t, op) (HashOrder.mem_iter.mpr hop)
  · exact h e.1 e.2 (HashOrder.mem_iter.mp he)
  · simp only [Bool.false_eq_true, false_or]
    constructor
    · rintro ⟨e, he, ht⟩
      exact ⟨e.1, e.2, HashOrder.mem_iter.mp he, ht⟩
    · rintro ⟨t, op, hop, ht⟩
      exact ⟨(t, op), HashOrder.mem_iter.mpr hop, ht⟩

theorem verifyBib_exists {bib : Nat} {ops : BibSet}
    (h : ∀ t op, ops.operations[t]? = some op →
      ∃ b, verifyTarget data keys blocks decrypted updates bib ops.source (t, op) = .ok b) :
    ∃ d, verifyBib data keys blocks decrypted updates bib ops = .ok d := by
  by_cases hd : ∃ t op, ops.operations[t]? = some op ∧
      verifyTarget data keys blocks decrypted updates bib ops.source (t, op) = .ok true
  · exact ⟨true, verifyBib_ok.mpr ⟨h, fun _ => hd, fun _ => rfl⟩⟩
  · exact ⟨false, verifyBib_ok.mpr ⟨h, nofun, fun hd' => absurd hd' hd⟩⟩

theorem verifyAllBibs_ok {deferred : List Nat}
    (h : verifyAllBibs data keys blocks bibs decrypted updates = .ok deferred) :
    (∀ n ops, bibs[n]? = some ops →
      ∃ b, verifyBib data keys blocks decrypted updates n ops = .ok b) ∧
    ∀ n, n ∈ deferred ↔ ∃ ops, bibs[n]? = some ops ∧
      verifyBib data keys blocks decrypted updates n ops = .ok true := by
  obtain ⟨hall, hmem⟩ := Fold.foldlM_collect
    (f := fun e => verifyBib data keys blocks decrypted updates e.1 e.2) h
  refine ⟨fun n ops ho => hall (n, ops) (HashOrder.mem_iter.mpr ho), fun n => ?_⟩
  rw [hmem]
  simp only [List.not_mem_nil, false_or]
  constructor
  · rintro ⟨e, he, ht, rfl⟩
    exact ⟨e.2, HashOrder.mem_iter.mp he, ht⟩
  · rintro ⟨ops, ho, ht⟩
    exact ⟨(n, ops), HashOrder.mem_iter.mpr ho, ht, rfl⟩

theorem verifyAllBibs_exists (h : ∀ n ops, bibs[n]? = some ops →
      ∃ b, verifyBib data keys blocks decrypted updates n ops = .ok b) :
    ∃ deferred, verifyAllBibs data keys blocks bibs decrypted updates = .ok deferred :=
  Fold.foldlM_collect_exists (f := fun e => verifyBib data keys blocks decrypted updates e.1 e.2)
    (fun e he => h e.1 e.2 (HashOrder.mem_iter.mp he)) []

end

omit [Crates] [HashOrder] [Ciphers] in
theorem getElem?_drainAll (deferred : List Nat) (m : HashMap BibSet × HashMap BibSet) (n : Nat) :
    (deferred.foldl drainOne m).2[n]? =
      if n ∈ deferred then (m.1[n]?).or m.2[n]? else m.2[n]? := by
  induction deferred generalizing m with
  | nil => rfl
  | cons a l ih =>
    rw [List.foldl_cons, ih, drainOne]
    cases ha : m.1[a]? with
    | none =>
      by_cases hn : n = a
      · subst hn
        simp [ha]
      · simp [hn]
    | some ops =>
      by_cases hn : n = a
      · subst hn
        simp [ha]
      · simp [hn, Std.ExtTreeMap.getElem?_erase, Std.ExtTreeMap.getElem?_insert, Ne.symm hn]

omit [Crates] [HashOrder] [Ciphers] in
theorem getElem?_drain (deferred : List Nat) (bibs : HashMap BibSet) (n : Nat) :
    (drain deferred bibs).2[n]? = if n ∈ deferred then bibs[n]? else none := by
  rw [drain, getElem?_drainAll]
  simp

/-! ## Two passes -/

section

variable {data : Bytes} {k : Nat} {keys : KeySource} {blocks : HashMap Block}
  {bibs : HashMap BibSet} {decrypted updates : HashMap Bytes}

theorem verifyAllBibs_whole (h : SplitAt data k blocks) :
    (∃ deferred, verifyAllBibs data keys blocks bibs decrypted updates = .ok deferred) ↔
      ∀ n ops, bibs[n]? = some ops → ∀ t op, ops.operations[t]? = some op →
        verifyTarget data keys blocks decrypted updates n ops.source (t, op) = .ok false := by
  constructor
  · rintro ⟨deferred, hd⟩ n ops ho t op hop
    obtain ⟨d, hb⟩ := (verifyAllBibs_ok hd).1 n ops ho
    obtain ⟨b, hv⟩ := (verifyBib_ok.mp hb).1 t op hop
    cases b with
    | true => exact absurd hv (verifyTarget_whole keys decrypted updates n ops.source h _)
    | false => exact hv
  · intro hall
    refine verifyAllBibs_exists fun n ops ho => verifyBib_exists fun t op hop => ?_
    exact ⟨false, hall n ops ho t op hop⟩

theorem verifyAllBibs_whole_nil (h : SplitAt data k blocks) {deferred : List Nat}
    (hd : verifyAllBibs data keys blocks bibs decrypted updates = .ok deferred) :
    deferred = [] := by
  refine List.eq_nil_iff_forall_not_mem.mpr fun n hn => ?_
  obtain ⟨ops, -, hb⟩ := ((verifyAllBibs_ok hd).2 n).mp hn
  obtain ⟨t, op, -, hv⟩ := (verifyBib_ok.mp hb).2.mp rfl
  exact verifyTarget_whole keys decrypted updates n ops.source h _ hv

theorem verifyAllBibs_take (h : SplitAt data k blocks) :
    (∃ deferred, verifyAllBibs (data.take k) keys blocks bibs decrypted updates = .ok deferred ∧
      verifyPayload data keys blocks (drain deferred bibs).2 decrypted updates = .ok ()) ↔
    ∃ deferred, verifyAllBibs data keys blocks bibs decrypted updates = .ok deferred := by
  rw [verifyAllBibs_whole h]
  constructor
  · rintro ⟨deferred, hd, hpay⟩ n ops ho t op hop
    obtain ⟨hall, hmem⟩ := verifyAllBibs_ok hd
    obtain ⟨d, hb⟩ := hall n ops ho
    obtain ⟨hops, hdefer⟩ := verifyBib_ok.mp hb
    rcases verifyTarget_take keys decrypted updates n ops.source h (t, op) with ⟨rfl, hv⟩ | hv
    · obtain rfl : d = true := hdefer.mpr ⟨1, op, hop, hv⟩
      have hn : n ∈ deferred := (hmem n).mpr ⟨ops, ho, hb⟩
      refine (verifyPayloadTarget_iff keys decrypted updates n h hop hv).mp ?_
      refine forM_iter.mp hpay n ops ?_
      rw [getElem?_drain, if_pos hn, ho]
    · obtain ⟨b, hb'⟩ := hops t op hop
      rw [hv] at hb'
      cases b with
      | true => exact absurd hb' (verifyTarget_whole keys decrypted updates n ops.source h _)
      | false => exact hb'
  · intro hall
    have hfirst : ∀ n ops, bibs[n]? = some ops →
        ∃ b, verifyBib (data.take k) keys blocks decrypted updates n ops = .ok b := by
      intro n ops ho
      refine verifyBib_exists fun t op hop => ?_
      rcases verifyTarget_take keys decrypted updates n ops.source h (t, op) with ⟨-, hv⟩ | hv
      · exact ⟨true, hv⟩
      · exact ⟨false, hv.trans (hall n ops ho t op hop)⟩
    obtain ⟨deferred, hd⟩ := verifyAllBibs_exists hfirst
    refine ⟨deferred, hd, forM_iter.mpr fun n ops ho => ?_⟩
    rw [getElem?_drain] at ho
    split at ho
    · next hn =>
        obtain ⟨ops', ho', hb⟩ := ((verifyAllBibs_ok hd).2 n).mp hn
        cases ho.symm.trans ho'
        obtain ⟨t, op, hop, hv⟩ := (verifyBib_ok.mp hb).2.mp rfl
        rcases verifyTarget_take keys decrypted updates n ops.source h (t, op) with ⟨rfl, -⟩ | heq
        · exact (verifyPayloadTarget_iff keys decrypted updates n h hop hv).mpr
            (hall n ops ho 1 op hop)
        · exact absurd (heq.symm.trans hv)
            (verifyTarget_whole keys decrypted updates n ops.source h _)
    · cases ho

end

/-- The two passes of the streaming gate over a bundle of which `k` bytes are
resident at first: `verify` on these, then `verify_payload` on the whole
bundle with the operation sets that were left and the blocks that were
decrypted. -/
def verifyTwoPass (k : Nat) (data : Bytes) (keys : KeySource) (blocks : HashMap Block)
    (bcbs : HashMap BcbSet) (bibs : HashMap BibSet) (decrypted updates : HashMap Bytes) :
    Except Error Verified := do
  let v ← verify (data.take k) keys blocks bcbs bibs decrypted updates
  verifyPayload data keys v.blocks v.facts.deferredBibs v.decrypted updates
  pure v

theorem verify_ok {keys : KeySource} {blocks : HashMap Block}
    {bcbs : HashMap BcbSet} {bibs : HashMap BibSet} {decrypted updates : HashMap Bytes}
    {v : Verified} :
    verify data keys blocks bcbs bibs decrypted updates = .ok v ↔ ∃ s x deferred,
      decryptAndValidateCoveredBibs data keys blocks bcbs bibs decrypted updates = .ok s ∧
      (encryptedExtensions s.blocks).foldlM (decryptExtension data keys s.blocks bcbs updates)
        { decrypted := s.decrypted, failed := s.failed } = .ok x ∧
      verifyAllBibs data keys s.blocks s.bibs x.decrypted updates = .ok deferred ∧
      v = ⟨⟨x.failed, x.nokeyExt, (drain deferred s.bibs).2⟩, s.blocks, (drain deferred s.bibs).1,
        x.decrypted⟩ := by
  simp only [verify, Fold.bind_ok]
  constructor
  · rintro ⟨s, hs, x, hx, deferred, hd, h⟩
    cases h
    exact ⟨s, x, deferred, hs, hx, hd, rfl⟩
  · rintro ⟨s, x, deferred, hs, hx, hd, rfl⟩
    exact ⟨s, hs, x, hx, deferred, hd, rfl⟩

omit [Ciphers] in
theorem splitAt_of_parse {p : Parsed} (hp : parse data = .ok p) {payload : Block}
    (hb : p.bundle.blocks[1]? = some payload) {k : Nat} (hk : payload.extent.start ≤ k)
    (hle : k ≤ data.length) : SplitAt data k p.bundle.blocks := by
  obtain ⟨stop, hlen, ht⟩ := tilesBytes_of_parse hp
  obtain ⟨payload', hb', htype, hlast⟩ := ht.payload_last
  cases hb.symm.trans hb'
  refine ⟨hle, ?_, ?_, ?_⟩
  · intro n b hn hne
    have hin := (ht.inside n b hn).2.2
    have hstop := hlast n b hn hne
    omega
  · intro n b hn
    obtain ⟨-, hle, hin⟩ := ht.inside n b hn
    have hpos := ht.nonempty n b hn
    have hcover := ((ht.cover (b.extent.stop - 1)).mpr ⟨n, b, hn, by omega, by omega⟩).2
    exact ⟨hle, by omega⟩
  · intro b hn
    cases hb.symm.trans hn
    exact htype

theorem verifyTwoPass_ok {k : Nat} {keys : KeySource} {blocks : HashMap Block}
    (h : SplitAt data k blocks) {bcbs : HashMap BcbSet} {bibs : HashMap BibSet}
    {decrypted updates : HashMap Bytes} {v : Verified} :
    verifyTwoPass k data keys blocks bcbs bibs decrypted updates = .ok v ↔ ∃ s x deferred,
      decryptAndValidateCoveredBibs data keys blocks bcbs bibs decrypted updates = .ok s ∧
      (encryptedExtensions s.blocks).foldlM (decryptExtension data keys s.blocks bcbs updates)
        { decrypted := s.decrypted, failed := s.failed } = .ok x ∧
      (verifyAllBibs (data.take k) keys s.blocks s.bibs x.decrypted updates = .ok deferred ∧
        verifyPayload data keys s.blocks (drain deferred s.bibs).2 x.decrypted updates = .ok ()) ∧
      v = ⟨⟨x.failed, x.nokeyExt, (drain deferred s.bibs).2⟩, s.blocks, (drain deferred s.bibs).1,
        x.decrypted⟩ := by
  simp only [verifyTwoPass, Fold.bind_ok, verify_ok, coveredBibs_take keys bcbs bibs decrypted
    updates h]
  constructor
  · rintro ⟨v', ⟨s, x, deferred, hs, hx, hd, rfl⟩, ⟨⟩, hpay, hv⟩
    cases hv
    rw [extensions_take keys bcbs updates
      (h.sameLayout (coveredBibs_sameLayout keys bcbs bibs decrypted updates hs))] at hx
    exact ⟨s, x, deferred, hs, hx, ⟨hd, hpay⟩, rfl⟩
  · rintro ⟨s, x, deferred, hs, hx, ⟨hd, hpay⟩, rfl⟩
    rw [← extensions_take keys bcbs updates
      (h.sameLayout (coveredBibs_sameLayout keys bcbs bibs decrypted updates hs))] at hx
    exact ⟨_, ⟨s, x, deferred, hs, hx, hd, rfl⟩, (), hpay, rfl⟩

/-- Two passes with a split at `k` do what the one pass over the whole bundle
does. -/
structure TwoPassAgrees (k : Nat) (data : Bytes) (keys : KeySource) (blocks : HashMap Block)
    (bcbs : HashMap BcbSet) (bibs : HashMap BibSet) (decrypted updates : HashMap Bytes) :
    Prop where
  success : (∃ v, verifyTwoPass k data keys blocks bcbs bibs decrypted updates = .ok v) ↔
    ∃ v, verify data keys blocks bcbs bibs decrypted updates = .ok v
  outcome : ∀ v v', verifyTwoPass k data keys blocks bcbs bibs decrypted updates = .ok v →
    verify data keys blocks bcbs bibs decrypted updates = .ok v' →
    v.blocks = v'.blocks ∧ v.decrypted = v'.decrypted ∧ v.facts.failed = v'.facts.failed ∧
      v.facts.nokeyExt = v'.facts.nokeyExt
  /-- The one pass leaves nothing to a second one. -/
  nothing_left : ∀ v, verify data keys blocks bcbs bibs decrypted updates = .ok v →
    v.facts.deferredBibs = ∅

theorem SplitAt.twoPassAgrees {k : Nat} {blocks : HashMap Block}
    (hsplit : SplitAt data k blocks) (keys : KeySource) (bcbs : HashMap BcbSet)
    (bibs : HashMap BibSet) (decrypted updates : HashMap Bytes) :
    TwoPassAgrees k data keys blocks bcbs bibs decrypted updates := by
  have hblocks : ∀ {s}, decryptAndValidateCoveredBibs data keys blocks bcbs bibs
      decrypted updates = .ok s → SplitAt data k s.blocks := fun hs =>
    hsplit.sameLayout (coveredBibs_sameLayout keys bcbs bibs decrypted updates hs)
  refine ⟨⟨?_, ?_⟩, ?_, ?_⟩
  · rintro ⟨v, hv⟩
    obtain ⟨s, x, deferred, hs, hx, hd, -⟩ := (verifyTwoPass_ok hsplit).mp hv
    obtain ⟨deferred', hd'⟩ := (verifyAllBibs_take (hblocks hs)).mp ⟨deferred, hd⟩
    exact ⟨_, verify_ok.mpr ⟨s, x, deferred', hs, hx, hd', rfl⟩⟩
  · rintro ⟨v, hv⟩
    obtain ⟨s, x, deferred, hs, hx, hd, -⟩ := verify_ok.mp hv
    obtain ⟨deferred', hd'⟩ := (verifyAllBibs_take (hblocks hs)).mpr ⟨deferred, hd⟩
    exact ⟨_, (verifyTwoPass_ok hsplit).mpr ⟨s, x, deferred', hs, hx, hd', rfl⟩⟩
  · intro v v' hv hv'
    obtain ⟨s, x, deferred, hs, hx, -, rfl⟩ := (verifyTwoPass_ok hsplit).mp hv
    obtain ⟨s', x', deferred', hs', hx', -, rfl⟩ := verify_ok.mp hv'
    cases hs.symm.trans hs'
    cases hx.symm.trans hx'
    exact ⟨rfl, rfl, rfl, rfl⟩
  · intro v hv
    obtain ⟨s, x, deferred, hs, -, hd, rfl⟩ := verify_ok.mp hv
    rw [verifyAllBibs_whole_nil (hblocks hs) hd]
    rfl

/-- Verifying a bundle in two passes, with any split behind the start of its
payload block, succeeds when the one pass over the whole bundle does, with the
same coverage, decrypted blocks, failures and missing keys, whatever operations the
two are given. -/
theorem verifyTwoPass_agrees {data : Bytes} {p : Parsed} (hp : parse data = .ok p)
    {payload : Block} (hb : p.bundle.blocks[1]? = some payload) {k : Nat}
    (hk : payload.extent.start ≤ k) (hle : k ≤ data.length) (keys : KeySource)
    (bcbs : HashMap BcbSet) (bibs : HashMap BibSet) (decrypted updates : HashMap Bytes) :
    TwoPassAgrees k data keys p.bundle.blocks bcbs bibs decrypted updates :=
  (splitAt_of_parse hp hb hk hle).twoPassAgrees keys bcbs bibs decrypted updates

/-! ## A bundle in two parts -/

def signedPayload : Bytes :=
  [0x9F, 0x88, 0x07, 0x00, 0x00, 0x82, 0x02, 0x82, 0x01, 0x02, 0x82, 0x02, 0x82, 0x02, 0x01,
    0x82, 0x02, 0x82, 0x02, 0x01, 0x82, 0x00, 0x18, 0x28, 0x1A, 0x00, 0x0F, 0x42, 0x40, 0x85,
    0x0B, 0x02, 0x00, 0x00, 0x58, 0x56, 0x81, 0x01, 0x01, 0x01, 0x82, 0x02, 0x82, 0x02, 0x01,
    0x82, 0x82, 0x01, 0x07, 0x82, 0x03, 0x00, 0x81, 0x81, 0x82, 0x01, 0x58, 0x40, 0x3B, 0xDC,
    0x69, 0xB3, 0xA3, 0x4A, 0x2B, 0x5D, 0x3A, 0x85, 0x54, 0x36, 0x8B, 0xD1, 0xE8, 0x08, 0xF6,
    0x06, 0x21, 0x9D, 0x2A, 0x10, 0xA8, 0x46, 0xEA, 0xE3, 0x88, 0x6A, 0xE4, 0xEC, 0xC8, 0x3C,
    0x4E, 0xE5, 0x50, 0xFD, 0xFB, 0x1C, 0xC6, 0x36, 0xB9, 0x04, 0xE2, 0xF1, 0xA7, 0x3E, 0x30,
    0x3D, 0xCD, 0x4B, 0x6C, 0xCE, 0xCE, 0x00, 0x3E, 0x95, 0xE8, 0x16, 0x4D, 0xCC, 0x89, 0xA1,
    0x56, 0xE1, 0x85, 0x01, 0x01, 0x00, 0x00, 0x58, 0x23, 0x52, 0x65, 0x61, 0x64, 0x79, 0x20,
    0x74, 0x6F, 0x20, 0x67, 0x65, 0x6E, 0x65, 0x72, 0x61, 0x74, 0x65, 0x20, 0x61, 0x20, 0x33,
    0x32, 0x2D, 0x62, 0x79, 0x74, 0x65, 0x20, 0x70, 0x61, 0x79, 0x6C, 0x6F, 0x61, 0x64, 0xFF]

@[reducible] def Ciphers.refusing : Ciphers where
  hmac _ _ _ := []
  gcmDecrypt _ _ _ _ _ := none
  gcmDecryptDetached _ _ _ _ _ _ := none
  unwrapKey _ _ _ := none

omit [Crates] [HashOrder] [Ciphers] in
/-- With a split in the payload and no key at hand, the first pass leaves the
BIB to the second. -/
theorem signedPayload_agrees : ∃ p payload,
    @parse .reference .sorted signedPayload = .ok p ∧ p.bundle.blocks[1]? = some payload ∧
    payload.payloadRange = ⟨129, 164⟩ ∧
    ((@verify .reference .sorted Ciphers.refusing (signedPayload.take 140) (KeySet.source [])
      p.bundle.blocks p.bcbs p.bibs ∅ ∅).toOption.map
        fun v => v.facts.deferredBibs.toList.map Prod.fst) = some [2] ∧
    @TwoPassAgrees .reference .sorted Ciphers.refusing 140 signedPayload (KeySet.source [])
      p.bundle.blocks p.bcbs p.bibs ∅ ∅ := by
  have hblock : ((@parse .reference .sorted signedPayload).toOption.bind fun p =>
      p.bundle.blocks[1]?.map fun b => (b.extent.start, b.payloadRange)) =
        some (122, ⟨129, 164⟩) := by decide +kernel
  have hleft : ((@parse .reference .sorted signedPayload).toOption.bind fun p =>
      (@verify .reference .sorted Ciphers.refusing (signedPayload.take 140) (KeySet.source [])
        p.bundle.blocks p.bcbs p.bibs ∅ ∅).toOption.map
          fun v => v.facts.deferredBibs.toList.map Prod.fst) = some [2] := by decide +kernel
  cases hp : @parse .reference .sorted signedPayload with
  | error x =>
    rw [hp] at hblock
    cases hblock
  | ok p =>
    rw [hp] at hblock hleft
    obtain ⟨payload, hb, he⟩ := Option.map_eq_some_iff.mp hblock
    obtain ⟨hstart, hrange⟩ := Prod.mk.injEq _ _ _ _ ▸ he
    refine ⟨p, payload, rfl, hb, hrange, hleft, ?_⟩
    exact @verifyTwoPass_agrees .reference .sorted Ciphers.refusing _ p hp payload hb 140
      (by omega) (by decide +kernel) _ _ _ _ _

end Hardy.Checks
