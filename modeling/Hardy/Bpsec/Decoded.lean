import Hardy.Bpsec.Rewriting

/-!
# Decoded operation sets

What the decoder returns can be written again: its operations share a context
and nothing in them is longer than the block they came from.
-/

namespace Hardy.Bpsec

open Cbor

/-! ## The abstract security block -/

theorem skipped_isItem {st : Series} {d u : Bytes} {s : Bool} {c : Cursor UInt8 Series}
    (h : Series.item 1 (skipValue 16) ⟨st, d⟩ = .ok (s, c)) (hd : d = u ++ c.rest) : IsItem u := by
  obtain ⟨len, hskip, -⟩ := item_ok h
  obtain ⟨v, hv, hlen, hr⟩ := (skipValue_resumes 16).stepwise.ok hskip
  obtain rfl : v = u := List.append_cancel_right (hv.symm.trans hd)
  refine ⟨s, fun r => ?_⟩
  have hst : len = v.length := hlen.trans (Nat.zero_add _)
  rw [hr r, hst]

theorem rangeEntry_yields : Scan.Yields rangeEntry fun p => p.1 < wordSize ∧ IsItem p.2 := by
  refine (requireCanonical_yields (P := fun v => v < wordSize) u64_yields _ _).bind fun id hid => ?_
  rintro ⟨st, d⟩ p c h
  obtain ⟨⟨s, value⟩, c₁, h₁, h₂⟩ := Scan.bind_ok h
  cases h₂
  have hwalks : Walks (mapFieldErr "value" (Series.item 1 (skipValue 16)) : Ser Error Bool) :=
    mapFieldErr_resumable _ (item_walks Nat.one_pos (skipValue_resumes 16) (skipValue_starts 16))
  obtain ⟨hitem, hd⟩ := (Scan.consumed_ok hwalks.stepwise).mp h₁
  exact ⟨hid, skipped_isItem (Scan.mapErr_ok.mp hitem) hd⟩

theorem definiteArray_yields {α : Type} {body : Ser Error α} {P : α → Prop}
    (hb : Scan.Yields body P) (s : Bool) (tags : List Nat) :
    Scan.Yields (definiteArray body s tags) P := by
  refine .of_bind fun definite => ?_
  split
  · exact .throw _
  · exact hb

theorem rangesOk_empty : RangesOk ∅ := by
  intro k v h
  rw [Std.ExtTreeMap.getElem?_empty] at h
  cases h

theorem rangesArray_yields : Scan.Yields rangesArray RangesOk := by
  refine parseArray_yields fun s t => definiteArray_yields (fun c m c' h => ?_) s t
  refine Scan.loop_invariant rangeRound_progress (P := fun m _ => RangesOk m)
    (Q := fun m _ => RangesOk m) ?_ ?_ (Nat.lt_succ_self _) rangesOk_empty h
  · intro m m' c c' hm hround
    obtain ⟨p, c₁, hitem, hp⟩ := Scan.bind_ok (unlessEnd_inl hround)
    cases hp
    have hentry := item_yields (parseArray_yields (definiteArray_yields rangeEntry_yields)) _ _ _
      hitem
    intro k v hv
    rw [HashMap.getElem?_insert] at hv
    split at hv
    · next hk =>
        cases hv
        rw [hk]
        exact hentry
    · exact hm k v hv
  · intro m m' c c' hm hround
    have hyields : Scan.Yields (rangeRound m) fun r => ∀ m', r = .inr m' → m' = m := by
      refine unlessEnd_yields (.pure ?_) (.of_bind fun p => .pure ?_)
      · rintro m' ⟨⟩
        rfl
      · rintro m' ⟨⟩
    rw [hyields _ _ _ hround m' rfl]
    exact hm

theorem parseRanges_yields (D : Nat) :
    Scan.Yields (parseRanges D) fun o => ∀ m, o = some m → RangesOk m := by
  refine unlessEnd_yields (.pure nofun) ((item_yields rangesArray_yields).bind fun m hm => .pure ?_)
  rintro m' ⟨⟩
  exact hm

structure AbstractSyntaxBlock.Ok (asb : AbstractSyntaxBlock) : Prop where
  context : ∃ code, code < wordSize ∧ asb.context = .ofCode code
  source : asb.source.WellFormed
  node : isNodeless asb.source = false
  parameters : RangesOk asb.parameters
  target_lt : ∀ t, t ∈ asb.results → t < wordSize
  results : ∀ (t : Nat) (m : HashMap Bytes), asb.results[t]? = some m → RangesOk m
  nonempty : ∃ t, t ∈ asb.results

namespace AbstractSyntaxBlock

theorem targetRound_yields {targets : List Nat} (h : ∀ t ∈ targets, t < wordSize) :
    Scan.Yields (targetRound targets) fun r =>
      ∀ l, r = .inl l ∨ r = .inr l → ∀ t ∈ l, t < wordSize := by
  have hitem : Scan.Yields (Series.tryItem 1 (lift (untagged u64) : Dec Error (Nat × Bool)))
      fun o => ∀ p, o = some p → p.1 < wordSize :=
    tryItem_yields (.mapErr _ (untagged_yields u64_yields))
  refine hitem.bind fun o ho => ?_
  cases o with
  | none =>
    refine .pure ?_
    rintro l (⟨⟨⟩⟩ | ⟨⟨⟩⟩)
    exact h
  | some p =>
    refine .of_bind fun _ => .of_bind fun _ => .pure ?_
    rintro l (⟨⟨⟩⟩ | ⟨⟨⟩⟩)
    intro t ht
    rcases List.mem_append.mp ht with ht | ht
    · exact h t ht
    · rw [List.mem_singleton.mp ht]
      exact ho p rfl

theorem targets_yields : Scan.Yields (Scan.loop (.invalidCBOR .tooBig) targetRound [])
    fun l => ∀ t ∈ l, t < wordSize := by
  intro c l c' h
  exact Scan.loop_invariant targetRound_progress (P := fun l _ => ∀ t ∈ l, t < wordSize)
    (Q := fun l _ => ∀ t ∈ l, t < wordSize)
    (fun hl hround => targetRound_yields hl _ _ _ hround _ (.inl rfl))
    (fun hl hround => targetRound_yields hl _ _ _ hround _ (.inr rfl)) (Nat.lt_succ_self _)
    (fun _ ht => absurd ht List.not_mem_nil) h

def ResultsOk (m : HashMap (HashMap Bytes)) : Prop :=
  ∀ (t : Nat) (r : HashMap Bytes), m[t]? = some r → t < wordSize ∧ RangesOk r

theorem resultRound_yields {targets : List Nat} (ht : ∀ t ∈ targets, t < wordSize)
    {acc : Nat × HashMap (HashMap Bytes)} (h : ResultsOk acc.2) :
    Scan.Yields (resultRound targets acc) fun r =>
      (∀ acc', r = .inl acc' → ResultsOk acc'.2) ∧ ∀ m, r = .inr m → ResultsOk m := by
  refine (Scan.Yields.mapErr _ (parseRanges_yields 1)).bind fun o ho => ?_
  cases o with
  | none =>
    refine .pure ⟨nofun, ?_⟩
    rintro m ⟨⟩
    exact h
  | some results =>
    cases hget : targets[acc.1]? with
    | none => exact .throw _
    | some target =>
      refine .pure ⟨?_, nofun⟩
      rintro acc' ⟨⟩ t r hr
      dsimp only at hr
      rw [HashMap.getElem?_insert] at hr
      split at hr
      · next heq =>
          cases hr
          rw [heq]
          exact ⟨ht target (List.mem_of_getElem? hget), ho results rfl⟩
      · exact h t r hr

theorem results_yields {targets : List Nat} (ht : ∀ t ∈ targets, t < wordSize) :
    Scan.Yields (Scan.loop (.invalidCBOR .tooBig) (resultRound targets) (0, ∅)) ResultsOk := by
  intro c m c' h
  refine Scan.loop_invariant (resultRound_progress targets) (P := fun acc _ => ResultsOk acc.2)
    (Q := fun m _ => ResultsOk m)
    (fun hacc hround => (resultRound_yields ht hacc _ _ _ hround).1 _ rfl)
    (fun hacc hround => (resultRound_yields ht hacc _ _ _ hround).2 _ rfl) (Nat.lt_succ_self _) ?_ h
  intro t r hr
  rw [Std.ExtTreeMap.getElem?_empty] at hr
  cases hr

variable [Crates]

theorem fields_yields : Scan.Yields fields fun p => p.1.Ok := by
  have htargets : Scan.Yields (mapFieldErr "security targets" (Series.item 0 (parseArray
      (definiteArray (Scan.loop (.invalidCBOR .tooBig) targetRound [])))) : Ser Error (List Nat))
      fun l => ∀ t ∈ l, t < wordSize :=
    .mapErr _ (item_yields (parseArray_yields (definiteArray_yields targets_yields)))
  have hcontext : Scan.Yields Context.fromCbor fun p =>
      ∃ code, code < wordSize ∧ p.1 = .ofCode code :=
    newtype_yields (P := fun c => ∃ code, code < wordSize ∧ c = Context.ofCode code)
      (fun v hv => ⟨v, hv, rfl⟩) _
  refine htargets.bind fun targets ht => ?_
  refine (ensure_yields _ _).bind fun _ hne => ?_
  refine (requireCanonical_yields (P := fun c => ∃ code, code < wordSize ∧ c = .ofCode code)
    hcontext _ _).bind fun context hc => ?_
  refine .of_bind fun flags => ?_
  refine (requireCanonical_yields (P := Eid.WellFormed) Eid.fromCbor_yields _ _).bind
    fun source hs => ?_
  refine (ensure_yields _ _).bind fun _ hnode => ?_
  have hlast : ∀ parameters, RangesOk parameters → Scan.Yields (do
      let results ← Series.item 0 (parseArray (definiteArray (Scan.loop (.invalidCBOR .tooBig)
        (resultRound targets) (0, ∅))))
      ensure (targets.length == results.size) .mismatchedTargetResult
      pure ((⟨context, source, parameters, results⟩ : AbstractSyntaxBlock), true) :
        Ser Error (AbstractSyntaxBlock × Bool)) fun p => p.1.Ok := by
    intro parameters hp
    refine (item_yields (parseArray_yields (definiteArray_yields (results_yields ht)))).bind
      fun results hr => ?_
    refine (ensure_yields _ _).bind fun _ hsize => .pure ?_
    refine ⟨hc, hs, by simpa using hnode, hp, ?_, fun t m hm => (hr t m hm).2, ?_⟩
    · intro t hmem
      obtain ⟨m, hm⟩ := HashMap.mem_iff.mp hmem
      exact (hr t m hm).1
    · -- as many results as targets, and there is a target
      have hpos : results.isEmpty = false := by
        rw [Std.ExtTreeMap.isEmpty_eq_size_beq_zero, ← beq_iff_eq.mp hsize]
        cases targets with
        | nil => cases hne
        | cons t l => rfl
      exact HashMap.isEmpty_eq_false.mp hpos
  dsimp only
  split
  · exact hlast ∅ rangesOk_empty
  · refine (Scan.Yields.mapErr _ (parseRanges_yields 0)).bind fun o ho => ?_
    refine hlast _ ?_
    cases o with
    | none => exact rangesOk_empty
    | some m => exact ho m rfl

end AbstractSyntaxBlock

/-! ## Unpacking -/

theorem decodeNewtype_ok {α : Type} {f : Nat → α} {data : Bytes} {a : α}
    (h : decodeNewtype f data = .ok a) : ∃ v, v < wordSize ∧ a = f v := by
  unfold decodeNewtype runDec at h
  cases hm : newtype f Error.notCanonical ⟨0, data⟩ with
  | error x =>
    rw [hm] at h
    cases h
  | ok r =>
    rw [hm] at h
    cases h
    exact newtype_yields (P := fun a => ∃ v, v < wordSize ∧ a = f v) (fun v hv => ⟨v, hv, rfl⟩)
      _ _ _ _ hm

theorem ScopeFlags.ofWord_canonical {v : Nat} (hv : v < wordSize) : (ofWord v).Canonical :=
  restOk_unrecognisedOf hv

theorem ShaVariant.ofCode_canonical {v : Nat} (hv : v < wordSize) : (ofCode v).Canonical := by
  have hcode : (ofCode v).code = v := by
    unfold ofCode
    split <;> rfl
  exact ⟨by rw [hcode], by rw [hcode]; exact hv⟩

theorem AesVariant.ofCode_canonical {v : Nat} (hv : v < wordSize) : (ofCode v).Canonical := by
  have hcode : (ofCode v).code = v := by
    unfold ofCode
    split <;> rfl
  exact ⟨by rw [hcode], by rw [hcode]; exact hv⟩

theorem HmacSha2.seeParameter_canonical {acc acc' : HmacSha2.Parameters} {e : Nat × Bytes}
    (h : HmacSha2.seeParameter acc e = .ok acc') (hacc : acc.Canonical) : acc'.Canonical := by
  unfold HmacSha2.seeParameter at h
  split at h
  · obtain ⟨v, hv, h⟩ := Fold.bind_ok.mp h
    cases h
    obtain ⟨code, hcode, rfl⟩ := decodeNewtype_ok hv
    exact ⟨ShaVariant.ofCode_canonical hcode, hacc.flags⟩
  · obtain ⟨b, -, h⟩ := Fold.bind_ok.mp h
    cases h
    exact ⟨hacc.variant, hacc.flags⟩
  · obtain ⟨f, hf, h⟩ := Fold.bind_ok.mp h
    cases h
    obtain ⟨w, hw, rfl⟩ := decodeNewtype_ok hf
    exact ⟨hacc.variant, ScopeFlags.ofWord_canonical hw⟩
  · cases h

structure AesGcm.Seen.Canonical (s : AesGcm.Seen) : Prop where
  variant : ∀ v, s.variant = some v → v.Canonical
  flags : ∀ f, s.flags = some f → f.Canonical

theorem AesGcm.seeParameter_canonical {acc acc' : AesGcm.Seen} {e : Nat × Bytes}
    (h : AesGcm.seeParameter acc e = .ok acc') (hacc : acc.Canonical) : acc'.Canonical := by
  unfold AesGcm.seeParameter at h
  split at h
  · obtain ⟨b, -, h⟩ := Fold.bind_ok.mp h
    cases h
    exact ⟨hacc.variant, hacc.flags⟩
  · obtain ⟨v, hv, h⟩ := Fold.bind_ok.mp h
    cases h
    obtain ⟨code, hcode, rfl⟩ := decodeNewtype_ok hv
    refine ⟨?_, hacc.flags⟩
    rintro _ ⟨⟩
    exact AesVariant.ofCode_canonical hcode
  · obtain ⟨b, -, h⟩ := Fold.bind_ok.mp h
    cases h
    exact ⟨hacc.variant, hacc.flags⟩
  · obtain ⟨f, hf, h⟩ := Fold.bind_ok.mp h
    cases h
    obtain ⟨w, hw, rfl⟩ := decodeNewtype_ok hf
    refine ⟨hacc.variant, ?_⟩
    rintro _ ⟨⟩
    exact ScopeFlags.ofWord_canonical hw
  · cases h

theorem ScopeFlags.default_canonical : ({} : ScopeFlags).Canonical := nofun

variable [HashOrder]

theorem HmacSha2.Parameters.fromCbor_canonical {m : HashMap Bytes} {p : HmacSha2.Parameters}
    (h : HmacSha2.Parameters.fromCbor m = .ok p) : p.Canonical := by
  refine Fold.foldlM_invariant (fun _ hacc hstep => seeParameter_canonical hstep hacc) ?_ h
  exact ⟨⟨rfl, (by decide : 6 < wordSize)⟩, ScopeFlags.default_canonical⟩

theorem AesGcm.Parameters.fromCbor_canonical {m : HashMap Bytes} {p : AesGcm.Parameters}
    (h : AesGcm.Parameters.fromCbor m = .ok p) : p.Canonical := by
  obtain ⟨seen, hseen, h⟩ := Fold.bind_ok.mp h
  have hnone : ({} : AesGcm.Seen).Canonical := by
    refine ⟨fun v h => ?_, fun f h => ?_⟩
    · cases h
    · cases h
  have hcanonical : seen.Canonical :=
    Fold.foldlM_invariant (fun _ hacc hstep => seeParameter_canonical hstep hacc) hnone hseen
  unfold AesGcm.Seen.parameters at h
  split at h
  · cases h
  · obtain ⟨iv, -, h⟩ := Fold.bind_ok.mp h
    cases h
    refine ⟨?_, ?_⟩
    · cases hv : seen.variant with
      | none => exact ⟨rfl, (by decide : 3 < wordSize)⟩
      | some v => exact hcanonical.variant v hv
    · cases hf : seen.flags with
      | none => exact ScopeFlags.default_canonical
      | some f => exact hcanonical.flags f hf

variable {asb : AbstractSyntaxBlock}

theorem intoOperations_yields {P R Op : Type}
    {paramsField resultsField : String} {parseParams : HashMap Bytes → Except Error P}
    {parseResults : HashMap Bytes → Except Error R} {make : P → R → Op} {operations : HashMap Op}
    (h : asb.intoOperations paramsField resultsField parseParams parseResults make =
      .ok operations) :
    ∃ p, parseParams asb.parameters = .ok p ∧
      (∀ (t : Nat) (op : Op), operations[t]? = some op → ∃ m r, asb.results[t]? = some m ∧
        parseResults m = .ok r ∧ op = make p r) ∧
      ∀ t, t ∈ operations ↔ t ∈ asb.results := by
  obtain ⟨p, hp, hall, hnone⟩ := intoOperations_ok.mp h
  have hmem : ∀ (t : Nat) (op : Op), operations[t]? = some op → ∃ m r, asb.results[t]? = some m ∧
      parseResults m = .ok r ∧ op = make p r := by
    intro t op hop
    cases hm : asb.results[t]? with
    | none =>
      rw [hnone t hm] at hop
      cases hop
    | some m =>
      obtain ⟨r, hr, hop'⟩ := hall t m hm
      exact ⟨m, r, rfl, hr, Option.some.inj (hop.symm.trans hop')⟩
  refine ⟨p, hp, hmem, fun t => ?_⟩
  rw [HashMap.mem_iff, HashMap.mem_iff]
  constructor
  · rintro ⟨op, hop⟩
    obtain ⟨m, -, hm, -⟩ := hmem t op hop
    exact ⟨m, hm⟩
  · rintro ⟨m, hm⟩
    obtain ⟨r, -, hop⟩ := hall t m hm
    exact ⟨_, hop⟩

omit [HashOrder] in
theorem Context.ofCode_unrecognised {code id : Nat} (hcode : code < wordSize)
    (h : Context.ofCode code = .unrecognised id) :
    Context.ofCode id = .unrecognised id ∧ id < wordSize := by
  have hid : id = code := by
    unfold Context.ofCode at h
    split at h
    · cases h
    · cases h
    · exact (Context.unrecognised.inj h).symm
  rw [hid] at h ⊢
  exact ⟨h, hcode⟩

variable [Crates]

theorem intoOperations_emittable {P R Op : Type} {form : Form Op}
    {paramsField resultsField : String} {parseParams : HashMap Bytes → Except Error P}
    {parseResults : HashMap Bytes → Except Error R} {make : P → R → Op} {operations : HashMap Op}
    (h : asb.Ok) (hu : asb.intoOperations paramsField resultsField parseParams parseResults make =
      .ok operations)
    (hok : ∀ (p : P) (t : Nat) (m : HashMap Bytes) (r : R), parseParams asb.parameters = .ok p →
      asb.results[t]? = some m → parseResults m = .ok r → form.Ok (make p r))
    (hshared : ∀ p r r', form.SameContext (make p r) (make p r')) :
    (⟨asb.source, operations⟩ : OperationSet Op).Emittable form ∧ ∃ t, t ∈ operations := by
  obtain ⟨p, hp, hmem, hkeys⟩ := intoOperations_yields hu
  obtain ⟨t₀, ht₀⟩ := h.nonempty
  refine ⟨⟨h.source, h.node, fun t ht => h.target_lt t ((hkeys t).mp ht), ?_, ?_⟩, t₀,
    (hkeys t₀).mpr ht₀⟩
  · intro t op hop
    obtain ⟨m, r, hm, hr, rfl⟩ := hmem t op hop
    exact hok p t m r hp hm hr
  · intro t t' op op' hop hop'
    obtain ⟨m, r, -, -, rfl⟩ := hmem t op hop
    obtain ⟨m', r', -, -, rfl⟩ := hmem t' op' hop'
    exact hshared p r r'

theorem BibSet.unpack_emittable (h : asb.Ok)
    {operations : HashMap BibOperation} (hu : BibSet.unpack asb = .ok operations) :
    (⟨asb.source, operations⟩ : BibSet).Emittable BibSet.form ∧ ∃ t, t ∈ operations := by
  unfold BibSet.unpack at hu
  split at hu
  · refine intoOperations_emittable h hu (fun p t m r hp hm hr => ?_) fun p r r' => rfl
    exact HmacSha2.Parameters.fromCbor_canonical hp
  · next id hcontext =>
      obtain ⟨code, hcode, hofCode⟩ := h.context
      have hid := Context.ofCode_unrecognised hcode (hofCode.symm.trans hcontext)
      refine intoOperations_emittable h hu (fun p t m r hp hm hr => ?_) fun p r r' => ⟨rfl, rfl⟩
      cases hp
      cases hr
      exact ⟨hid, h.parameters, h.results t _ hm⟩
  · cases hu

theorem BcbSet.unpack_emittable (h : asb.Ok)
    {operations : HashMap BcbOperation} (hu : BcbSet.unpack asb = .ok operations) :
    (⟨asb.source, operations⟩ : BcbSet).Emittable BcbSet.form ∧ ∃ t, t ∈ operations := by
  unfold BcbSet.unpack at hu
  split at hu
  · refine intoOperations_emittable h hu (fun p t m r hp hm hr => ?_) fun p r r' => rfl
    exact AesGcm.Parameters.fromCbor_canonical hp
  · next id hcontext =>
      obtain ⟨code, hcode, hofCode⟩ := h.context
      have hid := Context.ofCode_unrecognised hcode (hofCode.symm.trans hcontext)
      refine intoOperations_emittable h hu (fun p t m r hp hm hr => ?_) fun p r r' => ⟨rfl, rfl⟩
      cases hp
      cases hr
      exact ⟨hid, h.parameters, h.results t _ hm⟩
  · cases hu

omit [HashOrder] in
theorem fromCbor_emittable {Op : Type} (form : Form Op)
    (hunpack : ∀ {asb : AbstractSyntaxBlock}, asb.Ok → ∀ {operations : HashMap Op},
      form.unpack asb = .ok operations →
      (⟨asb.source, operations⟩ : OperationSet Op).Emittable form ∧ ∃ t, t ∈ operations) :
    Scan.Yields (OperationSet.fromCbor form.unpack) fun p =>
      p.1.Emittable form ∧ ∃ t, t ∈ p.1.operations := by
  have hasb : Scan.Yields AbstractSyntaxBlock.fromCbor fun p => p.1.Ok := by
    unfold AbstractSyntaxBlock.fromCbor parseSequence
    refine .within (AbstractSyntaxBlock.fields_yields.bind fun p hp => ?_)
    exact unlessEnd_yields (.pure hp) (.throw _)
  refine hasb.bind fun ⟨asb, s⟩ hp => ?_
  intro c r c' h
  obtain ⟨operations, c₁, hv, hr⟩ := Scan.bind_ok h
  cases hr
  exact hunpack hp (verdict_ok.mp hv).1

end Hardy.Bpsec
