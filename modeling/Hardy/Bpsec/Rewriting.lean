import Hardy.Bpsec.Emission

/-!
# Rewriting an operation set

The operations of one security block share their context, and so do those
that are left when a target is taken out.  Such a set is decoded from what is
written for it.
-/

namespace Hardy.Bpsec

open Cbor

/-! ## Values -/

theorem isItem_emitUint {v : Nat} (hv : v < wordSize) : IsItem (emitUint v) := by
  refine ⟨true, fun r => ?_⟩
  rw [skipValue, skipItem, emitUint, Scan.bind_eq_of_ok (head_emit (Nat.zero_le 5) hv 0 r)]
  simp only [Marker.ofMajor, Nat.zero_add]
  rfl

theorem isItem_emitBytes {b : Bytes} (hb : (emitBytes b).length < wordSize) :
    IsItem (emitBytes b) := by
  refine ⟨true, fun r => ?_⟩
  rw [emitBytes, List.length_append] at hb ⊢
  have hhead := head_emit (show 2 ≤ 5 by decide) (show b.length < wordSize by omega) 0 (b ++ r)
  rw [Nat.zero_add] at hhead
  rw [skipValue, skipItem, List.append_assoc, Scan.bind_eq_of_ok hhead]
  simp only [Marker.ofMajor]
  rw [Scan.bind_eq_of_ok (extent_reads hb r)]
  rfl

theorem decodeNewtype_emitUint {α : Type} (f : Nat → α) {v : Nat} (hv : v < wordSize) :
    decodeNewtype f (emitUint v) = .ok (f v) := by
  have h := newtype_reads (f := f) hv Error.notCanonical []
  rw [List.append_nil] at h
  rw [decodeNewtype, runDec, h]

theorem decodeBox_emitBytes {b : Bytes} (hb : (emitBytes b).length < wordSize) :
    decodeBox (emitBytes b) = .ok b := by
  have h := parseValue_reads_bytes (f := boxOf) (a := b) hb rfl []
  rw [List.append_nil] at h
  rw [decodeBox, runDec, h]

/-! ## Parameters -/

theorem pairsOk_append {l l' : List (Nat × Bytes)} (hl : PairsOk l) (hl' : PairsOk l')
    (hne : ∀ a ∈ l, ∀ b ∈ l', a.1 ≠ b.1) : PairsOk (l ++ l') := by
  refine ⟨List.pairwise_append.mpr ⟨hl.keys, hl'.keys, hne⟩, fun e he => ?_, fun e he => ?_⟩
  · rcases List.mem_append.mp he with he | he
    · exact hl.id_lt e he
    · exact hl'.id_lt e he
  · rcases List.mem_append.mp he with he | he
    · exact hl.item e he
    · exact hl'.item e he

theorem pairsOk_nil : PairsOk [] := ⟨.nil, nofun, nofun⟩

variable {k : Nat}

theorem pairsOk_singleton {v : Bytes} (hk : k < wordSize) (hv : IsItem v) : PairsOk [(k, v)] := by
  refine ⟨List.pairwise_singleton _ _, fun e he => ?_, fun e he => ?_⟩
  · rw [List.mem_singleton.mp he]
    exact hk
  · rw [List.mem_singleton.mp he]
    exact hv

/-- The pair of a parameter that is written only when it differs from the
default. -/
def pairUnless (isDefault : Bool) (k : Nat) (v : Bytes) : List (Nat × Bytes) :=
  if isDefault then [] else [(k, v)]

def pairOf (k : Nat) (v : Option Bytes) : List (Nat × Bytes) :=
  match v with
  | none => []
  | some b => [(k, emitBytes b)]

theorem mem_pairUnless {isDefault : Bool} {v : Bytes} {e : Nat × Bytes}
    (h : e ∈ pairUnless isDefault k v) : e.1 = k := by
  unfold pairUnless at h
  split at h
  · cases h
  · exact congrArg Prod.fst (List.mem_singleton.mp h)

theorem mem_pairOf {v : Option Bytes} {e : Nat × Bytes} (h : e ∈ pairOf k v) : e.1 = k := by
  cases v with
  | none => cases h
  | some b => exact congrArg Prod.fst (List.mem_singleton.mp h)

theorem pairUnless_ok {isDefault : Bool} {v : Bytes} (hk : k < wordSize)
    (hv : IsItem v) : PairsOk (pairUnless isDefault k v) := by
  unfold pairUnless
  split
  · exact pairsOk_nil
  · exact pairsOk_singleton hk hv

theorem pairOf_ok {v : Option Bytes} (hk : k < wordSize)
    (hv : ∀ b, v = some b → (emitBytes b).length < wordSize) : PairsOk (pairOf k v) := by
  cases v with
  | none => exact pairsOk_nil
  | some b => exact pairsOk_singleton hk (isItem_emitBytes (hv b rfl))

theorem length_le_emitPairs {l : List (Nat × Bytes)} {e : Nat × Bytes} (he : e ∈ l) :
    e.2.length ≤ (emitPairs l).length := by
  have hpair : e.2.length ≤ (emitArray [emitUint e.1, e.2]).length :=
    length_le_emitArray (List.mem_cons_of_mem _ List.mem_cons_self)
  exact hpair.trans (length_le_emitArray (List.mem_map.mpr ⟨e, he, rfl⟩))

def Short (l : List (Nat × Bytes)) : Prop := (emitPairs l).length < wordSize

theorem short_nil : Short [] := (by decide : 1 < wordSize)

theorem Short.value {l : List (Nat × Bytes)} (h : Short l) {e : Nat × Bytes} (he : e ∈ l) :
    e.2.length < wordSize :=
  (length_le_emitPairs he).trans_lt h

/-- A variant code that the decoder gives its own name to is not kept as a
number. -/
def ShaVariant.Canonical (v : ShaVariant) : Prop := ofCode v.code = v ∧ v.code < wordSize

def AesVariant.Canonical (v : AesVariant) : Prop := ofCode v.code = v ∧ v.code < wordSize

structure HmacSha2.Parameters.Canonical (p : HmacSha2.Parameters) : Prop where
  variant : p.variant.Canonical
  flags : p.flags.Canonical

structure AesGcm.Parameters.Canonical (p : AesGcm.Parameters) : Prop where
  variant : p.variant.Canonical
  flags : p.flags.Canonical

def HmacSha2.Parameters.pairs (p : HmacSha2.Parameters) : List (Nat × Bytes) :=
  pairUnless (decide (p.variant = .hmac384)) 1 (emitUint p.variant.code) ++ pairOf 2 p.key ++
    pairUnless (decide (p.flags = {})) 3 p.flags.toCbor

def AesGcm.Parameters.pairs (p : AesGcm.Parameters) : List (Nat × Bytes) :=
  pairOf 1 (some p.iv.val) ++
    pairUnless (decide (p.variant = .a256gcm)) 2 (emitUint p.variant.code) ++ pairOf 3 p.key ++
    pairUnless (decide (p.flags = {})) 4 p.flags.toCbor

theorem map_pairUnless (isDefault : Bool) (k : Nat) (v : Bytes) :
    ((pairUnless isDefault k v).map fun e => emitArray [emitUint e.1, e.2]) =
      if isDefault then [] else [emitArray [emitUint k, v]] := by
  cases isDefault <;> rfl

theorem map_pairOf (k : Nat) (v : Option Bytes) :
    ((pairOf k v).map fun e => emitArray [emitUint e.1, e.2]) =
      match v with
      | none => []
      | some b => [emitArray [emitUint k, emitBytes b]] := by
  cases v <;> rfl

theorem HmacSha2.Parameters.toCbor_eq (p : HmacSha2.Parameters) : p.toCbor = emitPairs p.pairs := by
  cases h : p.key <;>
    simp only [toCbor, emitPairs, pairs, List.map_append, map_pairUnless, map_pairOf,
      decide_eq_true_eq, h]

theorem AesGcm.Parameters.toCbor_eq (p : AesGcm.Parameters) : p.toCbor = emitPairs p.pairs := by
  cases h : p.key <;>
    simp only [toCbor, emitPairs, pairs, List.map_append, map_pairUnless, map_pairOf,
      decide_eq_true_eq, h]

theorem HmacSha2.Parameters.pairs_eq_nil {p : HmacSha2.Parameters} : p.pairs = [] ↔ p = {} := by
  obtain ⟨variant, key, flags⟩ := p
  constructor
  · intro h
    simp only [pairs, List.append_eq_nil_iff, pairUnless, pairOf] at h
    obtain ⟨⟨hv, hk⟩, hf⟩ := h
    have hv' : variant = .hmac384 := by
      by_contra hne
      simp [hne] at hv
    have hf' : flags = {} := by
      by_contra hne
      simp [hne] at hf
    cases key with
    | some b => cases hk
    | none => rw [hv', hf']
  · intro h
    rw [h]
    rfl

theorem HmacSha2.Parameters.pairs_ok {p : HmacSha2.Parameters} (hp : p.Canonical)
    (hlen : Short p.pairs) : PairsOk p.pairs := by
  have hkey : ∀ b, p.key = some b → (emitBytes b).length < wordSize := by
    intro b hb
    have hmem : (2, emitBytes b) ∈ p.pairs := by
      simp [pairs, hb, pairOf]
    exact hlen.value hmem
  refine pairsOk_append (pairsOk_append (pairUnless_ok (by decide)
    (isItem_emitUint hp.variant.2)) (pairOf_ok (by decide) hkey) ?_)
    (pairUnless_ok (by decide) (isItem_emitUint (ScopeFlags.word_lt hp.flags))) ?_
  · intro a ha b hb
    rw [mem_pairUnless ha, mem_pairOf hb]
    decide
  · intro a ha b hb
    rw [mem_pairUnless hb]
    rcases List.mem_append.mp ha with ha | ha
    · rw [mem_pairUnless ha]
      decide
    · rw [mem_pairOf ha]
      decide

theorem AesGcm.Parameters.pairs_ok {p : AesGcm.Parameters} (hp : p.Canonical)
    (hlen : Short p.pairs) : PairsOk p.pairs := by
  have hkey : ∀ b, p.key = some b → (emitBytes b).length < wordSize := by
    intro b hb
    have hmem : (3, emitBytes b) ∈ p.pairs := by
      simp [pairs, hb, pairOf]
    exact hlen.value hmem
  have hiv : ∀ b, some p.iv.val = some b → (emitBytes b).length < wordSize := by
    rintro b ⟨⟩
    have hmem : (1, emitBytes p.iv.val) ∈ p.pairs := by
      simp [pairs, pairOf]
    exact hlen.value hmem
  refine pairsOk_append (pairsOk_append (pairsOk_append
    (pairOf_ok (by decide) hiv) (pairUnless_ok (by decide)
    (isItem_emitUint hp.variant.2)) ?_) (pairOf_ok (by decide) hkey) ?_)
    (pairUnless_ok (by decide) (isItem_emitUint (ScopeFlags.word_lt hp.flags))) ?_
  · intro a ha b hb
    rw [mem_pairOf ha, mem_pairUnless hb]
    decide
  · intro a ha b hb
    rw [mem_pairOf hb]
    rcases List.mem_append.mp ha with ha | ha
    · rw [mem_pairOf ha]
      decide
    · rw [mem_pairUnless ha]
      decide
  · intro a ha b hb
    rw [mem_pairUnless hb]
    rcases List.mem_append.mp ha with ha | ha
    · rcases List.mem_append.mp ha with ha | ha
      · rw [mem_pairOf ha]
        decide
      · rw [mem_pairUnless ha]
        decide
    · rw [mem_pairOf ha]
      decide

theorem foldlM_pairUnless {ε σ : Type} {step : σ → Nat × Bytes → Except ε σ} {isDefault : Bool}
    {v : Bytes} {s s' : σ} (hd : isDefault = true → s = s')
    (hs : isDefault = false → step s (k, v) = .ok s') :
    (pairUnless isDefault k v).foldlM step s = .ok s' := by
  cases isDefault with
  | true => exact congrArg Except.ok (hd rfl)
  | false => exact Fold.foldlM_cons_ok.mpr ⟨s', hs rfl, rfl⟩

theorem foldlM_pairOf {ε σ : Type} {step : σ → Nat × Bytes → Except ε σ}
    {v : Option Bytes} {s s' : σ} (hd : v = none → s = s')
    (hs : ∀ b, v = some b → step s (k, emitBytes b) = .ok s') :
    (pairOf k v).foldlM step s = .ok s' := by
  cases v with
  | none => exact congrArg Except.ok (hd rfl)
  | some b => exact Fold.foldlM_cons_ok.mpr ⟨s', hs b rfl, rfl⟩

theorem foldlM_append_ok {ε σ α : Type} {step : σ → α → Except ε σ} {l l' : List α}
    {s m s' : σ} (h : l.foldlM step s = .ok m) (h' : l'.foldlM step m = .ok s') :
    (l ++ l').foldlM step s = .ok s' := by
  rw [List.foldlM_append, h]
  exact h'

variable [HashOrder]

theorem HmacSha2.Parameters.fromCbor_pairs {p : HmacSha2.Parameters} (hp : p.Canonical)
    (hlen : Short p.pairs) :
    HmacSha2.Parameters.fromCbor (HashMap.ofPairs p.pairs) = .ok p := by
  have hok := pairs_ok hp hlen
  have hkey : ∀ b, p.key = some b → (emitBytes b).length < wordSize := by
    intro b hb
    have hmem : (2, emitBytes b) ∈ p.pairs := by
      simp [pairs, hb, pairOf]
    exact hlen.value hmem
  refine foldlM_ofPairs (fun hne h₁ h₂ => Fold.swap_of_updates HmacSha2.seeParameter_eq
    (fun u v => HmacSha2.update_comm hne) h₁ h₂) hok.keys ?_
  refine foldlM_append_ok (m := ⟨p.variant, p.key, {}⟩) (foldlM_append_ok
    (m := ⟨p.variant, none, {}⟩) (foldlM_pairUnless ?_ ?_) (foldlM_pairOf ?_ ?_))
    (foldlM_pairUnless ?_ ?_)
  · intro h
    rw [of_decide_eq_true h]
  · intro h
    have := decodeNewtype_emitUint ShaVariant.ofCode hp.variant.2
    simp only [HmacSha2.seeParameter, this, hp.variant.1]
    rfl
  · intro h
    rw [h]
  · intro b hb
    simp only [HmacSha2.seeParameter, decodeBox_emitBytes (hkey b hb), hb]
    rfl
  · intro h
    rw [← of_decide_eq_true h]
  · intro h
    have := decodeNewtype_emitUint ScopeFlags.ofWord (ScopeFlags.word_lt hp.flags)
    simp only [HmacSha2.seeParameter, ScopeFlags.toCbor, this, ScopeFlags.ofWord_word hp.flags]
    rfl

theorem AesGcm.Parameters.fromCbor_pairs {p : AesGcm.Parameters} (hp : p.Canonical)
    (hlen : Short p.pairs) :
    AesGcm.Parameters.fromCbor (HashMap.ofPairs p.pairs) = .ok p := by
  have hok := pairs_ok hp hlen
  have hkey : ∀ b, p.key = some b → (emitBytes b).length < wordSize := by
    intro b hb
    have hmem : (3, emitBytes b) ∈ p.pairs := by
      simp [pairs, hb, pairOf]
    exact hlen.value hmem
  have hiv : (emitBytes p.iv.val).length < wordSize := by
    have hmem : (1, emitBytes p.iv.val) ∈ p.pairs := by
      simp [pairs, pairOf]
    exact hlen.value hmem
  -- what has been seen after each pair; a default leaves no trace
  have hseen : p.pairs.foldlM AesGcm.seeParameter {} = .ok ⟨some p.iv.val,
      if p.variant = .a256gcm then none else some p.variant, p.key,
      if p.flags = {} then none else some p.flags⟩ := by
    refine foldlM_append_ok (m := ⟨some p.iv.val,
      if p.variant = .a256gcm then none else some p.variant, p.key, none⟩) (foldlM_append_ok
      (m := ⟨some p.iv.val, if p.variant = .a256gcm then none else some p.variant, none, none⟩)
      (foldlM_append_ok (m := ⟨some p.iv.val, none, none, none⟩) (foldlM_pairOf nofun ?_)
        (foldlM_pairUnless ?_ ?_)) (foldlM_pairOf ?_ ?_)) (foldlM_pairUnless ?_ ?_)
    · rintro b ⟨⟩
      simp only [AesGcm.seeParameter, decodeBox_emitBytes hiv]
      rfl
    · intro h
      rw [if_pos (of_decide_eq_true h)]
    · intro h
      have := decodeNewtype_emitUint AesVariant.ofCode hp.variant.2
      rw [if_neg (of_decide_eq_false h)]
      simp only [AesGcm.seeParameter, this, hp.variant.1]
      rfl
    · intro h
      rw [h]
    · intro b hb
      simp only [AesGcm.seeParameter, decodeBox_emitBytes (hkey b hb), hb]
      rfl
    · intro h
      rw [if_pos (of_decide_eq_true h)]
    · intro h
      have := decodeNewtype_emitUint ScopeFlags.ofWord (ScopeFlags.word_lt hp.flags)
      rw [if_neg (of_decide_eq_false h)]
      simp only [AesGcm.seeParameter, ScopeFlags.toCbor, this, ScopeFlags.ofWord_word hp.flags]
      rfl
  refine Fold.bind_ok.mpr ⟨_, foldlM_ofPairs (fun hne h₁ h₂ => Fold.swap_of_updates
    AesGcm.seeParameter_eq (fun u v => AesGcm.update_comm hne) h₁ h₂) hok.keys hseen, ?_⟩
  have hfrom : Iv.fromBytes p.iv.val = .ok p.iv := dif_pos p.iv.property
  refine Fold.bind_ok.mpr ⟨p.iv, hfrom, congrArg Except.ok ?_⟩
  obtain ⟨iv, variant, key, flags⟩ := p
  dsimp only
  congr 1
  · split
    · next h => exact h.symm
    · rfl
  · split
    · next h => exact h.symm
    · rfl

/-! ## Results -/

theorem seeResults_pairs {tag : Option Bytes}
    (hlen : Short (pairOf 1 tag)) :
    (HashOrder.iter (HashMap.ofPairs (pairOf 1 tag))).foldlM AesGcm.seeResult none = .ok tag := by
  have hbytes : ∀ b, tag = some b → (emitBytes b).length < wordSize := by
    intro b hb
    have hmem : (1, emitBytes b) ∈ pairOf 1 tag := by
      simp [hb, pairOf]
    exact hlen.value hmem
  refine foldlM_ofPairs (fun hne h₁ h₂ => ?_) (pairOf_ok (by decide) hbytes).keys
    (foldlM_pairOf (fun h => h.symm) fun b hb => ?_)
  · exact absurd ((AesGcm.seeResult_one h₁).trans (AesGcm.seeResult_one h₂).symm) hne
  · simp only [AesGcm.seeResult, decodeBox_emitBytes (hbytes b hb), hb]
    rfl

omit [HashOrder] in
theorem AesGcm.Results.toCbor_eq (r : AesGcm.Results) : AesGcm.Results.toCbor r =
    emitPairs (pairOf 1 r) := by
  cases r <;> rfl

/-! ## Operations -/

def RangesOk (m : HashMap Bytes) : Prop :=
  ∀ (k : Nat) (v : Bytes), m[k]? = some v → k < wordSize ∧ IsItem v

theorem RangesOk.pairs {m : HashMap Bytes} (h : RangesOk m) : PairsOk (HashOrder.iter m) :=
  ⟨HashOrder.iter_pairwise m, fun e he => (h e.1 e.2 (HashOrder.mem_iter.mp he)).1,
    fun e he => (h e.1 e.2 (HashOrder.mem_iter.mp he)).2⟩

/-- The operations of a context this node does not know can be written. -/
structure UnknownOperation.Ok (id : Nat) (o : UnknownOperation) : Prop where
  id : Context.ofCode id = .unrecognised id ∧ id < wordSize
  parameters : RangesOk o.parameters
  results : RangesOk o.results

namespace BibOperation

def code : BibOperation → Nat
  | hmacSha2 _ => Context.bibHmacSha2.code
  | unrecognised id _ => id

def parameterPairs : BibOperation → List (Nat × Bytes)
  | hmacSha2 o => o.parameters.pairs
  | unrecognised _ o => HashOrder.iter o.parameters

def resultPairs : BibOperation → List (Nat × Bytes)
  | hmacSha2 o => pairOf 1 (some o.results)
  | unrecognised _ o => HashOrder.iter o.results

def Ok : BibOperation → Prop
  | hmacSha2 o => o.parameters.Canonical
  | unrecognised id o => o.Ok id

def SameContext : BibOperation → BibOperation → Prop
  | hmacSha2 o, hmacSha2 o' => o.parameters = o'.parameters
  | unrecognised id o, unrecognised id' o' => id = id' ∧ o.parameters = o'.parameters
  | _, _ => False

end BibOperation

namespace BcbOperation

def code : BcbOperation → Nat
  | aesGcm _ => Context.bcbAesGcm.code
  | unrecognised id _ => id

def parameterPairs : BcbOperation → List (Nat × Bytes)
  | aesGcm o => o.parameters.pairs
  | unrecognised _ o => HashOrder.iter o.parameters

def resultPairs : BcbOperation → List (Nat × Bytes)
  | aesGcm o => pairOf 1 o.results
  | unrecognised _ o => HashOrder.iter o.results

def Ok : BcbOperation → Prop
  | aesGcm o => o.parameters.Canonical
  | unrecognised id o => o.Ok id

def SameContext : BcbOperation → BcbOperation → Prop
  | aesGcm o, aesGcm o' => o.parameters = o'.parameters
  | unrecognised id o, unrecognised id' o' => id = id' ∧ o.parameters = o'.parameters
  | _, _ => False

end BcbOperation

def OperationSet.entries {Op : Type} (results : Op → List (Nat × Bytes)) (ops : OperationSet Op) :
    Entries :=
  (HashOrder.iter ops.operations).map fun e => (e.1, results e.2)

theorem OperationSet.getElem?_entries {Op : Type} (results : Op → List (Nat × Bytes))
    (ops : OperationSet Op) (t : Nat) :
    (ops.entries results).results[t]? =
      ops.operations[t]?.map fun op => HashMap.ofPairs (results op) := by
  have hkeys : ((ops.entries results).map fun e => (e.1, HashMap.ofPairs e.2)).Pairwise
      fun a b => a.1 ≠ b.1 := by
    rw [entries, List.map_map, List.pairwise_map]
    exact HashOrder.iter_pairwise ops.operations
  refine Option.ext fun m => ?_
  rw [Entries.results, HashMap.getElem?_ofPairs hkeys, entries, List.map_map, List.mem_map,
    Option.map_eq_some_iff]
  constructor
  · rintro ⟨e, he, hm⟩
    obtain ⟨rfl, rfl⟩ := Prod.mk.inj hm
    exact ⟨e.2, HashOrder.mem_iter.mp he, rfl⟩
  · rintro ⟨op, hop, rfl⟩
    exact ⟨(t, op), HashOrder.mem_iter.mpr hop, rfl⟩

theorem OperationSet.entries_ok {Op : Type} {results : Op → List (Nat × Bytes)}
    {ops : OperationSet Op} (ht : ∀ t, t ∈ ops.operations → t < wordSize)
    (hr : ∀ (t : Nat) (op : Op), ops.operations[t]? = some op → PairsOk (results op)) :
    (ops.entries results).Ok := by
  refine ⟨?_, ?_, ?_⟩
  · rw [entries, List.map_map]
    exact List.pairwise_map.mpr (HashOrder.iter_pairwise ops.operations)
  · intro e he
    obtain ⟨x, hx, rfl⟩ := List.mem_map.mp he
    exact ht x.1 (HashMap.mem_iff.mpr ⟨x.2, HashOrder.mem_iter.mp hx⟩)
  · intro e he
    obtain ⟨x, hx, rfl⟩ := List.mem_map.mp he
    exact hr x.1 x.2 (HashOrder.mem_iter.mp hx)

variable [Crates]

section

omit [HashOrder]

theorem fromCbor_emitAsb {Op : Type} {unpack : AbstractSyntaxBlock → Except Error (HashMap Op)}
    {l : Entries} {code : Nat} {source : Eid} {parameters : List (Nat × Bytes)}
    (hl : l.Ok) (hne : l ≠ []) (hcode : code < wordSize) (hsource : source.WellFormed)
    (hnode : AbstractSyntaxBlock.isNodeless source = false) (hp : PairsOk parameters)
    (hlen : (emitAsb l code source parameters).length < wordSize) {operations : HashMap Op}
    (hunpack : unpack ⟨.ofCode code, source, HashMap.ofPairs parameters, l.results⟩ =
      .ok operations) :
    OperationSet.fromCbor unpack ⟨0, emitAsb l code source parameters⟩ =
      .ok ((⟨source, operations⟩, true), ⟨(emitAsb l code source parameters).length, []⟩) := by
  rw [OperationSet.fromCbor, Scan.bind_eq_of_ok (asb_reads hl hne hcode hsource hnode hp hlen)]
  exact Scan.bind_eq_of_ok (verdict_ok.mpr ⟨hunpack, rfl⟩) _

theorem emitAsb_plain (l : Entries) (code : Nat) (source : Eid) (parameters : List (Nat × Bytes)) :
    Plain (emitAsb l code source parameters) := by
  rw [emitAsb, List.append_assoc, emitArray, List.append_assoc]
  exact emitUintMinor_plain (by decide) _ _

theorem length_results_le {l : Entries} {e : Nat × List (Nat × Bytes)} (he : e ∈ l) (code : Nat)
    (source : Eid) (parameters : List (Nat × Bytes)) :
    (emitPairs e.2).length ≤ (emitAsb l code source parameters).length := by
  have := length_le_emitArray (List.mem_map.mpr ⟨e, he, rfl⟩ :
    emitPairs e.2 ∈ l.map fun e => emitPairs e.2)
  rw [emitAsb, List.length_append]
  omega

theorem length_parameters_le (l : Entries) (code : Nat) (source : Eid)
    {parameters : List (Nat × Bytes)} (hne : parameters ≠ []) :
    (emitPairs parameters).length ≤ (emitAsb l code source parameters).length := by
  simp only [emitAsb, emitContext, if_neg hne, List.length_append]
  omega

end

omit [HashOrder] [Crates] in
theorem pairOf_one_ok {v : Option Bytes} (hlen : Short (pairOf 1 v)) :
    PairsOk (pairOf 1 v) := by
  refine pairOf_ok (by decide) fun b hb => ?_
  have hmem : (1, emitBytes b) ∈ pairOf 1 v := by
    simp [hb, pairOf]
  exact hlen.value hmem

theorem UnknownOperation.emitContext_eq (o : UnknownOperation) (source : Eid) (id : Nat) :
    o.emitContext source id = Bpsec.emitContext id source (HashOrder.iter o.parameters) := by
  have hempty : o.parameters.isEmpty = true ↔ HashOrder.iter o.parameters = [] := by
    rw [← List.length_eq_zero_iff, (HashOrder.iter_perm o.parameters).length_eq,
      Std.ExtTreeMap.length_toList, Std.ExtTreeMap.isEmpty_eq_size_beq_zero, beq_iff_eq]
  unfold emitContext Bpsec.emitContext
  by_cases h : o.parameters.isEmpty = true
  · rw [if_pos h, if_pos (hempty.mp h)]
  · rw [if_neg h, if_neg fun h' => h (hempty.mpr h')]
    rfl

theorem BibOperation.emitContext_eq (o : BibOperation) (source : Eid) :
    o.emitContext source = Bpsec.emitContext o.code source o.parameterPairs := by
  cases o with
  | hmacSha2 o =>
    unfold BibOperation.emitContext HmacSha2.Operation.emitContext Bpsec.emitContext
    simp only [code, parameterPairs, HmacSha2.Parameters.pairs_eq_nil,
      HmacSha2.Parameters.toCbor_eq]
  | unrecognised id o => exact o.emitContext_eq source id

theorem BcbOperation.emitContext_eq (o : BcbOperation) (source : Eid) :
    o.emitContext source = Bpsec.emitContext o.code source o.parameterPairs := by
  cases o with
  | aesGcm o =>
    have hne : o.parameters.pairs ≠ [] := by
      simp [AesGcm.Parameters.pairs, pairOf]
    unfold BcbOperation.emitContext AesGcm.Operation.emitContext Bpsec.emitContext
    simp only [code, parameterPairs, AesGcm.Parameters.toCbor_eq]
    exact (if_neg hne).symm
  | unrecognised id o => exact o.emitContext_eq source id

omit [Crates] in
theorem BibOperation.emitResult_eq (o : BibOperation) : o.emitResult = emitPairs o.resultPairs := by
  cases o <;> rfl

omit [Crates] in
theorem BcbOperation.emitResult_eq (o : BcbOperation) : o.emitResult = emitPairs o.resultPairs := by
  cases o with
  | aesGcm o => exact AesGcm.Results.toCbor_eq o.results
  | unrecognised id o => rfl

omit [HashOrder] [Crates] in
theorem BibOperation.Ok.code_lt {o : BibOperation} (h : o.Ok) : o.code < wordSize := by
  cases o with
  | hmacSha2 o => exact (by decide : 1 < wordSize)
  | unrecognised id o => exact h.id.2

omit [HashOrder] [Crates] in
theorem BcbOperation.Ok.code_lt {o : BcbOperation} (h : o.Ok) : o.code < wordSize := by
  cases o with
  | aesGcm o => exact (by decide : 2 < wordSize)
  | unrecognised id o => exact h.id.2

omit [Crates] in
theorem BibOperation.Ok.parameters {o : BibOperation} (h : o.Ok) (hlen : Short o.parameterPairs) :
    PairsOk o.parameterPairs := by
  cases o with
  | hmacSha2 o => exact HmacSha2.Parameters.pairs_ok h hlen
  | unrecognised id o => exact UnknownOperation.Ok.parameters h |>.pairs

omit [Crates] in
theorem BcbOperation.Ok.parameters {o : BcbOperation} (h : o.Ok) (hlen : Short o.parameterPairs) :
    PairsOk o.parameterPairs := by
  cases o with
  | aesGcm o => exact AesGcm.Parameters.pairs_ok h hlen
  | unrecognised id o => exact UnknownOperation.Ok.parameters h |>.pairs

omit [Crates] in
theorem BibOperation.Ok.results {o : BibOperation} (h : o.Ok) (hlen : Short o.resultPairs) :
    PairsOk o.resultPairs := by
  cases o with
  | hmacSha2 o => exact pairOf_one_ok (v := some o.results) hlen
  | unrecognised id o => exact UnknownOperation.Ok.results h |>.pairs

omit [Crates] in
theorem BcbOperation.Ok.results {o : BcbOperation} (h : o.Ok) (hlen : Short o.resultPairs) :
    PairsOk o.resultPairs := by
  cases o with
  | aesGcm o => exact pairOf_one_ok hlen
  | unrecognised id o => exact UnknownOperation.Ok.results h |>.pairs

section

omit [Crates]

theorem intoOperations_ok {P R Op : Type} {asb : AbstractSyntaxBlock} {paramsField resultsField : String}
    {parseParams : HashMap Bytes → Except Error P} {parseResults : HashMap Bytes → Except Error R}
    {make : P → R → Op} {operations : HashMap Op} :
    asb.intoOperations paramsField resultsField parseParams parseResults make = .ok operations ↔
      ∃ p, parseParams asb.parameters = .ok p ∧
        (∀ (t : Nat) (m : HashMap Bytes), asb.results[t]? = some m →
          ∃ r, parseResults m = .ok r ∧ operations[t]? = some (make p r)) ∧
        ∀ t : Nat, asb.results[t]? = none → operations[t]? = none := by
  rw [AbstractSyntaxBlock.intoOperations, Fold.bind_ok]
  simp only [Fold.mapError_ok, mapEntries_ok, Fold.bind_ok]
  constructor
  · rintro ⟨p, hp, hall, hnone⟩
    refine ⟨p, hp, fun t m hm => ?_, hnone⟩
    obtain ⟨w, ⟨r, hr, hw⟩, ht⟩ := hall t m hm
    cases hw
    exact ⟨r, hr, ht⟩
  · rintro ⟨p, hp, hall, hnone⟩
    refine ⟨p, hp, fun t m hm => ?_, hnone⟩
    obtain ⟨r, hr, ht⟩ := hall t m hm
    exact ⟨_, ⟨r, hr, rfl⟩, ht⟩

theorem intoOperations_pairs {P R Op : Type} {context : Context} {source : Eid}
    {params : HashMap Bytes} {m : HashMap (HashMap Bytes)} {paramsField resultsField : String}
    {parseParams : HashMap Bytes → Except Error P} {parseResults : HashMap Bytes → Except Error R}
    {make : P → R → Op} {operations : HashMap Op} {pairs : Op → List (Nat × Bytes)} {p : P}
    (hm : ∀ t : Nat, m[t]? = operations[t]?.map fun op => HashMap.ofPairs (pairs op))
    (hp : parseParams params = .ok p)
    (hops : ∀ (t : Nat) (op : Op), operations[t]? = some op →
      ∃ r, parseResults (.ofPairs (pairs op)) = .ok r ∧ op = make p r) :
    (⟨context, source, params, m⟩ : AbstractSyntaxBlock).intoOperations paramsField resultsField
      parseParams parseResults make = .ok operations := by
  refine intoOperations_ok.mpr ⟨p, hp, fun t results ht => ?_, fun t ht => ?_⟩
  · rw [hm, Option.map_eq_some_iff] at ht
    obtain ⟨op, hop, rfl⟩ := ht
    obtain ⟨r, hr, heq⟩ := hops t op hop
    exact ⟨r, hr, hop.trans (congrArg some heq)⟩
  · rwa [hm, Option.map_eq_none_iff] at ht

theorem BibSet.unpack_ok (op₀ : BibOperation) (source : Eid) (m : HashMap (HashMap Bytes))
    (operations : HashMap BibOperation) (hok : op₀.Ok) (hparams : Short op₀.parameterPairs)
    (hm : ∀ t : Nat, m[t]? = operations[t]?.map fun op => HashMap.ofPairs op.resultPairs)
    (hall : ∀ (t : Nat) (op : BibOperation), operations[t]? = some op →
      op₀.SameContext op ∧ Short op.resultPairs) :
    BibSet.unpack ⟨.ofCode op₀.code, source, HashMap.ofPairs op₀.parameterPairs, m⟩ =
      .ok operations := by
  cases op₀ with
  | hmacSha2 o =>
    refine intoOperations_pairs hm (HmacSha2.Parameters.fromCbor_pairs hok hparams) fun t op hop => ?_
    obtain ⟨hsame, hshort⟩ := hall t op hop
    cases op with
    | unrecognised id o' => exact hsame.elim
    | hmacSha2 o' =>
      have htag : Short (pairOf 1 (some o'.results)) := hshort
      refine ⟨o'.results, Fold.bind_ok.mpr ⟨some o'.results, seeResults_pairs htag, rfl⟩, ?_⟩
      rw [show o.parameters = o'.parameters from hsame]
  | unrecognised id o =>
    have hcontext : Context.ofCode id = .unrecognised id := hok.id.1
    simp only [BibSet.unpack, BibOperation.code, hcontext]
    refine intoOperations_pairs hm (congrArg Except.ok (HashMap.ofPairs_iter _))
      fun t op hop => ?_
    obtain ⟨hsame, -⟩ := hall t op hop
    cases op with
    | hmacSha2 o' => exact hsame.elim
    | unrecognised id' o' =>
      obtain ⟨rfl, hpar⟩ := hsame
      refine ⟨o'.results, congrArg Except.ok (HashMap.ofPairs_iter _), ?_⟩
      rw [hpar]

theorem BcbSet.unpack_ok (op₀ : BcbOperation) (source : Eid) (m : HashMap (HashMap Bytes))
    (operations : HashMap BcbOperation) (hok : op₀.Ok) (hparams : Short op₀.parameterPairs)
    (hm : ∀ t : Nat, m[t]? = operations[t]?.map fun op => HashMap.ofPairs op.resultPairs)
    (hall : ∀ (t : Nat) (op : BcbOperation), operations[t]? = some op →
      op₀.SameContext op ∧ Short op.resultPairs) :
    BcbSet.unpack ⟨.ofCode op₀.code, source, HashMap.ofPairs op₀.parameterPairs, m⟩ =
      .ok operations := by
  cases op₀ with
  | aesGcm o =>
    refine intoOperations_pairs hm (AesGcm.Parameters.fromCbor_pairs hok hparams) fun t op hop => ?_
    obtain ⟨hsame, hshort⟩ := hall t op hop
    cases op with
    | unrecognised id o' => exact hsame.elim
    | aesGcm o' =>
      refine ⟨o'.results, seeResults_pairs hshort, ?_⟩
      rw [show o.parameters = o'.parameters from hsame]
  | unrecognised id o =>
    have hcontext : Context.ofCode id = .unrecognised id := hok.id.1
    simp only [BcbSet.unpack, BcbOperation.code, hcontext]
    refine intoOperations_pairs hm (congrArg Except.ok (HashMap.ofPairs_iter _))
      fun t op hop => ?_
    obtain ⟨hsame, -⟩ := hall t op hop
    cases op with
    | aesGcm o' => exact hsame.elim
    | unrecognised id' o' =>
      obtain ⟨rfl, hpar⟩ := hsame
      refine ⟨o'.results, congrArg Except.ok (HashMap.ofPairs_iter _), ?_⟩
      rw [hpar]

end

/-! ## The two kinds of operations -/

/-- What the operations of a kind of security block are written as, and that
they are read from it. -/
structure Form (Op : Type) where
  unpack : AbstractSyntaxBlock → Except Error (HashMap Op)
  emitContext : Op → Eid → Bytes
  emitResult : Op → Bytes
  code : Op → Nat
  parameters : Op → List (Nat × Bytes)
  results : Op → List (Nat × Bytes)
  /-- The operation can be written. -/
  Ok : Op → Prop
  /-- The two operations can be in one block. -/
  SameContext : Op → Op → Prop
  emitContext_eq : ∀ op source,
    emitContext op source = Bpsec.emitContext (code op) source (parameters op)
  emitResult_eq : ∀ op, emitResult op = emitPairs (results op)
  code_lt : ∀ op, Ok op → code op < wordSize
  parameters_ok : ∀ op, Ok op → Short (parameters op) → PairsOk (parameters op)
  results_ok : ∀ op, Ok op → Short (results op) → PairsOk (results op)
  unpack_ok : ∀ op₀ source m operations, Ok op₀ → Short (parameters op₀) →
    (∀ t : Nat, m[t]? = operations[t]?.map fun op => HashMap.ofPairs (results op)) →
    (∀ (t : Nat) op, operations[t]? = some op → SameContext op₀ op ∧ Short (results op)) →
    unpack ⟨.ofCode (code op₀), source, HashMap.ofPairs (parameters op₀), m⟩ = .ok operations

def BibSet.form : Form BibOperation where
  unpack := BibSet.unpack
  emitContext := BibOperation.emitContext
  emitResult := BibOperation.emitResult
  code := BibOperation.code
  parameters := BibOperation.parameterPairs
  results := BibOperation.resultPairs
  Ok := BibOperation.Ok
  SameContext := BibOperation.SameContext
  emitContext_eq := BibOperation.emitContext_eq
  emitResult_eq := BibOperation.emitResult_eq
  code_lt _ := BibOperation.Ok.code_lt
  parameters_ok _ := BibOperation.Ok.parameters
  results_ok _ := BibOperation.Ok.results
  unpack_ok := BibSet.unpack_ok

def BcbSet.form : Form BcbOperation where
  unpack := BcbSet.unpack
  emitContext := BcbOperation.emitContext
  emitResult := BcbOperation.emitResult
  code := BcbOperation.code
  parameters := BcbOperation.parameterPairs
  results := BcbOperation.resultPairs
  Ok := BcbOperation.Ok
  SameContext := BcbOperation.SameContext
  emitContext_eq := BcbOperation.emitContext_eq
  emitResult_eq := BcbOperation.emitResult_eq
  code_lt _ := BcbOperation.Ok.code_lt
  parameters_ok _ := BcbOperation.Ok.parameters
  results_ok _ := BcbOperation.Ok.results
  unpack_ok := BcbSet.unpack_ok

structure OperationSet.Emittable {Op : Type} (form : Form Op) (ops : OperationSet Op) : Prop where
  source : ops.source.WellFormed
  node : AbstractSyntaxBlock.isNodeless ops.source = false
  target_lt : ∀ t, t ∈ ops.operations → t < wordSize
  ok : ∀ (t : Nat) (op : Op), ops.operations[t]? = some op → form.Ok op
  shared : ∀ (t t' : Nat) (op op' : Op), ops.operations[t]? = some op →
    ops.operations[t']? = some op' → form.SameContext op op'

def OperationSet.without {Op : Type} (ops : OperationSet Op) (target : Nat) : OperationSet Op :=
  { ops with operations := ops.operations.erase target }

theorem OperationSet.fromCbor_toCbor {Op : Type} {form : Form Op} {ops : OperationSet Op}
    (h : ops.Emittable form) (hne : ∃ t, t ∈ ops.operations)
    (hlen : (ops.toCbor form.emitContext form.emitResult).length < wordSize) :
    Plain (ops.toCbor form.emitContext form.emitResult) ∧
      OperationSet.fromCbor form.unpack ⟨0, ops.toCbor form.emitContext form.emitResult⟩ =
        .ok ((ops, true), ⟨(ops.toCbor form.emitContext form.emitResult).length, []⟩) := by
  obtain ⟨t₀, ht₀⟩ := hne
  -- the operation that the map hands out first
  obtain ⟨e, rest, hiter⟩ : ∃ e rest, HashOrder.iter ops.operations = e :: rest := by
    obtain ⟨op, hop⟩ := HashMap.mem_iff.mp ht₀
    have hmem : (t₀, op) ∈ HashOrder.iter ops.operations := HashOrder.mem_iter.mpr hop
    cases hiter : HashOrder.iter ops.operations with
    | nil =>
      rw [hiter] at hmem
      cases hmem
    | cons e rest => exact ⟨e, rest, rfl⟩
  have he : ops.operations[e.1]? = some e.2 := by
    refine HashOrder.mem_iter.mp ?_
    rw [hiter]
    exact List.mem_cons_self
  have heq : ops.toCbor form.emitContext form.emitResult =
      emitAsb (ops.entries form.results) (form.code e.2) ops.source (form.parameters e.2) := by
    simp only [toCbor, emitAsb, entries, form.emitContext_eq, form.emitResult_eq, List.map_map,
      hiter]
    rfl
  rw [heq] at hlen ⊢
  have hmem : ∀ (t : Nat) (op : Op), ops.operations[t]? = some op →
      (t, form.results op) ∈ ops.entries form.results := fun t op hop =>
    List.mem_map.mpr ⟨(t, op), HashOrder.mem_iter.mpr hop, rfl⟩
  have hresults : ∀ (t : Nat) (op : Op), ops.operations[t]? = some op → Short (form.results op) :=
    fun t op hop => (length_results_le (hmem t op hop) _ _ _).trans_lt hlen
  have hparams : Short (form.parameters e.2) := by
    by_cases hnil : form.parameters e.2 = []
    · rw [hnil]
      exact short_nil
    · exact (length_parameters_le _ _ _ hnil).trans_lt hlen
  have hok := h.ok e.1 e.2 he
  have hentries : (ops.entries form.results).Ok :=
    OperationSet.entries_ok h.target_lt fun t op hop =>
      form.results_ok op (h.ok t op hop) (hresults t op hop)
  refine ⟨emitAsb_plain _ _ _ _, fromCbor_emitAsb hentries (List.ne_nil_of_mem (hmem _ _ he))
    (form.code_lt _ hok) h.source h.node (form.parameters_ok _ hok hparams) hlen ?_⟩
  exact form.unpack_ok e.2 ops.source _ ops.operations hok hparams
    (OperationSet.getElem?_entries form.results ops)
    fun t op hop => ⟨h.shared e.1 t e.2 op he hop, hresults t op hop⟩

end Hardy.Bpsec
