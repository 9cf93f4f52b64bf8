import Hardy.Order
import Hardy.Bpsec.OperationSet

/-!
# Decoding does not depend on hash order

The decoder of an operation set walks hash maps.  A set that decodes does so
in every order, to the same operations.
-/

namespace Hardy.Bpsec

open Cbor

variable (o o' : HashOrder)

theorem mapEntries_order {β γ : Type} {f f' : β → Except Error γ} {m : HashMap β} {r : HashMap γ}
    (hf : ∀ b c, f b = .ok c → f' b = .ok c) (h : @mapEntries o _ _ f m = .ok r) :
    @mapEntries o' _ _ f' m = .ok r := by
  refine foldlM_iter (fun {s a b s₁ s₂} hne h₁ h₂ => ?_) o o'
    (Fold.foldlM_mono (fun {s a s'} hs => ?_) h)
  · obtain ⟨v, hv, h₁⟩ := Fold.bind_ok.mp h₁
    obtain ⟨v', hv', h₂⟩ := Fold.bind_ok.mp h₂
    cases h₁
    cases h₂
    refine ⟨s.insert b.1 v', Fold.bind_ok.mpr ⟨v', hv', rfl⟩, Fold.bind_ok.mpr ⟨v, hv, ?_⟩⟩
    rw [HashMap.insert_comm hne]
    rfl
  · obtain ⟨v, hv, hs⟩ := Fold.bind_ok.mp hs
    exact Fold.bind_ok.mpr ⟨v, hf _ _ hv, hs⟩

variable {asb : AbstractSyntaxBlock}

theorem intoOperations_order {P R Op : Type}
    {paramsField resultsField : String} {params params' : HashMap Bytes → Except Error P}
    {results results' : HashMap Bytes → Except Error R} {make : P → R → Op} {r : HashMap Op}
    (hp : ∀ m p, params m = .ok p → params' m = .ok p)
    (hr : ∀ m p, results m = .ok p → results' m = .ok p)
    (h : @AbstractSyntaxBlock.intoOperations o _ _ _ asb paramsField resultsField params results
      make = .ok r) :
    @AbstractSyntaxBlock.intoOperations o' _ _ _ asb paramsField resultsField params' results'
      make = .ok r := by
  obtain ⟨p, hparams, h⟩ := Fold.bind_ok.mp h
  refine Fold.bind_ok.mpr ⟨p, Fold.mapError_ok.mpr (hp _ _ (Fold.mapError_ok.mp hparams)), ?_⟩
  refine mapEntries_order o o' (fun b c hc => ?_) h
  obtain ⟨q, hq, hc⟩ := Fold.bind_ok.mp hc
  exact Fold.bind_ok.mpr ⟨q, Fold.mapError_ok.mpr (hr _ _ (Fold.mapError_ok.mp hq)), hc⟩

/-! ## Parameters and results -/

def AesGcm.update (e : Nat × Bytes) : Except Error (AesGcm.Seen → AesGcm.Seen) :=
  match e.1 with
  | 1 => (decodeBox e.2).map fun b s => { s with iv := some b }
  | 2 => (decodeNewtype AesVariant.ofCode e.2).map fun v s => { s with variant := some v }
  | 3 => (decodeBox e.2).map fun b s => { s with key := some b }
  | 4 => (decodeNewtype ScopeFlags.ofWord e.2).map fun f s => { s with flags := some f }
  | id => .error (.invalidContextParameter id)

theorem AesGcm.seeParameter_eq (acc : AesGcm.Seen) (e : Nat × Bytes) :
    AesGcm.seeParameter acc e = (AesGcm.update e).map fun u => u acc := by
  obtain ⟨id, data⟩ := e
  match id with
  | 0 => rfl
  | 1 => simp only [AesGcm.seeParameter, AesGcm.update]; cases decodeBox data <;> rfl
  | 2 =>
    simp only [AesGcm.seeParameter, AesGcm.update]
    cases decodeNewtype AesVariant.ofCode data <;> rfl
  | 3 => simp only [AesGcm.seeParameter, AesGcm.update]; cases decodeBox data <;> rfl
  | 4 =>
    simp only [AesGcm.seeParameter, AesGcm.update]
    cases decodeNewtype ScopeFlags.ofWord data <;> rfl
  | _ + 5 => rfl

theorem AesGcm.update_ok {e : Nat × Bytes} {u : AesGcm.Seen → AesGcm.Seen}
    (h : AesGcm.update e = .ok u) :
    (e.1 = 1 ∧ ∃ b, u = fun s => { s with iv := b }) ∨
      (e.1 = 2 ∧ ∃ v, u = fun s => { s with variant := v }) ∨
      (e.1 = 3 ∧ ∃ b, u = fun s => { s with key := b }) ∨
      (e.1 = 4 ∧ ∃ f, u = fun s => { s with flags := f }) := by
  unfold AesGcm.update at h
  split at h
  · next he =>
      obtain ⟨b, -, rfl⟩ := Fold.map_ok.mp h
      exact .inl ⟨he, _, rfl⟩
  · next he =>
      obtain ⟨v, -, rfl⟩ := Fold.map_ok.mp h
      exact .inr (.inl ⟨he, _, rfl⟩)
  · next he =>
      obtain ⟨b, -, rfl⟩ := Fold.map_ok.mp h
      exact .inr (.inr (.inl ⟨he, _, rfl⟩))
  · next he =>
      obtain ⟨f, -, rfl⟩ := Fold.map_ok.mp h
      exact .inr (.inr (.inr ⟨he, _, rfl⟩))
  · cases h

variable {a b : Nat × Bytes}

theorem AesGcm.update_comm (hne : a.1 ≠ b.1) {u v : AesGcm.Seen → AesGcm.Seen}
    (hu : AesGcm.update a = .ok u) (hv : AesGcm.update b = .ok v) (s : AesGcm.Seen) :
    v (u s) = u (v s) := by
  rcases AesGcm.update_ok hu with ⟨ha, _, rfl⟩ | ⟨ha, _, rfl⟩ | ⟨ha, _, rfl⟩ | ⟨ha, _, rfl⟩ <;>
    rcases AesGcm.update_ok hv with ⟨hb, _, rfl⟩ | ⟨hb, _, rfl⟩ | ⟨hb, _, rfl⟩ | ⟨hb, _, rfl⟩ <;>
    first
      | rfl
      | exact absurd (ha.trans hb.symm) hne

theorem AesGcm.seeParameter_swap {s s₁ s₂ : AesGcm.Seen} (hne : a.1 ≠ b.1)
    (ha : AesGcm.seeParameter s a = .ok s₁) (hb : AesGcm.seeParameter s₁ b = .ok s₂) :
    ∃ s₁', AesGcm.seeParameter s b = .ok s₁' ∧ AesGcm.seeParameter s₁' a = .ok s₂ :=
  Fold.swap_of_updates AesGcm.seeParameter_eq (fun _ _ => AesGcm.update_comm hne) ha hb

variable {m : HashMap Bytes}

theorem AesGcm.Parameters.fromCbor_order {p : AesGcm.Parameters}
    (h : @AesGcm.Parameters.fromCbor o m = .ok p) : @AesGcm.Parameters.fromCbor o' m = .ok p := by
  obtain ⟨seen, hseen, h⟩ := Fold.bind_ok.mp h
  exact Fold.bind_ok.mpr ⟨seen, foldlM_iter AesGcm.seeParameter_swap o o' hseen, h⟩

theorem AesGcm.seeResult_one {s s' : Option Bytes} {e : Nat × Bytes}
    (h : AesGcm.seeResult s e = .ok s') : e.1 = 1 := by
  unfold AesGcm.seeResult at h
  split at h
  · assumption
  · cases h

theorem AesGcm.seeResult_swap {s s₁ s₂ : Option Bytes} (hne : a.1 ≠ b.1)
    (ha : AesGcm.seeResult s a = .ok s₁) (hb : AesGcm.seeResult s₁ b = .ok s₂) :
    ∃ s₁', AesGcm.seeResult s b = .ok s₁' ∧ AesGcm.seeResult s₁' a = .ok s₂ :=
  absurd ((AesGcm.seeResult_one ha).trans (AesGcm.seeResult_one hb).symm) hne

theorem AesGcm.seeResults_order {r : Option Bytes}
    (h : (o.iter m).foldlM AesGcm.seeResult none = .ok r) :
    (o'.iter m).foldlM AesGcm.seeResult none = .ok r :=
  foldlM_iter AesGcm.seeResult_swap o o' h

/-- What one HMAC-SHA2 parameter does to those seen so far. -/
def HmacSha2.update (e : Nat × Bytes) :
    Except Error (HmacSha2.Parameters → HmacSha2.Parameters) :=
  match e.1 with
  | 1 => (decodeNewtype ShaVariant.ofCode e.2).map fun v s => { s with variant := v }
  | 2 => (decodeBox e.2).map fun b s => { s with key := some b }
  | 3 => (decodeNewtype ScopeFlags.ofWord e.2).map fun f s => { s with flags := f }
  | id => .error (.invalidContextParameter id)

theorem HmacSha2.seeParameter_eq (acc : HmacSha2.Parameters) (e : Nat × Bytes) :
    HmacSha2.seeParameter acc e = (HmacSha2.update e).map fun u => u acc := by
  obtain ⟨id, data⟩ := e
  match id with
  | 0 => rfl
  | 1 =>
    simp only [HmacSha2.seeParameter, HmacSha2.update]
    cases decodeNewtype ShaVariant.ofCode data <;> rfl
  | 2 => simp only [HmacSha2.seeParameter, HmacSha2.update]; cases decodeBox data <;> rfl
  | 3 =>
    simp only [HmacSha2.seeParameter, HmacSha2.update]
    cases decodeNewtype ScopeFlags.ofWord data <;> rfl
  | _ + 4 => rfl

theorem HmacSha2.update_ok {e : Nat × Bytes} {u : HmacSha2.Parameters → HmacSha2.Parameters}
    (h : HmacSha2.update e = .ok u) :
    (e.1 = 1 ∧ ∃ v, u = fun s => { s with variant := v }) ∨
      (e.1 = 2 ∧ ∃ b, u = fun s => { s with key := b }) ∨
      (e.1 = 3 ∧ ∃ f, u = fun s => { s with flags := f }) := by
  unfold HmacSha2.update at h
  split at h
  · next he =>
      obtain ⟨v, -, rfl⟩ := Fold.map_ok.mp h
      exact .inl ⟨he, _, rfl⟩
  · next he =>
      obtain ⟨b, -, rfl⟩ := Fold.map_ok.mp h
      exact .inr (.inl ⟨he, _, rfl⟩)
  · next he =>
      obtain ⟨f, -, rfl⟩ := Fold.map_ok.mp h
      exact .inr (.inr ⟨he, _, rfl⟩)
  · cases h

theorem HmacSha2.update_comm (hne : a.1 ≠ b.1)
    {u v : HmacSha2.Parameters → HmacSha2.Parameters} (hu : HmacSha2.update a = .ok u)
    (hv : HmacSha2.update b = .ok v) (s : HmacSha2.Parameters) : v (u s) = u (v s) := by
  rcases HmacSha2.update_ok hu with ⟨ha, _, rfl⟩ | ⟨ha, _, rfl⟩ | ⟨ha, _, rfl⟩ <;>
    rcases HmacSha2.update_ok hv with ⟨hb, _, rfl⟩ | ⟨hb, _, rfl⟩ | ⟨hb, _, rfl⟩ <;>
    first
      | rfl
      | exact absurd (ha.trans hb.symm) hne

theorem HmacSha2.seeParameter_swap {s s₁ s₂ : HmacSha2.Parameters}
    (hne : a.1 ≠ b.1) (ha : HmacSha2.seeParameter s a = .ok s₁)
    (hb : HmacSha2.seeParameter s₁ b = .ok s₂) :
    ∃ s₁', HmacSha2.seeParameter s b = .ok s₁' ∧ HmacSha2.seeParameter s₁' a = .ok s₂ :=
  Fold.swap_of_updates HmacSha2.seeParameter_eq (fun _ _ => HmacSha2.update_comm hne) ha hb

theorem HmacSha2.Parameters.fromCbor_order {p : HmacSha2.Parameters}
    (h : @HmacSha2.Parameters.fromCbor o m = .ok p) : @HmacSha2.Parameters.fromCbor o' m = .ok p :=
  foldlM_iter HmacSha2.seeParameter_swap o o' h

theorem HmacSha2.Results.fromCbor_order {r : Bytes}
    (h : @HmacSha2.Results.fromCbor o m = .ok r) : @HmacSha2.Results.fromCbor o' m = .ok r := by
  obtain ⟨tag, htag, h⟩ := Fold.bind_ok.mp h
  exact Fold.bind_ok.mpr ⟨tag, AesGcm.seeResults_order o o' htag, h⟩

/-! ## Operation sets -/

theorem UnknownOperation.parse_order {Op : Type} {wrap : UnknownOperation → Op} {r : HashMap Op}
    (h : @UnknownOperation.parse o _ wrap asb = .ok r) :
    @UnknownOperation.parse o' _ wrap asb = .ok r :=
  intoOperations_order o o' (fun _ _ h => h) (fun _ _ h => h) h

theorem BibSet.unpack_order {r : HashMap BibOperation}
    (h : @BibSet.unpack o asb = .ok r) : @BibSet.unpack o' asb = .ok r := by
  unfold BibSet.unpack at h ⊢
  split at h
  · exact intoOperations_order o o' (fun _ _ => HmacSha2.Parameters.fromCbor_order o o')
      (fun _ _ => HmacSha2.Results.fromCbor_order o o') h
  · exact UnknownOperation.parse_order o o' h
  · cases h

theorem BcbSet.unpack_order {r : HashMap BcbOperation}
    (h : @BcbSet.unpack o asb = .ok r) : @BcbSet.unpack o' asb = .ok r := by
  unfold BcbSet.unpack at h ⊢
  split at h
  · exact intoOperations_order o o' (fun _ _ => AesGcm.Parameters.fromCbor_order o o')
      (fun _ _ => AesGcm.seeResults_order o o') h
  · exact UnknownOperation.parse_order o o' h
  · cases h

variable [Crates]

omit [Crates] in
theorem parseField_mono {ε α : Type} [FromCborError ε] [ErrorInto ε Hardy.Error]
    {m m' : Dec ε (α × Bool)} (hm : ∀ c r, m c = .ok r → m' c = .ok r) {field : String}
    {c : Cursor UInt8 Nat} {r : α × Cursor UInt8 Nat} (h : parseField m field c = .ok r) :
    parseField m' field c = .ok r := by
  obtain ⟨a, c'⟩ := r
  obtain ⟨st, d⟩ := c
  obtain ⟨v, c₁, hw, hr⟩ := Scan.bind_ok h
  obtain ⟨n, hn, hst⟩ := Scan.within_ok.mp hw
  refine Scan.bind_ok_iff.mpr ⟨v, c₁, Scan.within_ok.mpr ⟨n, ?_, hst⟩, hr⟩
  refine Scan.mapErr_ok.mpr ?_
  have hn' := Scan.mapErr_ok.mp hn
  cases d with
  | nil => exact hm _ _ hn'
  | cons b d =>
    rw [untagged, Scan.onNext_cons] at hn' ⊢
    split at hn'
    · cases hn'
    · next hb =>
        rw [if_neg hb]
        exact hm _ _ hn'

theorem decodeBody_mono {Op : Type} {unpack unpack' : AbstractSyntaxBlock → Except Error (HashMap Op)}
    (hu : ∀ asb r, unpack asb = .ok r → unpack' asb = .ok r) {field : String} {body : Bytes}
    {ops : OperationSet Op} (h : decodeBody unpack field body = .ok ops) :
    decodeBody unpack' field body = .ok ops := by
  unfold decodeBody at h ⊢
  cases hp : parseField (OperationSet.fromCbor unpack) field ⟨0, body⟩ with
  | error x => rw [hp] at h; cases h
  | ok r =>
    rw [hp] at h
    rw [parseField_mono (fun c r hr => ?_) hp]
    · exact h
    · -- the order plays a part only after the block has been read
      obtain ⟨⟨asb, s⟩, c₁, hasb, hr⟩ := Scan.bind_ok hr
      obtain ⟨operations, c₂, hv, hr⟩ := Scan.bind_ok hr
      refine Scan.bind_ok_iff.mpr ⟨_, c₁, hasb, Scan.bind_ok_iff.mpr ⟨operations, c₂, ?_, hr⟩⟩
      obtain ⟨hops, hc⟩ := verdict_ok.mp hv
      exact verdict_ok.mpr ⟨hu _ _ hops, hc⟩

theorem BcbSet.decode_order {body : Bytes} {ops : BcbSet} (h : @BcbSet.decode _ o body = .ok ops) :
    @BcbSet.decode _ o' body = .ok ops :=
  decodeBody_mono (fun _ _ => BcbSet.unpack_order o o') h

theorem BibSet.decode_order {body : Bytes} {ops : BibSet} (h : @BibSet.decode _ o body = .ok ops) :
    @BibSet.decode _ o' body = .ok ops :=
  decodeBody_mono (fun _ _ => BibSet.unpack_order o o') h

end Hardy.Bpsec
