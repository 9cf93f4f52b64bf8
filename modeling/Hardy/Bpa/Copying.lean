import Mathlib.Data.List.Pairwise
import Hardy.Order
import Hardy.Bpa.Reassembly

/-!
# The application data unit

What the checks of `reassemble` give: the fragments lie side by side from the
start of the unit to its end, so the copies they make can be made in any order
and none of them writes over another.
-/

namespace Hardy.Bpa

theorem AduWalk.mem_iter (walk : AduWalk) {m : HashMap Adu} {e : Nat × Adu} :
    e ∈ walk.iter m ↔ m[e.1]? = some e.2 := by
  rw [(walk.iter_perm m).mem_iff]
  exact Std.ExtTreeMap.mem_toList_iff_getElem?_eq_some

theorem AduWalk.iter_pairwise (walk : AduWalk) (m : HashMap Adu) :
    (walk.iter m).Pairwise fun a b => a.1 ≠ b.1 := by
  refine (walk.iter_perm m).symm.pairwise ?_ fun h => h.symm
  exact @HashOrder.iter_pairwise _ .sorted m

/-! ## Extents -/

instance : Std.Total pairLe where
  total a b := by
    simp only [pairLe]
    omega

instance : IsTrans (Nat × Nat) pairLe where
  trans a b c := by
    simp only [pairLe]
    omega

theorem extents_perm (l : List (Nat × Adu)) : (extents l).Perm (l.map aduExtent) :=
  List.perm_insertionSort _ _

theorem extents_order {l l' : List (Nat × Adu)} (h : l.Perm l') : extents l = extents l' := by
  have hp : (extents l).Perm (extents l') :=
    (extents_perm l).trans ((h.map aduExtent).trans (extents_perm l').symm)
  refine hp.eq_of_pairwise (fun a b _ _ (hab : pairLe a b) hba => ?_)
    (List.pairwise_insertionSort _ _) (List.pairwise_insertionSort _ _)
  simp only [pairLe] at hab hba
  exact Prod.ext (by omega) (by omega)

/-- Extents that lie side by side. -/
structure Adjoining (start total : Nat) (l : List (Nat × Nat)) : Prop where
  sum : total = start + (l.map Prod.snd).sum
  inside : ∀ e ∈ l, start ≤ e.1 ∧ e.1 + e.2 ≤ total
  apart : l.Pairwise fun a b => a.1 + a.2 ≤ b.1

theorem coveredBy_adjoining {start total : Nat} {l : List (Nat × Nat)}
    (h : coveredBy start l = .ok total) (ht : total < wordSize - 1) : Adjoining start total l := by
  induction l generalizing start with
  | nil =>
    cases h
    exact ⟨rfl, nofun, .nil⟩
  | cons e l ih =>
    obtain ⟨offset, len⟩ := e
    rw [coveredBy] at h
    split at h
    · cases h
    · next he =>
        obtain rfl : offset = start := Decidable.not_not.mp he
        obtain ⟨hsum, hin, hap⟩ := ih h
        -- the sum stays below the bound, so nothing was cut off
        have hsat : saturatingAdd offset len = offset + len := by
          simp only [saturatingAdd] at hsum ⊢
          omega
        rw [hsat] at hsum hin
        refine ⟨?_, ?_, List.pairwise_cons.mpr ⟨fun b hb => (hin b hb).1, hap⟩⟩
        · rw [List.map_cons, List.sum_cons, hsum, Nat.add_assoc]
        · intro b hb
          rcases List.mem_cons.mp hb with rfl | hb
          · refine ⟨le_rfl, ?_⟩
            dsimp only
            omega
          · have := hin b hb
            exact ⟨by omega, this.2⟩

theorem Adjoining.disjoint {start total : Nat} {l : List (Nat × Adu)}
    (h : Adjoining start total (extents l)) {a b : Nat × Adu} (ha : a ∈ l) (hb : b ∈ l)
    (hne : a.1 ≠ b.1) :
    a.1 + rangeLen a.2.payload ≤ b.1 ∨ b.1 + rangeLen b.2.payload ≤ a.1 := by
  have hsymm : Std.Symm fun x y : Nat × Nat => x.1 + x.2 ≤ y.1 ∨ y.1 + y.2 ≤ x.1 :=
    ⟨fun _ _ h => h.symm⟩
  have hpair : (extents l).Pairwise fun x y => x.1 + x.2 ≤ y.1 ∨ y.1 + y.2 ≤ x.1 :=
    h.apart.imp .inl
  exact hpair.forall ((extents_perm l).mem_iff.mpr (List.mem_map_of_mem ha))
    ((extents_perm l).mem_iff.mpr (List.mem_map_of_mem hb)) fun he => hne (Prod.mk.inj he).1

/-! ## Copies -/

theorem getRange_eq {data payload : Bytes} {r : Range} (h : getRange data r = some payload) :
    payload = r.slice data ∧ payload.length = rangeLen r := by
  rw [getRange] at h
  split at h
  · next hr =>
      cases h
      refine ⟨rfl, ?_⟩
      simp only [Range.slice, List.length_take, List.length_drop, rangeLen]
      omega
  · cases h

theorem expect_ok {α : Type} {x : Option α} {message : String} {a : α} :
    expect x message = .ok a ↔ x = some a := by
  cases x <;> simp [expect]

theorem orRefuse_ok {α : Type} {x : Option α} {reason : Refusal} {a : α} :
    orRefuse x reason = .ok a ↔ x = some a := by
  cases x <;> simp [orRefuse]

theorem refuseIf_ok {p : Prop} [Decidable p] {reason : Refusal} :
    refuseIf p reason = .ok () ↔ ¬ p := by
  rw [refuseIf]
  split <;> simp_all

theorem copyInto_ok {buffer data b : Bytes} {start : Nat} :
    copyInto buffer start data = .ok b ↔
      start + data.length ≤ buffer.length ∧ b = Chunk.overwrite buffer start data := by
  rw [copyInto]
  split
  · next h => exact ⟨fun he => ⟨h, (Except.ok.inj he).symm⟩, fun he => congrArg _ he.2.symm⟩
  · next h => exact ⟨nofun, fun he => absurd he.1 h⟩

structure Copied (store : Store) (total : Nat) (e : Nat × Adu) (info : FragmentInfo)
    (payload : Bytes) : Prop where
  fragment : e.2.id.fragmentInfo = some info
  sameTotal : info.totalAduLength = total
  fits : ¬ total < saturatingAdd info.offset (rangeLen e.2.payload)
  read : ∃ data, store.loadData e.2.storageName = some data ∧
    getRange data e.2.payload = some payload

variable {store : Store}

theorem copyAdu_ok {first : Adu} {total : Nat} {buffer b : Bytes} {e : Nat × Adu} :
    copyAdu store first total buffer e = .ok b ↔
      (e.2.storageName = first.storageName ∧ b = buffer) ∨
      (e.2.storageName ≠ first.storageName ∧ ∃ info payload, Copied store total e info payload ∧
        info.offset + payload.length ≤ buffer.length ∧
        b = Chunk.overwrite buffer info.offset payload) := by
  rw [copyAdu]
  split
  · next hn =>
      constructor
      · exact fun h => .inl ⟨hn, (Except.ok.inj h).symm⟩
      · rintro (⟨-, rfl⟩ | ⟨hne, -⟩)
        · rfl
        · exact absurd hn hne
  · next hn =>
      simp only [Fold.bind_ok, expect_ok, orRefuse_ok, copyInto_ok]
      constructor
      · rintro ⟨info, hinfo, ⟨⟩, ht, ⟨⟩, hf, data, hdata, payload, hp, hlen, rfl⟩
        exact .inr ⟨hn, info, payload, ⟨hinfo, Decidable.not_not.mp (refuseIf_ok.mp ht),
          refuseIf_ok.mp hf, data, hdata, hp⟩, hlen, rfl⟩
      · rintro (⟨h, -⟩ | ⟨-, info, payload, ⟨hinfo, ht, hf, data, hdata, hp⟩, hlen, rfl⟩)
        · exact absurd h hn
        · exact ⟨info, hinfo, ⟨⟩, refuseIf_ok.mpr (not_not_intro ht), ⟨⟩, refuseIf_ok.mpr hf, data,
            hdata, payload, hp, hlen, rfl⟩

theorem copyAdu_length {first : Adu} {total : Nat} {buffer b : Bytes}
    {e : Nat × Adu} (h : copyAdu store first total buffer e = .ok b) : b.length = buffer.length := by
  rcases copyAdu_ok.mp h with ⟨-, rfl⟩ | ⟨-, info, payload, -, hlen, rfl⟩
  · rfl
  · exact Chunk.length_overwrite hlen

def Stop.panic? : Stop → Option String
  | panicked message => some message
  | refused _ => none

theorem orRefuse_error {α : Type} {x : Option α} {reason : Refusal} {y : Stop}
    (h : orRefuse x reason = .error y) : y.panic? = none := by
  cases x with
  | none =>
    cases h
    rfl
  | some a => cases h

theorem refuseIf_error {p : Prop} [Decidable p] {reason : Refusal} {y : Stop}
    (h : refuseIf p reason = .error y) : y.panic? = none := by
  rw [refuseIf] at h
  split at h
  · cases h
    rfl
  · cases h

theorem copyAdu_refused {first : Adu} {total : Nat} {buffer : Bytes}
    {e : Nat × Adu} (hlen : buffer.length = total) (ht : total ≤ isizeMax) {info : FragmentInfo}
    (hinfo : e.2.id.fragmentInfo = some info) {x : Stop}
    (h : copyAdu store first total buffer e = .error x) : x.panic? = none := by
  rw [copyAdu] at h
  split at h
  · cases h
  · rcases Fold.bind_error.mp h with h | ⟨info', hinfo', h⟩
    · rw [hinfo] at h
      cases h
    obtain rfl := Option.some.inj (hinfo.symm.trans (expect_ok.mp hinfo'))
    rcases Fold.bind_error.mp h with h | ⟨_, -, h⟩
    · exact refuseIf_error h
    rcases Fold.bind_error.mp h with h | ⟨_, hfits, h⟩
    · exact refuseIf_error h
    rcases Fold.bind_error.mp h with h | ⟨data, -, h⟩
    · exact orRefuse_error h
    rcases Fold.bind_error.mp h with h | ⟨payload, hp, h⟩
    · exact orRefuse_error h
    -- the copy itself: `fits` is an exact comparison below the bound
    have hin : info.offset + payload.length ≤ buffer.length := by
      have hmax : isizeMax < wordSize - 1 := by decide
      have hfits := refuseIf_ok.mp hfits
      rw [(getRange_eq (orRefuse_ok.mp hp)).2]
      simp only [saturatingAdd] at hfits
      omega
    cases (copyInto_ok.mpr ⟨hin, rfl⟩).symm.trans h

def Keyed (adus : HashMap Adu) : Prop :=
  ∀ (k : Nat) (a : Adu), adus[k]? = some a → ∃ info, a.id.fragmentInfo = some info ∧ info.offset = k

theorem copyAdu_swap {first : Adu} {total : Nat} {s s₁ s₂ : Bytes}
    {a b : Nat × Adu} {ia ib : FragmentInfo} (ha : a.2.id.fragmentInfo = some ia)
    (hb : b.2.id.fragmentInfo = some ib)
    (hdis : ia.offset + rangeLen a.2.payload ≤ ib.offset ∨
      ib.offset + rangeLen b.2.payload ≤ ia.offset)
    (h₁ : copyAdu store first total s a = .ok s₁) (h₂ : copyAdu store first total s₁ b = .ok s₂) :
    ∃ s₁', copyAdu store first total s b = .ok s₁' ∧ copyAdu store first total s₁' a = .ok s₂ := by
  rcases copyAdu_ok.mp h₁ with ⟨hna, rfl⟩ | ⟨hna, info, p, hca, hla, rfl⟩
  · exact ⟨s₂, h₂, copyAdu_ok.mpr (.inl ⟨hna, rfl⟩)⟩
  · rcases copyAdu_ok.mp h₂ with ⟨hnb, rfl⟩ | ⟨hnb, info', p', hcb, hlb, rfl⟩
    · exact ⟨s, copyAdu_ok.mpr (.inl ⟨hnb, rfl⟩), h₁⟩
    · obtain ⟨_, -, hpa⟩ := hca.read
      obtain ⟨_, -, hpb⟩ := hcb.read
      obtain rfl := Option.some.inj (ha.symm.trans hca.fragment)
      obtain rfl := Option.some.inj (hb.symm.trans hcb.fragment)
      rw [Chunk.length_overwrite hla] at hlb
      rw [← (getRange_eq hpa).2, ← (getRange_eq hpb).2] at hdis
      refine ⟨_, copyAdu_ok.mpr (.inr ⟨hnb, _, p', hcb, hlb, rfl⟩),
        copyAdu_ok.mpr (.inr ⟨hna, _, p, hca, ?_, Chunk.overwrite_comm hla hlb hdis⟩)⟩
      rw [Chunk.length_overwrite hlb]
      exact hla

/-- The copying loop does not depend on the order of the walk. -/
theorem copyLoop_walk {first : Adu} {total : Nat} {adus : HashMap Adu}
    (walk walk' : AduWalk) (hk : Keyed adus) (ht : total ≤ isizeMax)
    (hadj : Adjoining 0 total (extents (walk.iter adus))) {buffer : Bytes}
    (hlen : buffer.length = total) :
    ((walk.iter adus).foldlM (copyAdu store first total) buffer).mapError Stop.panic? =
      ((walk'.iter adus).foldlM (copyAdu store first total) buffer).mapError Stop.panic? := by
  have hperm : (walk.iter adus).Perm (walk'.iter adus) :=
    (walk.iter_perm adus).trans (walk'.iter_perm adus).symm
  let R : Nat × Adu → Nat × Adu → Prop := fun a b => a ∈ walk.iter adus ∧ b ∈ walk.iter adus ∧ a.1 ≠ b.1
  have hR : (walk.iter adus).Pairwise R :=
    (walk.iter_pairwise adus).imp_of_mem fun ha hb hne => ⟨ha, hb, hne⟩
  have hR' : (walk'.iter adus).Pairwise R :=
    hperm.pairwise hR fun ⟨ha, hb, hne⟩ => ⟨hb, ha, hne.symm⟩
  have hkey : ∀ e ∈ walk.iter adus, ∃ info, e.2.id.fragmentInfo = some info ∧ info.offset = e.1 :=
    fun e he => hk e.1 e.2 (walk.mem_iter.mp he)
  have hswap : ∀ {s a b s₁ s₂}, R a b → copyAdu store first total s a = .ok s₁ →
      copyAdu store first total s₁ b = .ok s₂ → ∃ s₁', copyAdu store first total s b = .ok s₁' ∧
        copyAdu store first total s₁' a = .ok s₂ := by
    intro s a b s₁ s₂ ⟨ha, hb, hne⟩ h₁ h₂
    obtain ⟨ia, hia, hoa⟩ := hkey a ha
    obtain ⟨ib, hib, hob⟩ := hkey b hb
    refine copyAdu_swap hia hib ?_ h₁ h₂
    rw [hoa, hob]
    exact hadj.disjoint ha hb hne
  have hrefuse : ∀ {l : List (Nat × Adu)} {x : Stop}, (∀ e ∈ l, e ∈ walk.iter adus) →
      l.foldlM (copyAdu store first total) buffer = .error x → x.panic? = none := by
    intro l x hl h
    refine Fold.foldlM_error (P := fun b => b.length = total) (Q := fun x => x.panic? = none)
      (fun _ hb h => ?_) (fun he hb h => ?_) hlen h
    · rw [copyAdu_length h, hb]
    · obtain ⟨info, hinfo, -⟩ := hkey _ (hl _ he)
      exact copyAdu_refused hb ht hinfo h
  cases h : (walk.iter adus).foldlM (copyAdu store first total) buffer with
  | ok b =>
    have h' := Fold.foldlM_perm (R := R) (fun ⟨ha, hb, hne⟩ => ⟨hb, ha, hne.symm⟩)
      (fun {s a b s₁ s₂} => hswap) hperm hR h
    rw [h']
  | error x =>
    cases h' : (walk'.iter adus).foldlM (copyAdu store first total) buffer with
    | ok b =>
      have := Fold.foldlM_perm (R := R) (fun ⟨ha, hb, hne⟩ => ⟨hb, ha, hne.symm⟩)
        (fun {s a b s₁ s₂} => hswap) hperm.symm hR' h'
      cases h.symm.trans this
    | error y =>
      have hx := hrefuse (fun e he => he) h
      have hy := hrefuse (fun e he => hperm.mem_iff.mpr he) h'
      simp only [Except.mapError, hx, hy]

theorem assembleAdu_walk (store : Store) (walk walk' : AduWalk) {adus : HashMap Adu}
    (hk : Keyed adus) :
    (assembleAdu store walk adus).mapError Stop.panic? =
      (assembleAdu store walk' adus).mapError Stop.panic? := by
  have hperm : (walk.iter adus).Perm (walk'.iter adus) :=
    (walk.iter_perm adus).trans (walk'.iter_perm adus).symm
  rw [assembleAdu, assembleAdu, ← extents_order hperm]
  refine Fold.mapError_bind rfl fun first _ => Fold.mapError_bind rfl fun bundle _ =>
    Fold.mapError_bind rfl fun name _ => Fold.mapError_bind rfl fun oldData _ =>
    Fold.mapError_bind rfl fun info _ => Fold.mapError_bind rfl fun covered hcov =>
    Fold.mapError_bind rfl fun _ htotal => ?_
  obtain rfl := Decidable.not_not.mp (refuseIf_ok.mp htotal)
  split
  · rfl
  · next hmax =>
      have ht : info.totalAduLength ≤ isizeMax := Nat.le_of_not_lt hmax
      have hword : isizeMax < wordSize - 1 := by decide
      refine Fold.mapError_bind rfl fun _ _ => Fold.mapError_bind rfl fun payload _ =>
        Fold.mapError_bind rfl fun buffer hbuf => ?_
      obtain ⟨hlen, rfl⟩ := copyInto_ok.mp hbuf
      refine Fold.mapError_bind (copyLoop_walk walk walk' hk ht
        (coveredBy_adjoining hcov (by omega)) ?_) fun _ _ => rfl
      rw [Chunk.length_overwrite hlen, List.length_replicate]

end Hardy.Bpa
