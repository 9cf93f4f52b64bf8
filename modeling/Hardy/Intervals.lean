import Mathlib.Algebra.Order.Ring.Nat
import Mathlib.Data.Finset.Card
import Mathlib.Data.List.Sort
import Mathlib.Order.Interval.Finset.Nat

/-!
# Lists of intervals

Sets of numbers as lists of inclusive intervals.  A list is separated when its
intervals ascend and no two of them touch; `coalesce` brings an ascending list
into that form, and a separated list is its own result.
-/

namespace Hardy.Intervals

def Covers (l : List (Nat × Nat)) (v : Nat) : Prop := ∃ i ∈ l, i.1 ≤ v ∧ v ≤ i.2

/-- The intervals are not empty, ascend and leave a gap between them. -/
structure Separated (l : List (Nat × Nat)) : Prop where
  inhabited : ∀ i ∈ l, i.1 ≤ i.2
  gaps : l.Pairwise fun i j => i.2 + 1 < j.1

def size (l : List (Nat × Nat)) : Nat := (l.map fun i => i.2 - i.1 + 1).sum

variable {l : List (Nat × Nat)}

theorem covers_cons {i : Nat × Nat} {v : Nat} :
    Covers (i :: l) v ↔ (i.1 ≤ v ∧ v ≤ i.2) ∨ Covers l v := by
  simp [Covers]

theorem Separated.tail {i : Nat × Nat} (h : Separated (i :: l)) : Separated l :=
  ⟨fun j hj => h.inhabited j (List.mem_cons_of_mem _ hj), (List.pairwise_cons.mp h.gaps).2⟩

theorem Separated.beyond {i : Nat × Nat} (h : Separated (i :: l)) {v : Nat}
    (hv : Covers l v) : i.2 + 1 < v := by
  obtain ⟨j, hj, hle, -⟩ := hv
  exact ((List.pairwise_cons.mp h.gaps).1 j hj).trans_le hle

/-! ## Counting -/

def values (l : List (Nat × Nat)) : Finset Nat := l.foldr (fun i s => Finset.Icc i.1 i.2 ∪ s) ∅

theorem mem_values {v : Nat} : v ∈ values l ↔ Covers l v := by
  induction l with
  | nil => simp [values, Covers]
  | cons i l ih =>
    rw [covers_cons, ← ih]
    simp [values]

theorem card_values (h : Separated l) : (values l).card = size l := by
  induction l with
  | nil => rfl
  | cons i l ih =>
    have hdisjoint : Disjoint (Finset.Icc i.1 i.2) (values l) := by
      refine Finset.disjoint_left.mpr fun v hv hl => ?_
      have hlt := h.beyond (mem_values.mp hl)
      have hle := (Finset.mem_Icc.mp hv).2
      omega
    have hle := h.inhabited i List.mem_cons_self
    have hcons : values (i :: l) = Finset.Icc i.1 i.2 ∪ values l := rfl
    have hsize : size (i :: l) = i.2 - i.1 + 1 + size l := List.sum_cons
    rw [hcons, Finset.card_union_of_disjoint hdisjoint, ih h.tail, Nat.card_Icc, hsize]
    omega

theorem size_le_of_covers {l l' : List (Nat × Nat)} (h : Separated l) (h' : Separated l')
    (hsub : ∀ v, Covers l v → Covers l' v) : size l ≤ size l' := by
  rw [← card_values h, ← card_values h']
  exact Finset.card_le_card fun v hv => mem_values.mpr (hsub v (mem_values.mp hv))

/-! ## The separated form is unique -/

theorem Separated.head_eq {i j : Nat × Nat} {l m : List (Nat × Nat)} (hl : Separated (i :: l))
    (hm : Separated (j :: m)) (h : ∀ v, Covers (i :: l) v ↔ Covers (j :: m) v) : i = j := by
  have hi := hl.inhabited i List.mem_cons_self
  have hj := hm.inhabited j List.mem_cons_self
  -- both start at the least number, and end where the next one is missing
  have hstart : i.1 = j.1 := by
    have h1 := covers_cons.mp ((h i.1).mp (covers_cons.mpr (.inl ⟨le_refl _, hi⟩)))
    have h2 := covers_cons.mp ((h j.1).mpr (covers_cons.mpr (.inl ⟨le_refl _, hj⟩)))
    rcases h1 with h1 | h1 <;> rcases h2 with h2 | h2
    · omega
    · have := hl.beyond h2
      omega
    · have := hm.beyond h1
      omega
    · have := hl.beyond h2
      have := hm.beyond h1
      omega
  have hstop : i.2 = j.2 := by
    rcases Nat.lt_trichotomy i.2 j.2 with hlt | heq | hlt
    · have hin : Covers (j :: m) (i.2 + 1) := covers_cons.mpr (.inl ⟨by omega, by omega⟩)
      rcases covers_cons.mp ((h _).mpr hin) with hc | hc
      · omega
      · have := hl.beyond hc
        omega
    · exact heq
    · have hin : Covers (i :: l) (j.2 + 1) := covers_cons.mpr (.inl ⟨by omega, by omega⟩)
      rcases covers_cons.mp ((h _).mp hin) with hc | hc
      · omega
      · have := hm.beyond hc
        omega
  exact Prod.ext hstart hstop

theorem Separated.ext {l m : List (Nat × Nat)} (hl : Separated l) (hm : Separated m)
    (h : ∀ v, Covers l v ↔ Covers m v) : l = m := by
  induction l generalizing m with
  | nil =>
    cases m with
    | nil => rfl
    | cons j m =>
      have hj := hm.inhabited j List.mem_cons_self
      obtain ⟨_, hmem, -⟩ := (h j.1).mpr (covers_cons.mpr (.inl ⟨le_refl _, hj⟩))
      cases hmem
  | cons i l ih =>
    cases m with
    | nil =>
      have hi := hl.inhabited i List.mem_cons_self
      obtain ⟨_, hmem, -⟩ := (h i.1).mp (covers_cons.mpr (.inl ⟨le_refl _, hi⟩))
      cases hmem
    | cons j m =>
      obtain rfl := hl.head_eq hm h
      congr 1
      refine ih hl.tail hm.tail fun v => ⟨fun hv => ?_, fun hv => ?_⟩
      · have hbeyond := hl.beyond hv
        rcases covers_cons.mp ((h v).mp (covers_cons.mpr (.inr hv))) with hc | hc
        · omega
        · exact hc
      · have hbeyond := hm.beyond hv
        rcases covers_cons.mp ((h v).mpr (covers_cons.mpr (.inr hv))) with hc | hc
        · omega
        · exact hc

/-! ## Intervals within others -/

theorem Separated.within (h : Separated l) {a b : Nat}
    (hle : a ≤ b) (hcovers : ∀ v, a ≤ v → v ≤ b → Covers l v) : ∃ j ∈ l, j.1 ≤ a ∧ b ≤ j.2 := by
  induction l with
  | nil =>
    obtain ⟨_, hmem, -⟩ := hcovers a (le_refl a) hle
    cases hmem
  | cons i l ih =>
    by_cases hin : a ≤ i.2
    · -- the first number is in the first interval, and what follows it cannot leave it
      refine ⟨i, List.mem_cons_self, ?_, Nat.not_lt.mp fun hlt => ?_⟩
      · rcases covers_cons.mp (hcovers a (le_refl a) hle) with ha | ha
        · exact ha.1
        · have := h.beyond ha
          omega
      · rcases covers_cons.mp (hcovers (i.2 + 1) (by omega) hlt) with hv | hv
        · omega
        · have := h.beyond hv
          omega
    · obtain ⟨j, hj, hbounds⟩ := ih h.tail fun v hv hvb => by
        rcases covers_cons.mp (hcovers v hv hvb) with hc | hc
        · omega
        · exact hc
      exact ⟨j, List.mem_cons_of_mem _ hj, hbounds⟩

/-! ## Bringing intervals together -/

/-- The intervals with those joined that overlap or touch, from `current` on. -/
def coalesce (current : Nat × Nat) : List (Nat × Nat) → List (Nat × Nat)
  | [] => [current]
  | next :: l =>
    if next.1 ≤ current.2 + 1 then coalesce (current.1, max current.2 next.2) l
    else current :: coalesce next l

theorem valid_merge {current next : Nat × Nat} (h : ∀ i ∈ current :: next :: l, i.1 ≤ i.2) :
    ∀ i ∈ (current.1, max current.2 next.2) :: l, i.1 ≤ i.2 := by
  intro i hi
  rcases List.mem_cons.mp hi with rfl | hi
  · exact (h current List.mem_cons_self).trans (le_max_left _ _)
  · exact h i (List.mem_cons_of_mem _ (List.mem_cons_of_mem _ hi))

theorem sorted_merge {current next : Nat × Nat}
    (h : (current :: next :: l).Pairwise fun i j => i.1 ≤ j.1) :
    ((current.1, max current.2 next.2) :: l).Pairwise fun i j => i.1 ≤ j.1 := by
  obtain ⟨hfirst, hrest⟩ := List.pairwise_cons.mp h
  refine List.pairwise_cons.mpr ⟨fun i hi => ?_, (List.pairwise_cons.mp hrest).2⟩
  exact hfirst i (List.mem_cons_of_mem _ hi)

theorem coalesce_covers {current : Nat × Nat} (hvalid : ∀ i ∈ current :: l, i.1 ≤ i.2)
    (hsorted : (current :: l).Pairwise fun i j => i.1 ≤ j.1) {v : Nat} :
    Covers (coalesce current l) v ↔ Covers (current :: l) v := by
  induction l generalizing current with
  | nil => rfl
  | cons next l ih =>
    have hc := hvalid current List.mem_cons_self
    have hn := hvalid next (List.mem_cons_of_mem _ List.mem_cons_self)
    obtain ⟨hfirst, hrest⟩ := List.pairwise_cons.mp hsorted
    have hle := hfirst next List.mem_cons_self
    rw [coalesce]
    split
    · rename_i htouch
      rw [ih, covers_cons, covers_cons, covers_cons]
      · simp only [le_max_iff]
        constructor
        · rintro (⟨h1, h2⟩ | h)
          · by_cases hv : v ≤ current.2
            · exact .inl ⟨h1, hv⟩
            · exact .inr (.inl ⟨by omega, by omega⟩)
          · exact .inr (.inr h)
        · rintro (⟨h1, h2⟩ | ⟨h1, h2⟩ | h)
          · exact .inl ⟨h1, .inl h2⟩
          · exact .inl ⟨by omega, .inr h2⟩
          · exact .inr h
      · exact valid_merge hvalid
      · exact sorted_merge hsorted
    · rw [covers_cons, ih, ← covers_cons]
      · exact fun i hi => hvalid i (List.mem_cons_of_mem _ hi)
      · exact hrest

theorem coalesce_separated {current : Nat × Nat} (hvalid : ∀ i ∈ current :: l, i.1 ≤ i.2)
    (hsorted : (current :: l).Pairwise fun i j => i.1 ≤ j.1) :
    Separated (coalesce current l) ∧ ∀ i ∈ coalesce current l, current.1 ≤ i.1 := by
  induction l generalizing current with
  | nil =>
    refine ⟨⟨hvalid, List.pairwise_singleton _ _⟩, fun i hi => ?_⟩
    rw [List.mem_singleton.mp hi]
  | cons next l ih =>
    have hc := hvalid current List.mem_cons_self
    obtain ⟨hfirst, hrest⟩ := List.pairwise_cons.mp hsorted
    rw [coalesce]
    split
    · exact ih (valid_merge hvalid) (sorted_merge hsorted)
    · rename_i hgap
      obtain ⟨hsep, hfrom⟩ := ih (fun i hi => hvalid i (List.mem_cons_of_mem _ hi)) hrest
      refine ⟨⟨fun i hi => ?_, List.pairwise_cons.mpr ⟨fun i hi => ?_, hsep.gaps⟩⟩,
        fun i hi => ?_⟩
      · rcases List.mem_cons.mp hi with rfl | hi
        · exact hc
        · exact hsep.inhabited i hi
      · have := hfrom i hi
        omega
      · rcases List.mem_cons.mp hi with rfl | hi
        · exact le_refl _
        · have := hfrom i hi
          have := hfirst next List.mem_cons_self
          omega

theorem coalesce_ne_nil (current : Nat × Nat) (l : List (Nat × Nat)) :
    coalesce current l ≠ [] := by
  induction l generalizing current with
  | nil => exact List.cons_ne_nil _ _
  | cons next l ih =>
    rw [coalesce]
    split
    · exact ih _
    · exact List.cons_ne_nil _ _

theorem coalesce_of_separated {current : Nat × Nat}
    (h : Separated (current :: l)) : coalesce current l = current :: l := by
  induction l generalizing current with
  | nil => rfl
  | cons next l ih =>
    have hgap := (List.pairwise_cons.mp h.gaps).1 next List.mem_cons_self
    rw [coalesce, if_neg (by omega), ih h.tail]

end Hardy.Intervals
