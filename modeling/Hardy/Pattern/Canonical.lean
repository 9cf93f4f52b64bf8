import Hardy.Intervals
import Hardy.Pattern
import Mathlib.Data.Nat.Log

/-!
# Canonical number patterns

The ranges that the pattern parser builds: separated intervals, and never a
single number.  The numbers of such a range are as many as its intervals count,
so `literal_bits` goes by the size of the set.
-/

namespace Hardy

namespace IpnInterval

def bounds : IpnInterval → Nat × Nat
  | .number n => (n, n)
  | .range s e => (s, e)

def Valid : IpnInterval → Prop
  | .number n => n ≤ Eid.u32Max
  | .range s e => s < e ∧ e ≤ Eid.u32Max

theorem matches_iff {i : IpnInterval} {v : Nat} :
    i.matches v = true ↔ i.bounds.1 ≤ v ∧ v ≤ i.bounds.2 := by
  cases i with
  | number n =>
    simp only [IpnInterval.matches, bounds, beq_iff_eq]
    omega
  | range s e => simp [IpnInterval.matches, bounds]

theorem count_eq (i : IpnInterval) : i.count = i.bounds.2 - i.bounds.1 + 1 := by
  cases i with
  | number n => simp [count, bounds]
  | range s e => rfl

theorem Valid.le {i : IpnInterval} (h : i.Valid) : i.bounds.2 ≤ Eid.u32Max := by
  cases i with
  | number n => exact h
  | range s e => exact h.2

/-- The interval that a merged `start..=end` becomes. -/
def ofBounds (b : Nat × Nat) : IpnInterval := if b.2 = b.1 then .number b.1 else .range b.1 b.2

theorem ofBounds_bounds {i : IpnInterval} (h : i.Valid) : ofBounds i.bounds = i := by
  cases i with
  | number n => simp [ofBounds, bounds]
  | range s e => simp [ofBounds, bounds, h.1.ne']

theorem compare_self (i : IpnInterval) : compare i i = .eq := by
  cases i with
  | number n => exact Nat.compare_eq_eq.mpr rfl
  | range s e =>
    show (compare s s).then (compare (e - s) (e - s)) = .eq
    simp

end IpnInterval

namespace IpnPattern

/-- The intervals of a range are valid and separated, and they are more than one
number. -/
structure CanonicalRange (l : List IpnInterval) : Prop where
  valid : ∀ i ∈ l, i.Valid
  separated : Intervals.Separated (l.map IpnInterval.bounds)
  nonempty : l ≠ []
  several : ∀ n, l ≠ [.number n]

def Canonical : IpnPattern → Prop
  | .wildcard => True
  | .single n => n ≤ Eid.u32Max
  | .range l => CanonicalRange l

def total (l : List IpnInterval) : Nat := (l.map IpnInterval.count).sum

theorem total_eq (l : List IpnInterval) : total l = Intervals.size (l.map IpnInterval.bounds) := by
  rw [total, Intervals.size, List.map_map]
  exact congrArg List.sum (List.map_congr_left fun i _ => i.count_eq)

variable {l : List IpnInterval}

theorem matches_range {v : Nat} :
    (range l).matches v = true ↔ Intervals.Covers (l.map IpnInterval.bounds) v := by
  simp [IpnPattern.matches, Intervals.Covers, IpnInterval.matches_iff]

def Sub (x y : IpnPattern) : Prop :=
  ∀ v ≤ Eid.u32Max, x.matches v = true → y.matches v = true

namespace CanonicalRange

variable {l l' : List IpnInterval}

theorem le_of_covers (h : CanonicalRange l) {v : Nat}
    (hv : Intervals.Covers (l.map IpnInterval.bounds) v) : v ≤ Eid.u32Max := by
  obtain ⟨b, hb, -, hle⟩ := hv
  obtain ⟨i, hi, rfl⟩ := List.mem_map.mp hb
  exact hle.trans (h.valid i hi).le

theorem two_le_total (h : CanonicalRange l) : 2 ≤ total l := by
  rcases l with _ | ⟨i, _ | ⟨j, l⟩⟩
  · exact absurd rfl h.nonempty
  · cases i with
    | number n => exact absurd rfl (h.several n)
    | range s e =>
      have hlt : s < e := (h.valid _ (List.mem_singleton_self _)).1
      simp only [total, List.map_cons, List.map_nil, List.sum_cons, List.sum_nil,
        IpnInterval.count]
      omega
  · simp only [total, List.map_cons, List.sum_cons, IpnInterval.count_eq]
    omega

theorem total_le (h : CanonicalRange l) : total l ≤ 2 ^ 32 := by
  rw [total_eq, ← Intervals.card_values h.separated]
  have hsub : Intervals.values (l.map IpnInterval.bounds) ⊆ Finset.range (2 ^ 32) := by
    intro v hv
    have hle := h.le_of_covers (Intervals.mem_values.mp hv)
    rw [Eid.u32Max] at hle
    exact Finset.mem_range.mpr (by omega)
  exact (Finset.card_le_card hsub).trans (Finset.card_range _).le

theorem total_le_of_sub (h : CanonicalRange l) (h' : CanonicalRange l')
    (hsub : Sub (.range l) (.range l')) : total l ≤ total l' := by
  rw [total_eq, total_eq]
  refine Intervals.size_le_of_covers h.separated h'.separated fun v hv => ?_
  exact matches_range.mp (hsub v (h.le_of_covers hv) (matches_range.mpr hv))

theorem total_of_full (h : CanonicalRange l) (hfull : Sub .wildcard (.range l)) :
    total l = 2 ^ 32 := by
  refine le_antisymm h.total_le ?_
  rw [total_eq, ← Intervals.card_values h.separated]
  have hsub : Finset.range (2 ^ 32) ⊆ Intervals.values (l.map IpnInterval.bounds) := by
    intro v hv
    have hle : v ≤ Eid.u32Max := by
      have := Finset.mem_range.mp hv
      rw [Eid.u32Max]
      omega
    exact Intervals.mem_values.mpr (matches_range.mp (hfull v hle rfl))
  exact (Finset.card_range _).ge.trans (Finset.card_le_card hsub)

end CanonicalRange

/-! ## Bits -/

theorem literalBits_range (l : List IpnInterval) : (range l).literalBits =
    if total l ≤ 1 then 32 else 32 - (Nat.log2 (total l - 1) + 1) := rfl

theorem literalBits_le_of_total {l l' : List IpnInterval} (h : total l ≤ total l') :
    (range l').literalBits ≤ (range l).literalBits := by
  rw [literalBits_range, literalBits_range]
  split
  · rw [if_pos (by omega)]
  · split
    · omega
    · have hlog : Nat.log2 (total l - 1) ≤ Nat.log2 (total l' - 1) := by
        rw [Nat.log2_eq_log_two, Nat.log2_eq_log_two]
        exact Nat.log_mono_right (by omega)
      omega

theorem literalBits_range_lt (h : 2 ≤ total l) : (range l).literalBits < 32 := by
  rw [literalBits_range, if_neg (by omega)]
  omega

theorem literalBits_range_eq_zero (h : 2 ≤ total l) :
    (range l).literalBits = 0 ↔ 2 ^ 31 < total l := by
  have hlog : 2 ^ 31 ≤ total l - 1 ↔ 31 ≤ Nat.log2 (total l - 1) := by
    rw [Nat.log2_eq_log_two]
    exact (Nat.le_log_iff_pow_le (by omega) (by omega)).symm
  rw [literalBits_range, if_neg (by omega)]
  omega

theorem compare_range (l l' : List IpnInterval) : compare (range l) (range l') = compare l l' := by
  simp [compare, instOrdIpnPattern.ord]

theorem compare_self (x : IpnPattern) : compare x x = .eq := by
  cases x with
  | wildcard => rfl
  | single n => simp [compare, instOrdIpnPattern.ord, compareOfLessAndEq]
  | range l =>
    rw [compare_range]
    induction l with
    | nil => rfl
    | cons i l ih =>
      show List.compareLex compare (i :: l) (i :: l) = .eq
      rw [List.compareLex, IpnInterval.compare_self]
      exact ih

/-! ## Exact patterns -/

theorem isExact_iff {x : IpnPattern} (h : x.Canonical) :
    x.isExact = true ↔ ∃ n, x = .single n := by
  match x, h with
  | .wildcard, _ => simp [isExact]
  | .single n, _ => simp [isExact]
  | .range [], _ => simp [isExact]
  | .range [.number n], h => exact absurd rfl (CanonicalRange.several h n)
  | .range [.range s e], _ => simp [isExact]
  | .range (_ :: _ :: _), _ => simp [isExact]

theorem exists_matches {x : IpnPattern} (h : x.Canonical) :
    ∃ v ≤ Eid.u32Max, x.matches v = true := by
  cases x with
  | wildcard => exact ⟨0, Nat.zero_le _, rfl⟩
  | single n => exact ⟨n, h, by simp [IpnPattern.matches]⟩
  | range l =>
    obtain ⟨i, l, rfl⟩ := List.exists_cons_of_ne_nil (CanonicalRange.nonempty h)
    have hi := CanonicalRange.separated h |>.inhabited i.bounds (by simp)
    have hcovers : Intervals.Covers ((i :: l).map IpnInterval.bounds) i.bounds.1 :=
      ⟨i.bounds, by simp, le_refl _, hi⟩
    exact ⟨_, CanonicalRange.le_of_covers h hcovers, matches_range.mpr hcovers⟩

theorem eq_single_of_sub {x : IpnPattern} {n : Nat} (h : x.Canonical)
    (hsub : Sub x (.single n)) : x = .single n := by
  cases x with
  | wildcard =>
    have h0 := hsub 0 (Nat.zero_le _) rfl
    have h1 := hsub 1 (by simp [Eid.u32Max]) rfl
    simp only [IpnPattern.matches, beq_iff_eq] at h0 h1
    omega
  | single m =>
    have hm := hsub m h (by simp [IpnPattern.matches])
    simp only [IpnPattern.matches, beq_iff_eq] at hm
    rw [hm]
  | range l =>
    have htwo := CanonicalRange.two_le_total h
    have hone : Intervals.size (l.map IpnInterval.bounds) ≤ Intervals.size [(n, n)] := by
      refine Intervals.size_le_of_covers (CanonicalRange.separated h)
        ⟨by simp, List.pairwise_singleton _ _⟩ fun v hv => ?_
      have hv' := hsub v (CanonicalRange.le_of_covers h hv) (matches_range.mpr hv)
      simp only [IpnPattern.matches, beq_iff_eq] at hv'
      exact ⟨(n, n), by simp, by omega, by omega⟩
    rw [← total_eq] at hone
    simp only [Intervals.size, List.map_cons, List.map_nil, List.sum_cons, List.sum_nil] at hone
    omega

theorem CanonicalRange.map_ofBounds (h : CanonicalRange l) :
    (l.map IpnInterval.bounds).map IpnInterval.ofBounds = l := by
  rw [List.map_map]
  exact (List.map_congr_left fun i hi => IpnInterval.ofBounds_bounds (h.valid i hi)).trans
    (List.map_id l)

theorem eq_of_same {x y : IpnPattern} (hx : x.Canonical) (hy : y.Canonical)
    (hxw : x ≠ .wildcard) (hyw : y ≠ .wildcard) (h : Sub x y) (h' : Sub y x) : x = y := by
  cases x with
  | wildcard => exact absurd rfl hxw
  | single n => exact (eq_single_of_sub hy h').symm
  | range l =>
    cases y with
    | wildcard => exact absurd rfl hyw
    | single n => exact eq_single_of_sub hx h
    | range m =>
      have hbounds : l.map IpnInterval.bounds = m.map IpnInterval.bounds := by
        refine Intervals.Separated.ext (CanonicalRange.separated hx)
          (CanonicalRange.separated hy) fun v => ⟨fun hv => ?_, fun hv => ?_⟩
        · exact matches_range.mp
            (h v (CanonicalRange.le_of_covers hx hv) (matches_range.mpr hv))
        · exact matches_range.mp
            (h' v (CanonicalRange.le_of_covers hy hv) (matches_range.mpr hv))
      rw [← CanonicalRange.map_ofBounds hx, hbounds, CanonicalRange.map_ofBounds hy]

theorem eq_of_sub_sub {x y : IpnPattern} (hx : x.Canonical) (hy : y.Canonical) (h : Sub x y)
    (h' : Sub y x) : x = y ∨ (Sub .wildcard x ∧ Sub .wildcard y) := by
  by_cases hxw : x = .wildcard
  · exact .inr ⟨hxw ▸ fun _ _ h => h, hxw ▸ h⟩
  · by_cases hyw : y = .wildcard
    · exact .inr ⟨hyw ▸ h', hyw ▸ fun _ _ h => h⟩
    · exact .inl (eq_of_same hx hy hxw hyw h h')

end IpnPattern

end Hardy
