import Mathlib.Data.List.Basic

/-!
# Half-open ranges that tile

A family of ranges, some of its members in a list: `Tiles` says that the
ranges of the list follow one another without a gap from one position to
another, and that none of them is empty.
-/

namespace Hardy

/-- `start..stop` -/
structure Range where
  start : Nat
  stop : Nat
deriving DecidableEq, Repr

namespace Range

/-- `&data[range]` -/
def slice {α : Type} (r : Range) (data : List α) : List α :=
  (data.drop r.start).take (r.stop - r.start)

theorem slice_append {α : Type} {r : Range} {data : List α} (h : r.stop ≤ data.length)
    (e : List α) : r.slice (data ++ e) = r.slice data := by
  by_cases hs : r.start ≤ data.length
  · rw [slice, slice, List.drop_append_of_le_length hs, List.take_append_of_le_length]
    rw [List.length_drop]
    omega
  · have : r.stop - r.start = 0 := by omega
    rw [slice, slice, this, List.take_zero, List.take_zero]

theorem slice_mid {α : Type} (a b c : List α) :
    (Range.mk a.length (a.length + b.length)).slice (a ++ b ++ c) = b := by
  rw [slice, List.append_assoc, List.drop_left' rfl, Nat.add_sub_cancel_left, List.take_left' rfl]

theorem slice_adjoin {α : Type} {a b c : Nat} (hab : a ≤ b) (hbc : b ≤ c) (data : List α) :
    (Range.mk a c).slice data = (Range.mk a b).slice data ++ (Range.mk b c).slice data := by
  have hlen : c - a = (b - a) + (c - b) := by omega
  have hdrop : a + (b - a) = b := by omega
  simp only [slice]
  rw [hlen, List.take_add, List.drop_drop, hdrop]

theorem slice_congr {α : Type} {r : Range} {data data' : List α}
    (h : ∀ i, r.start ≤ i → i < r.stop → data[i]? = data'[i]?) : r.slice data = r.slice data' := by
  refine List.ext_getElem? fun i => ?_
  simp only [slice, List.getElem?_take, List.getElem?_drop]
  split
  · exact h _ (by omega) (by omega)
  · rfl

def Inside (r s : Range) : Prop := s.start ≤ r.start ∧ r.start ≤ r.stop ∧ r.stop ≤ s.stop

def Disjoint (r s : Range) : Prop := r.stop ≤ s.start ∨ s.stop ≤ r.start

end Range

/-! ## Tilings -/

variable {ι : Type} {extent extent' : ι → Option Range}

/-- The ranges of `l` lead from `a` to `z`. -/
def Tiles (extent : ι → Option Range) : Nat → List ι → Nat → Prop
  | a, [], z => a = z
  | a, i :: l, z => ∃ r, extent i = some r ∧ r.start = a ∧ r.start < r.stop ∧ Tiles extent r.stop l z

variable {a z : Nat}

theorem tiles_append {l m : List ι} :
    Tiles extent a (l ++ m) z ↔ ∃ b, Tiles extent a l b ∧ Tiles extent b m z := by
  induction l generalizing a with
  | nil => exact ⟨fun h => ⟨a, rfl, h⟩, fun ⟨b, hb, h⟩ => by cases hb; exact h⟩
  | cons i l ih =>
    constructor
    · rintro ⟨r, hr, hs, hlt, h⟩
      obtain ⟨b, hl, hm⟩ := ih.mp h
      exact ⟨b, ⟨r, hr, hs, hlt, hl⟩, hm⟩
    · rintro ⟨b, ⟨r, hr, hs, hlt, hl⟩, hm⟩
      exact ⟨r, hr, hs, hlt, ih.mpr ⟨b, hl, hm⟩⟩

variable {l : List ι}

theorem Tiles.concat (h : Tiles extent a l z) {i : ι} {r : Range}
    (hr : extent i = some r) (hs : r.start = z) (hlt : r.start < r.stop) :
    Tiles extent a (l ++ [i]) r.stop :=
  tiles_append.mpr ⟨z, h, r, hr, hs, hlt, rfl⟩

theorem Tiles.congr (h : Tiles extent a l z)
    (he : ∀ i ∈ l, extent' i = extent i) : Tiles extent' a l z := by
  induction l generalizing a with
  | nil => exact h
  | cons i l ih =>
    obtain ⟨r, hr, hs, hlt, h⟩ := h
    exact ⟨r, (he i List.mem_cons_self).trans hr, hs, hlt,
      ih h fun j hj => he j (List.mem_cons_of_mem _ hj)⟩

theorem Tiles.le (h : Tiles extent a l z) : a ≤ z := by
  induction l generalizing a with
  | nil => exact Nat.le_of_eq h
  | cons i l ih =>
    obtain ⟨r, -, rfl, hlt, h⟩ := h
    exact Nat.le_trans (Nat.le_of_lt hlt) (ih h)

theorem Tiles.mem (h : Tiles extent a l z) {i : ι} (hi : i ∈ l) :
    ∃ r, extent i = some r ∧ a ≤ r.start ∧ r.start < r.stop ∧ r.stop ≤ z := by
  induction l generalizing a with
  | nil => cases hi
  | cons j l ih =>
    obtain ⟨r, hr, rfl, hlt, h⟩ := h
    rcases List.mem_cons.mp hi with rfl | hi
    · exact ⟨r, hr, Nat.le_refl _, hlt, h.le⟩
    · obtain ⟨s, hs, hle, hlt', hz⟩ := ih h hi
      exact ⟨s, hs, by omega, hlt', hz⟩

theorem Tiles.cover (h : Tiles extent a l z) (p : Nat) :
    (a ≤ p ∧ p < z) ↔ ∃ i ∈ l, ∃ r, extent i = some r ∧ r.start ≤ p ∧ p < r.stop := by
  constructor
  · rintro ⟨ha, hz⟩
    induction l generalizing a with
    | nil =>
      obtain rfl : a = z := h
      omega
    | cons i l ih =>
      obtain ⟨r, hr, rfl, hlt, h⟩ := h
      by_cases hp : p < r.stop
      · exact ⟨i, List.mem_cons_self, r, hr, ha, hp⟩
      · obtain ⟨j, hj, hin⟩ := ih h (Nat.le_of_not_lt hp)
        exact ⟨j, List.mem_cons_of_mem _ hj, hin⟩
  · rintro ⟨i, hi, r, hr, hle, hlt⟩
    obtain ⟨s, hs, hsa, -, hsz⟩ := h.mem hi
    cases hr.symm.trans hs
    omega

theorem Tiles.disjoint (h : Tiles extent a l z) {i j : ι} (hi : i ∈ l)
    (hj : j ∈ l) (hne : i ≠ j) {r s : Range} (hr : extent i = some r) (hs : extent j = some s) :
    r.Disjoint s := by
  induction l generalizing a with
  | nil => cases hi
  | cons k l ih =>
    obtain ⟨t, ht, rfl, hlt, h⟩ := h
    rcases List.mem_cons.mp hi with rfl | hi' <;> rcases List.mem_cons.mp hj with rfl | hj'
    · exact absurd rfl hne
    · obtain ⟨s', hs', hle, -, -⟩ := h.mem hj'
      cases hs.symm.trans hs'
      cases hr.symm.trans ht
      exact .inl hle
    · obtain ⟨r', hr', hle, -, -⟩ := h.mem hi'
      cases hr.symm.trans hr'
      cases hs.symm.trans ht
      exact .inr hle
    · exact ih h hi' hj'

end Hardy
