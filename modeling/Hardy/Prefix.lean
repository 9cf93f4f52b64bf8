import Mathlib.Data.List.Basic

/-!
# Prefix-free languages

Where no word of a language goes on as another one, the words of a concatenation can be
told without anything between them.
-/

namespace Hardy

variable {τ : Type} {L : List τ → Prop} {u v r r' : List τ}

structure PrefixFree (L : List τ → Prop) : Prop where
  nonempty : ¬ L []
  longer : ∀ w e, L w → L (w ++ e) → e = []

namespace PrefixFree

theorem front_eq (h : PrefixFree L) (hu : L u) (hv : L v) (heq : u ++ r = v ++ r') :
    u = v ∧ r = r' := by
  rcases List.append_eq_append_iff.mp heq with ⟨e, rfl, hr⟩ | ⟨e, rfl, hr⟩
  · obtain rfl := h.longer u e hu hv
    exact ⟨(List.append_nil u).symm, hr⟩
  · obtain rfl := h.longer v e hv hu
    exact ⟨List.append_nil v, hr.symm⟩

theorem flatten_inj (h : PrefixFree L) {us vs : List (List τ)} (hu : ∀ u ∈ us, L u)
    (hv : ∀ v ∈ vs, L v) (heq : us.flatten = vs.flatten) : us = vs := by
  induction us generalizing vs with
  | nil =>
    cases vs with
    | nil => rfl
    | cons v vs =>
      have hnil := (List.append_eq_nil_iff.mp heq.symm).1
      exact absurd (hnil ▸ hv v List.mem_cons_self) h.nonempty
  | cons u us ih =>
    obtain ⟨hu, hus⟩ := List.forall_mem_cons.mp hu
    cases vs with
    | nil => exact absurd ((List.append_eq_nil_iff.mp heq).1 ▸ hu) h.nonempty
    | cons v vs =>
      obtain ⟨hv, hvs⟩ := List.forall_mem_cons.mp hv
      obtain ⟨rfl, hrest⟩ := h.front_eq hu hv heq
      rw [ih hus hvs hrest]

end PrefixFree

end Hardy
