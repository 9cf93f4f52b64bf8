import Mathlib.Logic.Basic

/-!
# Loops without a bound

A loop is a step that says when to stop, run on fuel.  It ends if some fuel is enough:
that follows from a measure that every step lowers, and an invariant under which there
is always another step refutes it.
-/

namespace Hardy.Loop

variable {σ ω : Type} {step : σ → Option (σ × List ω)}

def run (step : σ → Option (σ × List ω)) : Nat → σ → Option (σ × List ω)
  | 0, _ => none
  | fuel + 1, s =>
    match step s with
    | none => some (s, [])
    | some (s', out) => (run step fuel s').map fun r => (r.1, out ++ r.2)

theorem run_succ_none {fuel : Nat} {s : σ} (h : step s = none) :
    run step (fuel + 1) s = some (s, []) := by
  rw [run, h]

theorem run_succ_some {fuel : Nat} {s s' : σ} {out : List ω} (h : step s = some (s', out)) :
    run step (fuel + 1) s = (run step fuel s').map fun r => (r.1, out ++ r.2) := by
  rw [run, h]

theorem run_eq_some {I : σ → Prop}
    (hstep : ∀ s s' out, I s → step s = some (s', out) → I s') {fuel : Nat} {s t : σ}
    {out : List ω} (hs : I s) (h : run step fuel s = some (t, out)) : I t ∧ step t = none := by
  induction fuel generalizing s out with
  | zero => cases h
  | succ fuel ih =>
    rcases hnext : step s with _ | ⟨s', out'⟩
    · rw [run_succ_none hnext] at h
      cases h
      exact ⟨hs, hnext⟩
    · rw [run_succ_some hnext] at h
      obtain ⟨⟨t', out''⟩, hrun, h⟩ := Option.map_eq_some_iff.mp h
      cases h
      exact ih (hstep s s' out' hs hnext) hrun

theorem run_rel {R : σ → List ω → σ → Prop} (hnil : ∀ s, R s [] s)
    (hcons : ∀ s s' t out out', step s = some (s', out) → R s' out' t → R s (out ++ out') t)
    {fuel : Nat} {s t : σ} {out : List ω} (h : run step fuel s = some (t, out)) : R s out t := by
  induction fuel generalizing s out with
  | zero => cases h
  | succ fuel ih =>
    rcases hnext : step s with _ | ⟨s', out'⟩
    · rw [run_succ_none hnext] at h
      cases h
      exact hnil _
    · rw [run_succ_some hnext] at h
      obtain ⟨⟨t', out''⟩, hrun, h⟩ := Option.map_eq_some_iff.mp h
      cases h
      exact hcons _ s' _ out' out'' hnext (ih hrun)

theorem exists_run {I : σ → Prop} {m : σ → Nat}
    (hstep : ∀ s s' out, I s → step s = some (s', out) → I s' ∧ m s' < m s) {s : σ} (hs : I s) :
    ∃ fuel t out, run step fuel s = some (t, out) := by
  induction hm : m s using Nat.strongRecOn generalizing s with
  | ind n ih =>
    rcases hnext : step s with _ | ⟨s', out⟩
    · exact ⟨1, s, [], run_succ_none hnext⟩
    · obtain ⟨hs', hlt⟩ := hstep s s' out hs hnext
      obtain ⟨fuel, t, out', hrun⟩ := ih (m s') (hm ▸ hlt) hs' rfl
      refine ⟨fuel + 1, t, out ++ out', ?_⟩
      rw [run_succ_some hnext, hrun]
      rfl

theorem run_eq_none {I : σ → Prop}
    (hstep : ∀ s, I s → ∃ s' out, step s = some (s', out) ∧ I s') {s : σ} (hs : I s)
    (fuel : Nat) : run step fuel s = none := by
  induction fuel generalizing s with
  | zero => rfl
  | succ fuel ih =>
    obtain ⟨s', out, hnext, hs'⟩ := hstep s hs
    rw [run_succ_some hnext, ih hs']
    rfl

end Hardy.Loop
