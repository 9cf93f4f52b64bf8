import Mathlib.Logic.Relation
import Hardy.Scan

/-!
# Loops that stop between rounds

A streaming consumer runs a loop over the input it has.  When the input gives
out in the middle of a round it keeps the state at the start of that round and
tries the round again on more input.  This file is the theory of such loops:
`run` reports the round that failed, `Round` is one round as a relation, and a
run that is resumed on more input is the run on all of it
(`run_of_rounds`, `Rounds.extend`).
-/

namespace Hardy.Scan

variable {ε τ σ α β : Type}

structure Stopped (ε τ σ β : Type) where
  failure : ε
  state : β
  cursor : Cursor τ σ

def runFuel (out : ε) (body : β → Scan ε τ σ (β ⊕ α)) :
    Nat → β → Cursor τ σ → Except (Stopped ε τ σ β) (α × Cursor τ σ)
  | 0, b, c => .error ⟨out, b, c⟩
  | n + 1, b, c =>
    match body b c with
    | .error x => .error ⟨x, b, c⟩
    | .ok (.inl b', c') => runFuel out body n b' c'
    | .ok (.inr a, c') => .ok (a, c')

def run (out : ε) (body : β → Scan ε τ σ (β ⊕ α)) (b : β) (c : Cursor τ σ) :
    Except (Stopped ε τ σ β) (α × Cursor τ σ) :=
  runFuel out body (c.rest.length + 1) b c

variable {out : ε} {body : β → Scan ε τ σ (β ⊕ α)}

theorem runFuel_irrelevant (hp : Progress body) {n m : Nat} {b : β} {c : Cursor τ σ}
    (hn : c.rest.length < n) (hm : c.rest.length < m) :
    runFuel out body n b c = runFuel out body m b c := by
  induction n generalizing m b c with
  | zero => exact absurd hn (Nat.not_lt_zero _)
  | succ n ih =>
    cases m with
    | zero => exact absurd hm (Nat.not_lt_zero _)
    | succ m =>
      rw [runFuel, runFuel]
      rcases h : body b c with x | ⟨b' | a, c'⟩
      · rfl
      · have hlt := hp _ _ _ _ h
        exact ih (by omega) (by omega)
      · rfl

theorem run_unfold (hp : Progress body) (b : β) (c : Cursor τ σ) :
    run out body b c =
      match body b c with
      | .error x => .error ⟨x, b, c⟩
      | .ok (.inl b', c') => run out body b' c'
      | .ok (.inr a, c') => .ok (a, c') := by
  rw [run, runFuel]
  rcases h : body b c with x | ⟨b' | a, c'⟩
  · rfl
  · exact runFuel_irrelevant hp (hp _ _ _ _ h) (Nat.lt_succ_self _)
  · rfl

/-! ## Rounds -/

def Round (body : β → Scan ε τ σ (β ⊕ α)) (s s' : β × Cursor τ σ) : Prop :=
  body s.1 s.2 = .ok (.inl s'.1, s'.2)

abbrev Rounds (body : β → Scan ε τ σ (β ⊕ α)) : β × Cursor τ σ → β × Cursor τ σ → Prop :=
  Relation.ReflTransGen (Round body)

/-- A finished round is the same round on longer input. -/
def Extends (body : β → Scan ε τ σ (β ⊕ α)) : Prop :=
  ∀ b b' st d c, body b ⟨st, d⟩ = .ok (.inl b', c) →
    ∀ r, body b ⟨st, d ++ r⟩ = .ok (.inl b', ⟨c.st, c.rest ++ r⟩)

theorem Rounds.extend (he : Extends body) {s s' : β × Cursor τ σ} (h : Rounds body s s')
    (r : List τ) :
    Rounds body (s.1, ⟨s.2.st, s.2.rest ++ r⟩) (s'.1, ⟨s'.2.st, s'.2.rest ++ r⟩) := by
  induction h with
  | refl => exact .refl
  | tail _ hround ih => exact ih.tail (he _ _ _ _ _ hround r)

theorem Rounds.invariant {P : β → Cursor τ σ → Prop}
    (hP : ∀ {b c b' c'}, P b c → body b c = .ok (.inl b', c') → P b' c')
    {s s' : β × Cursor τ σ} (h : Rounds body s s') (h₀ : P s.1 s.2) : P s'.1 s'.2 := by
  induction h with
  | refl => exact h₀
  | tail _ hround ih => exact hP ih hround

/-- A state in which no round finishes with another one to come. -/
def Stuck (body : β → Scan ε τ σ (β ⊕ α)) (s : β × Cursor τ σ) : Prop :=
  ∀ s', ¬ Round body s s'

theorem Rounds.unique {s s₁ s₂ : β × Cursor τ σ} (h₁ : Rounds body s s₁) (h₂ : Rounds body s s₂)
    (hs₁ : Stuck body s₁) (hs₂ : Stuck body s₂) : s₁ = s₂ := by
  have hdet : Relator.RightUnique (Round body) := by
    rintro a ⟨b, c⟩ ⟨b', c'⟩ hb hb'
    cases hb.symm.trans hb'
    rfl
  rcases Relation.ReflTransGen.total_of_right_unique hdet h₁ h₂ with h | h
  · rcases h.cases_head with heq | ⟨s', hr, -⟩
    · exact heq
    · exact absurd hr (hs₁ s')
  · rcases h.cases_head with heq | ⟨s', hr, -⟩
    · exact heq.symm
    · exact absurd hr (hs₂ s')

theorem run_spec (out : ε) (hp : Progress body) (b : β) (c : Cursor τ σ) :
    ∃ b' c', Rounds body (b, c) (b', c') ∧
      ((∃ x, body b' c' = .error x ∧ run out body b c = .error ⟨x, b', c'⟩) ∨
        ∃ a c'', body b' c' = .ok (.inr a, c'') ∧ run out body b c = .ok (a, c'')) := by
  induction hn : c.rest.length using Nat.strongRecOn generalizing b c with
  | _ n ih =>
    subst hn
    rcases h : body b c with x | ⟨b' | a, c'⟩
    · exact ⟨b, c, .refl, .inl ⟨x, h, by rw [run_unfold hp, h]⟩⟩
    · obtain ⟨b₁, c₁, hr, hend⟩ := ih _ (hp _ _ _ _ h) b' c' rfl
      refine ⟨b₁, c₁, .head (show Round body (b, c) (b', c') from h) hr, ?_⟩
      have hrun : run out body b c = run out body b' c' := by rw [run_unfold hp, h]
      rw [hrun]
      exact hend
    · exact ⟨b, c, .refl, .inr ⟨a, c', h, by rw [run_unfold hp, h]⟩⟩

theorem run_error (hp : Progress body) {b : β} {c : Cursor τ σ} {s : Stopped ε τ σ β}
    (h : run out body b c = .error s) :
    Rounds body (b, c) (s.state, s.cursor) ∧ body s.state s.cursor = .error s.failure := by
  obtain ⟨b', c', hr, ⟨x, hx, hrun⟩ | ⟨a, c'', -, hrun⟩⟩ := run_spec out hp b c
  · rw [h] at hrun
    cases hrun
    exact ⟨hr, hx⟩
  · rw [h] at hrun
    cases hrun

/-! ## Firm results -/

/-- What is not a truncation stays as it is on longer input. -/
structure Firm (short : ε → Option Nat) (m : Scan ε τ σ α) : Prop where
  ok : ∀ {st d a c}, m ⟨st, d⟩ = .ok (a, c) → ∀ r, m ⟨st, d ++ r⟩ = .ok (a, ⟨c.st, c.rest ++ r⟩)
  hard : ∀ {st d x}, m ⟨st, d⟩ = .error x → short x = none → ∀ r, m ⟨st, d ++ r⟩ = .error x

variable {short : ε → Option Nat} {pos : σ → Nat}

theorem Stepwise.firm {m : Scan ε τ σ α} (hm : Stepwise short pos m) : Firm short m :=
  ⟨fun h r => hm.extend h r, hm.hard⟩

theorem Firm.bind {γ : Type} {m : Scan ε τ σ α} {k : α → Scan ε τ σ γ} (hm : Firm short m)
    (hk : ∀ a, Firm short (k a)) : Firm short (m >>= k) where
  ok {st d g c} h r := by
    obtain ⟨a, c₁, h₁, h₂⟩ := bind_ok h
    rw [bind_eq_of_ok (hm.ok h₁ r)]
    exact (hk a).ok h₂ r
  hard {st d x} h hx r := by
    rcases bind_error h with h₁ | ⟨a, c₁, h₁, h₂⟩
    · exact bind_eq_of_error (hm.hard h₁ hx r) _
    · rw [bind_eq_of_ok (hm.ok h₁ r)]
      exact (hk a).hard h₂ hx r

theorem Firm.const (r : Except ε α) :
    Firm short (fun c => r.map fun a => (a, c) : Scan ε τ σ α) where
  ok {st d a c} h e := by
    cases r with
    | error x => cases h
    | ok b =>
      cases h
      rfl
  hard {st d x} h _ e := by
    cases r with
    | error y => exact h
    | ok b => cases h

end Hardy.Scan
