import Mathlib.Tactic.Common

/-!
# Incremental scanners

A scanner reads a list of tokens from the front and keeps a little
bookkeeping of its own.  This module is the general theory of scanners
that can be *resumed*: a run on a truncated input either finishes, fails
for good, or asks for more tokens, and only the last kind of outcome can
change when the input grows.

`Stepwise short pos m` is the contract.  A success depends on nothing but
the tokens it consumed (`ok`); a failure that `short` does not classify as
truncation stays the same failure whatever follows (`hard`); a truncation
that asks for `k` more tokens really needs them (`wait`).  `Settles` is the
converse demand on truncations: some continuation ends them.

`Resumable` is both.  It is closed under sequencing and under loops whose
rounds consume input, so a decoder written with `next`, `take`, `>>=` and
`loop` inherits it clause by clause.
-/

namespace Hardy

/-- The unread input of a scanner together with its own bookkeeping. -/
structure Cursor (τ σ : Type) where
  st : σ
  rest : List τ

/-- A scanner: it fails with an `ε`, or returns a value and the cursor it
stopped at. -/
abbrev Scan (ε τ σ α : Type) := StateT (Cursor τ σ) (Except ε) α

/-- The outcome is a truncation: the error asks for more input. -/
def Waits {ε β : Type} (short : ε → Option Nat) (r : Except ε β) : Prop :=
  ∃ x k, r = .error x ∧ short x = some k

namespace Scan

variable {ε τ σ α β γ : Type}

@[simp] theorem pure_apply (a : α) (c : Cursor τ σ) :
    (pure a : Scan ε τ σ α) c = .ok (a, c) := rfl

@[simp] theorem throw_apply (x : ε) (c : Cursor τ σ) :
    (throw x : Scan ε τ σ α) c = .error x := rfl

theorem bind_apply (m : Scan ε τ σ α) (k : α → Scan ε τ σ β) (c : Cursor τ σ) :
    (m >>= k) c = match m c with
      | .error x => .error x
      | .ok (a, c') => k a c' := by
  show (m c >>= fun p => k p.1 p.2) = _
  cases m c <;> rfl

variable {m : Scan ε τ σ α} {k : α → Scan ε τ σ β} {c c' : Cursor τ σ}

theorem bind_ok {b : β} (h : (m >>= k) c = .ok (b, c')) :
    ∃ a c₁, m c = .ok (a, c₁) ∧ k a c₁ = .ok (b, c') := by
  rw [bind_apply] at h
  split at h
  · cases h
  · next a c₁ hm => exact ⟨a, c₁, hm, h⟩

theorem bind_ok_iff {b : β} :
    (m >>= k) c = .ok (b, c') ↔ ∃ a c₁, m c = .ok (a, c₁) ∧ k a c₁ = .ok (b, c') := by
  refine ⟨bind_ok, ?_⟩
  rintro ⟨a, c₁, h₁, h₂⟩
  rw [bind_apply, h₁]
  exact h₂

theorem pure_ok_iff {a b : α} : (pure a : Scan ε τ σ α) c = .ok (b, c') ↔ b = a ∧ c' = c :=
  ⟨fun h => by cases h; exact ⟨rfl, rfl⟩, fun ⟨hb, hc⟩ => by rw [hb, hc]; rfl⟩

variable {c : Cursor τ σ} {x : ε}

theorem bind_error (h : (m >>= k) c = .error x) :
    m c = .error x ∨ ∃ a c₁, m c = .ok (a, c₁) ∧ k a c₁ = .error x := by
  rw [bind_apply] at h
  split at h
  · next y hm => exact .inl (by rw [hm, Except.error.inj h])
  · next a c₁ hm => exact .inr ⟨a, c₁, hm, h⟩

theorem bind_eq_of_ok {c c₁ : Cursor τ σ} {a : α}
    (h : m c = .ok (a, c₁)) (k : α → Scan ε τ σ β) : (m >>= k) c = k a c₁ := by
  rw [bind_apply, h]

theorem bind_eq_of_error (h : m c = .error x) (k : α → Scan ε τ σ β) : (m >>= k) c = .error x := by
  rw [bind_apply, h]

/-! ## The contract -/

/-- A resumable scanner.  `pos` reads off the bookkeeping how many tokens
have been consumed; `short` says by how many tokens a failure fell short. -/
structure Stepwise (short : ε → Option Nat) (pos : σ → Nat) (m : Scan ε τ σ α) :
    Prop where
  ok : ∀ {st d a c}, m ⟨st, d⟩ = .ok (a, c) →
    ∃ u, d = u ++ c.rest ∧ pos c.st = pos st + u.length ∧
      ∀ r, m ⟨st, u ++ r⟩ = .ok (a, ⟨c.st, r⟩)
  hard : ∀ {st d x}, m ⟨st, d⟩ = .error x → short x = none →
    ∀ r, m ⟨st, d ++ r⟩ = .error x
  wait : ∀ {st d x k}, m ⟨st, d⟩ = .error x → short x = some k →
    0 < k ∧ ∀ r, r.length < k → Waits short (m ⟨st, d ++ r⟩)

/-- Every truncation of the scanner is ended by some continuation. -/
def Settles (short : ε → Option Nat) (m : Scan ε τ σ α) : Prop :=
  ∀ st d, ∃ r, ¬ Waits short (m ⟨st, d ++ r⟩)

/-- The scanner asks for one token when it has none: it never succeeds or
fails without looking at the input. -/
def Hungry (short : ε → Option Nat) (m : Scan ε τ σ α) : Prop :=
  ∀ st, ∃ x, m ⟨st, []⟩ = .error x ∧ short x = some 1

theorem not_waits_ok {short : ε → Option Nat} (b : β) :
    ¬ Waits short (.ok b : Except ε β) := by
  rintro ⟨x, k, h, -⟩
  cases h

theorem not_waits_error {short : ε → Option Nat} (h : short x = none) :
    ¬ Waits short (.error x : Except ε β) := by
  rintro ⟨y, k, hy, hk⟩
  cases hy
  rw [h] at hk
  cases hk

variable {short : ε → Option Nat} {pos : σ → Nat}

theorem Stepwise.extend (hm : Stepwise short pos m) {st : σ}
    {d : List τ} {a : α} (h : m ⟨st, d⟩ = .ok (a, c))
    (r : List τ) : m ⟨st, d ++ r⟩ = .ok (a, ⟨c.st, c.rest ++ r⟩) := by
  obtain ⟨u, hd, -, hu⟩ := hm.ok h
  rw [hd, List.append_assoc]
  exact hu (c.rest ++ r)

theorem Stepwise.consumes (hm : Stepwise short pos m)
    (hh : Hungry short m) {st : σ} {d : List τ} {a : α}
    (h : m ⟨st, d⟩ = .ok (a, c)) : c.rest.length < d.length := by
  obtain ⟨u, hd, -, hu⟩ := hm.ok h
  cases u with
  | nil =>
    obtain ⟨x, hx, -⟩ := hh st
    have := hu []
    rw [List.append_nil, hx] at this
    cases this
  | cons t u =>
    rw [hd]
    simp only [List.cons_append, List.length_cons, List.length_append]
    omega

/-! ## Sequencing -/

theorem Stepwise.cut (hm : Stepwise short pos m) {st : σ} {p q : List τ}
    {a : α} {st' : σ} (h : m ⟨st, p ++ q⟩ = .ok (a, ⟨st', []⟩)) (hq : q ≠ []) :
    ∃ x k, m ⟨st, p⟩ = .error x ∧ short x = some k ∧ 0 < k ∧ k ≤ q.length := by
  rcases hp : m ⟨st, p⟩ with x | ⟨b, c⟩
  · cases hx : short x with
    | none =>
      rw [hm.hard hp hx q] at h
      cases h
    | some k =>
      obtain ⟨hpos, hwait⟩ := hm.wait hp hx
      refine ⟨x, k, rfl, hx, hpos, ?_⟩
      by_contra hlt
      have := hwait q (Nat.lt_of_not_le hlt)
      rw [h] at this
      exact not_waits_ok _ this
  · obtain ⟨u, hu, -, hall⟩ := hm.ok hp
    have hlong := hall (c.rest ++ q)
    rw [← List.append_assoc, ← hu, h] at hlong
    obtain ⟨-, hc⟩ := Prod.mk.inj (Except.ok.inj hlong)
    have hnil := congrArg Cursor.rest hc
    exact absurd (List.append_eq_nil_iff.mp hnil.symm).2 hq

theorem Stepwise.pure (a : α) : Stepwise short pos (pure a : Scan ε τ σ α) where
  ok h := by
    cases h
    exact ⟨[], rfl, rfl, fun r => rfl⟩
  hard h := by cases h
  wait h := by cases h

theorem Stepwise.throw (hx : short x = none) : Stepwise short pos (throw x : Scan ε τ σ α) where
  ok h := by cases h
  hard h _ r := by
    cases h
    rfl
  wait h hk := by
    cases h
    rw [hx] at hk
    cases hk

theorem Stepwise.bind (hm : Stepwise short pos m) (hk : ∀ a, Stepwise short pos (k a)) :
    Stepwise short pos (m >>= k) where
  ok {st d b c} h := by
    obtain ⟨a, ⟨st₁, d₁⟩, h₁, h₂⟩ := bind_ok h
    obtain ⟨u₁, hd₁, hp₁, hu₁⟩ := hm.ok h₁
    obtain ⟨u₂, hd₂, hp₂, hu₂⟩ := (hk a).ok h₂
    refine ⟨u₁ ++ u₂, ?_, ?_, fun r => ?_⟩
    · rw [List.append_assoc, ← hd₂]
      exact hd₁
    · simp only [List.length_append] at *
      omega
    · rw [List.append_assoc, bind_eq_of_ok (hu₁ (u₂ ++ r))]
      exact hu₂ r
  hard {st d x} h hx r := by
    rcases bind_error h with h₁ | ⟨a, ⟨st₁, d₁⟩, h₁, h₂⟩
    · exact bind_eq_of_error (hm.hard h₁ hx r) k
    · rw [bind_eq_of_ok (hm.extend h₁ r)]
      exact (hk a).hard h₂ hx r
  wait {st d x n} h hx := by
    rcases bind_error h with h₁ | ⟨a, ⟨st₁, d₁⟩, h₁, h₂⟩
    · refine ⟨(hm.wait h₁ hx).1, fun r hr => ?_⟩
      obtain ⟨y, j, hy, hj⟩ := (hm.wait h₁ hx).2 r hr
      exact ⟨y, j, bind_eq_of_error hy k, hj⟩
    · refine ⟨((hk a).wait h₂ hx).1, fun r hr => ?_⟩
      rw [bind_eq_of_ok (hm.extend h₁ r)]
      exact ((hk a).wait h₂ hx).2 r hr

theorem Settles.pure (a : α) : Settles short (pure a : Scan ε τ σ α) :=
  fun _ _ => ⟨[], not_waits_ok _⟩

theorem Settles.throw (hx : short x = none) : Settles short (throw x : Scan ε τ σ α) :=
  fun _ _ => ⟨[], not_waits_error hx⟩

theorem Settles.bind (hs : Stepwise short pos m) (hm : Settles short m)
    (hk : ∀ a, Settles short (k a)) : Settles short (m >>= k) := by
  intro st d
  obtain ⟨r, hr⟩ := hm st d
  cases h : m ⟨st, d ++ r⟩ with
  | error x =>
    refine ⟨r, ?_⟩
    rw [bind_eq_of_error h]
    rintro ⟨y, j, hy, hj⟩
    cases hy
    exact hr ⟨x, j, h, hj⟩
  | ok p =>
    obtain ⟨a, c⟩ := p
    obtain ⟨r', hr'⟩ := hk a c.st c.rest
    refine ⟨r ++ r', ?_⟩
    rw [← List.append_assoc, bind_eq_of_ok (hs.extend h r')]
    exact hr'

theorem Settles.exactly (hm : Settles short m) (hs : Stepwise short pos m)
    {st : σ} {d : List τ} (hw : Waits short (m ⟨st, d⟩)) :
    ∃ r, (∃ x, m ⟨st, d ++ r⟩ = .error x ∧ short x = none) ∨
      ∃ a st', m ⟨st, d ++ r⟩ = .ok (a, ⟨st', []⟩) := by
  obtain ⟨r, hr⟩ := hm st d
  rcases h : m ⟨st, d ++ r⟩ with x | ⟨a, c⟩
  · refine ⟨r, .inl ⟨x, h, ?_⟩⟩
    cases hx : short x with
    | none => rfl
    | some k => exact absurd ⟨x, k, h, hx⟩ hr
  · -- the scanner needed some of `r`, so it can be given exactly what it consumes
    obtain ⟨u, hd, -, hu⟩ := hs.ok h
    obtain ⟨v, rfl⟩ : ∃ v, u = d ++ v := by
      rcases List.append_eq_append_iff.mp hd with ⟨v, hv, -⟩ | ⟨v, hv, -⟩
      · exact ⟨v, hv⟩
      · rw [hv, hu v] at hw
        exact absurd hw (not_waits_ok _)
    refine ⟨v, .inr ⟨a, c.st, ?_⟩⟩
    have := hu []
    rwa [List.append_nil] at this

theorem Hungry.bind (hm : Hungry short m) (k : α → Scan ε τ σ β) : Hungry short (m >>= k) := by
  intro st
  obtain ⟨x, hx, h1⟩ := hm st
  exact ⟨x, bind_eq_of_error hx k, h1⟩

/-! ## Reading tokens -/

/-- Read one token; `eof` when there is none. -/
def next (adv : σ → Nat → σ) (eof : ε) : Scan ε τ σ τ := fun c =>
  match c.rest with
  | [] => .error eof
  | t :: d => .ok (t, ⟨adv c.st 1, d⟩)

/-- Read exactly `n` tokens; `eof k` when `k` of them are missing. -/
def take (adv : σ → Nat → σ) (eof : Nat → ε) (n : Nat) : Scan ε τ σ (List τ) := fun c =>
  if c.rest.length < n then .error (eof (n - c.rest.length))
  else .ok (c.rest.take n, ⟨adv c.st n, c.rest.drop n⟩)

def look (f : σ → α) : Scan ε τ σ α := fun c => .ok (f c.st, c)

theorem Hungry.look {f : σ → α} (hk : ∀ a, Hungry short (k a)) : Hungry short (look f >>= k) :=
  fun st => hk (f st) st

theorem look_stepwise (f : σ → α) : Stepwise short pos (look f : Scan ε τ σ α) where
  ok h := by
    cases h
    exact ⟨[], rfl, rfl, fun r => rfl⟩
  hard h := by cases h
  wait h := by cases h

theorem next_stepwise {adv : σ → Nat → σ} {eof : ε}
    (hadv : ∀ st n, pos (adv st n) = pos st + n) (heof : short eof = some 1) :
    Stepwise short pos (next adv eof : Scan ε τ σ τ) where
  ok {st d a c} h := by
    cases d with
    | nil => cases h
    | cons t d =>
      cases h
      exact ⟨[_], rfl, hadv st 1, fun r => rfl⟩
  hard {st d x} h hx := by
    cases d with
    | nil =>
      cases h
      rw [heof] at hx
      cases hx
    | cons t d => cases h
  wait {st d x k} h hk := by
    cases d with
    | nil =>
      cases h
      rw [heof] at hk
      cases hk
      refine ⟨Nat.one_pos, fun r hr => ⟨eof, 1, ?_, heof⟩⟩
      rw [List.length_eq_zero_iff.mp (Nat.lt_one_iff.mp hr)]
      rfl
    | cons t d => cases h

theorem take_stepwise {adv : σ → Nat → σ} {eof : Nat → ε}
    (hadv : ∀ st n, pos (adv st n) = pos st + n)
    (heof : ∀ k, short (eof k) = some k) (n : Nat) :
    Stepwise short pos (take adv eof n : Scan ε τ σ (List τ)) where
  ok {st d a c} h := by
    simp only [take] at h
    split at h
    · cases h
    · next hn =>
        cases h
        have hlen : (d.take n).length = n := List.length_take_of_le (Nat.not_lt.mp hn)
        refine ⟨d.take n, (List.take_append_drop n d).symm, ?_, fun r => ?_⟩
        · rw [hlen]
          exact hadv st n
        · simp only [take]
          rw [if_neg (by rw [List.length_append, hlen]; omega),
            List.take_left' hlen, List.drop_left' hlen]
  hard {st d x} h hx := by
    simp only [take] at h
    split at h
    · cases h
      rw [heof] at hx
      cases hx
    · cases h
  wait {st d x k} h hk := by
    simp only [take] at h
    split at h
    · next hn =>
        cases h
        rw [heof] at hk
        cases hk
        refine ⟨Nat.sub_pos_of_lt hn, fun r hr => ?_⟩
        have hlt : (d ++ r).length < n := by
          rw [List.length_append]
          omega
        exact ⟨_, _, if_pos hlt, heof _⟩
    · cases h

/-- Choose by the next token without consuming it; `no` also gets the empty
input. -/
def onNext (p : τ → Bool) (yes no : Scan ε τ σ α) : Scan ε τ σ α := fun c =>
  match c.rest with
  | [] => no c
  | t :: _ => if p t then yes c else no c

def Eats (m : Scan ε τ σ α) : Prop :=
  ∀ st d a c, m ⟨st, d⟩ = .ok (a, c) → c.rest.length < d.length

theorem onNext_cons (p : τ → Bool) (yes no : Scan ε τ σ α) (st : σ) (t : τ)
    (d : List τ) :
    onNext p yes no ⟨st, t :: d⟩ = if p t then yes ⟨st, t :: d⟩ else no ⟨st, t :: d⟩ :=
  rfl

variable {yes no : Scan ε τ σ α}

theorem onNext_stepwise {p : τ → Bool}
    (hy : Stepwise short pos yes) (hye : Eats yes) (hn : Stepwise short pos no)
    (hnh : Hungry short no) : Stepwise short pos (onNext p yes no) where
  ok {st d a c} h := by
    cases d with
    | nil =>
      obtain ⟨x, hx, -⟩ := hnh st
      exact absurd (hx.symm.trans h) (by simp)
    | cons t d =>
      -- the decision is kept because at least its token was consumed
      obtain ⟨u, hd, hpos, hu⟩ : ∃ u, t :: d = u ++ c.rest ∧
          pos c.st = pos st + u.length ∧
          ∀ r, (if p t then yes else no) ⟨st, u ++ r⟩ = .ok (a, ⟨c.st, r⟩) := by
        rw [onNext_cons] at h
        by_cases hp : p t = true
        · simp only [if_pos hp] at h ⊢
          exact hy.ok h
        · simp only [if_neg hp] at h ⊢
          exact hn.ok h
      have hlt : c.rest.length < (t :: d).length := by
        rw [onNext_cons] at h
        split at h
        · exact hye _ _ _ _ h
        · exact hn.consumes hnh h
      refine ⟨u, hd, hpos, fun r => ?_⟩
      cases u with
      | nil =>
        rw [hd] at hlt
        exact absurd hlt (Nat.lt_irrefl _)
      | cons t' u =>
        obtain ⟨rfl, -⟩ := List.cons.inj hd
        rw [List.cons_append, onNext_cons]
        by_cases hp : p t = true
        · simpa only [if_pos hp, List.cons_append] using hu r
        · simpa only [if_neg hp, List.cons_append] using hu r
  hard {st d x} h hx r := by
    cases d with
    | nil =>
      obtain ⟨y, hy', h1⟩ := hnh st
      cases hy'.symm.trans h
      rw [h1] at hx
      cases hx
    | cons t d =>
      rw [onNext_cons] at h
      rw [List.cons_append, onNext_cons]
      split at h
      · next hp =>
          rw [if_pos hp]
          exact hy.hard h hx r
      · next hp =>
          rw [if_neg hp]
          exact hn.hard h hx r
  wait {st d x k} h hk := by
    cases d with
    | nil =>
      obtain ⟨y, hy', h1⟩ := hnh st
      cases hy'.symm.trans h
      rw [h1] at hk
      cases hk
      refine ⟨Nat.one_pos, fun r hr => ?_⟩
      rw [List.length_eq_zero_iff.mp (Nat.lt_one_iff.mp hr)]
      exact ⟨x, 1, h, h1⟩
    | cons t d =>
      rw [onNext_cons] at h
      simp only [List.cons_append, onNext_cons]
      split at h
      · next hp =>
          simp only [if_pos hp]
          exact hy.wait h hk
      · next hp =>
          simp only [if_neg hp]
          exact hn.wait h hk

theorem onNext_settles [Inhabited τ] {p : τ → Bool}
    (hy : Settles short yes) (hn : Settles short no) : Settles short (onNext p yes no) := by
  have hcons : ∀ st t d, ∃ r, ¬ Waits short (onNext p yes no ⟨st, t :: d ++ r⟩) := by
    intro st t d
    simp only [List.cons_append, onNext_cons]
    split
    · exact hy st (t :: d)
    · exact hn st (t :: d)
  intro st d
  cases d with
  | nil =>
    obtain ⟨r, hr⟩ := hcons st default []
    exact ⟨default :: r, hr⟩
  | cons t d => exact hcons st t d

theorem Eats.bind (hm : Eats m) (hk : ∀ a, Stepwise short pos (k a)) : Eats (m >>= k) := by
  intro st d b c h
  obtain ⟨a, ⟨st₁, d₁⟩, h₁, h₂⟩ := bind_ok h
  obtain ⟨u, hd, -⟩ := (hk a).ok h₂
  have := hm _ _ _ _ h₁
  simp only [hd, List.length_append] at this
  omega

theorem Eats.throw (x : ε) : Eats (throw x : Scan ε τ σ α) :=
  fun _ _ _ _ h => by cases h

theorem next_settles [Inhabited τ] (adv : σ → Nat → σ) (eof : ε) :
    Settles short (next adv eof : Scan ε τ σ τ) := by
  intro st d
  refine ⟨[default], ?_⟩
  cases d with
  | nil => exact not_waits_ok (default, _)
  | cons t d => exact not_waits_ok (t, _)

theorem take_settles [Inhabited τ] (adv : σ → Nat → σ) (eof : Nat → ε) (n : Nat) :
    Settles short (take adv eof n : Scan ε τ σ (List τ)) := by
  intro st d
  refine ⟨List.replicate n default, ?_⟩
  simp only [take]
  rw [if_neg (by simp only [List.length_append, List.length_replicate]; omega)]
  exact not_waits_ok _

/-! ## Changing the error type and the bookkeeping -/

def mapErr {ε' : Type} (f : ε → ε') (m : Scan ε τ σ α) : Scan ε' τ σ α := fun c =>
  match m c with
  | .error x => .error (f x)
  | .ok r => .ok r

/-- Run a scanner with bookkeeping of its own on the unread input and enter
what it did with `stop` afterwards. -/
def within {σ' : Type} (start : σ → σ') (stop : σ → σ' → σ) (m : Scan ε τ σ' α) :
    Scan ε τ σ α := fun c =>
  match m ⟨start c.st, c.rest⟩ with
  | .error x => .error x
  | .ok (a, c') => .ok (a, ⟨stop c.st c'.st, c'.rest⟩)

section Translation

variable {ε' σ' : Type} {short' : ε' → Option Nat} {pos' : σ' → Nat}

variable {f : ε → ε'}

theorem mapErr_ok {a : α} : mapErr f m c = .ok (a, c') ↔ m c = .ok (a, c') := by
  rw [mapErr]
  rcases m c with x | r <;> simp

theorem mapErr_error {y : ε'} : mapErr f m c = .error y ↔ ∃ x, m c = .error x ∧ f x = y := by
  rw [mapErr]
  rcases m c with x | r <;> simp

theorem mapErr_waits (hf : ∀ x, short' (f x) = short x) :
    Waits short' (mapErr f m c) ↔ Waits short (m c) := by
  constructor
  · rintro ⟨y, k, hy, hk⟩
    obtain ⟨x, hx, rfl⟩ := mapErr_error.mp hy
    exact ⟨x, k, hx, by rw [← hf, hk]⟩
  · rintro ⟨x, k, hx, hk⟩
    exact ⟨f x, k, mapErr_error.mpr ⟨x, hx, rfl⟩, by rw [hf, hk]⟩

theorem Stepwise.mapErr (hf : ∀ x, short' (f x) = short x) (hm : Stepwise short pos m) :
    Stepwise short' pos (mapErr f m) where
  ok h := by
    obtain ⟨u, hd, hp, hu⟩ := hm.ok (mapErr_ok.mp h)
    exact ⟨u, hd, hp, fun r => mapErr_ok.mpr (hu r)⟩
  hard h hy r := by
    obtain ⟨x, hx, rfl⟩ := mapErr_error.mp h
    exact mapErr_error.mpr ⟨x, hm.hard hx (by rw [← hf, hy]) r, rfl⟩
  wait h hk := by
    obtain ⟨x, hx, rfl⟩ := mapErr_error.mp h
    obtain ⟨hpos, hr⟩ := hm.wait hx (by rw [← hf, hk])
    exact ⟨hpos, fun r hlt => (mapErr_waits hf).mpr (hr r hlt)⟩

theorem Settles.mapErr (hf : ∀ x, short' (f x) = short x) (hm : Settles short m) : Settles short'
    (mapErr f m) := by
  intro st d
  obtain ⟨r, hr⟩ := hm st d
  exact ⟨r, fun hw => hr ((mapErr_waits hf).mp hw)⟩

theorem Hungry.mapErr (hf : ∀ x, short' (f x) = short x) (hm : Hungry short m) : Hungry short'
    (mapErr f m) := by
  intro st
  obtain ⟨x, hx, h1⟩ := hm st
  exact ⟨f x, mapErr_error.mpr ⟨x, hx, rfl⟩, by rw [hf, h1]⟩

variable {stop : σ → σ' → σ} {m : Scan ε τ σ' α} {start : σ → σ'}

theorem within_ok {st : σ} {d : List τ} {a : α} :
    within start stop m ⟨st, d⟩ = .ok (a, c) ↔
      ∃ st', m ⟨start st, d⟩ = .ok (a, ⟨st', c.rest⟩) ∧ c.st = stop st st' := by
  obtain ⟨cst, crest⟩ := c
  rw [within]
  rcases h : m ⟨start st, d⟩ with x | ⟨a', c'⟩
  · simp
  · constructor
    · intro h'
      cases h'
      exact ⟨c'.st, rfl, rfl⟩
    · rintro ⟨st', h', rfl⟩
      cases h'
      rfl

theorem within_error {st : σ} {d : List τ} :
    within start stop m ⟨st, d⟩ = .error x ↔ m ⟨start st, d⟩ = .error x := by
  rw [within]
  rcases m ⟨start st, d⟩ with y | ⟨a, c⟩ <;> simp

theorem within_waits {st : σ} {d : List τ} :
    Waits short (within start stop m ⟨st, d⟩) ↔ Waits short (m ⟨start st, d⟩) := by
  simp only [Waits, within_error]

theorem Stepwise.within
    (hpos : ∀ st st' n, pos' st' = pos' (start st) + n → pos (stop st st') = pos st + n)
    (hm : Stepwise short pos' m) :
    Stepwise short pos (within start stop m) where
  ok {st d a c} h := by
    obtain ⟨st', h', hst⟩ := within_ok.mp h
    obtain ⟨u, hd, hp, hu⟩ := hm.ok h'
    refine ⟨u, hd, ?_, fun r => within_ok.mpr ⟨st', hu r, hst⟩⟩
    rw [hst]
    exact hpos _ _ _ hp
  hard h hx r := within_error.mpr (hm.hard (within_error.mp h) hx r)
  wait h hk := by
    obtain ⟨h0, hr⟩ := hm.wait (within_error.mp h) hk
    exact ⟨h0, fun r hlt => within_waits.mpr (hr r hlt)⟩

theorem Settles.within (hm : Settles short m) : Settles short (within start stop m) := by
  intro st d
  obtain ⟨r, hr⟩ := hm (start st) d
  exact ⟨r, fun hw => hr (within_waits.mp hw)⟩

theorem Hungry.within (hm : Hungry short m) : Hungry short (within start stop m) := by
  intro st
  obtain ⟨x, hx, h1⟩ := hm (start st)
  exact ⟨x, within_error.mpr hx, h1⟩

end Translation

/-! ## Loops

The body either asks for another round or stops with a value.  A round that
asks for another one has consumed input, so the unread length bounds the
number of rounds and the fuel is never used up. -/

def loopFuel (out : ε) (body : β → Scan ε τ σ (β ⊕ α)) : Nat → β → Scan ε τ σ α
  | 0, _ => throw out
  | n + 1, b => do
      match ← body b with
      | .inl b' => loopFuel out body n b'
      | .inr a => pure a

/-- Run `body` until it stops. -/
def loop (out : ε) (body : β → Scan ε τ σ (β ⊕ α)) (b : β) : Scan ε τ σ α :=
  fun c => loopFuel out body (c.rest.length + 1) b c

/-- Another round is only asked for after consuming input. -/
def Progress (body : β → Scan ε τ σ (β ⊕ α)) : Prop :=
  ∀ b b' c c', body b c = .ok (.inl b', c') → c'.rest.length < c.rest.length

theorem loopFuel_succ (out : ε) (body : β → Scan ε τ σ (β ⊕ α)) (n : Nat) (b : β)
    (c : Cursor τ σ) :
    loopFuel out body (n + 1) b c = match body b c with
      | .error x => .error x
      | .ok (.inl b', c') => loopFuel out body n b' c'
      | .ok (.inr a, c') => .ok (a, c') := by
  rw [loopFuel, bind_apply]
  rcases body b c with x | ⟨b' | a, c'⟩ <;> rfl

variable {body : β → Scan ε τ σ (β ⊕ α)} {out : ε}

theorem loopFuel_irrelevant
    (hp : Progress body) : ∀ {n m : Nat} {b : β} {c : Cursor τ σ},
      c.rest.length < n → c.rest.length < m →
      loopFuel out body n b c = loopFuel out body m b c
  | 0, _, _, _, h, _ => absurd h (Nat.not_lt_zero _)
  | _, 0, _, _, _, h => absurd h (Nat.not_lt_zero _)
  | n + 1, m + 1, b, c, hn, hm => by
      rw [loopFuel_succ, loopFuel_succ]
      cases h : body b c with
      | error x => rfl
      | ok p =>
        obtain ⟨b' | a, c'⟩ := p
        · have := hp _ _ _ _ h
          exact loopFuel_irrelevant hp (by omega) (by omega)
        · rfl

theorem loop_unfold (hp : Progress body) (b : β) (c : Cursor τ σ) :
    loop out body b c = match body b c with
      | .error x => .error x
      | .ok (.inl b', c') => loop out body b' c'
      | .ok (.inr a, c') => .ok (a, c') := by
  rw [loop, loopFuel_succ]
  cases h : body b c with
  | error x => rfl
  | ok p =>
    obtain ⟨b' | a, c'⟩ := p
    · exact loopFuel_irrelevant hp (hp _ _ _ _ h) (Nat.lt_succ_self _)
    · rfl

theorem loop_of_stop (hp : Progress body)
    {b : β} {a : α} (h : body b c = .ok (.inr a, c')) : loop out body b c = .ok (a, c') := by
  rw [loop_unfold hp, h]

theorem loop_of_continue (hp : Progress body) {b b' : β}
    (h : body b c = .ok (.inl b', c')) : loop out body b c = loop out body b' c' := by
  rw [loop_unfold hp, h]

theorem loop_of_error (hp : Progress body)
    {b : β} (h : body b c = .error x) : loop out body b c = .error x := by
  rw [loop_unfold hp, h]

theorem loop_invariant (hp : Progress body) {P : β → Cursor τ σ → Prop} {Q : α → Cursor τ σ → Prop}
    (hround : ∀ {b b' c c'}, P b c → body b c = .ok (.inl b', c') → P b' c')
    (hstop : ∀ {b a c c'}, P b c → body b c = .ok (.inr a, c') → Q a c') :
    ∀ {n : Nat} {b : β} {a : α} {c c' : Cursor τ σ}, c.rest.length < n → P b c →
      loop out body b c = .ok (a, c') → Q a c'
  | 0, _, _, _, _, h, _, _ => absurd h (Nat.not_lt_zero _)
  | n + 1, b, a, c, c', hn, hb, h => by
      rw [loop_unfold hp] at h
      cases hbody : body b c with
      | error x =>
        rw [hbody] at h
        cases h
      | ok p =>
        obtain ⟨b' | a', c₁⟩ := p
        · rw [hbody] at h
          have := hp _ _ _ _ hbody
          exact loop_invariant hp hround hstop (n := n) (by omega)
            (hround hb hbody) h
        · rw [hbody] at h
          cases h
          exact hstop hb hbody

section LoopContract

variable {out : ε} {body : β → Scan ε τ σ (β ⊕ α)}

theorem loop_ok (hp : Progress body) (hb : ∀ b, Stepwise short pos (body b)) :
    ∀ {n : Nat} {b : β} {st : σ} {d : List τ} {a : α} {c : Cursor τ σ},
      d.length < n → loop out body b ⟨st, d⟩ = .ok (a, c) →
      ∃ u, d = u ++ c.rest ∧ pos c.st = pos st + u.length ∧
        ∀ r, loop out body b ⟨st, u ++ r⟩ = .ok (a, ⟨c.st, r⟩)
  | 0, _, _, _, _, _, hn, _ => absurd hn (Nat.not_lt_zero _)
  | n + 1, b, st, d, a, c, hn, h => by
      rw [loop_unfold hp] at h
      cases hbody : body b ⟨st, d⟩ with
      | error x =>
        rw [hbody] at h
        cases h
      | ok p =>
        obtain ⟨b' | a', ⟨st₁, d₁⟩⟩ := p
        · rw [hbody] at h
          have hlt : d₁.length < d.length := hp _ _ _ _ hbody
          obtain ⟨u₁, hd₁, hp₁, hu₁⟩ := (hb b).ok hbody
          obtain ⟨u₂, hd₂, hp₂, hu₂⟩ := loop_ok hp hb (n := n) (by omega) h
          refine ⟨u₁ ++ u₂, ?_, ?_, fun r => ?_⟩
          · rw [List.append_assoc, ← hd₂]
            exact hd₁
          · simp only [List.length_append] at *
            omega
          · rw [List.append_assoc, loop_of_continue hp (hu₁ (u₂ ++ r))]
            exact hu₂ r
        · rw [hbody] at h
          cases h
          obtain ⟨u, hd, hpos, hu⟩ := (hb b).ok hbody
          exact ⟨u, hd, hpos, fun r => loop_of_stop hp (hu r)⟩

theorem loop_error (hp : Progress body) (hb : ∀ b, Stepwise short pos (body b)) :
    ∀ {n : Nat} {b : β} {st : σ} {d : List τ} {x : ε},
      d.length < n → loop out body b ⟨st, d⟩ = .error x →
      ∃ b' st' d', body b' ⟨st', d'⟩ = .error x ∧
        ∀ r, loop out body b ⟨st, d ++ r⟩ = loop out body b' ⟨st', d' ++ r⟩
  | 0, _, _, _, _, hn, _ => absurd hn (Nat.not_lt_zero _)
  | n + 1, b, st, d, x, hn, h => by
      rw [loop_unfold hp] at h
      cases hbody : body b ⟨st, d⟩ with
      | error y =>
        rw [hbody] at h
        cases h
        exact ⟨b, st, d, hbody, fun r => rfl⟩
      | ok p =>
        obtain ⟨b' | a', ⟨st₁, d₁⟩⟩ := p
        · rw [hbody] at h
          have hlt : d₁.length < d.length := hp _ _ _ _ hbody
          obtain ⟨b₂, st₂, d₂, hx, hr⟩ := loop_error hp hb (n := n) (by omega) h
          refine ⟨b₂, st₂, d₂, hx, fun r => ?_⟩
          rw [loop_of_continue hp ((hb b).extend hbody r)]
          exact hr r
        · rw [hbody] at h
          cases h

theorem loop_stepwise (hp : Progress body) (hb : ∀ b, Stepwise short pos (body b))
    (b : β) : Stepwise short pos (loop out body b) where
  ok h := loop_ok hp hb (Nat.lt_succ_self _) h
  hard {st d x} h hx r := by
    obtain ⟨b', st', d', hbody, hr⟩ := loop_error hp hb (Nat.lt_succ_self _) h
    rw [hr r]
    exact loop_of_error hp ((hb b').hard hbody hx r)
  wait {st d x k} h hk := by
    obtain ⟨b', st', d', hbody, hr⟩ := loop_error hp hb (Nat.lt_succ_self _) h
    refine ⟨((hb b').wait hbody hk).1, fun r hlt => ?_⟩
    obtain ⟨y, j, hy, hj⟩ := ((hb b').wait hbody hk).2 r hlt
    rw [hr r]
    exact ⟨y, j, loop_of_error hp hy, hj⟩

theorem loop_settles (hp : Progress body) (hb : ∀ b, Stepwise short pos (body b))
    (hs : ∀ b, Settles short (body b))
    (hend : ∀ b st, ∃ r, ¬ Waits short (loop out body b ⟨st, r⟩)) (b : β) :
    Settles short (loop out body b) := by
  intro st d
  cases h : loop out body b ⟨st, d⟩ with
  | ok p => exact ⟨[], by rw [List.append_nil, h]; exact not_waits_ok p⟩
  | error x =>
    cases hx : short x with
    | none => exact ⟨[], by rw [List.append_nil, h]; exact not_waits_error hx⟩
    | some k =>
      obtain ⟨b₁, st₁, d₁, hbody, hr⟩ := loop_error hp hb (Nat.lt_succ_self _) h
      obtain ⟨r, ⟨y, hy, hhard⟩ | ⟨b₂ | a, st₂, hround⟩⟩ :=
        (hs b₁).exactly (hb b₁) ⟨x, k, hbody, hx⟩
      · refine ⟨r, ?_⟩
        rw [hr r, loop_of_error hp hy]
        exact not_waits_error hhard
      · obtain ⟨r', hw'⟩ := hend b₂ st₂
        refine ⟨r ++ r', ?_⟩
        rw [hr (r ++ r'), ← List.append_assoc,
          loop_of_continue hp ((hb b₁).extend hround r')]
        exact hw'
      · refine ⟨r, ?_⟩
        rw [hr r, loop_of_stop hp hround]
        exact not_waits_ok _

end LoopContract

/-! ## Resumable scanners -/

structure Resumable (short : ε → Option Nat) (pos : σ → Nat) (m : Scan ε τ σ α) :
    Prop where
  stepwise : Stepwise short pos m
  settles : Settles short m

namespace Resumable

theorem pure (a : α) : Resumable short pos (pure a : Scan ε τ σ α) :=
  ⟨.pure a, .pure a⟩

theorem throw (hx : short x = none) : Resumable short pos (throw x : Scan ε τ σ α) :=
  ⟨.throw hx, .throw hx⟩

theorem look (f : σ → α) : Resumable short pos (look f : Scan ε τ σ α) :=
  ⟨look_stepwise f, fun _ _ => ⟨[], not_waits_ok _⟩⟩

theorem bind (hm : Resumable short pos m)
    (hk : ∀ a, Resumable short pos (k a)) : Resumable short pos (m >>= k) :=
  ⟨.bind hm.stepwise fun a => (hk a).stepwise,
    .bind hm.stepwise hm.settles fun a => (hk a).settles⟩

theorem map (hm : Resumable short pos m) (f : α → β) :
    Resumable short pos (m >>= fun a => Pure.pure (f a)) :=
  hm.bind fun a => .pure (f a)

theorem mapErr {ε' : Type} {short' : ε' → Option Nat} {f : ε → ε'}
    (hf : ∀ x, short' (f x) = short x) (hm : Resumable short pos m) :
    Resumable short' pos (mapErr f m) :=
  ⟨.mapErr hf hm.stepwise, .mapErr hf hm.settles⟩

theorem within {σ' : Type} {pos' : σ' → Nat} {start : σ → σ'} {stop : σ → σ' → σ}
    (hpos : ∀ st st' n, pos' st' = pos' (start st) + n → pos (stop st st') = pos st + n)
    {m : Scan ε τ σ' α} (hm : Resumable short pos' m) :
    Resumable short pos (within start stop m) :=
  ⟨.within hpos hm.stepwise, .within hm.settles⟩

theorem onNext [Inhabited τ] {p : τ → Bool}
    (hy : Resumable short pos yes) (hye : Eats yes) (hn : Resumable short pos no)
    (hnh : Hungry short no) : Resumable short pos (onNext p yes no) :=
  ⟨onNext_stepwise hy.stepwise hye hn.stepwise hnh, onNext_settles hy.settles hn.settles⟩

theorem eats (hm : Resumable short pos m) (hh : Hungry short m) : Eats m :=
  fun _ _ _ _ h => hm.stepwise.consumes hh h

theorem loop (hp : Progress body) (hb : ∀ b, Resumable short pos (body b))
    (hend : ∀ b st, ∃ r, ¬ Waits short (loop out body b ⟨st, r⟩)) (b : β) :
    Resumable short pos (loop out body b) :=
  ⟨loop_stepwise hp (fun b => (hb b).stepwise) b,
    loop_settles hp (fun b => (hb b).stepwise) (fun b => (hb b).settles) hend b⟩

theorem relabel {m m' : Scan ε τ σ α} (hm : Resumable short pos m)
    (h : ∀ c, m' c = m c ∨
      ∃ x y k, m c = .error x ∧ m' c = .error y ∧ short x = some k ∧ short y = some k) :
    Resumable short pos m' := by
  have hwaits : ∀ c, Waits short (m' c) ↔ Waits short (m c) := by
    intro c
    rcases h c with he | ⟨x, y, k, hx, hy, hkx, hky⟩
    · rw [he]
    · exact ⟨fun _ => ⟨x, k, hx, hkx⟩, fun _ => ⟨y, k, hy, hky⟩⟩
  -- what is not a truncation is the same in both
  have hsame : ∀ c, ¬ Waits short (m c) → m' c = m c := by
    intro c hc
    rcases h c with he | ⟨x, -, k, hx, -, hkx, -⟩
    · exact he
    · exact absurd ⟨x, k, hx, hkx⟩ hc
  have hok : ∀ c a c', m' c = .ok (a, c') ↔ m c = .ok (a, c') := by
    intro c a c'
    rcases h c with he | ⟨x, y, -, hx, hy, -, -⟩
    · rw [he]
    · simp [hx, hy]
  refine ⟨⟨fun {st d a c} hr => ?_, fun {st d x} hr hx r => ?_, fun {st d y k} hr hk => ?_⟩,
    fun st d => ?_⟩
  · obtain ⟨u, hd, hpos, hu⟩ := hm.stepwise.ok ((hok _ _ _).mp hr)
    exact ⟨u, hd, hpos, fun r => (hok _ _ _).mpr (hu r)⟩
  · have hnot : ¬ Waits short (m ⟨st, d⟩) := by
      rw [← hwaits, hr]
      exact not_waits_error hx
    have hr' := hm.stepwise.hard (by rw [← hsame _ hnot, hr]) hx r
    rw [hsame _ (by rw [hr']; exact not_waits_error hx), hr']
  · have hx : ∃ x, m ⟨st, d⟩ = .error x ∧ short x = some k := by
      rcases h ⟨st, d⟩ with he | ⟨x, y', k', hx, hy, hkx, hky⟩
      · exact ⟨y, by rw [← he, hr], hk⟩
      · rw [hr] at hy
        cases hy
        rw [hk] at hky
        cases hky
        exact ⟨x, hx, hkx⟩
    obtain ⟨x, hx, hkx⟩ := hx
    obtain ⟨hpos, hw⟩ := hm.stepwise.wait hx hkx
    exact ⟨hpos, fun r hlt => (hwaits _).mpr (hw r hlt)⟩
  · obtain ⟨r, hr⟩ := hm.settles st d
    exact ⟨r, fun hw => hr ((hwaits _).mp hw)⟩

end Resumable

/-! ## What a success returns -/

/-- Every success returns a value with the property. -/
def Yields (m : Scan ε τ σ α) (P : α → Prop) : Prop :=
  ∀ c a c', m c = .ok (a, c') → P a

namespace Yields

variable {m : Scan ε τ σ α} {P : α → Prop}

theorem pure {a : α} (h : P a) : Yields (pure a : Scan ε τ σ α) P := by
  intro c a' c' h'
  cases h'
  exact h

theorem throw (x : ε) : Yields (throw x : Scan ε τ σ α) P :=
  fun _ _ _ h => by cases h

theorem bind {Q : β → Prop} (hm : Yields m P)
    (hk : ∀ a, P a → Yields (k a) Q) : Yields (m >>= k) Q := by
  intro c b c' h
  obtain ⟨a, c₁, h₁, h₂⟩ := bind_ok h
  exact hk a (hm _ _ _ h₁) _ _ _ h₂

theorem of_bind {Q : β → Prop} (hk : ∀ a, Yields (k a) Q) : Yields (m >>= k) Q := by
  intro c b c' h
  obtain ⟨a, c₁, -, h₂⟩ := bind_ok h
  exact hk a _ _ _ h₂

theorem mapErr {ε' : Type} (f : ε → ε') (hm : Yields m P) : Yields (mapErr f m) P :=
  fun _ _ _ h => hm _ _ _ (mapErr_ok.mp h)

theorem within {σ' : Type} {m : Scan ε τ σ' α} {start : σ → σ'} {stop : σ → σ' → σ}
    (hm : Yields m P) : Yields (within start stop m) P := by
  rintro ⟨st, d⟩ a c' h
  obtain ⟨st', h', -⟩ := within_ok.mp h
  exact hm _ _ _ h'

theorem onNext {p : τ → Bool} (hy : Yields yes P)
    (hn : Yields no P) : Yields (onNext p yes no) P := by
  rintro ⟨st, d⟩ a c' h
  cases d with
  | nil => exact hn _ _ _ h
  | cons t d =>
    rw [onNext_cons] at h
    split at h
    · exact hy _ _ _ h
    · exact hn _ _ _ h

theorem loop (hp : Progress body)
    (hb : ∀ b c a c', body b c = .ok (.inr a, c') → P a) (b : β) : Yields (loop out body b) P := by
  intro c a c' h
  exact loop_invariant hp (P := fun _ _ => True) (Q := fun a _ => P a)
    (fun _ _ => trivial) (fun _ h => hb _ _ _ _ h) (Nat.lt_succ_self _) trivial h

theorem bind_congr {k k' : α → Scan ε τ σ β} (hm : Yields m P)
    (hk : ∀ a, P a → k a = k' a) : m >>= k = m >>= k' := by
  funext c
  rw [bind_apply, bind_apply]
  rcases h : m c with x | ⟨a, c'⟩
  · rfl
  · simp only [hk a (hm _ _ _ h)]

end Yields

/-! ## Keeping the consumed tokens -/

def consumed (m : Scan ε τ σ α) : Scan ε τ σ (α × List τ) := fun c =>
  match m c with
  | .error x => .error x
  | .ok (a, c') => .ok ((a, c.rest.take (c.rest.length - c'.rest.length)), c')

theorem consumed_ok (hm : Stepwise short pos m) {st : σ} {d u : List τ} {a : α} :
    consumed m ⟨st, d⟩ = .ok ((a, u), c) ↔ m ⟨st, d⟩ = .ok (a, c) ∧ d = u ++ c.rest := by
  rw [consumed]
  rcases h : m ⟨st, d⟩ with x | ⟨a', c'⟩
  · simp
  · obtain ⟨v, rfl, -, -⟩ := hm.ok h
    have htake : (v ++ c'.rest).take ((v ++ c'.rest).length - c'.rest.length) = v := by
      rw [List.length_append, Nat.add_sub_cancel]
      exact List.take_left' rfl
    simp only [htake, Except.ok.injEq, Prod.mk.injEq]
    constructor
    · rintro ⟨⟨rfl, rfl⟩, rfl⟩
      exact ⟨⟨rfl, rfl⟩, rfl⟩
    · rintro ⟨⟨rfl, rfl⟩, h'⟩
      exact ⟨⟨rfl, List.append_cancel_right h'⟩, rfl⟩

theorem consumed_error : consumed m c = .error x ↔ m c = .error x := by
  rw [consumed]
  rcases m c with y | ⟨a, c'⟩ <;> simp

theorem Hungry.consumed (hm : Hungry short m) : Hungry short (consumed m) := by
  intro st
  obtain ⟨x, hx, hs⟩ := hm st
  exact ⟨x, consumed_error.mpr hx, hs⟩

theorem consumed_resumable (hm : Resumable short pos m) : Resumable short pos (consumed m) where
  stepwise :=
    { ok := by
        rintro st d ⟨a, u⟩ c h
        obtain ⟨h', hd⟩ := (consumed_ok hm.stepwise).mp h
        obtain ⟨v, hv, hpos, hr⟩ := hm.stepwise.ok h'
        obtain rfl : v = u := List.append_cancel_right (hv.symm.trans hd)
        exact ⟨v, hv, hpos, fun r => (consumed_ok hm.stepwise).mpr ⟨hr r, rfl⟩⟩
      hard := fun h hx r =>
        consumed_error.mpr (hm.stepwise.hard (consumed_error.mp h) hx r)
      wait := fun h hk => by
        simp only [Waits, consumed_error]
        exact hm.stepwise.wait (consumed_error.mp h) hk }
  settles st d := by
    simp only [Waits, consumed_error]
    exact hm.settles st d

/-! ## Where a success stops -/

/-- A success stops inside the input, at the place its bookkeeping says. -/
def Tracks (pos : σ → Nat) (m : Scan ε τ σ α) : Prop :=
  ∀ st d a c, m ⟨st, d⟩ = .ok (a, c) → ∃ u, d = u ++ c.rest ∧ pos c.st = pos st + u.length

theorem Stepwise.tracks (hm : Stepwise short pos m) : Tracks pos m := by
  intro st d a c h
  obtain ⟨u, hd, hp, -⟩ := hm.ok h
  exact ⟨u, hd, hp⟩

namespace Tracks

variable {m : Scan ε τ σ α}

theorem pure (a : α) : Tracks pos (pure a : Scan ε τ σ α) := by
  intro st d a' c h
  cases h
  exact ⟨[], rfl, rfl⟩

theorem throw (x : ε) : Tracks pos (throw x : Scan ε τ σ α) :=
  fun _ _ _ _ h => by cases h

theorem look (f : σ → α) : Tracks pos (look f : Scan ε τ σ α) := by
  intro st d a c h
  cases h
  exact ⟨[], rfl, rfl⟩

theorem bind (hm : Tracks pos m) (hk : ∀ a, Tracks pos (k a)) : Tracks pos (m >>= k) := by
  intro st d b c h
  obtain ⟨a, ⟨st₁, d₁⟩, h₁, h₂⟩ := bind_ok h
  obtain ⟨u, hd, hu⟩ := hm _ _ _ _ h₁
  obtain ⟨v, hd₁, hv⟩ := hk a _ _ _ _ h₂
  dsimp only at hd hd₁ hu
  refine ⟨u ++ v, by rw [hd, hd₁, List.append_assoc], ?_⟩
  rw [hv, hu, List.length_append, Nat.add_assoc]

theorem mapErr {ε' : Type} (f : ε → ε') (hm : Tracks pos m) : Tracks pos (mapErr f m) :=
  fun _ _ _ _ h => hm _ _ _ _ (mapErr_ok.mp h)

theorem within {σ' : Type} {pos' : σ' → Nat} {m : Scan ε τ σ' α} {start : σ → σ'}
    {stop : σ → σ' → σ}
    (hpos : ∀ st st' n, pos' st' = pos' (start st) + n → pos (stop st st') = pos st + n)
    (hm : Tracks pos' m) : Tracks pos (within start stop m) := by
  intro st d a c h
  obtain ⟨st', h', hst⟩ := within_ok.mp h
  obtain ⟨u, hd, hu⟩ := hm _ _ _ _ h'
  exact ⟨u, hd, by rw [hst]; exact hpos _ _ _ hu⟩

theorem loop (hb : ∀ b, Tracks pos (body b)) (b : β) : Tracks pos (loop out body b) := by
  intro st d a c h
  rw [Scan.loop] at h
  generalize d.length + 1 = n at h
  -- however much fuel there is, each round stops where it says
  induction n generalizing st d b with
  | zero => cases h
  | succ n ih =>
    rw [loopFuel_succ] at h
    cases hbody : body b ⟨st, d⟩ with
    | error x =>
      rw [hbody] at h
      cases h
    | ok p =>
      obtain ⟨b' | a', ⟨st₁, d₁⟩⟩ := p
      · rw [hbody] at h
        obtain ⟨u, hd, hu⟩ := hb b _ _ _ _ hbody
        obtain ⟨v, hd₁, hv⟩ := ih _ _ _ h
        dsimp only at hd hu
        refine ⟨u ++ v, by rw [hd, hd₁, List.append_assoc], ?_⟩
        rw [hv, hu, List.length_append, Nat.add_assoc]
      · rw [hbody] at h
        cases h
        exact hb b _ _ _ _ hbody

theorem consumed (hm : Tracks pos m) : Tracks pos (consumed m) := by
  intro st d a c h
  rw [Scan.consumed] at h
  cases hm' : m ⟨st, d⟩ with
  | error x =>
    rw [hm'] at h
    cases h
  | ok p =>
    rw [hm'] at h
    cases h
    exact hm _ _ _ _ hm'

theorem eats_bind (hm : Eats m) (hk : ∀ a, Tracks pos (k a)) : Eats (m >>= k) := by
  intro st d b c h
  obtain ⟨a, ⟨st₁, d₁⟩, h₁, h₂⟩ := bind_ok h
  obtain ⟨u, hd, -⟩ := hk a _ _ _ _ h₂
  have := hm _ _ _ _ h₁
  dsimp only at hd this
  rw [hd, List.length_append] at this
  omega

end Tracks

end Scan

end Hardy
