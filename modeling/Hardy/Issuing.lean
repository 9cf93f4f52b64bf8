import Hardy.DtnTime
import Hardy.Machine

/-!
# Concurrent callers of `CreationTimestamp::now`

The callers share one atomic word and step in any order.  A caller reads the clock, loads the
word and exchanges it until the exchange succeeds.  All accesses are relaxed: a load, or an
exchange that fails, sees any value that the word has had, and only an exchange that succeeds
sees the latest.  Every exchange raises the word (`step_latest`), so no pair is issued twice
(`issued_once`).
-/

namespace Hardy

/-! ## Words and pairs -/

namespace CreationTimestamp

def ofIssued (issued : Nat) : CreationTimestamp where
  creationTime := some (issued >>> seqBits)
  sequenceNumber := issued &&& (1 <<< seqBits - 1)

theorem now_eq (last : Nat) (clock : Int) : now last clock = ofIssued (issue last clock) := rfl

/-- The derived order: the time comes first, and its absence is least. -/
def Before (t u : CreationTimestamp) : Prop :=
  t.creationTime < u.creationTime ∨
    t.creationTime = u.creationTime ∧ t.sequenceNumber < u.sequenceNumber

/-- The pair that a clock reading asks for: its millisecond, clamped to the time bits, and its
nanoseconds within the millisecond. -/
def ofClock (clock : Int) : CreationTimestamp where
  creationTime := some (min (DtnTime.saturatingFrom clock) (2 ^ 44 - 1))
  sequenceNumber := (clock % 1000000).toNat

/-- `u` is the next pair: in the same millisecond, or the first of the next one when the sequence
numbers of this one are used up. -/
def Follows (u t : CreationTimestamp) : Prop :=
  u = { t with sequenceNumber := t.sequenceNumber + 1 } ∨
    t.sequenceNumber = 2 ^ seqBits - 1 ∧
      u = { creationTime := t.creationTime.map (· + 1), sequenceNumber := 0 }

theorem ofIssued_eq (w : Nat) : ofIssued w = ⟨some (w / 2 ^ 20), w % 2 ^ 20⟩ := by
  simp only [ofIssued, seqBits, Nat.shiftRight_eq_div_pow, Nat.one_shiftLeft,
    Nat.and_two_pow_sub_one_eq_mod]

theorem ofIssued_before {v w : Nat} (h : v < w) : (ofIssued v).Before (ofIssued w) := by
  simp only [ofIssued_eq, Before, Option.some_lt_some, Option.some.injEq]
  omega

theorem Before.ne {t u : CreationTimestamp} (h : t.Before u) : t ≠ u := by
  rintro rfl
  obtain ⟨_ | time, seq⟩ := t
  · simp [Before] at h
  · simp [Before] at h

theorem ofIssued_succ (w : Nat) : (ofIssued (w + 1)).Follows (ofIssued w) := by
  simp only [ofIssued_eq, Follows, seqBits, CreationTimestamp.mk.injEq, Option.some.injEq,
    Option.map_some]
  omega

theorem candidate_eq (clock : Int) : candidate clock =
    min (DtnTime.saturatingFrom clock) (2 ^ 44 - 1) * 2 ^ 20 + (clock % 1000000).toNat := by
  have hmax : (wordSize - 1) >>> seqBits = 2 ^ 44 - 1 := rfl
  have hnanos : (clock % 1000000).toNat < 2 ^ 20 := by omega
  rw [candidate, hmax, seqBits, ← Nat.shiftLeft_add_eq_or_of_lt hnanos, Nat.shiftLeft_eq]

theorem ofIssued_candidate (clock : Int) : ofIssued (candidate clock) = ofClock clock := by
  have hnanos : (clock % 1000000).toNat < 2 ^ 20 := by omega
  rw [candidate_eq, ofIssued_eq, ofClock]
  congr 1
  · congr 1
    omega
  · omega

theorem lt_issue {last : Nat} (clock : Int) (h : last < wordSize - 1) : last < issue last clock := by
  rw [issue]
  omega

theorem issue_cases {last : Nat} (clock : Int) (h : last < wordSize - 1) :
    issue last clock = candidate clock ∨ issue last clock = last + 1 := by
  rw [issue]
  omega

end CreationTimestamp

/-! ## Callers -/

namespace Issuing

inductive Call where
  /-- not begun -/
  | idle
  /-- with `candidate` computed from the clock reading -/
  | entered (clock : Int)
  /-- at the exchange, with the value that it expects -/
  | looping (clock : Int) (last : Nat)
  | returned (timestamp : CreationTimestamp)
deriving DecidableEq

structure State where
  /-- the value of `LAST_ISSUED` -/
  latest : Nat
  /-- the values before it -/
  earlier : List Nat
  calls : Nat → Call

def init : State := ⟨0, [], fun _ => .idle⟩

/-- A relaxed load sees one of the values that the word has had. -/
def State.Sees (s : State) (v : Nat) : Prop := v ∈ s.latest :: s.earlier

instance (s : State) (v : Nat) : Decidable (s.Sees v) :=
  inferInstanceAs (Decidable (v ∈ s.latest :: s.earlier))

def State.set (s : State) (c : Nat) (call : Call) : State :=
  { s with calls := Function.update s.calls c call }

/-- The steps of the call `c`. -/
inductive Action where
  | enter (c : Nat) (clock : Int)
  | load (c v : Nat)
  /-- the exchange succeeds -/
  | exchange (c : Nat)
  /-- the exchange fails, for another value or for no reason, and sees `actual` -/
  | fail (c actual : Nat)
deriving DecidableEq

def step (s : State) : Action → Option State
  | .enter c clock =>
    match s.calls c with
    | .idle => some (s.set c (.entered clock))
    | _ => none
  | .load c v =>
    match s.calls c with
    | .entered clock => if s.Sees v then some (s.set c (.looping clock v)) else none
    | _ => none
  | .exchange c =>
    match s.calls c with
    | .looping clock last =>
      if last = s.latest then
        some ({ s with
          latest := CreationTimestamp.issue last clock
          earlier := s.latest :: s.earlier }.set c (.returned (.now last clock)))
      else none
    | _ => none
  | .fail c actual =>
    match s.calls c with
    | .looping clock _ => if s.Sees actual then some (s.set c (.looping clock actual)) else none
    | _ => none

abbrev Runs (start : State → Prop) : State → Prop := (Machine.ofStep start step).Reachable

abbrev Reachable : State → Prop := Runs (· = init)

@[simp] theorem State.set_latest (s : State) (c : Nat) (call : Call) :
    (s.set c call).latest = s.latest := rfl

theorem State.set_calls (s : State) (c d : Nat) (call : Call) :
    (s.set c call).calls d = if d = c then call else s.calls d :=
  Function.update_apply ..

theorem step_cases {s s' : State} {a : Action} (h : step s a = some s') :
    (∃ c call, s' = s.set c call ∧ (∀ t, s.calls c ≠ .returned t) ∧
      (∀ t, call ≠ .returned t) ∧ call ≠ .idle) ∨
    ∃ c clock, s.calls c = .looping clock s.latest ∧
      s' = { s with
        latest := CreationTimestamp.issue s.latest clock
        earlier := s.latest :: s.earlier }.set c (.returned (.now s.latest clock)) := by
  cases a with
  | enter c clock =>
    simp only [step] at h
    split at h
    · next hc => exact .inl ⟨c, _, (Option.some.inj h).symm, by simp [hc], by simp, by simp⟩
    · cases h
  | load c v =>
    simp only [step] at h
    split at h
    · next hc =>
        obtain ⟨-, h⟩ := Option.ite_none_right_eq_some.mp h
        exact .inl ⟨c, _, (Option.some.inj h).symm, by simp [hc], by simp, by simp⟩
    · cases h
  | exchange c =>
    simp only [step] at h
    split at h
    · next hc =>
        obtain ⟨rfl, h⟩ := Option.ite_none_right_eq_some.mp h
        exact .inr ⟨c, _, hc, (Option.some.inj h).symm⟩
    · cases h
  | fail c actual =>
    simp only [step] at h
    split at h
    · next hc =>
        obtain ⟨-, h⟩ := Option.ite_none_right_eq_some.mp h
        exact .inl ⟨c, _, (Option.some.inj h).symm, by simp [hc], by simp, by simp⟩
    · cases h

/-! ## Runs -/

structure Inv (s : State) : Prop where
  issued : ∀ c t, s.calls c = .returned t → ∃ w ≤ s.latest, t = .ofIssued w
  once : ∀ c d t, c ≠ d → s.calls c = .returned t → s.calls d ≠ .returned t

theorem inv_init : Inv init where
  issued _ _ h := by cases h
  once _ _ _ _ h := by cases h

theorem latest_lt {s : State} {clock : Int}
    (hmax : CreationTimestamp.issue s.latest clock < wordSize - 1) : s.latest < wordSize - 1 := by
  rw [CreationTimestamp.issue] at hmax
  omega

theorem step_latest {s s' : State} {a : Action} (h : step s a = some s')
    (hmax : s'.latest < wordSize - 1) : s.latest ≤ s'.latest ∧ s.latest < wordSize - 1 := by
  rcases step_cases h with ⟨c, call, rfl, -⟩ | ⟨c, clock, -, rfl⟩
  · exact ⟨le_refl _, hmax⟩
  · have hlast := latest_lt hmax
    exact ⟨(CreationTimestamp.lt_issue clock hlast).le, hlast⟩

theorem returned_set {s : State} {c d : Nat} {call : Call} {t : CreationTimestamp}
    (hcall : ∀ t, call ≠ .returned t) (h : (s.set c call).calls d = .returned t) :
    s.calls d = .returned t := by
  rw [State.set_calls] at h
  split at h
  · exact absurd h (hcall t)
  · exact h

theorem inv_step {s s' : State} {a : Action} (hs : Inv s) (h : step s a = some s')
    (hmax : s'.latest < wordSize - 1) : Inv s' := by
  rcases step_cases h with ⟨c, call, rfl, -, hcall, -⟩ | ⟨c, clock, -, rfl⟩
  · exact ⟨fun d t hd => hs.issued d t (returned_set hcall hd),
      fun d e t hne hd he => hs.once d e t hne (returned_set hcall hd) (returned_set hcall he)⟩
  · have hlt := CreationTimestamp.lt_issue clock (latest_lt hmax)
    -- the pairs before are those of smaller words
    have hnew : ∀ d, s.calls d ≠ .returned (.now s.latest clock) := by
      intro d hd
      obtain ⟨w, hw, heq⟩ := hs.issued d _ hd
      exact (CreationTimestamp.ofIssued_before (hw.trans_lt hlt)).ne heq.symm
    constructor
    · intro d t hd
      rw [State.set_calls] at hd
      split at hd
      · exact ⟨_, le_refl _, (Call.returned.inj hd).symm⟩
      · obtain ⟨w, hw, heq⟩ := hs.issued d t hd
        exact ⟨w, hw.trans hlt.le, heq⟩
    · intro d e t hne hd he
      rw [State.set_calls] at hd he
      split at hd
      · next hdc =>
          rw [if_neg fun hec => hne (hdc.trans hec.symm)] at he
          obtain rfl := Call.returned.inj hd
          exact hnew e he
      · split at he
        · obtain rfl := Call.returned.inj he
          exact hnew d hd
        · exact hs.once d e t hne hd he

theorem Runs.inv {s₀ s : State} (h₀ : s₀.latest < wordSize - 1 → Inv s₀) (h : Runs (· = s₀) s)
    (hmax : s.latest < wordSize - 1) : Inv s := by
  induction h with
  | start h => exact h ▸ h₀ (h ▸ hmax)
  | step a _ h ih => exact inv_step (ih (step_latest h hmax).2) h hmax

theorem Runs.above {s₀ s : State} (h : Runs (· = s₀) s) (hmax : s.latest < wordSize - 1) :
    s₀.latest ≤ s.latest ∧ ∀ d u, s₀.calls d = .idle → s.calls d = .returned u →
      ∃ w, s₀.latest < w ∧ u = .ofIssued w := by
  induction h with
  | start h =>
    subst h
    exact ⟨le_refl _, fun d u hidle hd => by rw [hidle] at hd; cases hd⟩
  | @step s s' a _ h ih =>
    obtain ⟨hle, hlast⟩ := step_latest h hmax
    obtain ⟨hs, ih⟩ := ih hlast
    refine ⟨hs.trans hle, fun d u hidle hd => ?_⟩
    rcases step_cases h with ⟨c, call, rfl, -, hcall, -⟩ | ⟨c, clock, -, rfl⟩
    · exact ih d u hidle (returned_set hcall hd)
    · rw [State.set_calls] at hd
      split at hd
      · exact ⟨_, hs.trans_lt (CreationTimestamp.lt_issue clock (latest_lt hmax)),
          (Call.returned.inj hd).symm⟩
      · exact ih d u hidle hd

theorem step_returned {s s' : State} {a : Action} {c : Nat} {t : CreationTimestamp}
    (h : step s a = some s') (hmax : s'.latest < wordSize - 1)
    (hc : s'.calls c = .returned t) :
    s.calls c = .returned t ∨ ∃ clock, s.calls c = .looping clock s.latest ∧
      (t = .ofClock clock ∨ t.Follows (.ofIssued s.latest)) := by
  rcases step_cases h with ⟨d, call, rfl, -, hcall, -⟩ | ⟨d, clock, hd, rfl⟩
  · exact .inl (returned_set hcall hc)
  · rw [State.set_calls] at hc
    split at hc
    · next hcd =>
        subst hcd
        obtain rfl := Call.returned.inj hc
        refine .inr ⟨clock, hd, ?_⟩
        rw [CreationTimestamp.now_eq]
        rcases CreationTimestamp.issue_cases clock (latest_lt hmax) with h | h
        · exact .inl (h ▸ CreationTimestamp.ofIssued_candidate clock)
        · exact .inr (h ▸ CreationTimestamp.ofIssued_succ s.latest)
    · exact .inl hc

/-- In every run the pairs of two calls differ, a call that begins after another one has
returned gets the greater pair, and each pair is that of its caller's clock or the next after the
latest. -/
theorem issued_once {s s' : State} (hs : Reachable s) (h : Runs (· = s) s')
    (hmax : s'.latest < wordSize - 1) :
    (∀ c d t u, c ≠ d → s'.calls c = .returned t → s'.calls d = .returned u → t ≠ u) ∧
    (∀ c d t u, s.calls c = .returned t → s.calls d = .idle → s'.calls d = .returned u →
      t.Before u) ∧
    (∀ c t, s'.calls c = .returned t → t.sequenceNumber < 2 ^ seqBits) ∧
    ∀ a s'' c t, step s' a = some s'' → s''.latest < wordSize - 1 → s''.calls c = .returned t →
      s'.calls c = .returned t ∨ ∃ clock, s'.calls c = .looping clock s'.latest ∧
        (t = .ofClock clock ∨ t.Follows (.ofIssued s'.latest)) := by
  have hbefore : s.latest < wordSize - 1 → Inv s := Runs.inv (fun _ => inv_init) hs
  have hinv := Runs.inv hbefore h hmax
  obtain ⟨hle, habove⟩ := Runs.above h hmax
  refine ⟨?_, ?_, ?_, fun a s'' c t ha hmax hc => step_returned ha hmax hc⟩
  · rintro c d t u hne hc hd rfl
    exact hinv.once c d t hne hc hd
  · intro c d t u hc hidle hd
    obtain ⟨v, hv, rfl⟩ := (hbefore (hle.trans_lt hmax)).issued c t hc
    obtain ⟨w, hw, rfl⟩ := habove d u hidle hd
    exact CreationTimestamp.ofIssued_before (hv.trans_lt hw)
  · intro c t hc
    obtain ⟨w, -, rfl⟩ := hinv.issued c t hc
    rw [CreationTimestamp.ofIssued_eq]
    exact Nat.mod_lt _ (by decide)

/-- A caller whose clock has stepped back, and whose first exchange expects an old value. -/
theorem issued_once_backward : ∃ s s' t u,
    Machine.runSteps step init [.enter 0 (dtnEpoch + 5000000), .load 0 0, .exchange 0] = some s ∧
    Machine.runSteps step s
      [.enter 1 dtnEpoch, .load 1 0, .fail 1 (5 * 2 ^ 20), .exchange 1] = some s' ∧
    s.calls 0 = .returned t ∧ s'.calls 1 = .returned u ∧ t.Before u := by
  have hruns : ∀ (first second : List Action) {s s' t u},
      Machine.runSteps step init first = some s → Machine.runSteps step s second = some s' →
      s'.latest < wordSize - 1 → s.calls 0 = .returned t → s.calls 1 = .idle →
      s'.calls 1 = .returned u → t.Before u := by
    intro first second s s' t u hs h hmax
    exact (issued_once (Machine.reachable_runSteps (.start rfl) hs)
      (Machine.reachable_runSteps (.start rfl) h) hmax).2.1 0 1 t u
  refine ⟨_, _, _, _, rfl, rfl, rfl, rfl,
    hruns [.enter 0 (dtnEpoch + 5000000), .load 0 0, .exchange 0]
      [.enter 1 dtnEpoch, .load 1 0, .fail 1 (5 * 2 ^ 20), .exchange 1] rfl rfl ?_ rfl rfl rfl⟩
  decide

end Issuing

end Hardy
