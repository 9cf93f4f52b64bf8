import Hardy.Bpa.FilterLevels
import Hardy.Machine

/-!
# The filter engine

Model of `bpa/src/filter/engine.rs`: the interleavings of `register`, `unregister` and `clear`, cut
at the lock of the builders and at the store of the chains.  `register` and `unregister` hold the
lock over both; `clear` stores before it takes the lock, so a registration that publishes in
between outlives its filters (`Between.chains_outlive`).
-/

namespace Hardy.Bpa

inductive Hook where
  | ingress
  | deliver
  | originate
  | egress
deriving DecidableEq, Repr

abbrev Builders := Hook → FilterChainBuilder

/-- `Builders::default` -/
def Builders.empty : Builders := fun _ => .empty

def Builders.build (b : Builders) : Hook → FilterChain := fun hook => (b hook).build

inductive EngineCall where
  | clear
  | register (hook : Hook) (name : String) (after : List String) (filter : Filter)
  | unregister (hook : Hook) (name : String)

def EngineCall.edit (builders : Builders) : EngineCall → Bool × Builders
  | .clear => (false, .empty)
  | .register hook name after filter =>
    let (result, b) := (builders hook).addFilter name filter after
    (result.isOk, Function.update builders hook b)
  | .unregister hook name =>
    let (result, b) := (builders hook).removeFilter name
    (result.toOption.join.isSome, Function.update builders hook b)

inductive EnginePhase where
  | begun
  /-- `clear` has stored the empty chains. -/
  | stored
  | locked
  /-- The builders have changed, and the chains are to be published. -/
  | changed
  | finished
deriving DecidableEq, Repr

structure EngineState where
  builders : Builders
  filters : Hook → FilterChain
  /-- The call that holds the lock of the builders. -/
  lock : Option Nat
  calls : Nat → Option (EngineCall × EnginePhase)

namespace EngineState

def new : EngineState := ⟨.empty, fun _ => [], none, fun _ => none⟩

def put (s : EngineState) (k : Nat) (c : Option (EngineCall × EnginePhase)) : EngineState :=
  { s with calls := Function.update s.calls k c }

def Quiescent (s : EngineState) : Prop := ∀ k, s.calls k = none

/-- A `clear` has stored its chains, and not reset the builders yet. -/
def Clearing (s : EngineState) (k : Nat) : Prop :=
  s.calls k = some (.clear, .stored) ∨ s.calls k = some (.clear, .locked)

end EngineState

inductive EngineLabel where
  | begin (k : Nat) (c : EngineCall)
  | store (k : Nat)
  | lock (k : Nat)
  | edit (k : Nat)
  | publish (k : Nat)
  | unlock (k : Nat)

/-- Where a call takes the lock: `clear` does so once its chains are stored. -/
def EngineCall.lockPhase : EngineCall → EnginePhase
  | .clear => .stored
  | _ => .begun

inductive EngineStep : EngineState → EngineLabel → EngineState → Prop where
  | begin {s : EngineState} {k : Nat} {c : EngineCall} : s.calls k = none →
      EngineStep s (.begin k c) (s.put k (some (c, .begun)))
  | store {s : EngineState} {k : Nat} : s.calls k = some (.clear, .begun) →
      EngineStep s (.store k)
        ({ s with filters := Builders.empty.build }.put k (some (.clear, .stored)))
  | lock {s : EngineState} {k : Nat} {c : EngineCall} : s.calls k = some (c, c.lockPhase) →
      s.lock = none → EngineStep s (.lock k) ({ s with lock := some k }.put k (some (c, .locked)))
  | edit {s : EngineState} {k : Nat} {c : EngineCall} : s.calls k = some (c, .locked) →
      EngineStep s (.edit k) ({ s with builders := (c.edit s.builders).2 }.put k
        (some (c, if (c.edit s.builders).1 then .changed else .finished)))
  | publish {s : EngineState} {k : Nat} {c : EngineCall} : s.calls k = some (c, .changed) →
      EngineStep s (.publish k) ({ s with filters := s.builders.build }.put k (some (c, .finished)))
  | unlock {s : EngineState} {k : Nat} {c : EngineCall} : s.calls k = some (c, .finished) →
      EngineStep s (.unlock k) ({ s with lock := none }.put k none)

def filterEngine : Machine EngineState EngineLabel where
  start s := s = .new
  step := EngineStep

/-- Nothing is published between the two steps of a `clear`. -/
def Apart (s : EngineState) (l : EngineLabel) : Prop :=
  ∀ k, l = .publish k → ∀ j, ¬ s.Clearing j

/-! ## The invariant -/

def EnginePhase.holds : EnginePhase → Prop
  | .begun | .stored => False
  | .locked | .changed | .finished => True

/-- The chains are those of the builders, but for the call that has the lock and for the clears
that are between their steps: while there is one, the chains are empty. -/
structure EngineInv (s : EngineState) : Prop where
  lock : ∀ k c phase, s.calls k = some (c, phase) → phase.holds → s.lock = some k
  cleared : ∀ k, s.Clearing k → s.filters = Builders.empty.build
  published : (∃ k, s.Clearing k) ∨ (∃ k c, s.calls k = some (c, .changed)) ∨
    s.filters = s.builders.build

section

variable {s s' : EngineState} {k : Nat} {c : EngineCall}

theorem EngineCall.edit_quiet {b : Builders} (hc : c ≠ .clear) (h : (c.edit b).1 = false) :
    (c.edit b).2 = b := by
  cases c with
  | clear => exact absurd rfl hc
  | register hook name after filter =>
    have hsame : ((b hook).addFilter name filter after).2 = b hook := by
      cases hadd : ((b hook).addFilter name filter after).1 with
      | ok =>
        rw [edit] at h
        dsimp only at h
        rw [hadd] at h
        cases h
      | error e =>
        have hcall : ((b hook).call (.addFilter name filter after)).1 = .error e := by
          rw [FilterChainBuilder.call, hadd]
          rfl
        exact FilterChainBuilder.call_error hcall
    exact (congrArg (Function.update b hook) hsame).trans (Function.update_eq_self hook b)
  | unregister hook name =>
    have hsame : ((b hook).removeFilter name).2 = b hook := by
      rw [edit] at h
      dsimp only at h
      rw [FilterChainBuilder.removeFilter] at h ⊢
      split
      · rfl
      · next hfree =>
          rw [if_neg hfree] at h
          cases ht : takeFilter name (b hook).levels with
          | none => rfl
          | some r =>
            rw [ht] at h
            cases h
    exact (congrArg (Function.update b hook) hsame).trans (Function.update_eq_self hook b)

namespace EngineState

variable {p : Option (EngineCall × EnginePhase)} {j : Nat}

theorem put_calls : (s.put k p).calls j = if j = k then p else s.calls j := Function.update_apply ..

theorem put_self : (s.put k p).calls k = p := Function.update_self ..

theorem put_of_ne (hj : j ≠ k) : (s.put k p).calls j = s.calls j := Function.update_of_ne hj ..

theorem Clearing.put (h : s.Clearing j) (hj : j ≠ k) : (s.put k p).Clearing j := by
  rw [Clearing, put_of_ne hj]
  exact h

theorem Clearing.of_put (h : (s.put k p).Clearing j) (hp : p ≠ some (.clear, .stored))
    (hp' : p ≠ some (.clear, .locked)) : s.Clearing j := by
  have hj : j ≠ k := by
    rintro rfl
    rw [Clearing, put_self] at h
    exact h.elim hp hp'
  rwa [Clearing, put_of_ne hj] at h

end EngineState

open EngineState in
theorem lock_put {p : Option (EngineCall × EnginePhase)} {lock : Option Nat}
    (hothers : ∀ j c phase, j ≠ k → s.calls j = some (c, phase) → phase.holds → lock = some j)
    (hself : ∀ c phase, p = some (c, phase) → phase.holds → lock = some k) :
    ∀ j c phase, (s.put k p).calls j = some (c, phase) → phase.holds → lock = some j := by
  intro j c phase hj hholds
  by_cases hjk : j = k
  · subst hjk
    rw [put_self] at hj
    exact hself c phase hj hholds
  · rw [put_of_ne hjk] at hj
    exact hothers j c phase hjk hj hholds

open EngineState in
theorem EngineInv.step {l : EngineLabel} (h : EngineInv s) (hapart : Apart s l)
    (hstep : EngineStep s l s') : EngineInv s' := by
  cases hstep with
  | @begin k c hfree =>
    have hne : ∀ {j p}, s.calls j = some p → j ≠ k := by
      rintro j p hj rfl
      cases hfree.symm.trans hj
    refine ⟨lock_put (fun j c phase _ => h.lock j c phase) ?_, fun j hj => ?_, ?_⟩
    · rintro c' phase heq hholds
      cases heq
      exact hholds.elim
    · exact h.cleared j (hj.of_put (by simp) (by simp))
    · rcases h.published with ⟨j, hj⟩ | ⟨j, c', hj⟩ | heq
      · exact .inl ⟨j, hj.put (hj.elim hne hne)⟩
      · exact .inr (.inl ⟨j, c', (put_of_ne (hne hj)).trans hj⟩)
      · exact .inr (.inr heq)
  | @store k hbegun =>
    refine ⟨lock_put (fun j c phase _ => h.lock j c phase) ?_, fun _ _ => rfl, ?_⟩
    · rintro c' phase heq hholds
      cases heq
      exact hholds.elim
    · exact .inl ⟨k, .inl put_self⟩
  | @lock k c hcall hfree =>
    refine ⟨lock_put (fun j c' phase hjk hj hholds => ?_) fun _ _ _ _ => rfl, fun j hj => ?_, ?_⟩
    · cases hfree.symm.trans (h.lock j c' phase hj hholds)
    · by_cases hjk : j = k
      · subst hjk
        rcases hj with hj | hj
        · cases put_self.symm.trans hj
        · cases put_self.symm.trans hj
          exact h.cleared j (.inl hcall)
      · refine h.cleared j ?_
        rwa [Clearing, put_of_ne hjk] at hj
    · rcases h.published with ⟨j, hj⟩ | ⟨j, c', hj⟩ | heq
      · by_cases hjk : j = k
        · subst hjk
          have hc : c = .clear := by
            rcases hj with hj | hj
            · cases hcall.symm.trans hj
              rfl
            · cases c <;> cases hcall.symm.trans hj
          exact .inl ⟨j, .inr (hc ▸ put_self)⟩
        · exact .inl ⟨j, hj.put hjk⟩
      · refine .inr (.inl ⟨j, c', (put_of_ne ?_).trans hj⟩)
        rintro rfl
        cases c <;> cases hcall.symm.trans hj
      · exact .inr (.inr heq)
  | @edit k c hlocked =>
    have hk := h.lock k c .locked hlocked trivial
    refine ⟨lock_put (fun j c phase _ => h.lock j c phase) fun _ _ _ _ => hk, fun j hj => ?_, ?_⟩
    · refine h.cleared j (hj.of_put ?_ ?_)
      · split <;> simp
      · split <;> simp
    · by_cases hc : c = .clear
      · subst hc
        exact .inr (.inr (h.cleared k (.inr hlocked)))
      · cases hedit : (c.edit s.builders).1 with
        | true => exact .inr (.inl ⟨k, c, put_self⟩)
        | false =>
          have hsame := EngineCall.edit_quiet hc hedit
          rcases h.published with ⟨j, hj⟩ | ⟨j, c', hj⟩ | heq
          · refine .inl ⟨j, Clearing.put (s := { s with builders := (c.edit s.builders).2 }) hj ?_⟩
            rintro rfl
            rcases hj with hj | hj
            · cases hlocked.symm.trans hj
            · cases hlocked.symm.trans hj
              exact hc rfl
          · refine .inr (.inl ⟨j, c', (put_of_ne ?_).trans hj⟩)
            rintro rfl
            cases hlocked.symm.trans hj
          · exact .inr (.inr (heq.trans (congrArg Builders.build hsame.symm)))
  | @publish k c hchanged =>
    have hk := h.lock k c .changed hchanged trivial
    refine ⟨lock_put (fun j c phase _ => h.lock j c phase) fun _ _ _ _ => hk, fun j hj => ?_, ?_⟩
    · have hj : s.Clearing j := by
        have := hj.of_put (by simp) (by simp)
        exact this
      exact absurd hj (hapart k rfl j)
    · exact .inr (.inr rfl)
  | @unlock k c hfinished =>
    have hk := h.lock k c .finished hfinished trivial
    have hne : ∀ {j p}, s.calls j = some p → p.2 ≠ .finished → j ≠ k := by
      rintro j p hj hp rfl
      cases hfinished.symm.trans hj
      exact hp rfl
    refine ⟨lock_put (fun j c' phase hjk hj hholds => ?_) nofun, fun j hj => ?_, ?_⟩
    · exact absurd (Option.some.inj ((h.lock j c' phase hj hholds).symm.trans hk)) hjk
    · exact h.cleared j (hj.of_put nofun nofun)
    · rcases h.published with ⟨j, hj⟩ | ⟨j, c', hj⟩ | heq
      · refine .inl ⟨j, Clearing.put (s := { s with lock := none }) hj ?_⟩
        exact hj.elim (fun hj => hne hj nofun) (fun hj => hne hj nofun)
      · exact .inr (.inl ⟨j, c', (put_of_ne (hne hj nofun)).trans hj⟩)
      · exact .inr (.inr heq)

theorem engineInv_new : EngineInv .new where
  lock _ _ _ h := by cases h
  cleared _ h := by rcases h with h | h <;> cases h
  published := .inr (.inr rfl)

/-- Where nothing is published between the two steps of a `clear`, the chains are those of the
builders whenever no call is in progress. -/
theorem filters_built (h : (filterEngine.only Apart).Reachable s) (hq : s.Quiescent) (hook : Hook) :
    s.filters hook = (s.builders hook).build := by
  have hinv : EngineInv s := by
    refine h.invariant ?_ fun _ _ _ hi ⟨ha, hs⟩ => hi.step ha hs
    rintro _ rfl
    exact engineInv_new
  rcases hinv.published with ⟨k, hk⟩ | ⟨k, c, hk⟩ | heq
  · rcases hk with hk | hk <;> cases (hq k).symm.trans hk
  · cases (hq k).symm.trans hk
  · rw [heq]
    rfl

end

namespace Between

open EngineState

def registration : EngineCall := .register .ingress "a" [] (.read fun _ _ => .ok .continue)

/-- A `clear` begins while a filter is registered, and the filter comes back after it. -/
theorem registered_built : ∃ s, (filterEngine.only Apart).Reachable s ∧ s.Quiescent ∧
    s.filters .ingress ≠ [] ∧ s.filters .ingress = (s.builders .ingress).build := by
  have hstep : ∀ {s s' : EngineState} {l : EngineLabel}, (filterEngine.only Apart).Reachable s →
      EngineStep s l s' → Apart s l → (filterEngine.only Apart).Reachable s' :=
    fun h hs ha => h.step _ ⟨ha, hs⟩
  have h := Machine.Reachable.start (M := filterEngine.only Apart) (s := EngineState.new) rfl
  have h := hstep h (.begin (k := 1) (c := registration) rfl) nofun
  have h := hstep h (.begin (k := 0) (c := .clear) rfl) nofun
  have h := hstep h (.lock (k := 1) (c := registration) rfl rfl) nofun
  have h := hstep h (.edit (k := 1) (c := registration) rfl) nofun
  have h := hstep h (.publish (k := 1) (c := registration) rfl) fun _ _ j hj => by
    rcases j with _ | _ | j <;> simp [Clearing, put_calls, EngineState.new, registration] at hj
  have h := hstep h (.store (k := 0) rfl) nofun
  have h := hstep h (.unlock (k := 1) (c := registration) rfl) nofun
  have h := hstep h (.lock (k := 0) (c := .clear) rfl rfl) nofun
  have h := hstep h (.edit (k := 0) (c := .clear) rfl) nofun
  have h := hstep h (.unlock (k := 0) (c := .clear) rfl) nofun
  have h := hstep h (.begin (k := 1) (c := registration) rfl) nofun
  have h := hstep h (.lock (k := 1) (c := registration) rfl rfl) nofun
  have h := hstep h (.edit (k := 1) (c := registration) rfl) nofun
  have h := hstep h (.publish (k := 1) (c := registration) rfl) fun _ _ j hj => by
    rcases j with _ | _ | j <;> simp [Clearing, put_calls, EngineState.new, registration] at hj
  have h := hstep h (.unlock (k := 1) (c := registration) rfl) nofun
  refine ⟨_, h, fun k => ?_, nofun, filters_built h (fun k => ?_) .ingress⟩
  all_goals rcases k with _ | _ | k <;> rfl

/-- The registration publishes between the two steps of the `clear`: its filter runs on, and no
builder knows of it. -/
theorem chains_outlive : ∃ s, filterEngine.Reachable s ∧ s.Quiescent ∧
    s.filters .ingress ≠ (s.builders .ingress).build := by
  have h := Machine.Reachable.start (M := filterEngine) (s := EngineState.new) rfl
  have h := h.step _ (.begin (k := 0) (c := .clear) rfl)
  have h := h.step _ (.store (k := 0) rfl)
  have h := h.step _ (.begin (k := 1) (c := registration) rfl)
  have h := h.step _ (.lock (k := 1) (c := registration) rfl rfl)
  have h := h.step _ (.edit (k := 1) (c := registration) rfl)
  have h := h.step _ (.publish (k := 1) (c := registration) rfl)
  have h := h.step _ (.unlock (k := 1) (c := registration) rfl)
  have h := h.step _ (.lock (k := 0) (c := .clear) rfl rfl)
  have h := h.step _ (.edit (k := 0) (c := .clear) rfl)
  have h := h.step _ (.unlock (k := 0) (c := .clear) rfl)
  refine ⟨_, h, fun k => ?_, nofun⟩
  simp only [EngineState.put, EngineState.new, Function.update_apply]
  split
  · rfl
  · split <;> simp [*]

end Between

end Hardy.Bpa
