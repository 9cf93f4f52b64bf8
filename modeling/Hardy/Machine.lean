import Mathlib.Logic.Function.Basic

/-!
# Transition systems

A system of states that steps under labels, its reachable states and the rule
of invariants.  Interleavings of concurrent parties are runs of a system whose
labels name the party that moves.
-/

namespace Hardy

structure Machine (S L : Type) where
  start : S → Prop
  step : S → L → S → Prop

namespace Machine

variable {S L : Type} {M : Machine S L}

inductive Reachable (M : Machine S L) : S → Prop where
  | start {s : S} : M.start s → M.Reachable s
  | step {s s' : S} (l : L) : M.Reachable s → M.step s l s' → M.Reachable s'

theorem Reachable.invariant {I : S → Prop} (hstart : ∀ s, M.start s → I s)
    (hstep : ∀ s l s', I s → M.step s l s' → I s') {s : S} (h : M.Reachable s) : I s := by
  induction h with
  | start h => exact hstart _ h
  | step l _ h ih => exact hstep _ l _ ih h

theorem Reachable.imp {M' : Machine S L} (hstart : ∀ s, M.start s → M'.start s)
    (hstep : ∀ s l s', M.step s l s' → M'.step s l s') {s : S} (h : M.Reachable s) :
    M'.Reachable s := by
  induction h with
  | start h => exact .start (hstart _ h)
  | step l _ h ih => exact .step l ih (hstep _ l _ h)

def only (M : Machine S L) (C : S → L → Prop) : Machine S L where
  start := M.start
  step s l s' := C s l ∧ M.step s l s'

theorem Reachable.of_only {C : S → L → Prop} {s : S} (h : (M.only C).Reachable s) :
    M.Reachable s := by
  refine Reachable.imp ?_ ?_ h
  · exact fun _ h => h
  · exact fun _ _ _ h => h.2

/-- The system of a partial function: a label that does not apply has no step. -/
def ofStep (start : S → Prop) (f : S → L → Option S) : Machine S L where
  start := start
  step s l s' := f s l = some s'

/-- The system that keeps what its steps put out, in order. -/
def emitting {O : Type} (start : S → Prop) (f : S → L → Option (S × List O)) :
    Machine (S × List O) L where
  start s := start s.1 ∧ s.2 = []
  step s l s' := ∃ os, f s.1 l = some (s'.1, os) ∧ s'.2 = s.2 ++ os

def runSteps (f : S → L → Option S) : S → List L → Option S
  | s, [] => some s
  | s, l :: ls => (f s l).bind (runSteps f · ls)

theorem Reachable.runSteps {f : S → L → Option S} (hf : ∀ s l s', f s l = some s' → M.step s l s')
    {s s' : S} {ls : List L} (hs : M.Reachable s) (h : runSteps f s ls = some s') :
    M.Reachable s' := by
  induction ls generalizing s with
  | nil =>
    cases h
    exact hs
  | cons l ls ih =>
    obtain ⟨t, ht, h⟩ := Option.bind_eq_some_iff.mp h
    exact ih (.step l hs (hf s l t ht)) h

theorem reachable_runSteps {start : S → Prop} {f : S → L → Option S} {s s' : S} {ls : List L}
    (hs : (ofStep start f).Reachable s) (h : runSteps f s ls = some s') :
    (ofStep start f).Reachable s' :=
  hs.runSteps (fun _ _ _ h => h) h

def emit {O : Type} (f : S → L → Option (S × List O)) (p : S × List O) (l : L) :
    Option (S × List O) :=
  (f p.1 l).map fun q => (q.1, p.2 ++ q.2)

theorem reachable_emit {O : Type} {start : S → Prop} {f : S → L → Option (S × List O)}
    {s : S} {p : S × List O} {ls : List L} (hs : start s)
    (h : runSteps (emit f) (s, []) ls = some p) : (emitting start f).Reachable p := by
  refine Reachable.runSteps (fun p l p' hp => ?_) (.start ⟨hs, rfl⟩) h
  obtain ⟨q, hq, rfl⟩ := Option.map_eq_some_iff.mp hp
  exact ⟨q.2, hq, rfl⟩

theorem Reachable.only_runSteps {f : S → L → Option S} {C : S → L → Prop}
    (hf : ∀ s l s', f s l = some s' → M.step s l s') {s s' : S} {ls : List L}
    (hs : (M.only C).Reachable s) (hC : ∀ s, ∀ l ∈ ls, C s l)
    (h : Machine.runSteps f s ls = some s') : (M.only C).Reachable s' := by
  induction ls generalizing s with
  | nil =>
    cases h
    exact hs
  | cons l ls ih =>
    obtain ⟨t, ht, h⟩ := Option.bind_eq_some_iff.mp h
    have hnext : (M.only C).Reachable t := .step l hs ⟨hC s l List.mem_cons_self, hf s l t ht⟩
    exact ih hnext (fun s l hl => hC s l (List.mem_cons_of_mem _ hl)) h

theorem reachable_only_emit {O : Type} {start : S → Prop} {f : S → L → Option (S × List O)}
    {C : S × List O → L → Prop} {p p' : S × List O} {ls : List L}
    (hs : ((emitting start f).only C).Reachable p) (hC : ∀ p, ∀ l ∈ ls, C p l)
    (h : Machine.runSteps (emit f) p ls = some p') : ((emitting start f).only C).Reachable p' := by
  refine hs.only_runSteps (fun p l p' hp => ?_) hC h
  obtain ⟨q, hq, rfl⟩ := Option.map_eq_some_iff.mp hp
  exact ⟨q.2, hq, rfl⟩

/-- What is put out is as `Q` says of it, behind what is put out before it. -/
def Each {O : Type} (Q : List O → O → Prop) (tr : List O) : Prop :=
  ∀ pre o post, tr = pre ++ o :: post → Q pre o

theorem each_nil {O : Type} {Q : List O → O → Prop} : Each Q [] := fun _ _ _ h =>
  absurd h.symm (List.append_ne_nil_of_right_ne_nil _ (List.cons_ne_nil _ _))

theorem Each.append {O : Type} {Q : List O → O → Prop} {tr os : List O} (h : Each Q tr)
    (hos : ∀ pre o post, os = pre ++ o :: post → Q (tr ++ pre) o) : Each Q (tr ++ os) := by
  intro pre o post heq
  rcases List.append_eq_append_iff.mp heq with ⟨pre', rfl, hpre'⟩ | ⟨post', htr, hpost'⟩
  · exact hos pre' o post hpre'
  · cases post' with
    | nil =>
      rw [List.append_nil] at htr
      have hq := hos [] o post hpost'.symm
      rwa [List.append_nil, htr] at hq
    | cons o' post' =>
      obtain ⟨rfl, -⟩ := List.cons.inj hpost'
      exact h pre o post' htr

end Machine

end Hardy
