import Mathlib.Logic.Function.Basic
import Hardy.Lru
import Hardy.Machine
import Hardy.Types

/-!
# The cache of bundle data

Model of `bpa/src/storage/bundle_cache.rs`: a cache beside a backend, each with a lock
of its own, so that a call is several steps and the steps of concurrent calls
interleave.  A call of the backend takes effect at one step, and one that fails may
have taken effect.  Each stored copy has the number of the write it is from, and what
a load has to return is read off the state when it starts (`Started`).

Where no save or replace of a name overlaps another write of it, loads are fresh
(`fresh_of_apart`).  A replace that overlaps a delete puts back what was deleted
(`overlap_not_fresh`).
-/

namespace Hardy.Storage.Cache

structure Copy where
  data : Bytes
  version : Nat
deriving DecidableEq

/-- What a load finds settled when it starts: the last replace that completed, and how
many writes there had been, if the name was deleted and not written since. -/
structure Started where
  floor : Nat
  since : Option Nat

inductive Call where
  | loading (name : String) (st : Started)
  | saved (name : String) (copy : Copy)
  | replacing (name : String) (data : Bytes)
  | replaced (name : String) (copy : Copy)
  | deleting (name : String)
  | popped (name : String)

namespace Call

def Writes (name : String) : Call → Prop
  | .saved n _ | .replacing n _ | .replaced n _ => n = name
  | _ => False

def Touches (name : String) : Call → Prop
  | .saved n _ | .replacing n _ | .replaced n _ | .deleting n | .popped n => n = name
  | .loading _ _ => False

/-- A save or a replace that has stored the copy, and has not told the cache. -/
def Holds (name : String) (copy : Copy) : Call → Prop
  | .saved n c | .replaced n c => n = name ∧ c = copy
  | _ => False

theorem Holds.writes {name : String} {copy : Copy} {x : Call} (h : x.Holds name copy) :
    x.Writes name := by
  cases x <;> first | exact h.elim | exact h.1

theorem Writes.touches {name : String} {x : Call} (h : x.Writes name) : x.Touches name := by
  cases x <;> first | exact h.elim | exact h

end Call

/-- `CachedBundleStorage`, with its backend, the calls in progress and what the
finished calls leave to expect. -/
structure State where
  inner : String → Option Copy
  lru : Lru String Copy
  maxBundleSize : Nat
  calls : Nat → Option Call
  version : Nat
  floor : String → Nat
  writes : String → Nat
  deletedAt : String → Option Nat

namespace State

def isCacheable (s : State) (data : Bytes) : Bool := data.length < s.maxBundleSize

def call (s : State) (c : Nat) (x : Option Call) : State :=
  { s with calls := Function.update s.calls c x }

def begin (s : State) (name : String) : State :=
  { s with writes := Function.update s.writes name (s.writes name + 1) }

def next (s : State) (data : Bytes) : Copy := ⟨data, s.version + 1⟩

def store (s : State) (name : String) (data : Bytes) : State :=
  { s with
    inner := Function.update s.inner name (some (s.next data))
    version := s.version + 1 }

def remove (s : State) (name : String) : State :=
  { s with inner := Function.update s.inner name none }

def put (s : State) (name : String) (copy : Copy) : State :=
  { s with lru := s.lru.push name copy }

def pop (s : State) (name : String) : State := { s with lru := s.lru.pop name }

def settle (s : State) (name : String) (copy : Copy) : State :=
  { s with floor := Function.update s.floor name (max (s.floor name) copy.version) }

def gone (s : State) (name : String) : State :=
  { s with deletedAt := Function.update s.deletedAt name (some (s.writes name)) }

def Quiet (s : State) (name : String) : Prop := s.deletedAt name = some (s.writes name)

def started (s : State) (name : String) : Started where
  floor := s.floor name
  since := if s.deletedAt name = some (s.writes name) then some (s.writes name) else none

end State

/-! ## Steps -/

inductive Label where
  | hit (name : String)
  | miss (c : Nat) (name : String)
  | save (c : Nat) (name : String) (data : Bytes)
  | replace (c : Nat) (name : String) (data : Bytes)
  | delete (c : Nat) (name : String)
  | resume (c : Nat)

inductive Step : State → Label → State → Prop where
  /-- A hit pops the entry. -/
  | hit {s : State} {name : String} {copy : Copy} :
      s.lru.peek name = some copy → Step s (.hit name) (s.pop name)
  | miss {s : State} {c : Nat} {name : String} : s.calls c = none → s.lru.peek name = none →
      Step s (.miss c name) (s.call c (some (.loading name (s.started name))))
  | loaded {s : State} {c : Nat} {name : String} {st : Started} :
      s.calls c = some (.loading name st) → Step s (.resume c) (s.call c none)
  /-- The backend chooses a name that is free. -/
  | save {s : State} {c : Nat} {name : String} (data : Bytes) : s.calls c = none →
      s.inner name = none →
      Step s (.save c name data)
        (((s.begin name).store name data).call c (some (.saved name (s.next data))))
  | saveFailed {s : State} {c : Nat} {name : String} (data : Bytes) : s.calls c = none →
      s.inner name = none → Step s (.save c name data) ((s.begin name).store name data)
  | saveCached {s : State} {c : Nat} {name : String} {copy : Copy} :
      s.calls c = some (.saved name copy) →
      Step s (.resume c)
        ((if s.isCacheable copy.data then s.put name copy else s).call c none)
  | replace {s : State} {c : Nat} (name : String) (data : Bytes) : s.calls c = none →
      Step s (.replace c name data) ((s.begin name).call c (some (.replacing name data)))
  | replaceStored {s : State} {c : Nat} {name : String} {data : Bytes} :
      s.calls c = some (.replacing name data) →
      Step s (.resume c) ((s.store name data).call c (some (.replaced name (s.next data))))
  | replaceFailed {s : State} {c : Nat} {name : String} {data : Bytes} (applied : Bool) :
      s.calls c = some (.replacing name data) →
      Step s (.resume c) ((if applied then s.store name data else s).call c none)
  | replaceCached {s : State} {c : Nat} {name : String} {copy : Copy} :
      s.calls c = some (.replaced name copy) →
      Step s (.resume c)
        (((if s.isCacheable copy.data then s.put name copy else s.pop name).settle name copy).call
          c none)
  | delete {s : State} {c : Nat} (name : String) : s.calls c = none →
      Step s (.delete c name) (s.call c (some (.deleting name)))
  | deletePopped {s : State} {c : Nat} {name : String} : s.calls c = some (.deleting name) →
      Step s (.resume c) ((s.pop name).call c (some (.popped name)))
  | deleted {s : State} {c : Nat} {name : String} : s.calls c = some (.popped name) →
      Step s (.resume c) (((s.remove name).gone name).call c none)
  | deleteFailed {s : State} {c : Nat} {name : String} (applied : Bool) :
      s.calls c = some (.popped name) →
      Step s (.resume c) ((if applied then s.remove name else s).call c none)

structure New (s : State) : Prop where
  lru : s.lru.entries = []
  calls : ∀ c, s.calls c = none
  versions : ∀ name copy, s.inner name = some copy → copy.version ≤ s.version
  floor : ∀ name, s.floor name = 0
  deletedAt : ∀ name, s.deletedAt name = none

def machine : Machine State Label where
  start := New
  step := Step

/-- A load of the name returns the result, after it started with what was settled. -/
inductive Returns (s : State) (name : String) : Started → Option Copy → Prop where
  | hit {copy : Copy} : s.lru.peek name = some copy → Returns s name (s.started name) (some copy)
  | loaded {c : Nat} {st : Started} : s.calls c = some (.loading name st) →
      Returns s name st (s.inner name)

/-- The result is none if the name was deleted before the start and not written since,
and never from a write before a replace that had completed. -/
structure Fresh (s : State) (name : String) (st : Started) (r : Option Copy) : Prop where
  gone : st.since = some (s.writes name) → r = none
  floor : ∀ copy ∈ r, st.floor ≤ copy.version

/-- No write of a name starts while a save or a replace of it is in progress, and no
save or replace while a delete is. -/
def Apart (s : State) : Label → Prop
  | .save _ name _ | .replace _ name _ => ∀ c x, s.calls c = some x → ¬ x.Touches name
  | .delete _ name => ∀ c x, s.calls c = some x → ¬ x.Writes name
  | _ => True

/-! ## What holds between the steps -/

structure Inv (s : State) : Prop where
  cached : ∀ n copy, s.lru.peek n = some copy → s.floor n ≤ copy.version
  stored : ∀ n copy, s.inner n = some copy → s.floor n ≤ copy.version
  versions : ∀ n copy, s.inner n = some copy → copy.version ≤ s.version
  floor : ∀ n, s.floor n ≤ s.version
  holds : ∀ c x n copy, s.calls c = some x → x.Holds n copy → s.inner n = some copy
  deletedAt : ∀ n k, s.deletedAt n = some k → k ≤ s.writes n
  quiet : ∀ n, s.Quiet n → s.lru.peek n = none ∧ s.inner n = none ∧
    ∀ c x, s.calls c = some x → ¬ x.Writes n
  popped : ∀ c n, s.calls c = some (.popped n) → s.lru.peek n = none
  apart : ∀ c c' x x' n, s.calls c = some x → s.calls c' = some x' → x.Writes n → x'.Touches n →
    c = c'
  loading : ∀ c n st, s.calls c = some (.loading n st) → st.floor ≤ s.floor n ∧
    ∀ k, st.since = some k → k ≤ s.writes n ∧ (k = s.writes n → s.Quiet n)

namespace Inv

variable {s : State} {c : Nat} {x : Call} {n : String} {copy : Copy} {data : Bytes}

theorem only (h : Inv s) (hc : s.calls c = some x) (hw : x.Writes n) {c' : Nat} {x' : Call}
    (hc' : s.calls c' = some x') (hne : c' ≠ c) : ¬ x'.Touches n :=
  fun ht => hne (h.apart c c' x x' n hc hc' hw ht).symm

theorem no_writes (h : Inv s) (hc : s.calls c = some x) (ht : x.Touches n) (hx : ¬ x.Writes n)
    (c' : Nat) (x' : Call) (hc' : s.calls c' = some x') : ¬ x'.Writes n := by
  intro hw
  have heq := h.apart c' c x' x n hc' hc hw ht
  rw [heq, hc] at hc'
  cases hc'
  exact hx hw

theorem not_quiet (h : Inv s) (hc : s.calls c = some x) (hw : x.Writes n) : ¬ s.Quiet n :=
  fun hq => (h.quiet n hq).2.2 c x hc hw

theorem drop (h : Inv s) (c : Nat) : Inv (s.call c none) := by
  have hcalls : ∀ {c' x}, (s.call c none).calls c' = some x → s.calls c' = some x := by
    intro c' x hx
    rw [State.call] at hx
    dsimp only at hx
    by_cases hc : c' = c
    · rw [hc, Function.update_self] at hx
      cases hx
    · rwa [Function.update_of_ne hc] at hx
  exact {
    h with
    holds := fun c x n copy hc => h.holds c x n copy (hcalls hc)
    quiet := fun n hq => ⟨(h.quiet n hq).1, (h.quiet n hq).2.1,
      fun c x hc => (h.quiet n hq).2.2 c x (hcalls hc)⟩
    popped := fun c n hc => h.popped c n (hcalls hc)
    apart := fun c c' x x' n hc hc' => h.apart c c' x x' n (hcalls hc) (hcalls hc')
    loading := fun c n st hc => h.loading c n st (hcalls hc) }

theorem add (h : Inv s) (hholds : ∀ n copy, x.Holds n copy → s.inner n = some copy)
    (hquiet : ∀ n, x.Writes n → ¬ s.Quiet n) (hpopped : ∀ n, x = .popped n → s.lru.peek n = none)
    (hloading : ∀ n st, x = .loading n st → st.floor ≤ s.floor n ∧
      ∀ k, st.since = some k → k ≤ s.writes n ∧ (k = s.writes n → s.Quiet n))
    (hwrites : ∀ n c' x', c' ≠ c → s.calls c' = some x' → x.Writes n → ¬ x'.Touches n)
    (htouches : ∀ n c' x', c' ≠ c → s.calls c' = some x' → x'.Writes n → ¬ x.Touches n) :
    Inv (s.call c (some x)) := by
  have hcalls : ∀ {c' x'}, (s.call c (some x)).calls c' = some x' →
      (c' = c ∧ x' = x) ∨ (c' ≠ c ∧ s.calls c' = some x') := by
    intro c' x' hx
    rw [State.call] at hx
    dsimp only at hx
    by_cases hc : c' = c
    · rw [hc, Function.update_self] at hx
      exact .inl ⟨hc, (Option.some.inj hx).symm⟩
    · rw [Function.update_of_ne hc] at hx
      exact .inr ⟨hc, hx⟩
  refine { h with holds := ?_, quiet := ?_, popped := ?_, apart := ?_, loading := ?_ }
  · intro c' x' n copy hc hx
    rcases hcalls hc with ⟨-, rfl⟩ | ⟨-, hc⟩
    · exact hholds n copy hx
    · exact h.holds c' x' n copy hc hx
  · intro n hq
    refine ⟨(h.quiet n hq).1, (h.quiet n hq).2.1, fun c' x' hc => ?_⟩
    rcases hcalls hc with ⟨-, rfl⟩ | ⟨-, hc⟩
    · exact fun hw => hquiet n hw hq
    · exact (h.quiet n hq).2.2 c' x' hc
  · intro c' n hc
    rcases hcalls hc with ⟨-, hx⟩ | ⟨-, hc⟩
    · exact hpopped n hx.symm
    · exact h.popped c' n hc
  · intro c₁ c₂ x₁ x₂ n hc₁ hc₂ hw ht
    rcases hcalls hc₁ with ⟨rfl, rfl⟩ | ⟨hne₁, hold₁⟩
    · rcases hcalls hc₂ with ⟨rfl, -⟩ | ⟨hne₂, hold₂⟩
      · rfl
      · exact absurd ht (hwrites n c₂ x₂ hne₂ hold₂ hw)
    · rcases hcalls hc₂ with ⟨rfl, rfl⟩ | ⟨hne₂, hold₂⟩
      · exact absurd ht (htouches n c₁ x₁ hne₁ hold₁ hw)
      · exact h.apart c₁ c₂ x₁ x₂ n hold₁ hold₂ hw ht
  · intro c' n st hc
    rcases hcalls hc with ⟨-, hx⟩ | ⟨-, hc⟩
    · exact hloading n st hx.symm
    · exact h.loading c' n st hc

theorem begin (h : Inv s) (n : String) : Inv (s.begin n) := by
  have hle : ∀ m, s.writes m ≤ (s.begin n).writes m := by
    intro m
    rw [State.begin]
    dsimp only
    by_cases hm : m = n
    · rw [hm, Function.update_self]
      exact Nat.le_succ _
    · rw [Function.update_of_ne hm]
  have hquiet : ∀ m, (s.begin n).Quiet m → s.Quiet m := by
    intro m hq
    have hk := h.deletedAt m _ hq
    rw [State.Quiet] at hq ⊢
    rwa [Nat.le_antisymm hk (hle m)] at hq
  refine { h with deletedAt := ?_, quiet := ?_, loading := ?_ }
  · exact fun m k hk => Nat.le_trans (h.deletedAt m k hk) (hle m)
  · exact fun m hq => h.quiet m (hquiet m hq)
  · intro c m st hc
    obtain ⟨hfloor, hsince⟩ := h.loading c m st hc
    refine ⟨hfloor, fun k hk => ?_⟩
    obtain ⟨hkle, hkq⟩ := hsince k hk
    refine ⟨Nat.le_trans hkle (hle m), fun heq => ?_⟩
    have hsame : s.writes m = (s.begin n).writes m := Nat.le_antisymm (hle m) (heq ▸ hkle)
    have hq := hkq (heq.trans hsame.symm)
    rw [State.Quiet] at hq ⊢
    rwa [hsame] at hq

theorem pop (h : Inv s) (n : String) : Inv (s.pop n) := by
  have hpeek : ∀ {m copy}, (s.pop n).lru.peek m = some copy → s.lru.peek m = some copy := by
    intro m copy hm
    rw [State.pop, Lru.peek_pop] at hm
    split at hm
    · cases hm
    · exact hm
  have hnone : ∀ {m}, s.lru.peek m = none → (s.pop n).lru.peek m = none := by
    intro m hm
    rw [State.pop, Lru.peek_pop, hm, ite_self]
  exact {
    h with
    cached := fun m copy hm => h.cached m copy (hpeek hm)
    quiet := fun m hq => ⟨hnone (h.quiet m hq).1, (h.quiet m hq).2⟩
    popped := fun c m hc => hnone (h.popped c m hc) }

theorem put (h : Inv s) (hfloor : s.floor n ≤ copy.version) (hquiet : ¬ s.Quiet n)
    (hpopped : ∀ c, s.calls c ≠ some (.popped n)) : Inv (s.put n copy) := by
  have hnone : ∀ {m}, m ≠ n → s.lru.peek m = none → (s.put n copy).lru.peek m = none := by
    intro m hne hm
    rcases Lru.peek_push (c := s.lru) (v := copy) hne with hp | hp
    · exact hp.trans hm
    · exact hp
  refine { h with cached := ?_, quiet := ?_, popped := ?_ }
  · intro m copy' hm
    by_cases hne : m = n
    · subst hne
      have hself := Lru.peek_push_self (c := s.lru) (k := m) (v := copy)
      obtain rfl : copy' = copy := Option.some.inj (hm.symm.trans hself)
      exact hfloor
    · rcases Lru.peek_push (c := s.lru) (v := copy) hne with hp | hp
      · exact h.cached m copy' (hp.symm.trans hm)
      · cases hp.symm.trans hm
  · intro m hq
    refine ⟨hnone ?_ (h.quiet m hq).1, (h.quiet m hq).2⟩
    rintro rfl
    exact hquiet hq
  · intro c m hc
    refine hnone ?_ (h.popped c m hc)
    rintro rfl
    exact hpopped c hc

theorem store (h : Inv s) (hquiet : ¬ s.Quiet n)
    (hholds : ∀ c x copy, s.calls c = some x → ¬ x.Holds n copy) : Inv (s.store n data) := by
  have hinner : ∀ {m copy}, (s.store n data).inner m = some copy →
      (m = n ∧ copy = s.next data) ∨ (m ≠ n ∧ s.inner m = some copy) := by
    intro m copy hm
    rw [State.store] at hm
    dsimp only at hm
    by_cases hne : m = n
    · rw [hne, Function.update_self] at hm
      exact .inl ⟨hne, (Option.some.inj hm).symm⟩
    · rw [Function.update_of_ne hne] at hm
      exact .inr ⟨hne, hm⟩
  refine { h with stored := ?_, versions := ?_, floor := ?_, holds := ?_, quiet := ?_ }
  · intro m copy hm
    rcases hinner hm with ⟨-, rfl⟩ | ⟨-, hm⟩
    · exact Nat.le_succ_of_le (h.floor m)
    · exact h.stored m copy hm
  · intro m copy hm
    rcases hinner hm with ⟨-, rfl⟩ | ⟨-, hm⟩
    · exact Nat.le_refl _
    · exact Nat.le_succ_of_le (h.versions m copy hm)
  · exact fun m => Nat.le_succ_of_le (h.floor m)
  · intro c x m copy hc hx
    have hne : m ≠ n := by
      rintro rfl
      exact hholds c x copy hc hx
    exact (Function.update_of_ne hne _ _).trans (h.holds c x m copy hc hx)
  · intro m hq
    have hne : m ≠ n := by
      rintro rfl
      exact hquiet hq
    exact ⟨(h.quiet m hq).1, (Function.update_of_ne hne _ _).trans (h.quiet m hq).2.1,
      (h.quiet m hq).2.2⟩

theorem remove (h : Inv s) (hholds : ∀ c x copy, s.calls c = some x → ¬ x.Holds n copy) :
    Inv (s.remove n) := by
  have hinner : ∀ {m copy}, (s.remove n).inner m = some copy → s.inner m = some copy := by
    intro m copy hm
    rw [State.remove] at hm
    dsimp only at hm
    by_cases hne : m = n
    · rw [hne, Function.update_self] at hm
      cases hm
    · rwa [Function.update_of_ne hne] at hm
  refine { h with stored := ?_, versions := ?_, holds := ?_, quiet := ?_ }
  · exact fun m copy hm => h.stored m copy (hinner hm)
  · exact fun m copy hm => h.versions m copy (hinner hm)
  · intro c x m copy hc hx
    have hne : m ≠ n := by
      rintro rfl
      exact hholds c x copy hc hx
    exact (Function.update_of_ne hne _ _).trans (h.holds c x m copy hc hx)
  · intro m hq
    refine ⟨(h.quiet m hq).1, ?_, (h.quiet m hq).2.2⟩
    rw [State.remove]
    dsimp only
    by_cases hne : m = n
    · rw [hne, Function.update_self]
    · rw [Function.update_of_ne hne]
      exact (h.quiet m hq).2.1

theorem settle (h : Inv s) (hinner : s.inner n = some copy)
    (hcached : ∀ copy', s.lru.peek n = some copy' → copy' = copy) : Inv (s.settle n copy) := by
  have hmax : max (s.floor n) copy.version = copy.version := Nat.max_eq_right (h.stored n copy hinner)
  have hfloor : ∀ m, (s.settle n copy).floor m = if m = n then copy.version else s.floor m := by
    intro m
    rw [State.settle, hmax]
    dsimp only
    split
    · next hm => rw [hm, Function.update_self]
    · next hm => rw [Function.update_of_ne hm]
  have hle : ∀ m, s.floor m ≤ (s.settle n copy).floor m := by
    intro m
    rw [hfloor]
    split
    · next hm => exact hm ▸ h.stored n copy hinner
    · exact Nat.le_refl _
  refine { h with cached := ?_, stored := ?_, floor := ?_, loading := ?_ }
  · intro m copy' hm
    rw [hfloor]
    split
    · next heq =>
        subst heq
        rw [hcached copy' hm]
    · exact h.cached m copy' hm
  · intro m copy' hm
    rw [hfloor]
    split
    · next heq =>
        subst heq
        rw [Option.some.inj (hm.symm.trans hinner)]
    · exact h.stored m copy' hm
  · intro m
    rw [hfloor]
    split
    · exact h.versions n copy hinner
    · exact h.floor m
  · intro c m st hc
    obtain ⟨hst, hsince⟩ := h.loading c m st hc
    exact ⟨Nat.le_trans hst (hle m), hsince⟩

theorem gone (h : Inv s) (hlru : s.lru.peek n = none) (hinner : s.inner n = none)
    (hwrites : ∀ c x, s.calls c = some x → ¬ x.Writes n) : Inv (s.gone n) := by
  have hdeleted : ∀ m, (s.gone n).deletedAt m =
      if m = n then some (s.writes n) else s.deletedAt m := by
    intro m
    rw [State.gone]
    dsimp only
    split
    · next hm => rw [hm, Function.update_self]
    · next hm => rw [Function.update_of_ne hm]
  refine { h with deletedAt := ?_, quiet := ?_, loading := ?_ }
  · intro m k hk
    rw [hdeleted] at hk
    split at hk
    · next hm =>
        cases hk
        exact Nat.le_of_eq (congrArg s.writes hm.symm)
    · exact h.deletedAt m k hk
  · intro m hq
    rw [State.Quiet, hdeleted] at hq
    split at hq
    · next hm =>
        subst hm
        exact ⟨hlru, hinner, hwrites⟩
    · exact h.quiet m hq
  · intro c m st hc
    obtain ⟨hst, hsince⟩ := h.loading c m st hc
    refine ⟨hst, fun k hk => ⟨(hsince k hk).1, fun heq => ?_⟩⟩
    rw [State.Quiet, hdeleted]
    split
    · next hm =>
        rw [hm]
        rfl
    · exact (hsince k hk).2 heq

/-! ## Steps of writes that do not overlap -/

theorem no_holds (h : Inv s) (hc : s.calls c = some x) (ht : x.Touches n)
    (hx : ∀ copy, ¬ x.Holds n copy) (c' : Nat) (x' : Call) (copy : Copy)
    (hc' : s.calls c' = some x') : ¬ x'.Holds n copy := by
  intro hh
  have heq := h.apart c' c x' x n hc' hc hh.writes ht
  rw [heq, hc] at hc'
  cases hc'
  exact hx copy hh

theorem advance (h : Inv s) {y : Call} (hc : s.calls c = some x)
    (hwrites : ∀ n, y.Writes n → x.Writes n) (htouches : ∀ n, y.Touches n → x.Touches n)
    (hholds : ∀ n copy, y.Holds n copy → s.inner n = some copy)
    (hpopped : ∀ n, y = .popped n → s.lru.peek n = none) (hloading : ∀ n st, y ≠ .loading n st) :
    Inv (s.call c (some y)) := by
  refine h.add hholds (fun n hw => h.not_quiet hc (hwrites n hw)) hpopped
    (fun n st hy => absurd hy (hloading n st)) (fun n c' x' hne hc' hw => ?_)
    fun n c' x' hne hc' hw ht => ?_
  · exact h.only hc (hwrites n hw) hc' hne
  · exact hne (h.apart c' c x' x n hc' hc hw (htouches n ht))

theorem begin_not_quiet (h : Inv s) (n : String) : ¬ (s.begin n).Quiet n := by
  intro hq
  have hle := h.deletedAt n _ hq
  rw [State.begin] at hle
  dsimp only at hle
  rw [Function.update_self] at hle
  exact Nat.not_succ_le_self _ hle

theorem start_write (h : Inv s) {y : Call} (hapart : ∀ c x, s.calls c = some x → ¬ x.Touches n)
    (hquiet : ¬ s.Quiet n) (hwrites : ∀ m, y.Touches m → m = n) (hpopped : ∀ m, y ≠ .popped m)
    (hloading : ∀ m st, y ≠ .loading m st)
    (hholds : ∀ m copy, y.Holds m copy → s.inner m = some copy) : Inv (s.call c (some y)) := by
  refine h.add hholds (fun m hw => ?_) (fun m hy => absurd hy (hpopped m))
    (fun m st hy => absurd hy (hloading m st)) (fun m c' x' _ hc' hw => ?_)
    fun m c' x' _ hc' hw ht => ?_
  · rw [hwrites m hw.touches]
    exact hquiet
  · rw [hwrites m hw.touches]
    exact hapart c' x' hc'
  · rw [hwrites m ht] at hw
    exact hapart c' x' hc' hw.touches

theorem saved (h : Inv s) (hapart : ∀ c x, s.calls c = some x → ¬ x.Touches n) :
    Inv ((s.begin n).store n data) :=
  (h.begin n).store (h.begin_not_quiet n) fun c x _ hc hx => hapart c x hc hx.writes.touches

theorem written (h : Inv s) (hc : s.calls c = some x) (hw : x.Writes n)
    (hx : ∀ copy, ¬ x.Holds n copy) : Inv (s.store n data) :=
  h.store (h.not_quiet hc hw) (h.no_holds hc hw.touches hx)

theorem cached_put (h : Inv s) (hc : s.calls c = some x) (hx : x.Holds n copy) :
    Inv (s.put n copy) := by
  refine h.put (h.stored n copy (h.holds c x n copy hc hx)) (h.not_quiet hc hx.writes) fun c' hc' => ?_
  have heq := h.apart c c' x (.popped n) n hc hc' hx.writes rfl
  rw [← heq, hc] at hc'
  cases hc'
  exact hx

theorem replaced (h : Inv s) (hc : s.calls c = some (.replaced n copy)) :
    Inv ((if s.isCacheable copy.data then s.put n copy else s.pop n).settle n copy) := by
  have hx : (Call.replaced n copy).Holds n copy := ⟨rfl, rfl⟩
  have hinner := h.holds c _ n copy hc hx
  split
  · refine (h.cached_put hc hx).settle hinner fun copy' hp => ?_
    exact Option.some.inj (hp.symm.trans Lru.peek_push_self)
  · refine (h.pop n).settle hinner fun copy' hp => ?_
    rw [State.pop, Lru.peek_pop, if_pos rfl] at hp
    cases hp

theorem deleted (h : Inv s) (hc : s.calls c = some (.popped n)) : Inv ((s.remove n).gone n) :=
  (h.remove (h.no_holds hc rfl fun _ hx => hx)).gone (h.popped c n hc) (Function.update_self _ _ _)
    (h.no_writes hc rfl fun hx => hx)

theorem step (h : Inv s) {l : Label} {s' : State} (ha : Apart s l) (hstep : Step s l s') :
    Inv s' := by
  cases hstep with
  | hit hp => exact h.pop _
  | @miss c name hc hp =>
    refine h.add (fun _ _ hx => hx.elim) (fun _ hx => hx.elim) nofun ?_
      (fun _ _ _ _ _ hx => hx.elim) fun _ _ _ _ _ _ ht => ht
    rintro n st hx
    cases hx
    refine ⟨Nat.le_refl _, fun k hk => ?_⟩
    rw [State.started, Option.ite_none_right_eq_some] at hk
    obtain ⟨hq, hk⟩ := hk
    cases hk
    exact ⟨Nat.le_refl _, fun _ => hq⟩
  | loaded hc => exact h.drop _
  | @save c name data hc hn =>
    refine (h.saved ha).start_write ha (h.begin_not_quiet name) (fun m hm => hm.symm)
      nofun nofun ?_
    rintro m copy ⟨rfl, rfl⟩
    exact Function.update_self _ _ _
  | saveFailed data hc hn => exact h.saved ha
  | saveCached hc =>
    refine drop ?_ _
    split
    · exact h.cached_put hc ⟨rfl, rfl⟩
    · exact h
  | replace name data hc =>
    exact (h.begin name).start_write ha (h.begin_not_quiet name) (fun m hm => hm.symm)
      nofun nofun fun m copy hm => hm.elim
  | @replaceStored c name data hc =>
    refine (h.written hc rfl fun _ hx => hx).advance hc (fun m hm => hm) (fun m hm => hm) ?_
      nofun fun m st hy => by cases hy
    rintro m copy ⟨rfl, rfl⟩
    exact Function.update_self _ _ _
  | replaceFailed applied hc =>
    refine drop ?_ _
    split
    · exact h.written hc rfl fun _ hx => hx
    · exact h
  | replaceCached hc => exact (h.replaced hc).drop _
  | @delete c name hc =>
    refine h.add (fun _ _ hx => hx.elim) (fun _ hx => hx.elim) nofun
      nofun (fun _ _ _ _ _ hx => hx.elim) fun m c' x' _ hc' hw ht => ?_
    exact ha c' x' hc' (ht ▸ hw)
  | @deletePopped c name hc =>
    refine (h.pop name).advance hc (fun m hm => hm) (fun m hm => hm) (fun _ _ hx => hx.elim) ?_
      fun m st hy => by cases hy
    rintro m hm
    cases hm
    rw [State.pop, Lru.peek_pop, if_pos rfl]
  | deleted hc => exact (h.deleted hc).drop _
  | deleteFailed applied hc =>
    refine drop ?_ _
    split
    · exact h.remove (h.no_holds hc rfl fun _ hx => hx)
    · exact h

end Inv

theorem New.inv {s : State} (h : New s) : Inv s := by
  have hpeek : ∀ n, s.lru.peek n = none := by
    intro n
    rw [Lru.peek, h.lru]
    rfl
  have hcalls : ∀ {c x}, s.calls c ≠ some x := by
    intro c x hc
    rw [h.calls] at hc
    cases hc
  have hquiet : ∀ n, ¬ s.Quiet n := by
    intro n hq
    rw [State.Quiet, h.deletedAt] at hq
    cases hq
  exact {
    cached := fun n copy hn => by rw [hpeek] at hn; cases hn
    stored := fun n copy _ => by rw [h.floor]; exact Nat.zero_le _
    versions := h.versions
    floor := fun n => by rw [h.floor]; exact Nat.zero_le _
    holds := fun c x n copy hc => absurd hc hcalls
    deletedAt := fun n k hk => by rw [h.deletedAt] at hk; cases hk
    quiet := fun n hq => absurd hq (hquiet n)
    popped := fun c n hc => absurd hc hcalls
    apart := fun c c' x x' n hc => absurd hc hcalls
    loading := fun c n st hc => absurd hc hcalls }

theorem Inv.fresh {s : State} (h : Inv s) {name : String} {st : Started} {r : Option Copy}
    (hr : Returns s name st r) : Fresh s name st r := by
  cases hr with
  | @hit copy hp =>
    refine ⟨fun hsince => ?_, fun copy' hcopy => ?_⟩
    · rw [State.started, Option.ite_none_right_eq_some] at hsince
      rw [(h.quiet name hsince.1).1] at hp
      cases hp
    · cases hcopy
      exact h.cached name copy hp
  | @loaded c _ hc =>
    obtain ⟨hfloor, hsince⟩ := h.loading c name st hc
    refine ⟨fun hk => ?_, fun copy hcopy => ?_⟩
    · exact (h.quiet name ((hsince _ hk).2 rfl)).2.1
    · exact Nat.le_trans hfloor (h.stored name copy hcopy)

/-- Where the saves, replaces and deletes of each name keep apart, every load is
fresh. -/
theorem fresh_of_apart (s : State) (h : (machine.only Apart).Reachable s) (name : String)
    (st : Started) (r : Option Copy) (hr : Returns s name st r) : Fresh s name st r := by
  have hinv : Inv s := by
    refine h.invariant (I := Inv) (fun s (hs : New s) => hs.inv) ?_
    rintro s l s' hinv ⟨ha, hstep⟩
    exact hinv.step ha hstep
  exact hinv.fresh hr

/-! ## A replace across a delete -/

/-- A cache for one bundle, around a backend with the copy under each name. -/
def new (copy : Option Copy) : State where
  inner _ := copy
  lru := .empty 1 Nat.one_pos
  maxBundleSize := 16
  calls _ := none
  version := 0
  floor _ := 0
  writes _ := 0
  deletedAt _ := none

theorem new_new {copy : Option Copy} (h : ∀ c ∈ copy, c.version = 0) : New (new copy) where
  lru := rfl
  calls _ := rfl
  versions _ c hc := Nat.le_of_eq (h c hc)
  floor _ := rfl
  deletedAt _ := rfl

theorem reach {C : State → Label → Prop} {s s' : State} (h : (machine.only C).Reachable s)
    (l : Label) (hc : C s l) (hstep : Step s l s') : (machine.only C).Reachable s' :=
  h.step l ⟨hc, hstep⟩

/-- A replace, a load that hits what it has cached, a delete, and a load that finds nothing. -/
theorem load_fresh : ∃ s s' copy st, (machine.only Apart).Reachable s ∧
    s.lru.peek "a" = some copy ∧ (s.started "a").floor = copy.version ∧
    Fresh s "a" (s.started "a") (some copy) ∧ (machine.only Apart).Reachable s' ∧
    s'.calls 1 = some (.loading "a" st) ∧ st.since = some (s'.writes "a") ∧
    Fresh s' "a" st none := by
  have hstart : (machine.only Apart).Reachable (new none) := .start (new_new nofun)
  have hreplace := reach hstart (.replace 1 "a" [7]) nofun
    (.replace "a" [7] rfl)
  have hstored := reach hreplace (.resume 1) trivial (.replaceStored rfl)
  have hcached := reach hstored (.resume 1) trivial (.replaceCached rfl)
  have hhit := reach hcached (.hit "a") trivial (.hit Lru.peek_push_self)
  have hdelete := reach hhit (.delete 2 "a") (fun c x hc => ?_) (.delete "a" rfl)
  · have hpopped := reach hdelete (.resume 2) trivial (.deletePopped rfl)
    have hdeleted := reach hpopped (.resume 2) trivial (.deleted rfl)
    have hmiss := reach hdeleted (.miss 1 "a") trivial (.miss rfl rfl)
    exact ⟨_, _, _, _, hcached, Lru.peek_push_self, rfl,
      fresh_of_apart _ hcached "a" _ _ (.hit Lru.peek_push_self), hmiss, rfl, rfl,
      fresh_of_apart _ hmiss "a" _ _ (.loaded (c := 1) rfl)⟩
  · match c with
    | 0 | 1 | _ + 2 => cases hc

/-- The replace stores its data, the delete runs, and the replace tells the cache. -/
theorem overlap_not_fresh : ¬ ∀ s, machine.Reachable s →
    ∀ name st r, Returns s name st r → Fresh s name st r := by
  intro h
  have hstart : (machine.only fun _ _ => True).Reachable (new none) :=
    .start (new_new nofun)
  have hreplace := reach hstart (.replace 1 "a" []) trivial (.replace "a" [] rfl)
  have hstored := reach hreplace (.resume 1) trivial (.replaceStored rfl)
  have hdelete := reach hstored (.delete 2 "a") trivial (.delete "a" rfl)
  have hpopped := reach hdelete (.resume 2) trivial (.deletePopped rfl)
  have hdeleted := reach hpopped (.resume 2) trivial (.deleted rfl)
  have hcached := reach hdeleted (.resume 1) trivial (.replaceCached rfl)
  have hgone := (h _ hcached.of_only "a" _ _ (.hit Lru.peek_push_self)).gone rfl
  cases hgone

end Hardy.Storage.Cache
