import Mathlib.Algebra.BigOperators.Group.Finset.Basic
import Mathlib.Algebra.Order.BigOperators.Group.Finset
import Mathlib.Data.List.Perm.Basic
import Mathlib.Order.Interval.Finset.Nat
import Hardy.Machine
import Hardy.Bpa.Gathering

/-!
# Siblings

The fragments of one application data unit, each with a dispatch task of its
own: a task polls for the siblings that are parked already, and parks its own
fragment when some are missing.  Between the poll and the park the other tasks
may move, and nobody looks again after a park.

A task is cut at the poll and at the park.  What follows a poll that has found
all siblings is one step: the other tasks have finished by then.
-/

namespace Hardy.Bpa

/-- `MetadataStorage::poll_adu_fragments`, with the records in any order. -/
structure Store.PollAduFragments (s : Store) (status : BundleStatus) (l : List Bundle) : Prop where
  nodup : l.Nodup
  mem : ∀ b, b ∈ l ↔ s.metadata b.id = some (.live b) ∧ b.status = status ∧
    b.id.fragmentInfo.isSome = true

def Fragment.withStatus (f : Fragment) (status : BundleStatus) : Fragment :=
  { f with bundle := { f.bundle with status := status } }

def Fragment.parkedStatus (f : Fragment) : BundleStatus := .aduFragment f.id.source f.id.timestamp

def Fragment.parked (f : Fragment) : Fragment := f.withStatus f.parkedStatus

namespace Siblings

/-- Fragments that lie side by side in a unit of some length and fill it. -/
structure Tiled {n : Nat} (unit : Fin (n + 1) → Fragment) (total : Nat) : Prop where
  same : ∀ i j, SameUnit (unit i) (unit j)
  totals : ∀ k, (unit k).info.totalAduLength = total
  inside : ∀ k, (unit k).info.offset + (unit k).len ≤ total
  covered : ∀ p < total, ∃ k, (unit k).info.offset ≤ p ∧ p < (unit k).info.offset + (unit k).len
  apart : ∀ i j, i ≠ j → (unit i).info.offset + (unit i).len ≤ (unit j).info.offset ∨
    (unit j).info.offset + (unit j).len ≤ (unit i).info.offset
  /-- A unit in one piece may be empty. -/
  nonempty : ∀ i j, i ≠ j → 0 < (unit i).len

/-! ## Lengths -/

section

variable {n total : Nat} {unit : Fin (n + 1) → Fragment} (h : Tiled unit total)

include h

theorem Tiled.sum : ∑ k, (unit k).len = total := by
  have hunion : Finset.univ.biUnion (fun k =>
      Finset.Ico (unit k).info.offset ((unit k).info.offset + (unit k).len)) =
      Finset.range total := by
    ext p
    simp only [Finset.mem_biUnion, Finset.mem_univ, true_and, Finset.mem_Ico, Finset.mem_range]
    constructor
    · rintro ⟨k, -, hp⟩
      exact lt_of_lt_of_le hp (h.inside k)
    · exact h.covered p
  have hcard := congrArg Finset.card hunion
  rw [Finset.card_range, Finset.card_biUnion] at hcard
  · simpa using hcard
  · intro i _ j _ hij
    rw [Function.onFun, Finset.disjoint_left]
    intro p hi hj
    rw [Finset.mem_Ico] at hi hj
    rcases h.apart i j hij with ha | ha <;> omega

theorem Tiled.offset_ne {i j : Fin (n + 1)} (hij : i ≠ j) :
    (unit i).info.offset ≠ (unit j).info.offset := by
  have hi := h.nonempty i j hij
  have hj := h.nonempty j i hij.symm
  rcases h.apart i j hij with ha | ha <;> omega

theorem Tiled.id_ne {i j : Fin (n + 1)} (hij : i ≠ j) : (unit i).id ≠ (unit j).id := by
  intro he
  have hi := (unit i).id_info
  rw [show (unit i).bundle.id = (unit j).bundle.id from he, (unit j).id_info] at hi
  exact h.offset_ne hij (congrArg FragmentInfo.offset (Option.some.inj hi).symm)

theorem Tiled.parkedStatus (i j : Fin (n + 1)) : (unit i).parkedStatus = (unit j).parkedStatus := by
  rw [Fragment.parkedStatus, Fragment.parkedStatus, (h.same i j).1, (h.same i j).2]

theorem Tiled.short_iff {k : Fin (n + 1)} {P : Finset (Fin (n + 1))} (hk : k ∉ P)
    {l : List Fragment} (hl : l.Perm (P.toList.map fun i => (unit i).parked)) :
    Short (unit k) l ↔ ∃ j, j ≠ k ∧ j ∉ P := by
  have hsum : ((unit k :: l).map Fragment.len).sum = ∑ i ∈ insert k P, (unit i).len := by
    rw [Finset.sum_insert hk, List.map_cons, List.sum_cons, (hl.map Fragment.len).sum_nat,
      List.map_map, ← Finset.sum_map_toList]
    rfl
  rw [Short, hsum, h.totals, ← h.sum]
  constructor
  · intro hlt
    by_contra hno
    push Not at hno
    refine absurd hlt (Nat.not_lt.mpr (Finset.sum_le_sum_of_subset fun j _ => ?_))
    by_cases hj : j = k
    · exact hj ▸ Finset.mem_insert_self k P
    · exact Finset.mem_insert_of_mem (hno j hj)
  · rintro ⟨j, hjk, hj⟩
    refine Finset.sum_lt_sum_of_subset (Finset.subset_univ _) (Finset.mem_univ j) ?_
      (h.nonempty j k hjk) fun _ _ _ => Nat.zero_le _
    rw [Finset.mem_insert]
    rintro (hj' | hj')
    · exact hjk hj'
    · exact hj hj'

end

/-! ## Tasks -/

inductive Phase where
  | begun
  /-- The siblings that were parked. -/
  | polled (siblings : List Bundle)
  | notReady
  | parked
  /-- Somebody else has the fragment. -/
  | lost
  /-- The task has run the reassembly. -/
  | ran (verdict : Verdict)
  | panicked

def Phase.Finished : Phase → Prop
  | .parked | .lost | .ran _ => True
  | _ => False

def Phase.Ran : Phase → Prop
  | .ran _ => True
  | _ => False

structure State (n : Nat) where
  store : Store
  tasks : Fin (n + 1) → Phase

def State.goto {n : Nat} (s : State n) (k : Fin (n + 1)) (phase : Phase) : State n :=
  { s with tasks := Function.update s.tasks k phase }

inductive Label (n : Nat) where
  | poll (k : Fin (n + 1))
  /-- The rest of `adu_reassemble`. -/
  | decide (k : Fin (n + 1))
  | park (k : Fin (n + 1))
  /-- The rest of the node is at work on other bundles. -/
  | other

variable {n : Nat} (unit : Fin (n + 1) → Fragment)

def IsUnit (id : Id) : Prop := ∃ k, (unit k).id = id

/-- The fragments are in the store, a task has begun for each of them, and
nothing else is parked for the unit. -/
structure Start (s : State n) : Prop where
  begun : ∀ k, s.tasks k = .begun
  live : ∀ k, s.store.metadata (unit k).id = some (.live (unit k).bundle)
  unparked : ∀ k, (unit k).bundle.status ≠ (unit 0).parkedStatus
  alone : ∀ id b, ¬IsUnit unit id → s.store.metadata id = some (.live b) →
    b.status ≠ (unit 0).parkedStatus

section

variable [Crates] [HashOrder] [StorageNames]

inductive Step : State n → Label n → State n → Prop where
  | poll {s : State n} {k : Fin (n + 1)} {l : List Bundle} : s.tasks k = .begun →
      s.store.PollAduFragments (unit k).parkedStatus l → Step s (.poll k) (s.goto k (.polled l))
  | notReady {s : State n} {k : Fin (n + 1)} {l : List Bundle} {walk : AduWalk} {unique : Bool}
      {store : Store} : s.tasks k = .polled l →
      aduReassemble s.store walk unique (unit k).bundle l false = .ok (.notReady, store) →
      Step s (.decide k) (State.goto ⟨store, s.tasks⟩ k .notReady)
  | ran {s : State n} {k : Fin (n + 1)} {l : List Bundle} {walk : AduWalk} {unique : Bool}
      {store : Store} {r : ReassemblyResult} : s.tasks k = .polled l →
      aduReassemble s.store walk unique (unit k).bundle l false = .ok (r, store) →
      r.verdict ≠ .notReady →
      Step s (.decide k) (State.goto ⟨store, s.tasks⟩ k (.ran r.verdict))
  | panicked {s : State n} {k : Fin (n + 1)} {l : List Bundle} {walk : AduWalk} {unique : Bool}
      {stop : Stop} : s.tasks k = .polled l →
      aduReassemble s.store walk unique (unit k).bundle l false = .error stop →
      Step s (.decide k) (s.goto k .panicked)
  | park {s : State n} {k : Fin (n + 1)} {b : Bundle} {store : Store} : s.tasks k = .notReady →
      s.store.swapStatus (unit k).bundle (unit k).parkedStatus = some (b, store) →
      Step s (.park k) (State.goto ⟨store, s.tasks⟩ k .parked)
  | lost {s : State n} {k : Fin (n + 1)} : s.tasks k = .notReady →
      s.store.swapStatus (unit k).bundle (unit k).parkedStatus = none →
      Step s (.park k) (s.goto k .lost)
  | other {s : State n} {store : Store} :
      (∀ id, IsUnit unit id → store.metadata id = s.store.metadata id) →
      (∀ id b, ¬IsUnit unit id → store.metadata id = some (.live b) →
        b.status ≠ (unit 0).parkedStatus) →
      Step s .other ⟨store, s.tasks⟩

def machine : Machine (State n) (Label n) := ⟨Start unit, Step unit⟩

end

/-- The last task to poll finds the others parked. -/
def Timely (s : State n) : Label n → Prop
  | .poll k => (∀ j, j ≠ k → s.tasks j ≠ .begun) → ∀ j, j ≠ k → s.tasks j = .parked
  | _ => True

/-! ## The invariant -/

section

variable {unit} {total : Nat} {s s' : State n} {k : Fin (n + 1)} {l : List Bundle}

structure Sees (unit : Fin (n + 1) → Fragment) (k : Fin (n + 1)) (l : List Bundle)
    (P : Finset (Fin (n + 1))) : Prop where
  self : k ∉ P
  perm : l.Perm (P.toList.map fun i => (unit i).parked.bundle)

def Ready (unit : Fin (n + 1) → Fragment) (k : Fin (n + 1)) (l : List Bundle) : Prop :=
  ∃ set, pollFragments (unit k).bundle l false = .ok (some set)

variable {P : Finset (Fin (n + 1))}

theorem Sees.fragments (h : Sees unit k l P) :
    ∃ l' : List Fragment, l'.Perm (P.toList.map fun i => (unit i).parked) ∧
      l = l'.map Fragment.bundle := by
  have hp : l.Perm ((P.toList.map fun i => (unit i).parked).map Fragment.bundle) := by
    rw [List.map_map]
    exact h.perm
  obtain ⟨l', hl, hl'⟩ := (congrFun (congrFun (List.eq_map_comp_perm Fragment.bundle) l) _).mpr hp
  exact ⟨l', hl', hl⟩

theorem sameUnit_parked (h : Tiled unit total) {l' : List Fragment}
    (hl' : l'.Perm (P.toList.map fun i => (unit i).parked)) : ∀ f ∈ l', SameUnit (unit k) f := by
  intro f hf
  obtain ⟨i, -, rfl⟩ := List.mem_map.mp (hl'.mem_iff.mp hf)
  exact h.same k i

theorem Sees.ready_iff (h : Tiled unit total) (hl : Sees unit k l P) :
    Ready unit k l ↔ ∀ j, j ≠ k → j ∈ P := by
  obtain ⟨l', hl', rfl⟩ := hl.fragments
  have hshort := h.short_iff hl.self hl'
  rcases pollFragments_eq (sameUnit_parked h hl') false with ⟨hpoll, hs⟩ | ⟨hpoll, -, hs⟩
  · obtain ⟨j, hjk, hj⟩ := hshort.mp (hs.resolve_left nofun)
    refine ⟨fun ⟨set, hset⟩ => ?_, fun hall => absurd (hall j hjk) hj⟩
    cases hpoll.symm.trans hset
  · refine ⟨fun _ j hjk => ?_, fun _ => ⟨_, hpoll⟩⟩
    by_contra hj
    exact hs (hshort.mpr ⟨j, hjk, hj⟩)

def State.stored (unit : Fin (n + 1) → Fragment) (s : State n) (k : Fin (n + 1)) : Bundle :=
  match s.tasks k with
  | .parked => (unit k).parked.bundle
  | _ => (unit k).bundle

def Phase.Undecided : Phase → Prop
  | .lost | .ran _ | .panicked => False
  | _ => True

structure Working (unit : Fin (n + 1) → Fragment) (s : State n) : Prop where
  undecided : ∀ k, (s.tasks k).Undecided
  record : ∀ k, s.store.metadata (unit k).id = some (.live (s.stored unit k))
  sees : ∀ k l, s.tasks k = .polled l →
    ∃ P, Sees unit k l P ∧ ∀ i ∈ P, s.tasks i = .parked

structure Over (unit : Fin (n + 1) → Fragment) (s : State n) (k : Fin (n + 1)) : Prop where
  others : ∀ j, j ≠ k → s.tasks j = .parked
  ended : s.tasks k = .panicked ∨
    (s.tasks k).Ran ∧ ∀ j, s.store.metadata (unit j).id = some .tombstone

structure Inv (unit : Fin (n + 1) → Fragment) (s : State n) : Prop where
  unparked : ∀ k, (unit k).bundle.status ≠ (unit 0).parkedStatus
  alone : ∀ id b, ¬IsUnit unit id → s.store.metadata id = some (.live b) →
    b.status ≠ (unit 0).parkedStatus
  working : Working unit s ∨ ∃ k, Over unit s k

theorem Start.inv (h : Start unit s) : Inv unit s := by
  refine ⟨h.unparked, h.alone, .inl ⟨fun k => ?_, fun k => ?_, fun k l hk => ?_⟩⟩
  · rw [h.begun k]
    trivial
  · rw [State.stored, h.begun k]
    exact h.live k
  · rw [h.begun k] at hk
    cases hk

variable {phase : Phase}

theorem goto_self : (s.goto k phase).tasks k = phase := Function.update_self ..

theorem goto_ne {j : Fin (n + 1)} (hj : j ≠ k) : (s.goto k phase).tasks j = s.tasks j :=
  Function.update_of_ne hj _ _

def Phase.isParked : Phase → Bool
  | .parked => true
  | _ => false

theorem Phase.isParked_iff : phase.isParked = true ↔ phase = .parked := by
  cases phase <;> simp [isParked]

def State.parked (s : State n) : Finset (Fin (n + 1)) :=
  Finset.univ.filter fun i => (s.tasks i).isParked = true

theorem mem_parked {i : Fin (n + 1)} : i ∈ s.parked ↔ s.tasks i = .parked := by
  rw [State.parked, Finset.mem_filter, Phase.isParked_iff]
  exact and_iff_right (Finset.mem_univ i)

theorem stored_parked {i : Fin (n + 1)} (hi : s.tasks i = .parked) :
    s.stored unit i = (unit i).parked.bundle := by
  rw [State.stored, hi]

theorem stored_of_ne {i : Fin (n + 1)} (hi : s.tasks i ≠ .parked) :
    s.stored unit i = (unit i).bundle := by
  rw [State.stored]
  split
  · contradiction
  · rfl

theorem stored_status (h : Tiled unit total) (hinv : Inv unit s) {i : Fin (n + 1)} :
    (s.stored unit i).status = (unit 0).parkedStatus ↔ s.tasks i = .parked := by
  by_cases hi : s.tasks i = .parked
  · rw [stored_parked hi]
    exact iff_of_true (h.parkedStatus i 0) hi
  · rw [stored_of_ne hi]
    exact iff_of_false (hinv.unparked i) hi

theorem Working.mem_polled (h : Tiled unit total) (hinv : Inv unit s) (hw : Working unit s)
    {b : Bundle} : (s.store.metadata b.id = some (.live b) ∧ b.status = (unit 0).parkedStatus ∧
      b.id.fragmentInfo.isSome = true) ↔
      b ∈ s.parked.toList.map fun i => (unit i).parked.bundle := by
  rw [List.mem_map]
  constructor
  · rintro ⟨hb, hstatus, -⟩
    obtain ⟨i, hi⟩ : IsUnit unit b.id := by
      by_contra hno
      exact hinv.alone _ b hno hb hstatus
    have hrecord := hw.record i
    rw [hi, hb] at hrecord
    cases hrecord
    have hparked := (stored_status h hinv).mp hstatus
    exact ⟨i, Finset.mem_toList.mpr (mem_parked.mpr hparked), (stored_parked hparked).symm⟩
  · rintro ⟨i, hi, rfl⟩
    have hparked := mem_parked.mp (Finset.mem_toList.mp hi)
    have hrecord := hw.record i
    rw [stored_parked hparked] at hrecord
    exact ⟨hrecord, h.parkedStatus i 0, Option.isSome_iff_exists.mpr ⟨_, (unit i).id_info⟩⟩

theorem nodup_parked (h : Tiled unit total) :
    (P.toList.map fun i => (unit i).parked.bundle).Nodup := by
  refine (Finset.nodup_toList _).map fun i j hij => ?_
  by_contra hne
  exact h.id_ne hne (show (unit i).parked.id = (unit j).parked.id from congrArg Bundle.id hij)

theorem Working.polled (h : Tiled unit total) (hinv : Inv unit s) (hw : Working unit s)
    (hk : s.tasks k = .begun) (hl : s.store.PollAduFragments (unit k).parkedStatus l) :
    Sees unit k l s.parked := by
  refine ⟨fun hmem => ?_, ?_⟩
  · rw [mem_parked, hk] at hmem
    cases hmem
  · refine (List.perm_ext_iff_of_nodup hl.nodup (nodup_parked h)).mpr fun b => ?_
    rw [hl.mem, h.parkedStatus k 0]
    exact hw.mem_polled h hinv

theorem Working.pollAduFragments (h : Tiled unit total) (hinv : Inv unit s) (hw : Working unit s) :
    s.store.PollAduFragments (unit k).parkedStatus
      (s.parked.toList.map fun i => (unit i).parked.bundle) := by
  refine ⟨nodup_parked h, fun b => ?_⟩
  rw [h.parkedStatus k 0]
  exact (hw.mem_polled h hinv).symm

theorem Working.goto (hw : Working unit s) (hk : s.tasks k ≠ .parked)
    (hphase : phase ≠ .parked) (hu : phase.Undecided)
    (hsees : ∀ l, phase = .polled l → ∃ P, Sees unit k l P ∧ ∀ i ∈ P, s.tasks i = .parked) :
    Working unit (s.goto k phase) := by
  have htasks : ∀ i, s.tasks i = .parked → (s.goto k phase).tasks i = .parked := by
    intro i hi
    have hik : i ≠ k := by
      rintro rfl
      exact hk hi
    rw [goto_ne hik, hi]
  refine ⟨fun i => ?_, fun i => ?_, fun i l hi => ?_⟩
  · by_cases hik : i = k
    · rw [hik, goto_self]
      exact hu
    · rw [goto_ne hik]
      exact hw.undecided i
  · by_cases hik : i = k
    · subst hik
      rw [stored_of_ne (by rwa [goto_self]), ← stored_of_ne hk]
      exact hw.record i
    · rw [State.stored, goto_ne hik]
      exact hw.record i
  · obtain ⟨P, hP, hall⟩ : ∃ P, Sees unit i l P ∧ ∀ j ∈ P, s.tasks j = .parked := by
      by_cases hik : i = k
      · subst hik
        rw [goto_self] at hi
        exact hsees l hi
      · rw [goto_ne hik] at hi
        exact hw.sees i l hi
    exact ⟨P, hP, fun j hj => htasks j (hall j hj)⟩

theorem Working.poll (h : Tiled unit total) (hinv : Inv unit s) (hw : Working unit s)
    (hk : s.tasks k = .begun) (hl : s.store.PollAduFragments (unit k).parkedStatus l) :
    Working unit (s.goto k (.polled l)) := by
  refine hw.goto (by rw [hk]; nofun) nofun trivial ?_
  rintro l' ⟨⟩
  exact ⟨_, hw.polled h hinv hk hl, fun i hi => mem_parked.mp hi⟩

theorem Working.park (h : Tiled unit total) (hw : Working unit s) (hk : s.tasks k = .notReady) :
    ∃ store, s.store.swapStatus (unit k).bundle (unit k).parkedStatus =
        some ((unit k).parked.bundle, store) ∧
      Working unit (State.goto ⟨store, s.tasks⟩ k .parked) := by
  have hrecord := hw.record k
  rw [stored_of_ne (by rw [hk]; nofun)] at hrecord
  refine ⟨_, Store.swapStatus_eq_some.mpr ⟨_, ⟨hrecord, rfl⟩, rfl, rfl⟩, ⟨fun i => ?_, fun i => ?_, fun i l hi => ?_⟩⟩
  · by_cases hik : i = k
    · rw [hik, goto_self]
      trivial
    · rw [goto_ne hik]
      exact hw.undecided i
  · by_cases hik : i = k
    · subst hik
      rw [stored_parked goto_self]
      exact Function.update_self ..
    · rw [State.stored, goto_ne hik]
      exact (Function.update_of_ne (h.id_ne hik) _ _).trans (hw.record i)
  · have hik : i ≠ k := by
      rintro rfl
      rw [goto_self] at hi
      cases hi
    rw [goto_ne hik] at hi
    obtain ⟨P, hP, hall⟩ := hw.sees i l hi
    refine ⟨P, hP, fun j hj => ?_⟩
    have hjk : j ≠ k := by
      rintro rfl
      rw [hall j hj] at hk
      cases hk
    rw [goto_ne hjk]
    exact hall j hj

theorem pairwise_siblings (hk : k ∉ P)
    {R : Fragment → Fragment → Prop} (hself : ∀ j, j ≠ k → R (unit k) (unit j).parked)
    (hR : ∀ i j, i ≠ j → R (unit i).parked (unit j).parked) :
    (unit k :: P.toList.map fun i => (unit i).parked).Pairwise R := by
  refine List.pairwise_cons.mpr ⟨fun f hf => ?_, List.pairwise_map.mpr ?_⟩
  · obtain ⟨j, hj, rfl⟩ := List.mem_map.mp hf
    refine hself j ?_
    rintro rfl
    exact hk (Finset.mem_toList.mp hj)
  · exact (Finset.nodup_toList P).imp fun hij => hR _ _ hij

theorem Working.stored (h : Tiled unit total) (hw : Working unit s) (hk : s.tasks k = .polled l)
    (hP : Sees unit k l P) (hall : ∀ i ∈ P, s.tasks i = .parked) :
    Stored s.store (unit k) (P.toList.map fun i => (unit i).parked) := by
  refine ⟨fun f hf => ?_, sameUnit_parked h (.refl _), ?_⟩
  · rcases List.mem_cons.mp hf with rfl | hf
    · have hrecord := hw.record k
      rw [stored_of_ne (by rw [hk]; nofun)] at hrecord
      exact hrecord
    · obtain ⟨i, hi, rfl⟩ := List.mem_map.mp hf
      have hrecord := hw.record i
      rw [stored_parked (hall i (Finset.mem_toList.mp hi))] at hrecord
      exact hrecord
  · exact pairwise_siblings hP.self (fun j hj => (h.id_ne hj).symm) fun i j hij => h.id_ne hij

def Phase.Moving : Phase → Prop
  | .begun | .polled _ | .notReady => True
  | _ => False

theorem Over.not_moving (ho : Over unit s k) {j : Fin (n + 1)}
    (hj : s.tasks j = phase) : ¬phase.Moving := by
  intro hm
  subst hj
  by_cases hjk : j = k
  · subst hjk
    rcases ho.ended with hk | ⟨hk, -⟩
    · rw [hk] at hm
      exact hm
    · revert hm hk
      cases s.tasks j <;> simp [Phase.Moving, Phase.Ran]
  · rw [ho.others j hjk] at hm
    exact hm

theorem Inv.sees (hinv : Inv unit s) (hk : s.tasks k = .polled l) : ∃ P, Sees unit k l P := by
  rcases hinv.working with hw | ⟨j, ho⟩
  · obtain ⟨P, hP, -⟩ := hw.sees k l hk
    exact ⟨P, hP⟩
  · exact (ho.not_moving hk trivial).elim

theorem Working.others (h : Tiled unit total) (hw : Working unit s) (hk : s.tasks k = .polled l)
    (hready : Ready unit k l) {j : Fin (n + 1)} (hj : j ≠ k) : s.tasks j = .parked := by
  obtain ⟨P, hP, hall⟩ := hw.sees k l hk
  exact hall j ((hP.ready_iff h).mp hready j hj)

section

variable [Crates] [HashOrder] [StorageNames] {walk : AduWalk} {unique : Bool} {store : Store}
  {P : Finset (Fin (n + 1))}

theorem aduReassemble_unready (h : Tiled unit total) (hP : Sees unit k l P)
    (hr : ¬Ready unit k l) (store : Store) :
    aduReassemble store walk unique (unit k).bundle l false = .ok (.notReady, store) := by
  obtain ⟨l', hl', rfl⟩ := hP.fragments
  rw [aduReassemble]
  rcases pollFragments_eq (sameUnit_parked h hl') false with ⟨hpoll, -⟩ | ⟨hpoll, -⟩
  · rw [hpoll]
    rfl
  · exact absurd ⟨_, hpoll⟩ hr

theorem aduReassemble_ready (h : Tiled unit total) (hP : Sees unit k l P)
    (hready : Ready unit k l) {store' : Store} {r : ReassemblyResult}
    (hr : aduReassemble store walk unique (unit k).bundle l false = .ok (r, store')) :
    r.verdict ≠ .notReady := by
  obtain ⟨l', hl', rfl⟩ := hP.fragments
  rcases aduReassemble_ok (sameUnit_parked h hl') hr with ⟨hs, -⟩ | ⟨-, hv, -⟩
  · obtain ⟨j, hjk, hj⟩ := (h.short_iff hP.self hl').mp (hs.resolve_left nofun)
    exact absurd ((hP.ready_iff h).mp hready j hjk) hj
  · exact hv

theorem Working.ran (h : Tiled unit total) (hw : Working unit s) (hk : s.tasks k = .polled l)
    {r : ReassemblyResult}
    (hr : aduReassemble s.store walk unique (unit k).bundle l false = .ok (r, store))
    (hready : Ready unit k l) (j : Fin (n + 1)) :
    store.metadata (unit j).id = some .tombstone := by
  obtain ⟨P, hP, hall⟩ := hw.sees k l hk
  have hfull := (hP.ready_iff h).mp hready
  have hv := aduReassemble_ready h hP hready hr
  obtain ⟨l', hl', rfl⟩ := hP.fragments
  have hdiff : OffsetsDiffer (unit k :: P.toList.map fun i => (unit i).parked) :=
    pairwise_siblings hP.self (fun j hj => (h.offset_ne hj).symm) fun i j hij => h.offset_ne hij
  have hconsumed := fun {f : Fragment} =>
    consumed_of_differ (hw.stored h hk hP hall) hdiff hl' hr hv (f := f)
  by_cases hjk : j = k
  · rw [hjk]
    exact (hconsumed List.mem_cons_self).1
  · have hmem : (unit j).parked ∈ P.toList.map fun i => (unit i).parked :=
      List.mem_map_of_mem (Finset.mem_toList.mpr (hfull j hjk))
    exact (hconsumed (List.mem_cons_of_mem _ hmem)).1

theorem aduReassemble_live (h : Tiled unit total) (hP : Sees unit k l P) {store' : Store}
    {r : ReassemblyResult}
    (hr : aduReassemble store walk unique (unit k).bundle l false = .ok (r, store')) {id : Id}
    {b : Bundle} (hb : store'.metadata id = some (.live b)) :
    store.metadata id = some (.live b) := by
  obtain ⟨l', hl', rfl⟩ := hP.fragments
  rcases aduReassemble_ok (sameUnit_parked h hl') hr with ⟨-, -, rfl⟩ | ⟨-, -, s₀, hmeta, rfl⟩
  · exact hb
  · rw [cleanUp_metadata, hmeta] at hb
    split at hb
    · obtain ⟨e, -, he⟩ := Option.map_eq_some_iff.mp hb
      cases he
    · exact hb

variable {label : Label n}

theorem Working.step (h : Tiled unit total) (hinv : Inv unit s)
    (hw : Working unit s) (hstep : Step unit s label s') :
    Working unit s' ∨ ∃ k l, s.tasks k = .polled l ∧ Ready unit k l ∧ Over unit s' k := by
  cases hstep with
  | poll hk hl =>
    exact .inl (hw.poll h hinv hk hl)
  | @notReady k l _ _ _ hk hr =>
    obtain ⟨P, hP, -⟩ := hw.sees _ _ hk
    by_cases hready : Ready unit k l
    · exact absurd rfl (aduReassemble_ready h hP hready hr)
    · rw [aduReassemble_unready h hP hready] at hr
      cases hr
      exact .inl (hw.goto (by rw [hk]; nofun) nofun trivial nofun)
  | @ran k l _ _ _ _ hk hr hv =>
    obtain ⟨P, hP, -⟩ := hw.sees _ _ hk
    by_cases hready : Ready unit k l
    · refine .inr ⟨_, _, hk, hready, fun j hj => ?_, .inr ⟨?_, hw.ran h hk hr hready⟩⟩
      · rw [goto_ne hj]
        exact hw.others h hk hready hj
      · rw [goto_self]
        trivial
    · rw [aduReassemble_unready h hP hready] at hr
      cases hr
      exact absurd rfl hv
  | @panicked k l _ _ _ hk hr =>
    obtain ⟨P, hP, -⟩ := hw.sees _ _ hk
    by_cases hready : Ready unit k l
    · refine .inr ⟨_, _, hk, hready, fun j hj => ?_, .inl goto_self⟩
      rw [goto_ne hj]
      exact hw.others h hk hready hj
    · rw [aduReassemble_unready h hP hready] at hr
      cases hr
  | park hk hswap =>
    obtain ⟨store, hswap', hw'⟩ := hw.park h hk
    cases hswap.symm.trans hswap'
    exact .inl hw'
  | lost hk hswap =>
    obtain ⟨store, hswap', -⟩ := hw.park h hk
    cases hswap.symm.trans hswap'
  | other hsame _ =>
    refine .inl ⟨hw.undecided, fun k => ?_, hw.sees⟩
    exact (hsame _ ⟨k, rfl⟩).trans (hw.record k)

theorem Over.step (ho : Over unit s k) (hstep : Step unit s label s') : Over unit s' k := by
  cases hstep with
  | poll hk _ => exact (ho.not_moving hk trivial).elim
  | notReady hk _ => exact (ho.not_moving hk trivial).elim
  | ran hk _ _ => exact (ho.not_moving hk trivial).elim
  | panicked hk _ => exact (ho.not_moving hk trivial).elim
  | park hk _ => exact (ho.not_moving hk trivial).elim
  | lost hk _ => exact (ho.not_moving hk trivial).elim
  | other hsame _ =>
    refine ⟨ho.others, ho.ended.imp id fun hran => ⟨hran.1, fun j => ?_⟩⟩
    exact (hsame _ ⟨j, rfl⟩).trans (hran.2 j)

theorem Inv.step (h : Tiled unit total) (hinv : Inv unit s)
    (hstep : Step unit s label s') : Inv unit s' := by
  refine ⟨hinv.unparked, ?_, ?_⟩
  · -- a step makes no record live, apart from those of the fragments
    intro id b hid hb
    cases hstep with
    | poll _ _ => exact hinv.alone id b hid hb
    | notReady hk hr =>
      obtain ⟨P, hP⟩ := hinv.sees hk
      exact hinv.alone id b hid (aduReassemble_live h hP hr hb)
    | ran hk hr _ =>
      obtain ⟨P, hP⟩ := hinv.sees hk
      exact hinv.alone id b hid (aduReassemble_live h hP hr hb)
    | panicked _ _ => exact hinv.alone id b hid hb
    | park _ hswap =>
      have hframe := Store.swapStatus_frame hswap fun he => hid ⟨_, he.symm⟩
      exact hinv.alone id b hid (hframe.symm.trans hb)
    | lost _ _ => exact hinv.alone id b hid hb
    | other _ halone => exact halone id b hid hb
  · rcases hinv.working with hw | ⟨k, ho⟩
    · rcases hw.step h hinv hstep with hw' | ⟨k, -, -, -, ho⟩
      · exact .inl hw'
      · exact .inr ⟨k, ho⟩
    · exact .inr ⟨k, ho.step hstep⟩

theorem reachable_inv (h : Tiled unit total) (hs : (machine unit).Reachable s) : Inv unit s :=
  hs.invariant (fun _ => Start.inv) fun _ _ _ => Inv.step h

/-! ## Runs in which the last one finds the others -/

def Pending (unit : Fin (n + 1) → Fragment) (s : State n) : Prop :=
  (∃ k, s.tasks k = .begun) ∨ ∃ k l, s.tasks k = .polled l ∧ Ready unit k l

section

omit [Crates] [HashOrder] [StorageNames]

theorem Working.not_ran (hw : Working unit s) : ¬(s.tasks k).Ran := by
  have hu := hw.undecided k
  revert hu
  cases s.tasks k <;> simp [Phase.Undecided, Phase.Ran]

theorem Over.not_working (ho : Over unit s k) : ¬Working unit s := by
  intro hw
  rcases ho.ended with hp | ⟨hr, -⟩
  · have hk := hw.undecided k
    rw [hp] at hk
    exact hk
  · exact hw.not_ran hr

theorem Pending.goto (hp : Pending unit s) {store : Store}
    (hk : s.tasks k ≠ .begun) (hr : ∀ l, s.tasks k = .polled l → ¬Ready unit k l) :
    Pending unit (State.goto ⟨store, s.tasks⟩ k phase) := by
  rcases hp with ⟨j, hj⟩ | ⟨j, l, hj, hready⟩
  · refine .inl ⟨j, ?_⟩
    rw [goto_ne (by rintro rfl; exact hk hj)]
    exact hj
  · refine .inr ⟨j, l, ?_, hready⟩
    rw [goto_ne (by rintro rfl; exact hr l hj hready)]
    exact hj

theorem Pending.poll (h : Tiled unit total) (hinv : Inv unit s) (hw : Working unit s)
    (ht : Timely s (.poll k)) (hk : s.tasks k = .begun)
    (hl : s.store.PollAduFragments (unit k).parkedStatus l) :
    Pending unit (s.goto k (.polled l)) := by
  by_cases hlast : ∀ j, j ≠ k → s.tasks j ≠ .begun
  · refine .inr ⟨k, l, goto_self, ((hw.polled h hinv hk hl).ready_iff h).mpr fun j hj => ?_⟩
    exact mem_parked.mpr (ht hlast j hj)
  · push Not at hlast
    obtain ⟨j, hjk, hj⟩ := hlast
    exact .inl ⟨j, (goto_ne hjk).trans hj⟩

end

theorem Pending.step (h : Tiled unit total) (hinv : Inv unit s)
    (hp : Working unit s → Pending unit s) (ht : Timely s label) (hstep : Step unit s label s')
    (hw' : Working unit s') : Pending unit s' := by
  rcases hinv.working with hw | ⟨k, ho⟩
  · cases hstep with
    | poll hk hl => exact Pending.poll h hinv hw ht hk hl
    | @notReady k l _ _ _ hk hr =>
      refine (hp hw).goto (by rw [hk]; nofun) fun l' hl' hready => ?_
      cases hk.symm.trans hl'
      obtain ⟨P, hP⟩ := hinv.sees hk
      exact aduReassemble_ready h hP hready hr rfl
    | @ran k _ _ _ _ _ _ _ _ =>
      have hk := hw'.undecided k
      rw [goto_self] at hk
      exact hk.elim
    | @panicked k _ _ _ _ _ _ =>
      have hk := hw'.undecided k
      rw [goto_self] at hk
      exact hk.elim
    | park hk _ => exact (hp hw).goto (by rw [hk]; nofun) (by rw [hk]; nofun)
    | lost hk _ => exact (hp hw).goto (by rw [hk]; nofun) (by rw [hk]; nofun)
    | other _ _ => exact hp hw
  · exact absurd hw' (ho.step hstep).not_working

theorem reachable_pending (h : Tiled unit total)
    (hs : ((machine unit).only Timely).Reachable s) (hw : Working unit s) : Pending unit s := by
  have hboth : Inv unit s ∧ (Working unit s → Pending unit s) := by
    refine hs.invariant (I := fun s => Inv unit s ∧ (Working unit s → Pending unit s))
      (fun s (hs : Start unit s) => ⟨hs.inv, fun _ => .inl ⟨0, hs.begun 0⟩⟩) ?_
    rintro s label s' ⟨hinv, hp⟩ ⟨ht, hstep⟩
    exact ⟨hinv.step h hstep, Pending.step h hinv hp ht hstep⟩
  exact hboth.2 hw

omit [Crates] [HashOrder] [StorageNames] in
theorem Working.parked (hw : Working unit s) (hk : (s.tasks k).Finished) :
    s.tasks k = .parked := by
  have hu := hw.undecided k
  revert hk hu
  cases s.tasks k <;> simp [Phase.Finished, Phase.Undecided]

/-! ## Runs in which it does not -/

structure Missed (unit : Fin (n + 1) → Fragment) (s : State n) : Prop where
  working : Working unit s
  begun : ∀ k, s.tasks k ≠ .begun
  unready : ∀ k l, s.tasks k = .polled l → ¬Ready unit k l

theorem Missed.of_untimely (h : Tiled unit total) (hinv : Inv unit s)
    (ht : ¬Timely s label) (hstep : Step unit s label s') : Missed unit s' := by
  cases hstep with
  | @poll k l hk hl =>
    simp only [Timely, not_forall] at ht
    obtain ⟨hlast, j, hjk, hj⟩ := ht
    have hw : Working unit s := by
      rcases hinv.working with hw | ⟨i, ho⟩
      · exact hw
      · exact (ho.not_moving hk trivial).elim
    refine ⟨hw.poll h hinv hk hl, fun i => ?_, fun i l' hi hready => ?_⟩
    · by_cases hik : i = k
      · rw [hik, goto_self]
        nofun
      · rw [goto_ne hik]
        exact hlast i hik
    · by_cases hik : i = k
      · subst hik
        rw [goto_self] at hi
        cases hi
        exact hj (mem_parked.mp (((hw.polled h hinv hk hl).ready_iff h).mp hready j hjk))
      · rw [goto_ne hik] at hi
        rw [hw.others h hi hready (Ne.symm hik)] at hk
        cases hk
  | _ => exact absurd trivial ht

omit [Crates] [HashOrder] [StorageNames] in
theorem Missed.goto (hm : Missed unit s) {store : Store}
    (hw : Working unit (State.goto ⟨store, s.tasks⟩ k phase)) (hbegun : phase ≠ .begun)
    (hpolled : ∀ l, phase ≠ .polled l) : Missed unit (State.goto ⟨store, s.tasks⟩ k phase) := by
  refine ⟨hw, fun i => ?_, fun i l hi => ?_⟩
  · by_cases hik : i = k
    · rw [hik, goto_self]
      exact hbegun
    · rw [goto_ne hik]
      exact hm.begun i
  · have hik : i ≠ k := by
      rintro rfl
      rw [goto_self] at hi
      exact hpolled l hi
    rw [goto_ne hik] at hi
    exact hm.unready i l hi

theorem Missed.step (h : Tiled unit total) (hinv : Inv unit s)
    (hm : Missed unit s) (hstep : Step unit s label s') : Missed unit s' := by
  have hw : Working unit s' := by
    rcases hm.working.step h hinv hstep with hw | ⟨k, l, hk, hready, -⟩
    · exact hw
    · exact absurd hready (hm.unready k l hk)
  cases hstep with
  | poll hk _ => exact absurd hk (hm.begun _)
  | notReady _ _ => exact hm.goto hw nofun nofun
  | ran _ _ _ => exact hm.goto hw nofun nofun
  | panicked _ _ => exact hm.goto hw nofun nofun
  | park _ _ => exact hm.goto hw nofun nofun
  | lost _ _ => exact hm.goto hw nofun nofun
  | other _ _ => exact ⟨hw, hm.begun, hm.unready⟩

/-! ## Exactly one reassembly -/

/-- One task has reassembled the unit, and all its fragments are tombstones. -/
def Reassembled (unit : Fin (n + 1) → Fragment) (s : State n) : Prop :=
  (∃! k, (s.tasks k).Ran) ∧ ∀ k, s.store.metadata (unit k).id = some .tombstone

/-- No task has, and every fragment is still parked. -/
def Stranded (unit : Fin (n + 1) → Fragment) (s : State n) : Prop :=
  (∀ k, ¬(s.tasks k).Ran) ∧ ∀ k, s.store.metadata (unit k).id = some (.live (unit k).parked.bundle)

section

omit [Crates] [HashOrder] [StorageNames]

theorem Over.ran_unique (ho : Over unit s k) {j : Fin (n + 1)} (hj : (s.tasks j).Ran) : j = k := by
  by_contra hjk
  rw [ho.others j hjk] at hj
  exact hj

theorem Inv.ran_unique (hinv : Inv unit s) {i j : Fin (n + 1)} (hi : (s.tasks i).Ran)
    (hj : (s.tasks j).Ran) : i = j := by
  rcases hinv.working with hw | ⟨k, ho⟩
  · exact absurd hi hw.not_ran
  · rw [ho.ran_unique hi, ho.ran_unique hj]

theorem Over.reassembled (ho : Over unit s k) (hk : (s.tasks k).Finished) :
    Reassembled unit s := by
  rcases ho.ended with hp | ⟨hr, htomb⟩
  · rw [hp] at hk
    exact hk.elim
  · exact ⟨⟨k, hr, fun j hj => ho.ran_unique hj⟩, htomb⟩

theorem Missed.stranded (hm : Missed unit s) (hf : ∀ k, (s.tasks k).Finished) :
    Stranded unit s := by
  refine ⟨fun k hr => ?_, fun k => ?_⟩
  · rw [hm.working.parked (hf k)] at hr
    exact hr
  · rw [← stored_parked (hm.working.parked (hf k))]
    exact hm.working.record k

end

/-- No two tasks run the reassembly.  Where the last task to poll finds the
others parked, one of them has run it once all have returned, and no fragment
is left; where it does not, all fragments are left and nobody runs it. -/
theorem reassembled_iff_timely (h : Tiled unit total) :
    (∀ s, (machine unit).Reachable s → ∀ i j, (s.tasks i).Ran → (s.tasks j).Ran → i = j) ∧
    (∀ s, ((machine unit).only Timely).Reachable s → (∀ k, (s.tasks k).Finished) →
      Reassembled unit s) ∧
    ∀ s label s₁ s₂, (machine unit).Reachable s → ¬Timely s label → Step unit s label s₁ →
      (Machine.mk (fun s => s = s₁) (Step unit)).Reachable s₂ → (∀ k, (s₂.tasks k).Finished) →
      Stranded unit s₂ := by
  refine ⟨fun s hs i j => (reachable_inv h hs).ran_unique, fun s hs hf => ?_, ?_⟩
  · rcases (reachable_inv h hs.of_only).working with hw | ⟨k, ho⟩
    · rcases reachable_pending h hs hw with ⟨k, hk⟩ | ⟨k, l, hk, -⟩
      · rw [hw.parked (hf k)] at hk
        cases hk
      · rw [hw.parked (hf k)] at hk
        cases hk
    · exact ho.reassembled (hf k)
  · intro s label s₁ s₂ hs ht hstep hs₂ hf
    have hinv := reachable_inv h hs
    have hboth : Inv unit s₂ ∧ Missed unit s₂ := by
      refine hs₂.invariant (I := fun s => Inv unit s ∧ Missed unit s) ?_ ?_
      · rintro _ rfl
        exact ⟨hinv.step h hstep, .of_untimely h hinv ht hstep⟩
      · rintro s label s' ⟨hinv, hm⟩ hstep
        exact ⟨hinv.step h hstep, hm.step h hinv hstep⟩
    exact hboth.2.stranded hf

end

end

/-! ## Two fragments -/

def pairUnit (k : Fin 2) : Fragment :=
  (unitFragment (if k = 0 then 0 else 1) 2 (k + 1)).withStatus .dispatching

def pairStore : Store :=
  storeOf [(pairUnit 0, unitBytes 0 2 8), (pairUnit 1, unitBytes 1 2 7)]

def pairStart : State 1 := ⟨pairStore, fun _ => .begun⟩

theorem pairUnit_tiled : Tiled pairUnit 2 where
  same _ _ := ⟨rfl, rfl⟩
  totals _ := rfl
  inside := by decide
  covered := by decide
  apart := by decide
  nonempty := by decide

theorem pairStore_live (k : Fin 2) :
    pairStore.metadata (pairUnit k).id = some (.live (pairUnit k).bundle) := by
  have hid : [(pairUnit 0, unitBytes 0 2 8), (pairUnit 1, unitBytes 1 2 7)].Pairwise
      fun a b => a.1.id ≠ b.1.id := by
    simpa using pairUnit_tiled.id_ne (i := 0) (j := 1) (by decide)
  rcases Fin.exists_fin_two.mp ⟨k, rfl⟩ with rfl | rfl
  · exact storeOf_live hid List.mem_cons_self
  · exact storeOf_live hid (List.mem_cons_of_mem _ List.mem_cons_self)

theorem pairStart_start : Start pairUnit pairStart where
  begun _ := rfl
  live := pairStore_live
  unparked _ := nofun
  alone id b hid hb := by
    obtain ⟨e, he, -⟩ := Option.map_eq_some_iff.mp hb
    have hmem := List.mem_of_find?_eq_some he
    have hkey : e.1.id = id := by simpa using List.find?_some he
    simp only [List.mem_cons, List.not_mem_nil, or_false] at hmem
    rcases hmem with rfl | rfl
    · exact absurd ⟨0, hkey⟩ hid
    · exact absurd ⟨1, hkey⟩ hid

section

variable [Crates] [HashOrder] [StorageNames] {total : Nat} {unit : Fin 2 → Fragment} {s : State 1}

omit [Crates] [HashOrder] [StorageNames] in
theorem Start.poll_nil (h : Tiled unit total) (hs : Start unit s) (k : Fin 2) :
    s.store.PollAduFragments (unit k).parkedStatus [] := by
  refine ⟨List.nodup_nil, fun b => iff_of_false List.not_mem_nil ?_⟩
  rintro ⟨hb, hstatus, -⟩
  rw [h.parkedStatus k 0] at hstatus
  by_cases hid : IsUnit unit b.id
  · obtain ⟨i, hi⟩ := hid
    rw [← hi, hs.live i] at hb
    cases hb
    exact hs.unparked i hstatus
  · exact hs.alone _ b hid hb hstatus

theorem aduReassemble_alone (h : Tiled unit total) (store : Store) (k : Fin 2) :
    aduReassemble store .sorted false (unit k).bundle [] false = .ok (.notReady, store) := by
  have hsees : Sees unit k [] ∅ := ⟨Finset.notMem_empty k, by simp⟩
  refine aduReassemble_unready h hsees (fun hready => ?_) _
  obtain ⟨j, hj⟩ := exists_ne k
  exact Finset.notMem_empty j ((hsees.ready_iff h).mp hready j hj)

theorem reachable_step {s' : State 1} {label : Label 1} (hs : (machine unit).Reachable s)
    (hstep : Step unit s label s') : (machine unit).Reachable s' :=
  .step label hs hstep

theorem stranded_pair (h : Tiled unit total) (hs : Start unit s) :
    ∃ s', (machine unit).Reachable s' ∧ (∀ k, (s'.tasks k).Finished) ∧ ¬Reassembled unit s' := by
  have h₁ : (machine unit).Reachable (s.goto 0 (.polled [])) :=
    reachable_step (.start hs) (.poll (hs.begun 0) (hs.poll_nil h 0))
  have h₂ : (machine unit).Reachable ((s.goto 0 (.polled [])).goto 1 (.polled [])) :=
    reachable_step h₁ (.poll (hs.begun 1) (hs.poll_nil h 1))
  have h₃ : (machine unit).Reachable
      (((s.goto 0 (.polled [])).goto 1 (.polled [])).goto 0 .notReady) :=
    reachable_step h₂ (.notReady rfl (aduReassemble_alone h _ 0))
  have h₄ : (machine unit).Reachable
      ((((s.goto 0 (.polled [])).goto 1 (.polled [])).goto 0 .notReady).goto 1 .notReady) :=
    reachable_step h₃ (.notReady rfl (aduReassemble_alone h _ 1))
  have hw₄ := (reachable_inv h h₄).working.resolve_right fun ⟨_, ho⟩ =>
    ho.not_moving (j := 0) rfl trivial
  obtain ⟨store₅, hswap₅, hw₅⟩ := hw₄.park h (k := 0) rfl
  have h₅ := reachable_step h₄ (.park rfl hswap₅)
  obtain ⟨store₆, hswap₆, hw₆⟩ := hw₅.park h (k := 1) rfl
  refine ⟨_, reachable_step h₅ (.park rfl hswap₆), Fin.forall_fin_two.mpr ⟨trivial, trivial⟩, ?_⟩
  rintro ⟨⟨k, hk, -⟩, -⟩
  exact hw₆.not_ran hk

end

/-- Both fragments are parked, and none is reassembled. -/
theorem pairUnit_stranded : Tiled pairUnit 2 ∧
    ¬ ∀ s, (@machine 1 pairUnit .reference .sorted .next).Reachable s →
      (∀ k, (s.tasks k).Finished) → Reassembled pairUnit s := by
  let _ : Crates := .reference
  let _ : HashOrder := .sorted
  let _ : StorageNames := .next
  refine ⟨pairUnit_tiled, fun hall => ?_⟩
  obtain ⟨s, hs, hf, hno⟩ := stranded_pair pairUnit_tiled pairStart_start
  exact hno (hall s hs hf)

def pairParked : Store :=
  { pairStore with
    metadata := Function.update pairStore.metadata (pairUnit 0).id
      (some (.live (pairUnit 0).parked.bundle)) }

def pairVerdict : Option Verdict :=
  ((@aduReassemble .reference .sorted .next pairParked .sorted false (pairUnit 1).bundle
    [(pairUnit 0).parked.bundle] false).map fun p => p.1.verdict).toOption

theorem pairVerdict_ready : pairVerdict ≠ none ∧ pairVerdict ≠ some .notReady := by
  decide +kernel

def pairHalf : State 1 :=
  State.goto ⟨pairParked, ((pairStart.goto 0 (.polled [])).goto 0 .notReady).tasks⟩ 0 .parked

theorem pairHalf_timely : Timely pairHalf (.poll 1) := by
  intro _ j hj
  rcases Fin.exists_fin_two.mp ⟨j, rfl⟩ with rfl | rfl
  · rfl
  · exact absurd rfl hj

theorem pairUnit_timely :
    ∃ s, ((@machine 1 pairUnit .reference .sorted .next).only Timely).Reachable s ∧
      ∀ k, (s.tasks k).Finished := by
  let _ : Crates := .reference
  let _ : HashOrder := .sorted
  let _ : StorageNames := .next
  have h := pairUnit_tiled
  have hs := pairStart_start
  have h₁ : ((machine pairUnit).only Timely).Reachable (pairStart.goto 0 (.polled [])) :=
    .step (.poll 0) (.start hs) ⟨fun hlast => absurd rfl (hlast 1 (by decide)),
      .poll (hs.begun 0) (hs.poll_nil h 0)⟩
  have h₂ : ((machine pairUnit).only Timely).Reachable
      ((pairStart.goto 0 (.polled [])).goto 0 .notReady) :=
    .step (.decide 0) h₁ ⟨trivial, .notReady rfl (aduReassemble_alone h _ 0)⟩
  have h₃ : ((machine pairUnit).only Timely).Reachable pairHalf :=
    .step (.park 0) h₂ ⟨trivial, .park rfl (Store.swapStatus_eq_some.mpr
      ⟨_, ⟨pairStore_live 0, rfl⟩, rfl, rfl⟩)⟩
  have hinv := reachable_inv h h₃.of_only
  have hw := hinv.working.resolve_right fun ⟨_, ho⟩ => ho.not_moving (j := 1) rfl trivial
  have hpoll := hw.pollAduFragments h hinv (k := 1)
  rw [show pairHalf.parked = {0} by decide, Finset.toList_singleton] at hpoll
  have h₄ : ((machine pairUnit).only Timely).Reachable
      (pairHalf.goto 1 (.polled [(pairUnit 0).parked.bundle])) :=
    .step (.poll 1) h₃ ⟨pairHalf_timely, .poll rfl hpoll⟩
  obtain ⟨hsome, hready⟩ := pairVerdict_ready
  obtain ⟨v, hv⟩ := Option.ne_none_iff_exists'.mp hsome
  obtain ⟨⟨r, store⟩, hr, rfl⟩ := Fold.map_ok.mp (Fold.ok_of_toOption hv)
  refine ⟨_, .step (.decide 1) h₄ ⟨trivial, .ran rfl hr fun hne => hready ?_⟩,
    Fin.forall_fin_two.mpr ⟨trivial, trivial⟩⟩
  rw [hv]
  exact congrArg some hne

/-- That run ends with one reassembly. -/
theorem pairUnit_reassembled : Tiled pairUnit 2 ∧
    ∃ s, ((@machine 1 pairUnit .reference .sorted .next).only Timely).Reachable s ∧
      (∀ k, (s.tasks k).Finished) ∧ Reassembled pairUnit s := by
  obtain ⟨s, hs, hf⟩ := pairUnit_timely
  exact ⟨pairUnit_tiled, s, hs, hf,
    (@reassembled_iff_timely 1 pairUnit 2 .reference .sorted .next pairUnit_tiled).2.1 s hs hf⟩

end Siblings

end Hardy.Bpa
