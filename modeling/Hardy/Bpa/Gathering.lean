import Hardy.Bpa.Copying

/-!
# What reassembly consumes

The fragments that a reassembly receives and the fragments that it deletes.
The gathered fragments are kept under their offsets, so a fragment is lost from
the set when another one with its offset is delivered after it; the lengths are
added up all the same.
-/

namespace Hardy.Bpa

/-! ## Fragments -/

structure Fragment where
  bundle : Bundle
  info : FragmentInfo
  payload : Block
  name : Nat
  id_info : bundle.id.fragmentInfo = some info
  block : bundle.bpv7.blocks[1]? = some payload
  named : bundle.metadata.storageName = some name
  total_lt : info.totalAduLength < wordSize
  stop_lt : payload.payloadRange.stop < wordSize

namespace Fragment

def id (f : Fragment) : Id := f.bundle.id

def adu (f : Fragment) : Adu := ⟨f.id, f.name, f.payload.payloadRange⟩

def len (f : Fragment) : Nat := rangeLen f.payload.payloadRange

theorem adu_eq (f : Fragment) (message : String) : f.bundle.adu message = .ok f.adu := by
  rw [Bundle.adu, f.block, f.named]
  rfl

theorem len_lt (f : Fragment) : f.len < wordSize := by
  have := f.stop_lt
  simp only [len, rangeLen]
  omega

end Fragment

def SameUnit (t f : Fragment) : Prop :=
  t.id.source = f.id.source ∧ t.id.timestamp = f.id.timestamp

/-! ## The set -/

def aduMap (l : List Fragment) : HashMap Adu :=
  l.foldl (fun m f => m.insert f.info.offset f.adu) ∅

variable {l : List Fragment}

theorem foldl_insert_get {m : HashMap Adu} {k : Nat} {a : Adu}
    (h : (l.foldl (fun m f => m.insert f.info.offset f.adu) m)[k]? = some a) :
    m[k]? = some a ∨ ∃ f ∈ l, f.info.offset = k ∧ f.adu = a := by
  induction l generalizing m with
  | nil => exact .inl h
  | cons f l ih =>
    rcases ih h with h | ⟨f', hf', h⟩
    · rw [HashMap.getElem?_insert] at h
      split at h
      · next hk => exact .inr ⟨f, List.mem_cons_self, hk.symm, Option.some.inj h⟩
      · exact .inl h
    · exact .inr ⟨f', List.mem_cons_of_mem _ hf', h⟩

theorem foldl_insert_mem {m : HashMap Adu} {k : Nat} (h : k ∈ m ∨ ∃ f ∈ l, f.info.offset = k) :
    k ∈ l.foldl (fun m f => m.insert f.info.offset f.adu) m := by
  induction l generalizing m with
  | nil =>
    rcases h with h | ⟨f, hf, -⟩
    · exact h
    · cases hf
  | cons f l ih =>
    refine ih ?_
    rw [HashMap.mem_iff]
    simp only [HashMap.getElem?_insert]
    by_cases hk : k = f.info.offset
    · exact .inl ⟨f.adu, if_pos hk⟩
    · simp only [if_neg hk]
      rcases h with h | ⟨f', hf', rfl⟩
      · exact .inl (HashMap.mem_iff.mp h)
      · rcases List.mem_cons.mp hf' with rfl | hf'
        · exact absurd rfl hk
        · exact .inr ⟨f', hf', rfl⟩

theorem aduMap_get {k : Nat} {a : Adu} (h : (aduMap l)[k]? = some a) :
    ∃ f ∈ l, f.info.offset = k ∧ f.adu = a := by
  rcases foldl_insert_get h with h | h
  · rw [Std.ExtTreeMap.getElem?_empty] at h
    cases h
  · exact h

theorem aduMap_key {f : Fragment} (hf : f ∈ l) : ∃ a, (aduMap l)[f.info.offset]? = some a :=
  HashMap.mem_iff.mp (foldl_insert_mem (.inr ⟨f, hf, rfl⟩))

/-- No two fragments begin at one offset. -/
def OffsetsDiffer (l : List Fragment) : Prop :=
  l.Pairwise fun f g => f.info.offset ≠ g.info.offset

theorem OffsetsDiffer.eq (h : OffsetsDiffer l) {f g : Fragment} (hf : f ∈ l)
    (hg : g ∈ l) (he : f.info.offset = g.info.offset) : f = g := by
  by_contra hne
  have hsymm : Std.Symm fun f g : Fragment => f.info.offset ≠ g.info.offset :=
    ⟨fun _ _ h => h.symm⟩
  exact List.Pairwise.forall h hf hg hne he

theorem OffsetsDiffer.get (h : OffsetsDiffer l) {k : Nat} {a : Adu} :
    (aduMap l)[k]? = some a ↔ ∃ f ∈ l, f.info.offset = k ∧ f.adu = a := by
  refine ⟨aduMap_get, ?_⟩
  rintro ⟨f, hf, rfl, rfl⟩
  obtain ⟨a, ha⟩ := aduMap_key hf
  obtain ⟨g, hg, hk, rfl⟩ := aduMap_get ha
  rw [ha, h.eq hg hf hk]

theorem OffsetsDiffer.aduMap_perm {l l' : List Fragment} (h : OffsetsDiffer l) (hp : l.Perm l') :
    aduMap l = aduMap l' := by
  refine Std.ExtTreeMap.ext_getElem? fun k => Option.ext fun a => ?_
  rw [h.get, OffsetsDiffer.get (hp.pairwise h fun hne => hne.symm)]
  simp only [hp.mem_iff]

/-! ## Gathering -/

def Gathered.begin (t : Fragment) : Gathered where
  total := t.len
  set := ⟨t.bundle.metadata.receivedAt, t.bundle.metadata.origin, aduMap [t]⟩

def Gathered.add (g : Gathered) (f : Fragment) : Gathered where
  total := saturatingAdd g.total f.len
  set :=
    let earlier := f.bundle.metadata.receivedAt < g.set.receivedAt
    ⟨if earlier then f.bundle.metadata.receivedAt else g.set.receivedAt,
      if earlier then f.bundle.metadata.origin else g.set.origin,
      g.set.adus.insert f.info.offset f.adu⟩

def gathered (t : Fragment) (l : List Fragment) : Gathered := l.foldl Gathered.add (.begin t)

theorem start_eq (t : Fragment) : Gathered.start t.bundle = .ok (t.info, .begin t) := by
  rw [Gathered.start, t.id_info, t.adu_eq]
  rfl

theorem collect_eq {t f : Fragment} (h : SameUnit t f) (g : Gathered) :
    g.collect t.bundle f.bundle = .ok (g.add f) := by
  unfold Gathered.collect
  split
  · rw [f.id_info, f.adu_eq]
    rfl
  · next hne => exact absurd h hne

variable {t : Fragment}

theorem foldlM_collect (h : ∀ f ∈ l, SameUnit t f) (g : Gathered) :
    (l.map Fragment.bundle).foldlM (Gathered.collect t.bundle) g = .ok (l.foldl Gathered.add g) := by
  induction l generalizing g with
  | nil => rfl
  | cons f l ih =>
    rw [List.map_cons, List.foldlM_cons, collect_eq (h f List.mem_cons_self)]
    exact ih (fun f hf => h f (List.mem_cons_of_mem _ hf)) _

theorem foldl_add_adus (l : List Fragment) (g : Gathered) :
    (l.foldl Gathered.add g).set.adus =
      l.foldl (fun m f => m.insert f.info.offset f.adu) g.set.adus := by
  induction l generalizing g with
  | nil => rfl
  | cons f l ih => exact ih _

theorem gathered_adus (t : Fragment) (l : List Fragment) :
    (gathered t l).set.adus = aduMap (t :: l) :=
  foldl_add_adus l _

theorem foldl_add_total (l : List Fragment) {g : Gathered} (hg : g.total < wordSize) :
    (l.foldl Gathered.add g).total =
      min (g.total + (l.map Fragment.len).sum) (wordSize - 1) := by
  induction l generalizing g with
  | nil =>
    simp only [List.foldl_nil, List.map_nil, List.sum_nil]
    omega
  | cons f l ih =>
    rw [List.foldl_cons, ih (by simp only [Gathered.add, saturatingAdd]; omega)]
    simp only [Gathered.add, saturatingAdd, List.map_cons, List.sum_cons]
    omega

/-- The fragments do not make up the unit. -/
def Short (t : Fragment) (l : List Fragment) : Prop :=
  ((t :: l).map Fragment.len).sum < t.info.totalAduLength

theorem le_gathered_total : t.info.totalAduLength ≤ (gathered t l).total ↔ ¬ Short t l := by
  have htotal := t.total_lt
  have hword : 0 < wordSize := by decide
  rw [gathered, foldl_add_total l (show (Gathered.begin t).total < wordSize from t.len_lt), Short,
    List.map_cons, List.sum_cons]
  simp only [Gathered.begin]
  omega

theorem Short.perm {l l' : List Fragment} (hp : l.Perm l') : Short t l ↔ Short t l' := by
  rw [Short, Short, List.map_cons, List.map_cons, List.sum_cons, List.sum_cons,
    (hp.map Fragment.len).sum_nat]

theorem pollFragments_eq (h : ∀ f ∈ l, SameUnit t f) (cancelled : Bool) :
    (pollFragments t.bundle (l.map Fragment.bundle) cancelled = .ok none ∧
      (cancelled = true ∨ Short t l)) ∨
    (pollFragments t.bundle (l.map Fragment.bundle) cancelled = .ok (some (gathered t l).set) ∧
      cancelled = false ∧ ¬ Short t l) := by
  have heq : pollFragments t.bundle (l.map Fragment.bundle) cancelled =
      .ok (if cancelled then none
        else if t.info.totalAduLength ≤ (gathered t l).total then some (gathered t l).set
        else none) := by
    refine Fold.bind_ok.mpr ⟨_, start_eq t, Fold.bind_ok.mpr ⟨_, foldlM_collect h _, rfl⟩⟩
  rw [heq]
  cases cancelled with
  | true => exact .inl ⟨rfl, .inl rfl⟩
  | false =>
    by_cases hs : Short t l
    · refine .inl ⟨?_, .inr hs⟩
      rw [if_neg Bool.false_ne_true, if_neg fun hle => le_gathered_total.mp hle hs]
    · refine .inr ⟨?_, rfl, hs⟩
      rw [if_neg Bool.false_ne_true, if_pos (le_gathered_total.mpr hs)]

/-! ## Cleaning up -/

theorem cleanUp_metadata (store : Store) (l : List (Nat × Adu)) (i : Id) :
    (cleanUp store l).metadata i =
      if i ∈ l.map fun e => e.2.id then (store.metadata i).map fun _ => .tombstone
      else store.metadata i := by
  induction l generalizing store with
  | nil => rfl
  | cons e l ih =>
    rw [cleanUp, List.foldl_cons, ← cleanUp, ih, List.map_cons]
    simp only [List.mem_cons, Store.tombstoneMetadata, Store.deleteData]
    by_cases he : i = e.2.id
    · subst he
      simp only [if_true, true_or, Option.map_map]
      split <;> rfl
    · simp only [he, if_false, false_or]

theorem cleanUp_data (store : Store) (l : List (Nat × Adu)) {name : Nat}
    (h : name ∈ l.map fun e => e.2.storageName) : (cleanUp store l).data[name]? = none := by
  have hgone : ∀ (l : List (Nat × Adu)) (store : Store), store.data[name]? = none →
      (cleanUp store l).data[name]? = none := by
    intro l
    induction l with
    | nil => exact fun _ h => h
    | cons e l ih =>
      intro store h
      refine ih _ ?_
      simp only [Store.tombstoneMetadata, Store.deleteData, Std.ExtTreeMap.getElem?_erase, h]
      split <;> rfl
  induction l generalizing store with
  | nil => cases h
  | cons e l ih =>
    rw [cleanUp, List.foldl_cons, ← cleanUp]
    rcases List.mem_cons.mp h with rfl | h
    · refine hgone l _ ?_
      simp [Store.tombstoneMetadata, Store.deleteData]
    · exact ih _ h

/-! ## Consumption -/

/-- Fragments of one application data unit in the store: the one whose arrival
starts the reassembly and the parked ones. -/
structure Stored (store : Store) (t : Fragment) (parked : List Fragment) : Prop where
  live : ∀ f ∈ t :: parked, store.metadata f.id = some (.live f.bundle)
  same : ∀ f ∈ parked, SameUnit t f
  ids : (t :: parked).Pairwise fun f g => f.id ≠ g.id

def Fragment.Consumed (f : Fragment) (s : Store) : Prop :=
  s.metadata f.id = some .tombstone ∧ s.data[f.name]? = none

theorem Stored.sameOf {store : Store} {parked l : List Fragment}
    (h : Stored store t parked) (hp : l.Perm parked) : ∀ f ∈ l, SameUnit t f :=
  fun f hf => h.same f (hp.mem_iff.mp hf)

variable {walk : AduWalk}

theorem consumed_of_get {s₀ : Store} {f : Fragment}
    (hlive : s₀.metadata f.id = some (.live f.bundle))
    (h : (aduMap l)[f.info.offset]? = some f.adu) :
    f.Consumed (cleanUp s₀ (walk.iter (aduMap l))) := by
  have hmem : (f.info.offset, f.adu) ∈ walk.iter (aduMap l) :=
    walk.mem_iter.mpr h
  refine ⟨?_, cleanUp_data _ _ (List.mem_map_of_mem (f := fun e => e.2.storageName) hmem)⟩
  have hid : f.id ∈ (walk.iter (aduMap l)).map fun e => e.2.id :=
    List.mem_map_of_mem (f := fun e => e.2.id) hmem
  rw [cleanUp_metadata, if_pos hid, hlive]
  rfl

theorem live_of_replaced {s₀ : Store} {f : Fragment}
    {a : Adu} (ha : (aduMap l)[f.info.offset]? = some a) (hne : a.id ≠ f.id) :
    (cleanUp s₀ (walk.iter (aduMap l))).metadata f.id = s₀.metadata f.id := by
  rw [cleanUp_metadata]
  refine if_neg fun hmem => ?_
  obtain ⟨e, he, hid⟩ := List.mem_map.mp hmem
  have hget := walk.mem_iter.mp he
  obtain ⟨g, -, hoff, hadu⟩ := aduMap_get hget
  have hgid : g.id = f.id := by
    rw [← hid, ← hadu]
    rfl
  -- the offset is part of the id, so the entry is the one that replaced `f`
  have hinfo : g.info = f.info := by
    have := g.id_info
    rw [show g.bundle.id = f.bundle.id from hgid, f.id_info] at this
    exact (Option.some.inj this).symm
  rw [← hoff, hinfo, ha] at hget
  exact hne (Option.some.inj hget ▸ hid)

theorem keyed_aduMap (l : List Fragment) : Keyed (aduMap l) := by
  intro k a h
  obtain ⟨f, -, rfl, rfl⟩ := aduMap_get h
  exact ⟨f.info, f.id_info, rfl⟩

theorem left_behind {store : Store} {parked l : List Fragment}
    (h : Stored store t parked) (hnd : ¬ OffsetsDiffer (t :: parked)) (hp : l.Perm parked)
    {s₀ : Store} (hmeta : s₀.metadata = store.metadata) :
    ∃ f ∈ t :: parked, (cleanUp s₀ (walk.iter (aduMap (t :: l)))).metadata f.id =
      some (.live f.bundle) := by
  obtain ⟨f, hf, g, hg, hoff, hid⟩ : ∃ f ∈ t :: parked, ∃ g ∈ t :: parked,
      f.info.offset = g.info.offset ∧ f.id ≠ g.id := by
    by_contra hno
    push Not at hno
    exact hnd (h.ids.imp_of_mem fun hf hg hid hoff => hid (hno _ hf _ hg hoff))
  obtain ⟨a, ha⟩ := aduMap_key ((hp.cons t).mem_iff.mpr hf)
  -- the entry at the common offset is not one of the two
  by_cases haf : a.id = f.id
  · refine ⟨g, hg, ?_⟩
    rw [live_of_replaced (hoff ▸ ha) (haf ▸ hid), hmeta]
    exact h.live g hg
  · refine ⟨f, hf, ?_⟩
    rw [live_of_replaced ha haf, hmeta]
    exact h.live f hf

/-! ## Verdicts -/

/-- How a reassembly ends, and the bundle it ends with. -/
inductive Verdict where
  | notReady
  | failed
  | done (data : Bytes)
deriving DecidableEq

def ReassemblyResult.verdict : ReassemblyResult → Verdict
  | notReady => .notReady
  | failed => .failed
  | done _ data _ _ => .done data

def verdictOf : Except Stop Bytes → Except Stop Verdict
  | .ok data => .ok (.done data)
  | .error (.refused _) => .ok .failed
  | .error (.panicked message) => .error (.panicked message)

theorem verdictOf_congr {x y : Except Stop Bytes}
    (h : x.mapError Stop.panic? = y.mapError Stop.panic?) : verdictOf x = verdictOf y := by
  rcases x with (m | m) | d <;> rcases y with (m' | m') | d' <;> cases h <;> rfl

section

variable [Crates] [HashOrder] [StorageNames] {store : Store} {t : Fragment} {l : List Fragment}

theorem aduReassemble_ok (hsame : ∀ f ∈ l, SameUnit t f)
    {unique cancelled : Bool} {r : ReassemblyResult} {s : Store}
    (h : aduReassemble store walk unique t.bundle (l.map Fragment.bundle) cancelled = .ok (r, s)) :
    ((cancelled = true ∨ Short t l) ∧ r = .notReady ∧ s = store) ∨
    ((cancelled = false ∧ ¬ Short t l) ∧ r.verdict ≠ .notReady ∧ ∃ s₀ : Store,
      s₀.metadata = store.metadata ∧ s = cleanUp s₀ (walk.iter (aduMap (t :: l)))) := by
  rw [aduReassemble] at h
  rcases pollFragments_eq hsame cancelled with ⟨hpoll, hc⟩ | ⟨hpoll, hc⟩
  · rw [hpoll] at h
    cases h
    exact .inl ⟨hc, rfl, rfl⟩
  · rw [hpoll] at h
    simp only [bind, Except.bind, gathered_adus] at h
    split at h
    · cases h
      exact .inr ⟨hc, nofun, (store.saveData _).2, rfl, rfl⟩
    · cases h
      exact .inr ⟨hc, nofun, store, rfl, rfl⟩
    · cases h

theorem aduReassemble_verdict (store : Store) (hsame : ∀ f ∈ l, SameUnit t f) (walk : AduWalk)
    (unique cancelled : Bool) :
    (aduReassemble store walk unique t.bundle (l.map Fragment.bundle) cancelled).map
        (fun p => p.1.verdict) = .ok .notReady ∧ (cancelled = true ∨ Short t l) ∨
    (aduReassemble store walk unique t.bundle (l.map Fragment.bundle) cancelled).map
        (fun p => p.1.verdict) = verdictOf (assembleAdu store walk (aduMap (t :: l)) >>=
          fun p => rewriteAdu unique p.1 p.2) ∧ cancelled = false ∧ ¬ Short t l := by
  rw [aduReassemble]
  rcases pollFragments_eq hsame cancelled with ⟨hpoll, hc⟩ | ⟨hpoll, hc⟩
  · rw [hpoll]
    exact .inl ⟨rfl, hc⟩
  · rw [hpoll]
    refine .inr ⟨?_, hc⟩
    simp only [bind, Except.bind, reassembled, gathered_adus]
    split <;> rename_i h <;> rw [h] <;> rfl

/-! ## Every order of the deliveries -/

/-- Whatever the order of the deliveries: a reassembly that comes to an end has
consumed every fragment that it was given, and its verdict is the same. -/
def ConsumesAll (store : Store) (t : Fragment) (parked : List Fragment) : Prop :=
  ∀ (walk : AduWalk) (unique cancelled : Bool) (l : List Fragment), l.Perm parked →
    (∀ (r : ReassemblyResult) (s : Store),
      aduReassemble store walk unique t.bundle (l.map Fragment.bundle) cancelled = .ok (r, s) →
        r.verdict ≠ .notReady → ∀ f ∈ t :: parked, f.Consumed s) ∧
    ∀ (walk' : AduWalk) (l' : List Fragment), l'.Perm parked →
      (aduReassemble store walk unique t.bundle (l.map Fragment.bundle) cancelled).map
          (fun p => p.1.verdict) =
        (aduReassemble store walk' unique t.bundle (l'.map Fragment.bundle) cancelled).map
          (fun p => p.1.verdict)

section

variable {parked : List Fragment} (h : Stored store t parked)

include h

theorem consumed_of_differ (hdiff : OffsetsDiffer (t :: parked)) (hp : l.Perm parked)
    {unique cancelled : Bool} {r : ReassemblyResult} {s : Store}
    (hr : aduReassemble store walk unique t.bundle (l.map Fragment.bundle) cancelled = .ok (r, s))
    (hne : r.verdict ≠ .notReady) {f : Fragment} (hf : f ∈ t :: parked) : f.Consumed s := by
  rcases aduReassemble_ok (h.sameOf hp) hr with ⟨-, rfl, -⟩ | ⟨-, -, s₀, hmeta, rfl⟩
  · exact absurd rfl hne
  · rw [← hdiff.aduMap_perm (hp.symm.cons t)]
    refine consumed_of_get ?_ (hdiff.get.mpr ⟨f, hf, rfl, rfl⟩)
    rw [hmeta, h.live f hf]

theorem notReady_of_short (hs : Short t parked) (hp : l.Perm parked) (walk : AduWalk)
    (unique cancelled : Bool) :
    (aduReassemble store walk unique t.bundle (l.map Fragment.bundle) cancelled).map
      (fun p => p.1.verdict) = .ok .notReady := by
  rcases aduReassemble_verdict store (h.sameOf hp) walk unique cancelled with
    ⟨hv, -⟩ | ⟨-, -, hns⟩
  · exact hv
  · exact absurd ((Short.perm hp).mpr hs) hns

theorem verdict_of_differ (hdiff : OffsetsDiffer (t :: parked)) (hp : l.Perm parked)
    (walk : AduWalk) (unique cancelled : Bool) :
    (aduReassemble store walk unique t.bundle (l.map Fragment.bundle) cancelled).map
        (fun p => p.1.verdict) =
      (aduReassemble store .sorted unique t.bundle (parked.map Fragment.bundle) cancelled).map
        (fun p => p.1.verdict) := by
  rcases aduReassemble_verdict store (h.sameOf hp) walk unique cancelled with
    ⟨hv, hc⟩ | ⟨hv, hc⟩ <;>
  rcases aduReassemble_verdict store h.same .sorted unique cancelled with
    ⟨hv', hc'⟩ | ⟨hv', hc'⟩
  · rw [hv, hv']
  · rw [Short.perm hp] at hc
    exact absurd hc (by simp [hc'])
  · rw [← Short.perm hp] at hc'
    exact absurd hc' (by simp [hc])
  · rw [hv, hv', ← hdiff.aduMap_perm (hp.symm.cons t)]
    refine verdictOf_congr ?_
    apply Fold.mapError_bind
    · exact assembleAdu_walk store walk .sorted (keyed_aduMap _)
    · intro p _
      rfl

/-- A reassembly consumes what it has counted when no two of the fragments
begin at one place, or when it does not come to an end; otherwise every call
that returns leaves a fragment behind. -/
theorem aduReassemble_consumes :
    (Short t parked ∨ OffsetsDiffer (t :: parked) → ConsumesAll store t parked) ∧
    (¬ (Short t parked ∨ OffsetsDiffer (t :: parked)) →
      ∀ (walk : AduWalk) (unique : Bool) (l : List Fragment), l.Perm parked →
      ∀ (r : ReassemblyResult) (s : Store),
        aduReassemble store walk unique t.bundle (l.map Fragment.bundle) false = .ok (r, s) →
        r.verdict ≠ .notReady ∧
          ∃ f ∈ t :: parked, s.metadata f.id = some (.live f.bundle)) := by
  constructor
  · rintro (hs | hdiff) walk unique cancelled l hp
    · have hv := fun {l : List Fragment} (hp : l.Perm parked) walk =>
        notReady_of_short h hs hp walk unique cancelled
      refine ⟨fun r s hr hne => ?_, fun walk' l' hp' => (hv hp walk).trans (hv hp' walk').symm⟩
      have := hv hp walk
      rw [hr] at this
      exact absurd (Except.ok.inj this) hne
    · refine ⟨fun r s hr hne f hf => consumed_of_differ h hdiff hp hr hne hf, fun walk' l' hp' => ?_⟩
      rw [verdict_of_differ h hdiff hp, verdict_of_differ h hdiff hp']
  · intro hcond walk unique l hp r s hr
    obtain ⟨hns, hnd⟩ := not_or.mp hcond
    rcases aduReassemble_ok (h.sameOf hp) hr with ⟨hs, -⟩ | ⟨-, hne, s₀, hmeta, rfl⟩
    · rcases hs with hs | hs
      · cases hs
      · exact absurd ((Short.perm hp).mp hs) hns
    · exact ⟨hne, left_behind h hnd hp hmeta⟩

end

end

/-! ## Fragments of one byte -/

def unitPrimary (offset total : Nat) : PrimaryBlock where
  flags := { isFragment := true }
  id := ⟨.ipn ⟨0, 1⟩ 1, ⟨some 1, 0⟩, some ⟨offset, total⟩⟩
  crcType := .none
  destination := .ipn ⟨0, 2⟩ 1
  reportTo := .null
  lifetime := .fromMillis 1000

/-- A fragment as it is stored: the primary block and a payload block. -/
def unitBytes (offset total payload : UInt8) : Bytes :=
  [0x9F, 0x8A, 0x07, 0x01, 0x00, 0x82, 0x02, 0x82, 0x02, 0x01, 0x82, 0x02, 0x82, 0x01, 0x01, 0x82,
    0x01, 0x00, 0x82, 0x01, 0x00, 0x19, 0x03, 0xE8, offset, total, 0x85, 0x01, 0x01, 0x00, 0x00,
    0x41, payload, 0xFF]

def unitBlock : Block := { extent := ⟨26, 33⟩, data := ⟨6, 7⟩ }

def unitBundle (offset total : Nat) : Hardy.Bundle where
  primary := unitPrimary offset total
  blocks := ((∅ : HashMap Block).insert 0 (PrimaryBlock.asBlock .none ⟨1, 26⟩)).insert 1 unitBlock

def unitFragment (offset total : UInt8) (name : Nat) : Fragment where
  bundle := ⟨unitBundle offset.toNat total.toNat, ⟨0, .originated, some name⟩,
    .aduFragment (.ipn ⟨0, 1⟩ 1) ⟨some 1, 0⟩⟩
  info := ⟨offset.toNat, total.toNat⟩
  payload := unitBlock
  name := name
  id_info := rfl
  block := by
    simp only [unitBundle, HashMap.getElem?_insert]
    rfl
  named := rfl
  total_lt := total.toNat_lt.trans (by decide)
  stop_lt := by decide

def storeOf (l : List (Fragment × Bytes)) : Store where
  metadata i := (l.find? fun e => e.1.id = i).map fun e => .live e.1.bundle
  data := l.foldl (fun m e => m.insert e.1.name e.2) ∅

theorem storeOf_live {l : List (Fragment × Bytes)} (h : l.Pairwise fun a b => a.1.id ≠ b.1.id)
    {e : Fragment × Bytes} (he : e ∈ l) :
    (storeOf l).metadata e.1.id = some (.live e.1.bundle) := by
  have hfind : l.find? (fun x => x.1.id = e.1.id) = some e := by
    induction l with
    | nil => cases he
    | cons x l ih =>
      obtain ⟨hx, hl⟩ := List.pairwise_cons.mp h
      rcases List.mem_cons.mp he with rfl | he
      · rw [List.find?_cons_of_pos (by simp)]
      · rw [List.find?_cons_of_neg (by simpa using hx e he)]
        exact ih hl he
  rw [storeOf]
  dsimp only
  rw [hfind]
  rfl

theorem stored_storeOf {t : Fragment × Bytes} {l : List (Fragment × Bytes)}
    (hsame : ∀ e ∈ l, SameUnit t.1 e.1)
    (hid : (t :: l).Pairwise fun a b => a.1.id ≠ b.1.id) :
    Stored (storeOf (t :: l)) t.1 (l.map Prod.fst) := by
  refine ⟨fun f hf => ?_, fun f hf => ?_, ?_⟩
  · obtain ⟨e, he, rfl⟩ := List.mem_map.mp (show f ∈ (t :: l).map Prod.fst from hf)
    exact storeOf_live hid he
  · obtain ⟨e, he, rfl⟩ := List.mem_map.mp hf
    exact hsame e he
  · rw [← List.map_cons, List.pairwise_map]
    exact hid

def unitPair : List (Fragment × Bytes) :=
  [(unitFragment 1 2 1, unitBytes 1 2 7), (unitFragment 0 2 2, unitBytes 0 2 8)]

theorem unitPair_stored :
    Stored (storeOf unitPair) (unitFragment 1 2 1) [unitFragment 0 2 2] := by
  refine stored_storeOf (l := unitPair.tail) ?_ ?_
  · intro e he
    rw [List.mem_singleton.mp he]
    exact ⟨rfl, rfl⟩
  · simp [unitPair, Fragment.id, unitFragment, Bundle.id, unitBundle, unitPrimary]

theorem unitPair_consumed :
    Stored (storeOf unitPair) (unitFragment 1 2 1) [unitFragment 0 2 2] ∧
    @ConsumesAll .reference .sorted .next (storeOf unitPair) (unitFragment 1 2 1)
      [unitFragment 0 2 2] := by
  have h := unitPair_stored
  refine ⟨h, (@aduReassemble_consumes .reference .sorted .next _ _ _ h).1 (.inr ?_)⟩
  simp [OffsetsDiffer, unitFragment]

/-- The second byte of a unit of two, the first byte of it, and a byte of a
unit of three at the place of the first. -/
def unitTriple : List (Fragment × Bytes) :=
  [(unitFragment 1 2 1, unitBytes 1 2 7), (unitFragment 0 2 2, unitBytes 0 2 8),
    (unitFragment 0 3 3, unitBytes 0 3 9)]

def tripleVerdict (polled : List Fragment) : Option Verdict :=
  ((@aduReassemble .reference .sorted .next (storeOf unitTriple) .sorted false
    (unitFragment 1 2 1).bundle (polled.map Fragment.bundle) false).map
      fun p => p.1.verdict).toOption

/-- Delivered last, the byte of the other unit replaces the one that fits. -/
theorem unitTriple_not_consumed :
    Stored (storeOf unitTriple) (unitFragment 1 2 1) [unitFragment 0 2 2, unitFragment 0 3 3] ∧
    tripleVerdict [unitFragment 0 2 2, unitFragment 0 3 3] = some .failed ∧
    ¬ @ConsumesAll .reference .sorted .next (storeOf unitTriple) (unitFragment 1 2 1)
      [unitFragment 0 2 2, unitFragment 0 3 3] := by
  refine ⟨stored_storeOf (l := unitTriple.tail) ?_ ?_, by decide +kernel, fun h => ?_⟩
  · intro e he
    simp only [unitTriple, List.tail_cons, List.mem_cons, List.not_mem_nil, or_false] at he
    rcases he with rfl | rfl <;> exact ⟨rfl, rfl⟩
  · simp [unitTriple, Fragment.id, unitFragment, Bundle.id, unitBundle, unitPrimary]
  · have heq := (h .sorted false false _ (.refl _)).2 .sorted _ (List.Perm.swap _ _ [])
    have hne : tripleVerdict [unitFragment 0 2 2, unitFragment 0 3 3] ≠
        tripleVerdict [unitFragment 0 3 3, unitFragment 0 2 2] := by decide +kernel
    exact hne (congrArg Except.toOption heq)

end Hardy.Bpa
