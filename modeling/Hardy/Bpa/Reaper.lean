import Hardy.Machine
import Hardy.Pattern
import Hardy.Sorted
import Hardy.Bpa.Store

/-!
# The reaper

Model of `bpa/src/storage/reaper.rs`.  The reaper keeps a bounded set of the
bundles that are to expire soonest, wakes up at the first expiry in it, and
refills it from the store once a pass has left it empty.

Bundles are known by their ids; their expiries and their destinations do not
change.  The dispatch tasks that watch bundles, the run loop and the refill
task run in any interleaving, and the rest of the node writes the records in
the store.  A bundle is in the charge of the reaper from the time it is
watched until a pass has come to it.
-/

namespace Hardy

deriving instance Ord for CreationTimestamp
deriving instance Ord for FragmentInfo
deriving instance Ord for Id

/-! ## Orders that tell values apart -/

theorem IpnNodeId.compare_eq_eq {a b : IpnNodeId} : compare a b = .eq ↔ a = b := by
  cases a
  cases b
  change instOrdIpnNodeId.ord _ _ = .eq ↔ _
  simp [instOrdIpnNodeId.ord, Ordering.then_eq_eq]

theorem Eid.compare_eq_eq {a b : Eid} : compare a b = .eq ↔ a = b := by
  change instOrdEid.ord a b = .eq ↔ _
  cases a <;> cases b <;>
    simp [instOrdEid.ord, Ordering.then_eq_eq, IpnNodeId.compare_eq_eq]

theorem CreationTimestamp.compare_eq_eq {a b : CreationTimestamp} :
    compare a b = .eq ↔ a = b := by
  cases a
  cases b
  change instOrdCreationTimestamp.ord _ _ = .eq ↔ _
  simp [instOrdCreationTimestamp.ord, Ordering.then_eq_eq]

theorem FragmentInfo.compare_eq_eq {a b : FragmentInfo} : compare a b = .eq ↔ a = b := by
  cases a
  cases b
  change instOrdFragmentInfo.ord _ _ = .eq ↔ _
  simp [instOrdFragmentInfo.ord, Ordering.then_eq_eq]

instance : Std.LawfulEqOrd FragmentInfo where
  compare_self := FragmentInfo.compare_eq_eq.mpr rfl
  eq_of_compare := FragmentInfo.compare_eq_eq.mp

theorem Id.compare_eq_eq {a b : Id} : compare a b = .eq ↔ a = b := by
  cases a
  cases b
  change instOrdId.ord _ _ = .eq ↔ _
  simp [instOrdId.ord, Ordering.then_eq_eq, Eid.compare_eq_eq, CreationTimestamp.compare_eq_eq]

namespace Bpa.Reaper

structure CacheEntry where
  expiry : Int
  id : Id
  destination : Eid
deriving DecidableEq, Repr

def CacheEntry.cmp (a b : CacheEntry) : Ordering :=
  (compare a.expiry b.expiry).then
    ((compare a.destination b.destination).then (compare a.id b.id))

instance : Ord CacheEntry := ⟨CacheEntry.cmp⟩

theorem CacheEntry.eq_of_compare {a b : CacheEntry} (h : compare a b = .eq) : a = b := by
  obtain ⟨x, i, d⟩ := a
  obtain ⟨x', i', d'⟩ := b
  change (compare x x').then ((compare d d').then (compare i i')) = .eq at h
  rw [Ordering.then_eq_eq, Ordering.then_eq_eq, Eid.compare_eq_eq, Id.compare_eq_eq,
    Std.compare_eq_iff_eq] at h
  obtain ⟨rfl, rfl, rfl⟩ := h
  rfl

theorem CacheEntry.le_of_compare_lt {a b : CacheEntry} (h : compare a b = .lt) :
    a.expiry ≤ b.expiry := by
  change (compare a.expiry b.expiry).then _ = .lt at h
  rcases Ordering.then_eq_lt.mp h with h | ⟨h, -⟩
  · exact (Int.compare_eq_lt.mp h).le
  · exact (Std.compare_eq_iff_eq.mp h).le

theorem CacheEntry.le_of_compare_gt {a b : CacheEntry} (h : compare a b = .gt) :
    b.expiry ≤ a.expiry := by
  change (compare a.expiry b.expiry).then _ = .gt at h
  rcases Ordering.then_eq_gt.mp h with h | ⟨h, -⟩
  · exact (Int.compare_eq_gt.mp h).le
  · exact (Std.compare_eq_iff_eq.mp h).ge

def sooner (e : CacheEntry) (first : Option CacheEntry) : Bool :=
  match first with
  | none => true
  | some old => e.expiry < old.expiry

/-- `Reaper::watch`: the cache, and whether the reaper is woken up. -/
def watch (cacheSize : Nat) (cap : Bool) (e : CacheEntry) (cache : List CacheEntry) :
    List CacheEntry × Bool :=
  if cap = false ∨ cache.length < cacheSize then
    let (isNew, cache') := Sorted.insert e cache
    (cache', isNew && sooner e cache.head?)
  else
    match cache.getLast? with
    -- a full cache has a last entry
    | none => (cache, false)
    | some last =>
      if e.expiry < last.expiry then
        let (isNew, cache') := Sorted.insert e cache.dropLast
        (cache', isNew && sooner e cache.head?)
      else (cache, false)

section

variable {cacheSize : Nat} {cap : Bool} {e x : CacheEntry} {cache : List CacheEntry}

def Ordered (cache : List CacheEntry) : Prop := cache.Pairwise fun a b => a.expiry ≤ b.expiry

theorem mem_insert : x ∈ (Sorted.insert e cache).2 ↔ x = e ∨ x ∈ cache := by
  refine ⟨Sorted.mem_insert, ?_⟩
  rintro (rfl | h)
  · exact Sorted.mem_insert_self fun _ => CacheEntry.eq_of_compare
  · exact Sorted.mem_insert_of_mem h

theorem Ordered.insert (h : Ordered cache) : Ordered (Sorted.insert e cache).2 :=
  Sorted.insert_pairwise h (fun _ => CacheEntry.le_of_compare_lt)
    (fun _ => CacheEntry.le_of_compare_gt) fun _ _ => le_trans

theorem Ordered.dropLast (h : Ordered cache) : Ordered cache.dropLast :=
  List.Pairwise.sublist (List.dropLast_sublist cache) h

theorem Ordered.le_last (h : Ordered cache) {last : CacheEntry} (hl : cache.getLast? = some last)
    (hx : x ∈ cache) : x.expiry ≤ last.expiry := by
  obtain ⟨init, rfl⟩ := List.getLast?_eq_some_iff.mp hl
  rcases List.mem_append.mp hx with hx | hx
  · exact (List.pairwise_append.mp h).2.2 x hx last (List.mem_singleton_self last)
  · rw [List.mem_singleton.mp hx]

theorem mem_dropLast_or {last : CacheEntry} (hl : cache.getLast? = some last) (hx : x ∈ cache) :
    x ∈ cache.dropLast ∨ x = last := by
  obtain ⟨init, rfl⟩ := List.getLast?_eq_some_iff.mp hl
  rw [List.dropLast_concat]
  exact (List.mem_append.mp hx).imp id List.mem_singleton.mp

theorem watch_cases (cacheSize : Nat) (cap : Bool) (e : CacheEntry) (cache : List CacheEntry) :
    ((cap = false ∨ cache.length < cacheSize) ∧
      (watch cacheSize cap e cache).1 = (Sorted.insert e cache).2) ∨
    (∃ last, cache.getLast? = some last ∧ e.expiry < last.expiry ∧
      (watch cacheSize cap e cache).1 = (Sorted.insert e cache.dropLast).2) ∨
    ((∀ last, cache.getLast? = some last → last.expiry ≤ e.expiry) ∧
      (watch cacheSize cap e cache).1 = cache) := by
  rw [watch]
  split
  · next hroom => exact .inl ⟨hroom, rfl⟩
  · split
    · next hnone => exact .inr (.inr ⟨fun _ h => (by rw [hnone] at h; cases h), rfl⟩)
    · next last hlast =>
        split
        · next hlt => exact .inr (.inl ⟨last, hlast, hlt, rfl⟩)
        · next hle =>
            refine .inr (.inr ⟨fun last' h => ?_, rfl⟩)
            rw [hlast] at h
            cases h
            exact not_lt.mp hle

theorem Ordered.watch (h : Ordered cache) : Ordered (watch cacheSize cap e cache).1 := by
  rcases watch_cases cacheSize cap e cache with ⟨-, he⟩ | ⟨-, -, -, he⟩ | ⟨-, he⟩
  · rw [he]
    exact h.insert
  · rw [he]
    exact h.dropLast.insert
  · rw [he]
    exact h

theorem mem_watch (h : x ∈ (watch cacheSize cap e cache).1) : x = e ∨ x ∈ cache := by
  rcases watch_cases cacheSize cap e cache with ⟨-, he⟩ | ⟨-, -, -, he⟩ | ⟨-, he⟩
  · rw [he] at h
    exact mem_insert.mp h
  · rw [he] at h
    exact (mem_insert.mp h).imp id fun hx => List.dropLast_subset cache hx
  · rw [he] at h
    exact .inr h

end

inductive Record where
  | live (status : BundleStatus)
  | tombstone
deriving DecidableEq

/-- `refill_cache`: the rows that are still to come, once it has polled, and the
rows that it has accepted. -/
structure Refill where
  rows : Option (List (Id × BundleStatus))
  accepted : Nat

structure State where
  cache : List CacheEntry
  wakeup : Bool
  store : Id → Option Record
  /-- The bundles that a pass has found dead, and the one about to be dropped. -/
  dead : List Id
  dropping : Option (Id × BundleStatus)
  /-- The pass has left the cache empty. -/
  checkStore : Bool
  refill : Option Refill
  charged : List Id

inductive Label where
  | watch (id : Id)
  /-- The rest of the node writes a record. -/
  | write (id : Id) (record : Record)
  /-- The run loop wakes up and takes out what has expired. -/
  | wake (now : Int)
  /-- The record of the next dead bundle is read. -/
  | get
  /-- `drop_bundle` -/
  | drop
  /-- The end of a pass that has left the cache empty. -/
  | respawn
  | poll
  /-- `refill_cache` receives a row. -/
  | row
  | finish

variable (cacheSize : Nat) (expiry : Id → Int) (destination : Id → Eid)

def entry (id : Id) : CacheEntry := ⟨expiry id, id, destination id⟩

def State.watch (s : State) (cap : Bool) (id : Id) : State :=
  let (cache, woken) := Reaper.watch cacheSize cap (entry expiry destination id) s.cache
  { s with cache, wakeup := s.wakeup || woken, charged := id :: s.charged }

def skipped (status : BundleStatus) : Bool := status = .new ∨ status.defersExpiry

def State.idle (s : State) : Bool := s.dead.isEmpty && s.dropping.isNone && !s.checkStore

def next (s : State) : Label → Option State
  | .watch id => (s.store id).map fun _ => s.watch cacheSize expiry destination true id
  | .write id record =>
    if s.store id = some .tombstone then none
    else some { s with store := Function.update s.store id (some record) }
  | .wake now =>
    if s.idle then
      let dead := s.cache.takeWhile fun e => e.expiry < now
      let cache := s.cache.dropWhile fun e => e.expiry < now
      some { s with
        cache, wakeup := false
        dead := dead.map CacheEntry.id
        checkStore := cache.isEmpty
        charged := s.charged.filter fun id => id ∉ dead.map CacheEntry.id }
    else none
  | .get =>
    match s.dropping, s.dead with
    | none, id :: dead =>
      match s.store id with
      | some (.live status) =>
        -- a hand-off resolves its own outcome
        if status.defersExpiry then some { s with dead }
        else some { s with dead, dropping := some (id, status) }
      | _ => some { s with dead }
    | _, _ => none
  | .drop =>
    s.dropping.map fun (id, status) =>
      if s.store id = some (.live status) then
        { s with dropping := none, store := Function.update s.store id (some .tombstone) }
      else { s with dropping := none }
  | .respawn =>
    if s.checkStore && s.dead.isEmpty && s.dropping.isNone then
      some { s with checkStore := false, refill := s.refill.or (some ⟨none, 0⟩) }
    else none
  | .row =>
    match s.refill with
    | some ⟨some ((id, status) :: rows), accepted⟩ =>
      if skipped status then some { s with refill := some ⟨some rows, accepted⟩ }
      else
        let s := s.watch cacheSize expiry destination false id
        some { s with
          refill := if cacheSize ≤ accepted + 1 then none
            else some ⟨some rows, accepted + 1⟩ }
    | _ => none
  | .finish =>
    match s.refill with
    | some ⟨some [], _⟩ => some { s with refill := none }
    | _ => none
  | .poll => none

structure PollExpiry (s : State) (rows : List (Id × BundleStatus)) : Prop where
  mem : ∀ id status, (id, status) ∈ rows ↔ s.store id = some (.live status) ∧ status ≠ .new
  nodup : rows.Nodup
  ordered : rows.Pairwise fun a b => expiry a.1 ≤ expiry b.1

inductive Step : State → Label → State → Prop where
  | next {s s' : State} {label : Label} : next cacheSize expiry destination s label = some s' →
      Step s label s'
  | poll {s : State} {accepted : Nat} {rows : List (Id × BundleStatus)} :
      s.refill = some ⟨none, accepted⟩ → PollExpiry expiry s rows →
      Step s .poll { s with refill := some ⟨some rows, accepted⟩ }

structure Start (s : State) : Prop where
  cache : s.cache = []
  charged : s.charged = []
  refill : s.refill = none

def machine : Machine State Label := ⟨Start, Step cacheSize expiry destination⟩

/-! ## The soonest expiries -/

/-- The bundles in the charge of the reaper that are live and not in the cache
expire after all that are in it. -/
def Soonest (s : State) : Prop :=
  ∀ id ∈ s.charged, ∀ status, s.store id = some (.live status) →
    entry expiry destination id ∈ s.cache ∨ ∀ e ∈ s.cache, e.expiry ≤ expiry id

/-- Nobody who has been left out of the cache expires before the bundle. -/
def Due (s : State) (id : Id) : Prop :=
  ∀ j ∈ s.charged, ∀ status, s.store j = some (.live status) →
    entry expiry destination j ∉ s.cache → expiry id ≤ expiry j

/-- A bundle is put into a cache with room, or taken from a row of the refill,
only if it is due. -/
def InOrder (s : State) : Label → Prop
  | .watch id => s.cache.length < cacheSize → Due expiry destination s id
  | .row => ∀ id status rows accepted, s.refill = some ⟨some ((id, status) :: rows), accepted⟩ →
      skipped status = false → Due expiry destination s id
  | _ => True

structure Inv (s : State) : Prop where
  ordered : Ordered s.cache
  entries : ∀ e ∈ s.cache, e = entry expiry destination e.id
  known : ∀ id ∈ s.charged, s.store id ≠ none
  rows : ∀ rows accepted, s.refill = some ⟨some rows, accepted⟩ → ∀ r ∈ rows, s.store r.1 ≠ none

variable {cacheSize expiry destination} {s s' : State} {label : Label}

theorem Start.inv (h : Start s) : Inv expiry destination s := by
  refine ⟨?_, ?_, ?_, ?_⟩
  · rw [h.cache]
    exact List.Pairwise.nil
  · rw [h.cache]
    nofun
  · rw [h.charged]
    nofun
  · rw [h.refill]
    nofun

theorem Inv.watch (h : Inv expiry destination s) {cap : Bool} {id : Id} (hid : s.store id ≠ none) :
    Inv expiry destination (s.watch cacheSize expiry destination cap id) := by
  refine ⟨h.ordered.watch, fun e he => ?_, fun j hj => ?_, h.rows⟩
  · rcases mem_watch he with rfl | he
    · rfl
    · exact h.entries e he
  · rcases List.mem_cons.mp hj with rfl | hj
    · exact hid
    · exact h.known j hj

theorem Soonest.watch (h : Inv expiry destination s) (hs : Soonest expiry destination s)
    {cap : Bool} {id : Id}
    (hdue : cap = false ∨ s.cache.length < cacheSize → Due expiry destination s id) :
    Soonest expiry destination (s.watch cacheSize expiry destination cap id) := by
  intro j hj status hstore
  change entry expiry destination j ∈ (Reaper.watch cacheSize cap _ s.cache).1 ∨
    ∀ e ∈ (Reaper.watch cacheSize cap _ s.cache).1, e.expiry ≤ expiry j
  rcases watch_cases cacheSize cap (entry expiry destination id) s.cache with
    ⟨hroom, he⟩ | ⟨last, hlast, hlt, he⟩ | ⟨hlast, he⟩ <;> rw [he]
  · rcases List.mem_cons.mp hj with rfl | hj
    · exact .inl (mem_insert.mpr (.inl rfl))
    · by_cases hcached : entry expiry destination j ∈ s.cache
      · exact .inl (mem_insert.mpr (.inr hcached))
      · refine .inr fun e hmem => ?_
        rcases mem_insert.mp hmem with rfl | hmem
        · exact hdue hroom j hj status hstore hcached
        · exact (hs j hj status hstore).resolve_left hcached e hmem
  · have hle : ∀ x ∈ (Sorted.insert (entry expiry destination id) s.cache.dropLast).2,
        x.expiry ≤ last.expiry := by
      intro x hx
      rcases mem_insert.mp hx with rfl | hx
      · exact hlt.le
      · exact h.ordered.le_last hlast (List.dropLast_subset _ hx)
    rcases List.mem_cons.mp hj with rfl | hj
    · exact .inl (mem_insert.mpr (.inl rfl))
    · rcases hs j hj status hstore with hcached | hlate
      · rcases mem_dropLast_or hlast hcached with hkept | hevicted
        · exact .inl (mem_insert.mpr (.inr hkept))
        · rw [← hevicted] at hle
          exact .inr hle
      · exact .inr fun e hmem => (hle e hmem).trans (hlate last (List.mem_of_getLast? hlast))
  · rcases List.mem_cons.mp hj with rfl | hj
    · refine .inr fun e hmem => ?_
      obtain ⟨last, hl⟩ :=
        Option.isSome_iff_exists.mp (List.getLast?_isSome.mpr (List.ne_nil_of_mem hmem))
      exact (h.ordered.le_last hl hmem).trans (hlast last hl)
    · exact hs j hj status hstore

/-- Steps that leave the cache alone. -/
structure Quiet (s s' : State) : Prop where
  cache : s'.cache = s.cache
  charged : s'.charged = s.charged
  known : ∀ id, s.store id ≠ none → s'.store id ≠ none
  live : ∀ id status, s.store id ≠ none → s'.store id = some (.live status) →
    ∃ status, s.store id = some (.live status)
  rows : ∀ rows accepted, s'.refill = some ⟨some rows, accepted⟩ →
    ∃ rows' accepted', s.refill = some ⟨some rows', accepted'⟩ ∧ rows ⊆ rows'

theorem Soonest.of_quiet (h : Inv expiry destination s) (hs : Soonest expiry destination s)
    (hq : Quiet s s') : Soonest expiry destination s' := by
  intro id hid status hstore
  rw [hq.charged] at hid
  obtain ⟨status, hstore⟩ := hq.live id status (h.known id hid) hstore
  rw [hq.cache]
  exact hs id hid status hstore

theorem Inv.of_quiet (h : Inv expiry destination s) (hq : Quiet s s') :
    Inv expiry destination s' := by
  refine ⟨?_, ?_, ?_, ?_⟩
  · rw [hq.cache]
    exact h.ordered
  · rw [hq.cache]
    exact h.entries
  · rw [hq.charged]
    exact fun id hid => hq.known id (h.known id hid)
  · intro rows accepted hrows r hr
    obtain ⟨rows', accepted', hrows', hsub⟩ := hq.rows rows accepted hrows
    exact hq.known _ (h.rows rows' accepted' hrows' r (hsub hr))

theorem Quiet.of_eq (hcache : s'.cache = s.cache) (hcharged : s'.charged = s.charged)
    (hstore : s'.store = s.store) (hrefill : s'.refill = s.refill) : Quiet s s' := by
  refine ⟨hcache, hcharged, ?_, ?_, fun rows accepted hr => ?_⟩
  · rw [hstore]
    exact fun _ => id
  · rw [hstore]
    exact fun _ status _ h => ⟨status, h⟩
  · exact ⟨rows, accepted, hrefill ▸ hr, List.Subset.refl _⟩

theorem quiet_write {id : Id} {record : Record} (h : s.store id ≠ some .tombstone)
    (hcache : s'.cache = s.cache) (hcharged : s'.charged = s.charged)
    (hrefill : s'.refill = s.refill)
    (hstore : s'.store = Function.update s.store id (some record)) : Quiet s s' := by
  refine ⟨hcache, hcharged, fun j hj => ?_, fun j status hj hlive => ?_, fun rows accepted hr => ?_⟩
  · rw [hstore]
    by_cases hji : j = id
    · rw [hji, Function.update_self]
      nofun
    · rwa [Function.update_of_ne hji]
  · rw [hstore] at hlive
    by_cases hji : j = id
    · subst hji
      cases hrecord : s.store j with
      | none => exact absurd hrecord hj
      | some record' =>
        cases record' with
        | live status => exact ⟨status, rfl⟩
        | tombstone => exact absurd hrecord h
    · rw [Function.update_of_ne hji] at hlive
      exact ⟨status, hlive⟩
  · exact ⟨rows, accepted, hrefill ▸ hr, List.Subset.refl _⟩

theorem Soonest.wake (hs : Soonest expiry destination s) (now : Int)
    (hcache : s'.cache = s.cache.dropWhile fun e => e.expiry < now)
    (hcharged : s'.charged = s.charged.filter fun id =>
      id ∉ (s.cache.takeWhile fun e => e.expiry < now).map CacheEntry.id)
    (hstore : s'.store = s.store) : Soonest expiry destination s' := by
  intro id hid status hlive
  rw [hcharged, List.mem_filter, decide_eq_true_eq] at hid
  rw [hstore] at hlive
  rw [hcache]
  rcases hs id hid.1 status hlive with hcached | hlate
  · rw [← List.takeWhile_append_dropWhile (p := fun e : CacheEntry => e.expiry < now) (l := s.cache),
      List.mem_append] at hcached
    exact .inl (hcached.resolve_left fun ht => hid.2 (List.mem_map_of_mem (f := CacheEntry.id) ht))
  · exact .inr fun e he => hlate e (List.dropWhile_subset _ he)

/-- What a step can do. -/
theorem next_cases (h : next cacheSize expiry destination s label = some s') :
    (∃ id, label = .watch id ∧ s.store id ≠ none ∧
      s' = s.watch cacheSize expiry destination true id) ∨
    (∃ now, label = .wake now ∧ s'.cache = (s.cache.dropWhile fun e => e.expiry < now) ∧
      s'.charged = (s.charged.filter fun id =>
        id ∉ (s.cache.takeWhile fun e => e.expiry < now).map CacheEntry.id) ∧
      s'.store = s.store ∧ s'.refill = s.refill) ∨
    (∃ id status rows accepted refill, label = .row ∧
      s.refill = some ⟨some ((id, status) :: rows), accepted⟩ ∧ skipped status = false ∧
      s' = { s.watch cacheSize expiry destination false id with refill } ∧
      (refill = none ∨ refill = some ⟨some rows, accepted + 1⟩)) ∨
    Quiet s s' := by
  cases label with
  | watch id =>
    obtain ⟨record, hrecord, rfl⟩ := Option.map_eq_some_iff.mp h
    refine .inl ⟨id, rfl, ?_, rfl⟩
    rw [hrecord]
    nofun
  | write id record =>
    simp only [next] at h
    split at h
    · cases h
    · next hne =>
        cases h
        exact .inr (.inr (.inr (quiet_write hne rfl rfl rfl rfl)))
  | wake now =>
    simp only [next] at h
    split at h
    · cases h
      exact .inr (.inl ⟨now, rfl, rfl, rfl, rfl, rfl⟩)
    · cases h
  | get =>
    refine .inr (.inr (.inr ?_))
    simp only [next] at h
    split at h
    · split at h
      · split at h <;> cases h <;> exact .of_eq rfl rfl rfl rfl
      · cases h
        exact .of_eq rfl rfl rfl rfl
    · cases h
  | drop =>
    obtain ⟨⟨id, status⟩, -, rfl⟩ := Option.map_eq_some_iff.mp h
    refine .inr (.inr (.inr ?_))
    dsimp only
    split
    · next hlive =>
        refine @quiet_write s _ id .tombstone ?_ rfl rfl rfl rfl
        rw [hlive]
        nofun
    · exact .of_eq rfl rfl rfl rfl
  | respawn =>
    simp only [next] at h
    split at h
    · cases h
      refine .inr (.inr (.inr ⟨rfl, rfl, fun _ h => h, fun _ status _ h => ⟨status, h⟩, ?_⟩))
      intro rows accepted hr
      cases hrefill : s.refill with
      | none =>
        rw [hrefill] at hr
        cases hr
      | some r =>
        rw [hrefill] at hr
        cases hr
        exact ⟨rows, accepted, rfl, List.Subset.refl _⟩
    · cases h
  | poll => cases h
  | row =>
    simp only [next] at h
    split at h
    · next id status rows accepted hrefill =>
        split at h
        · cases h
          refine .inr (.inr (.inr ⟨rfl, rfl, fun _ h => h, fun _ status _ h => ⟨status, h⟩, ?_⟩))
          rintro rows' accepted' ⟨⟩
          exact ⟨_, _, hrefill, List.subset_cons_self _ _⟩
        · next hskip =>
            cases h
            refine .inr (.inr (.inl ⟨id, status, rows, accepted, _, rfl, hrefill,
              Bool.eq_false_of_not_eq_true hskip, rfl, ?_⟩))
            split
            · exact .inl rfl
            · exact .inr rfl
    · cases h
  | finish =>
    simp only [next] at h
    split at h
    · cases h
      exact .inr (.inr (.inr ⟨rfl, rfl, fun _ h => h, fun _ status _ h => ⟨status, h⟩, nofun⟩))
    · cases h

theorem Inv.wake (h : Inv expiry destination s) {now : Int}
    (hcache : s'.cache = s.cache.dropWhile fun e => e.expiry < now)
    (hcharged : s'.charged ⊆ s.charged) (hstore : s'.store = s.store)
    (hrefill : s'.refill = s.refill) : Inv expiry destination s' := by
  refine ⟨?_, fun e he => ?_, fun id hid => ?_, ?_⟩
  · rw [hcache]
    exact List.Pairwise.sublist (List.dropWhile_sublist _) h.ordered
  · rw [hcache] at he
    exact h.entries e (List.dropWhile_subset _ he)
  · rw [hstore]
    exact h.known id (hcharged hid)
  · rw [hstore, hrefill]
    exact h.rows

theorem Inv.withRefill (h : Inv expiry destination s) {refill : Option Refill}
    (hr : ∀ rows accepted, refill = some ⟨some rows, accepted⟩ → ∀ r ∈ rows, s.store r.1 ≠ none) :
    Inv expiry destination { s with refill } :=
  ⟨h.ordered, h.entries, h.known, hr⟩

theorem Inv.step (h : Inv expiry destination s)
    (hstep : Step cacheSize expiry destination s label s') : Inv expiry destination s' := by
  cases hstep with
  | next hn =>
    rcases next_cases hn with ⟨id, -, hid, rfl⟩ | ⟨now, -, hcache, hcharged, hstore, hrefill⟩ |
      ⟨id, status, rows, accepted, refill, -, hrefill, -, rfl, hr⟩ | hq
    · exact h.watch hid
    · refine h.wake hcache ?_ hstore hrefill
      rw [hcharged]
      exact List.filter_subset_self _
    · have hrows := h.rows _ _ hrefill
      refine (h.watch (hrows _ List.mem_cons_self)).withRefill ?_
      intro rows' accepted' he r hmem
      rcases hr with rfl | rfl
      · cases he
      · cases he
        exact hrows r (List.mem_cons_of_mem _ hmem)
    · exact h.of_quiet hq
  | poll _ hrows =>
    refine h.withRefill ?_
    rintro rows accepted ⟨⟩ r hr
    rw [((hrows.mem r.1 r.2).mp hr).1]
    nofun

theorem Soonest.step (h : Inv expiry destination s) (hs : Soonest expiry destination s)
    (hc : InOrder cacheSize expiry destination s label)
    (hstep : Step cacheSize expiry destination s label s') : Soonest expiry destination s' := by
  cases hstep with
  | next hn =>
    rcases next_cases hn with ⟨id, rfl, -, rfl⟩ | ⟨now, -, hcache, hcharged, hstore, -⟩ |
      ⟨id, status, rows, accepted, refill, rfl, hrefill, hskip, rfl, -⟩ | hq
    · exact hs.watch h fun hroom => hc (hroom.resolve_left nofun)
    · exact hs.wake now hcache hcharged hstore
    · change Soonest expiry destination (s.watch cacheSize expiry destination false id)
      exact hs.watch h fun _ => hc id status rows accepted hrefill hskip
    · exact hs.of_quiet h hq
  | poll _ _ => exact hs

theorem not_soonest_watch {cap : Bool} {id : Id}
    (hroom : cap = false ∨ s.cache.length < cacheSize) (hdue : ¬Due expiry destination s id) :
    ¬Soonest expiry destination (s.watch cacheSize expiry destination cap id) := by
  simp only [Due, not_forall, not_le] at hdue
  obtain ⟨j, hj, status, hlive, hout, hlt⟩ := hdue
  have hwatch : (Reaper.watch cacheSize cap (entry expiry destination id) s.cache).1 =
      (Sorted.insert (entry expiry destination id) s.cache).2 := by
    rw [Reaper.watch, if_pos hroom]
  intro hs
  have hj' := hs j (List.mem_cons_of_mem _ hj) status hlive
  change entry expiry destination j ∈ (Reaper.watch cacheSize cap _ s.cache).1 ∨
    ∀ e ∈ (Reaper.watch cacheSize cap _ s.cache).1, e.expiry ≤ expiry j at hj'
  rw [hwatch] at hj'
  rcases hj' with hin | hlate
  · rcases mem_insert.mp hin with he | hin
    · exact hlt.ne (congrArg CacheEntry.expiry he)
    · exact hout hin
  · exact hlt.not_ge (hlate _ (mem_insert.mpr (.inl rfl)))

theorem not_soonest_step (hc : ¬InOrder cacheSize expiry destination s label)
    (hstep : Step cacheSize expiry destination s label s') : ¬Soonest expiry destination s' := by
  cases hstep with
  | next hn =>
    cases label with
    | watch id =>
      obtain ⟨record, -, rfl⟩ := Option.map_eq_some_iff.mp hn
      obtain ⟨hroom, hdue⟩ := Classical.not_imp.mp hc
      exact not_soonest_watch (.inr hroom) hdue
    | row =>
      simp only [InOrder, not_forall] at hc
      obtain ⟨id, status, rows, accepted, hrefill, hskip, hdue⟩ := hc
      simp only [next, hrefill, hskip] at hn
      cases hn
      have hroom : false = false ∨ s.cache.length < cacheSize := .inl rfl
      exact not_soonest_watch hroom hdue
    | _ => exact absurd trivial hc
  | poll _ _ => exact absurd trivial hc

theorem reachable_soonest
    (hs : ((machine cacheSize expiry destination).only
      (InOrder cacheSize expiry destination)).Reachable s) :
    Inv expiry destination s ∧ Soonest expiry destination s := by
  refine hs.invariant (I := fun s => Inv expiry destination s ∧ Soonest expiry destination s) ?_ ?_
  · intro s (hs : Start s)
    refine ⟨hs.inv, ?_⟩
    rw [Soonest, hs.charged]
    nofun
  · rintro s label s' ⟨h, hs⟩ ⟨hc, hstep⟩
    exact ⟨h.step hstep, hs.step h hc hstep⟩

theorem Soonest.first_le (h : Inv expiry destination s) (hs : Soonest expiry destination s)
    {id : Id} (hid : id ∈ s.charged) {status : BundleStatus}
    (hlive : s.store id = some (.live status)) {first : CacheEntry}
    (hfirst : s.cache.head? = some first) : first.expiry ≤ expiry id := by
  obtain ⟨rest, hcache⟩ := List.head?_eq_some_iff.mp hfirst
  rcases hs id hid status hlive with hin | hlate
  · have hordered := h.ordered
    rw [hcache] at hin
    rw [hcache, Ordered, List.pairwise_cons] at hordered
    rcases List.mem_cons.mp hin with he | hin
    · rw [← he]
      rfl
    · exact hordered.1 _ hin
  · rw [hcache] at hlate
    exact hlate first List.mem_cons_self

variable (cacheSize expiry destination)

/-- The cache holds the soonest expiries in every run that puts bundles into it
in order, and the reaper wakes up in time for the others; a step out of order
leaves somebody out who expires sooner. -/
theorem soonest_iff_inOrder :
    (∀ s, ((machine cacheSize expiry destination).only
        (InOrder cacheSize expiry destination)).Reachable s →
      Soonest expiry destination s ∧ ∀ id ∈ s.charged, ∀ status,
        s.store id = some (.live status) → ∀ first, s.cache.head? = some first →
          first.expiry ≤ expiry id) ∧
    ∀ s label s', (machine cacheSize expiry destination).Reachable s →
      Step cacheSize expiry destination s label s' →
      ¬InOrder cacheSize expiry destination s label → ¬Soonest expiry destination s' := by
  refine ⟨fun s hs => ?_, fun s label s' _ hstep hc => not_soonest_step hc hstep⟩
  obtain ⟨h, hs⟩ := reachable_soonest hs
  exact ⟨hs, fun id hid status hlive first hfirst => hs.first_le h hid hlive hfirst⟩

/-! ## A cache of two entries -/

def sampleId (n : Nat) : Id := ⟨.ipn ⟨0, 1⟩ n, ⟨some 1, 0⟩, none⟩

def sampleExpiry (id : Id) : Int :=
  match id.source with
  | .ipn _ n => n
  | _ => 0

def sampleNext : State → Label → Option State := next 2 sampleExpiry fun _ => .null

def sampleMachine : Machine State Label := machine 2 sampleExpiry fun _ => .null

def sampleStart : State where
  cache := []
  wakeup := false
  store _ := some (.live .waiting)
  dead := []
  dropping := none
  checkStore := false
  refill := none
  charged := []

theorem sample_reachable {labels : List Label} {s : State}
    (h : Machine.runSteps sampleNext sampleStart labels = some s) : sampleMachine.Reachable s := by
  have hstart : sampleMachine.Reachable sampleStart := .start ⟨rfl, rfl, rfl⟩
  refine hstart.runSteps ?_ h
  exact fun _ _ _ h => Step.next h

/-- The third bundle finds the cache full; once the first has expired, the
fifth finds room in it. -/
def overtaken : Option State :=
  Machine.runSteps sampleNext sampleStart [.watch (sampleId 1), .watch (sampleId 2),
    .watch (sampleId 3), .wake 2, .watch (sampleId 5)]

theorem overtaken_not_soonest :
    ¬ ∀ s, sampleMachine.Reachable s → Soonest sampleExpiry (fun _ => .null) s := by
  intro hall
  obtain ⟨s, hs⟩ : ∃ s, overtaken = some s := ⟨_, rfl⟩
  have hcache : overtaken.map State.cache = some [entry sampleExpiry (fun _ => .null) (sampleId 2),
      entry sampleExpiry (fun _ => .null) (sampleId 5)] := by decide
  have hcharged : overtaken.map State.charged =
      some [sampleId 5, sampleId 3, sampleId 2] := by decide
  have hlive : overtaken.map (fun s => s.store (sampleId 3)) = some (some (.live .waiting)) := by
    decide
  rw [hs] at hcache hcharged hlive
  have hthird := hall s (sample_reachable hs) (sampleId 3)
    (by rw [Option.some.inj hcharged]; decide) .waiting (Option.some.inj hlive)
  rw [Option.some.inj hcache] at hthird
  revert hthird
  decide

end Bpa.Reaper

end Hardy
