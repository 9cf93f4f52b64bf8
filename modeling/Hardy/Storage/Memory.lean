import Hardy.Lru
import Hardy.Machine
import Hardy.Storage.Record
import Hardy.Table

/-!
# The metadata store in memory

Model of `bpa/src/storage/metadata_mem.rs`: records and tombstones in one bounded
map, with counters kept beside it.  Every operation holds the lock of the map, so
a run of the store is a sequence of operations (`machine`).  An operation that
reads the clock has its readings as arguments.
-/

namespace Hardy.Storage.Memory

open Bpa (BundleStatus)

inductive Entry where
  | live (bundle : Bundle)
  | tombstone (expiry : Int)

def Entry.isLive : Entry → Bool
  | .live _ => true
  | .tombstone _ => false

def Entry.isTombstone (e : Entry) : Bool := !e.isLive

/-- `Entry::live` -/
def Entry.record : Entry → Option Bundle
  | .live bundle => some bundle
  | .tombstone _ => none

/-- What is logged when the store gets nearly full, and when it no longer is. -/
inductive Edge where
  | enter (live : Nat)
  | exit (live evictedLive : Nat)
deriving DecidableEq

structure Inner where
  entries : Lru Id Entry
  live : Nat
  tombstones : Nat
  nearCapacity : Bool
  evictedLive : Nat

namespace Inner

def counted (s : Inner) : Entry → Inner
  | .live _ => { s with live := s.live + 1 }
  | .tombstone _ => { s with tombstones := s.tombstones + 1 }

def corrected (s : Inner) (key : Id) (now : Int) : Option (Id × Entry) → Inner
  | some (k, prev) =>
    if k = key then
      match prev with
      | .live _ => { s with live := s.live - 1 }
      | .tombstone _ => { s with tombstones := s.tombstones - 1 }
    else
      match prev with
      | .live bundle =>
        if bundle.hasExpired now then { s with live := s.live - 1 }
        else { s with live := s.live - 1, evictedLive := s.evictedLive + 1 }
      | .tombstone _ => { s with tombstones := s.tombstones - 1 }
  | none => s

def demotes (now : Int) : Entry → Bool
  | .live _ => false
  | .tombstone expiry => expiry ≤ now

/-- `Inner::upsert`, with the clock at the demotion and at the eviction. -/
def upsert (s : Inner) (key : Id) (value : Entry) (now now' : Int) : Inner :=
  if value.isLive && (s.entries.peek key).any Entry.isTombstone then s
  else
    let displaced := s.entries.displaced key
    let pushed := s.entries.push key value
    { (s.counted value).corrected key now' displaced with
      entries := if demotes now value then pushed.demote key else pushed }

def checkWatermark (s : Inner) (high low : Nat) : Inner × Option Edge :=
  if !s.nearCapacity && high ≤ s.live then
    ({ s with nearCapacity := true }, some (.enter s.live))
  else if s.nearCapacity && s.live < low then
    ({ s with nearCapacity := false, evictedLive := 0 }, some (.exit s.live s.evictedLive))
  else (s, none)

end Inner

structure MetadataMemStorage where
  inner : Inner
  highWatermark : Nat
  lowWatermark : Nat

namespace MetadataMemStorage

def new (maxBundles : Nat) (h : 0 < maxBundles) : MetadataMemStorage where
  inner := ⟨.empty maxBundles h, 0, 0, false, 0⟩
  highWatermark := maxBundles - maxBundles / 20
  lowWatermark := maxBundles - maxBundles / 10

def maxBundles (s : MetadataMemStorage) : Nat := s.inner.entries.cap

def peek (s : MetadataMemStorage) (id : Id) : Option Entry := s.inner.entries.peek id

/-- `apply`, without the log. -/
def apply (s : MetadataMemStorage) (key : Id) (value : Entry) (now now' : Int) :
    MetadataMemStorage :=
  let inner := s.inner.upsert key value now now'
  { s with inner := (inner.checkWatermark s.highWatermark s.lowWatermark).1 }

def get (s : MetadataMemStorage) (id : Id) : Option Bundle :=
  match s.peek id with
  | some (.live bundle) => some bundle
  | _ => none

def insert (s : MetadataMemStorage) (bundle : Bundle) (now now' : Int) :
    Bool × MetadataMemStorage :=
  if s.inner.entries.contains bundle.id then (false, s)
  else (true, s.apply bundle.id (.live bundle) now now')

def replace (s : MetadataMemStorage) (bundle : Bundle) (now now' : Int) : MetadataMemStorage :=
  s.apply bundle.id (.live bundle) now now'

def current (s : MetadataMemStorage) (id : Id) (expected : BundleStatus) : Option Bundle :=
  match s.peek id with
  | some (.live bundle) => if bundle.status = expected then some bundle else none
  | _ => none

def modify (s : MetadataMemStorage) (f : Id → Bundle → Bundle) : MetadataMemStorage :=
  { s with inner.entries := s.inner.entries.mapValues fun id e =>
      match e with
      | .live bundle => .live (f id bundle)
      | .tombstone expiry => .tombstone expiry }

def swapStatus (s : MetadataMemStorage) (id : Id) (expected status : BundleStatus) :
    Bool × MetadataMemStorage :=
  match s.current id expected with
  | some _ =>
    let s := s.modify fun k b => if k = id then { b with status } else b
    (true, { s with inner.entries := s.inner.entries.promote id })
  | none => (false, s)

def tombstoneIf (s : MetadataMemStorage) (id : Id) (expected : BundleStatus) (now now' : Int) :
    Bool × MetadataMemStorage :=
  match s.current id expected with
  | some bundle => (true, s.apply id (.tombstone bundle.expiry) now now')
  | none => (false, s)

def tombstone (s : MetadataMemStorage) (id : Id) (now now' : Int) : MetadataMemStorage :=
  match s.peek id with
  | none => s
  | some (.live bundle) => s.apply id (.tombstone bundle.expiry) now now'
  | some (.tombstone expiry) => s.apply id (.tombstone expiry) now now'

/-- A sweep over the live records, which gives those that `f` names another
status.  The count of them is what the source returns. -/
def reset (s : MetadataMemStorage) (f : BundleStatus → Option BundleStatus) :
    Nat × MetadataMemStorage :=
  (s.inner.entries.count fun e => match e with
      | .live bundle => (f bundle.status).isSome
      | .tombstone _ => false,
    s.modify fun _ b => { b with status := (f b.status).getD b.status })

def resetPeerQueue (s : MetadataMemStorage) (peer : Nat) : Nat × MetadataMemStorage :=
  s.reset fun
    | .forwardPending p _ _ => if p = peer then some .waiting else none
    | _ => none

def resetPeerAckPending (s : MetadataMemStorage) (peer : Nat) : Nat × MetadataMemStorage :=
  s.reset fun
    | .forwardAckPending p => if p = peer then some .waiting else none
    | _ => none

def resetServiceQueue (s : MetadataMemStorage) (service : Eid) : Nat × MetadataMemStorage :=
  s.reset fun
    | .deliverPending e => if e = service then some (.waitingForService service) else none
    | _ => none

/-! ## Polls -/

def live (s : MetadataMemStorage) : List Bundle :=
  s.inner.entries.entries.filterMap fun e => e.2.record

def PollExpiry (s : MetadataMemStorage) (out : List Bundle) : Prop :=
  Sorts Bundle.expiry (s.live.filter fun v => v.status ≠ .new) out

def PollWaiting (s : MetadataMemStorage) (out : List Bundle) : Prop :=
  Sorts Bundle.receivedAt (s.live.filter fun b => b.status = .waiting) out

def PollServiceWaiting (s : MetadataMemStorage) (source : Eid) (out : List Bundle) : Prop :=
  Sorts Bundle.receivedAt (s.live.filter fun b => b.status = .waitingForService source) out

def PollAduFragments (s : MetadataMemStorage) (status : BundleStatus) (out : List Bundle) : Prop :=
  ∃ entries : List (Nat × Bundle),
    Sorts (fun e => e.1) ((s.live.filter fun v => v.status = status).filterMap fun v =>
        v.id.fragmentInfo.map fun fi => (fi.offset, v)) entries ∧
      out = entries.map Prod.snd

def PollPending (s : MetadataMemStorage) (state : BundleStatus) (limit : Nat)
    (out : List Bundle) : Prop :=
  ∃ entries, Sorts Bundle.receivedAt (s.live.filter fun v => v.status.sameQueue state) entries ∧
    out = entries.take limit

end MetadataMemStorage

/-! ## The counters -/

namespace Inner

variable {s : Inner} {key k : Id} {value : Entry} {now now' : Int}

/-- The counters are the numbers of live records and of tombstones. -/
structure Counted (s : Inner) : Prop where
  live : s.live = s.entries.count Entry.isLive
  tombstones : s.tombstones = s.entries.count Entry.isTombstone

theorem corrected_live (d : Option (Id × Entry)) :
    ((s.counted value).corrected key now d).live =
      s.live + value.isLive.toNat - Lru.tally Entry.isLive d := by
  cases value <;> rcases d with _ | ⟨k, _ | _⟩ <;> simp only [corrected, counted] <;>
    repeat' split
  all_goals simp [Entry.isLive, Lru.tally]

theorem corrected_tombstones (d : Option (Id × Entry)) :
    ((s.counted value).corrected key now d).tombstones =
      s.tombstones + value.isTombstone.toNat - Lru.tally Entry.isTombstone d := by
  cases value <;> rcases d with _ | ⟨k, _ | _⟩ <;> simp only [corrected, counted] <;>
    repeat' split
  all_goals simp [Entry.isTombstone, Entry.isLive, Lru.tally]

theorem Counted.upsert (h : s.Counted) : (s.upsert key value now now').Counted := by
  rw [Inner.upsert]
  split
  · exact h
  · have hlive := Lru.count_push (c := s.entries) (k := key) (v := value) (p := Entry.isLive)
    have htomb := Lru.count_push (c := s.entries) (k := key) (v := value)
      (p := Entry.isTombstone)
    constructor
    · simp only [corrected_live, h.live]
      split
      · rw [Lru.count_demote]
        omega
      · omega
    · simp only [corrected_tombstones, h.tombstones]
      split
      · rw [Lru.count_demote]
        omega
      · omega

theorem Counted.checkWatermark (h : s.Counted) (high low : Nat) :
    (s.checkWatermark high low).1.Counted := by
  rw [Inner.checkWatermark]
  split
  · exact ⟨h.live, h.tombstones⟩
  split
  · exact ⟨h.live, h.tombstones⟩
  · exact h

@[simp] theorem checkWatermark_entries (high low : Nat) :
    (s.checkWatermark high low).1.entries = s.entries := by
  rw [Inner.checkWatermark]
  split
  · rfl
  split
  · rfl
  · rfl

@[simp] theorem upsert_cap : (s.upsert key value now now').entries.cap = s.entries.cap := by
  rw [upsert]
  split
  · rfl
  · dsimp only
    split
    · exact Lru.demote_cap
    · rfl

theorem peek_upsert : (s.upsert key value now now').entries.peek k =
    if value.isLive && (s.entries.peek key).any Entry.isTombstone then s.entries.peek k
    else (s.entries.push key value).peek k := by
  rw [upsert]
  split
  · rfl
  · dsimp only
    split
    · exact Lru.peek_demote
    · rfl

end Inner

/-! ## What the operations do to an entry -/

namespace MetadataMemStorage

variable {s : MetadataMemStorage} {id k : Id} {expected status : BundleStatus} {b bundle : Bundle}
  {e : Entry} {now now' expiry : Int}

theorem peek_apply : (s.apply id e now now').peek k =
    if e.isLive && (s.peek id).any Entry.isTombstone then s.peek k
    else (s.inner.entries.push id e).peek k := by
  simp only [peek, apply, Inner.checkWatermark_entries]
  exact Inner.peek_upsert

theorem peek_apply_of_some {old : Entry} (he : e.isLive = false) (h : s.peek id = some old) :
    (s.apply id e now now').peek k = if k = id then some e else s.peek k := by
  rw [peek_apply, he, Bool.false_and, if_neg Bool.false_ne_true]
  split
  · next hk =>
      subst hk
      exact Lru.peek_push_self
  · next hk => exact Lru.peek_push_of_some h hk

theorem apply_tombstone (h : s.peek k = some (.tombstone expiry)) :
    (s.apply id e now now').peek k = none ∨
      ∃ expiry, (s.apply id e now now').peek k = some (.tombstone expiry) := by
  rw [peek_apply]
  split
  · exact .inr ⟨expiry, h⟩
  next hpush =>
    by_cases hk : k = id
    · subst hk
      rw [h] at hpush
      rw [Lru.peek_push_self]
      cases e with
      | live b => simp [Entry.isLive, Entry.isTombstone] at hpush
      | tombstone x => exact .inr ⟨x, rfl⟩
    · rcases Lru.peek_push (c := s.inner.entries) (v := e) hk with hp | hp
      · exact .inr ⟨expiry, hp.trans h⟩
      · exact .inl hp

theorem peek_modify (f : Id → Bundle → Bundle) : (s.modify f).peek k =
    (s.peek k).map fun e => match e with
      | .live bundle => .live (f k bundle)
      | .tombstone expiry => .tombstone expiry :=
  Lru.peek_mapValues _

theorem current_eq_some :
    s.current id expected = some b ↔ s.peek id = some (.live b) ∧ b.status = expected := by
  rw [current]
  split
  · next bundle hp =>
      rw [hp, Option.ite_none_right_eq_some, Option.some.injEq, Option.some.injEq,
        Entry.live.injEq]
      constructor
      · rintro ⟨h, rfl⟩
        exact ⟨rfl, h⟩
      · rintro ⟨rfl, h⟩
        exact ⟨h, rfl⟩
  · next hne =>
      refine iff_of_false nofun fun h => hne b h.1

theorem current_eq_none (h : ∀ b, s.peek id = some (.live b) → b.status ≠ expected) :
    s.current id expected = none :=
  Option.eq_none_iff_forall_ne_some.mpr fun b hb =>
    have hb := current_eq_some.mp hb
    h b hb.1 hb.2

/-- The operation turns the record into `e` iff it is live with the status. -/
structure Conditional (s : MetadataMemStorage) (id : Id) (expected : BundleStatus)
    (e : Bundle → Entry) (r : Bool × MetadataMemStorage) : Prop where
  applied : ∀ b, s.peek id = some (.live b) → b.status = expected →
    r.1 = true ∧ ∀ k, r.2.peek k = if k = id then some (e b) else s.peek k
  refused : (∀ b, s.peek id = some (.live b) → b.status ≠ expected) → r = (false, s)

theorem swapStatus_conditional (s : MetadataMemStorage) (id : Id)
    (expected status : BundleStatus) :
    s.Conditional id expected (fun b => .live { b with status }) (s.swapStatus id expected status) where
  applied b hb hstatus := by
    rw [swapStatus, current_eq_some.mpr ⟨hb, hstatus⟩]
    refine ⟨rfl, fun k => ?_⟩
    have hpromote : ∀ t : MetadataMemStorage,
        ({ t with inner.entries := t.inner.entries.promote id } : MetadataMemStorage).peek k =
          t.peek k := fun t => Lru.peek_promote
    rw [hpromote, peek_modify]
    split
    · next hk =>
        subst hk
        simp [hb]
    · next hk =>
        cases hp : s.peek k with
        | none => rfl
        | some e => cases e <;> simp
  refused h := by
    rw [swapStatus, current_eq_none h]

theorem tombstoneIf_conditional (s : MetadataMemStorage) (id : Id) (expected : BundleStatus)
    (now now' : Int) :
    s.Conditional id expected (fun b => .tombstone b.expiry)
      (s.tombstoneIf id expected now now') where
  applied b hb hstatus := by
    rw [tombstoneIf, current_eq_some.mpr ⟨hb, hstatus⟩]
    exact ⟨rfl, fun k => peek_apply_of_some rfl hb⟩
  refused h := by
    rw [tombstoneIf, current_eq_none h]

end MetadataMemStorage

/-! ## Runs -/

open MetadataMemStorage

inductive Op where
  | insert (bundle : Bundle) (now now' : Int)
  | replace (bundle : Bundle) (now now' : Int)
  | swapStatus (id : Id) (expected status : BundleStatus)
  | tombstone (id : Id) (now now' : Int)
  | tombstoneIf (id : Id) (expected : BundleStatus) (now now' : Int)
  | resetPeerQueue (peer : Nat)
  | resetPeerAckPending (peer : Nat)
  | resetServiceQueue (service : Eid)

def step (s : MetadataMemStorage) : Op → MetadataMemStorage
  | .insert bundle now now' => (s.insert bundle now now').2
  | .replace bundle now now' => s.replace bundle now now'
  | .swapStatus id expected status => (s.swapStatus id expected status).2
  | .tombstone id now now' => s.tombstone id now now'
  | .tombstoneIf id expected now now' => (s.tombstoneIf id expected now now').2
  | .resetPeerQueue peer => (s.resetPeerQueue peer).2
  | .resetPeerAckPending peer => (s.resetPeerAckPending peer).2
  | .resetServiceQueue service => (s.resetServiceQueue service).2

def machine (maxBundles : Nat) : Machine MetadataMemStorage Op where
  start s := ∃ h, s = .new maxBundles h
  step s op s' := s' = step s op

def Records (s : MetadataMemStorage) (id : Id) : Op → Prop
  | .tombstone k _ _ => k = id ∧ ∃ e, s.peek id = some e
  | .tombstoneIf k expected now now' => k = id ∧ (s.tombstoneIf k expected now now').1 = true
  | _ => False

/-- A deletion of the id was recorded at some step of the run, and no step since
evicted its entry. -/
inductive Remembered (maxBundles : Nat) (id : Id) : MetadataMemStorage → Prop where
  | recorded {s : MetadataMemStorage} {op : Op} : (machine maxBundles).Reachable s →
      Records s id op → Remembered maxBundles id (step s op)
  | kept {s : MetadataMemStorage} {op : Op} : Remembered maxBundles id s →
      (∃ e, (step s op).peek id = some e) → Remembered maxBundles id (step s op)

section

variable {s : MetadataMemStorage} {id : Id} {op : Op} {maxBundles : Nat}

theorem apply_counted {e : Entry} {now now' : Int} (h : s.inner.Counted) :
    (s.apply id e now now').inner.Counted :=
  (h.upsert).checkWatermark _ _

theorem modify_counted {f : Id → Bundle → Bundle} (h : s.inner.Counted) :
    (s.modify f).inner.Counted where
  live := by
    rw [MetadataMemStorage.modify, Lru.count_mapValues]
    · exact h.live
    · rintro k (b | x)
      · rfl
      · rfl
  tombstones := by
    rw [MetadataMemStorage.modify, Lru.count_mapValues]
    · exact h.tombstones
    · rintro k (b | x)
      · rfl
      · rfl

theorem swapStatus_counted {expected status : BundleStatus} (h : s.inner.Counted) :
    (s.swapStatus id expected status).2.inner.Counted := by
  rw [swapStatus]
  split
  · next b hb =>
      have hm := modify_counted (f := fun k b => if k = id then { b with status } else b) h
      constructor
      · rw [Lru.count_promote]
        exact hm.live
      · rw [Lru.count_promote]
        exact hm.tombstones
  · exact h

theorem step_counted (h : s.inner.Counted) : (step s op).inner.Counted := by
  cases op with
  | insert bundle now now' =>
    rw [step, MetadataMemStorage.insert]
    split
    · exact h
    · exact apply_counted h
  | replace bundle now now' => exact apply_counted h
  | swapStatus k expected status => exact swapStatus_counted h
  | tombstone k now now' =>
    rw [step, MetadataMemStorage.tombstone]
    split
    · exact h
    · exact apply_counted h
    · exact apply_counted h
  | tombstoneIf k expected now now' =>
    rw [step, tombstoneIf]
    split
    · exact apply_counted h
    · exact h
  | resetPeerQueue peer => exact modify_counted h
  | resetPeerAckPending peer => exact modify_counted h
  | resetServiceQueue service => exact modify_counted h

theorem apply_maxBundles {e : Entry} {now now' : Int} :
    (s.apply id e now now').maxBundles = s.maxBundles := by
  rw [maxBundles, MetadataMemStorage.apply, Inner.checkWatermark_entries]
  exact Inner.upsert_cap

theorem step_maxBundles : (step s op).maxBundles = s.maxBundles := by
  cases op with
  | insert bundle now now' =>
    rw [step, MetadataMemStorage.insert]
    split
    · rfl
    · exact apply_maxBundles
  | replace bundle now now' => exact apply_maxBundles
  | swapStatus k expected status =>
    rw [step, swapStatus]
    split
    · exact Lru.promote_cap
    · rfl
  | tombstone k now now' =>
    rw [step, MetadataMemStorage.tombstone]
    split
    · rfl
    · exact apply_maxBundles
    · exact apply_maxBundles
  | tombstoneIf k expected now now' =>
    rw [step, tombstoneIf]
    split
    · exact apply_maxBundles
    · rfl
  | resetPeerQueue peer => rfl
  | resetPeerAckPending peer => rfl
  | resetServiceQueue service => rfl

theorem modify_tombstone {f : Id → Bundle → Bundle} {expiry : Int}
    (h : s.peek id = some (.tombstone expiry)) :
    (s.modify f).peek id = some (.tombstone expiry) := by
  rw [peek_modify, h]
  rfl

theorem step_tombstone {expiry : Int} (h : s.peek id = some (.tombstone expiry)) :
    (step s op).peek id = none ∨ ∃ expiry, (step s op).peek id = some (.tombstone expiry) := by
  cases op with
  | insert bundle now now' =>
    rw [step, MetadataMemStorage.insert]
    split
    · exact .inr ⟨expiry, h⟩
    · exact apply_tombstone h
  | replace bundle now now' => exact apply_tombstone h
  | swapStatus k expected status =>
    right
    refine ⟨expiry, ?_⟩
    rw [step, swapStatus]
    split
    · exact Lru.peek_promote.trans (modify_tombstone h)
    · exact h
  | tombstone k now now' =>
    rw [step, MetadataMemStorage.tombstone]
    split
    · exact .inr ⟨expiry, h⟩
    · exact apply_tombstone h
    · exact apply_tombstone h
  | tombstoneIf k expected now now' =>
    rw [step, tombstoneIf]
    split
    · exact apply_tombstone h
    · exact .inr ⟨expiry, h⟩
  | resetPeerQueue peer => exact .inr ⟨expiry, modify_tombstone h⟩
  | resetPeerAckPending peer => exact .inr ⟨expiry, modify_tombstone h⟩
  | resetServiceQueue service => exact .inr ⟨expiry, modify_tombstone h⟩

theorem tombstone_of_records (h : Records s id op) :
    ∃ expiry, (step s op).peek id = some (.tombstone expiry) := by
  cases op with
  | tombstone k now now' =>
    obtain ⟨rfl, e, he⟩ := h
    rw [step, MetadataMemStorage.tombstone, he]
    cases e with
    | live b => exact ⟨b.expiry, by rw [peek_apply_of_some rfl he, if_pos rfl]⟩
    | tombstone x => exact ⟨x, by rw [peek_apply_of_some rfl he, if_pos rfl]⟩
  | tombstoneIf k expected now now' =>
    obtain ⟨rfl, hr⟩ := h
    rw [step]
    rw [tombstoneIf] at hr ⊢
    split at hr
    · next b hb =>
        refine ⟨b.expiry, ?_⟩
        rw [peek_apply_of_some rfl (current_eq_some.mp hb).1, if_pos rfl]
    · cases hr
  | _ => exact h.elim

theorem Remembered.tombstone (h : Remembered maxBundles id s) :
    ∃ expiry, s.peek id = some (.tombstone expiry) := by
  induction h with
  | recorded _ hrec => exact tombstone_of_records hrec
  | kept _ hsome ih =>
    obtain ⟨expiry, hex⟩ := ih
    obtain ⟨e, he⟩ := hsome
    rcases step_tombstone hex with hnone | htomb
    · rw [hnone] at he
      cases he
    · exact htomb

end

structure Sound (maxBundles : Nat) (s : MetadataMemStorage) : Prop where
  counted : s.inner.Counted
  bounded : s.inner.live + s.inner.tombstones ≤ maxBundles
  swapStatus : ∀ id expected status, s.Conditional id expected
    (fun b => .live { b with status }) (s.swapStatus id expected status)
  tombstoneIf : ∀ id expected now now', s.Conditional id expected
    (fun b => .tombstone b.expiry) (s.tombstoneIf id expected now now')

/-- The counters count, the bound holds, the conditional operations change what they
name, and a deletion is remembered until its entry is evicted. -/
theorem store_sound (maxBundles : Nat) :
    (∀ s, (machine maxBundles).Reachable s → Sound maxBundles s) ∧
      ∀ id s, Remembered maxBundles id s →
        (∀ b, s.peek id ≠ some (.live b)) ∧
          ∀ b now now', b.id = id → s.insert b now now' = (false, s) := by
  constructor
  · intro s hs
    have hcounted : s.inner.Counted ∧ s.maxBundles = maxBundles := by
      refine hs.invariant (I := fun s => s.inner.Counted ∧ s.maxBundles = maxBundles) ?_ ?_
      · rintro s ⟨h, rfl⟩
        exact ⟨⟨rfl, rfl⟩, rfl⟩
      · rintro s op s' ⟨hcounted, hmax⟩ rfl
        exact ⟨step_counted hcounted, step_maxBundles.trans hmax⟩
    obtain ⟨hcounted, hmax⟩ := hcounted
    refine ⟨hcounted, ?_, s.swapStatus_conditional, s.tombstoneIf_conditional⟩
    rw [hcounted.live, hcounted.tombstones, ← hmax,
      Lru.count_add_count (q := Entry.isTombstone) fun _ => rfl]
    exact s.inner.entries.length_le
  · intro id s hs
    obtain ⟨expiry, hex⟩ := hs.tombstone
    refine ⟨fun b hb => ?_, fun b now now' hb => ?_⟩
    · rw [hex] at hb
      cases hb
    · have hcontains : s.inner.entries.contains id = true := by
        rw [Lru.contains, ← peek, hex]
        rfl
      rw [MetadataMemStorage.insert, hb, if_pos hcontains]

end Hardy.Storage.Memory
