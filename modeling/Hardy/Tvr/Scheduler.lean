import Mathlib.Logic.Function.Basic
import Hardy.Loop
import Hardy.Machine
import Hardy.Sorted
import Hardy.Types
import Hardy.Tvr.Cron

/-!
# The contact scheduler

Model of `tvr/src/scheduler.rs`: the contacts of each source, the timeline of their
events, and the commands and the loop over due events.  Patterns and actions of routes
are values of any two types.  Times have no bounds, and ids and counts do not run out.
-/

namespace Hardy.Tvr

inductive Schedule where
  | permanent
  | oneShot (start finish : Option Int)
  | recurring (cron : CronExpr) (duration : Nat) (untilTime : Option Int)
deriving DecidableEq

structure Contact (π α : Type) where
  pattern : π
  action : α
  priority : Option Nat
  schedule : Schedule
  bandwidthBps : Option Nat
  delayUs : Option Nat
deriving DecidableEq

structure RouteKey (π α : Type) where
  pattern : π
  action : α
  priority : Nat
deriving DecidableEq

structure ManagedContact (π α : Type) where
  contact : Contact π α
  priority : Nat
  active : Bool

def ManagedContact.routeKey {π α : Type} (mc : ManagedContact π α) : RouteKey π α :=
  ⟨mc.contact.pattern, mc.contact.action, mc.priority⟩

inductive PendingRouteOp (π α : Type) where
  | add (key : RouteKey π α)
  | remove (key : RouteKey π α)

/-! ## The timeline -/

inductive EventKind where
  | deactivate
  | activate
deriving DecidableEq

def EventKind.rank : EventKind → Nat
  | .deactivate => 0
  | .activate => 1

theorem EventKind.rank_inj {k k' : EventKind} (h : k.rank = k'.rank) : k = k' := by
  cases k <;> cases k' <;> first | rfl | cases h

structure Event where
  time : Int
  kind : EventKind
  contactId : Nat
deriving DecidableEq

namespace Event

def cmp (a b : Event) : Ordering :=
  (compare a.time b.time).then
    ((compare a.kind.rank b.kind.rank).then (compare a.contactId b.contactId))

instance : Ord Event := ⟨cmp⟩

def Before (a b : Event) : Prop :=
  a.time < b.time ∨ a.time = b.time ∧
    (a.kind.rank < b.kind.rank ∨ a.kind.rank = b.kind.rank ∧ a.contactId < b.contactId)

theorem before_of_lt {a b : Event} (h : compare a b = .lt) : a.Before b := by
  change (compare a.time b.time).then _ = .lt at h
  rcases Ordering.then_eq_lt.mp h with h | ⟨heq, h⟩
  · exact .inl (Int.compare_eq_lt.mp h)
  · refine .inr ⟨Std.compare_eq_iff_eq.mp heq, ?_⟩
    rcases Ordering.then_eq_lt.mp h with h | ⟨heq, h⟩
    · exact .inl (Nat.compare_eq_lt.mp h)
    · exact .inr ⟨Std.compare_eq_iff_eq.mp heq, Nat.compare_eq_lt.mp h⟩

theorem before_of_gt {a b : Event} (h : compare a b = .gt) : b.Before a := by
  change (compare a.time b.time).then _ = .gt at h
  rcases Ordering.then_eq_gt.mp h with h | ⟨heq, h⟩
  · exact .inl (Int.compare_eq_gt.mp h)
  · refine .inr ⟨(Std.compare_eq_iff_eq.mp heq).symm, ?_⟩
    rcases Ordering.then_eq_gt.mp h with h | ⟨heq, h⟩
    · exact .inl (Nat.compare_eq_gt.mp h)
    · exact .inr ⟨(Std.compare_eq_iff_eq.mp heq).symm, Nat.compare_eq_gt.mp h⟩

theorem eq_of_compare {a b : Event} (h : compare a b = .eq) : a = b := by
  obtain ⟨t, k, i⟩ := a
  obtain ⟨t', k', i'⟩ := b
  change (compare t t').then ((compare k.rank k'.rank).then (compare i i')) = .eq at h
  rw [Ordering.then_eq_eq, Ordering.then_eq_eq, Std.compare_eq_iff_eq, Std.compare_eq_iff_eq,
    Std.compare_eq_iff_eq] at h
  obtain ⟨rfl, hk, rfl⟩ := h
  rw [EventKind.rank_inj hk]

theorem Before.trans {a b c : Event} (h : a.Before b) (h' : b.Before c) : a.Before c := by
  unfold Before at h h' ⊢
  omega

theorem Before.time_le {a b : Event} (h : a.Before b) : a.time ≤ b.time := by
  unfold Before at h
  omega

end Event

/-- `BTreeSet<Event>` -/
structure Timeline where
  events : List Event
  sorted : events.Pairwise Event.Before

namespace Timeline

def empty : Timeline := ⟨[], .nil⟩

def insert (t : Timeline) (e : Event) : Timeline where
  events := (Sorted.insert e t.events).2
  sorted := Sorted.insert_pairwise t.sorted (fun _ => Event.before_of_lt)
    (fun _ => Event.before_of_gt) fun _ _ => Event.Before.trans

def first (t : Timeline) : Option Event := t.events.head?

def popFirst (t : Timeline) : Timeline := ⟨t.events.tail, t.sorted.tail⟩

def retain (t : Timeline) (p : Event → Bool) : Timeline := ⟨t.events.filter p, t.sorted.filter p⟩

theorem mem_insert {t : Timeline} {e e' : Event} :
    e' ∈ (t.insert e).events ↔ e' = e ∨ e' ∈ t.events := by
  constructor
  · exact Sorted.mem_insert
  · rintro (rfl | h)
    · exact Sorted.mem_insert_self fun _ => Event.eq_of_compare
    · exact Sorted.mem_insert_of_mem h

theorem time_le_of_first {t : Timeline} {e e' : Event} (h : t.first = some e)
    (h' : e' ∈ t.events) : e.time ≤ e'.time := by
  obtain ⟨events, hsorted⟩ := t
  cases events with
  | nil => cases h
  | cons e₀ events =>
    cases h
    rcases List.mem_cons.mp h' with rfl | h'
    · exact Int.le_refl _
    · exact ((List.pairwise_cons.mp hsorted).1 e' h').time_le

end Timeline

/-! ## The scheduler -/

structure Scheduler (π α : Type) where
  sources : String → Option (HashMap Unit)
  contacts : HashMap (ManagedContact π α)
  timeline : Timeline
  routeRefs : RouteKey π α → Option Nat
  nextId : Nat

namespace Scheduler

variable {π α : Type}

def new : Scheduler π α := ⟨fun _ => none, ∅, .empty, fun _ => none, 0⟩

def resolvePriority (contact : Contact π α) (default : Nat) : Nat := contact.priority.getD default

def insertEvent (s : Scheduler π α) (time : Int) (kind : EventKind) (contactId : Nat) :
    Scheduler π α :=
  { s with timeline := s.timeline.insert ⟨time, kind, contactId⟩ }

def insertEvent? (s : Scheduler π α) (time : Option Int) (kind : EventKind) (contactId : Nat) :
    Scheduler π α :=
  match time with
  | some time => s.insertEvent time kind contactId
  | none => s

def cancelEvents (s : Scheduler π α) (contactId : Nat) : Scheduler π α :=
  { s with timeline := s.timeline.retain fun e => e.contactId ≠ contactId }

def keep (s : Scheduler π α) (source : String) (id : Nat) (mc : ManagedContact π α) :
    Scheduler π α :=
  { s with
    contacts := s.contacts.insert id mc
    sources := Function.update s.sources source
      (some (((s.sources source).getD ∅).insert id ())) }

def scheduleNextOccurrence (s : Scheduler π α) (id : Nat) (after : Int) : Scheduler π α :=
  match s.contacts[id]? with
  | none => s
  | some mc =>
    match mc.contact.schedule with
    | .recurring cron duration untilTime =>
      match cron.nextAfter after with
      | none => s
      | some nextStart =>
        if untilTime.any (· ≤ nextStart) then s
        else
          (s.insertEvent nextStart .activate id).insertEvent (nextStart + duration)
            .deactivate id
    | _ => s

def activeNow (cron : CronExpr) (duration : Nat) (untilTime : Option Int) (now : Int) :
    Option Int :=
  match cron.prevBefore now with
  | none => none
  | some prevStart =>
    if now < prevStart + duration && untilTime.all (prevStart < ·) then
      some (prevStart + duration)
    else none

variable [DecidableEq π] [DecidableEq α]

def activateContact (s : Scheduler π α) (id : Nat) :
    Scheduler π α × Option (PendingRouteOp π α) :=
  match s.contacts[id]? with
  | none => (s, none)
  | some mc =>
    if mc.active then (s, none)
    else
      let count := (s.routeRefs mc.routeKey).getD 0 + 1
      ({ s with
          contacts := s.contacts.insert id { mc with active := true }
          routeRefs := Function.update s.routeRefs mc.routeKey (some count) },
        if count = 1 then some (.add mc.routeKey) else none)

def deactivateContact (s : Scheduler π α) (id : Nat) :
    Scheduler π α × Option (PendingRouteOp π α) :=
  match s.contacts[id]? with
  | none => (s, none)
  | some mc =>
    if !mc.active then (s, none)
    else
      let s := { s with contacts := s.contacts.insert id { mc with active := false } }
      match s.routeRefs mc.routeKey with
      | none => (s, none)
      | some count =>
        if count - 1 = 0 then
          ({ s with routeRefs := Function.update s.routeRefs mc.routeKey none },
            some (.remove mc.routeKey))
        else
          ({ s with routeRefs := Function.update s.routeRefs mc.routeKey (some (count - 1)) },
            none)

/-- Whether a contact was added, whether it is active, and what is to be done for it. -/
structure Ingested (π α : Type) where
  added : Bool
  active : Bool
  op : Option (PendingRouteOp π α)

def ingest (s : Scheduler π α) (source : String) (contact : Contact π α) (defaultPriority : Nat)
    (now : Int) : Scheduler π α × Ingested π α :=
  let mc := ⟨contact, resolvePriority contact defaultPriority, false⟩
  let id := s.nextId
  let s := { s with nextId := s.nextId + 1 }
  match contact.schedule with
  | .permanent =>
    let (s, op) := (s.keep source id mc).activateContact id
    (s, ⟨true, true, op⟩)
  | .oneShot start finish =>
    let start := start.getD now
    if finish.any (· ≤ now) then (s, ⟨false, false, none⟩)
    else
      let s := s.keep source id mc
      if start ≤ now then
        let (s, op) := (s.insertEvent? finish .deactivate id).activateContact id
        (s, ⟨true, true, op⟩)
      else
        let s := (s.insertEvent start .activate id).insertEvent? finish .deactivate id
        (s, ⟨true, false, none⟩)
  | .recurring cron duration untilTime =>
    let s := s.keep source id mc
    match activeNow cron duration untilTime now with
    | some finish =>
      let (s, op) := (s.insertEvent finish .deactivate id).activateContact id
      (s, ⟨true, true, op⟩)
    | none => (s.scheduleNextOccurrence id now, ⟨true, false, none⟩)

def removeContact (s : Scheduler π α) (id : Nat) : Scheduler π α × Option (PendingRouteOp π α) :=
  let (s, op) := (s.cancelEvents id).deactivateContact id
  ({ s with contacts := s.contacts.erase id }, op)

/-! ## Commands -/

def ingestAll (source : String) (defaultPriority : Nat) (now : Int) :
    Scheduler π α → List (Contact π α) → Scheduler π α × List (Ingested π α)
  | s, [] => (s, [])
  | s, c :: cs =>
    let (s, r) := s.ingest source c defaultPriority now
    let (s, rs) := ingestAll source defaultPriority now s cs
    (s, r :: rs)

def removeAll : Scheduler π α → List Nat → Scheduler π α × List (PendingRouteOp π α)
  | s, [] => (s, [])
  | s, id :: ids =>
    let (s, op) := s.removeContact id
    let (s, ops) := removeAll s ids
    (s, op.toList ++ ops)

def dropIds (s : Scheduler π α) (source : String) (ids : List Nat) : Scheduler π α :=
  { s with
    sources := Function.update s.sources source
      ((s.sources source).map fun own => ids.foldl (fun own id => own.erase id) own) }

structure AddResult where
  added : Nat
  active : Nat
  skipped : Nat

/-- The core loop's `Command::Add`. -/
def handleAdd (s : Scheduler π α) (source : String) (contacts : List (Contact π α))
    (defaultPriority : Nat) (now : Int) :
    Scheduler π α × AddResult × List (PendingRouteOp π α) :=
  let (s, rs) := ingestAll source defaultPriority now s contacts
  (s, ⟨rs.countP (·.added), rs.countP fun r => r.added && r.active, rs.countP (!·.added)⟩,
    rs.filterMap (·.op))

def withdrawSource [HashOrder] (s : Scheduler π α) (source : String) :
    Scheduler π α × List (PendingRouteOp π α) :=
  match s.sources source with
  | none => (s, [])
  | some ids =>
    { s with sources := Function.update s.sources source none }.removeAll
      ((HashOrder.iter ids).map Prod.fst)

def contactsMatch (a b : Contact π α) : Bool :=
  a.pattern = b.pattern && a.action = b.action && a.schedule = b.schedule &&
    a.priority = b.priority && a.bandwidthBps = b.bandwidthBps && a.delayUs = b.delayUs

def oldContacts [HashOrder] (s : Scheduler π α) (source : String) : List (Nat × Contact π α) :=
  ((HashOrder.iter ((s.sources source).getD ∅)).map Prod.fst).filterMap fun id =>
    (s.contacts[id]?).map fun mc => (id, mc.contact)

def handleRemove [HashOrder] (s : Scheduler π α) (source : String) (contacts : List (Contact π α)) :
    Scheduler π α × Nat × List (PendingRouteOp π α) :=
  let ids := ((s.oldContacts source).filter fun p => contacts.any (contactsMatch · p.2)).map Prod.fst
  let (s, ops) := s.removeAll ids
  (s.dropIds source ids, ids.length, ops)

structure ReplaceResult where
  added : Nat
  removed : Nat
  unchanged : Nat

def handleReplace [HashOrder] (s : Scheduler π α) (source : String) (contacts : List (Contact π α))
    (defaultPriority : Nat) (now : Int) :
    Scheduler π α × ReplaceResult × List (PendingRouteOp π α) :=
  let old := s.oldContacts source
  let kept := fun p : Nat × Contact π α => contacts.any (contactsMatch · p.2)
  let toRemove := (old.filter fun p => !kept p).map Prod.fst
  let toAdd := contacts.filter fun c => !old.any fun p => contactsMatch c p.2
  let (s, ops) := s.removeAll toRemove
  let (s, rs) := ingestAll source defaultPriority now (s.dropIds source toRemove) toAdd
  (s, ⟨rs.countP (·.added), toRemove.length, old.countP kept⟩, ops ++ rs.filterMap (·.op))

/-! ## Due events -/

def handleEvent (s : Scheduler π α) (e : Event) : Scheduler π α × List (PendingRouteOp π α) :=
  match e.kind with
  | .activate =>
    let (s, op) := s.activateContact e.contactId
    (s, op.toList)
  | .deactivate =>
    let (s, op) := s.deactivateContact e.contactId
    (s.scheduleNextOccurrence e.contactId e.time, op.toList)

def dueStep (now : Int) (s : Scheduler π α) : Option (Scheduler π α × List (PendingRouteOp π α)) :=
  match s.timeline.first with
  | none => none
  | some e =>
    if now < e.time then none
    else some ({ s with timeline := s.timeline.popFirst }.handleEvent e)

/-- `process_due_events`, as far as some fuel goes. -/
def processDueEvents (fuel : Nat) (now : Int) (s : Scheduler π α) :
    Option (Scheduler π α × List (PendingRouteOp π α)) :=
  Loop.run (dueStep now) fuel s

/-- The processing of due events ends, and leaves none. -/
def Finishes (s : Scheduler π α) (now : Int) : Prop :=
  ∃ fuel t ops, s.processDueEvents fuel now = some (t, ops) ∧
    ∀ e ∈ t.timeline.events, now < e.time

/-! ## Runs -/

inductive Command (π α : Type) where
  | add (source : String) (contacts : List (Contact π α)) (defaultPriority : Nat)
  | remove (source : String) (contacts : List (Contact π α))
  | replace (source : String) (contacts : List (Contact π α)) (defaultPriority : Nat)
  | withdrawAll (source : String)
  | due

/-- What the core loop does at a time, for a command or when it wakes up. -/
inductive Step [HashOrder] : Scheduler π α → Command π α × Int → Scheduler π α → Prop where
  | add {s : Scheduler π α} (source : String) (contacts : List (Contact π α))
      (defaultPriority : Nat) (now : Int) :
      Step s (.add source contacts defaultPriority, now)
        (s.handleAdd source contacts defaultPriority now).1
  | remove {s : Scheduler π α} (source : String) (contacts : List (Contact π α)) (now : Int) :
      Step s (.remove source contacts, now) (s.handleRemove source contacts).1
  | replace {s : Scheduler π α} (source : String) (contacts : List (Contact π α))
      (defaultPriority : Nat) (now : Int) :
      Step s (.replace source contacts defaultPriority, now)
        (s.handleReplace source contacts defaultPriority now).1
  | withdrawAll {s : Scheduler π α} (source : String) (now : Int) :
      Step s (.withdrawAll source, now) (s.withdrawSource source).1
  | due {s t : Scheduler π α} {fuel : Nat} {ops : List (PendingRouteOp π α)} (now : Int) :
      s.processDueEvents fuel now = some (t, ops) → Step s (.due, now) t

def machine [HashOrder] : Machine (Scheduler π α) (Command π α × Int) where
  start s := s = new
  step := Step

end Scheduler

end Hardy.Tvr
