import Hardy.Tvr.Book

/-!
# Replacing the contacts of a source

What a command makes of each contact: a contact that is removed is gone with its events, one
that is ingested is as its plan says, and the others stay (`Shows`).  Replacing keeps the
contacts that are in the list, and so differs from withdrawing the source and adding the list
by what has become of these since they were ingested: the priority they were given, and how
far their events have come.  Where each of them is as it would be if it were ingested now, the
two lead to the same routes and the same events.
-/

namespace Hardy.Tvr

variable {π α : Type}

/-! ## Plans -/

/-- What an ingested contact is like: whether it is active, and its events. -/
structure Plan where
  active : Bool
  events : List (Int × EventKind)

def occurrenceEvents (duration : Nat) (untilTime : Option Int) : Option Int → List (Int × EventKind)
  | none => []
  | some start =>
    if untilTime.any (· ≤ start) then []
    else [(start, .activate), (start + duration, .deactivate)]

def Schedule.plan (now : Int) : Schedule → Option Plan
  | .permanent => some ⟨true, []⟩
  | .oneShot start finish =>
    if finish.any (· ≤ now) then none
    else if start.getD now ≤ now then some ⟨true, finish.toList.map (·, .deactivate)⟩
    else some ⟨false, (start.getD now, .activate) :: finish.toList.map (·, .deactivate)⟩
  | .recurring cron duration untilTime =>
    match Scheduler.activeNow cron duration untilTime now with
    | some finish => some ⟨true, [(finish, .deactivate)]⟩
    | none => some ⟨false, occurrenceEvents duration untilTime (cron.nextAfter now)⟩

/-- What there is to know of a contact: that it is active, or an event that it has. -/
inductive Mark where
  | active
  | event (time : Int) (kind : EventKind)

def Plan.Marked (p : Plan) : Mark → Prop
  | .active => p.active = true
  | .event time kind => (time, kind) ∈ p.events

namespace Scheduler

/-! ## Single contacts -/

def Marked (s : Scheduler π α) (id : Nat) (mc : ManagedContact π α) : Mark → Prop
  | .active => mc.active = true
  | .event time kind => ⟨time, kind, id⟩ ∈ s.timeline.events

/-- A contact with a priority, under an id of the kind, is marked so. -/
def Shows (s : Scheduler π α) (P : Nat → Prop) (contact : Contact π α) (priority : Nat) (m : Mark) :
    Prop :=
  ∃ id mc, P id ∧ s.contacts[id]? = some mc ∧ mc.contact = contact ∧ mc.priority = priority ∧
    s.Marked id mc m

/-- The contacts whose ids are of the kind are the same, with their events, and there are no
others. -/
structure Restricts (P : Nat → Prop) (s t : Scheduler π α) : Prop where
  contacts : ∀ id, P id → t.contacts[id]? = s.contacts[id]?
  gone : ∀ id, ¬ P id → t.contacts[id]? = none
  events : ∀ e, e ∈ t.timeline.events ↔ e ∈ s.timeline.events ∧ P e.contactId

section

variable {s t : Scheduler π α} {id : Nat} {contact : Contact π α} {priority : Nat} {m : Mark}
  {P : Nat → Prop} {p : Plan}

theorem Restricts.shows (h : Restricts P s t) :
    t.Shows (fun _ => True) contact priority m ↔ s.Shows P contact priority m := by
  have hmarked : ∀ id mc, P id → (t.Marked id mc m ↔ s.Marked id mc m) := by
    intro id mc hid
    cases m with
    | active => exact Iff.rfl
    | event time kind => exact (h.events _).trans (and_iff_left hid)
  constructor
  · rintro ⟨id, mc, -, hmc, hc, hp, hm⟩
    by_cases hid : P id
    · exact ⟨id, mc, hid, (h.contacts id hid).symm.trans hmc, hc, hp, (hmarked id mc hid).mp hm⟩
    · cases (h.gone id hid).symm.trans hmc
  · rintro ⟨id, mc, hid, hmc, hc, hp, hm⟩
    exact ⟨id, mc, trivial, (h.contacts id hid).trans hmc, hc, hp, (hmarked id mc hid).mpr hm⟩

theorem Restricts.trans {u : Scheduler π α} {Q : Nat → Prop} (h : Restricts P s t)
    (h' : Restricts Q t u) : Restricts (fun id => P id ∧ Q id) s u where
  contacts id hid := (h'.contacts id hid.2).trans (h.contacts id hid.1)
  gone id hid := by
    by_cases hq : Q id
    · exact (h'.contacts id hq).trans (h.gone id fun hp => hid ⟨hp, hq⟩)
    · exact h'.gone id hq
  events e := (h'.events e).trans (by rw [h.events, and_assoc])

/-- The contact is new, with what its plan says, and the others are the same. -/
structure Gains (s t : Scheduler π α) (contact : Contact π α) (priority : Nat) (p : Plan) : Prop where
  contacts : ∀ id, t.contacts[id]? =
    if id = s.nextId then some ⟨contact, priority, p.active⟩ else s.contacts[id]?
  events : ∀ e, e ∈ t.timeline.events ↔
    e ∈ s.timeline.events ∨ e.contactId = s.nextId ∧ (e.time, e.kind) ∈ p.events

theorem Gains.shows (h : Gains s t contact priority p) (hs : Kept s) {c : Contact π α} {q : Nat} :
    t.Shows (fun _ => True) c q m ↔
      s.Shows (fun _ => True) c q m ∨ contact = c ∧ priority = q ∧ p.Marked m := by
  have hnew : ∀ {id : Nat} {mc : ManagedContact π α}, s.contacts[id]? = some mc → id ≠ s.nextId :=
    fun hmc heq => Nat.lt_irrefl _ (heq ▸ hs.fresh _ (HashMap.mem_iff.mpr ⟨_, hmc⟩))
  have hold : ∀ {id : Nat} {mc : ManagedContact π α}, id ≠ s.nextId →
      (t.Marked id mc m ↔ s.Marked id mc m) := by
    intro id mc hne
    cases m with
    | active => exact Iff.rfl
    | event time kind => exact (h.events _).trans (or_iff_left fun hid => hne hid.1)
  have hself : t.Marked s.nextId ⟨contact, priority, p.active⟩ m ↔ p.Marked m := by
    cases m with
    | active => exact Iff.rfl
    | event time kind =>
      refine (h.events _).trans ((or_iff_right fun he => ?_).trans (and_iff_right rfl))
      exact Nat.lt_irrefl _ (hs.fresh _ (hs.events _ he))
  constructor
  · rintro ⟨id, mc, -, hmc, hc, hq, hm⟩
    rw [h.contacts] at hmc
    split at hmc
    · next heq =>
        cases hmc
        subst heq
        exact .inr ⟨hc, hq, hself.mp hm⟩
    · next hne => exact .inl ⟨id, mc, trivial, hmc, hc, hq, (hold hne).mp hm⟩
  · rintro (⟨id, mc, -, hmc, hc, hq, hm⟩ | ⟨hc, hq, hm⟩)
    · have hne := hnew hmc
      exact ⟨id, mc, trivial, (h.contacts id).trans ((if_neg hne).trans hmc), hc, hq,
        (hold hne).mpr hm⟩
    · exact ⟨s.nextId, _, trivial, (h.contacts _).trans (if_pos rfl), hc, hq, hself.mpr hm⟩

theorem Gains.inactive {u : Scheduler π α} {events : List (Int × EventKind)}
    (hcontacts : u.contacts = s.contacts.insert s.nextId ⟨contact, priority, false⟩)
    (hevents : ∀ e, e ∈ u.timeline.events ↔
      e ∈ s.timeline.events ∨ e.contactId = s.nextId ∧ (e.time, e.kind) ∈ events) :
    Gains s u contact priority ⟨false, events⟩ where
  contacts id := by
    rw [hcontacts]
    exact HashMap.getElem?_insert
  events := hevents

theorem mem_insertEvent {time : Int} {kind : EventKind} {e : Event} :
    e ∈ (s.insertEvent time kind id).timeline.events ↔
      e ∈ s.timeline.events ∨ e.contactId = id ∧ (e.time, e.kind) = (time, kind) := by
  refine Timeline.mem_insert.trans (or_comm.trans (or_congr_right ?_))
  obtain ⟨time', kind', id'⟩ := e
  simp only [Event.mk.injEq, Prod.mk.injEq]
  tauto

theorem mem_insertEvent? {time : Option Int} {kind : EventKind} {e : Event} :
    e ∈ (s.insertEvent? time kind id).timeline.events ↔
      e ∈ s.timeline.events ∨ e.contactId = id ∧ (e.time, e.kind) ∈ time.toList.map (·, kind) := by
  cases time with
  | none => exact (or_iff_left fun h => by cases h.2).symm
  | some time =>
    refine mem_insertEvent.trans ?_
    rw [Option.toList_some, List.map_singleton, List.mem_singleton]

theorem insertEvent?_contacts (time : Option Int) (kind : EventKind) (id : Nat) :
    (s.insertEvent? time kind id).contacts = s.contacts := by
  cases time with
  | none => rfl
  | some time => rfl

theorem scheduleNextOccurrence_contacts (s : Scheduler π α) (id : Nat) (after : Int) :
    (s.scheduleNextOccurrence id after).contacts = s.contacts := by
  rcases scheduleNextOccurrence_cases s id after with heq | ⟨_, _, _, _, -, -, -, heq⟩
  · rw [heq]
  · rw [heq]
    rfl

theorem mem_events_scheduleNextOccurrence {mc : ManagedContact π α} {cron : CronExpr} {duration : Nat}
    {untilTime : Option Int} {after : Int} (hmc : s.contacts[id]? = some mc)
    (hsched : mc.contact.schedule = .recurring cron duration untilTime) {e : Event} :
    e ∈ (s.scheduleNextOccurrence id after).timeline.events ↔
      e ∈ s.timeline.events ∨ e.contactId = id ∧
        (e.time, e.kind) ∈ occurrenceEvents duration untilTime (cron.nextAfter after) := by
  have hnone : e ∈ s.timeline.events ↔
      e ∈ s.timeline.events ∨ e.contactId = id ∧ (e.time, e.kind) ∈ [] :=
    (or_iff_left fun h => List.not_mem_nil h.2).symm
  unfold scheduleNextOccurrence
  rw [hmc]
  dsimp only
  rw [hsched]
  dsimp only
  rcases cron.nextAfter after with _ | nextStart
  · exact hnone
  · dsimp only [occurrenceEvents]
    by_cases hover : untilTime.any (· ≤ nextStart)
    · rw [if_pos hover, if_pos hover]
      exact hnone
    · rw [if_neg hover, if_neg hover, mem_insertEvent, mem_insertEvent, List.mem_cons,
        List.mem_singleton, or_assoc, ← and_or_left]

variable [DecidableEq π] [DecidableEq α]

theorem activateContact_get (id' : Nat) : (s.activateContact id).1.contacts[id']? =
    if id' = id then (s.contacts[id]?).map fun mc => { mc with active := true }
    else s.contacts[id']? := by
  unfold activateContact
  split
  · next hnone =>
      split
      · next heq => rw [heq, hnone, Option.map_none]
      · rfl
  · next mc hmc =>
      split
      · next hactive =>
          split
          · next heq =>
              rw [heq, hmc, Option.map_some, ← hactive]
          · rfl
      · rw [HashMap.getElem?_insert, hmc]
        rfl

theorem deactivateContact_get {id' : Nat} (h : id' ≠ id) :
    (s.deactivateContact id).1.contacts[id']? = s.contacts[id']? := by
  have hinsert : ∀ mc : ManagedContact π α, (s.contacts.insert id mc)[id']? = s.contacts[id']? :=
    fun mc => by rw [HashMap.getElem?_insert, if_neg h]
  unfold deactivateContact
  split
  · rfl
  · split
    · rfl
    · dsimp only
      split
      · exact hinsert _
      · split
        · exact hinsert _
        · exact hinsert _

theorem removeContact_restricts : Restricts (· ≠ id) s (s.removeContact id).1 where
  contacts id' hid :=
    HashMap.getElem?_erase.trans ((if_neg hid).trans (deactivateContact_get hid))
  gone id' hid := HashMap.getElem?_erase.trans (if_pos (Decidable.not_not.mp hid))
  events e := by
    rw [removeContact_gone.events, List.mem_singleton]

theorem removeAll_restricts (ids : List Nat) : Restricts (· ∉ ids) s (s.removeAll ids).1 := by
  induction ids generalizing s with
  | nil =>
    exact ⟨fun _ _ => rfl, fun _ hid => absurd List.not_mem_nil hid,
      fun e => (and_iff_left List.not_mem_nil).symm⟩
  | cons id ids ih =>
    have h := removeContact_restricts.trans (ih (s := (s.removeContact id).1))
    simp only [List.mem_cons, not_or]
    exact h

theorem Gains.activated {u : Scheduler π α} {events : List (Int × EventKind)}
    (h : Gains s u contact priority ⟨false, events⟩) :
    Gains s (u.activateContact s.nextId).1 contact priority ⟨true, events⟩ where
  contacts id := by
    rw [activateContact_get, h.contacts, h.contacts, if_pos rfl, Option.map_some]
    split
    · rfl
    · rfl
  events e := by
    rw [activateContact_frame.timeline]
    exact h.events e

theorem ingest_gains (source : String) (contact : Contact π α) (defaultPriority : Nat)
    (now : Int) :
    match contact.schedule.plan now with
    | none => (s.ingest source contact defaultPriority now).1.contacts = s.contacts ∧
        (s.ingest source contact defaultPriority now).1.timeline = s.timeline
    | some p => Gains s (s.ingest source contact defaultPriority now).1 contact
        (resolvePriority contact defaultPriority) p := by
  unfold Scheduler.ingest
  dsimp only
  rcases hsched : contact.schedule with _ | ⟨start, finish⟩ | ⟨cron, duration, untilTime⟩
  · refine Gains.activated (Gains.inactive rfl fun e => ?_)
    exact (or_iff_left fun h => List.not_mem_nil h.2).symm
  · unfold Schedule.plan
    dsimp only
    by_cases hover : finish.any (· ≤ now)
    · rw [if_pos hover, if_pos hover]
      exact ⟨rfl, rfl⟩
    · rw [if_neg hover, if_neg hover]
      by_cases hnow : start.getD now ≤ now
      · rw [if_pos hnow, if_pos hnow]
        exact Gains.activated (Gains.inactive (insertEvent?_contacts ..) fun e => mem_insertEvent?)
      · rw [if_neg hnow, if_neg hnow]
        refine Gains.inactive (insertEvent?_contacts ..) fun e => ?_
        rw [mem_insertEvent?, mem_insertEvent, List.mem_cons, or_assoc, ← and_or_left]
        exact Iff.rfl
  · unfold Schedule.plan
    dsimp only
    rcases hnow : activeNow cron duration untilTime now with _ | finish
    · dsimp only
      refine Gains.inactive (scheduleNextOccurrence_contacts ..) fun e => ?_
      exact mem_events_scheduleNextOccurrence (HashMap.getElem?_insert.trans (if_pos rfl)) hsched
    · dsimp only
      refine Gains.activated (Gains.inactive rfl fun e => ?_)
      rw [mem_insertEvent, List.mem_singleton]
      exact Iff.rfl

/-! ## Lists of contacts -/

def Planned (contacts : List (Contact π α)) (defaultPriority : Nat) (now : Int)
    (contact : Contact π α) (priority : Nat) (m : Mark) : Prop :=
  contact ∈ contacts ∧ ∃ p, contact.schedule.plan now = some p ∧
    resolvePriority contact defaultPriority = priority ∧ p.Marked m

variable {defaultPriority : Nat} {source : String}

theorem ingest_shows (hs : Kept s) {c : Contact π α} {now : Int} :
    (s.ingest source c defaultPriority now).1.Shows (fun _ => True) contact priority m ↔
      s.Shows (fun _ => True) contact priority m ∨
        c = contact ∧ ∃ p, contact.schedule.plan now = some p ∧
          resolvePriority contact defaultPriority = priority ∧ p.Marked m := by
  have hgains := ingest_gains (s := s) source c defaultPriority now
  split at hgains
  · next hover =>
      refine Iff.trans ?_ (or_iff_left ?_).symm
      · exact Restricts.shows ⟨fun id _ => by rw [hgains.1], fun id hid => absurd trivial hid,
          fun e => by rw [hgains.2, and_true]⟩
      · rintro ⟨rfl, p, hp, -⟩
        cases hover.symm.trans hp
  · next p hplan =>
      rw [hgains.shows hs]
      refine or_congr_right ⟨?_, ?_⟩
      · rintro ⟨rfl, hp, hm⟩
        exact ⟨rfl, p, hplan, hp, hm⟩
      · rintro ⟨rfl, p', hplan', hp, hm⟩
        cases hplan.symm.trans hplan'
        exact ⟨rfl, hp, hm⟩

variable {contacts : List (Contact π α)}

theorem ingestAll_shows (hs : Kept s) {now : Int} :
    (ingestAll source defaultPriority now s contacts).1.Shows (fun _ => True) contact priority m ↔
      s.Shows (fun _ => True) contact priority m ∨
        Planned contacts defaultPriority now contact priority m := by
  induction contacts generalizing s with
  | nil => exact (or_iff_left fun h => List.not_mem_nil h.1).symm
  | cons c cs ih =>
    have hkept := (ingest_books source c defaultPriority now hs).1
    refine (ih hkept).trans ?_
    rw [ingest_shows hs, or_assoc]
    refine or_congr_right ?_
    unfold Planned
    rw [List.mem_cons, eq_comm (a := c), or_and_right]

theorem ingestAll_old (hs : Kept s) {now : Int} (hid : id ∈ s.contacts) :
    (ingestAll source defaultPriority now s contacts).1.contacts[id]? = s.contacts[id]? ∧
      ∀ time kind, ⟨time, kind, id⟩ ∈
        (ingestAll source defaultPriority now s contacts).1.timeline.events ↔
          ⟨time, kind, id⟩ ∈ s.timeline.events := by
  induction contacts generalizing s with
  | nil => exact ⟨rfl, fun _ _ => Iff.rfl⟩
  | cons c cs ih =>
    have hkept := (ingest_books source c defaultPriority now hs).1
    have hfirst : (s.ingest source c defaultPriority now).1.contacts[id]? = s.contacts[id]? ∧
        ∀ time kind, ⟨time, kind, id⟩ ∈ (s.ingest source c defaultPriority now).1.timeline.events ↔
          ⟨time, kind, id⟩ ∈ s.timeline.events := by
      have hne : id ≠ s.nextId := Nat.ne_of_lt (hs.fresh id hid)
      have hgains := ingest_gains (s := s) source c defaultPriority now
      split at hgains
      · exact ⟨by rw [hgains.1], fun time kind => by rw [hgains.2]⟩
      · exact ⟨(hgains.contacts id).trans (if_neg hne), fun time kind =>
          (hgains.events _).trans (or_iff_left fun h => hne h.1)⟩
    obtain ⟨mc, hmc⟩ := HashMap.mem_iff.mp hid
    obtain ⟨hget, hevents⟩ := ih hkept (HashMap.mem_iff.mpr ⟨mc, hfirst.1.trans hmc⟩)
    exact ⟨hget.trans hfirst.1, fun time kind => (hevents time kind).trans (hfirst.2 time kind)⟩

theorem activateContact_adds {op : PendingRouteOp π α} (h : (s.activateContact id).2 = some op) :
    ∃ key, op = .add key := by
  unfold activateContact at h
  split at h
  · cases h
  · split at h
    · cases h
    · dsimp only at h
      split at h
      · exact ⟨_, (Option.some.inj h).symm⟩
      · cases h

theorem ingest_adds {c : Contact π α} {now : Int}
    {op : PendingRouteOp π α} (h : (s.ingest source c defaultPriority now).2.op = some op) :
    ∃ key, op = .add key := by
  unfold Scheduler.ingest at h
  dsimp only at h
  split at h
  · exact activateContact_adds h
  · split at h
    · cases h
    · split at h
      · exact activateContact_adds h
      · cases h
  · split at h
    · exact activateContact_adds h
    · cases h

theorem ingestAll_adds {now : Int} {op : PendingRouteOp π α}
    (h : op ∈ (ingestAll source defaultPriority now s contacts).2.filterMap (·.op)) :
    ∃ key, op = .add key := by
  induction contacts generalizing s with
  | nil => cases h
  | cons c cs ih =>
    obtain ⟨r, hr, hop⟩ := List.mem_filterMap.mp h
    rcases List.mem_cons.mp hr with rfl | hr
    · exact ingest_adds hop
    · exact ih (List.mem_filterMap.mpr ⟨r, hr, hop⟩)

theorem removeAll_removes {ids : List Nat} {key : RouteKey π α} (hs : Counted s)
    (h : .remove key ∈ (s.removeAll ids).2) {mc : ManagedContact π α}
    (hmc : s.contacts[id]? = some mc) (hactive : mc.active = true) (hkey : mc.routeKey = key) :
    id ∈ ids := by
  induction ids generalizing s with
  | nil => cases h
  | cons id' ids ih =>
    by_cases heq : id = id'
    · exact heq ▸ List.mem_cons_self
    · have hcounts : Counts s (s.removeContact id').2.toList (s.removeContact id').1 :=
        removeContact_counts
      obtain ⟨hs', hops⟩ := hcounts hs
      have hleft : (s.removeContact id').1.contacts[id]? = some mc :=
        (removeContact_restricts.contacts id heq).trans hmc
      rcases List.mem_append.mp h with hop | hops'
      · -- the count of the route would be zero
        have hop' : (s.removeContact id').2 = some (.remove key) := Option.mem_toList.mp hop
        rw [hop', Option.toList_some, replay_single, PendingRouteOp.apply] at hops
        split at hops
        · have hgone : (s.removeContact id').1.keys key = false := by
            rw [← Option.some.inj hops, Function.update_self]
          rw [(hs'.keys_iff key).mpr ⟨id, mc, hleft, hactive, hkey⟩] at hgone
          cases hgone
        · cases hops
      · exact List.mem_cons_of_mem _ (ih hs' hops' hleft)

/-! ## Replacing -/

section

variable [HashOrder] {source : String} {contacts : List (Contact π α)} {defaultPriority : Nat}
  {now : Int}

omit [HashOrder] in
theorem contactsMatch_iff {a b : Contact π α} : contactsMatch a b = true ↔ a = b := by
  obtain ⟨⟩ := a
  obtain ⟨⟩ := b
  simp [contactsMatch, and_assoc]
  tauto

omit [DecidableEq π] [DecidableEq α] [HashOrder] in
theorem Restricts.congr {Q : Nat → Prop} (h : Restricts P s t) (heq : ∀ id, P id ↔ Q id) :
    Restricts Q s t where
  contacts id hid := h.contacts id ((heq id).mpr hid)
  gone id hid := h.gone id fun hp => hid ((heq id).mp hp)
  events e := (h.events e).trans (and_congr_right fun _ => heq _)

theorem withdrawSource_restricts :
    Restricts (fun id => ¬ s.Owns source id) s (s.withdrawSource source).1 := by
  have howns : ∀ id, s.Owns source id ↔ id ∈
      (HashOrder.iter ((s.sources source).getD ∅)).map Prod.fst := fun id => owns_iff_mem_iter
  unfold withdrawSource
  split
  · next hnone =>
      refine (removeAll_restricts (s := s) []).congr fun id => not_congr ?_
      exact ⟨nofun, fun ⟨_, hids, _⟩ => by cases hnone.symm.trans hids⟩
  · next own hown =>
      rw [hown, Option.getD_some] at howns
      have h := removeAll_restricts (s := { s with sources := Function.update s.sources source none })
        ((HashOrder.iter own).map Prod.fst)
      exact Restricts.congr (s := s) ⟨h.contacts, h.gone, h.events⟩ fun id => not_congr (howns id).symm

def Matches (s : Scheduler π α) (source : String) (contacts : List (Contact π α)) (id : Nat)
    (mc : ManagedContact π α) : Prop :=
  s.Owns source id ∧ s.contacts[id]? = some mc ∧ mc.contact ∈ contacts

def Dropped (s : Scheduler π α) (source : String) (contacts : List (Contact π α)) (id : Nat) :
    Prop :=
  s.Owns source id ∧ ∃ mc, s.contacts[id]? = some mc ∧ mc.contact ∉ contacts

theorem mem_toRemove :
    id ∈ ((s.oldContacts source).filter fun p => !contacts.any (contactsMatch · p.2)).map Prod.fst ↔
      s.Dropped source contacts id := by
  have hany : ∀ c : Contact π α, (!contacts.any (contactsMatch · c)) = true ↔ c ∉ contacts := by
    intro c
    simp [contactsMatch_iff]
    exact ⟨fun h hc => h c hc rfl, fun h c' hc' heq => h (heq ▸ hc')⟩
  constructor
  · intro h
    obtain ⟨⟨id, c⟩, hp, rfl⟩ := List.mem_map.mp h
    obtain ⟨hp, hnot⟩ := List.mem_filter.mp hp
    obtain ⟨ho, mc, hmc, rfl⟩ := mem_oldContacts.mp hp
    exact ⟨ho, mc, hmc, (hany _).mp hnot⟩
  · rintro ⟨ho, mc, hmc, hnot⟩
    exact List.mem_map.mpr ⟨(id, mc.contact), List.mem_filter.mpr
      ⟨mem_oldContacts.mpr ⟨ho, mc, hmc, rfl⟩, (hany _).mpr hnot⟩, rfl⟩

theorem mem_toAdd :
    contact ∈ (contacts.filter fun c => !(s.oldContacts source).any fun p => contactsMatch c p.2) ↔
      contact ∈ contacts ∧ ¬ ∃ id mc, s.Matches source contacts id mc ∧ mc.contact = contact := by
  rw [List.mem_filter]
  refine and_congr_right fun hc => ?_
  rw [Bool.not_eq_true', ← Bool.not_eq_true, List.any_eq_true]
  refine not_congr ⟨?_, ?_⟩
  · rintro ⟨⟨id, c⟩, hp, hmatch⟩
    obtain ⟨ho, mc, hmc, rfl⟩ := mem_oldContacts.mp hp
    cases contactsMatch_iff.mp hmatch
    exact ⟨id, mc, ⟨ho, hmc, hc⟩, rfl⟩
  · rintro ⟨id, mc, ⟨ho, hmc, -⟩, rfl⟩
    exact ⟨(id, mc.contact), mem_oldContacts.mpr ⟨ho, mc, hmc, rfl⟩, contactsMatch_iff.mpr rfl⟩

omit [HashOrder] in
theorem dropped_restricts {ids : List Nat} (hids : ∀ id, id ∈ ids ↔ s.Dropped source contacts id) :
    Restricts (fun id => ¬ s.Dropped source contacts id) s
      ((s.removeAll ids).1.dropIds source ids) := by
  have h := removeAll_restricts (s := s) ids
  exact Restricts.congr (s := s) ⟨h.contacts, h.gone, h.events⟩ fun id => not_congr (hids id)

/-- The contacts of the source that are in the list are as they would be if they were ingested
now. -/
def Current (s : Scheduler π α) (source : String) (contacts : List (Contact π α))
    (defaultPriority : Nat) (now : Int) : Prop :=
  ∀ id mc, s.Matches source contacts id mc →
    match mc.contact.schedule.plan now with
    | none => mc.active = false ∧ ∀ time kind, ⟨time, kind, id⟩ ∉ s.timeline.events
    | some p => mc.priority = resolvePriority mc.contact defaultPriority ∧ mc.active = p.active ∧
        ∀ time kind, ⟨time, kind, id⟩ ∈ s.timeline.events ↔ (time, kind) ∈ p.events

omit [DecidableEq π] [DecidableEq α] [HashOrder] in
theorem Current.marked (h : s.Current source contacts defaultPriority now)
    {mc : ManagedContact π α} (hmc : s.Matches source contacts id mc) :
    s.Marked id mc m ↔ ∃ p, mc.contact.schedule.plan now = some p ∧
      resolvePriority mc.contact defaultPriority = mc.priority ∧ p.Marked m := by
  have hcur := h id mc hmc
  split at hcur
  · next hplan =>
      rw [hplan]
      refine ⟨fun hm => absurd hm ?_, fun ⟨p, hp, _⟩ => by cases hp⟩
      cases m with
      | active => exact fun hactive => Bool.false_ne_true (hcur.1.symm.trans hactive)
      | event time kind => exact hcur.2 time kind
  · next p hplan =>
      have hm : s.Marked id mc m ↔ p.Marked m := by
        cases m with
        | active =>
          unfold Marked Plan.Marked
          rw [hcur.2.1]
        | event time kind => exact hcur.2.2 time kind
      rw [hm]
      constructor
      · exact fun hp => ⟨p, hplan, hcur.1.symm, hp⟩
      · rintro ⟨p', hplan', -, hp⟩
        cases hplan.symm.trans hplan'
        exact hp

def Upcoming (s : Scheduler π α) (contact : Contact π α) (priority : Nat) (time : Int)
    (kind : EventKind) : Prop :=
  ∃ id mc, s.contacts[id]? = some mc ∧ mc.contact = contact ∧ mc.priority = priority ∧
    ⟨time, kind, id⟩ ∈ s.timeline.events

def withdrawThenAdd (s : Scheduler π α) (source : String) (contacts : List (Contact π α))
    (defaultPriority : Nat) (now : Int) : Scheduler π α :=
  (ingestAll source defaultPriority now (s.withdrawSource source).1 contacts).1

/-- What replacing does.  The contacts that it keeps, those of other sources among them, are the
same and have the same events, and a route is only taken out if it was that of contacts of the
source which are not in the list. -/
structure Replaces (s : Scheduler π α) (source : String) (contacts : List (Contact π α))
    (defaultPriority : Nat) (now : Int) (t : Scheduler π α) (ops : List (PendingRouteOp π α)) :
    Prop where
  kept : ∀ id mc, s.contacts[id]? = some mc → ¬ s.Dropped source contacts id →
    t.contacts[id]? = some mc ∧
      ∀ time kind, ⟨time, kind, id⟩ ∈ t.timeline.events ↔ ⟨time, kind, id⟩ ∈ s.timeline.events
  steady : ∀ key, .remove key ∈ ops → ∀ id mc, s.contacts[id]? = some mc → mc.active = true →
    mc.routeKey = key → s.Dropped source contacts id
  keys : s.Current source contacts defaultPriority now →
    t.keys = (s.withdrawThenAdd source contacts defaultPriority now).keys
  upcoming : s.Current source contacts defaultPriority now → ∀ contact priority time kind,
    t.Upcoming contact priority time kind ↔
      (s.withdrawThenAdd source contacts defaultPriority now).Upcoming contact priority time kind

theorem handleReplace_shows (hs : Kept s) :
    (s.handleReplace source contacts defaultPriority now).1.Shows (fun _ => True) contact priority m ↔
      s.Shows (fun id => ¬ s.Dropped source contacts id) contact priority m ∨
        (¬ ∃ id mc, s.Matches source contacts id mc ∧ mc.contact = contact) ∧
          Planned contacts defaultPriority now contact priority m := by
  have hids : ∀ id, id ∈ ((s.oldContacts source).filter fun p =>
      !contacts.any (contactsMatch · p.2)).map Prod.fst ↔ s.Dropped source contacts id :=
    fun _ => mem_toRemove
  have hkept := (removeAll_dropIds_books (fun id hid => ((hids id).mp hid).1) hs).1
  refine (ingestAll_shows hkept).trans ?_
  rw [(dropped_restricts hids).shows]
  unfold Planned
  rw [mem_toAdd, and_comm (a := contact ∈ contacts), and_assoc]

theorem withdrawThenAdd_shows (hs : Kept s) :
    (s.withdrawThenAdd source contacts defaultPriority now).Shows (fun _ => True) contact priority m ↔
      s.Shows (fun id => ¬ s.Owns source id) contact priority m ∨
        Planned contacts defaultPriority now contact priority m := by
  have hkept := (withdrawSource_books source hs).1
  refine (ingestAll_shows hkept).trans ?_
  rw [withdrawSource_restricts.shows]

theorem Current.shows (h : s.Current source contacts defaultPriority now) (hs : Kept s) :
    (s.handleReplace source contacts defaultPriority now).1.Shows (fun _ => True) contact priority m ↔
      (s.withdrawThenAdd source contacts defaultPriority now).Shows (fun _ => True) contact
        priority m := by
  rw [handleReplace_shows hs, withdrawThenAdd_shows hs]
  constructor
  · rintro (⟨id, mc, hnot, hmc, rfl, rfl, hm⟩ | ⟨-, hp⟩)
    · by_cases ho : s.Owns source id
      · have hc : mc.contact ∈ contacts := by
          by_contra hc
          exact hnot ⟨ho, mc, hmc, hc⟩
        exact .inr ⟨hc, (h.marked ⟨ho, hmc, hc⟩).mp hm⟩
      · exact .inl ⟨id, mc, ho, hmc, rfl, rfl, hm⟩
    · exact .inr hp
  · rintro (⟨id, mc, hnot, hmc, rfl, rfl, hm⟩ | hp)
    · exact .inl ⟨id, mc, fun hd => hnot hd.1, hmc, rfl, rfl, hm⟩
    · by_cases hold : ∃ id mc, s.Matches source contacts id mc ∧ mc.contact = contact
      · obtain ⟨id, mc, hmc, rfl⟩ := hold
        obtain ⟨-, p, hplan, hpriority, hm⟩ := hp
        have hcur := h id mc hmc
        rw [hplan] at hcur
        refine .inl ⟨id, mc, ?_, hmc.2.1, rfl, hcur.1.trans hpriority, ?_⟩
        · rintro ⟨-, mc', hmc', hnot⟩
          cases hmc.2.1.symm.trans hmc'
          exact hnot hmc.2.2
        · exact (h.marked hmc).mpr ⟨p, hplan, hcur.1.symm, hm⟩
      · exact .inr ⟨hold, hp⟩

omit [HashOrder] in
theorem Counted.keys_shows (h : Counted s) (key : RouteKey π α) :
    s.keys key = true ↔ ∃ contact : Contact π α, contact.pattern = key.pattern ∧
      contact.action = key.action ∧ s.Shows (fun _ => True) contact key.priority .active := by
  rw [h.keys_iff]
  constructor
  · rintro ⟨id, mc, hmc, hactive, rfl⟩
    exact ⟨mc.contact, rfl, rfl, id, mc, trivial, hmc, rfl, rfl, hactive⟩
  · rintro ⟨_, hpattern, haction, id, mc, -, hmc, rfl, hpriority, hactive⟩
    obtain ⟨pattern, action, priority⟩ := key
    cases hpattern
    cases haction
    cases hpriority
    exact ⟨id, mc, hmc, hactive, rfl⟩

omit [DecidableEq π] [DecidableEq α] [HashOrder] in
theorem upcoming_iff {time : Int} {kind : EventKind} :
    s.Upcoming contact priority time kind ↔
      s.Shows (fun _ => True) contact priority (.event time kind) := by
  unfold Upcoming Shows
  simp only [true_and]
  exact Iff.rfl

/-- In every state of a run replacing keeps what it can, and is withdrawing and adding where
what it keeps is as new. -/
theorem replaces_of_reachable (s : Scheduler π α) (log : List (PendingRouteOp π α))
    (h : logged.Reachable (s, log)) (source : String) (contacts : List (Contact π α))
    (defaultPriority : Nat) (now : Int) :
    Replaces s source contacts defaultPriority now
      (s.handleReplace source contacts defaultPriority now).1
      (s.handleReplace source contacts defaultPriority now).2.2 := by
  obtain ⟨hs, hcounted, -⟩ := books_of_reachable h
  have hids : ∀ id, id ∈ ((s.oldContacts source).filter fun p =>
      !contacts.any (contactsMatch · p.2)).map Prod.fst ↔ s.Dropped source contacts id :=
    fun _ => mem_toRemove
  have hkept := (removeAll_dropIds_books (fun id hid => ((hids id).mp hid).1) hs).1
  have hdropped := dropped_restricts hids
  refine ⟨fun id mc hmc hnot => ?_, fun key hop id mc hmc hactive hkey => ?_, fun hcur => ?_,
    fun hcur contact priority time kind => ?_⟩
  · have hleft := (hdropped.contacts id hnot).trans hmc
    obtain ⟨hget, hevents⟩ := ingestAll_old hkept (HashMap.mem_iff.mpr ⟨mc, hleft⟩)
    refine ⟨hget.trans hleft, fun time kind => (hevents time kind).trans ?_⟩
    exact (hdropped.events _).trans (and_iff_left hnot)
  · rcases List.mem_append.mp hop with hop | hop
    · exact (hids id).mp (removeAll_removes hcounted hop hmc hactive hkey)
    · obtain ⟨key', heq⟩ := ingestAll_adds hop
      cases heq
  · have hreplaced := ((handleReplace_books source contacts defaultPriority now hs).2 hcounted).1
    obtain ⟨hs', hcounts⟩ := withdrawSource_books source hs
    have hadded := ((ingestAll_books source defaultPriority now contacts hs').2
      (hcounts hcounted).1).1
    funext key
    rw [Bool.eq_iff_iff, hreplaced.keys_shows]
    refine Iff.trans ?_ (Counted.keys_shows hadded key).symm
    refine exists_congr fun contact => and_congr_right fun _ => and_congr_right fun _ => ?_
    exact hcur.shows hs
  · rw [upcoming_iff, upcoming_iff]
    exact hcur.shows hs

end

end

/-! ## A contact with the default priority -/

section

local instance sortedIds : HashOrder := .sorted

def standing : Contact Unit Unit := ⟨(), (), none, .permanent, none, none⟩

def withStanding : Scheduler Unit Unit := (new.handleAdd "contacts" [standing] 100 0).1

theorem reachable_withStanding :
    logged.Reachable (withStanding, (new.handleAdd "contacts" [standing] 100 0).2.2) :=
  .step (.add "contacts" [standing] 100, 0) (.start rfl) ⟨_, .add .., rfl⟩

/-- With another default the contact that is kept still has the old priority. -/
theorem standing_not_replaced :
    ¬ ∀ (s : Scheduler Unit Unit) (log : List (PendingRouteOp Unit Unit)),
      logged.Reachable (s, log) → ∀ source contacts defaultPriority now,
        (s.handleReplace source contacts defaultPriority now).1.keys =
          (s.withdrawThenAdd source contacts defaultPriority now).keys := by
  intro h
  have hkeys := congrFun (h _ _ reachable_withStanding "contacts" [standing] 50 0) ⟨(), (), 50⟩
  have hkept : (withStanding.handleReplace "contacts" [standing] 50 0).1.keys ⟨(), (), 50⟩ =
    false := rfl
  have hnew : (withStanding.withdrawThenAdd "contacts" [standing] 50 0).keys ⟨(), (), 50⟩ =
    true := rfl
  rw [hkept, hnew] at hkeys
  cases hkeys

/-- With the same default it does not matter. -/
theorem standing_replaced :
    (withStanding.handleReplace "contacts" [standing] 100 5).1.keys =
      (withStanding.withdrawThenAdd "contacts" [standing] 100 5).keys := by
  refine (replaces_of_reachable _ _ reachable_withStanding "contacts" [standing] 100 5).keys ?_
  rintro id mc ⟨-, hmc, hc⟩
  have hmc' : ((∅ : HashMap (ManagedContact Unit Unit)).insert 0 ⟨standing, 100, false⟩ |>.insert 0
    ⟨standing, 100, true⟩)[id]? = some mc := hmc
  rw [HashMap.getElem?_insert] at hmc'
  split at hmc'
  · cases hmc'
    exact ⟨rfl, rfl, fun time kind => iff_of_false List.not_mem_nil List.not_mem_nil⟩
  · next hne =>
      rw [HashMap.getElem?_insert, if_neg hne] at hmc'
      cases hmc'

end

end Scheduler

end Hardy.Tvr
