import Hardy.Tally
import Hardy.Tvr.Due

/-!
# The books of the scheduler

Every contact has one source and every event a contact (`Kept`), the count of a route
is that of its active contacts (`Counted`), and the operations that are put out lead from
the routes of one state to those of the next (`Counts`).  Contacts become active and
inactive in two functions only: the rest of a command moves contacts, ids and events
without touching a count, so each command is a list of such changes in a row.
-/

namespace Hardy.Tvr

/-! ## Route operations -/

section

variable {π α : Type} [DecidableEq π] [DecidableEq α]

/-- An operation on the set of installed routes: none is added twice, and none is
removed that is not there. -/
def PendingRouteOp.apply (keys : RouteKey π α → Bool) :
    PendingRouteOp π α → Option (RouteKey π α → Bool)
  | .add key => if keys key then none else some (Function.update keys key true)
  | .remove key => if keys key then some (Function.update keys key false) else none

def replay (keys : RouteKey π α → Bool) (ops : List (PendingRouteOp π α)) :
    Option (RouteKey π α → Bool) :=
  ops.foldlM PendingRouteOp.apply keys

theorem replay_append {keys keys' : RouteKey π α → Bool} {ops ops' : List (PendingRouteOp π α)}
    (h : replay keys ops = some keys') : replay keys (ops ++ ops') = replay keys' ops' := by
  unfold replay at h ⊢
  rw [List.foldlM_append, h]
  rfl

theorem replay_single {keys : RouteKey π α → Bool} (op : PendingRouteOp π α) :
    replay keys [op] = op.apply keys := by
  unfold replay
  rw [List.foldlM_cons]
  cases op.apply keys with
  | none => rfl
  | some keys' => rfl

end

namespace Scheduler

variable {π α : Type}

/-! ## Sources and events -/

def Owns (s : Scheduler π α) (source : String) (id : Nat) : Prop :=
  ∃ ids, s.sources source = some ids ∧ id ∈ ids

structure Kept (s : Scheduler π α) : Prop where
  owned : ∀ source id, s.Owns source id → id ∈ s.contacts
  owner : ∀ id ∈ s.contacts, ∃! source, s.Owns source id
  events : ∀ e ∈ s.timeline.events, e.contactId ∈ s.contacts
  fresh : ∀ id ∈ s.contacts, id < s.nextId

structure Frame (s t : Scheduler π α) : Prop where
  sources : t.sources = s.sources
  timeline : t.timeline = s.timeline
  nextId : t.nextId = s.nextId
  contacts : ∀ id, id ∈ t.contacts ↔ id ∈ s.contacts

section

variable {s t : Scheduler π α} {id : Nat}

theorem Frame.refl : Frame s s := ⟨rfl, rfl, rfl, fun _ => Iff.rfl⟩

theorem Frame.owns (h : Frame s t) {source : String} : t.Owns source id ↔ s.Owns source id := by
  unfold Owns
  rw [h.sources]

theorem Frame.kept (h : Frame s t) (hs : Kept s) : Kept t where
  owned source id ho := (h.contacts id).mpr (hs.owned source id (h.owns.mp ho))
  owner id hid := by
    simp only [h.owns]
    exact hs.owner id ((h.contacts id).mp hid)
  events e he := (h.contacts _).mpr (hs.events e (h.timeline ▸ he))
  fresh id hid := h.nextId ▸ hs.fresh id ((h.contacts id).mp hid)

theorem mem_insert_of_some {mc mc' : ManagedContact π α} (h : s.contacts[id]? = some mc)
    (id' : Nat) : id' ∈ s.contacts.insert id mc' ↔ id' ∈ s.contacts := by
  rw [HashMap.mem_iff, HashMap.mem_iff, HashMap.getElem?_insert]
  by_cases heq : id' = id
  · subst heq
    rw [if_pos rfl, h]
    exact ⟨fun _ => ⟨mc, rfl⟩, fun _ => ⟨mc', rfl⟩⟩
  · rw [if_neg heq]

theorem Kept.new : Kept (Scheduler.new : Scheduler π α) where
  owned source id h := by
    obtain ⟨ids, hids, -⟩ := h
    cases hids
  owner id h := absurd h Std.ExtTreeMap.not_mem_empty
  events e he := by cases he
  fresh id h := absurd h Std.ExtTreeMap.not_mem_empty

theorem Kept.insertEvent (h : Kept s) (time : Int) (kind : EventKind) (hid : id ∈ s.contacts) :
    Kept (s.insertEvent time kind id) where
  owned := h.owned
  owner := h.owner
  events e he := by
    rcases Timeline.mem_insert.mp he with rfl | he
    · exact hid
    · exact h.events e he
  fresh := h.fresh

theorem Kept.insertEvent? (h : Kept s) (time : Option Int) (kind : EventKind)
    (hid : id ∈ s.contacts) : Kept (s.insertEvent? time kind id) := by
  cases time with
  | none => exact h
  | some time => exact h.insertEvent time kind hid

theorem Kept.scheduleNextOccurrence (h : Kept s) (id : Nat) (after : Int) :
    Kept (s.scheduleNextOccurrence id after) := by
  rcases scheduleNextOccurrence_cases s id after with heq |
    ⟨cron, duration, untilTime, nextStart, ⟨mc, hmc, -⟩, -, -, heq⟩
  · rw [heq]
    exact h
  · rw [heq]
    have hid : id ∈ s.contacts := HashMap.mem_iff.mpr ⟨mc, hmc⟩
    exact (h.insertEvent nextStart .activate hid).insertEvent (nextStart + duration) .deactivate hid

theorem Kept.popFirst (h : Kept s) : Kept { s with timeline := s.timeline.popFirst } where
  owned := h.owned
  owner := h.owner
  events e he := h.events e (List.mem_of_mem_tail he)
  fresh := h.fresh

theorem owns_keep {source source' : String} {id' : Nat} {mc : ManagedContact π α} :
    (s.keep source id mc).Owns source' id' ↔
      s.Owns source' id' ∨ source' = source ∧ id' = id := by
  have hmem : ∀ ids : HashMap Unit, id' ∈ ids.insert id () ↔ id' ∈ ids ∨ id' = id := by
    intro ids
    rw [HashMap.mem_iff, HashMap.mem_iff, HashMap.getElem?_insert]
    by_cases hid : id' = id
    · simp [hid]
    · simp [hid]
  unfold Owns keep
  dsimp only
  by_cases heq : source' = source
  · subst heq
    rw [Function.update_self]
    cases s.sources source' with
    | none => simp [hmem, Std.ExtTreeMap.not_mem_empty]
    | some ids => simp [hmem]
  · rw [Function.update_of_ne heq]
    exact ⟨.inl, fun h => h.resolve_right fun h => heq h.1⟩

theorem Kept.keep (h : Kept s) (source : String) (mc : ManagedContact π α) :
    Kept ({ s with nextId := s.nextId + 1 }.keep source s.nextId mc) := by
  have hmem : ∀ id, id ∈ s.contacts.insert s.nextId mc ↔ id = s.nextId ∨ id ∈ s.contacts := by
    intro id
    rw [HashMap.mem_iff, HashMap.mem_iff, HashMap.getElem?_insert]
    by_cases heq : id = s.nextId
    · simp [heq]
    · simp [heq]
  have hnew : ∀ source, ¬ s.Owns source s.nextId := fun source ho =>
    Nat.lt_irrefl _ (h.fresh _ (h.owned source _ ho))
  refine ⟨fun source' id ho => ?_, fun id hid => ?_, fun e he => ?_, fun id hid => ?_⟩
  · rcases owns_keep.mp ho with ho | ⟨-, rfl⟩
    · exact (hmem id).mpr (.inr (h.owned source' id ho))
    · exact (hmem _).mpr (.inl rfl)
  · rcases (hmem id).mp hid with rfl | hid
    · refine ⟨source, owns_keep.mpr (.inr ⟨rfl, rfl⟩), fun source' ho => ?_⟩
      exact ((owns_keep.mp ho).resolve_left (hnew source')).1
    · obtain ⟨source', ho, huniq⟩ := h.owner id hid
      refine ⟨source', owns_keep.mpr (.inl ho), fun source'' ho' => ?_⟩
      refine huniq source'' ((owns_keep.mp ho').resolve_right fun heq => ?_)
      exact Nat.lt_irrefl _ (heq.2 ▸ h.fresh id hid)
  · exact (hmem _).mpr (.inr (h.events e he))
  · rcases (hmem id).mp hid with rfl | hid
    · exact Nat.lt_succ_self _
    · exact Nat.lt_succ_of_lt (h.fresh id hid)

structure Gone (ids : List Nat) (s t : Scheduler π α) : Prop where
  sources : t.sources = s.sources
  nextId : t.nextId = s.nextId
  contacts : ∀ id, id ∈ t.contacts ↔ id ∈ s.contacts ∧ id ∉ ids
  events : ∀ e, e ∈ t.timeline.events ↔ e ∈ s.timeline.events ∧ e.contactId ∉ ids

theorem Gone.nil : Gone [] s s where
  sources := rfl
  nextId := rfl
  contacts _ := (and_iff_left List.not_mem_nil).symm
  events _ := (and_iff_left List.not_mem_nil).symm

theorem Gone.cons {u : Scheduler π α} {ids : List Nat} (h : Gone [id] s t) (h' : Gone ids t u) :
    Gone (id :: ids) s u where
  sources := h'.sources.trans h.sources
  nextId := h'.nextId.trans h.nextId
  contacts id' := by
    rw [h'.contacts, h.contacts, List.mem_singleton, List.mem_cons, not_or, and_assoc]
  events e := by
    rw [h'.events, h.events, List.mem_singleton, List.mem_cons, not_or, and_assoc]

theorem Kept.gone {ids : List Nat} (h : Kept s) (hnextId : t.nextId = s.nextId)
    (hcontacts : ∀ id, id ∈ t.contacts ↔ id ∈ s.contacts ∧ id ∉ ids)
    (hevents : ∀ e, e ∈ t.timeline.events ↔ e ∈ s.timeline.events ∧ e.contactId ∉ ids)
    (howns : ∀ source id, t.Owns source id ↔ s.Owns source id ∧ id ∉ ids) : Kept t where
  owned source id ho := by
    obtain ⟨ho, hid⟩ := (howns source id).mp ho
    exact (hcontacts id).mpr ⟨h.owned source id ho, hid⟩
  owner id hid := by
    obtain ⟨hid, hnot⟩ := (hcontacts id).mp hid
    obtain ⟨source, ho, huniq⟩ := h.owner id hid
    exact ⟨source, (howns source id).mpr ⟨ho, hnot⟩, fun source' ho' =>
      huniq source' ((howns source' id).mp ho').1⟩
  events e he := by
    obtain ⟨he, hid⟩ := (hevents e).mp he
    exact (hcontacts _).mpr ⟨h.events e he, hid⟩
  fresh id hid := by
    rw [hnextId]
    exact h.fresh id ((hcontacts id).mp hid).1

theorem Kept.source_unique (h : Kept s) {source source' : String} (ho : s.Owns source id)
    (ho' : s.Owns source' id) : source = source' :=
  (h.owner id (h.owned source id ho)).unique ho ho'

end

/-! ## Counts -/

section

variable [DecidableEq π] [DecidableEq α]

def counts (key : RouteKey π α) (mc : ManagedContact π α) : Bool := mc.active && mc.routeKey = key

def activeCount (s : Scheduler π α) (key : RouteKey π α) : Nat := HashMap.tally (counts key) s.contacts

def Counted (s : Scheduler π α) : Prop :=
  ∀ key, s.routeRefs key = if s.activeCount key = 0 then none else some (s.activeCount key)

def keys (s : Scheduler π α) (key : RouteKey π α) : Bool := (s.routeRefs key).isSome

/-- The counts stay right, and the operations make one set of routes from the other. -/
def Counts (s : Scheduler π α) (ops : List (PendingRouteOp π α)) (t : Scheduler π α) : Prop :=
  Counted s → Counted t ∧ replay s.keys ops = some t.keys

section

variable {s t u : Scheduler π α} {id : Nat} {ops ops' : List (PendingRouteOp π α)}

theorem Counts.refl : Counts s [] s := fun h => ⟨h, rfl⟩

theorem Counts.trans (h : Counts s ops t) (h' : Counts t ops' u) : Counts s (ops ++ ops') u := by
  intro hs
  obtain ⟨ht, hops⟩ := h hs
  obtain ⟨hu, hops'⟩ := h' ht
  exact ⟨hu, (replay_append hops).trans hops'⟩

theorem Counts.of_eq (hrefs : t.routeRefs = s.routeRefs)
    (hcount : ∀ key, t.activeCount key = s.activeCount key) : Counts s [] t := by
  intro hs
  refine ⟨fun key => ?_, ?_⟩
  · rw [hrefs, hcount]
    exact hs key
  · unfold keys
    rw [hrefs]
    rfl

theorem activeCount_insert {mc : ManagedContact π α} (hmc : s.contacts[id]? = some mc)
    (active : Bool) (key : RouteKey π α) :
    HashMap.tally (counts key) (s.contacts.insert id { mc with active }) +
        (if counts key mc then 1 else 0) =
      s.activeCount key + if active && mc.routeKey = key then 1 else 0 := by
  unfold activeCount
  rw [HashMap.tally_insert, HashMap.tally_eq_erase (counts key) hmc, Nat.add_right_comm]
  rfl

theorem Counted.getD (h : Counted s) (key : RouteKey π α) :
    (s.routeRefs key).getD 0 = s.activeCount key := by
  rw [h key]
  split
  · next hzero => exact hzero.symm
  · rfl

theorem Counted.keys (h : Counted s) (key : RouteKey π α) :
    s.keys key = true ↔ s.activeCount key ≠ 0 := by
  unfold Scheduler.keys
  rw [h key]
  split
  · next hzero => simp [hzero]
  · next hne => simp [hne]

theorem Counted.keys_iff (h : Counted s) (key : RouteKey π α) :
    s.keys key = true ↔ ∃ (id : Nat) (mc : ManagedContact π α),
      s.contacts[id]? = some mc ∧ mc.active = true ∧ mc.routeKey = key := by
  rw [h.keys, activeCount, ne_eq, HashMap.tally_eq_zero]
  simp only [counts, not_forall, Bool.and_eq_false_iff, decide_eq_false_iff_not, not_or,
    Bool.not_eq_false, Decidable.not_not, exists_prop]

theorem Counted.keys_eq (hs : Counted s) (ht : Counted t) (key : RouteKey π α)
    (hcount : ∀ key', key' ≠ key → t.activeCount key' = s.activeCount key') :
    t.keys = Function.update s.keys key (t.keys key) := by
  funext key'
  by_cases heq : key' = key
  · subst heq
    rw [Function.update_self]
  · rw [Function.update_of_ne heq, Bool.eq_iff_iff, ht.keys, hs.keys, hcount key' heq]

theorem replay_added (hs : Counted s) (ht : Counted t) {key : RouteKey π α}
    (hcount : ∀ key', t.activeCount key' = s.activeCount key' + if key = key' then 1 else 0) :
    replay s.keys (if s.activeCount key + 1 = 1 then some (.add key) else none).toList =
      some t.keys := by
  have hkey : t.keys key = true := by
    rw [ht.keys, hcount, if_pos rfl]
    exact Nat.succ_ne_zero _
  have hkeys := hs.keys_eq ht key fun key' hne => by rw [hcount, if_neg hne.symm, Nat.add_zero]
  rw [hkey] at hkeys
  by_cases hzero : s.activeCount key = 0
  · have hnew : s.keys key = false := by
      rw [← Bool.not_eq_true, hs.keys, not_not]
      exact hzero
    rw [hzero, if_pos rfl, Option.toList_some, replay_single, PendingRouteOp.apply, hnew, hkeys]
    rfl
  · have hthere : s.keys key = true := (hs.keys key).mpr hzero
    rw [if_neg (by omega), hkeys, ← hthere, Function.update_eq_self]
    rfl

theorem replay_removed (hs : Counted s) (ht : Counted t) {key : RouteKey π α}
    (hcount : ∀ key', s.activeCount key' = t.activeCount key' + if key = key' then 1 else 0) :
    replay s.keys (if t.activeCount key = 0 then some (.remove key) else none).toList =
      some t.keys := by
  have hthere : s.keys key = true := by
    rw [hs.keys, hcount, if_pos rfl]
    exact Nat.succ_ne_zero _
  have hkeys := hs.keys_eq ht key fun key' hne => by rw [hcount key', if_neg hne.symm, Nat.add_zero]
  by_cases hzero : t.activeCount key = 0
  · have hgone : t.keys key = false := by
      rw [← Bool.not_eq_true, ht.keys, not_not]
      exact hzero
    rw [if_pos hzero, Option.toList_some, replay_single, PendingRouteOp.apply, if_pos hthere, hkeys,
      hgone]
  · have hleft : t.keys key = true := (ht.keys key).mpr hzero
    rw [if_neg hzero, hkeys, hleft, ← hthere, Function.update_eq_self]
    rfl

theorem activateContact_counts :
    Counts s (s.activateContact id).2.toList (s.activateContact id).1 := by
  unfold activateContact
  split
  · exact .refl
  · next mc hmc =>
      split
      · exact .refl
      · next hinactive =>
          intro hs
          have hnot : ∀ key, counts key mc = false := fun key => by
            unfold counts
            rw [eq_false_of_ne_true hinactive]
            rfl
          have hcount : ∀ key, HashMap.tally (counts key)
              (s.contacts.insert id { mc with active := true }) =
                s.activeCount key + if mc.routeKey = key then 1 else 0 := fun key => by
            simpa [hnot key] using activeCount_insert hmc true key
          dsimp only
          rw [hs.getD]
          have ht : Counted { s with
              contacts := s.contacts.insert id { mc with active := true }
              routeRefs := Function.update s.routeRefs mc.routeKey
                (some (s.activeCount mc.routeKey + 1)) } := by
            intro key
            change Function.update s.routeRefs mc.routeKey _ key = if HashMap.tally _ _ = 0 then none
              else some (HashMap.tally _ _)
            rw [hcount]
            by_cases heq : key = mc.routeKey
            · subst heq
              rw [Function.update_self, if_pos rfl, if_neg (Nat.succ_ne_zero _)]
            · rw [Function.update_of_ne heq, if_neg (Ne.symm heq)]
              exact hs key
          exact ⟨ht, replay_added hs ht hcount⟩

theorem deactivateContact_eq {mc : ManagedContact π α} {n : Nat} (hmc : s.contacts[id]? = some mc)
    (hactive : mc.active = true) (hrefs : s.routeRefs mc.routeKey = some (n + 1)) :
    s.deactivateContact id =
      ({ s with
          contacts := s.contacts.insert id { mc with active := false }
          routeRefs := Function.update s.routeRefs mc.routeKey (if n = 0 then none else some n) },
        if n = 0 then some (.remove mc.routeKey) else none) := by
  unfold deactivateContact
  rw [hmc]
  dsimp only
  rw [hactive, Bool.not_true, if_neg Bool.false_ne_true, hrefs]
  dsimp only
  rw [Nat.add_sub_cancel]
  by_cases hzero : n = 0
  · rw [if_pos hzero, if_pos hzero, if_pos hzero]
  · rw [if_neg hzero, if_neg hzero, if_neg hzero]

theorem deactivateContact_counts (id : Nat) :
    Counts s (s.deactivateContact id).2.toList (s.deactivateContact id).1 := by
  rcases hmc : s.contacts[id]? with _ | mc
  · unfold deactivateContact
    rw [hmc]
    exact .refl
  · rcases hactive : mc.active with _ | _
    · unfold deactivateContact
      rw [hmc]
      dsimp only
      rw [hactive, Bool.not_false, if_pos rfl]
      exact .refl
    · intro hs
      have hcount : ∀ key, s.activeCount key = HashMap.tally (counts key)
          (s.contacts.insert id { mc with active := false }) +
            if mc.routeKey = key then 1 else 0 := fun key => by
        simpa [counts, hactive] using (activeCount_insert hmc false key).symm
      have hrefs := hs mc.routeKey
      rw [hcount, if_pos rfl, if_neg (Nat.succ_ne_zero _)] at hrefs
      rw [deactivateContact_eq hmc hactive hrefs]
      have ht : Counted { s with
          contacts := s.contacts.insert id { mc with active := false }
          routeRefs := Function.update s.routeRefs mc.routeKey
            (if HashMap.tally (counts mc.routeKey)
              (s.contacts.insert id { mc with active := false }) = 0 then none
            else some (HashMap.tally (counts mc.routeKey)
              (s.contacts.insert id { mc with active := false }))) } := by
        intro key
        change Function.update s.routeRefs mc.routeKey _ key = if HashMap.tally _ _ = 0 then none
          else some (HashMap.tally _ _)
        by_cases heq : key = mc.routeKey
        · subst heq
          rw [Function.update_self]
        · rw [Function.update_of_ne heq, hs key, hcount, if_neg (Ne.symm heq), Nat.add_zero]
      exact ⟨ht, replay_removed hs ht hcount⟩

/-! ## Commands -/

theorem activateContact_frame : Frame s (s.activateContact id).1 := by
  unfold activateContact
  split
  · exact .refl
  · next mc hmc =>
      split
      · exact .refl
      · exact ⟨rfl, rfl, rfl, mem_insert_of_some hmc⟩

theorem deactivateContact_frame : Frame s (s.deactivateContact id).1 := by
  unfold deactivateContact
  split
  · exact .refl
  · next mc hmc =>
      split
      · exact .refl
      · dsimp only
        split
        · exact ⟨rfl, rfl, rfl, mem_insert_of_some hmc⟩
        · split
          · exact ⟨rfl, rfl, rfl, mem_insert_of_some hmc⟩
          · exact ⟨rfl, rfl, rfl, mem_insert_of_some hmc⟩

theorem deactivateContact_inactive {mc : ManagedContact π α}
    (h : (s.deactivateContact id).1.contacts[id]? = some mc) : mc.active = false := by
  have hself : ∀ mc' : ManagedContact π α, (s.contacts.insert id { mc' with active := false })[id]? =
      some { mc' with active := false } := fun mc' => by
    rw [HashMap.getElem?_insert, if_pos rfl]
  unfold deactivateContact at h
  split at h
  · next hnone => cases hnone.symm.trans h
  · next mc' hmc =>
      split at h
      · next hinactive =>
          cases hmc.symm.trans h
          simpa using hinactive
      · dsimp only at h
        split at h
        · cases (hself mc').symm.trans h
          rfl
        · split at h
          · cases (hself mc').symm.trans h
            rfl
          · cases (hself mc').symm.trans h
            rfl

theorem erase_counts (id : Nat) (h : ∀ mc, s.contacts[id]? = some mc → mc.active = false) :
    Counts s [] { s with contacts := s.contacts.erase id } := by
  refine .of_eq rfl fun key => ?_
  unfold activeCount
  dsimp only
  rcases hmc : s.contacts[id]? with _ | mc
  · rw [HashMap.erase_of_none hmc]
  · rw [HashMap.tally_eq_erase _ hmc, counts, h mc hmc]
    rfl

theorem removeContact_gone : Gone [id] s (s.removeContact id).1 := by
  have hframe : Frame (s.cancelEvents id) ((s.cancelEvents id).deactivateContact id).1 :=
    deactivateContact_frame
  refine ⟨hframe.sources, hframe.nextId, fun id' => ?_, fun e => ?_⟩
  · have herase := HashMap.mem_erase (m := ((s.cancelEvents id).deactivateContact id).1.contacts)
      (k := id) (n := id')
    rw [hframe.contacts] at herase
    rw [List.mem_singleton, and_comm]
    exact herase
  · change e ∈ ((s.cancelEvents id).deactivateContact id).1.timeline.events ↔ _
    rw [hframe.timeline, List.mem_singleton]
    refine List.mem_filter.trans ?_
    rw [decide_eq_true_eq]

theorem removeContact_counts : Counts s (s.removeContact id).2.toList (s.removeContact id).1 := by
  have hcancel : Counts s [] (s.cancelEvents id) := .of_eq rfl fun _ => rfl
  have herase := erase_counts (s := ((s.cancelEvents id).deactivateContact id).1) id
    fun _ => deactivateContact_inactive
  have hall := (hcancel.trans (deactivateContact_counts id)).trans herase
  rwa [List.nil_append, List.append_nil] at hall

theorem removeAll_gone {ids : List Nat} : Gone ids s (s.removeAll ids).1 := by
  induction ids generalizing s with
  | nil => exact .nil
  | cons id ids ih => exact removeContact_gone.cons ih

theorem removeAll_counts (ids : List Nat) :
    Counts s (s.removeAll ids).2 (s.removeAll ids).1 := by
  induction ids generalizing s with
  | nil => exact .refl
  | cons id ids ih => exact removeContact_counts.trans ih

theorem keep_counts (h : Kept s) (source : String) (mc : ManagedContact π α)
    (hinactive : mc.active = false) :
    Counts s [] ({ s with nextId := s.nextId + 1 }.keep source s.nextId mc) := by
  refine .of_eq rfl fun key => ?_
  have hnone : s.contacts[s.nextId]? = none := by
    rw [← Option.not_isSome_iff_eq_none, ← Std.ExtTreeMap.mem_iff_isSome_getElem?]
    exact fun hmem => Nat.lt_irrefl _ (h.fresh _ hmem)
  change HashMap.tally (counts key) (s.contacts.insert s.nextId mc) = _
  rw [HashMap.tally_insert, HashMap.erase_of_none hnone, counts, hinactive]
  rfl

theorem insertEvent_counts {time : Int} {kind : EventKind} :
    Counts s [] (s.insertEvent time kind id) := .of_eq rfl fun _ => rfl

theorem insertEvent?_counts {time : Option Int} {kind : EventKind} :
    Counts s [] (s.insertEvent? time kind id) := by
  cases time with
  | none => exact .refl
  | some time => exact .of_eq rfl fun _ => rfl

theorem scheduleNextOccurrence_counts (id : Nat) (after : Int) :
    Counts s [] (s.scheduleNextOccurrence id after) := by
  rcases scheduleNextOccurrence_cases s id after with heq | ⟨_, _, _, _, -, -, -, heq⟩
  · rw [heq]
    exact .refl
  · rw [heq]
    exact .of_eq rfl fun _ => rfl

def Books (s : Scheduler π α) (ops : List (PendingRouteOp π α)) (t : Scheduler π α) : Prop :=
  Kept s → Kept t ∧ Counts s ops t

theorem Books.refl : Books s [] s := fun h => ⟨h, .refl⟩

theorem Books.trans (h : Books s ops t) (h' : Books t ops' u) : Books s (ops ++ ops') u := by
  intro hs
  obtain ⟨ht, hcounts⟩ := h hs
  obtain ⟨hu, hcounts'⟩ := h' ht
  exact ⟨hu, hcounts.trans hcounts'⟩

theorem ingest_books (source : String) (contact : Contact π α) (defaultPriority : Nat) (now : Int) :
    Books s (s.ingest source contact defaultPriority now).2.op.toList
      (s.ingest source contact defaultPriority now).1 := by
  intro hs
  have hkeep := hs.keep source ⟨contact, resolvePriority contact defaultPriority, false⟩
  have hkept := keep_counts hs source
    ⟨contact, resolvePriority contact defaultPriority, false⟩ rfl
  have hid : s.nextId ∈ s.contacts.insert s.nextId
      ⟨contact, resolvePriority contact defaultPriority, false⟩ :=
    HashMap.mem_iff.mpr ⟨_, HashMap.getElem?_insert.trans (if_pos rfl)⟩
  unfold Scheduler.ingest
  dsimp only
  change s.nextId ∈ ({ s with nextId := s.nextId + 1 }.keep source s.nextId
    ⟨contact, resolvePriority contact defaultPriority, false⟩).contacts at hid
  generalize hu : ({ s with nextId := s.nextId + 1 } : Scheduler π α).keep source s.nextId
    ⟨contact, resolvePriority contact defaultPriority, false⟩ = u at hkeep hkept hid ⊢
  split
  · exact ⟨activateContact_frame.kept hkeep, hkept.trans activateContact_counts⟩
  · next start finish hsched =>
      split
      · exact ⟨⟨hs.owned, hs.owner, hs.events, fun id h => Nat.lt_succ_of_lt (hs.fresh id h)⟩,
          .of_eq rfl fun _ => rfl⟩
      · split
        · exact ⟨activateContact_frame.kept (hkeep.insertEvent? finish .deactivate hid),
            (hkept.trans insertEvent?_counts).trans activateContact_counts⟩
        · exact ⟨(hkeep.insertEvent (start.getD now) .activate hid).insertEvent? finish .deactivate hid,
            (hkept.trans insertEvent_counts).trans insertEvent?_counts⟩
  · next cron duration untilTime hsched =>
      split
      · next finish hactive =>
          exact ⟨activateContact_frame.kept (hkeep.insertEvent finish .deactivate hid),
            (hkept.trans insertEvent_counts).trans activateContact_counts⟩
      · exact ⟨hkeep.scheduleNextOccurrence s.nextId now, hkept.trans (scheduleNextOccurrence_counts s.nextId now)⟩

theorem ingestAll_books (source : String) (defaultPriority : Nat) (now : Int)
    (contacts : List (Contact π α)) :
    Books s ((ingestAll source defaultPriority now s contacts).2.filterMap (·.op))
      (ingestAll source defaultPriority now s contacts).1 := by
  induction contacts generalizing s with
  | nil => exact .refl
  | cons c cs ih =>
    have hfirst := ingest_books (s := s) source c defaultPriority now
    have hall := hfirst.trans ih
    unfold ingestAll
    dsimp only
    rw [List.filterMap_cons]
    split
    · next hnone =>
        rw [hnone] at hall
        exact hall
    · next op hop =>
        rw [hop] at hall
        exact hall

variable [HashOrder]

omit [DecidableEq π] [DecidableEq α] in
theorem owns_iff_mem_iter {source : String} :
    s.Owns source id ↔ id ∈ (HashOrder.iter ((s.sources source).getD ∅)).map Prod.fst := by
  have hiter : ∀ own : HashMap Unit, id ∈ (HashOrder.iter own).map Prod.fst ↔ id ∈ own := by
    intro own
    rw [List.mem_map, HashMap.mem_iff]
    constructor
    · rintro ⟨⟨id, v⟩, he, rfl⟩
      exact ⟨v, HashOrder.mem_iter.mp he⟩
    · rintro ⟨v, hv⟩
      exact ⟨(id, v), HashOrder.mem_iter.mpr hv, rfl⟩
  rw [hiter]
  unfold Owns
  cases s.sources source with
  | none => simp [Std.ExtTreeMap.not_mem_empty]
  | some own => simp

omit [DecidableEq π] [DecidableEq α] in
theorem mem_oldContacts {source : String} {contact : Contact π α} :
    (id, contact) ∈ s.oldContacts source ↔
      s.Owns source id ∧ ∃ mc, s.contacts[id]? = some mc ∧ mc.contact = contact := by
  rw [owns_iff_mem_iter]
  unfold oldContacts
  constructor
  · intro h
    obtain ⟨id', hid, h⟩ := List.mem_filterMap.mp h
    obtain ⟨mc, hmc, h⟩ := Option.map_eq_some_iff.mp h
    cases h
    exact ⟨hid, mc, hmc, rfl⟩
  · rintro ⟨hid, mc, hmc, rfl⟩
    exact List.mem_filterMap.mpr ⟨id, hid, Option.map_eq_some_iff.mpr ⟨mc, hmc, rfl⟩⟩

omit [HashOrder] in
theorem removeAll_dropIds_books {source : String} {ids : List Nat}
    (hids : ∀ id ∈ ids, s.Owns source id) :
    Books s (s.removeAll ids).2 ((s.removeAll ids).1.dropIds source ids) := by
  intro hs
  have hgone : Gone ids s (s.removeAll ids).1 := removeAll_gone
  have hcounts := (removeAll_counts (s := s) ids).trans
    (Counts.of_eq (t := (s.removeAll ids).1.dropIds source ids) rfl fun _ => rfl)
  rw [List.append_nil] at hcounts
  refine ⟨hs.gone hgone.nextId hgone.contacts hgone.events fun source' id => ?_, hcounts⟩
  have hmem : ∀ (ids : List Nat) (own : HashMap Unit),
      id ∈ ids.foldl (fun own id => own.erase id) own ↔ id ∈ own ∧ id ∉ ids := by
    intro ids
    induction ids with
    | nil => exact fun own => (and_iff_left List.not_mem_nil).symm
    | cons id' ids ih =>
      intro own
      rw [List.foldl_cons, ih, HashMap.mem_erase, List.mem_cons, not_or]
      tauto
  unfold Owns dropIds
  dsimp only
  rw [hgone.sources]
  by_cases heq : source' = source
  · subst heq
    rw [Function.update_self]
    cases s.sources source' with
    | none => simp
    | some own => simp [hmem]
  · rw [Function.update_of_ne heq]
    exact ⟨fun h => ⟨h, fun hid => heq (hs.source_unique h (hids id hid))⟩, And.left⟩

theorem withdrawSource_books (source : String) :
    Books s (s.withdrawSource source).2 (s.withdrawSource source).1 := by
  unfold withdrawSource
  split
  · exact .refl
  · next own hown =>
      intro hs
      generalize hids : (HashOrder.iter own).map Prod.fst = ids
      have hmem : ∀ id, id ∈ ids ↔ s.Owns source id := by
        intro id
        rw [owns_iff_mem_iter, hown, Option.getD_some, hids]
      have hgone : Gone ids { s with sources := Function.update s.sources source none }
          (({ s with sources := Function.update s.sources source none } :
            Scheduler π α).removeAll ids).1 := removeAll_gone
      have hcounts : Counts s [] { s with sources := Function.update s.sources source none } :=
        .of_eq rfl fun _ => rfl
      refine ⟨hs.gone hgone.nextId hgone.contacts hgone.events fun source' id => ?_,
        hcounts.trans (removeAll_counts _)⟩
      unfold Owns
      rw [hgone.sources]
      dsimp only
      by_cases heq : source' = source
      · subst heq
        rw [Function.update_self, hmem]
        simp [Owns]
      · rw [Function.update_of_ne heq]
        exact ⟨fun h => ⟨h, fun hid => heq (hs.source_unique h ((hmem id).mp hid))⟩, And.left⟩

theorem handleRemove_books (source : String) (contacts : List (Contact π α)) :
    Books s (s.handleRemove source contacts).2.2 (s.handleRemove source contacts).1 := by
  refine removeAll_dropIds_books fun id hid => ?_
  obtain ⟨p, hp, rfl⟩ := List.mem_map.mp hid
  exact (mem_oldContacts.mp (List.mem_filter.mp hp).1).1

theorem handleReplace_books (source : String) (contacts : List (Contact π α))
    (defaultPriority : Nat) (now : Int) :
    Books s (s.handleReplace source contacts defaultPriority now).2.2
      (s.handleReplace source contacts defaultPriority now).1 := by
  refine Books.trans (removeAll_dropIds_books fun id hid => ?_)
    (ingestAll_books source defaultPriority now _)
  obtain ⟨p, hp, rfl⟩ := List.mem_map.mp hid
  exact (mem_oldContacts.mp (List.mem_filter.mp hp).1).1

section

omit [HashOrder]

theorem handleEvent_books (e : Event) : Books s (s.handleEvent e).2 (s.handleEvent e).1 := by
  intro hs
  unfold handleEvent
  split
  · exact ⟨activateContact_frame.kept hs, activateContact_counts⟩
  · have hcounts := (deactivateContact_counts (s := s) e.contactId).trans
      (scheduleNextOccurrence_counts e.contactId e.time)
    rw [List.append_nil] at hcounts
    exact ⟨(deactivateContact_frame.kept hs).scheduleNextOccurrence _ _, hcounts⟩

theorem dueStep_books {now : Int} (h : s.dueStep now = some (t, ops)) : Books s ops t := by
  unfold dueStep at h
  split at h
  · cases h
  · next e hfirst =>
      split at h
      · cases h
      · have hpop : Books s [] { s with timeline := s.timeline.popFirst } := fun hs =>
          ⟨hs.popFirst, .of_eq rfl fun _ => rfl⟩
        have hall := hpop.trans (handleEvent_books e)
        rw [List.nil_append, Option.some.inj h] at hall
        exact hall

theorem processDueEvents_books {fuel : Nat} {now : Int}
    (h : s.processDueEvents fuel now = some (t, ops)) : Books s ops t :=
  Loop.run_rel (R := fun s ops t => Books s ops t) (fun _ => .refl)
    (fun _ _ _ _ _ hstep ih => (dueStep_books hstep).trans ih) h

end

/-! ## Runs -/

/-- The route operations of a step, in the order in which they are applied. -/
inductive Emits : Scheduler π α → Command π α × Int → List (PendingRouteOp π α) →
    Scheduler π α → Prop where
  | add {s : Scheduler π α} (source : String) (contacts : List (Contact π α))
      (defaultPriority : Nat) (now : Int) :
      Emits s (.add source contacts defaultPriority, now)
        (s.handleAdd source contacts defaultPriority now).2.2
        (s.handleAdd source contacts defaultPriority now).1
  | remove {s : Scheduler π α} (source : String) (contacts : List (Contact π α)) (now : Int) :
      Emits s (.remove source contacts, now) (s.handleRemove source contacts).2.2
        (s.handleRemove source contacts).1
  | replace {s : Scheduler π α} (source : String) (contacts : List (Contact π α))
      (defaultPriority : Nat) (now : Int) :
      Emits s (.replace source contacts defaultPriority, now)
        (s.handleReplace source contacts defaultPriority now).2.2
        (s.handleReplace source contacts defaultPriority now).1
  | withdrawAll {s : Scheduler π α} (source : String) (now : Int) :
      Emits s (.withdrawAll source, now) (s.withdrawSource source).2 (s.withdrawSource source).1
  | due {s t : Scheduler π α} {fuel : Nat} {ops : List (PendingRouteOp π α)} (now : Int) :
      s.processDueEvents fuel now = some (t, ops) → Emits s (.due, now) ops t

theorem Emits.books {l : Command π α × Int} (h : Emits s l ops t) : Books s ops t := by
  cases h with
  | add source contacts defaultPriority now =>
    exact ingestAll_books source defaultPriority now contacts
  | remove source contacts now => exact handleRemove_books source contacts
  | replace source contacts defaultPriority now =>
    exact handleReplace_books source contacts defaultPriority now
  | withdrawAll source now => exact withdrawSource_books source
  | due now hrun => exact processDueEvents_books hrun

def logged : Machine (Scheduler π α × List (PendingRouteOp π α)) (Command π α × Int) where
  start p := p = (new, [])
  step p l p' := ∃ ops, Emits p.1 l ops p'.1 ∧ p'.2 = p.2 ++ ops

/-- Sources, contacts, events and counts belong together, and the operations make the
installed routes from none, each of them added and removed in turn. -/
structure Booked (s : Scheduler π α) (log : List (PendingRouteOp π α)) : Prop where
  owned : ∀ source id, s.Owns source id → ∃ mc, s.contacts[id]? = some mc
  owner : ∀ id mc, s.contacts[id]? = some mc → ∃! source, s.Owns source id
  events : ∀ e ∈ s.timeline.events, ∃ mc, s.contacts[e.contactId]? = some mc
  refs : ∀ key, s.routeRefs key = if s.activeCount key = 0 then none else some (s.activeCount key)
  replayed : replay (fun _ => false) log = some s.keys

theorem books_of_reachable {p : Scheduler π α × List (PendingRouteOp π α)}
    (h : logged.Reachable p) :
    Kept p.1 ∧ Counted p.1 ∧ replay (fun _ => false) p.2 = some p.1.keys := by
  refine h.invariant
    (I := fun p => Kept p.1 ∧ Counted p.1 ∧ replay (fun _ => false) p.2 = some p.1.keys) ?_ ?_
  · rintro _ rfl
    exact ⟨.new, fun key => rfl, rfl⟩
  · rintro ⟨s, log⟩ l ⟨t, _⟩ ⟨hkept, hcounted, hreplay⟩ ⟨ops, hemits, rfl⟩
    obtain ⟨hkept', hcounts⟩ := hemits.books hkept
    obtain ⟨hcounted', hops⟩ := hcounts hcounted
    exact ⟨hkept', hcounted', (replay_append hreplay).trans hops⟩

/-- In every run the books are in order. -/
theorem booked_of_reachable (s : Scheduler π α) (log : List (PendingRouteOp π α))
    (h : logged.Reachable (s, log)) : Booked s log := by
  obtain ⟨hkept, hcounted, hreplay⟩ := books_of_reachable h
  exact ⟨fun source id ho => HashMap.mem_iff.mp (hkept.owned source id ho),
    fun id mc hmc => hkept.owner id (HashMap.mem_iff.mpr ⟨mc, hmc⟩),
    fun e he => HashMap.mem_iff.mp (hkept.events e he), hcounted, hreplay⟩

end

end

/-! ## One contact -/

section

local instance : HashOrder := .sorted

/-- The contact is added and withdrawn again. -/
theorem halfMinute_booked :
    Booked ((added 30000000000).withdrawSource "contacts").1
      ((new.handleAdd "contacts" [minutely 30000000000] 100 10000000000).2.2 ++
        ((added 30000000000).withdrawSource "contacts").2) := by
  refine booked_of_reachable _ _ (.step (s := (added 30000000000, _))
    (.withdrawAll "contacts", 20000000000) ?_ ⟨_, .withdrawAll .., rfl⟩)
  exact .step (.add "contacts" [minutely 30000000000] 100, 10000000000) (.start rfl) ⟨_, .add .., rfl⟩

end

end Scheduler

end Hardy.Tvr
