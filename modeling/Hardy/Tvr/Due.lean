import Hardy.Tvr.Scheduler

/-!
# Due events

The processing of due events ends exactly if no deactivation that is due is of a
contact whose occurrences are shorter than its cron expression can tell apart.  In every
reachable state the deactivation of a recurring contact is an occurrence and its
duration after it (`Inv`).  The next occurrence is searched for from the deactivation
on.  A long one has left the cell of its start by then, so the search goes on and the
events come later and later (`weight`).  A short one has not: the search finds the same
start, and the event that was taken out is put back in.
-/

namespace Hardy.Tvr.Scheduler

variable {π α : Type}

/-! ## The invariant -/

def Recurs (s : Scheduler π α) (id : Nat) (cron : CronExpr) (duration : Nat)
    (untilTime : Option Int) : Prop :=
  ∃ mc, s.contacts[id]? = some mc ∧ mc.contact.schedule = .recurring cron duration untilTime

def Ends (cron : CronExpr) (duration : Nat) (untilTime : Option Int) (time : Int) : Prop :=
  ∃ start, cron.Occurrence start ∧ time = start + duration ∧ untilTime.any (· ≤ start) = false

structure Inv (s : Scheduler π α) : Prop where
  fresh : ∀ e ∈ s.timeline.events, e.contactId < s.nextId
  ends : ∀ e ∈ s.timeline.events, e.kind = .deactivate → ∀ cron duration untilTime,
    s.Recurs e.contactId cron duration untilTime → Ends cron duration untilTime e.time

/-- Events are of ids given out, and the deactivations of contacts that recur are as `P`
says. -/
structure Stamped (P : CronExpr → Nat → Option Int → Int → Prop) (s : Scheduler π α) : Prop where
  fresh : ∀ e ∈ s.timeline.events, e.contactId < s.nextId
  ends : ∀ e ∈ s.timeline.events, e.kind = .deactivate → ∀ cron duration untilTime,
    s.Recurs e.contactId cron duration untilTime → P cron duration untilTime e.time

theorem inv_iff {s : Scheduler π α} : Inv s ↔ Stamped Ends s :=
  ⟨fun h => ⟨h.fresh, h.ends⟩, fun h => ⟨h.fresh, h.ends⟩⟩

/-- Nothing is new, but which contacts are active. -/
structure Within (s t : Scheduler π α) : Prop where
  nextId : s.nextId ≤ t.nextId
  events : ∀ e ∈ t.timeline.events, e ∈ s.timeline.events
  recurs : ∀ id cron duration untilTime, t.Recurs id cron duration untilTime →
    s.Recurs id cron duration untilTime

namespace Within

variable {s t u : Scheduler π α}

theorem refl : Within s s := ⟨Nat.le_refl _, fun _ h => h, fun _ _ _ _ h => h⟩

theorem trans (h : Within s t) (h' : Within t u) : Within s u where
  nextId := Nat.le_trans h.nextId h'.nextId
  events e he := h.events e (h'.events e he)
  recurs id cron duration untilTime hr :=
    h.recurs id cron duration untilTime (h'.recurs id cron duration untilTime hr)

theorem stamped {P : CronExpr → Nat → Option Int → Int → Prop} (h : Within s t)
    (hs : Stamped P s) : Stamped P t where
  fresh e he := Nat.lt_of_lt_of_le (hs.fresh e (h.events e he)) h.nextId
  ends e he hk cron duration untilTime hr :=
    hs.ends e (h.events e he) hk cron duration untilTime (h.recurs _ _ _ _ hr)

end Within

section

variable {s t : Scheduler π α} {id : Nat} {cron : CronExpr} {duration : Nat}
  {untilTime : Option Int} {now : Int} {P : CronExpr → Nat → Option Int → Int → Prop}

theorem recurs_unique {cron' : CronExpr} {duration' : Nat} {untilTime' : Option Int}
    (h : s.Recurs id cron duration untilTime) (h' : s.Recurs id cron' duration' untilTime') :
    cron = cron' ∧ duration = duration' ∧ untilTime = untilTime' := by
  obtain ⟨mc, hmc, hsched⟩ := h
  obtain ⟨mc', hmc', hsched'⟩ := h'
  cases hmc.symm.trans hmc'
  cases hsched.symm.trans hsched'
  exact ⟨rfl, rfl, rfl⟩

theorem recurs_active {mc : ManagedContact π α} {id' : Nat} (hmc : s.contacts[id]? = some mc)
    (active : Bool) :
    (∃ mc', (s.contacts.insert id { mc with active })[id']? = some mc' ∧
        mc'.contact.schedule = .recurring cron duration untilTime) ↔
      s.Recurs id' cron duration untilTime := by
  unfold Recurs
  rw [HashMap.getElem?_insert]
  by_cases heq : id' = id
  · subst heq
    rw [if_pos rfl, hmc]
    constructor
    · rintro ⟨_, ⟨⟩, h⟩
      exact ⟨mc, rfl, h⟩
    · rintro ⟨_, ⟨⟩, h⟩
      exact ⟨{ mc with active }, rfl, h⟩
  · rw [if_neg heq]

/-- Activations and deactivations of contacts leave the timeline and the schedules. -/
structure Same (s t : Scheduler π α) : Prop where
  nextId : t.nextId = s.nextId
  timeline : t.timeline = s.timeline
  recurs : ∀ id cron duration untilTime,
    t.Recurs id cron duration untilTime ↔ s.Recurs id cron duration untilTime

theorem Same.within (h : Same s t) : Within s t where
  nextId := Nat.le_of_eq h.nextId.symm
  events _ he := h.timeline ▸ he
  recurs id cron duration untilTime := (h.recurs id cron duration untilTime).mp

theorem Stamped.new : Stamped P (Scheduler.new : Scheduler π α) where
  fresh e he := by cases he
  ends e he := by cases he

theorem Stamped.insertEvent (h : Stamped P s) {time : Int} {kind : EventKind} (hid : id < s.nextId)
    (hends : kind = .deactivate → ∀ cron duration untilTime,
      s.Recurs id cron duration untilTime → P cron duration untilTime time) :
    Stamped P (s.insertEvent time kind id) where
  fresh e he := by
    rcases Timeline.mem_insert.mp he with rfl | he
    · exact hid
    · exact h.fresh e he
  ends e he hk cron duration untilTime hr := by
    rcases Timeline.mem_insert.mp he with rfl | he
    · exact hends hk cron duration untilTime hr
    · exact h.ends e he hk cron duration untilTime hr

theorem Stamped.insertEvent? (h : Stamped P s) {time : Option Int} {kind : EventKind}
    (hid : id < s.nextId)
    (honce : ∀ cron duration untilTime, ¬ s.Recurs id cron duration untilTime) :
    Stamped P (s.insertEvent? time kind id) := by
  rcases time with _ | time
  · exact h
  · exact h.insertEvent hid fun _ cron duration untilTime hr =>
      absurd hr (honce cron duration untilTime)

theorem scheduleNextOccurrence_cases (s : Scheduler π α) (id : Nat) (after : Int) :
    s.scheduleNextOccurrence id after = s ∨ ∃ cron duration untilTime nextStart,
      s.Recurs id cron duration untilTime ∧ cron.nextAfter after = some nextStart ∧
        untilTime.any (· ≤ nextStart) = false ∧ s.scheduleNextOccurrence id after =
          (s.insertEvent nextStart .activate id).insertEvent (nextStart + duration)
            .deactivate id := by
  unfold scheduleNextOccurrence
  split
  · exact .inl rfl
  · next mc hmc =>
      split
      · next cron duration untilTime hsched =>
          split
          · exact .inl rfl
          · next nextStart hnext =>
              split
              · exact .inl rfl
              · next huntil =>
                  exact .inr ⟨cron, duration, untilTime, nextStart, ⟨mc, hmc, hsched⟩, hnext,
                    eq_false_of_ne_true huntil, rfl⟩
      · exact .inl rfl

def Next (P : CronExpr → Nat → Option Int → Int → Prop) (cron : CronExpr) (duration : Nat)
    (untilTime : Option Int) (after : Int) : Prop :=
  ∀ nextStart, cron.nextAfter after = some nextStart → untilTime.any (· ≤ nextStart) = false →
    P cron duration untilTime (nextStart + duration)

theorem next_ends (after : Int) : Next Ends cron duration untilTime after :=
  fun nextStart hnext huntil => ⟨nextStart, (CronExpr.nextAfter_eq_some hnext).1, rfl, huntil⟩

theorem Stamped.scheduleNextOccurrence (h : Stamped P s) (hid : id < s.nextId) (after : Int)
    (hends : ∀ cron duration untilTime, s.Recurs id cron duration untilTime →
      Next P cron duration untilTime after) : Stamped P (s.scheduleNextOccurrence id after) := by
  rcases scheduleNextOccurrence_cases s id after with heq |
    ⟨cron, duration, untilTime, nextStart, hr, hnext, huntil, heq⟩
  · rw [heq]
    exact h
  · rw [heq]
    refine Stamped.insertEvent (h.insertEvent hid fun hk => ?_) hid
      fun _ cron' duration' untilTime' hr' => ?_
    · cases hk
    · obtain ⟨rfl, rfl, rfl⟩ := recurs_unique hr hr'
      exact hends cron duration untilTime hr nextStart hnext huntil

theorem Stamped.keep (h : Stamped P s) (source : String) (mc : ManagedContact π α) :
    Stamped P ({ s with nextId := s.nextId + 1 }.keep source s.nextId mc) where
  fresh e he := Nat.lt_succ_of_lt (h.fresh e he)
  ends e he hk cron duration untilTime hr := by
    obtain ⟨mc', hmc', hsched⟩ := hr
    refine h.ends e he hk cron duration untilTime ⟨mc', ?_, hsched⟩
    have hne : e.contactId ≠ s.nextId := Nat.ne_of_lt (h.fresh e he)
    have hkept : (s.contacts.insert s.nextId mc)[e.contactId]? = some mc' := hmc'
    rwa [HashMap.getElem?_insert, if_neg hne] at hkept

theorem recurs_keep (source : String) {mc : ManagedContact π α} :
    (s.keep source id mc).Recurs id cron duration untilTime ↔
      mc.contact.schedule = .recurring cron duration untilTime := by
  have hself : (s.contacts.insert id mc)[id]? = some mc := by
    rw [HashMap.getElem?_insert, if_pos rfl]
  constructor
  · rintro ⟨mc', hmc', hsched⟩
    cases hself.symm.trans hmc'
    exact hsched
  · exact fun hsched => ⟨mc, hself, hsched⟩

theorem activeNow_ends {now finish : Int} (h : activeNow cron duration untilTime now = some finish) :
    Ends cron duration untilTime finish := by
  unfold activeNow at h
  split at h
  · cases h
  · next prevStart hprev =>
      rw [Option.ite_none_right_eq_some, Bool.and_eq_true] at h
      obtain ⟨⟨-, huntil⟩, h⟩ := h
      cases h
      refine ⟨prevStart, CronExpr.prevBefore_eq_some hprev, rfl, ?_⟩
      rcases untilTime with _ | bound
      · rfl
      · rw [Option.all_some, decide_eq_true_eq] at huntil
        rw [Option.any_some]
        exact decide_eq_false (Int.not_le.mpr huntil)

theorem within_sources (sources : String → Option (HashMap Unit)) :
    Within s { s with sources } := ⟨Nat.le_refl _, fun _ h => h, fun _ _ _ _ h => h⟩

theorem events_of_first {e : Event} (h : s.timeline.first = some e) :
    s.timeline.events = e :: s.timeline.popFirst.events :=
  List.eq_cons_of_mem_head? h

theorem within_popFirst : Within s { s with timeline := s.timeline.popFirst } :=
  ⟨Nat.le_refl _, fun _ he => List.mem_of_mem_tail he, fun _ _ _ _ h => h⟩

/-! ## Long occurrences -/

/-- The deactivations that are due leave the cell of the start of their occurrence. -/
def Spaced (now : Int) (s : Scheduler π α) : Prop :=
  ∀ e ∈ s.timeline.events, e.kind = .deactivate → e.time ≤ now →
    ∀ cron duration untilTime, s.Recurs e.contactId cron duration untilTime →
      cron.granularity ≤ duration

def weight (now : Int) (e : Event) : Nat :=
  if now < e.time then 0
  else
    match e.kind with
    | .activate => 1
    | .deactivate => 2 * ((now - e.time).toNat / 1000000000 + 1)

def turns (now : Int) (s : Scheduler π α) : Nat := (s.timeline.events.map (weight now)).sum

theorem weight_pos {e : Event} (h : e.time ≤ now) : 0 < weight now e := by
  unfold weight
  rw [if_neg (Int.not_lt.mpr h)]
  split
  · exact Nat.one_pos
  · exact Nat.mul_pos Nat.two_pos (Nat.succ_pos _)

theorem turns_insertEvent (s : Scheduler π α) (now time : Int) (kind : EventKind) (id : Nat) :
    turns now (s.insertEvent time kind id) ≤ weight now ⟨time, kind, id⟩ + turns now s :=
  Sorted.sum_insert_le (weight now)

theorem weight_next (id : Nat) {start nextStart time : Int} (hocc : cron.Occurrence start)
    (htime : time = start + duration) (hlong : cron.granularity ≤ duration) (hdue : time ≤ now)
    (hnext : cron.nextAfter time = some nextStart) :
    weight now ⟨nextStart + duration, .deactivate, id⟩ + weight now ⟨nextStart, .activate, id⟩ <
      weight now ⟨time, .deactivate, id⟩ := by
  have hlater : start + cron.granularity ≤ nextStart := hocc.lt_nextAfter (by omega) hnext
  have hsecond : 1000000000 ≤ cron.granularity := by
    rcases cron.granularity_eq with heq | heq
    · rw [heq]
    · rw [heq]
      decide
  unfold weight
  dsimp only
  rw [if_neg (Int.not_lt.mpr hdue)]
  split <;> split <;> omega

/-! ## Short occurrences -/

theorem mem_scheduleNextOccurrence {e : Event} (hr : s.Recurs e.contactId cron duration untilTime)
    (hk : e.kind = .deactivate) (hends : Ends cron duration untilTime e.time)
    (hshort : duration < cron.granularity) :
    e ∈ (s.scheduleNextOccurrence e.contactId e.time).timeline.events := by
  obtain ⟨start, hocc, htime, huntil⟩ := hends
  have hnext : cron.nextAfter e.time = some start := hocc.nextAfter_eq (by omega) (by omega)
  obtain ⟨mc, hmc, hsched⟩ := hr
  have heq : s.scheduleNextOccurrence e.contactId e.time =
      (s.insertEvent start .activate e.contactId).insertEvent (start + duration) .deactivate
        e.contactId := by
    simp only [scheduleNextOccurrence, hmc, hsched, hnext, huntil]
    rfl
  rw [heq, ← htime, ← hk]
  exact Timeline.mem_insert.mpr (.inl rfl)

theorem mem_of_mem_scheduleNextOccurrence {e : Event} {id : Nat} {after : Int}
    (h : e ∈ s.timeline.events) : e ∈ (s.scheduleNextOccurrence id after).timeline.events := by
  rcases scheduleNextOccurrence_cases s id after with heq | ⟨_, _, _, _, -, -, -, heq⟩
  · rwa [heq]
  · rw [heq]
    exact Timeline.mem_insert.mpr (.inr (Timeline.mem_insert.mpr (.inr h)))

theorem recurs_scheduleNextOccurrence {id' : Nat} {after : Int} :
    (s.scheduleNextOccurrence id' after).Recurs id cron duration untilTime ↔
      s.Recurs id cron duration untilTime := by
  rcases scheduleNextOccurrence_cases s id' after with heq | ⟨_, _, _, _, -, -, -, heq⟩
  · rw [heq]
  · rw [heq]
    rfl

def Stuck (e : Event) (cron : CronExpr) (duration : Nat) (untilTime : Option Int)
    (s : Scheduler π α) : Prop :=
  e ∈ s.timeline.events ∧ s.Recurs e.contactId cron duration untilTime

end

section

variable [DecidableEq π] [DecidableEq α]

variable {s t : Scheduler π α} {id : Nat} {cron : CronExpr} {duration : Nat}
  {untilTime : Option Int} {now : Int}
  {ops : List (PendingRouteOp π α)} {P : CronExpr → Nat → Option Int → Int → Prop}

/-! ## Commands -/

theorem activateContact_same : Same s (s.activateContact id).1 := by
  unfold activateContact
  split
  · exact ⟨rfl, rfl, fun _ _ _ _ => Iff.rfl⟩
  · next mc hmc =>
      split
      · exact ⟨rfl, rfl, fun _ _ _ _ => Iff.rfl⟩
      · exact ⟨rfl, rfl, fun _ _ _ _ => recurs_active hmc true⟩

theorem deactivateContact_same : Same s (s.deactivateContact id).1 := by
  unfold deactivateContact
  split
  · exact ⟨rfl, rfl, fun _ _ _ _ => Iff.rfl⟩
  · next mc hmc =>
      split
      · exact ⟨rfl, rfl, fun _ _ _ _ => Iff.rfl⟩
      · dsimp only
        split
        · exact ⟨rfl, rfl, fun _ _ _ _ => recurs_active hmc false⟩
        · split
          · exact ⟨rfl, rfl, fun _ _ _ _ => recurs_active hmc false⟩
          · exact ⟨rfl, rfl, fun _ _ _ _ => recurs_active hmc false⟩

theorem Stamped.ingest (h : Stamped P s) (source : String) (contact : Contact π α)
    (defaultPriority : Nat) (now : Int)
    (hactive : ∀ cron duration untilTime finish,
      contact.schedule = .recurring cron duration untilTime →
        activeNow cron duration untilTime now = some finish → P cron duration untilTime finish)
    (hnext : ∀ cron duration untilTime, contact.schedule = .recurring cron duration untilTime →
      Next P cron duration untilTime now) :
    Stamped P (s.ingest source contact defaultPriority now).1 := by
  have hkeep := h.keep source ⟨contact, resolvePriority contact defaultPriority, false⟩
  have hid : s.nextId < s.nextId + 1 := Nat.lt_succ_self _
  unfold Scheduler.ingest
  dsimp only
  split
  · exact activateContact_same.within.stamped hkeep
  · next start finish hsched =>
      have honce : ∀ cron duration untilTime, ¬ Recurs ({ s with nextId := s.nextId + 1 }.keep source
          s.nextId ⟨contact, resolvePriority contact defaultPriority, false⟩) s.nextId cron duration
          untilTime := by
        intro cron duration untilTime hr
        cases hsched.symm.trans ((recurs_keep source).mp hr)
      split
      · have hskip : Within s { s with nextId := s.nextId + 1 } :=
          ⟨Nat.le_succ _, fun _ h => h, fun _ _ _ _ h => h⟩
        exact hskip.stamped h
      · split
        · exact activateContact_same.within.stamped (hkeep.insertEvent? hid honce)
        · refine (Stamped.insertEvent ?_ hid fun hk => ?_).insertEvent? hid honce
          · exact hkeep
          · cases hk
  · next cron duration untilTime hsched =>
      split
      · next finish hfinish =>
          refine activateContact_same.within.stamped (hkeep.insertEvent hid ?_)
          intro _ cron' duration' untilTime' hr
          cases hsched.symm.trans ((recurs_keep source).mp hr)
          exact hactive cron duration untilTime finish hsched hfinish
      · refine hkeep.scheduleNextOccurrence hid now ?_
        intro cron' duration' untilTime' hr
        cases hsched.symm.trans ((recurs_keep source).mp hr)
        exact hnext cron duration untilTime hsched

theorem removeContact_within : Within s (s.removeContact id).1 := by
  have hcancel : Within s (s.cancelEvents id) :=
    ⟨Nat.le_refl _, fun e he => (List.mem_filter.mp he).1, fun _ _ _ _ h => h⟩
  refine hcancel.trans (deactivateContact_same.within.trans ⟨Nat.le_refl _, fun _ h => h, ?_⟩)
  rintro id' cron duration untilTime ⟨mc, hmc, hsched⟩
  refine ⟨mc, ?_, hsched⟩
  have herased : (((s.cancelEvents id).deactivateContact id).1.contacts.erase id)[id']? = some mc :=
    hmc
  rw [HashMap.getElem?_erase] at herased
  split at herased
  · cases herased
  · exact herased

theorem removeAll_within {ids : List Nat} : Within s (s.removeAll ids).1 := by
  induction ids generalizing s with
  | nil => exact .refl
  | cons id ids ih => exact removeContact_within.trans ih

theorem Stamped.ingestAll (h : Stamped Ends s) (source : String) (defaultPriority : Nat) (now : Int)
    (contacts : List (Contact π α)) :
    Stamped Ends (Scheduler.ingestAll source defaultPriority now s contacts).1 := by
  induction contacts generalizing s with
  | nil => exact h
  | cons c cs ih =>
    refine ih (h.ingest source c defaultPriority now ?_ ?_)
    · exact fun _ _ _ _ _ hfinish => activeNow_ends hfinish
    · exact fun _ _ _ _ => next_ends now

/-! ## Turns of the loop -/

theorem dueStep_eq_none : s.dueStep now = none ↔ ∀ e ∈ s.timeline.events, now < e.time := by
  unfold dueStep
  split
  · next hfirst =>
      refine ⟨fun _ e he => ?_, fun _ => rfl⟩
      rw [Timeline.first, List.head?_eq_none_iff] at hfirst
      rw [hfirst] at he
      cases he
  · next e hfirst =>
      split
      · next hlt =>
          refine ⟨fun _ e' he' => ?_, fun _ => rfl⟩
          exact Int.lt_of_lt_of_le hlt (Timeline.time_le_of_first hfirst he')
      · next hle =>
          refine ⟨fun h => ?_, fun h => ?_⟩
          · cases h
          · exact absurd (h e (List.mem_of_mem_head? hfirst)) hle

theorem dueStep_cases (h : s.dueStep now = some (t, ops)) : ∃ e u, s.timeline.first = some e ∧
    e.time ≤ now ∧ Same { s with timeline := s.timeline.popFirst } u ∧
      ((e.kind = .activate ∧ t = u) ∨
        (e.kind = .deactivate ∧ t = u.scheduleNextOccurrence e.contactId e.time)) := by
  unfold dueStep at h
  split at h
  · cases h
  · next e hfirst =>
      split at h
      · cases h
      · next hle =>
          have ht := congrArg Prod.fst (Option.some.inj h)
          unfold handleEvent at ht
          split at ht
          · next hk =>
              exact ⟨e, _, hfirst, Int.not_lt.mp hle, activateContact_same, .inl ⟨hk, ht.symm⟩⟩
          · next hk =>
              exact ⟨e, _, hfirst, Int.not_lt.mp hle, deactivateContact_same, .inr ⟨hk, ht.symm⟩⟩

theorem Stamped.dueStep (hs : Stamped P s)
    (hnext : ∀ e ∈ s.timeline.events, e.kind = .deactivate → e.time ≤ now →
      ∀ cron duration untilTime, s.Recurs e.contactId cron duration untilTime →
        Next P cron duration untilTime e.time)
    (h : s.dueStep now = some (t, ops)) : Stamped P t := by
  obtain ⟨e, u, hfirst, hdue, hsame, hcase⟩ := dueStep_cases h
  have hmem : e ∈ s.timeline.events := List.mem_of_mem_head? hfirst
  have hu : Stamped P u := (within_popFirst.trans hsame.within).stamped hs
  rcases hcase with ⟨-, rfl⟩ | ⟨hk, rfl⟩
  · exact hu
  · refine hu.scheduleNextOccurrence ?_ e.time ?_
    · rw [hsame.nextId]
      exact hs.fresh e hmem
    · intro cron duration untilTime hr
      exact hnext e hmem hk hdue cron duration untilTime ((hsame.recurs _ _ _ _).mp hr)

theorem Inv.dueStep (hs : Inv s) (h : s.dueStep now = some (t, ops)) : Inv t :=
  inv_iff.mpr ((inv_iff.mp hs).dueStep (fun e _ _ _ _ _ _ _ => next_ends e.time) h)

theorem spaced_dueStep (hs : Inv s) (hspaced : s.Spaced now)
    (h : s.dueStep now = some (t, ops)) : t.Spaced now ∧ turns now t < turns now s := by
  obtain ⟨e, u, hfirst, hdue, hsame, hcase⟩ := dueStep_cases h
  have hmem : e ∈ s.timeline.events := List.mem_of_mem_head? hfirst
  have hturns : turns now s = weight now e + turns now u := by
    unfold turns
    rw [events_of_first hfirst, hsame.timeline]
    rfl
  have hu : u.Spaced now := by
    intro e' he' hk hle cron duration untilTime hr
    rw [hsame.timeline] at he'
    exact hspaced e' (List.mem_of_mem_tail he') hk hle cron duration untilTime
      ((hsame.recurs _ _ _ _).mp hr)
  rcases hcase with ⟨hk, rfl⟩ | ⟨hk, rfl⟩
  · exact ⟨hu, by rw [hturns]; exact Nat.lt_add_of_pos_left (weight_pos hdue)⟩
  · rcases scheduleNextOccurrence_cases u e.contactId e.time with heq |
      ⟨cron, duration, untilTime, nextStart, hr, hnext, -, heq⟩
    · rw [heq, hturns]
      exact ⟨hu, Nat.lt_add_of_pos_left (weight_pos hdue)⟩
    · rw [heq]
      have hr' : s.Recurs e.contactId cron duration untilTime := (hsame.recurs _ _ _ _).mp hr
      have hlong : cron.granularity ≤ duration :=
        hspaced e hmem hk hdue cron duration untilTime hr'
      refine ⟨fun e' he' hk' hle cron' duration' untilTime' hr'' => ?_, ?_⟩
      · rcases Timeline.mem_insert.mp he' with rfl | he'
        · obtain ⟨rfl, rfl, rfl⟩ := recurs_unique hr hr''
          exact hlong
        · rcases Timeline.mem_insert.mp he' with rfl | he'
          · cases hk'
          · exact hu e' he' hk' hle cron' duration' untilTime' hr''
      · obtain ⟨start, hocc, htime, -⟩ := hs.ends e hmem hk cron duration untilTime hr'
        have hless := weight_next e.contactId hocc htime hlong hdue hnext
        have hevent : weight now ⟨e.time, .deactivate, e.contactId⟩ = weight now e := by
          rw [← hk]
        have hactivate := turns_insertEvent u now nextStart .activate e.contactId
        have hdeactivate := turns_insertEvent (u.insertEvent nextStart .activate e.contactId) now
          (nextStart + duration) .deactivate e.contactId
        omega

theorem finishes_of_spaced (hs : Inv s) (hspaced : s.Spaced now) : s.Finishes now := by
  have hstep : ∀ s t (ops : List (PendingRouteOp π α)), (Inv s ∧ s.Spaced now) →
      dueStep now s = some (t, ops) → (Inv t ∧ t.Spaced now) ∧ turns now t < turns now s := by
    rintro s t ops ⟨hs, hspaced⟩ h
    obtain ⟨hspaced', hlt⟩ := spaced_dueStep hs hspaced h
    exact ⟨⟨hs.dueStep h, hspaced'⟩, hlt⟩
  obtain ⟨fuel, t, ops, hrun⟩ := Loop.exists_run hstep ⟨hs, hspaced⟩
  refine ⟨fuel, t, ops, hrun, ?_⟩
  exact dueStep_eq_none.mp
    (Loop.run_eq_some (fun s t ops hs h => (hstep s t ops hs h).1) ⟨hs, hspaced⟩ hrun).2

theorem stuck_dueStep {e : Event} (hk : e.kind = .deactivate) (hdue : e.time ≤ now)
    (hends : Ends cron duration untilTime e.time) (hshort : duration < cron.granularity)
    (hstuck : s.Stuck e cron duration untilTime) :
    ∃ t ops, s.dueStep now = some (t, ops) ∧ t.Stuck e cron duration untilTime := by
  obtain ⟨hmem, hr⟩ := hstuck
  rcases hnext : s.dueStep now with _ | ⟨t, ops⟩
  · exact absurd (dueStep_eq_none.mp hnext e hmem) (Int.not_lt.mpr hdue)
  · refine ⟨t, ops, rfl, ?_⟩
    obtain ⟨e', u, hfirst, -, hsame, hcase⟩ := dueStep_cases hnext
    have hu : u.Recurs e.contactId cron duration untilTime := (hsame.recurs _ _ _ _).mpr hr
    rw [events_of_first hfirst] at hmem
    rcases List.mem_cons.mp hmem with rfl | hmem
    · rcases hcase with ⟨hk', -⟩ | ⟨-, rfl⟩
      · cases hk.symm.trans hk'
      · exact ⟨mem_scheduleNextOccurrence hu hk hends hshort,
          recurs_scheduleNextOccurrence.mpr hu⟩
    · have hkept : e ∈ u.timeline.events := hsame.timeline ▸ hmem
      rcases hcase with ⟨-, rfl⟩ | ⟨-, rfl⟩
      · exact ⟨hkept, hu⟩
      · exact ⟨mem_of_mem_scheduleNextOccurrence hkept, recurs_scheduleNextOccurrence.mpr hu⟩

theorem spaced_of_finishes (hs : Inv s) (h : s.Finishes now) : s.Spaced now := by
  intro e hmem hk hdue cron duration untilTime hr
  by_contra hlong
  have hshort : duration < cron.granularity := Int.not_le.mp hlong
  have hends : Ends cron duration untilTime e.time := hs.ends e hmem hk cron duration untilTime hr
  obtain ⟨fuel, t, ops, hrun, -⟩ := h
  have hnone : Loop.run (dueStep now) fuel s = none :=
    Loop.run_eq_none (fun s hstuck => stuck_dueStep hk hdue hends hshort hstuck)
      (show s.Stuck e cron duration untilTime from ⟨hmem, hr⟩) fuel
  cases hnone.symm.trans hrun

/-! ## Reachable states -/

variable [HashOrder]

theorem withdrawSource_within {source : String} : Within s (s.withdrawSource source).1 := by
  unfold withdrawSource
  split
  · exact .refl
  · exact (within_sources _).trans removeAll_within

theorem Inv.step (hs : Inv s) {l : Command π α × Int} (h : Step s l t) : Inv t := by
  rw [inv_iff] at hs ⊢
  cases h with
  | add source contacts defaultPriority now =>
    exact hs.ingestAll source defaultPriority now contacts
  | remove source contacts now =>
    exact (removeAll_within.trans (within_sources _)).stamped hs
  | replace source contacts defaultPriority now =>
    exact ((removeAll_within.trans (within_sources _)).stamped hs).ingestAll source
      defaultPriority now _
  | withdrawAll source now => exact withdrawSource_within.stamped hs
  | due now hrun =>
    exact inv_iff.mp
      (Loop.run_eq_some (fun s t ops hs h => hs.dueStep h) (inv_iff.mpr hs) hrun).1

theorem inv_of_reachable (h : machine.Reachable s) : Inv s := by
  refine h.invariant (I := Inv) ?_ ?_
  · rintro _ rfl
    exact inv_iff.mpr .new
  · intro s l t hs hstep
    exact hs.step hstep

/-- The processing of due events ends exactly if no deactivation that is due is of a
short occurrence. -/
theorem finishes_iff_spaced (h : machine.Reachable s) (now : Int) :
    s.Finishes now ↔ s.Spaced now :=
  ⟨spaced_of_finishes (inv_of_reachable h), finishes_of_spaced (inv_of_reachable h)⟩

end

/-! ## Half a minute of every minute -/

section

local instance : HashOrder := .sorted

/-- `* * * * *` -/
def everyMinute : CronExpr := ⟨1, 2 ^ 60 - 1, 2 ^ 24 - 1, 2 ^ 32 - 2, 0x1FFE, 0x7F⟩

def minutely (duration : Nat) : Contact Unit Unit :=
  ⟨(), (), none, .recurring everyMinute duration none, none, none⟩

def added (duration : Nat) : Scheduler Unit Unit :=
  (new.handleAdd "contacts" [minutely duration] 100 10000000000).1

theorem reachable_added (duration : Nat) : machine.Reachable (added duration) :=
  .step _ (.start rfl) (.add "contacts" [minutely duration] 100 10000000000)

theorem everyMinute_occurrence : everyMinute.Occurrence 0 :=
  ⟨⟨by decide, by decide, by decide, by decide, by decide, by decide⟩, rfl⟩

theorem added_eq {duration : Nat} (h : 10000000000 < duration) :
    added duration = ((({ new with nextId := 1 }.keep "contacts" 0
      ⟨minutely duration, 100, false⟩).insertEvent duration .deactivate 0).activateContact 0).1 := by
  have hprev : everyMinute.prevBefore 10000000000 = some 0 :=
    everyMinute_occurrence.prevBefore_eq (by decide) (by decide)
  have hactive : activeNow everyMinute duration none 10000000000 = some duration := by
    have hlt : (10000000000 : Int) < duration := by exact_mod_cast h
    unfold activeNow
    rw [hprev]
    simp [hlt]
  unfold added handleAdd ingestAll ingest minutely
  dsimp only
  rw [hactive]
  rfl

theorem recurs_added {duration d : Nat} {cron : CronExpr} {u : Option Int}
    (h : 10000000000 < duration) : (added duration).Recurs 0 cron d u ↔
      Schedule.recurring everyMinute duration none = .recurring cron d u := by
  rw [added_eq h]
  exact (activateContact_same.recurs _ _ _ _).trans (recurs_keep "contacts")

/-- A contact of two minutes that starts every minute: its deactivation that is due is dealt with,
and so are those that follow it. -/
theorem twoMinutes_finishes : (added 120000000000).Finishes 200000000000 := by
  have hreach := reachable_added 120000000000
  refine (finishes_iff_spaced hreach _).mpr fun e he _ _ cron duration untilTime hr => ?_
  have hnext : (added 120000000000).nextId = 1 := by
    rw [added_eq (by decide), activateContact_same.nextId]
    rfl
  have hid : e.contactId < 1 := hnext ▸ (inv_of_reachable hreach).fresh e he
  rw [Nat.lt_one_iff.mp hid] at hr
  cases (recurs_added (by decide)).mp hr
  decide

theorem not_finishes : ¬ ∀ s : Scheduler Unit Unit, machine.Reachable s → ∀ now, s.Finishes now := by
  intro h
  have hreach := reachable_added 30000000000
  have hmem : (⟨30000000000, .deactivate, 0⟩ : Event) ∈ (added 30000000000).timeline.events := by
    rw [added_eq (by decide), activateContact_same.timeline]
    exact Timeline.mem_insert.mpr (.inl rfl)
  have hspaced := spaced_of_finishes (inv_of_reachable hreach) (h _ hreach 30000000000)
  have hlong := hspaced _ hmem rfl (Int.le_refl _) everyMinute 30000000000 none
    ((recurs_added (by decide)).mpr rfl)
  exact absurd hlong (by decide)

end

end Hardy.Tvr.Scheduler
