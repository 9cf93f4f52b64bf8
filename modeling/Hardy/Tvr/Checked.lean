import Hardy.DtnTime
import Hardy.Fold
import Hardy.Tvr.Due
import Hardy.Tvr.Search

/-!
# The end of the calendar

The searches and the scheduler of `tvr/src/cron.rs` and `tvr/src/scheduler.rs` over times
of years up to 9999.  Adding a duration to a time panics when the sum has no date, and the
start of an occurrence and a duration are added without a look at either.  At a time of
the years 2000 to 3000 the searches stay inside the calendar, so they are what they are
without one, and what is left is whether the sums that `ingest` makes have a date
(`Schedule.Fits`).  A deactivation that is due shows that its duration is short, so the
sums of later occurrences all have one (`Kept`).
-/

namespace Hardy.Tvr

def InCalendar (t : Int) : Prop := dateTimeMin ≤ t ∧ t ≤ dateTimeMax

instance (t : Int) : Decidable (InCalendar t) :=
  inferInstanceAs (Decidable (dateTimeMin ≤ t ∧ t ≤ dateTimeMax))

def Era (t : Int) : Prop := 946684800000000000 ≤ t ∧ t < 32535216000000000000

instance (t : Int) : Decidable (Era t) :=
  inferInstanceAs (Decidable (946684800000000000 ≤ t ∧ t < 32535216000000000000))

inductive Panic where
  | dateOverflow
  | intOverflow
deriving DecidableEq

namespace Checked

def add (t d : Int) : Except Panic Int :=
  if InCalendar (t + d) then .ok (t + d) else .error .dateOverflow

theorem add_ok {t d u : Int} : add t d = .ok u ↔ InCalendar (t + d) ∧ t + d = u := by
  unfold add
  split
  · next h => exact ⟨fun hu => ⟨h, Except.ok.inj hu⟩, fun hu => congrArg Except.ok hu.2⟩
  · next h => exact ⟨nofun, fun hu => absurd hu.1 h⟩

theorem add_of_inCalendar {t d : Int} (h : InCalendar (t + d)) : add t d = .ok (t + d) :=
  add_ok.mpr ⟨h, rfl⟩

/-! ## The searches -/

/-- The time to look at next.  A month beyond the calendar ends the search, for the year
is replaced; any other unit is added, and panics. -/
def move (c : CronExpr) (v : Moves) (t : Int) : Except Panic (Option (Option Int)) :=
  match c.move v t with
  | some (some t') =>
    if InCalendar t' then .ok (some (some t'))
    else if !c.month.testBit (DateTime.date t).month then .ok (some none)
    else .error .dateOverflow
  | r => .ok r

theorem move_eq {c : CronExpr} {v : Moves} {t t' : Int} (h : move c v t = .ok (some (some t'))) :
    c.move v t = some (some t') := by
  unfold move at h
  split at h
  · next u hmove =>
      split at h
      · cases h
        exact hmove
      · split at h
        · cases h
        · cases h
  · exact Except.ok.inj h

/-- The loop of `next_after`. -/
def nextFrom (c : CronExpr) (limit t : Int) : Except Panic (Option Int) :=
  if t ≤ limit then
    match _h : move c forward t with
    | .error p => .error p
    | .ok none => .ok (some t)
    | .ok (some none) => .ok none
    | .ok (some (some t')) => nextFrom c limit t'
  else .ok none
termination_by (limit + 1 - t).toNat
decreasing_by
  have hlt := (CronExpr.lt_forward (move_eq _h)).1
  omega

/-- The loop of `prev_before`. -/
def prevFrom (c : CronExpr) (limit t : Int) : Except Panic (Option Int) :=
  if limit ≤ t then
    match _h : move c backward t with
    | .error p => .error p
    | .ok none => .ok (some t)
    | .ok (some none) => .ok none
    | .ok (some (some t')) => prevFrom c limit t'
  else .ok none
termination_by (t + 1 - limit).toNat
decreasing_by
  have hlt := (CronExpr.backward_lt (move_eq _h)).1
  omega

def nextAfter (c : CronExpr) (after : Int) : Except Panic (Option Int) := do
  nextFrom c (← add after CronExpr.horizon) (c.truncate after)

def prevBefore (c : CronExpr) (before : Int) : Except Panic (Option Int) := do
  prevFrom c (← add before (-CronExpr.horizon)) (c.truncate before)

section

variable {c : CronExpr} {t t' limit : Int}

theorem forward_le (hwhole : t % 1000000000 = 0) (h : c.move forward t = some (some t')) :
    t' ≤ t + 2764800000000000 := by
  generalize hr : some t' = r at h
  cases CronExpr.moved h with
  | month =>
    cases hr.trans (advanceMonth_eq hwhole)
    have hnext := Date.days_nextMonth (DateTime.date_valid t).month
    have hdays := DateTime.days_date t
    have hlen := january_day_le (y := (DateTime.date t).year) (m := (DateTime.date t).month)
    have hpos := (DateTime.date_valid t).day.1
    omega
  | day =>
    cases hr.trans (congrArg some (advanceDay_eq hwhole))
    omega
  | hour =>
    cases hr.trans (congrArg some (advanceHour_eq hwhole))
    omega
  | minute =>
    cases hr.trans (congrArg some (advanceMinute_eq hwhole))
    omega
  | second =>
    have heq : t' = t + 1000000000 := Option.some.inj hr
    omega

theorem le_backward (hwhole : t % 1000000000 = 0) (h : c.move backward t = some (some t')) :
    t ≤ t' + 2764800000000000 := by
  generalize hr : some t' = r at h
  cases CronExpr.moved h with
  | month =>
    have heq := hr.trans (retreatMonth_eq hwhole)
    split at heq
    · cases heq
    · cases heq
      have hdays := DateTime.days_date t
      have hday := (DateTime.date_valid t).day.2
      have hlen := january_day_le (y := (DateTime.date t).year) (m := (DateTime.date t).month)
      omega
  | day =>
    cases hr.trans (congrArg some (retreatDay_eq hwhole))
    omega
  | hour =>
    cases hr.trans (congrArg some (retreatHour_eq hwhole))
    omega
  | minute =>
    cases hr.trans (congrArg some (retreatMinute_eq hwhole))
    omega
  | second =>
    have heq : t' = t - 1000000000 := Option.some.inj hr
    omega

theorem move_of_inCalendar {v : Moves}
    (h : ∀ t', c.move v t = some (some t') → InCalendar t') : move c v t = .ok (c.move v t) := by
  unfold move
  split
  · next t' hmove => rw [if_pos (h t' hmove), hmove]
  · rfl

theorem move_stop {v : Moves} (h : c.move v t = none) : move c v t = .ok none := by
  rw [move_of_inCalendar fun _ h' => (by cases h.symm.trans h'), h]

theorem move_end {v : Moves} (h : c.move v t = some none) : move c v t = .ok (some none) := by
  rw [move_of_inCalendar fun _ h' => (by cases h.symm.trans h'), h]

theorem move_on {v : Moves} (h : c.move v t = some (some t')) (hin : InCalendar t') :
    move c v t = .ok (some (some t')) := by
  rw [move_of_inCalendar, h]
  intro u hu
  cases h.symm.trans hu
  exact hin

theorem nextFrom_eq (hlo : dateTimeMin ≤ t) (hhi : limit + 2764800000000000 ≤ dateTimeMax)
    (hwhole : t % 1000000000 = 0) : nextFrom c limit t = .ok (c.nextFrom limit t) := by
  fun_induction CronExpr.nextFrom c limit t with
  | case1 t hle hnone =>
    rw [nextFrom, if_pos hle]
    split
    · next h => cases (move_stop hnone).symm.trans h
    · rfl
    · next h => cases (move_stop hnone).symm.trans h
    · next h => cases (move_stop hnone).symm.trans h
  | case2 t hle hmove => exact absurd hmove (CronExpr.move_forward_ne_none hwhole)
  | case3 t hle t' hmove ih =>
    obtain ⟨hlt, hmod⟩ := CronExpr.lt_forward hmove
    have hfar := forward_le hwhole hmove
    have hon := move_on hmove ⟨by omega, by omega⟩
    rw [nextFrom, if_pos hle]
    split
    · next h => cases hon.symm.trans h
    · next h => cases hon.symm.trans h
    · next h => cases hon.symm.trans h
    · next u h =>
        cases hon.symm.trans h
        exact ih (by omega) (hmod.trans hwhole)
  | case4 t hgt => rw [nextFrom, if_neg hgt]

theorem prevFrom_eq (hhi : t ≤ dateTimeMax) (hlo : dateTimeMin + 2764800000000000 ≤ limit)
    (hwhole : t % 1000000000 = 0) : prevFrom c limit t = .ok (c.prevFrom limit t) := by
  fun_induction CronExpr.prevFrom c limit t with
  | case1 t hle hnone =>
    rw [prevFrom, if_pos hle]
    split
    · next h => cases (move_stop hnone).symm.trans h
    · rfl
    · next h => cases (move_stop hnone).symm.trans h
    · next h => cases (move_stop hnone).symm.trans h
  | case2 t hle hnone =>
    rw [prevFrom, if_pos hle]
    split
    · next h => cases (move_end hnone).symm.trans h
    · next h => cases (move_end hnone).symm.trans h
    · rfl
    · next h => cases (move_end hnone).symm.trans h
  | case3 t hle t' hmove ih =>
    obtain ⟨hlt, hmod⟩ := CronExpr.backward_lt hmove
    have hfar := le_backward hwhole hmove
    have hon := move_on hmove ⟨by omega, by omega⟩
    rw [prevFrom, if_pos hle]
    split
    · next h => cases hon.symm.trans h
    · next h => cases hon.symm.trans h
    · next h => cases hon.symm.trans h
    · next u h =>
        cases hon.symm.trans h
        exact ih (by omega) (hmod.trans hwhole)
  | case4 t hgt => rw [prevFrom, if_neg hgt]

theorem lt_truncate : t - 60000000000 < c.truncate t := by
  rw [CronExpr.truncate_eq]
  rcases c.granularity_eq with heq | heq
  · rw [heq]
    omega
  · rw [heq]
    omega

theorem nextAfter_eq (hlo : 788918400000000000 ≤ t) (hhi : t < 32535216000000000000) :
    nextAfter c t = .ok (c.nextAfter t) := by
  have hlt := lt_truncate (c := c) (t := t)
  have hsum : add t CronExpr.horizon = .ok (t + CronExpr.horizon) := by
    refine add_of_inCalendar ⟨?_, ?_⟩
    · unfold dateTimeMin CronExpr.horizon
      omega
    · unfold dateTimeMax CronExpr.horizon
      omega
  rw [nextAfter, hsum]
  refine nextFrom_eq ?_ ?_ CronExpr.truncate_mod
  · unfold dateTimeMin
    omega
  · unfold dateTimeMax CronExpr.horizon
    omega

theorem prevBefore_eq (h : Era t) : prevBefore c t = .ok (c.prevBefore t) := by
  obtain ⟨hlo, hhi⟩ := h
  have hle := CronExpr.truncate_le (c := c) (t := t)
  have hsum : add t (-CronExpr.horizon) = .ok (t - CronExpr.horizon) := by
    refine add_of_inCalendar ⟨?_, ?_⟩
    · unfold dateTimeMin CronExpr.horizon
      omega
    · unfold dateTimeMax CronExpr.horizon
      omega
  rw [prevBefore, hsum]
  refine prevFrom_eq ?_ ?_ CronExpr.truncate_mod
  · unfold dateTimeMax
    omega
  · unfold dateTimeMin CronExpr.horizon
    omega

theorem nextAfter_bounds (h : c.nextAfter t = some t') :
    t - 60000000000 < t' ∧ t' ≤ t + CronExpr.horizon := by
  have hwindow := (CronExpr.nextFrom_exact (c := c) (t + CronExpr.horizon)
    (CronExpr.truncate_mod (c := c) (t := t))).1 t' h
  exact ⟨Int.lt_of_lt_of_le lt_truncate hwindow.1.2.1, hwindow.1.2.2⟩

theorem prevBefore_bounds (h : c.prevBefore t = some t') :
    t - CronExpr.horizon ≤ t' ∧ t' ≤ c.truncate t :=
  ⟨CronExpr.le_prevFrom h, (CronExpr.prevFrom_eq_some h).2.1⟩

end

/-! ## The scheduler -/

open Scheduler

section

variable {π α : Type}

def scheduleNextOccurrence (s : Scheduler π α) (id : Nat) (after : Int) :
    Except Panic (Scheduler π α) :=
  match s.contacts[id]? with
  | none => .ok s
  | some mc =>
    match mc.contact.schedule with
    | .recurring cron duration untilTime => do
        match ← nextAfter cron after with
        | none => .ok s
        | some nextStart =>
          if untilTime.any (· ≤ nextStart) then .ok s
          else do
            let nextEnd ← add nextStart duration
            .ok ((s.insertEvent nextStart .activate id).insertEvent nextEnd .deactivate id)
    | _ => .ok s

def activeNow (cron : CronExpr) (duration : Nat) (untilTime : Option Int) (now : Int) :
    Except Panic (Option Int) := do
  match ← prevBefore cron now with
  | none => .ok none
  | some prevStart => do
      let prevEnd ← add prevStart duration
      .ok (if now < prevEnd && untilTime.all (prevStart < ·) then some prevEnd else none)

variable [DecidableEq π] [DecidableEq α]

/-- Only a contact that recurs has anything added. -/
def ingest (s : Scheduler π α) (source : String) (contact : Contact π α) (defaultPriority : Nat)
    (now : Int) : Except Panic (Scheduler π α × Ingested π α) :=
  match contact.schedule with
  | .recurring cron duration untilTime => do
      let mc := ⟨contact, resolvePriority contact defaultPriority, false⟩
      let id := s.nextId
      let s := { s with nextId := s.nextId + 1 }
      let active ← activeNow cron duration untilTime now
      let s := s.keep source id mc
      match active with
      | some finish =>
        let (s, op) := (s.insertEvent finish .deactivate id).activateContact id
        .ok (s, ⟨true, true, op⟩)
      | none => do
          let s ← scheduleNextOccurrence s id now
          .ok (s, ⟨true, false, none⟩)
  | _ => .ok (s.ingest source contact defaultPriority now)

def ingestAll (source : String) (defaultPriority : Nat) (now : Int) :
    Scheduler π α → List (Contact π α) → Except Panic (Scheduler π α × List (Ingested π α))
  | s, [] => .ok (s, [])
  | s, c :: cs => do
      let (s, r) ← ingest s source c defaultPriority now
      let (s, rs) ← ingestAll source defaultPriority now s cs
      .ok (s, r :: rs)

def handleAdd (s : Scheduler π α) (source : String) (contacts : List (Contact π α))
    (defaultPriority : Nat) (now : Int) :
    Except Panic (Scheduler π α × AddResult × List (PendingRouteOp π α)) := do
  let (s, rs) ← ingestAll source defaultPriority now s contacts
  .ok (s, ⟨rs.countP (·.added), rs.countP fun r => r.added && r.active, rs.countP (!·.added)⟩,
    rs.filterMap (·.op))

def handleReplace [HashOrder] (s : Scheduler π α) (source : String) (contacts : List (Contact π α))
    (defaultPriority : Nat) (now : Int) :
    Except Panic (Scheduler π α × ReplaceResult × List (PendingRouteOp π α)) := do
  let old := s.oldContacts source
  let kept := fun p : Nat × Contact π α => contacts.any (contactsMatch · p.2)
  let toRemove := (old.filter fun p => !kept p).map Prod.fst
  let toAdd := contacts.filter fun c => !old.any fun p => contactsMatch c p.2
  let (s, ops) := s.removeAll toRemove
  let (s, rs) ← ingestAll source defaultPriority now (s.dropIds source toRemove) toAdd
  .ok (s, ⟨rs.countP (·.added), toRemove.length, old.countP kept⟩, ops ++ rs.filterMap (·.op))

def handleEvent (s : Scheduler π α) (e : Event) :
    Except Panic (Scheduler π α × List (PendingRouteOp π α)) :=
  match e.kind with
  | .activate =>
    let (s, op) := s.activateContact e.contactId
    .ok (s, op.toList)
  | .deactivate => do
      let (s, op) := s.deactivateContact e.contactId
      let s ← scheduleNextOccurrence s e.contactId e.time
      .ok (s, op.toList)

/-- One turn of `process_due_events`. -/
def dueStep (now : Int) (s : Scheduler π α) :
    Except Panic (Option (Scheduler π α × List (PendingRouteOp π α))) :=
  match s.timeline.first with
  | none => .ok none
  | some e =>
    if now < e.time then .ok none
    else (handleEvent { s with timeline := s.timeline.popFirst } e).map some

/-- What the core loop does at a time if it does not panic, for a command or an event that
is due. -/
inductive Step [HashOrder] : Scheduler π α → Command π α × Int → Scheduler π α → Prop where
  | add {s t : Scheduler π α} {r : AddResult × List (PendingRouteOp π α)} (source : String)
      (contacts : List (Contact π α)) (defaultPriority : Nat) (now : Int) :
      handleAdd s source contacts defaultPriority now = .ok (t, r) →
      Step s (.add source contacts defaultPriority, now) t
  | remove {s : Scheduler π α} (source : String) (contacts : List (Contact π α)) (now : Int) :
      Step s (.remove source contacts, now) (s.handleRemove source contacts).1
  | replace {s t : Scheduler π α} {r : ReplaceResult × List (PendingRouteOp π α)}
      (source : String) (contacts : List (Contact π α)) (defaultPriority : Nat) (now : Int) :
      handleReplace s source contacts defaultPriority now = .ok (t, r) →
      Step s (.replace source contacts defaultPriority, now) t
  | withdrawAll {s : Scheduler π α} (source : String) (now : Int) :
      Step s (.withdrawAll source, now) (s.withdrawSource source).1
  | due {s t : Scheduler π α} {ops : List (PendingRouteOp π α)} (now : Int) :
      dueStep now s = .ok (some (t, ops)) → Step s (.due, now) t

/-- The core loop at the times of the years 2000 to 3000, from a state on. -/
def machineFrom [HashOrder] (s : Scheduler π α) : Machine (Scheduler π α) (Command π α × Int) where
  start t := t = s
  step t l u := Era l.2 ∧ Step t l u

end

/-! ## Sums that have a date -/

end Checked

/-- The sums that are made of a contact's schedule when it is ingested have a date: that
of the last occurrence, or else that of the next one if it is not too late. -/
def Schedule.Fits (now : Int) : Schedule → Prop
  | .recurring cron duration untilTime =>
    match cron.prevBefore now with
    | some prevStart => prevStart + duration ≤ dateTimeMax
    | none => ∀ nextStart, cron.nextAfter now = some nextStart →
        untilTime.any (· ≤ nextStart) = false → nextStart + duration ≤ dateTimeMax
  | _ => True

namespace Checked

open Scheduler

section

variable {π α : Type} {s t : Scheduler π α} {id : Nat} {cron : CronExpr} {duration : Nat}
  {untilTime : Option Int} {now after : Int}

def Dated (_ : CronExpr) (_ : Nat) (_ : Option Int) (time : Int) : Prop := time ≤ dateTimeMax

theorem scheduleNextOccurrence_ok
    (h : ∀ cron duration untilTime, s.Recurs id cron duration untilTime →
      788918400000000000 ≤ after ∧ after < 32535216000000000000) :
    scheduleNextOccurrence s id after = .ok t ↔ t = s.scheduleNextOccurrence id after ∧
      ∀ cron duration untilTime, s.Recurs id cron duration untilTime →
        Next Dated cron duration untilTime after := by
  unfold scheduleNextOccurrence Scheduler.scheduleNextOccurrence
  rcases hmc : s.contacts[id]? with _ | mc
  · dsimp only
    refine ⟨fun h => ⟨(Except.ok.inj h).symm, ?_⟩, fun h => congrArg _ h.1.symm⟩
    rintro _ _ _ ⟨mc, hmc', -⟩
    cases hmc.symm.trans hmc'
  · have hr : ∀ cron duration untilTime, s.Recurs id cron duration untilTime →
        mc.contact.schedule = .recurring cron duration untilTime := by
      rintro _ _ _ ⟨mc', hmc', hsched⟩
      cases hmc.symm.trans hmc'
      exact hsched
    have honce : (∀ cron duration untilTime,
        mc.contact.schedule ≠ .recurring cron duration untilTime) →
          ((Except.ok s : Except Panic (Scheduler π α)) = .ok t ↔ t = s ∧ ∀ cron duration untilTime,
            s.Recurs id cron duration untilTime → Next Dated cron duration untilTime after) := by
      intro hne
      refine ⟨fun h => ⟨(Except.ok.inj h).symm, fun _ _ _ hr' => ?_⟩, fun h => congrArg _ h.1.symm⟩
      exact absurd (hr _ _ _ hr') (hne _ _ _)
    dsimp only
    rcases hsched : mc.contact.schedule with _ | ⟨start, finish⟩ | ⟨cron, duration, untilTime⟩
    · exact honce fun _ _ _ h => (by cases hsched.symm.trans h)
    · exact honce fun _ _ _ h => (by cases hsched.symm.trans h)
    · dsimp only
      have hfits : (∀ cron duration untilTime, s.Recurs id cron duration untilTime →
          Next Dated cron duration untilTime after) ↔ Next Dated cron duration untilTime after := by
        refine ⟨fun h => h _ _ _ ⟨mc, hmc, hsched⟩, fun h _ _ _ hr' => ?_⟩
        cases hsched.symm.trans (hr _ _ _ hr')
        exact h
      obtain ⟨hlo, hhi⟩ := h cron duration untilTime ⟨mc, hmc, hsched⟩
      rw [nextAfter_eq hlo hhi, hfits]
      change (match cron.nextAfter after with | none => _ | some nextStart => _) = _ ↔ _
      rcases hnext : cron.nextAfter after with _ | nextStart
      · refine ⟨fun h => ⟨(Except.ok.inj h).symm, fun _ h' => ?_⟩, fun h => congrArg _ h.1.symm⟩
        cases hnext.symm.trans h'
      · dsimp only
        by_cases huntil : untilTime.any (· ≤ nextStart)
        · rw [if_pos huntil, if_pos huntil]
          refine ⟨fun h => ⟨(Except.ok.inj h).symm, fun _ h' hno => ?_⟩,
            fun h => congrArg _ h.1.symm⟩
          cases hnext.symm.trans h'
          cases huntil.symm.trans hno
        · rw [if_neg huntil, if_neg huntil, Fold.bind_ok]
          obtain ⟨hstart, -⟩ := nextAfter_bounds hnext
          constructor
          · rintro ⟨nextEnd, hsum, h⟩
            obtain ⟨hin, rfl⟩ := add_ok.mp hsum
            refine ⟨(Except.ok.inj h).symm, fun _ h' _ => ?_⟩
            cases hnext.symm.trans h'
            exact hin.2
          · rintro ⟨rfl, h⟩
            have hin : InCalendar (nextStart + duration) := by
              refine ⟨?_, h nextStart hnext (eq_false_of_ne_true huntil)⟩
              unfold dateTimeMin
              omega
            exact ⟨_, add_of_inCalendar hin, rfl⟩

theorem activeNow_ok (hnow : Era now) {r : Option Int} :
    activeNow cron duration untilTime now = .ok r ↔
      r = Scheduler.activeNow cron duration untilTime now ∧
        ∀ prevStart, cron.prevBefore now = some prevStart → prevStart + duration ≤ dateTimeMax := by
  unfold activeNow Scheduler.activeNow
  rw [prevBefore_eq hnow]
  change (match cron.prevBefore now with | none => _ | some prevStart => _) = _ ↔ _
  rcases hprev : cron.prevBefore now with _ | prevStart
  · exact ⟨fun h => ⟨(Except.ok.inj h).symm, nofun⟩,
      fun h => congrArg _ h.1.symm⟩
  · obtain ⟨hstart, -⟩ := prevBefore_bounds hprev
    dsimp only
    rw [Fold.bind_ok]
    constructor
    · rintro ⟨prevEnd, hsum, h⟩
      obtain ⟨hin, rfl⟩ := add_ok.mp hsum
      refine ⟨(Except.ok.inj h).symm, fun _ h' => ?_⟩
      cases h'
      exact hin.2
    · rintro ⟨rfl, h⟩
      have hin : InCalendar (prevStart + duration) := by
        refine ⟨?_, h prevStart rfl⟩
        have hlo := hnow.1
        unfold CronExpr.horizon at hstart
        unfold dateTimeMin
        omega
      exact ⟨_, add_of_inCalendar hin, rfl⟩

theorem fits_iff (hnow : Era now) : (Schedule.recurring cron duration untilTime).Fits now ↔
    (∀ prevStart, cron.prevBefore now = some prevStart → prevStart + duration ≤ dateTimeMax) ∧
      (Scheduler.activeNow cron duration untilTime now = none →
        Next Dated cron duration untilTime now) := by
  unfold Schedule.Fits Scheduler.activeNow
  dsimp only
  rcases hprev : cron.prevBefore now with _ | prevStart
  · exact ⟨fun h => ⟨nofun, fun _ => h⟩, fun h => h.2 rfl⟩
  · dsimp only
    refine ⟨fun h => ⟨fun _ h' => Option.some.inj h' ▸ h, fun hover nextStart hnext huntil => ?_⟩,
      fun h => h.1 prevStart rfl⟩
    obtain ⟨hfrom, hto⟩ := prevBefore_bounds hprev
    have hto' := (CronExpr.nextAfter_eq_some hnext).2
    have hfar := (nextAfter_bounds hnext).2
    rw [ite_eq_right_iff] at hover
    change nextStart + duration ≤ dateTimeMax
    by_cases hlate : untilTime.all (prevStart < ·)
    · -- the occurrence is over, so it is as short as the search goes back
      have hshort : prevStart + duration ≤ now := by
        by_contra hlong
        cases hover (by rw [hlate, decide_eq_true (Int.not_le.mp hlong)]; rfl)
      have hhi := hnow.2
      unfold CronExpr.horizon at hfrom hfar
      unfold dateTimeMax
      omega
    · -- the bound is before it, so the next one is not scheduled
      exfalso
      rcases untilTime with _ | bound
      · exact hlate rfl
      · rw [Option.all_some, decide_eq_true_eq] at hlate
        rw [Option.any_some, decide_eq_false_iff_not] at huntil
        omega

end

section

variable {π α : Type} [DecidableEq π] [DecidableEq α] {s t : Scheduler π α} {now : Int}
  {source : String} {contact : Contact π α} {defaultPriority : Nat}

theorem ingest_ok (hnow : Era now) {r : Scheduler π α × Ingested π α} :
    ingest s source contact defaultPriority now = .ok r ↔
      r = s.ingest source contact defaultPriority now ∧ contact.schedule.Fits now := by
  have hnow' : 788918400000000000 ≤ now := by
    have hlo := hnow.1
    omega
  unfold ingest
  rcases hsched : contact.schedule with _ | ⟨start, finish⟩ | ⟨cron, duration, untilTime⟩
  · exact ⟨fun h => ⟨(Except.ok.inj h).symm, trivial⟩, fun h => congrArg _ h.1.symm⟩
  · exact ⟨fun h => ⟨(Except.ok.inj h).symm, trivial⟩, fun h => congrArg _ h.1.symm⟩
  · rw [fits_iff hnow]
    unfold Scheduler.ingest
    simp only [hsched]
    rw [Fold.bind_ok]
    simp only [activeNow_ok hnow]
    rcases hactive : Scheduler.activeNow cron duration untilTime now with _ | finish
    · have hr : ∀ cron' duration' untilTime', Recurs ({ s with nextId := s.nextId + 1 }.keep source
          s.nextId ⟨contact, resolvePriority contact defaultPriority, false⟩) s.nextId cron'
          duration' untilTime' ↔ contact.schedule = .recurring cron' duration' untilTime' :=
        fun _ _ _ => recurs_keep source
      have hnext : (∀ cron' duration' untilTime', Recurs ({ s with nextId := s.nextId + 1 }.keep
          source s.nextId ⟨contact, resolvePriority contact defaultPriority, false⟩) s.nextId cron'
          duration' untilTime' → Next Dated cron' duration' untilTime' now) ↔
            Next Dated cron duration untilTime now := by
        refine ⟨fun h => h _ _ _ ((hr _ _ _).mpr hsched), fun h _ _ _ hr' => ?_⟩
        cases hsched.symm.trans ((hr _ _ _).mp hr')
        exact h
      constructor
      · rintro ⟨_, ⟨rfl, hprev⟩, h⟩
        obtain ⟨u, hu, h⟩ := Fold.bind_ok.mp h
        obtain ⟨rfl, hfits⟩ := (scheduleNextOccurrence_ok fun _ _ _ _ => ⟨hnow', hnow.2⟩).mp hu
        exact ⟨(Except.ok.inj h).symm, hprev, fun _ => hnext.mp hfits⟩
      · rintro ⟨rfl, hprev, hfits⟩
        refine ⟨none, ⟨rfl, hprev⟩, Fold.bind_ok.mpr ⟨_, ?_, rfl⟩⟩
        exact (scheduleNextOccurrence_ok fun _ _ _ _ => ⟨hnow', hnow.2⟩).mpr
          ⟨rfl, hnext.mpr (hfits rfl)⟩
    · constructor
      · rintro ⟨_, ⟨rfl, hprev⟩, h⟩
        exact ⟨(Except.ok.inj h).symm, hprev, fun h' => (by cases h')⟩
      · rintro ⟨rfl, hprev, -⟩
        exact ⟨some finish, ⟨rfl, hprev⟩, rfl⟩

/-! ## Due events -/

def Since (_ : CronExpr) (duration : Nat) (_ : Option Int) (time : Int) : Prop :=
  788918400000000000 ≤ time - duration

/-- Every deactivation of a contact that recurs is of an occurrence from 1995 on. -/
abbrev Kept (s : Scheduler π α) : Prop := Stamped Since s

theorem next_since {cron : CronExpr} {duration : Nat} {untilTime : Option Int} {after : Int}
    (h : 788918400000000000 ≤ after) : Next Since cron duration untilTime after := by
  intro nextStart hnext _
  have hle := (CronExpr.nextAfter_eq_some hnext).2
  rw [CronExpr.truncate_eq] at hle
  unfold Since
  rcases cron.granularity_eq with heq | heq
  · rw [heq] at hle
    omega
  · rw [heq] at hle
    omega

theorem next_dated {cron : CronExpr} {duration : Nat} {untilTime : Option Int} {time : Int}
    (h : Since cron duration untilTime time) (hlt : time < 32535216000000000000) :
    Next Dated cron duration untilTime time := by
  intro nextStart hnext _
  obtain ⟨-, hhi⟩ := nextAfter_bounds hnext
  unfold Since at h
  unfold CronExpr.horizon at hhi
  unfold Dated dateTimeMax
  omega

theorem Kept.ingest (hs : Kept s) (hnow : Era now) {r : Ingested π α}
    (h : ingest s source contact defaultPriority now = .ok (t, r)) : Kept t := by
  obtain ⟨heq, -⟩ := (ingest_ok hnow).mp h
  cases congrArg Prod.fst heq
  have hlo := hnow.1
  refine Stamped.ingest hs source contact defaultPriority now ?_ ?_
  · intro cron duration untilTime finish _ hfinish
    unfold Scheduler.activeNow at hfinish
    split at hfinish
    · cases hfinish
    · next prevStart hprev =>
        rw [Option.ite_none_right_eq_some] at hfinish
        obtain ⟨-, hfinish⟩ := hfinish
        cases hfinish
        obtain ⟨hfrom, -⟩ := prevBefore_bounds hprev
        unfold CronExpr.horizon at hfrom
        unfold Since
        omega
  · exact fun _ _ _ _ => next_since (by omega)

theorem dueStep_eq (hs : Kept s) (hnow : Era now) : dueStep now s = .ok (s.dueStep now) := by
  unfold dueStep Scheduler.dueStep
  rcases hfirst : s.timeline.first with _ | e
  · rfl
  · dsimp only
    by_cases hlt : now < e.time
    · rw [if_pos hlt, if_pos hlt]
    · rw [if_neg hlt, if_neg hlt]
      unfold handleEvent Scheduler.handleEvent
      rcases hk : e.kind with _ | _
      · have hsame : Same ({ s with timeline := s.timeline.popFirst } : Scheduler π α)
            (({ s with timeline := s.timeline.popFirst } : Scheduler π α).deactivateContact
              e.contactId).1 := deactivateContact_same
        have hsince : ∀ cron duration untilTime,
            (({ s with timeline := s.timeline.popFirst } : Scheduler π α).deactivateContact
              e.contactId).1.Recurs e.contactId cron duration untilTime →
              Since cron duration untilTime e.time := by
          intro cron duration untilTime hr
          exact hs.ends e (List.mem_of_mem_head? hfirst) hk cron duration untilTime
            ((hsame.recurs _ _ _ _).mp hr)
        have hdue : e.time < 32535216000000000000 := by
          have hhi := hnow.2
          omega
        have hlate : ∀ cron duration untilTime,
            (({ s with timeline := s.timeline.popFirst } : Scheduler π α).deactivateContact
              e.contactId).1.Recurs e.contactId cron duration untilTime →
              788918400000000000 ≤ e.time ∧ e.time < 32535216000000000000 := by
          intro cron duration untilTime hr
          have hfrom := hsince cron duration untilTime hr
          unfold Since at hfrom
          exact ⟨by omega, hdue⟩
        have hok := (scheduleNextOccurrence_ok hlate).mpr ⟨rfl, fun cron duration untilTime hr =>
          next_dated (hsince cron duration untilTime hr) hdue⟩
        dsimp only
        rw [hok]
        rfl
      · rfl

theorem Kept.dueStep (hs : Kept s) {ops : List (PendingRouteOp π α)}
    (h : s.dueStep now = some (t, ops)) : Kept t := by
  refine Stamped.dueStep hs (fun e he hk _ cron duration untilTime hr => ?_) h
  have hfrom := hs.ends e he hk cron duration untilTime hr
  unfold Since at hfrom
  exact next_since (by omega)

theorem Kept.ingestAll (hs : Kept s) (hnow : Era now) {contacts : List (Contact π α)}
    {rs : List (Ingested π α)}
    (h : ingestAll source defaultPriority now s contacts = .ok (t, rs)) : Kept t := by
  induction contacts generalizing s rs with
  | nil =>
    cases h
    exact hs
  | cons c cs ih =>
    obtain ⟨⟨u, r⟩, hu, h⟩ := Fold.bind_ok.mp h
    obtain ⟨⟨v, rs'⟩, hv, h⟩ := Fold.bind_ok.mp h
    cases h
    exact ih (hs.ingest hnow hu) hv

/-! ## Runs -/

variable [HashOrder]

theorem Kept.step (hs : Kept s) {l : Command π α × Int} (hnow : Era l.2) (h : Step s l t) :
    Kept t := by
  cases h with
  | add source contacts defaultPriority now hadd =>
    obtain ⟨⟨u, rs⟩, hu, hadd⟩ := Fold.bind_ok.mp hadd
    cases hadd
    exact hs.ingestAll hnow hu
  | remove source contacts now =>
    exact (removeAll_within.trans (within_sources _)).stamped hs
  | replace source contacts defaultPriority now hreplace =>
    obtain ⟨⟨u, rs⟩, hu, hreplace⟩ := Fold.bind_ok.mp hreplace
    cases hreplace
    exact Kept.ingestAll ((removeAll_within.trans (within_sources _)).stamped hs) hnow hu
  | withdrawAll source now => exact withdrawSource_within.stamped hs
  | due now hdue =>
    rw [dueStep_eq hs hnow] at hdue
    exact Kept.dueStep hs (Except.ok.inj hdue)

theorem Kept.run (hs : Kept s) (h : (machineFrom s).Reachable t) : Kept t := by
  refine h.invariant (I := Kept) ?_ ?_
  · rintro _ rfl
    exact hs
  · intro u l v hu hstep
    exact hu.step hstep.1 hstep.2

theorem kept_of_reachable (h : (machineFrom (new : Scheduler π α)).Reachable s) : Kept s :=
  Kept.run Stamped.new h

end

end Checked

end Hardy.Tvr
