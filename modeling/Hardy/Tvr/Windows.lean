import Hardy.Tvr.Replace
import Hardy.Tvr.Search

/-!
# Windows

What a schedule is for: when its contact is active (`Schedule.ActiveAt`).  The scheduler
follows it by two events at a time, so a contact goes through phases, and each phase knows
until when it is right (`Phase`).  A recurring contact is taken from the end of one
occurrence to the next one that the search finds (`Turn`), and the occurrences in between
are passed over.  So what is active is what should be where every occurrence that is passed
over ends in one that is not (`Regular`), in every run with such contacts.
-/

namespace Hardy.Tvr

open CronExpr

/-! ## What a schedule says -/

structure Served (c : CronExpr) (untilTime : Option Int) (s : Int) : Prop where
  hit : c.Occurrence s
  before : untilTime.any (· ≤ s) = false

/-- A contact that was added at a time is active at another.  A window with no start opens
when its contact is added. -/
def Schedule.ActiveAt (added : Int) : Schedule → Int → Prop
  | .permanent, _ => True
  | .oneShot start finish, t => start.getD added ≤ t ∧ ∀ f ∈ finish, t < f
  | .recurring c duration untilTime, t => ∃ s, Served c untilTime s ∧ s ≤ t ∧ t < s + duration

/-- The occurrences that a contact is taken through: the one that it is added in, or the
first after that, and then the first from the end of each on.  The grid of the expression
may put that before the end. -/
inductive Turn (c : CronExpr) (duration : Nat) (untilTime : Option Int) (added : Int) :
    Int → Prop where
  | ongoing {s : Int} : IsGreatest (c.window (added - horizon) added) s → Served c untilTime s →
      added < s + duration → Turn c duration untilTime added s
  | first {s : Int} : ¬ (Schedule.recurring c duration untilTime).ActiveAt added added →
      IsLeast (c.window (c.truncate added) (added + horizon)) s → Served c untilTime s →
      Turn c duration untilTime added s
  | next {r s : Int} : Turn c duration untilTime added r →
      IsLeast (c.window (c.truncate (r + duration)) (r + duration + horizon)) s →
      Served c untilTime s → Turn c duration untilTime added s

/-- Occurrences that the search tells apart (`long`), the one that is going on when the
contact is added is the last one up to then and is found (`found`), none is more than four
years from the end of the one before (`first`, `next`), and those that overlap one lead to
one at its end (`overlap`). -/
structure Regular (c : CronExpr) (duration : Nat) (untilTime : Option Int) (added : Int) :
    Prop where
  long : ∀ s, Served c untilTime s → added < s + c.granularity → c.granularity ≤ duration
  found : (Schedule.recurring c duration untilTime).ActiveAt added added →
    ∃ s, IsGreatest (c.window (added - horizon) added) s ∧ Served c untilTime s ∧ c.Clear s added
  first : ¬ (Schedule.recurring c duration untilTime).ActiveAt added added →
    ∀ s, Served c untilTime s → added ≤ s →
      (c.window (c.truncate added) (added + horizon)).Nonempty
  next : ∀ r, Turn c duration untilTime added r → ∀ s, Served c untilTime s → r + duration ≤ s →
    (c.window (c.truncate (r + duration)) (r + duration + horizon)).Nonempty
  overlap : ∀ r, Turn c duration untilTime added r → ∀ s, Served c untilTime s → r < s →
    s < r + duration → Served c untilTime (c.truncate (r + duration))

def Schedule.Regular (added : Int) : Schedule → Prop
  | .permanent => True
  | .oneShot start finish => ∀ s ∈ start, ∀ f ∈ finish, s < f
  | .recurring c duration untilTime => Tvr.Regular c duration untilTime added

section

variable {c : CronExpr} {duration : Nat} {untilTime : Option Int} {added e n s t : Int}

theorem nextAfter_isLeast (h : c.nextAfter t = some n) :
    IsLeast (c.window (c.truncate t) (t + horizon)) n :=
  (nextFrom_exact (t + horizon) truncate_mod).1 n h

theorem nextAfter_eq_none (h : c.nextAfter t = none) :
    c.window (c.truncate t) (t + horizon) = ∅ :=
  (nextFrom_exact (t + horizon) truncate_mod).2 h

theorem prevBefore_of_clear (h : IsGreatest (c.window (t - horizon) t) s) (hclear : c.Clear s t) :
    c.prevBefore t = some s := by
  refine (prevFrom_exact truncate_mod ?_).1 ?_
  · rwa [window_truncate]
  · rwa [Clear, DateTime.date_congr truncate_date, ← Clear]

theorem granularity_pos (c : CronExpr) : 0 < c.granularity := by
  rcases c.granularity_eq with heq | heq
  · rw [heq]
    decide
  · rw [heq]
    decide

theorem lt_truncate_add (c : CronExpr) (t : Int) : t < c.truncate t + c.granularity := by
  have hmod := Int.emod_lt_of_pos t (granularity_pos c)
  rw [truncate_eq]
  omega

theorem Turn.long (hc : Regular c duration untilTime added)
    (h : Turn c duration untilTime added s) : c.granularity ≤ duration ∧ added < s + duration := by
  have hpos := granularity_pos c
  induction h with
  | @ongoing s hs hserved hlt =>
    refine ⟨?_, hlt⟩
    by_cases hcell : added < s + c.granularity
    · exact hc.long s hserved hcell
    · omega
  | @first s hnot hs hserved =>
    have hle := hs.1.2.1
    have htrunc := lt_truncate_add c added
    have hlong := hc.long s hserved (by omega)
    exact ⟨hlong, by omega⟩
  | @next r s hr hs hserved ih =>
    obtain ⟨hlong, hlt⟩ := ih
    have hle := hs.1.2.1
    have htrunc := lt_truncate_add c (r + duration)
    exact ⟨hlong, by omega⟩

theorem not_active_until_next
    (hcover : ∀ s t, Served c untilTime s → t < s + duration → e ≤ t →
      e ≤ s ∨ Served c untilTime (c.truncate e))
    (hgap : ∀ s, Served c untilTime s → e ≤ s → (c.window (c.truncate e) (e + horizon)).Nonempty)
    (hle : e ≤ t)
    (hbefore : ∀ n, c.nextAfter e = some n → untilTime.any (· ≤ n) = false → t < n) :
    ¬ (Schedule.recurring c duration untilTime).ActiveAt added t := by
  rintro ⟨s, hserved, hs, ht⟩
  -- an occurrence from the grid of the end on, up to the time
  obtain ⟨u, hu, hlo, hhi⟩ : ∃ u, Served c untilTime u ∧ c.truncate e ≤ u ∧ u ≤ t := by
    rcases hcover s t hserved ht hle with hfrom | htrunc
    · exact ⟨s, hserved, truncate_le.trans hfrom, hs⟩
    · exact ⟨_, htrunc, Int.le_refl _, truncate_le.trans hle⟩
  have hnonempty : (c.window (c.truncate e) (e + horizon)).Nonempty := by
    rcases hcover s t hserved ht hle with hfrom | htrunc
    · exact hgap s hserved hfrom
    · refine ⟨_, htrunc.hit, Int.le_refl _, truncate_le.trans ?_⟩
      unfold horizon
      omega
  rcases hnext : c.nextAfter e with _ | n
  · exact hnonempty.ne_empty (nextAfter_eq_none hnext)
  · have hleast := nextAfter_isLeast hnext
    have hnu : n ≤ u := by
      by_contra hlt
      have hfar := hleast.1.2.2
      exact hlt (hleast.2 ⟨hu.hit, hlo, by omega⟩)
    have hserved' : untilTime.any (· ≤ n) = false := by
      have hbound := hu.before
      rcases untilTime with _ | b
      · rfl
      · rw [Option.any_some, decide_eq_false_iff_not] at hbound ⊢
        omega
    have hlt := hbefore n hnext hserved'
    omega

end

/-! ## Phases -/

/-- How far a contact has come, with whether it is active and its events.  From some time on
this is right until the next of its events. -/
inductive Phase (added : Int) : Schedule → Plan → Int → Prop where
  | permanent {since : Int} : Phase added .permanent ⟨true, []⟩ since
  | pending {start since : Int} {finish : Option Int} : (∀ f ∈ finish, start < f) →
      Phase added (.oneShot (some start) finish)
        ⟨false, (start, .activate) :: finish.toList.map (·, .deactivate)⟩ since
  | open {start finish : Option Int} {since : Int} : start.getD added ≤ since →
      Phase added (.oneShot start finish) ⟨true, finish.toList.map (·, .deactivate)⟩ since
  | closed {start : Option Int} {finish since : Int} : finish ≤ since →
      Phase added (.oneShot start (some finish)) ⟨false, []⟩ since
  | waiting {c : CronExpr} {duration : Nat} {untilTime : Option Int} {s since : Int} :
      Turn c duration untilTime added s →
      (∀ t, since ≤ t → t < s → ¬ (Schedule.recurring c duration untilTime).ActiveAt added t) →
      Phase added (.recurring c duration untilTime)
        ⟨false, [(s, .activate), (s + duration, .deactivate)]⟩ since
  | serving {c : CronExpr} {duration : Nat} {untilTime : Option Int} {s since : Int} :
      Turn c duration untilTime added s → s ≤ since →
      Phase added (.recurring c duration untilTime) ⟨true, [(s + duration, .deactivate)]⟩ since
  | ended {c : CronExpr} {duration : Nat} {untilTime : Option Int} {since : Int} :
      (∀ t, since ≤ t → ¬ (Schedule.recurring c duration untilTime).ActiveAt added t) →
      Phase added (.recurring c duration untilTime) ⟨false, []⟩ since

def Schedule.nextEvents (after : Int) : Schedule → List (Int × EventKind)
  | .recurring c duration untilTime => occurrenceEvents duration untilTime (c.nextAfter after)
  | _ => []

section

variable {sched : Schedule} {added since t : Int} {active : Bool} {events : List (Int × EventKind)}
  {c : CronExpr} {duration : Nat} {untilTime : Option Int}

theorem Turn.served {s : Int} (h : Turn c duration untilTime added s) : Served c untilTime s := by
  cases h with
  | ongoing _ hserved => exact hserved
  | first _ _ hserved => exact hserved
  | next _ _ hserved => exact hserved

theorem Phase.active_iff (h : Phase added sched ⟨active, events⟩ since) (hle : since ≤ t)
    (hlater : ∀ e ∈ events, t < e.1) : active = true ↔ sched.ActiveAt added t := by
  cases h with
  | permanent => exact iff_of_true rfl trivial
  | @pending start _ finish hfinish =>
    refine iff_of_false Bool.false_ne_true fun hactive => ?_
    exact Int.not_lt.mpr hactive.1 (hlater _ List.mem_cons_self)
  | @«open» start finish _ hstart =>
    refine iff_of_true rfl ⟨hstart.trans hle, fun f hf => ?_⟩
    cases hf
    exact hlater _ List.mem_cons_self
  | @closed start finish _ hfinish =>
    refine iff_of_false Bool.false_ne_true fun hactive => ?_
    exact Int.not_lt.mpr (hfinish.trans hle) (hactive.2 finish rfl)
  | waiting _ hidle =>
    exact iff_of_false Bool.false_ne_true (hidle t hle (hlater _ List.mem_cons_self))
  | @serving c duration untilTime s _ hturn hs =>
    exact iff_of_true rfl ⟨s, hturn.served, hs.trans hle, hlater _ List.mem_cons_self⟩
  | ended hidle => exact iff_of_false Bool.false_ne_true (hidle t hle)

theorem phase_next (hc : ∀ s, c.nextAfter t = some s → untilTime.any (· ≤ s) = false →
      Turn c duration untilTime added s)
    (hidle : ∀ u, t ≤ u → (∀ n, c.nextAfter t = some n → untilTime.any (· ≤ n) = false → u < n) →
      ¬ (Schedule.recurring c duration untilTime).ActiveAt added u) (hle : t ≤ since) :
    Phase added (.recurring c duration untilTime)
      ⟨false, (Schedule.recurring c duration untilTime).nextEvents t⟩ since := by
  unfold Schedule.nextEvents occurrenceEvents
  dsimp only
  rcases hnext : c.nextAfter t with _ | s
  · refine .ended fun u hu => hidle u (hle.trans hu) fun n hn => ?_
    cases hnext.symm.trans hn
  · dsimp only
    by_cases hover : untilTime.any (· ≤ s)
    · rw [if_pos hover]
      refine .ended fun u hu => hidle u (hle.trans hu) fun n hn hin => ?_
      cases hnext.symm.trans hn
      cases hover.symm.trans hin
    · rw [if_neg hover]
      refine .waiting (hc s hnext (eq_false_of_ne_true hover)) fun u hu hlt => ?_
      refine hidle u (hle.trans hu) fun n hn _ => ?_
      cases hnext.symm.trans hn
      exact hlt

theorem Phase.activate (h : Phase added sched ⟨active, events⟩ since)
    (hmem : (t, .activate) ∈ events) : ∃ rest,
      (∀ e, e ∈ rest ↔ e ∈ events ∧ e ≠ (t, .activate)) ∧
        Phase added sched ⟨true, rest⟩ (max since t) := by
  cases h with
  | permanent => cases hmem
  | @pending start _ finish hfinish =>
    have heq : t = start := by simpa using hmem
    subst heq
    refine ⟨finish.toList.map (·, .deactivate), fun e => ?_, .open (Int.le_max_right _ _)⟩
    cases finish <;> aesop
  | @«open» start finish _ hstart => simp at hmem
  | closed => cases hmem
  | @waiting c duration untilTime s _ hturn hidle =>
    have heq : t = s := by simpa using hmem
    subst heq
    refine ⟨[(t + duration, .deactivate)], fun e => ?_, .serving hturn (Int.le_max_right _ _)⟩
    aesop
  | serving => simp at hmem
  | ended => cases hmem

theorem Phase.deactivate (h : Phase added sched ⟨active, events⟩ since)
    (hgood : sched.Regular added) (hmem : (t, .deactivate) ∈ events)
    (hfirst : ∀ e ∈ events, t ≤ e.1) :
    (∀ e ∈ events, e = (t, .deactivate)) ∧
      Phase added sched ⟨false, sched.nextEvents t⟩ (max since t) := by
  cases h with
  | permanent => cases hmem
  | @pending start _ finish hfinish =>
    have hlt : start < t := by
      refine hfinish t ?_
      cases finish <;> simp_all
    exact absurd (hfirst _ List.mem_cons_self) (Int.not_le.mpr hlt)
  | @«open» start finish _ hstart =>
    have heq : finish = some t := by
      cases finish <;> simp_all
    subst heq
    exact ⟨by simp, .closed (Int.le_max_right _ _)⟩
  | closed => cases hmem
  | @waiting c duration untilTime s _ hturn hidle =>
    have heq : t = s + duration := by simpa using hmem
    have hpos := (hturn.long hgood).1
    have hle := hfirst _ List.mem_cons_self
    have := granularity_pos c
    dsimp only at hle
    omega
  | @serving c duration untilTime s _ hturn hs =>
    have heq : t = s + duration := by simpa using hmem
    subst heq
    refine ⟨by simp, phase_next ?_ ?_ (Int.le_max_right _ _)⟩
    · intro n hn hin
      have hleast := nextAfter_isLeast hn
      exact .next hturn hleast ⟨hleast.1.1, hin⟩
    · intro u hu hbefore
      refine not_active_until_next ?_ (hgood.next s hturn) hu hbefore
      intro r v hr hv hle
      by_cases hfrom : s + duration ≤ r
      · exact .inl hfrom
      · exact .inr (hgood.overlap s hturn r hr (by omega) (by omega))
  | ended => cases hmem

theorem activeNow_eq_some {now finish : Int} :
    Scheduler.activeNow c duration untilTime now = some finish ↔ ∃ s, c.prevBefore now = some s ∧
      now < s + duration ∧ untilTime.any (· ≤ s) = false ∧ finish = s + duration := by
  have hbound : ∀ s, untilTime.all (s < ·) = true ↔ untilTime.any (· ≤ s) = false := by
    intro s
    rcases untilTime with _ | b
    · exact iff_of_true rfl rfl
    · rw [Option.all_some, Option.any_some, decide_eq_true_eq, decide_eq_false_iff_not, Int.not_le]
  unfold Scheduler.activeNow
  rcases c.prevBefore now with _ | s
  · exact iff_of_false nofun fun ⟨_, h, _⟩ => by cases h
  · dsimp only
    rw [Option.ite_none_right_eq_some, Bool.and_eq_true, decide_eq_true_eq, hbound]
    constructor
    · rintro ⟨⟨hlt, hin⟩, ⟨⟩⟩
      exact ⟨s, rfl, hlt, hin, rfl⟩
    · rintro ⟨_, ⟨⟩, hlt, hin, rfl⟩
      exact ⟨⟨hlt, hin⟩, rfl⟩

theorem Regular.activeNow_iff (hgood : Regular c duration untilTime added) :
    (∃ finish, Scheduler.activeNow c duration untilTime added = some finish) ↔
      (Schedule.recurring c duration untilTime).ActiveAt added added := by
  constructor
  · rintro ⟨finish, h⟩
    obtain ⟨s, hs, hlt, hin, rfl⟩ := activeNow_eq_some.mp h
    obtain ⟨hmatches, hle, hmod⟩ := prevFrom_eq_some hs
    exact ⟨s, ⟨⟨hmatches, hmod.trans truncate_mod⟩, hin⟩, hle.trans truncate_le, hlt⟩
  · intro hactive
    obtain ⟨q, hq, hserved, hclear⟩ := hgood.found hactive
    obtain ⟨s, hs, hle, hlt⟩ := hactive
    have hsq : s ≤ q := by
      by_contra hgt
      have hfrom := hq.1.2.1
      exact hgt (hq.2 ⟨hs.hit, by omega, hle⟩)
    exact ⟨_, activeNow_eq_some.mpr
      ⟨q, prevBefore_of_clear hq hclear, by omega, hserved.before, rfl⟩⟩

theorem Regular.not_activeAt (hgood : Regular c duration untilTime added)
    (hnow : Scheduler.activeNow c duration untilTime added = none) :
    ¬ (Schedule.recurring c duration untilTime).ActiveAt added added := by
  rw [← hgood.activeNow_iff, hnow]
  rintro ⟨_, h⟩
  cases h

theorem phase_plan {p : Plan} (hgood : sched.Regular added) (hp : sched.plan added = some p) :
    Phase added sched p added := by
  rcases sched with _ | ⟨start, finish⟩ | ⟨c, duration, untilTime⟩
  · cases hp
    exact .permanent
  · unfold Schedule.plan at hp
    dsimp only at hp
    split at hp
    · cases hp
    · split at hp
      · next hstart =>
          cases hp
          exact .open hstart
      · next hstart =>
          cases hp
          cases start with
          | none => exact absurd (Int.le_refl added) hstart
          | some start => exact .pending fun f hf => hgood start rfl f hf
  · unfold Schedule.plan at hp
    dsimp only at hp
    rcases hnow : Scheduler.activeNow c duration untilTime added with _ | finish
    · rw [hnow] at hp
      cases hp
      have hnot := Regular.not_activeAt hgood hnow
      refine phase_next ?_ ?_ (Int.le_refl added)
      · intro n hn hin
        have hleast := nextAfter_isLeast hn
        exact .first hnot hleast ⟨hleast.1.1, hin⟩
      · intro u hu hbefore
        refine not_active_until_next ?_ (hgood.first hnot) hu hbefore
        intro s v hs hv hle
        by_contra hcover
        have hlt : s < added := Int.not_le.mp fun h => hcover (.inl h)
        exact hnot ⟨s, hs, Int.le_of_lt hlt, by omega⟩
    · rw [hnow] at hp
      cases hp
      obtain ⟨q, hq, hserved, hclear⟩ := hgood.found ((Regular.activeNow_iff hgood).mp ⟨_, hnow⟩)
      obtain ⟨s, hs, hlt, hin, rfl⟩ := activeNow_eq_some.mp hnow
      cases hs.symm.trans (prevBefore_of_clear hq hclear)
      exact .serving (.ongoing hq hserved hlt) hq.1.2.2

theorem plan_later {p : Plan} (hgood : sched.Regular added) (hp : sched.plan added = some p) :
    ∀ e ∈ p.events, added < e.1 := by
  have hfinish : ∀ finish : Option Int, ¬ finish.any (· ≤ added) →
      ∀ e ∈ finish.toList.map (·, EventKind.deactivate), added < e.1 := by
    intro finish hover e he
    cases finish with
    | none => cases he
    | some f =>
      cases List.mem_singleton.mp he
      simpa using hover
  rcases sched with _ | ⟨start, finish⟩ | ⟨c, duration, untilTime⟩
  · cases hp
    exact fun _ he => by cases he
  · unfold Schedule.plan at hp
    dsimp only at hp
    split at hp
    · cases hp
    · next hover =>
        split at hp
        · cases hp
          exact hfinish finish hover
        · next hstart =>
            cases hp
            exact List.forall_mem_cons.mpr ⟨Int.not_le.mp hstart, hfinish finish hover⟩
  · unfold Schedule.plan at hp
    dsimp only at hp
    rcases hnow : Scheduler.activeNow c duration untilTime added with _ | finish
    · rw [hnow] at hp
      cases hp
      have hnot := Regular.not_activeAt hgood hnow
      unfold occurrenceEvents
      rcases hnext : c.nextAfter added with _ | n
      · exact fun _ he => by cases he
      · dsimp only
        split
        · exact fun _ he => by cases he
        · next hin =>
            have hleast := nextAfter_isLeast hnext
            have hserved : Served c untilTime n := ⟨hleast.1.1, eq_false_of_ne_true hin⟩
            have hlt : added < n := by
              by_contra hle
              have htrunc := lt_truncate_add c added
              have hlo := hleast.1.2.1
              have hlong := hgood.long n hserved (by omega)
              exact hnot ⟨n, hserved, Int.not_lt.mp hle, by omega⟩
            intro e he
            rcases List.mem_cons.mp he with rfl | he
            · exact hlt
            · cases List.mem_singleton.mp he
              dsimp only
              omega
    · rw [hnow] at hp
      cases hp
      obtain ⟨s, -, hlt, -, rfl⟩ := activeNow_eq_some.mp hnow
      intro e he
      cases List.mem_singleton.mp he
      exact hlt

theorem not_active_of_plan (hp : sched.plan added = none) (hle : added ≤ t) :
    ¬ sched.ActiveAt added t := by
  rcases sched with _ | ⟨start, finish⟩ | ⟨c, duration, untilTime⟩
  · cases hp
  · unfold Schedule.plan at hp
    dsimp only at hp
    split at hp
    · next hover =>
        rintro ⟨-, hfinish⟩
        cases finish with
        | none => cases hover
        | some f =>
          have hlt := hfinish f rfl
          rw [Option.any_some, decide_eq_true_eq] at hover
          omega
    · split at hp
      · cases hp
      · cases hp
  · unfold Schedule.plan at hp
    dsimp only at hp
    split at hp
    · cases hp
    · cases hp

end

/-! ## Runs -/

/-- The scheduler with what was added under each id and when, the time of the last step,
and the id that it has added if it did not process events. -/
structure Run (π α : Type) where
  scheduler : Scheduler π α
  log : Nat → Option (Contact π α × Int)
  clock : Int
  latest : Option Nat

inductive Input (π α : Type) where
  | ingest (source : String) (contact : Contact π α) (defaultPriority : Nat)
  | due

namespace Run

variable {π α : Type} [DecidableEq π] [DecidableEq α]

/-- Contacts are added and due events processed at times that do not go back. -/
inductive Step : Run π α → Input π α × Int → Run π α → Prop where
  | ingest {r : Run π α} (source : String) (contact : Contact π α) (defaultPriority : Nat)
      (now : Int) : r.clock ≤ now → Step r (.ingest source contact defaultPriority, now)
        ⟨(r.scheduler.ingest source contact defaultPriority now).1,
          Function.update r.log r.scheduler.nextId (some (contact, now)), now,
          some r.scheduler.nextId⟩
  | due {r : Run π α} {t : Scheduler π α} {fuel : Nat} {ops : List (PendingRouteOp π α)}
      (now : Int) : r.clock ≤ now → r.scheduler.processDueEvents fuel now = some (t, ops) →
        Step r (.due, now) ⟨t, r.log, now, none⟩

def machine : Machine (Run π α) (Input π α × Int) where
  start r := r.scheduler = .new ∧ r.log = fun _ => none
  step := Step

def IsActive (s : Scheduler π α) (id : Nat) : Prop :=
  ∃ mc, s.contacts[id]? = some mc ∧ mc.active = true

def Settled (s : Scheduler π α) (now : Int) (id : Nat) : Prop :=
  ∀ e ∈ s.timeline.events, e.contactId = id → now < e.time

/-- After due events are processed every contact is active exactly in its window, and after
a contact is added it is, as are the others that no event is due of. -/
def Exact (r : Run π α) : Prop :=
  ∀ id contact added, r.log id = some (contact, added) →
    (r.latest = none ∨ r.latest = some id ∨ Settled r.scheduler r.clock id) →
      (IsActive r.scheduler id ↔ contact.schedule.ActiveAt added r.clock)

def Regular (_ : Run π α) : Input π α × Int → Prop
  | (.ingest _ contact _, now) => contact.schedule.Regular now
  | (.due, _) => True

/-- A contact is in a phase that is right by now, or it was over when it was added. -/
inductive Tracked (s : Scheduler π α) (now : Int) (id : Nat) (contact : Contact π α) (added : Int) :
    Prop where
  | held {mc : ManagedContact π α} {events : List (Int × EventKind)} {since : Int} :
      s.contacts[id]? = some mc → mc.contact = contact →
      (∀ time kind, ⟨time, kind, id⟩ ∈ s.timeline.events ↔ (time, kind) ∈ events) →
      since ≤ now → Phase added contact.schedule ⟨mc.active, events⟩ since →
      Tracked s now id contact added
  | skipped : s.contacts[id]? = none → (∀ time kind, ⟨time, kind, id⟩ ∉ s.timeline.events) →
      (∀ t, now ≤ t → ¬ contact.schedule.ActiveAt added t) → Tracked s now id contact added

structure Inv (r : Run π α) : Prop where
  kept : Scheduler.Kept r.scheduler
  fresh : ∀ id contact added, r.log id = some (contact, added) → id < r.scheduler.nextId
  regular : ∀ id contact added, r.log id = some (contact, added) → contact.schedule.Regular added
  tracked : ∀ id contact added, r.log id = some (contact, added) →
    Tracked r.scheduler r.clock id contact added

section

variable {s t : Scheduler π α} {now later added : Int} {id : Nat} {contact : Contact π α}
  {ops : List (PendingRouteOp π α)}

section

omit [DecidableEq π] [DecidableEq α]

theorem Tracked.frame (h : Tracked s now id contact added)
    (hget : t.contacts[id]? = s.contacts[id]?)
    (hevents : ∀ time kind, ⟨time, kind, id⟩ ∈ t.timeline.events ↔
      ⟨time, kind, id⟩ ∈ s.timeline.events) (hle : now ≤ later) :
    Tracked t later id contact added := by
  cases h with
  | held hmc hcontact hplan hsince hphase =>
    exact .held (hget.trans hmc) hcontact
      (fun time kind => (hevents time kind).trans (hplan time kind)) (hsince.trans hle) hphase
  | skipped hnone hno hidle =>
    refine .skipped (hget.trans hnone) (fun time kind he => ?_) fun t ht => hidle t (hle.trans ht)
    exact hno time kind ((hevents time kind).mp he)

theorem Tracked.active_iff (h : Tracked s now id contact added) (hsettled : Settled s now id) :
    IsActive s id ↔ contact.schedule.ActiveAt added now := by
  cases h with
  | @held mc events since hmc hcontact hplan hsince hphase =>
    have hactive : IsActive s id ↔ mc.active = true := by
      refine ⟨?_, fun h => ⟨mc, hmc, h⟩⟩
      rintro ⟨mc', hmc', h⟩
      cases hmc.symm.trans hmc'
      exact h
    rw [hactive]
    refine hphase.active_iff hsince fun e he => ?_
    exact hsettled ⟨e.1, e.2, id⟩ ((hplan e.1 e.2).mpr he) rfl
  | skipped hnone hno hidle =>
    refine iff_of_false ?_ (hidle now (Int.le_refl now))
    rintro ⟨mc, hmc, -⟩
    cases hnone.symm.trans hmc

theorem mem_popFirst {e e' : Event} (hfirst : s.timeline.first = some e) :
    e' ∈ s.timeline.popFirst.events ↔ e' ∈ s.timeline.events ∧ e' ≠ e := by
  have hevents := Scheduler.events_of_first hfirst
  have hsorted := s.timeline.sorted
  rw [hevents, List.pairwise_cons] at hsorted
  rw [hevents, List.mem_cons]
  constructor
  · intro he
    refine ⟨.inr he, ?_⟩
    rintro rfl
    have hbefore := hsorted.1 _ he
    unfold Event.Before at hbefore
    omega
  · rintro ⟨rfl | he, hne⟩
    · exact absurd rfl hne
    · exact he

end

theorem deactivateContact_self {mc : ManagedContact π α} (hmc : s.contacts[id]? = some mc) :
    (s.deactivateContact id).1.contacts[id]? = some { mc with active := false } := by
  have hself : (s.contacts.insert id { mc with active := false })[id]? =
      some { mc with active := false } := HashMap.getElem?_insert.trans (if_pos rfl)
  unfold Scheduler.deactivateContact
  rw [hmc]
  dsimp only
  split
  · next hinactive =>
      rw [hmc]
      cases mc
      simp_all
  · split
    · exact hself
    · split
      · exact hself
      · exact hself

omit [DecidableEq π] [DecidableEq α] in
theorem mem_nextEvents {mc : ManagedContact π α} {after : Int} (hmc : s.contacts[id]? = some mc)
    {e : Event} : e ∈ (s.scheduleNextOccurrence id after).timeline.events ↔
      e ∈ s.timeline.events ∨
        e.contactId = id ∧ (e.time, e.kind) ∈ mc.contact.schedule.nextEvents after := by
  rcases hsched : mc.contact.schedule with _ | ⟨start, finish⟩ | ⟨c, duration, untilTime⟩
  · have hsame : s.scheduleNextOccurrence id after = s := by
      simp only [Scheduler.scheduleNextOccurrence, hmc, hsched]
    rw [hsame]
    exact (or_iff_left fun h => List.not_mem_nil h.2).symm
  · have hsame : s.scheduleNextOccurrence id after = s := by
      simp only [Scheduler.scheduleNextOccurrence, hmc, hsched]
    rw [hsame]
    exact (or_iff_left fun h => List.not_mem_nil h.2).symm
  · exact Scheduler.mem_events_scheduleNextOccurrence hmc hsched

omit [DecidableEq π] [DecidableEq α] in
theorem mem_popFirst_of_ne {e : Event} (hfirst : s.timeline.first = some e) (hid : id ≠ e.contactId)
    (time : Int) (kind : EventKind) : ⟨time, kind, id⟩ ∈ s.timeline.popFirst.events ↔
      ⟨time, kind, id⟩ ∈ s.timeline.events :=
  (mem_popFirst hfirst).trans (and_iff_left fun heq => hid (congrArg Event.contactId heq))

theorem Tracked.activate (h : Tracked s now id contact added) {e : Event}
    (hfirst : s.timeline.first = some e) (hdue : e.time ≤ now) (hk : e.kind = .activate) :
    Tracked ({ s with timeline := s.timeline.popFirst }.activateContact e.contactId).1 now id
      contact added := by
  have hframe : Scheduler.Frame ({ s with timeline := s.timeline.popFirst } : Scheduler π α)
      ({ s with timeline := s.timeline.popFirst }.activateContact e.contactId).1 :=
    Scheduler.activateContact_frame
  by_cases hid : id = e.contactId
  · subst hid
    have hmem : (⟨e.time, .activate, e.contactId⟩ : Event) ∈ s.timeline.events := by
      rw [← hk]
      exact List.mem_of_mem_head? hfirst
    cases h with
    | @held mc events since hmc hcontact hplan hsince hphase =>
      obtain ⟨rest, hrest, hphase'⟩ := hphase.activate ((hplan _ _).mp hmem)
      have hself : ({ s with timeline := s.timeline.popFirst }.activateContact
          e.contactId).1.contacts[e.contactId]? = some { mc with active := true } := by
        rw [Scheduler.activateContact_get, if_pos rfl, hmc]
        rfl
      refine .held hself hcontact (fun time kind => ?_) (max_le hsince hdue) hphase'
      · rw [hframe.timeline, mem_popFirst hfirst, hplan, hrest, ← hk]
        refine and_congr_right fun _ => not_congr ?_
        obtain ⟨time', kind', id'⟩ := e
        simp
    | skipped hnone hno hidle => exact absurd hmem (hno _ _)
  · refine h.frame ?_ (fun time kind => ?_) (Int.le_refl now)
    · rw [Scheduler.activateContact_get, if_neg hid]
    · rw [hframe.timeline]
      exact mem_popFirst_of_ne hfirst hid time kind

theorem Tracked.deactivate (h : Tracked s now id contact added)
    (hgood : contact.schedule.Regular added) {e : Event} (hfirst : s.timeline.first = some e)
    (hdue : e.time ≤ now) (hk : e.kind = .deactivate) :
    Tracked (({ s with timeline := s.timeline.popFirst }.deactivateContact
      e.contactId).1.scheduleNextOccurrence e.contactId e.time) now id contact added := by
  have hframe : Scheduler.Frame ({ s with timeline := s.timeline.popFirst } : Scheduler π α)
      ({ s with timeline := s.timeline.popFirst }.deactivateContact e.contactId).1 :=
    Scheduler.deactivateContact_frame
  by_cases hid : id = e.contactId
  · subst hid
    have hmem : (⟨e.time, .deactivate, e.contactId⟩ : Event) ∈ s.timeline.events := by
      rw [← hk]
      exact List.mem_of_mem_head? hfirst
    cases h with
    | @held mc events since hmc hcontact hplan hsince hphase =>
      obtain ⟨hall, hphase'⟩ := hphase.deactivate hgood ((hplan _ _).mp hmem) fun e' he' =>
        Timeline.time_le_of_first hfirst ((hplan e'.1 e'.2).mpr he')
      have hself := deactivateContact_self (s := { s with timeline := s.timeline.popFirst }) hmc
      refine .held ((congrArg (·[e.contactId]?)
        (Scheduler.scheduleNextOccurrence_contacts ..)).trans hself) hcontact
          (fun time kind => ?_) (max_le hsince hdue) hphase'
      · rw [mem_nextEvents hself, hframe.timeline, ← hcontact]
        refine (or_iff_right fun he => ?_).trans (and_iff_right rfl)
        obtain ⟨he, hne⟩ := (mem_popFirst hfirst).mp he
        have heq := hall _ ((hplan time kind).mp he)
        obtain ⟨time', kind', id'⟩ := e
        simp_all
    | skipped hnone hno hidle => exact absurd hmem (hno _ _)
  · refine h.frame ?_ (fun time kind => ?_) (Int.le_refl now)
    · rw [Scheduler.scheduleNextOccurrence_contacts, Scheduler.deactivateContact_get hid]
    · have hpop := mem_popFirst_of_ne hfirst hid time kind
      rw [← hpop]
      rcases Scheduler.scheduleNextOccurrence_cases ({ s with timeline := s.timeline.popFirst
        }.deactivateContact e.contactId).1 e.contactId e.time with heq | ⟨_, _, _, _, -, -, -, heq⟩
      · rw [heq, hframe.timeline]
      · rw [heq, Scheduler.mem_insertEvent, Scheduler.mem_insertEvent, hframe.timeline]
        exact (or_iff_left fun h => hid h.1).trans (or_iff_left fun h => hid h.1)

theorem Tracked.dueStep (h : Tracked s now id contact added)
    (hgood : contact.schedule.Regular added) (hstep : s.dueStep now = some (t, ops)) :
    Tracked t now id contact added := by
  unfold Scheduler.dueStep at hstep
  split at hstep
  · cases hstep
  · next e hfirst =>
      split at hstep
      · cases hstep
      · next hdue =>
          have ht := congrArg Prod.fst (Option.some.inj hstep)
          unfold Scheduler.handleEvent at ht
          split at ht
          · next hk =>
              cases ht
              exact h.activate hfirst (Int.not_lt.mp hdue) hk
          · next hk =>
              cases ht
              exact h.deactivate hgood hfirst (Int.not_lt.mp hdue) hk

theorem tracked_ingest (hs : Scheduler.Kept s) (source : String) (defaultPriority : Nat)
    (hgood : contact.schedule.Regular now) :
    Tracked (s.ingest source contact defaultPriority now).1 now s.nextId contact now ∧
      Settled (s.ingest source contact defaultPriority now).1 now s.nextId := by
  have hnew : ∀ time kind, ⟨time, kind, s.nextId⟩ ∉ s.timeline.events := fun time kind he =>
    Nat.lt_irrefl _ (hs.fresh _ (hs.events _ he))
  have hgains := Scheduler.ingest_gains (s := s) source contact defaultPriority now
  split at hgains
  · next hplan =>
      obtain ⟨hcontacts, htimeline⟩ := hgains
      constructor
      · refine .skipped ?_ (fun time kind => ?_) fun t ht => not_active_of_plan hplan ht
        · rw [hcontacts, ← Option.not_isSome_iff_eq_none, Option.isSome_iff_exists]
          exact fun h => Nat.lt_irrefl _ (hs.fresh _ (HashMap.mem_iff.mpr h))
        · rw [htimeline]
          exact hnew time kind
      · rintro ⟨time, kind, _⟩ he rfl
        rw [htimeline] at he
        exact absurd he (hnew time kind)
  · next p hplan =>
      have hevents : ∀ time kind, ⟨time, kind, s.nextId⟩ ∈
          (s.ingest source contact defaultPriority now).1.timeline.events ↔
            (time, kind) ∈ p.events := fun time kind =>
        (hgains.events _).trans ((or_iff_right (hnew time kind)).trans (and_iff_right rfl))
      constructor
      · exact .held ((hgains.contacts _).trans (if_pos rfl)) rfl hevents (Int.le_refl now)
          (phase_plan hgood hplan)
      · rintro ⟨time, kind, _⟩ he rfl
        exact plan_later hgood hplan _ ((hevents time kind).mp he)

theorem ingest_nextId (source : String) (defaultPriority : Nat) :
    (s.ingest source contact defaultPriority now).1.nextId = s.nextId + 1 := by
  have hinsert : ∀ (u : Scheduler π α) (time : Option Int) (kind : EventKind) (id : Nat),
      (u.insertEvent? time kind id).nextId = u.nextId := by
    intro u time kind id
    cases time <;> rfl
  unfold Scheduler.ingest
  dsimp only
  split
  · exact Scheduler.activateContact_frame.nextId
  · split
    · rfl
    · split
      · exact Scheduler.activateContact_frame.nextId.trans (hinsert ..)
      · exact hinsert ..
  · split
    · exact Scheduler.activateContact_frame.nextId
    · rcases Scheduler.scheduleNextOccurrence_cases ({ s with nextId := s.nextId + 1 }.keep source
        s.nextId ⟨contact, Scheduler.resolvePriority contact defaultPriority, false⟩) s.nextId now
          with heq | ⟨_, _, _, _, -, -, -, heq⟩
      · rw [heq]
        rfl
      · rw [heq]
        rfl

theorem dueStep_nextId (h : s.dueStep now = some (t, ops)) : t.nextId = s.nextId := by
  obtain ⟨e, u, -, -, hsame, ⟨-, rfl⟩ | ⟨-, rfl⟩⟩ := Scheduler.dueStep_cases h
  · exact hsame.nextId
  · rcases Scheduler.scheduleNextOccurrence_cases u e.contactId e.time with heq |
      ⟨_, _, _, _, -, -, -, heq⟩
    · rw [heq]
      exact hsame.nextId
    · rw [heq]
      exact hsame.nextId

theorem Tracked.ingest (h : Tracked s now id contact added) (hid : id < s.nextId)
    (hle : now ≤ later) (source : String) (contact' : Contact π α) (defaultPriority : Nat) :
    Tracked (s.ingest source contact' defaultPriority later).1 later id contact added := by
  have hne : id ≠ s.nextId := Nat.ne_of_lt hid
  have hgains := Scheduler.ingest_gains (s := s) source contact' defaultPriority later
  split at hgains
  · exact h.frame (by rw [hgains.1]) (fun time kind => by rw [hgains.2]) hle
  · exact h.frame ((hgains.contacts id).trans (if_neg hne)) (fun time kind =>
      (hgains.events _).trans (or_iff_left fun h => hne h.1)) hle

end

section

variable {r r' : Run π α}

theorem Inv.dueStep {now : Int} {t : Scheduler π α} {ops : List (PendingRouteOp π α)} (h : Inv r)
    (hnow : r.clock = now) (hstep : r.scheduler.dueStep now = some (t, ops)) :
    Inv { r with scheduler := t } where
  kept := (Scheduler.dueStep_books hstep h.kept).1
  fresh id contact added hlog := (dueStep_nextId hstep).symm ▸ h.fresh id contact added hlog
  regular := h.regular
  tracked id contact added hlog := by
    subst hnow
    exact (h.tracked id contact added hlog).dueStep (h.regular id contact added hlog) hstep

theorem Inv.step (h : Inv r) {l : Input π α × Int} (hl : Regular r l) (hstep : Step r l r') :
    Inv r' ∧ r'.Exact := by
  cases hstep with
  | ingest source contact defaultPriority now hle =>
    obtain ⟨hnew, hsettled⟩ := tracked_ingest h.kept source defaultPriority hl
    have hlog : ∀ id c added, Function.update r.log r.scheduler.nextId (some (contact, now)) id =
        some (c, added) → (id = r.scheduler.nextId ∧ c = contact ∧ added = now) ∨
          (id ≠ r.scheduler.nextId ∧ r.log id = some (c, added)) := by
      intro id c added hlog
      by_cases hid : id = r.scheduler.nextId
      · subst hid
        rw [Function.update_self] at hlog
        cases hlog
        exact .inl ⟨rfl, rfl, rfl⟩
      · rw [Function.update_of_ne hid] at hlog
        exact .inr ⟨hid, hlog⟩
    have htracked : ∀ id c added,
        Function.update r.log r.scheduler.nextId (some (contact, now)) id = some (c, added) →
          Tracked (r.scheduler.ingest source contact defaultPriority now).1 now id c added := by
      intro id c added hid
      rcases hlog id c added hid with ⟨rfl, rfl, rfl⟩ | ⟨-, hid⟩
      · exact hnew
      · exact (h.tracked id c added hid).ingest (h.fresh id c added hid) hle source contact
          defaultPriority
    refine ⟨⟨(Scheduler.ingest_books source contact defaultPriority now h.kept).1, ?_, ?_,
      htracked⟩, ?_⟩
    · intro id c added hid
      dsimp only
      rw [ingest_nextId]
      rcases hlog id c added hid with ⟨rfl, -, -⟩ | ⟨-, hid⟩
      · exact Nat.lt_succ_self _
      · exact Nat.lt_succ_of_lt (h.fresh id c added hid)
    · intro id c added hid
      rcases hlog id c added hid with ⟨-, rfl, rfl⟩ | ⟨-, hid⟩
      · exact hl
      · exact h.regular id c added hid
    · intro id c added hid hlatest
      refine (htracked id c added hid).active_iff ?_
      rcases hlatest with hnone | hself | hsettled'
      · cases hnone
      · cases hself
        exact hsettled
      · exact hsettled'
  | @due t fuel ops now hle hrun =>
    have hnow : Inv { r with clock := now } :=
      ⟨h.kept, h.fresh, h.regular, fun id c added hid =>
        (h.tracked id c added hid).frame rfl (fun _ _ => Iff.rfl) hle⟩
    obtain ⟨hinv, hnone⟩ := Loop.run_eq_some
      (I := fun s => Inv ⟨s, r.log, now, r.latest⟩)
      (fun s s' out hs hstep => Inv.dueStep hs rfl hstep) hnow hrun
    have hlater := Scheduler.dueStep_eq_none.mp hnone
    refine ⟨⟨hinv.kept, hinv.fresh, hinv.regular, hinv.tracked⟩, ?_⟩
    intro id c added hid _
    exact (hinv.tracked id c added hid).active_iff fun e he _ => hlater e he

/-- In every run whose contacts are regular, what is active is what should be. -/
theorem exact_of_reachable
    (h : ((machine : Machine (Run π α) (Input π α × Int)).only Regular).Reachable r) :
    r.Exact := by
  have hinv : Inv r ∧ r.Exact := by
    refine h.invariant (I := fun r => Inv r ∧ r.Exact) ?_ ?_
    · rintro r ⟨hnew, hlog⟩
      have hno : ∀ id c added, ¬ r.log id = some (c, added) := by
        intro id c added hid
        rw [hlog] at hid
        cases hid
      refine ⟨⟨?_, ?_, ?_, ?_⟩, ?_⟩
      · rw [hnew]
        exact .new
      · exact fun id c added hid => absurd hid (hno id c added)
      · exact fun id c added hid => absurd hid (hno id c added)
      · exact fun id c added hid => absurd hid (hno id c added)
      · exact fun id c added hid => absurd hid (hno id c added)
    · intro r l r' hr hstep
      exact hr.1.step hstep.1 hstep.2
  exact hinv.2

end

end Run

/-! ## Every minute -/

section

open Scheduler (everyMinute)

theorem everyMinute_occurrence_of_grid {t : Int} (h : t % 60000000000 = 0) :
    everyMinute.Occurrence t := by
  have hdate := DateTime.date_valid t
  refine ⟨⟨?_, ?_, ?_, ?_, ?_, ?_⟩, by omega⟩
  · obtain ⟨hlo, hhi⟩ := hdate.month
    change Nat.testBit 0x1FFE _ = true
    interval_cases (DateTime.date t).month <;> rfl
  · obtain ⟨hlo, hhi⟩ := hdate.day
    have hlen := january_day_le (y := (DateTime.date t).year) (m := (DateTime.date t).month)
    have hhi' : (DateTime.date t).day ≤ 31 := hhi.trans hlen
    change Nat.testBit (2 ^ 32 - 2) _ = true
    interval_cases (DateTime.date t).day <;> rfl
  · change Nat.testBit (2 ^ 7 - 1) _ = true
    rw [Nat.testBit_two_pow_sub_one, decide_eq_true_eq]
    unfold DateTime.weekday
    omega
  · change Nat.testBit (2 ^ 24 - 1) _ = true
    rw [Nat.testBit_two_pow_sub_one, decide_eq_true_eq]
    unfold DateTime.hour
    omega
  · change Nat.testBit (2 ^ 60 - 1) _ = true
    rw [Nat.testBit_two_pow_sub_one, decide_eq_true_eq]
    unfold DateTime.minute
    omega
  · change Nat.testBit 1 _ = true
    rw [Nat.testBit_one_eq_true_iff_self_eq_zero]
    unfold DateTime.second
    omega

theorem everyMinute_granularity : everyMinute.granularity = 60000000000 := rfl

theorem everyMinute_regular : Regular everyMinute 60000000000 none 0 := by
  have hmem : ∀ t, everyMinute.truncate t ∈ everyMinute.window (everyMinute.truncate t)
      (t + horizon) := by
    intro t
    refine ⟨everyMinute_occurrence_of_grid ?_, Int.le_refl _, ?_⟩
    · rw [truncate_eq, everyMinute_granularity]
      omega
    · have hle := truncate_le (c := everyMinute) (t := t)
      unfold horizon
      omega
  refine ⟨fun _ _ _ => Int.le_refl _, fun _ => ?_, fun _ _ _ _ => ⟨_, hmem 0⟩,
    fun r _ _ _ _ => ⟨_, hmem _⟩, fun r _ _ _ _ _ => ⟨(hmem _).1, rfl⟩⟩
  refine ⟨0, ⟨⟨everyMinute_occurrence_of_grid rfl, ?_, Int.le_refl 0⟩, fun _ ht => ht.2.2⟩,
    ⟨everyMinute_occurrence_of_grid rfl, rfl⟩, ?_⟩
  · decide
  · intro d hd _ _ _ hmonth
    obtain ⟨hlo, hhi⟩ := hd.month
    have hbit : Nat.testBit 0x1FFE d.month = true := by
      interval_cases d.month <;> rfl
    cases hbit.symm.trans hmonth

def Run.empty : Run Unit Unit := ⟨.new, fun _ => none, 0, none⟩

def everyMinuteContact (duration : Nat) (untilTime : Option Int) : Contact Unit Unit :=
  ⟨(), (), none, .recurring everyMinute duration untilTime, none, none⟩

def Run.added (duration : Nat) (untilTime : Option Int) : Run Unit Unit :=
  ⟨((Scheduler.new : Scheduler Unit Unit).ingest "contacts" (everyMinuteContact duration untilTime)
    100 0).1, Function.update (fun _ => none) 0 (some (everyMinuteContact duration untilTime, 0)),
    0, some 0⟩

theorem Run.step_added (duration : Nat) (untilTime : Option Int) :
    Run.Step .empty (.ingest "contacts" (everyMinuteContact duration untilTime) 100, 0)
      (Run.added duration untilTime) :=
  .ingest "contacts" _ 100 0 (Int.le_refl 0)

theorem Run.added_exact : (Run.added 60000000000 none).Exact :=
  Run.exact_of_reachable (.step (.ingest "contacts" (everyMinuteContact 60000000000 none) 100, 0)
    (.start ⟨rfl, rfl⟩) ⟨everyMinute_regular, Run.step_added 60000000000 none⟩)

theorem Run.twoMinutes_gains :
    Scheduler.Gains .new (Run.added 120000000000 (some 61000000000)).scheduler
      (everyMinuteContact 120000000000 (some 61000000000)) 100
      ⟨true, [(120000000000, .deactivate)]⟩ := by
  have hprev : everyMinute.prevBefore 0 = some 0 :=
    (everyMinute_occurrence_of_grid rfl).prevBefore_eq (Int.le_refl 0) (by decide)
  have hnow : Scheduler.activeNow everyMinute 120000000000 (some 61000000000) 0 =
      some 120000000000 := activeNow_eq_some.mpr ⟨0, hprev, by decide, by decide, rfl⟩
  have hplan : (everyMinuteContact 120000000000 (some 61000000000)).schedule.plan 0 =
      some ⟨true, [(120000000000, .deactivate)]⟩ := by
    unfold everyMinuteContact Schedule.plan
    dsimp only
    rw [hnow]
  have hgains := Scheduler.ingest_gains (s := (.new : Scheduler Unit Unit)) "contacts"
    (everyMinuteContact 120000000000 (some 61000000000)) 100 0
  rw [hplan] at hgains
  exact hgains

/-- The search from the end on finds an occurrence that is too late, so nothing is left to
be done when the contact becomes inactive. -/
theorem Run.twoMinutes_due : ∃ t ops,
    (Run.added 120000000000 (some 61000000000)).scheduler.processDueEvents 2 150000000000 =
      some (t, ops) ∧ ¬ Run.IsActive t 0 := by
  obtain ⟨s, hs⟩ : ∃ s, (Run.added 120000000000 (some 61000000000)).scheduler = s := ⟨_, rfl⟩
  have hgains := Run.twoMinutes_gains
  rw [hs] at hgains ⊢
  have hevents : ∀ e, e ∈ s.timeline.events ↔ e = ⟨120000000000, .deactivate, 0⟩ := by
    intro e
    have hnone : e ∉ (Scheduler.new : Scheduler Unit Unit).timeline.events := fun he => by cases he
    rw [hgains.events, or_iff_right hnone, List.mem_singleton]
    obtain ⟨time, kind, id⟩ := e
    simp only [Scheduler.new, Prod.mk.injEq, Event.mk.injEq]
    tauto
  have hfirst : s.timeline.first = some ⟨120000000000, .deactivate, 0⟩ := by
    have hmem := (hevents ⟨120000000000, .deactivate, 0⟩).mpr rfl
    rcases hfirst : s.timeline.first with _ | e
    · rw [Timeline.first, List.head?_eq_none_iff] at hfirst
      rw [hfirst] at hmem
      cases hmem
    · rw [(hevents e).mp (List.mem_of_mem_head? hfirst)]
  have hmc : s.contacts[0]? =
      some ⟨everyMinuteContact 120000000000 (some 61000000000), 100, true⟩ := hgains.contacts 0
  have hself := Run.deactivateContact_self (s := { s with timeline := s.timeline.popFirst }) hmc
  have hframe : Scheduler.Frame ({ s with timeline := s.timeline.popFirst } : Scheduler Unit Unit)
      ({ s with timeline := s.timeline.popFirst }.deactivateContact 0).1 :=
    Scheduler.deactivateContact_frame
  have hnext : everyMinute.nextAfter 120000000000 = some 120000000000 :=
    (everyMinute_occurrence_of_grid rfl).nextAfter_eq (Int.le_refl _) (by decide)
  have hstep : Scheduler.dueStep 150000000000 s = some
      (({ s with timeline := s.timeline.popFirst }.deactivateContact 0).1.scheduleNextOccurrence 0
        120000000000, ({ s with timeline := s.timeline.popFirst }.deactivateContact
          0).2.toList) := by
    unfold Scheduler.dueStep
    rw [hfirst]
    rfl
  have hlast : Scheduler.dueStep 150000000000 (({ s with timeline := s.timeline.popFirst
      }.deactivateContact 0).1.scheduleNextOccurrence 0 120000000000) = none := by
    refine Scheduler.dueStep_eq_none.mpr fun e he => ?_
    rw [Run.mem_nextEvents hself, hframe.timeline, Run.mem_popFirst hfirst, hevents] at he
    rcases he with ⟨heq, hne⟩ | ⟨-, hin⟩
    · exact absurd heq hne
    · simp [everyMinuteContact, Schedule.nextEvents, hnext, occurrenceEvents] at hin
  have hrun : (Loop.run (Scheduler.dueStep 150000000000) 2 s) = _ := Loop.run_succ_some hstep
  rw [Loop.run_succ_none hlast] at hrun
  refine ⟨_, _, hrun, ?_⟩
  · rintro ⟨mc, hmc', hactive⟩
    rw [Scheduler.scheduleNextOccurrence_contacts] at hmc'
    cases hself.symm.trans hmc'
    cases hactive

/-- The occurrence at 00:01:00 is passed over, so at 00:02:30 the contact is not active. -/
theorem Run.not_exact : ¬ ∀ r : Run Unit Unit, Run.machine.Reachable r → r.Exact := by
  intro h
  obtain ⟨t, ops, hrun, hinactive⟩ := Run.twoMinutes_due
  have hreach : Run.machine.Reachable (⟨t, (Run.added 120000000000 (some 61000000000)).log,
      150000000000, none⟩ : Run Unit Unit) :=
    .step (.due, 150000000000) (.step _ (.start ⟨rfl, rfl⟩) (Run.step_added _ _))
      (.due 150000000000 (by decide) hrun)
  refine hinactive ((h _ hreach 0 _ 0 rfl (.inl rfl)).mpr ?_)
  refine ⟨60000000000, ⟨everyMinute_occurrence_of_grid rfl, rfl⟩, ?_, ?_⟩
  · change (60000000000 : Int) ≤ 150000000000
    decide
  · change (150000000000 : Int) < 60000000000 + (120000000000 : Nat)
    decide

end

end Hardy.Tvr
