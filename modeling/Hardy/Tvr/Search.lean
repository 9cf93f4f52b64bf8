import Mathlib.Order.Bounds.Basic
import Mathlib.Data.Int.LeastGreatest
import Hardy.Tvr.CronText

/-!
# What the searches of a cron expression find

Each move of a search has a closed form: it goes to the start of the next unit, or to the
last second of the one before, and the times that it passes are in the unit that does not
match.  The search forward is exact from the start of a unit on.  The search backward leaves a
month by its own day number, and stops where the month before has no such day.
-/

namespace Hardy

theorem Date.ofDays_add {d : Date} (h : d.Valid) {k : Int} (hlo : 1 ≤ d.day + k)
    (hhi : d.day + k ≤ daysInYearMonth d.year d.month) :
    Date.ofDays (d.days + k) = { d with day := (d.day + k).toNat } := by
  have hvalid : Date.Valid { d with day := (d.day + k).toNat } :=
    ⟨h.month, by dsimp only; omega, by dsimp only; omega⟩
  have hdays : Date.days { d with day := (d.day + k).toNat } = d.days + k := by
    unfold Date.days
    dsimp only
    omega
  rw [← hdays, Date.ofDays_days hvalid]

namespace DateTime

variable {t u : Int}

/-! ## Times of one unit -/

theorem date_congr (h : u / 86400000000000 = t / 86400000000000) : date u = date t := by
  rw [date, h, ← date]

theorem weekday_congr (h : u / 86400000000000 = t / 86400000000000) : weekday u = weekday t := by
  rw [weekday, h, ← weekday]

theorem hour_congr (h : u / 3600000000000 = t / 3600000000000) : hour u = hour t := by
  rw [hour, h, ← hour]

theorem minute_congr (h : u / 60000000000 = t / 60000000000) : minute u = minute t := by
  rw [minute, h, ← minute]

theorem second_congr (h : u / 1000000000 = t / 1000000000) : second u = second t := by
  rw [second, h, ← second]

theorem days_date (t : Int) : (date t).days = t / 86400000000000 := Date.days_ofDays _

theorem month_congr (hlo : (date t).days - (date t).day < u / 86400000000000)
    (hhi : u / 86400000000000 ≤
      (date t).days - (date t).day + daysInYearMonth (date t).year (date t).month) :
    (date u).month = (date t).month := by
  have hadd := Date.ofDays_add (date_valid t) (k := u / 86400000000000 - (date t).days)
    (by omega) (by omega)
  rw [add_sub_cancel] at hadd
  rw [date, hadd]

/-! ## Replacing what is under a unit -/

theorem replaceSecond_start (h : t % 1000000000 = 0) :
    replaceSecond t 0 = t / 60000000000 * 60000000000 := by
  unfold replaceSecond second
  omega

theorem replaceMinute_start : replaceMinute (t / 60000000000 * 60000000000) 0 =
    t / 3600000000000 * 3600000000000 := by
  unfold replaceMinute minute
  omega

theorem replaceHour_start : replaceHour (t / 3600000000000 * 3600000000000) 0 =
    t / 86400000000000 * 86400000000000 := by
  unfold replaceHour hour
  omega

theorem replaceSecond_end (h : t % 1000000000 = 0) :
    replaceSecond t 59 = t / 60000000000 * 60000000000 + 59000000000 := by
  unfold replaceSecond second
  omega

theorem replaceMinute_end : replaceMinute (t / 60000000000 * 60000000000 + 59000000000) 59 =
    t / 3600000000000 * 3600000000000 + 3599000000000 := by
  unfold replaceMinute minute
  omega

theorem replaceHour_end : replaceHour (t / 3600000000000 * 3600000000000 + 3599000000000) 23 =
    t / 86400000000000 * 86400000000000 + 86399000000000 := by
  unfold replaceHour hour
  omega

theorem replace_end (h : t % 1000000000 = 0) :
    replaceSecond (replaceMinute (replaceHour t 23) 59) 59 =
      t / 86400000000000 * 86400000000000 + 86399000000000 := by
  have hhour : replaceHour t 23 =
      t / 86400000000000 * 86400000000000 + 82800000000000 + t % 3600000000000 := by
    unfold replaceHour hour
    omega
  have hminute : replaceMinute (replaceHour t 23) 59 =
      t / 86400000000000 * 86400000000000 + 86340000000000 + t % 60000000000 := by
    rw [hhour]
    unfold replaceMinute minute
    omega
  rw [hminute]
  unfold replaceSecond second
  omega

theorem replaceDate_of_valid {d : Date} (h : d.Valid) :
    replaceDate t d = some (d.days * 86400000000000 + t % 86400000000000) := by
  rw [replaceDate, if_pos h]
  refine congrArg some ?_
  omega

theorem replaceDate_of_not_valid {d : Date} (h : ¬ d.Valid) : replaceDate t d = none :=
  if_neg h

theorem date_of_days {d : Date} (h : d.Valid) {r : Int} (hr : 0 ≤ r) (hr' : r < 86400000000000) :
    date (d.days * 86400000000000 + r) = d := by
  have hdiv : (d.days * 86400000000000 + r) / 86400000000000 = d.days := by omega
  rw [date, hdiv, Date.ofDays_days h]

end DateTime

end Hardy

namespace Hardy.Tvr

open DateTime

section

variable {t t' u : Int}

/-! ## Where the moves go -/

theorem advanceMinute_eq (h : t % 1000000000 = 0) :
    advanceMinute t = (t / 60000000000 + 1) * 60000000000 := by
  rw [advanceMinute, replaceSecond_start h]
  omega

theorem advanceHour_eq (h : t % 1000000000 = 0) :
    advanceHour t = (t / 3600000000000 + 1) * 3600000000000 := by
  rw [advanceHour, replaceSecond_start h, replaceMinute_start]
  omega

theorem advanceDay_eq (h : t % 1000000000 = 0) :
    advanceDay t = (t / 86400000000000 + 1) * 86400000000000 := by
  rw [advanceDay, replaceSecond_start h, replaceMinute_start, replaceHour_start]
  omega

theorem first_valid (y : Int) {m : Nat} (h : 1 ≤ m ∧ m ≤ 12) : (Date.mk y m 1).Valid := by
  refine ⟨h, Nat.le_refl 1, ?_⟩
  unfold daysInYearMonth
  dsimp only
  split
  · split <;> omega
  · split <;> omega

theorem advanceMonth_eq (h : t % 1000000000 = 0) :
    advanceMonth t = some ((date t).nextMonth.days * 86400000000000) := by
  have hmonth := (date_valid t).month
  unfold advanceMonth
  rw [replaceSecond_start h, replaceMinute_start, replaceHour_start]
  have hdate : date (t / 86400000000000 * 86400000000000) = date t := date_congr (by omega)
  have hnext : 1 ≤ (date t).month % 12 + 1 ∧ (date t).month % 12 + 1 ≤ 12 := by omega
  have hday : replaceDay (t / 86400000000000 * 86400000000000) 1 =
      some ((Date.mk (date t).year (date t).month 1).days * 86400000000000) := by
    rw [replaceDay, hdate, replaceDate_of_valid (first_valid _ hmonth)]
    refine congrArg some ?_
    omega
  have hdate' : date ((Date.mk (date t).year (date t).month 1).days * 86400000000000) =
      ⟨(date t).year, (date t).month, 1⟩ := by
    have := date_of_days (first_valid (date t).year hmonth) (Int.le_refl 0) (by omega)
    rwa [Int.add_zero] at this
  rw [hday]
  change (replaceMonth _ _).bind _ = _
  rw [replaceMonth, hdate', replaceDate_of_valid (first_valid _ hnext), Option.bind_some,
    replaceYear, date_of_days (first_valid _ hnext) (by omega) (by omega),
    replaceDate_of_valid (first_valid _ hnext), Date.nextMonth_eq hmonth]
  refine congrArg some ?_
  dsimp only
  omega

theorem retreatMinute_eq (h : t % 1000000000 = 0) :
    retreatMinute t = t / 60000000000 * 60000000000 - 1000000000 := by
  rw [retreatMinute, replaceSecond_end h]
  omega

theorem retreatHour_eq (h : t % 1000000000 = 0) :
    retreatHour t = t / 3600000000000 * 3600000000000 - 1000000000 := by
  rw [retreatHour, replaceSecond_end h, replaceMinute_end]
  omega

theorem retreatDay_eq (h : t % 1000000000 = 0) :
    retreatDay t = t / 86400000000000 * 86400000000000 - 1000000000 := by
  rw [retreatDay, replaceSecond_end h, replaceMinute_end, replaceHour_end]
  omega

def Gap (d : Date) : Prop := d.month ≠ 1 ∧ daysInMonth d.year (d.month - 1) < d.day

instance (d : Date) : Decidable (Gap d) :=
  inferInstanceAs (Decidable (d.month ≠ 1 ∧ daysInMonth d.year (d.month - 1) < d.day))

theorem daysInMonth_eq (y : Int) (m : Nat) : daysInMonth y m = daysInYearMonth y m := rfl

theorem lastDay_valid (y : Int) {m : Nat} (h : 1 ≤ m ∧ m ≤ 12) :
    (Date.mk y m (daysInMonth y m)).Valid :=
  ⟨h, (first_valid y h).day.2, Nat.le_refl _⟩

theorem january_day_le {y : Int} {m : Nat} : daysInYearMonth y m ≤ 31 := by
  unfold daysInYearMonth
  split
  · split <;> omega
  · split <;> omega

theorem retreatMonth_eq (h : t % 1000000000 = 0) :
    retreatMonth t = if Gap (date t) then none
      else some (((date t).days - (date t).day) * 86400000000000 + 86399000000000) := by
  obtain ⟨m, hm⟩ : ∃ m, (if (date t).month = 1 then 12 else (date t).month - 1) = m := ⟨_, rfl⟩
  obtain ⟨y, hy⟩ : ∃ y, (if m = 12 then (date t).year - 1 else (date t).year) = y := ⟨_, rfl⟩
  obtain ⟨hmonth, hnext⟩ := nextMonth_previous (date_valid t).month hm hy
  have hday := (date_valid t).day
  have hgap : ¬ Gap (date t) ↔ (Date.mk (date t).year m (date t).day).Valid := by
    have hlen := january_day_le (y := (date t).year) (m := (date t).month)
    by_cases hfirst : (date t).month = 1
    · rw [if_pos hfirst] at hm
      subst hm
      exact iff_of_true (fun hg => hg.1 hfirst) ⟨hmonth, hday.1, hday.2.trans hlen⟩
    · rw [if_neg hfirst] at hm
      subst hm
      exact ⟨fun hg => ⟨hmonth, hday.1, Nat.le_of_not_lt fun hlt => hg ⟨hfirst, hlt⟩⟩,
        fun hv hg => Nat.not_lt.mpr hv.day.2 hg.2⟩
  unfold retreatMonth
  dsimp only
  rw [hm, hy, replaceMonth]
  by_cases hg : Gap (date t)
  · rw [if_pos hg, replaceDate_of_not_valid fun hv => hgap.mpr hv hg]
    rfl
  · have hvalid := hgap.mp hg
    have hvalid' : (Date.mk y m (date t).day).Valid := by
      by_cases hlast : m = 12
      · subst hlast
        exact ⟨hmonth, hvalid.day⟩
      · rw [if_neg hlast] at hy
        exact hy ▸ hvalid
    have hend : (Date.mk y m (daysInMonth y m)).days = (date t).days - (date t).day := by
      have hlt := Date.days_nextMonth (d := ⟨y, m, daysInMonth y m⟩) hmonth
      have hsame : (Date.mk y m (daysInMonth y m)).nextMonth = (Date.mk y m 1).nextMonth := rfl
      have hfirst : (Date.mk (date t).year (date t).month 1).days =
          (date t).days - (date t).day + 1 := by
        unfold Date.days
        dsimp only
        omega
      rw [hsame, hnext, hfirst, daysInMonth_eq] at hlt
      dsimp only at hlt ⊢
      rw [daysInMonth_eq]
      omega
    rw [if_neg hg, replaceDate_of_valid hvalid]
    change (replaceYear _ y).bind _ = _
    rw [replaceYear, date_of_days hvalid (by omega) (by omega), replaceDate_of_valid hvalid']
    change (replaceDay _ _).bind _ = _
    rw [replaceDay, date_of_days hvalid' (by omega) (by omega),
      replaceDate_of_valid (lastDay_valid y hmonth)]
    change some (replaceSecond _ 59) = _
    rw [replace_end (by omega), hend]
    refine congrArg some ?_
    omega

end

namespace CronExpr

variable {c : CronExpr} {t t' u : Int}

/-! ## What a move passes -/

inductive Moved (c : CronExpr) (v : Moves) (t : Int) : Option Int → Prop where
  | month : c.month.testBit (date t).month = false → Moved c v t (v.month t)
  | day : c.month.testBit (date t).month = true →
      (c.dom.testBit (date t).day = false ∨ c.dow.testBit (weekday t) = false) →
      Moved c v t (some (v.day t))
  | hour : c.month.testBit (date t).month = true →
      c.hour.testBit (DateTime.hour t) = false → Moved c v t (some (v.hour t))
  | minute : c.month.testBit (date t).month = true →
      c.minute.testBit (DateTime.minute t) = false → Moved c v t (some (v.minute t))
  | second : c.month.testBit (date t).month = true →
      c.second.testBit (DateTime.second t) = false → Moved c v t (some (v.second t))

theorem moved {v : Moves} {r : Option Int} (h : c.move v t = some r) : c.Moved v t r := by
  unfold move at h
  simp only [Bool.not_eq_true'] at h
  split at h
  · next hmonth =>
      cases h
      exact .month hmonth
  · next hmonth =>
      rw [Bool.not_eq_false] at hmonth
      split at h
      · next hdom =>
          cases h
          exact .day hmonth (.inl hdom)
      · split at h
        · next hdow =>
            cases h
            exact .day hmonth (.inr hdow)
        · split at h
          · next hhour =>
              cases h
              exact .hour hmonth hhour
          · split at h
            · next hminute =>
                cases h
                exact .minute hmonth hminute
            · split at h
              · next hsecond =>
                  cases h
                  exact .second hmonth hsecond
              · cases h

theorem not_matches_of_day (h : c.dom.testBit (date t).day = false ∨ c.dow.testBit (weekday t) = false)
    (hday : u / 86400000000000 = t / 86400000000000) : ¬ c.Matches u := by
  intro hu
  rcases h with h | h
  · rw [← date_congr hday, hu.dom] at h
    cases h
  · rw [← weekday_congr hday, hu.dow] at h
    cases h

theorem not_matches_of_hour (h : c.hour.testBit (DateTime.hour t) = false)
    (hhour : u / 3600000000000 = t / 3600000000000) : ¬ c.Matches u := by
  intro hu
  rw [← hour_congr hhour, hu.hour] at h
  cases h

theorem not_matches_of_minute (h : c.minute.testBit (DateTime.minute t) = false)
    (hminute : u / 60000000000 = t / 60000000000) : ¬ c.Matches u := by
  intro hu
  rw [← minute_congr hminute, hu.minute] at h
  cases h

theorem not_matches_of_second (h : c.second.testBit (DateTime.second t) = false)
    (hsecond : u / 1000000000 = t / 1000000000) : ¬ c.Matches u := by
  intro hu
  rw [← second_congr hsecond, hu.second] at h
  cases h

theorem not_matches_of_month (h : c.month.testBit (date t).month = false)
    (hmonth : (date u).month = (date t).month) : ¬ c.Matches u := by
  intro hu
  rw [← hmonth, hu.month] at h
  cases h

theorem not_matches_forward (hwhole : t % 1000000000 = 0) (h : c.move forward t = some (some t'))
    (hle : t ≤ u) (hlt : u < t') : ¬ c.Matches u := by
  generalize hr : some t' = r at h
  cases moved h with
  | month hmonth =>
    have heq := hr.trans (advanceMonth_eq hwhole)
    cases heq
    have hnext := Date.days_nextMonth (date_valid t).month
    have hdays := days_date t
    have hpos := (date_valid t).day.1
    exact not_matches_of_month hmonth (month_congr (by omega) (by omega))
  | day hmonth hday =>
    have heq := hr.trans (congrArg some (advanceDay_eq hwhole))
    cases heq
    exact not_matches_of_day hday (by omega)
  | hour hmonth hhour =>
    have heq := hr.trans (congrArg some (advanceHour_eq hwhole))
    cases heq
    exact not_matches_of_hour hhour (by omega)
  | minute hmonth hminute =>
    have heq := hr.trans (congrArg some (advanceMinute_eq hwhole))
    cases heq
    exact not_matches_of_minute hminute (by omega)
  | second hmonth hsecond =>
    have heq : t' = t + 1000000000 := Option.some.inj hr
    exact not_matches_of_second hsecond (by omega)

theorem move_forward_ne_none (hwhole : t % 1000000000 = 0) : c.move forward t ≠ some none := by
  intro h
  generalize hr : (none : Option Int) = r at h
  cases moved h with
  | month hmonth => cases hr.trans (advanceMonth_eq hwhole)
  | day => cases hr
  | hour => cases hr
  | minute => cases hr
  | second => cases hr

theorem not_matches_backward (hwhole : t % 1000000000 = 0)
    (h : c.move backward t = some (some t')) (hu : u % 1000000000 = 0) (hlt : t' < u)
    (hle : u ≤ t) : ¬ c.Matches u := by
  generalize hr : some t' = r at h
  cases moved h with
  | month hmonth =>
    have heq := hr.trans (retreatMonth_eq hwhole)
    split at heq
    · cases heq
    · cases heq
      have hdays := days_date t
      have hlen := (date_valid t).day.2
      exact not_matches_of_month hmonth (month_congr (by omega) (by omega))
  | day hmonth hday =>
    have heq := hr.trans (congrArg some (retreatDay_eq hwhole))
    cases heq
    exact not_matches_of_day hday (by omega)
  | hour hmonth hhour =>
    have heq := hr.trans (congrArg some (retreatHour_eq hwhole))
    cases heq
    exact not_matches_of_hour hhour (by omega)
  | minute hmonth hminute =>
    have heq := hr.trans (congrArg some (retreatMinute_eq hwhole))
    cases heq
    exact not_matches_of_minute hminute (by omega)
  | second hmonth hsecond =>
    have heq : t' = t - 1000000000 := Option.some.inj hr
    exact not_matches_of_second hsecond (by omega)

/-! ## The search forward -/

def window (c : CronExpr) (lo hi : Int) : Set Int := {t | c.Occurrence t ∧ lo ≤ t ∧ t ≤ hi}

theorem nextFrom_exact (limit : Int) (hwhole : t % 1000000000 = 0) :
    (∀ r, c.nextFrom limit t = some r → IsLeast (c.window t limit) r) ∧
      (c.nextFrom limit t = none → c.window t limit = ∅) := by
  fun_induction nextFrom c limit t with
  | case1 t hle hnone =>
    refine ⟨fun r hr => ?_, fun hr => by cases hr⟩
    cases hr
    exact ⟨⟨⟨move_eq_none.mp hnone, hwhole⟩, Int.le_refl t, hle⟩, fun u hu => hu.2.1⟩
  | case2 t hle hmove => exact absurd hmove (move_forward_ne_none hwhole)
  | case3 t hle t' hmove ih =>
    obtain ⟨hlt, hmod⟩ := lt_forward hmove
    have hsame : c.window t limit = c.window t' limit := by
      ext u
      constructor
      · rintro ⟨hu, hlo, hhi⟩
        refine ⟨hu, Int.not_lt.mp fun hlt => ?_, hhi⟩
        exact not_matches_forward hwhole hmove hlo hlt hu.hit
      · rintro ⟨hu, hlo, hhi⟩
        exact ⟨hu, by omega, hhi⟩
    rw [hsame]
    exact ih (hmod.trans hwhole)
  | case4 t hgt =>
    refine ⟨fun r hr => (by cases hr), fun _ => ?_⟩
    refine Set.eq_empty_iff_forall_notMem.mpr fun u hu => ?_
    exact hgt (Int.le_trans hu.2.1 hu.2.2)

/-- `next_after` finds the first occurrence of the four years from a time on. -/
structure NextExact (c : CronExpr) (after : Int) : Prop where
  found : ∀ t, c.nextAfter after = some t ↔ IsLeast (c.window after (after + horizon)) t
  none : c.nextAfter after = none ↔ c.window after (after + horizon) = ∅

theorem truncate_le : c.truncate t ≤ t := by
  rw [truncate_eq]
  rcases c.granularity_eq with heq | heq
  · rw [heq]
    omega
  · rw [heq]
    omega

theorem Occurrence.eq_truncate (h : c.Occurrence u) (hle : c.truncate t ≤ u) (hlt : u < t) :
    u = c.truncate t := by
  have hgrid := h.grid
  rw [CronExpr.truncate_eq] at hle ⊢
  rcases c.granularity_eq with heq | heq
  · rw [heq] at hle hgrid ⊢
    omega
  · rw [heq] at hle hgrid ⊢
    omega

/-- The search forward is exact unless it starts inside a second, or minute, that matches. -/
theorem nextExact_iff (c : CronExpr) (after : Int) :
    c.NextExact after ↔ c.truncate after = after ∨ ¬ c.Matches (c.truncate after) := by
  have hle := truncate_le (c := c) (t := after)
  constructor
  · intro h
    by_contra! hboth
    obtain ⟨hne, hmatches⟩ := hboth
    have hstay : c.nextAfter after = some (c.truncate after) := by
      refine nextFrom_of_matches hmatches (hle.trans ?_)
      unfold horizon
      omega
    have hlo := ((h.found _).mp hstay).1.2.1
    omega
  · intro h
    have hsame : c.window (c.truncate after) (after + horizon) =
        c.window after (after + horizon) := by
      ext u
      refine ⟨fun ⟨hu, hlo, hhi⟩ => ⟨hu, ?_, hhi⟩, fun ⟨hu, hlo, hhi⟩ => ⟨hu, by omega, hhi⟩⟩
      rcases h with heq | hnot
      · omega
      · refine Int.not_lt.mp fun hlt => hnot ?_
        exact hu.eq_truncate hlo hlt ▸ hu.hit
    obtain ⟨hsome, hnone⟩ := nextFrom_exact (c := c) (after + horizon)
      (truncate_mod (c := c) (t := after))
    rw [hsame] at hsome hnone
    refine ⟨fun t => ⟨hsome t, fun ht => ?_⟩, hnone, fun hempty => ?_⟩
    · rcases hr : c.nextAfter after with _ | r
      · exact absurd ht.1 (hnone hr ▸ Set.notMem_empty t)
      · rw [(hsome r hr).unique ht]
    · rcases hr : c.nextAfter after with _ | r
      · rfl
      · exact absurd (hsome r hr).1 (hempty ▸ Set.notMem_empty r)

/-- The search forward from half a minute after a minute that matches. -/
theorem everyMinute_not_nextExact : ¬ ∀ (s : List Char) (c : CronExpr), parse s = .ok c →
    ∀ after, c.NextExact after := by
  intro h
  have hexact := h "* * * * *".toList
    ⟨1, 0xFFFFFFFFFFFFFFF, 0xFFFFFF, 0xFFFFFFFE, 0x1FFE, 0x7F⟩ rfl 30000000000
  have hfound : (CronExpr.mk 1 0xFFFFFFFFFFFFFFF 0xFFFFFF 0xFFFFFFFE 0x1FFE 0x7F).nextAfter
      30000000000 = some 0 := by
    refine nextFrom_of_matches ?_ (by decide)
    constructor <;> decide
  exact absurd ((hexact.found 0).mp hfound).1.2.1 (by decide)

/-! ## The search backward -/

/-- No month on the way back from a time to another is left from a day that the month
before lacks: a month that does not match is left from its last day, the first one from the
day of the time. -/
def Clear (c : CronExpr) (t before : Int) : Prop :=
  ∀ d : Date, d.Valid → (date t).days ≤ d.days → d.days ≤ (date before).days →
    (d = date before ∨ d.day = daysInMonth d.year d.month) →
    c.month.testBit d.month = false → ¬ Gap d

theorem Clear.mono (h : c.Clear t u) (hle : t ≤ t') : c.Clear t' u := by
  intro d hd hlo hhi
  refine h d hd ?_ hhi
  rw [days_date] at hlo ⊢
  omega

theorem eq_date_of_days {d : Date} (hd : d.Valid) (h : d.days = t / 86400000000000) :
    d = date t := by
  rw [date, ← h, Date.ofDays_days hd]

theorem last_or_next {d : Date} (hd : d.Valid) :
    d.day = daysInMonth d.year d.month ∨
      Date.ofDays (d.days + 1) = { d with day := d.day + 1 } := by
  have hlen := hd.day.2
  by_cases heq : d.day = daysInYearMonth d.year d.month
  · exact .inl heq
  · exact .inr (Date.ofDays_add hd (by omega) (by omega))

theorem clear_of_day (hmonth : c.month.testBit (date t).month = true)
    (hday : t' / 86400000000000 = t / 86400000000000 ∨
      t' / 86400000000000 + 1 = t / 86400000000000) :
    c.Clear u t' ↔ c.Clear u t := by
  constructor
  · intro h d hd hlo hhi hexit hnot
    have hne : d.days ≠ t / 86400000000000 := fun heq => by
      rw [← eq_date_of_days hd heq, hnot] at hmonth
      cases hmonth
    rw [days_date] at hhi
    refine h d hd hlo (by rw [days_date]; omega) (hexit.imp_left ?_) hnot
    rintro rfl
    exact absurd (days_date t) hne
  · intro h d hd hlo hhi hexit hnot
    rw [days_date] at hhi
    refine h d hd hlo (by rw [days_date]; omega) ?_ hnot
    rcases hexit with rfl | hlast
    · rcases hday with hsame | hnext
      · exact .inl (date_congr hsame)
      · refine .inr ((last_or_next hd).resolve_right fun hnext' => ?_)
        rw [days_date, hnext, ← date] at hnext'
        rw [hnext', hnot] at hmonth
        cases hmonth
    · exact .inr hlast

theorem clear_of_month (hgap : ¬ Gap (date t))
    (hdays : t' / 86400000000000 = t / 86400000000000 - (date t).day) :
    c.Clear u t' ↔ c.Clear u t := by
  have hdate := date_valid t
  have hlast : (date t').day = daysInMonth (date t').year (date t').month := by
    refine (last_or_next (date_valid t')).resolve_right fun hnext => ?_
    have hfirst := Date.ofDays_add hdate (k := 1 - (date t).day) (by omega)
      (by have := hdate.day; omega)
    have heq : (date t').days + 1 = (date t).days + (1 - (date t).day) := by
      rw [days_date, days_date]
      omega
    rw [heq, hfirst] at hnext
    have hone := congrArg Date.day hnext
    have hpos := (date_valid t').day.1
    dsimp only at hone
    omega
  have hday := hdate.day
  constructor
  · intro h d hd hlo hhi hexit hnot
    rw [days_date] at hhi
    by_cases hle : d.days ≤ t' / 86400000000000
    · refine h d hd hlo (by rwa [days_date]) (.inr ?_) hnot
      rcases hexit with rfl | hexit
      · rw [days_date] at hle
        omega
      · exact hexit
    · -- the only day left in the month of the time is that of the time
      have hadd := Date.ofDays_add hdate (k := d.days - (date t).days)
        (by rw [days_date]; omega) (by rw [days_date]; omega)
      rw [add_sub_cancel, Date.ofDays_days hd] at hadd
      rcases hexit with rfl | hexit
      · exact hgap
      · have hyear := congrArg Date.year hadd
        have hmonth := congrArg Date.month hadd
        have hnum := congrArg Date.day hadd
        dsimp only at hyear hmonth hnum
        rw [hyear, hmonth, daysInMonth_eq] at hexit
        have hsame : d.days = t / 86400000000000 := by
          rw [days_date] at hnum
          omega
        rw [eq_date_of_days hd hsame]
        exact hgap
  · intro h d hd hlo hhi hexit hnot
    rw [days_date] at hhi
    refine h d hd hlo (by rw [days_date]; omega) (.inr ?_) hnot
    rcases hexit with rfl | hexit
    · exact hlast
    · exact hexit

theorem clear_move (hwhole : t % 1000000000 = 0) (h : c.move backward t = some (some t')) :
    c.Clear u t' ↔ c.Clear u t := by
  generalize hr : some t' = r at h
  cases moved h with
  | month hmonth =>
    have heq := hr.trans (retreatMonth_eq hwhole)
    split at heq
    · cases heq
    · next hgap =>
        cases heq
        have hdays := days_date t
        exact clear_of_month hgap (by omega)
  | day hmonth =>
    have heq := hr.trans (congrArg some (retreatDay_eq hwhole))
    cases heq
    exact clear_of_day hmonth (by omega)
  | hour hmonth =>
    have heq := hr.trans (congrArg some (retreatHour_eq hwhole))
    cases heq
    exact clear_of_day hmonth (by omega)
  | minute hmonth =>
    have heq := hr.trans (congrArg some (retreatMinute_eq hwhole))
    cases heq
    exact clear_of_day hmonth (by omega)
  | second hmonth =>
    have heq : t' = t - 1000000000 := Option.some.inj hr
    exact clear_of_day hmonth (by omega)

theorem gap_of_move (hwhole : t % 1000000000 = 0) (h : c.move backward t = some none) :
    c.month.testBit (date t).month = false ∧ Gap (date t) := by
  generalize hr : (none : Option Int) = r at h
  cases moved h with
  | month hmonth =>
    have heq := hr.trans (retreatMonth_eq hwhole)
    split at heq
    · next hgap => exact ⟨hmonth, hgap⟩
    · cases heq
  | day => cases hr
  | hour => cases hr
  | minute => cases hr
  | second => cases hr

theorem prevFrom_exact {limit : Int} (hwhole : t % 1000000000 = 0)
    (hu : IsGreatest (c.window limit t) u) :
    (c.Clear u t → c.prevFrom limit t = some u) ∧
      (¬ c.Clear u t → c.prevFrom limit t = none) := by
  fun_induction prevFrom c limit t with
  | case1 t hle hnone =>
    have hmatches := move_eq_none.mp hnone
    have heq : u = t :=
      Int.le_antisymm hu.1.2.2 (hu.2 ⟨⟨hmatches, hwhole⟩, hle, Int.le_refl t⟩)
    subst heq
    refine ⟨fun _ => rfl, fun hblocked => absurd ?_ hblocked⟩
    intro d hd hlo hhi _ hnot
    rw [days_date] at hlo hhi
    rw [eq_date_of_days hd (Int.le_antisymm hhi hlo), hmatches.month] at hnot
    cases hnot
  | case2 t hle hmove =>
    obtain ⟨hmonth, hgap⟩ := gap_of_move hwhole hmove
    refine ⟨fun hclear => absurd hgap ?_, fun _ => rfl⟩
    refine hclear (date t) (date_valid t) ?_ (Int.le_refl _) (.inl rfl) hmonth
    rw [days_date, days_date]
    have := hu.1.2.2
    omega
  | case3 t hle t' hmove ih =>
    obtain ⟨hlt, hmod⟩ := backward_lt hmove
    rw [← clear_move hwhole hmove]
    refine ih (hmod.trans hwhole) ⟨⟨hu.1.1, hu.1.2.1, ?_⟩, fun v hv => ?_⟩
    · exact Int.not_lt.mp fun hlt =>
        not_matches_backward hwhole hmove hu.1.1.whole hlt hu.1.2.2 hu.1.1.hit
    · exact hu.2 ⟨hv.1, hv.2.1, hv.2.2.trans (Int.le_of_lt hlt)⟩
  | case4 t hgt => exact absurd (hu.1.2.1.trans hu.1.2.2) hgt

theorem prevFrom_of_gap {limit : Int} (h : c.move backward t = some none) :
    c.prevFrom limit t = none := by
  rw [prevFrom]
  split
  · split
    · next hmove => cases h.symm.trans hmove
    · rfl
    · next hmove => cases h.symm.trans hmove
  · rfl

theorem le_prevFrom {limit : Int} (h : c.prevFrom limit t = some t') : limit ≤ t' := by
  fun_induction prevFrom c limit t with
  | case1 t hle =>
    cases h
    exact hle
  | case2 => cases h
  | case3 t _ t₁ _ ih => exact ih h
  | case4 => cases h

/-- `prev_before` finds the last occurrence of the four years up to a time. -/
structure PrevExact (c : CronExpr) (before : Int) : Prop where
  found : ∀ t, c.prevBefore before = some t ↔ IsGreatest (c.window (before - horizon) before) t
  none : c.prevBefore before = none ↔ c.window (before - horizon) before = ∅

theorem truncate_date : (c.truncate t) / 86400000000000 = t / 86400000000000 := by
  rw [truncate_eq]
  rcases c.granularity_eq with heq | heq
  · rw [heq]
    omega
  · rw [heq]
    omega

theorem window_truncate (c : CronExpr) (limit t : Int) :
    c.window limit (c.truncate t) = c.window limit t := by
  ext u
  refine ⟨fun ⟨hu, hlo, hhi⟩ => ⟨hu, hlo, hhi.trans truncate_le⟩, fun ⟨hu, hlo, hhi⟩ => ⟨hu, hlo, ?_⟩⟩
  have hgrid := hu.grid
  rw [truncate_eq]
  rcases c.granularity_eq with heq | heq
  · rw [heq] at hgrid ⊢
    omega
  · rw [heq] at hgrid ⊢
    omega

/-- The search backward is exact where there is nothing to find, or the way back to some
occurrence is clear. -/
theorem prevExact_iff (c : CronExpr) (before : Int) :
    c.PrevExact before ↔ c.window (before - horizon) before = ∅ ∨
      ∃ t ∈ c.window (before - horizon) before, c.Clear t before := by
  have hclear : ∀ u, c.Clear u (c.truncate before) ↔ c.Clear u before := fun u => by
    rw [Clear, date_congr truncate_date, ← Clear]
  have hnone : c.window (before - horizon) before = ∅ → c.prevBefore before = none := by
    intro hempty
    rcases hr : c.prevBefore before with _ | r
    · rfl
    · have hmem : r ∈ c.window (before - horizon) before :=
        ⟨prevBefore_eq_some hr, le_prevFrom hr, (prevFrom_eq_some hr).2.1.trans truncate_le⟩
      exact absurd hmem (hempty ▸ Set.notMem_empty r)
  rcases (c.window (before - horizon) before).eq_empty_or_nonempty with hempty | ⟨t₀, ht₀⟩
  · refine iff_of_true ⟨fun t => ?_, iff_of_true (hnone hempty) hempty⟩ (.inl hempty)
    rw [hnone hempty]
    exact iff_of_false nofun fun h => by rw [hempty] at h; exact h.1
  · obtain ⟨u, hu, hgreatest⟩ := Int.exists_greatest_of_bdd
      (P := fun t => t ∈ c.window (before - horizon) before) ⟨before, fun _ h => h.2.2⟩ ⟨t₀, ht₀⟩
    have hmax : IsGreatest (c.window (before - horizon) before) u := ⟨hu, hgreatest⟩
    have hne : c.window (before - horizon) before ≠ ∅ := fun h => by rw [h] at hu; exact hu
    have hmax' : IsGreatest (c.window (before - horizon) (c.truncate before)) u := by
      rwa [window_truncate]
    obtain ⟨hsome, hblocked⟩ := prevFrom_exact truncate_mod hmax'
    rw [hclear] at hsome hblocked
    constructor
    · intro h
      refine .inr ⟨u, hu, ?_⟩
      by_contra hnot
      exact hne (h.none.mp (hblocked hnot))
    · rintro (hempty | ⟨t, ht, hfree⟩)
      · exact absurd hempty hne
      · have hfound : c.prevBefore before = some u := hsome (hfree.mono (hgreatest t ht))
        refine ⟨fun t => ?_, ?_⟩
        · rw [hfound, Option.some_inj]
          exact ⟨fun heq => heq ▸ hmax, fun h => hmax.unique h⟩
        · rw [hfound]
          exact iff_of_false nofun hne

/-- From the last of March there is no way back to February. -/
theorem february_not_prevExact : ¬ ∀ (s : List Char) (c : CronExpr), parse s = .ok c →
    ∀ before, c.PrevExact before := by
  intro h
  have hexact := h "0 0 * 2 *".toList ⟨1, 1, 1, 0xFFFFFFFE, 4, 0x7F⟩ rfl 1774915200000000000
  have hnone : (CronExpr.mk 1 1 1 0xFFFFFFFE 4 0x7F).prevBefore 1774915200000000000 = none := by
    exact prevFrom_of_gap (by decide)
  have hlast : (1772236800000000000 : Int) ∈ (CronExpr.mk 1 1 1 0xFFFFFFFE 4 0x7F).window
      (1774915200000000000 - horizon) 1774915200000000000 := by
    refine ⟨⟨?_, rfl⟩, by decide, by decide⟩
    constructor <;> decide
  rw [hexact.none.mp hnone] at hlast
  exact hlast

end CronExpr

end Hardy.Tvr
