import Hardy.Calendar

/-!
# Cron expressions

Model of `tvr/src/cron.rs`, less its parser: the searches for the next and for the last
time that an expression matches.  Both loops go one way, so each ends at its limit of
four years.  A search stays where it is if the time it starts from matches.
-/

namespace Hardy.Tvr

open DateTime

/-- The values of each field that match, as bits. -/
structure CronExpr where
  second : Nat
  minute : Nat
  hour : Nat
  dom : Nat
  month : Nat
  dow : Nat
deriving DecidableEq

/-! ## Moving on -/

def advanceMinute (t : Int) : Int := replaceSecond t 0 + 60000000000

def advanceHour (t : Int) : Int := replaceMinute (replaceSecond t 0) 0 + 3600000000000

def advanceDay (t : Int) : Int :=
  replaceHour (replaceMinute (replaceSecond t 0) 0) 0 + 86400000000000

def advanceMonth (t : Int) : Option Int := do
  let t ← replaceDay (replaceHour (replaceMinute (replaceSecond t 0) 0) 0) 1
  let m := (date t).month % 12 + 1
  let y := if m = 1 then (date t).year + 1 else (date t).year
  replaceYear (← replaceMonth t m) y

def retreatMinute (t : Int) : Int := replaceSecond t 59 - 60000000000

def retreatHour (t : Int) : Int := replaceMinute (replaceSecond t 59) 59 - 3600000000000

def retreatDay (t : Int) : Int :=
  replaceHour (replaceMinute (replaceSecond t 59) 59) 23 - 86400000000000

def daysInMonth (year : Int) (month : Nat) : Nat :=
  if month = 2 then
    if year % 4 = 0 && (year % 100 ≠ 0 || year % 400 = 0) then 29 else 28
  else if month = 4 ∨ month = 6 ∨ month = 9 ∨ month = 11 then 30
  else 31

def retreatMonth (t : Int) : Option Int := do
  let m := if (date t).month = 1 then 12 else (date t).month - 1
  let y := if m = 12 then (date t).year - 1 else (date t).year
  let t ← replaceMonth t m
  let t ← replaceYear t y
  let t ← replaceDay t (daysInMonth y m)
  return replaceSecond (replaceMinute (replaceHour t 23) 59) 59

/-- Where a search goes from a time whose month, day, hour, minute or second does not
match. -/
structure Moves where
  month : Int → Option Int
  day : Int → Int
  hour : Int → Int
  minute : Int → Int
  second : Int → Int

def forward : Moves :=
  ⟨advanceMonth, advanceDay, advanceHour, advanceMinute, fun t => t + 1000000000⟩

def backward : Moves :=
  ⟨retreatMonth, retreatDay, retreatHour, retreatMinute, fun t => t - 1000000000⟩

namespace CronExpr

def hasSeconds (c : CronExpr) : Bool := c.second ≠ 1

/-- The time to look at after one at which a field does not match.  The month comes
first, for a month that does not match has no day to look at. -/
def move (c : CronExpr) (v : Moves) (t : Int) : Option (Option Int) :=
  if !c.month.testBit (date t).month then some (v.month t)
  else if !c.dom.testBit (date t).day then some (some (v.day t))
  else if !c.dow.testBit (weekday t) then some (some (v.day t))
  else if !c.hour.testBit (DateTime.hour t) then some (some (v.hour t))
  else if !c.minute.testBit (DateTime.minute t) then some (some (v.minute t))
  else if !c.second.testBit (DateTime.second t) then some (some (v.second t))
  else none

structure Matches (c : CronExpr) (t : Int) : Prop where
  month : c.month.testBit (date t).month = true
  dom : c.dom.testBit (date t).day = true
  dow : c.dow.testBit (weekday t) = true
  hour : c.hour.testBit (DateTime.hour t) = true
  minute : c.minute.testBit (DateTime.minute t) = true
  second : c.second.testBit (DateTime.second t) = true

end CronExpr

/-! ## Both ways -/

section

variable {t t' : Int}

theorem startOfDay_div :
    replaceHour (replaceMinute (replaceSecond t 0) 0) 0 / 86400000000000 = t / 86400000000000 ∧
      replaceHour (replaceMinute (replaceSecond t 0) 0) 0 % 1000000000 = t % 1000000000 := by
  obtain ⟨hdiv, hmod, -⟩ := replaceSecond_div (t := t) (show 0 < 60 by omega)
  obtain ⟨hdiv', hmod'⟩ := replaceMinute_div (t := replaceSecond t 0) (show 0 < 60 by omega)
  obtain ⟨hdiv'', hmod''⟩ :=
    replaceHour_div (t := replaceMinute (replaceSecond t 0) 0) (show 0 < 24 by omega)
  omega

theorem lt_advanceMinute : t < advanceMinute t ∧ advanceMinute t % 1000000000 = t % 1000000000 := by
  obtain ⟨hdiv, hmod, -⟩ := replaceSecond_div (t := t) (show 0 < 60 by omega)
  unfold advanceMinute
  omega

theorem lt_advanceHour : t < advanceHour t ∧ advanceHour t % 1000000000 = t % 1000000000 := by
  obtain ⟨hdiv, hmod, -⟩ := replaceSecond_div (t := t) (show 0 < 60 by omega)
  obtain ⟨hdiv', hmod'⟩ := replaceMinute_div (t := replaceSecond t 0) (show 0 < 60 by omega)
  unfold advanceHour
  omega

theorem lt_advanceDay : t < advanceDay t ∧ advanceDay t % 1000000000 = t % 1000000000 := by
  obtain ⟨hdiv, hmod⟩ := startOfDay_div (t := t)
  unfold advanceDay
  omega

theorem lt_advanceMonth (h : advanceMonth t = some t') :
    t < t' ∧ t' % 1000000000 = t % 1000000000 := by
  unfold advanceMonth at h
  obtain ⟨t₁, h₁, h⟩ := Option.bind_eq_some_iff.mp h
  dsimp only at h
  obtain ⟨t₂, h₂, h₃⟩ := Option.bind_eq_some_iff.mp h
  obtain ⟨hdiv, hmod⟩ := startOfDay_div (t := t)
  have hdate : date (replaceHour (replaceMinute (replaceSecond t 0) 0) 0) = date t := by
    rw [date, hdiv, ← date]
  have hdate₁ := date_replaceDate h₁
  have hdate₂ := date_replaceDate h₂
  obtain ⟨hday₁, hmod₁⟩ := replaceDate_mod h₁
  obtain ⟨hday₂, hmod₂⟩ := replaceDate_mod h₂
  obtain ⟨hday₃, hmod₃⟩ := replaceDate_mod h₃
  rw [hdate₂, hdate₁, hdate] at hday₃
  have hnext := Date.days_nextMonth (date_valid t).month
  have hlen := (date_valid t).day.2
  have hsame : (date t).days = t / 86400000000000 := Date.days_ofDays _
  rw [Date.nextMonth_eq (date_valid t).month] at hnext
  dsimp only at hday₃
  omega

theorem endOfDay_div :
    replaceHour (replaceMinute (replaceSecond t 59) 59) 23 / 86400000000000 = t / 86400000000000 ∧
      replaceHour (replaceMinute (replaceSecond t 59) 59) 23 % 1000000000 = t % 1000000000 := by
  obtain ⟨hdiv, hmod, -⟩ := replaceSecond_div (t := t) (show 59 < 60 by omega)
  obtain ⟨hdiv', hmod'⟩ := replaceMinute_div (t := replaceSecond t 59) (show 59 < 60 by omega)
  obtain ⟨hdiv'', hmod''⟩ :=
    replaceHour_div (t := replaceMinute (replaceSecond t 59) 59) (show 23 < 24 by omega)
  omega

theorem lastSecond_div :
    replaceSecond (replaceMinute (replaceHour t 23) 59) 59 / 86400000000000 = t / 86400000000000 ∧
      replaceSecond (replaceMinute (replaceHour t 23) 59) 59 % 1000000000 = t % 1000000000 := by
  obtain ⟨hdiv, hmod⟩ := replaceHour_div (t := t) (show 23 < 24 by omega)
  obtain ⟨hdiv', hmod'⟩ := replaceMinute_div (t := replaceHour t 23) (show 59 < 60 by omega)
  obtain ⟨hdiv'', hmod'', -⟩ :=
    replaceSecond_div (t := replaceMinute (replaceHour t 23) 59) (show 59 < 60 by omega)
  omega

theorem retreatMinute_lt : retreatMinute t < t ∧ retreatMinute t % 1000000000 = t % 1000000000 := by
  obtain ⟨hdiv, hmod, -⟩ := replaceSecond_div (t := t) (show 59 < 60 by omega)
  unfold retreatMinute
  omega

theorem retreatHour_lt : retreatHour t < t ∧ retreatHour t % 1000000000 = t % 1000000000 := by
  obtain ⟨hdiv, hmod, -⟩ := replaceSecond_div (t := t) (show 59 < 60 by omega)
  obtain ⟨hdiv', hmod'⟩ := replaceMinute_div (t := replaceSecond t 59) (show 59 < 60 by omega)
  unfold retreatHour
  omega

theorem retreatDay_lt : retreatDay t < t ∧ retreatDay t % 1000000000 = t % 1000000000 := by
  obtain ⟨hdiv, hmod⟩ := endOfDay_div (t := t)
  unfold retreatDay
  omega

theorem lastDay_lt {y : Int} {m : Nat} (h : 1 ≤ m ∧ m ≤ 12) :
    (Date.mk y m (daysInMonth y m)).days < (Date.mk y m 1).nextMonth.days := by
  have hnext := Date.days_nextMonth (d := ⟨y, m, daysInMonth y m⟩) h
  have hsame : (Date.mk y m 1).nextMonth = (Date.mk y m (daysInMonth y m)).nextMonth := rfl
  have hlen : daysInYearMonth y m = daysInMonth y m := rfl
  rw [hsame, hnext]
  dsimp only
  omega

theorem nextMonth_previous {d : Date} (h : 1 ≤ d.month ∧ d.month ≤ 12) {m : Nat} {y : Int}
    (hm : (if d.month = 1 then 12 else d.month - 1) = m)
    (hy : (if m = 12 then d.year - 1 else d.year) = y) :
    (1 ≤ m ∧ m ≤ 12) ∧ (Date.mk y m 1).nextMonth = ⟨d.year, d.month, 1⟩ := by
  unfold Date.nextMonth
  dsimp only
  by_cases hfirst : d.month = 1
  · rw [if_pos hfirst] at hm
    subst hm
    rw [if_pos rfl] at hy
    rw [if_pos rfl, ← hy, hfirst, Int.sub_add_cancel]
    exact ⟨by omega, rfl⟩
  · rw [if_neg hfirst] at hm
    rw [if_neg (by omega)] at hy ⊢
    rw [← hm, ← hy, Nat.sub_add_cancel h.1]
    exact ⟨by omega, rfl⟩

theorem retreatMonth_lt (h : retreatMonth t = some t') :
    t' < t ∧ t' % 1000000000 = t % 1000000000 := by
  unfold retreatMonth at h
  dsimp only at h
  obtain ⟨m, hm⟩ : ∃ m, (if (date t).month = 1 then 12 else (date t).month - 1) = m := ⟨_, rfl⟩
  obtain ⟨y, hy⟩ : ∃ y, (if m = 12 then (date t).year - 1 else (date t).year) = y := ⟨_, rfl⟩
  rw [hm, hy] at h
  obtain ⟨t₁, h₁, h⟩ := Option.bind_eq_some_iff.mp h
  obtain ⟨t₂, h₂, h⟩ := Option.bind_eq_some_iff.mp h
  obtain ⟨t₃, h₃, h⟩ := Option.bind_eq_some_iff.mp h
  cases h
  have hdate₁ := date_replaceDate h₁
  have hdate₂ := date_replaceDate h₂
  obtain ⟨hday₁, hmod₁⟩ := replaceDate_mod h₁
  obtain ⟨hday₂, hmod₂⟩ := replaceDate_mod h₂
  obtain ⟨hday₃, hmod₃⟩ := replaceDate_mod h₃
  rw [hdate₂, hdate₁] at hday₃
  dsimp only at hday₃
  obtain ⟨hmonth, hnext⟩ := nextMonth_previous (date_valid t).month hm hy
  have hlt := lastDay_lt (y := y) hmonth
  rw [hnext] at hlt
  have hfirst : (Date.mk (date t).year (date t).month 1).days ≤ (date t).days := by
    have hpos := (date_valid t).day.1
    unfold Date.days
    dsimp only
    omega
  have hsame : (date t).days = t / 86400000000000 := Date.days_ofDays _
  obtain ⟨hdiv, hmod⟩ := lastSecond_div (t := t₃)
  omega

end

/-! ## The searches -/

namespace CronExpr

variable {c : CronExpr} {t t' : Int}

theorem move_eq_none {v : Moves} : c.move v t = none ↔ c.Matches t := by
  unfold move
  constructor
  · intro h
    split at h
    · cases h
    · split at h
      · cases h
      · split at h
        · cases h
        · split at h
          · cases h
          · split at h
            · cases h
            · split at h
              · cases h
              · simp only [Bool.not_eq_true', Bool.not_eq_false] at *
                constructor <;> assumption
  · rintro ⟨hmonth, hdom, hdow, hhour, hminute, hsecond⟩
    simp only [hmonth, hdom, hdow, hhour, hminute, hsecond]
    rfl

theorem move_eq_some {v : Moves} (h : c.move v t = some (some t')) :
    v.month t = some t' ∨ t' = v.day t ∨ t' = v.hour t ∨ t' = v.minute t ∨ t' = v.second t := by
  unfold move at h
  split at h
  · exact .inl (Option.some.inj h)
  · split at h
    · cases h
      exact .inr (.inl rfl)
    · split at h
      · cases h
        exact .inr (.inl rfl)
      · split at h
        · cases h
          exact .inr (.inr (.inl rfl))
        · split at h
          · cases h
            exact .inr (.inr (.inr (.inl rfl)))
          · split at h
            · cases h
              exact .inr (.inr (.inr (.inr rfl)))
            · cases h

theorem lt_forward (h : c.move forward t = some (some t')) :
    t < t' ∧ t' % 1000000000 = t % 1000000000 := by
  rcases move_eq_some h with h | rfl | rfl | rfl | rfl
  · exact lt_advanceMonth h
  · exact lt_advanceDay
  · exact lt_advanceHour
  · exact lt_advanceMinute
  · unfold forward
    dsimp only
    omega

theorem backward_lt (h : c.move backward t = some (some t')) :
    t' < t ∧ t' % 1000000000 = t % 1000000000 := by
  rcases move_eq_some h with h | rfl | rfl | rfl | rfl
  · exact retreatMonth_lt h
  · exact retreatDay_lt
  · exact retreatHour_lt
  · exact retreatMinute_lt
  · unfold backward
    dsimp only
    omega

def nextFrom (c : CronExpr) (limit t : Int) : Option Int :=
  if t ≤ limit then
    match _h : c.move forward t with
    | none => some t
    | some none => none
    | some (some t') => nextFrom c limit t'
  else none
termination_by (limit + 1 - t).toNat
decreasing_by
  have hlt := (lt_forward _h).1
  omega

/-- The loop of `prev_before`. -/
def prevFrom (c : CronExpr) (limit t : Int) : Option Int :=
  if limit ≤ t then
    match _h : c.move backward t with
    | none => some t
    | some none => none
    | some (some t') => prevFrom c limit t'
  else none
termination_by (t + 1 - limit).toNat
decreasing_by
  have hlt := (backward_lt _h).1
  omega

def truncate (c : CronExpr) (t : Int) : Int :=
  if c.hasSeconds then replaceNanosecond t 0 else replaceSecond (replaceNanosecond t 0) 0

def horizon : Int := 126489600000000000

def nextAfter (c : CronExpr) (after : Int) : Option Int :=
  c.nextFrom (after + horizon) (c.truncate after)

def prevBefore (c : CronExpr) (before : Int) : Option Int :=
  c.prevFrom (before - horizon) (c.truncate before)

structure Occurrence (c : CronExpr) (t : Int) : Prop where
  hit : c.Matches t
  whole : t % 1000000000 = 0

theorem nextFrom_eq_some {limit : Int} (h : c.nextFrom limit t = some t') :
    c.Matches t' ∧ t ≤ t' ∧ t' % 1000000000 = t % 1000000000 := by
  fun_induction nextFrom c limit t with
  | case1 t _ hnone =>
    cases h
    exact ⟨move_eq_none.mp hnone, Int.le_refl _, rfl⟩
  | case2 => cases h
  | case3 t _ t₁ hmove ih =>
    obtain ⟨hlt, hmod⟩ := lt_forward hmove
    obtain ⟨hmatches, hle, hmod'⟩ := ih h
    exact ⟨hmatches, Int.le_of_lt (Int.lt_of_lt_of_le hlt hle), hmod'.trans hmod⟩
  | case4 => cases h

theorem prevFrom_eq_some {limit : Int} (h : c.prevFrom limit t = some t') :
    c.Matches t' ∧ t' ≤ t ∧ t' % 1000000000 = t % 1000000000 := by
  fun_induction prevFrom c limit t with
  | case1 t _ hnone =>
    cases h
    exact ⟨move_eq_none.mp hnone, Int.le_refl _, rfl⟩
  | case2 => cases h
  | case3 t _ t₁ hmove ih =>
    obtain ⟨hlt, hmod⟩ := backward_lt hmove
    obtain ⟨hmatches, hle, hmod'⟩ := ih h
    exact ⟨hmatches, Int.le_of_lt (Int.lt_of_le_of_lt hle hlt), hmod'.trans hmod⟩
  | case4 => cases h

theorem nextFrom_of_matches {limit : Int} (h : c.Matches t) (hle : t ≤ limit) :
    c.nextFrom limit t = some t := by
  rw [nextFrom, if_pos hle]
  split
  · rfl
  · next hmove => cases (move_eq_none.mpr h).symm.trans hmove
  · next hmove => cases (move_eq_none.mpr h).symm.trans hmove

theorem prevFrom_of_matches {limit : Int} (h : c.Matches t) (hle : limit ≤ t) :
    c.prevFrom limit t = some t := by
  rw [prevFrom, if_pos hle]
  split
  · rfl
  · next hmove => cases (move_eq_none.mpr h).symm.trans hmove
  · next hmove => cases (move_eq_none.mpr h).symm.trans hmove

/-! ## Truncation -/

/-- The nanoseconds that the expression does not tell apart. -/
def granularity (c : CronExpr) : Int := if c.hasSeconds then 1000000000 else 60000000000

theorem granularity_eq (c : CronExpr) :
    c.granularity = 1000000000 ∨ c.granularity = 60000000000 := by
  unfold granularity
  split
  · exact .inl rfl
  · exact .inr rfl

theorem truncate_eq : c.truncate t = t - t % c.granularity := by
  unfold truncate granularity
  rw [replaceNanosecond_zero]
  split
  · rfl
  · unfold replaceSecond DateTime.second
    omega

theorem truncate_mod : c.truncate t % 1000000000 = 0 := by
  rw [truncate_eq]
  rcases c.granularity_eq with heq | heq
  · rw [heq]
    omega
  · rw [heq]
    omega

theorem Occurrence.grid (h : c.Occurrence t) : t % c.granularity = 0 := by
  have hwhole := h.whole
  have hsecond := h.hit.second
  unfold granularity hasSeconds
  by_cases hc : c.second = 1
  · rw [hc, Nat.testBit_one_eq_true_iff_self_eq_zero] at hsecond
    rw [hc, if_neg (by simp)]
    unfold DateTime.second at hsecond
    omega
  · rw [decide_eq_true hc, if_pos rfl]
    exact hwhole

theorem nextAfter_eq_some (h : c.nextAfter t = some t') :
    c.Occurrence t' ∧ c.truncate t ≤ t' := by
  obtain ⟨hmatches, hle, hmod⟩ := nextFrom_eq_some h
  exact ⟨⟨hmatches, hmod.trans truncate_mod⟩, hle⟩

theorem prevBefore_eq_some (h : c.prevBefore t = some t') : c.Occurrence t' := by
  obtain ⟨hmatches, hle, hmod⟩ := prevFrom_eq_some h
  exact ⟨hmatches, hmod.trans truncate_mod⟩

theorem Occurrence.truncate_eq (h : c.Occurrence t') (hle : t' ≤ t) (hlt : t < t' + c.granularity) :
    c.truncate t = t' := by
  have hgrid := h.grid
  rw [CronExpr.truncate_eq]
  rcases c.granularity_eq with heq | heq
  · rw [heq] at hlt hgrid ⊢
    omega
  · rw [heq] at hlt hgrid ⊢
    omega

theorem Occurrence.nextAfter_eq (h : c.Occurrence t') (hle : t' ≤ t)
    (hlt : t < t' + c.granularity) : c.nextAfter t = some t' := by
  unfold nextAfter
  rw [h.truncate_eq hle hlt]
  refine nextFrom_of_matches h.hit ?_
  unfold horizon
  omega

theorem Occurrence.prevBefore_eq (h : c.Occurrence t') (hle : t' ≤ t)
    (hlt : t < t' + c.granularity) : c.prevBefore t = some t' := by
  unfold prevBefore
  rw [h.truncate_eq hle hlt]
  refine prevFrom_of_matches h.hit ?_
  unfold horizon
  rcases c.granularity_eq with heq | heq
  · rw [heq] at hlt
    omega
  · rw [heq] at hlt
    omega

theorem Occurrence.lt_nextAfter {s : Int} (h : c.Occurrence s) (hle : s + c.granularity ≤ t)
    (hnext : c.nextAfter t = some t') : s + c.granularity ≤ t' := by
  have hgrid := h.grid
  have htrunc := (nextAfter_eq_some hnext).2
  rw [CronExpr.truncate_eq] at htrunc
  rcases c.granularity_eq with heq | heq
  · rw [heq] at hle hgrid htrunc ⊢
    omega
  · rw [heq] at hle hgrid htrunc ⊢
    omega

end CronExpr

end Hardy.Tvr
