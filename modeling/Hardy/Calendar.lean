import Mathlib.Tactic.IntervalCases
import Mathlib.Data.Int.Basic

/-!
# The Gregorian calendar

Dates as days since the first of January 1970 and back, and times in UTC as nanoseconds
since then.  Years are counted from March to February inside, so that the leap day is
the last day of its year.  There is no first and no last year.
-/

namespace Hardy

/-! ## Days -/

def marchDays (y : Int) : Int := 365 * y + y / 4 - y / 100 + y / 400

def marchYear (z : Int) : Int :=
  let q := 400 * z / 146097
  if marchDays (q + 1) ≤ z then q + 1 else q

theorem marchDays_marchYear (z : Int) : marchDays (marchYear z) ≤ z := by
  unfold marchYear
  dsimp only
  split
  · assumption
  · unfold marchDays
    omega

theorem lt_marchDays (z : Int) : z < marchDays (marchYear z + 1) := by
  unfold marchYear
  dsimp only
  split
  · unfold marchDays
    omega
  · omega

theorem marchDays_mono {y y' : Int} (h : y ≤ y') : marchDays y ≤ marchDays y' := by
  unfold marchDays
  omega

theorem marchYear_eq {y z : Int} (hle : marchDays y ≤ z) (hlt : z < marchDays (y + 1)) :
    marchYear z = y := by
  have hle' := marchDays_marchYear z
  have hlt' := lt_marchDays z
  refine Int.le_antisymm (Int.not_lt.mp fun h => ?_) (Int.not_lt.mp fun h => ?_)
  · have := marchDays_mono h
    omega
  · have := marchDays_mono h
    omega

theorem marchDays_succ (y : Int) : marchDays (y + 1) ≤ marchDays y + 366 := by
  unfold marchDays
  omega

def isLeapYear (year : Int) : Bool := year % 4 = 0 && (year % 100 ≠ 0 || year % 400 = 0)

theorem marchDays_leap (y : Int) :
    marchDays (y + 1) = marchDays y + 365 + if isLeapYear (y + 1) then 1 else 0 := by
  unfold marchDays isLeapYear
  simp only [Bool.and_eq_true, Bool.or_eq_true, decide_eq_true_eq]
  split <;> omega

structure Date where
  year : Int
  month : Nat
  day : Nat
deriving DecidableEq

def daysInYearMonth (year : Int) (month : Nat) : Nat :=
  if month = 2 then if isLeapYear year then 29 else 28
  else if month = 4 ∨ month = 6 ∨ month = 9 ∨ month = 11 then 30
  else 31

namespace Date

def monthStart (m : Nat) : Nat := (153 * m + 2) / 5

def ofDays (d : Int) : Date :=
  let y := marchYear (d + 719468)
  let n := (d + 719468 - marchDays y).toNat
  let m := (5 * n + 2) / 153
  ⟨if m < 10 then y else y + 1, if m < 10 then m + 3 else m - 9, n - monthStart m + 1⟩

def days (d : Date) : Int :=
  marchDays (if d.month ≤ 2 then d.year - 1 else d.year) + monthStart ((d.month + 9) % 12) +
    d.day - 719469

structure Valid (d : Date) : Prop where
  month : 1 ≤ d.month ∧ d.month ≤ 12
  day : 1 ≤ d.day ∧ d.day ≤ daysInYearMonth d.year d.month

instance (d : Date) : Decidable d.Valid :=
  decidable_of_iff ((1 ≤ d.month ∧ d.month ≤ 12) ∧ 1 ≤ d.day ∧ d.day ≤ daysInYearMonth d.year d.month)
    ⟨fun h => ⟨h.1, h.2⟩, fun h => ⟨h.1, h.2⟩⟩

def nextMonth (d : Date) : Date :=
  if d.month = 12 then ⟨d.year + 1, 1, 1⟩ else ⟨d.year, d.month + 1, 1⟩

theorem nextMonth_eq {d : Date} (h : 1 ≤ d.month ∧ d.month ≤ 12) : d.nextMonth =
    ⟨if d.month % 12 + 1 = 1 then d.year + 1 else d.year, d.month % 12 + 1, 1⟩ := by
  unfold nextMonth
  by_cases hm : d.month = 12
  · rw [if_pos hm, hm]
    rfl
  · rw [if_neg hm, if_neg (by omega), Nat.mod_eq_of_lt (by omega)]

theorem monthStart_add {m : Nat} (h : 1 ≤ m ∧ m ≤ 12) (hfeb : m ≠ 2) (y : Int) :
    monthStart ((m + 9) % 12) + daysInYearMonth y m = monthStart ((m + 9) % 12 + 1) := by
  obtain ⟨hlo, hhi⟩ := h
  interval_cases m <;> first | rfl | exact absurd rfl hfeb

theorem monthStart_feb (y : Int) :
    marchDays (y - 1) + monthStart 11 + daysInYearMonth y 2 = marchDays y := by
  have hleap := marchDays_leap (y - 1)
  rw [Int.sub_add_cancel] at hleap
  unfold daysInYearMonth monthStart
  rw [if_pos rfl, hleap]
  split <;> omega

theorem days_nextMonth {d : Date} (h : 1 ≤ d.month ∧ d.month ≤ 12) :
    d.nextMonth.days = d.days + daysInYearMonth d.year d.month - d.day + 1 := by
  obtain ⟨y, m, n⟩ := d
  dsimp only at h ⊢
  by_cases hfeb : m = 2
  · subst hfeb
    have hrest := monthStart_feb y
    simp only [nextMonth, days]
    simp [monthStart] at hrest ⊢
    omega
  · have hnext := monthStart_add h hfeb y
    by_cases hdec : m = 12
    · subst hdec
      simp only [nextMonth, days]
      simp at hnext ⊢
      omega
    · have hmod : (m + 1 + 9) % 12 = (m + 9) % 12 + 1 := by omega
      have hyear : m + 1 ≤ 2 ↔ m ≤ 2 := by omega
      simp only [nextMonth, days, if_neg hdec, hmod, hyear]
      omega

theorem exists_march (d : Int) : ∃ n : Nat, n ≤ 365 ∧
    d + 719468 = marchDays (marchYear (d + 719468)) + n ∧
    marchDays (marchYear (d + 719468)) + n < marchDays (marchYear (d + 719468) + 1) := by
  have hle := marchDays_marchYear (d + 719468)
  have hlt := lt_marchDays (d + 719468)
  have hsucc := marchDays_succ (marchYear (d + 719468))
  exact ⟨(d + 719468 - marchDays (marchYear (d + 719468))).toNat, by omega, by omega, by omega⟩

theorem monthStart_le {n : Nat} (h : n ≤ 365) : (5 * n + 2) / 153 ≤ 11 ∧
    monthStart ((5 * n + 2) / 153) ≤ n ∧ n < monthStart ((5 * n + 2) / 153 + 1) := by
  unfold monthStart
  omega

theorem days_ofDays (d : Int) : (ofDays d).days = d := by
  obtain ⟨n, hn, hd, -⟩ := exists_march d
  obtain ⟨hm, hstart, -⟩ := monthStart_le hn
  unfold ofDays
  dsimp only
  have hn' : (d + 719468 - marchDays (marchYear (d + 719468))).toNat = n := by omega
  rw [hn']
  generalize (5 * n + 2) / 153 = m at hm hstart ⊢
  generalize marchYear (d + 719468) = y at hd ⊢
  unfold days
  dsimp only
  by_cases hlate : m < 10
  · have hmod : (m + 3 + 9) % 12 = m := by omega
    rw [if_pos hlate, if_pos hlate, if_neg (by omega), hmod]
    omega
  · have hmod : (m - 9 + 9) % 12 = m := by omega
    rw [if_neg hlate, if_neg hlate, if_pos (by omega), hmod, Int.add_sub_cancel]
    omega

theorem ofDays_valid (d : Int) : (ofDays d).Valid := by
  obtain ⟨n, hn, hd, hlt⟩ := exists_march d
  obtain ⟨hm, hstart, hnext⟩ := monthStart_le hn
  have hn' : (d + 719468 - marchDays (marchYear (d + 719468))).toNat = n := by omega
  unfold ofDays
  dsimp only
  rw [hn']
  generalize (5 * n + 2) / 153 = m at hm hstart hnext ⊢
  generalize marchYear (d + 719468) = y at hd hlt ⊢
  refine ⟨?_, ?_, ?_⟩
  · dsimp only
    split <;> omega
  · exact Nat.le_add_left 1 _
  · unfold monthStart at hstart hnext ⊢
    dsimp only
    by_cases hfeb : m = 11
    · -- the last month is as long as its year is
      subst hfeb
      have hleap := marchDays_leap y
      have hdays : daysInYearMonth (if 11 < 10 then y else y + 1) (if 11 < 10 then 11 + 3 else 11 - 9)
          = if isLeapYear (y + 1) then 29 else 28 := rfl
      rw [hdays]
      split
      · omega
      · next hcommon =>
          rw [if_neg hcommon] at hleap
          omega
    · -- the others are as long as they are from March
      by_cases hlate : m < 10
      · have hadd := monthStart_add (m := m + 3) ⟨by omega, by omega⟩ (by omega) y
        have hmod : (m + 3 + 9) % 12 = m := by omega
        rw [hmod] at hadd
        unfold monthStart at hadd
        rw [if_pos hlate, if_pos hlate]
        omega
      · have hadd := monthStart_add (m := m - 9) ⟨by omega, by omega⟩ (by omega) (y + 1)
        have hmod : (m - 9 + 9) % 12 = m := by omega
        rw [hmod] at hadd
        unfold monthStart at hadd
        rw [if_neg hlate, if_neg hlate]
        omega

theorem month_eq {k n : Nat} (hle : monthStart k ≤ n) (hlt : n < monthStart (k + 1)) :
    (5 * n + 2) / 153 = k := by
  unfold monthStart at hle hlt
  omega

theorem march_month {m : Nat} (h : 1 ≤ m ∧ m ≤ 12) : ¬ (m + 9) % 12 < 10 ↔ m ≤ 2 := by
  omega

theorem march_month_back {m : Nat} (h : 1 ≤ m ∧ m ≤ 12) :
    (if (m + 9) % 12 < 10 then (m + 9) % 12 + 3 else (m + 9) % 12 - 9) = m := by
  split <;> omega

theorem ofDays_days {d : Date} (h : d.Valid) : ofDays d.days = d := by
  obtain ⟨y, m, n⟩ := d
  obtain ⟨hmonth, hpos, hlen⟩ := h
  dsimp only at hmonth hpos hlen
  have hlate := march_month hmonth
  have hback := march_month_back hmonth
  -- the year and the month from March
  obtain ⟨y', hy⟩ : ∃ y', (if m ≤ 2 then y - 1 else y) = y' := ⟨_, rfl⟩
  obtain ⟨k, hk⟩ : ∃ k, (m + 9) % 12 = k := ⟨_, rfl⟩
  rw [hk] at hlate hback
  have hdays : days ⟨y, m, n⟩ + 719468 = marchDays y' + (monthStart k + n - 1 : Nat) := by
    unfold days
    dsimp only
    rw [hy, hk]
    omega
  have hbounds : monthStart k + n ≤ monthStart (k + 1) ∧
      marchDays y' + (monthStart k + n : Nat) ≤ marchDays (y' + 1) := by
    have hleap := marchDays_leap y'
    by_cases hfeb : m = 2
    · subst hfeb
      subst hk
      rw [if_pos (Nat.le_refl 2)] at hy
      subst hy
      have hstart := monthStart_feb y
      have hshort : daysInYearMonth y 2 ≤ 29 := by
        unfold daysInYearMonth
        rw [if_pos rfl]
        split <;> omega
      rw [Int.sub_add_cancel]
      unfold monthStart at hstart ⊢
      omega
    · have hstart := monthStart_add hmonth hfeb y
      rw [hk] at hstart
      have hle : k ≤ 10 := by omega
      unfold monthStart at hstart ⊢
      split at hleap <;> omega
  obtain ⟨hnext, hend⟩ := hbounds
  have hmarch : marchYear (days ⟨y, m, n⟩ + 719468) = y' := by
    rw [hdays]
    exact marchYear_eq (by omega) (by omega)
  have hnat : (marchDays y' + (monthStart k + n - 1 : Nat) - marchDays y').toNat =
      monthStart k + n - 1 := by omega
  have hin : (5 * (monthStart k + n - 1) + 2) / 153 = k := month_eq (by omega) (by omega)
  unfold ofDays
  dsimp only
  rw [hmarch, hdays, hnat, hin]
  refine Date.mk.injEq .. |>.mpr ⟨?_, ?_, by omega⟩
  · rw [← hy]
    by_cases hm : m ≤ 2
    · rw [if_pos hm, if_neg (hlate.mpr hm), Int.sub_add_cancel]
    · rw [if_neg hm, if_pos (Decidable.not_not.mp fun h => hm (hlate.mp h))]
  · exact hback

end Date

/-! ## Times

A time is the nanoseconds since the start of 1970, in UTC. -/

namespace DateTime

def nanosecond (t : Int) : Nat := (t % 1000000000).toNat

def second (t : Int) : Nat := (t / 1000000000 % 60).toNat

def minute (t : Int) : Nat := (t / 60000000000 % 60).toNat

def hour (t : Int) : Nat := (t / 3600000000000 % 24).toNat

def date (t : Int) : Date := .ofDays (t / 86400000000000)

def weekday (t : Int) : Nat := ((t / 86400000000000 + 4) % 7).toNat

def replaceNanosecond (t : Int) (n : Nat) : Int := t + (n - nanosecond t : Int)

def replaceSecond (t : Int) (n : Nat) : Int := t + (n - second t : Int) * 1000000000

def replaceMinute (t : Int) (n : Nat) : Int := t + (n - minute t : Int) * 60000000000

def replaceHour (t : Int) (n : Nat) : Int := t + (n - hour t : Int) * 3600000000000

def replaceDate (t : Int) (d : Date) : Option Int :=
  if d.Valid then some (t + (d.days - t / 86400000000000) * 86400000000000) else none

def replaceDay (t : Int) (n : Nat) : Option Int := replaceDate t { date t with day := n }

def replaceMonth (t : Int) (n : Nat) : Option Int :=
  replaceDate t { date t with month := n }

def replaceYear (t : Int) (y : Int) : Option Int := replaceDate t { date t with year := y }

variable {t t' : Int} {n : Nat}

theorem date_valid (t : Int) : (date t).Valid := Date.ofDays_valid _

theorem replaceNanosecond_zero : replaceNanosecond t 0 = t - t % 1000000000 := by
  unfold replaceNanosecond nanosecond
  omega

theorem replaceSecond_div (h : n < 60) : replaceSecond t n / 60000000000 = t / 60000000000 ∧
    replaceSecond t n % 1000000000 = t % 1000000000 ∧
    replaceSecond t n / 1000000000 % 60 = n := by
  unfold replaceSecond second
  omega

theorem replaceMinute_div (h : n < 60) :
    replaceMinute t n / 3600000000000 = t / 3600000000000 ∧
      replaceMinute t n % 60000000000 = t % 60000000000 := by
  unfold replaceMinute minute
  omega

theorem replaceHour_div (h : n < 24) :
    replaceHour t n / 86400000000000 = t / 86400000000000 ∧
      replaceHour t n % 3600000000000 = t % 3600000000000 := by
  unfold replaceHour hour
  omega

theorem replaceDate_eq_some {d : Date} (h : replaceDate t d = some t') :
    d.Valid ∧ t' = t + (d.days - t / 86400000000000) * 86400000000000 := by
  rw [replaceDate, Option.ite_none_right_eq_some] at h
  exact ⟨h.1, (Option.some.inj h.2).symm⟩

theorem replaceDate_mod {d : Date} (h : replaceDate t d = some t') :
    t' / 86400000000000 = d.days ∧ t' % 86400000000000 = t % 86400000000000 := by
  obtain ⟨-, rfl⟩ := replaceDate_eq_some h
  omega

theorem date_replaceDate {d : Date} (h : replaceDate t d = some t') : date t' = d := by
  rw [date, (replaceDate_mod h).1]
  exact Date.ofDays_days (replaceDate_eq_some h).1

end DateTime

end Hardy
