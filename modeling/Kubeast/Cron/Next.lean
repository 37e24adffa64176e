import Kubeast.Foundation.Calendar
import Mathlib.Algebra.Order.Group.Abs
import Mathlib.Data.Int.LeastGreatest
import Mathlib.Order.Bounds.Basic

/-! When a CronJob runs next (`utils/cron.ts`): five loops, from the month down to the second, each of
which goes on by its unit and starts over where the unit above it changes. -/
namespace Kubeast.Cron
open Seek

section Clock

/-- Times are milliseconds. -/
def second : ℤ := 1000
def minute : ℤ := 60 * second
def hour : ℤ := 60 * minute
def day : ℤ := 24 * hour

/-- What a `Date` can hold, before 1970 and after. -/
def maxTime : ℤ := 100000000 * day

structure Wall where
  y : ℤ
  mo : ℤ
  d : ℤ
  h : ℤ
  mi : ℤ
  s : ℤ
deriving DecidableEq

/-- What the clocks of a zone are ahead of UTC: whole seconds, of less than a day. -/
structure Zone where
  seconds : ℤ → ℤ
  lt_day : ∀ t, |seconds t| < 86400

def Zone.offset (z : Zone) (ms : ℤ) : ℤ := z.seconds ms * second

/-- `Intl.DateTimeFormat` writes no era: years before the year 1 count backwards. -/
def shownYear (y : ℤ) : ℤ := if 0 < y then y else 1 - y

/-- The clock that stands `ms` after 1970. -/
def fields (ms : ℤ) : Wall :=
  let n := ms / day
  let k := Calendar.monthOf n
  { y := shownYear ((k + 2) / 12)
    mo := (k + 2) % 12 + 1
    d := n - Calendar.monthStart k + 1
    h := ms / hour % 24
    mi := ms / minute % 60
    s := ms / second % 60 }

/-- None where it throws a RangeError. -/
def wall (ms : ℤ) (z : Zone) : Option Wall :=
  if |ms| ≤ maxTime then some (fields (ms + z.offset ms)) else none

/-- `Date.UTC`, none for NaN: the months count from 0 and may be past December, the days past the month, and
a year of two digits is one of the 1900s. -/
def dateUTC (y mo d h mi s : ℤ) : Option ℤ :=
  let year := if 0 ≤ y ∧ y ≤ 99 then 1900 + y else y
  let n := Calendar.monthStart (12 * year + mo - 2) + d - 1
  let ms := n * day + h * hour + mi * minute + s * second
  if |ms| ≤ maxTime then some ms else none

def getUTCDay (ms : ℤ) : ℤ := (ms / day + 4) % 7

def offset (ms : ℤ) (z : Zone) : Option ℤ := do
  let w ← wall ms z
  let utc ← dateUTC w.y (w.mo - 1) w.d w.h w.mi w.s
  some (utc - (ms - ms % second))

def goDate (y mo d h mi s : ℤ) (z : Zone) : Option ℤ := do
  let unix ← dateUTC y (mo - 1) d h mi s
  let off ← offset unix z
  let off ← offset (unix - off) z
  some (unix - off)

def addDate (ms months days : ℤ) (z : Zone) : Option ℤ := do
  let w ← wall ms z
  goDate w.y (w.mo + months) (w.d + days) w.h w.mi w.s z

end Clock

section Next

structure Field where
  bits : ℤ → Bool
  star : Bool

structure Spec where
  second : Field
  minute : Field
  hour : Field
  dom : Field
  month : Field
  dow : Field
  zone : Zone

variable (s : Spec)

def dayMatches (w : Wall) : Bool :=
  let domMatch := s.dom.bits w.d
  let dowMatch := (dateUTC w.y (w.mo - 1) w.d 0 0 0).elim false fun ms => s.dow.bits (getUTCDay ms)
  if s.dom.star || s.dow.star then domMatch && dowMatch else domMatch || dowMatch

/-- The five `while` loops of `specNext`. -/
def monthLoop : Loop Wall where
  ok w := s.month.bits w.mo
  reset w _ := goDate w.y w.mo 1 0 0 0 s.zone
  advance t := do
    let t ← addDate t 1 0 s.zone
    let w ← wall t s.zone
    some (t, w)
  wraps w := w.mo = 1

def dayLoop : Loop Wall where
  ok w := dayMatches s w
  reset w _ := goDate w.y w.mo w.d 0 0 0 s.zone
  advance t := do
    let t ← addDate t 0 1 s.zone
    let w ← wall t s.zone
    if w.h = 0 then some (t, w)
    else
      let t := if 12 < w.h then t + (24 - w.h) * hour else t - w.h * hour
      let w ← wall t s.zone
      some (t, w)
  wraps w := w.d = 1

def hourLoop : Loop Wall where
  ok w := s.hour.bits w.h
  reset w _ := goDate w.y w.mo w.d w.h 0 0 s.zone
  advance t := do
    let w ← wall (t + hour) s.zone
    some (t + hour, w)
  wraps w := w.h = 0

def minuteLoop : Loop Wall where
  ok w := s.minute.bits w.mi
  reset _ t := some (t - t % minute)
  advance t := do
    let w ← wall (t + minute) s.zone
    some (t + minute, w)
  wraps w := w.mi = 0

def secondLoop : Loop Wall where
  ok w := s.second.bits w.s
  reset _ t := some (t - t % second)
  advance t := do
    let w ← wall (t + second) s.zone
    some (t + second, w)
  wraps w := w.s = 0

def nextSecond (since : ℤ) : ℤ := since - since % second + second

/-- None where it throws, or where `fuel` turns of its loops do not suffice. -/
def specNext (fuel : ℕ) (since : ℤ) : Option (Option ℤ) := do
  let w ← wall (nextSecond since) s.zone
  let yearLimit := w.y + 5
  search (fun t => wall t s.zone) (fun w => yearLimit < w.y)
    [monthLoop s, dayLoop s, hourLoop s, minuteLoop s, secondLoop s] fuel fuel (nextSecond since) false

end Next

section Rulers
variable (c : ℤ)

/-- The units of a clock that is `c` ahead of UTC. -/
def days : Ruler := .every day (by decide) c
def months : Ruler := Calendar.months.comp (days c)
def years : Ruler := Calendar.years.comp (months c)
def hours : Ruler := .every hour (by decide) c
def minutes : Ruler := .every minute (by decide) c
def seconds : Ruler := .every second (by decide) c

/-- What that clock says. -/
def clock (t : ℤ) : Wall := fields (t + c)

theorem months_within : (months c).Within (years c) := Ruler.comp_within _ _
theorem days_within : (days c).Within (months c) := Ruler.comp_within _ _
theorem hours_within : (hours c).Within (days c) := Ruler.every_within _ _ c (by decide)
theorem minutes_within : (minutes c).Within (hours c) := Ruler.every_within _ _ c (by decide)
theorem seconds_within : (seconds c).Within (minutes c) := Ruler.every_within _ _ c (by decide)

theorem years_index (t : ℤ) : (years c).index t = (Calendar.monthOf ((t + c) / day) + 2) / 12 := rfl

/-- The first year that `Date.UTC` takes as it is. -/
def hundredth : ℤ := (years 0).mark 100

end Rulers

section Dates
variable {m ms t y mo d h mi s : ℤ}

theorem dateUTC_eq (hy : 100 ≤ y)
    (hms : (Calendar.monthStart (12 * y + mo - 2) + d - 1) * day + h * hour + mi * minute + s * second = ms)
    (hmax : |ms| ≤ maxTime) : dateUTC y mo d h mi s = some ms := by
  have hyear : ¬(0 ≤ y ∧ y ≤ 99) := by omega
  rw [dateUTC, if_neg hyear]
  simp only [hms, if_pos hmax]

theorem year_fields (hfirst : hundredth ≤ m) :
    100 ≤ (Calendar.monthOf (m / day) + 2) / 12 ∧ (fields m).y = (Calendar.monthOf (m / day) + 2) / 12 := by
  have hyear : 100 ≤ (Calendar.monthOf (m / day) + 2) / 12 := by
    have hindex := ((years 0).gc 100 m).mp hfirst
    rwa [years_index, add_zero] at hindex
  have hpos : 0 < (Calendar.monthOf (m / day) + 2) / 12 := by omega
  exact ⟨hyear, if_pos hpos⟩

theorem abs_le_maxTime (hfirst : hundredth ≤ m) (hlast : m ≤ maxTime) : |m| ≤ maxTime := by
  have hlow : -maxTime ≤ hundredth := by decide
  exact abs_le.mpr ⟨hlow.trans hfirst, hlast⟩

/-- A clock is read back to the second. -/
theorem dateUTC_fields (hfirst : hundredth ≤ m) (hlast : m ≤ maxTime) :
    dateUTC (fields m).y ((fields m).mo - 1) (fields m).d (fields m).h (fields m).mi (fields m).s =
      some (m - m % second) := by
  obtain ⟨hyear, hy⟩ := year_fields hfirst
  have hsecond : hundredth ≤ m - m % second := by
    have hwhole : hundredth % second = 0 := by decide
    have hmod : 0 < second := by decide
    unfold second at *
    omega
  rw [hy]
  refine dateUTC_eq hyear ?_ (abs_le_maxTime hsecond ?_)
  · have hk : 12 * ((Calendar.monthOf (m / day) + 2) / 12) + ((fields m).mo - 1) - 2 = Calendar.monthOf (m / day) := by
      unfold fields
      dsimp only
      omega
    rw [hk]
    unfold fields
    dsimp only
    unfold day hour minute second
    omega
  · unfold second
    omega

end Dates

/-- The clocks of the zone are `c` ahead of UTC, in whole minutes, from a day before `lo` to a day after `hi`. -/
structure Zone.Keeps (z : Zone) (c lo hi : ℤ) : Prop where
  whole : minute ∣ c
  steady : ∀ t, lo - day ≤ t → t ≤ hi + day → z.offset t = c

/-- The dates in between are such as `Date.UTC` takes as they are. -/
structure Window (z : Zone) (c lo hi : ℤ) : Prop extends Zone.Keeps z c lo hi where
  first : hundredth + 2 * day ≤ lo
  last : hi + 2 * day ≤ maxTime
  le : lo ≤ hi

section Window
variable {z : Zone} {c lo hi t y mo d hh mi sec : ℤ}

theorem Window.minutes (hw : Window z c lo hi) : ∃ m, c = m * minute := by
  obtain ⟨m, hm⟩ := hw.whole
  exact ⟨m, hm.trans (mul_comm _ _)⟩

theorem Zone.Keeps.lt_day (hw : z.Keeps c lo hi) (hle : lo ≤ hi) : -day < c ∧ c < day := by
  have hc : z.seconds lo * second = c := by
    refine hw.steady lo ?_ ?_ <;> unfold day hour minute second <;> omega
  obtain ⟨hlow, hhigh⟩ := abs_lt.mp (z.lt_day lo)
  unfold day hour minute second at *
  omega

theorem Window.lt_day (hw : Window z c lo hi) : -day < c ∧ c < day := hw.toKeeps.lt_day hw.le

theorem Window.wall_eq (hw : Window z c lo hi) (hlo : lo - day ≤ t) (hhi : t ≤ hi + day) :
    wall t z = some (clock c t) := by
  have hday : 0 < day := by decide
  have hmax : |t| ≤ maxTime := by
    refine abs_le_maxTime ?_ ?_
    · have hfirst := hw.first
      omega
    · have hlast := hw.last
      omega
  rw [wall, if_pos hmax, hw.steady t hlo hhi]
  rfl

theorem Window.offset_eq (hw : Window z c lo hi) (hlo : lo - day ≤ t) (hhi : t ≤ hi + day) :
    offset t z = some c := by
  obtain ⟨hlow, hhigh⟩ := hw.lt_day
  have hfirst := hw.first
  have hlast := hw.last
  have hfields := dateUTC_fields (m := t + c) (by omega) (by omega)
  rw [offset, hw.wall_eq hlo hhi, Option.bind_eq_bind, Option.bind_some, clock, hfields, Option.bind_eq_bind,
    Option.bind_some]
  obtain ⟨m, rfl⟩ := hw.minutes
  congr 1
  unfold minute second
  omega

/-- A date of the window, by the clocks of the zone. -/
theorem Window.goDate_eq (hw : Window z c lo hi) (hlo : lo ≤ t) (hhi : t ≤ hi)
    (hdate : dateUTC y (mo - 1) d hh mi sec = some (t + c)) : goDate y mo d hh mi sec z = some t := by
  obtain ⟨hlow, hhigh⟩ := hw.lt_day
  rw [goDate, hdate, Option.bind_eq_bind, Option.bind_some, hw.offset_eq (by omega) (by omega),
    Option.bind_some, add_sub_cancel_right, hw.offset_eq (by omega) (by omega), Option.bind_some, add_sub_cancel_right]

/-- The clocks of the window. -/
theorem Window.fields_eq (hw : Window z c lo hi) (hlo : lo ≤ t) :
    100 ≤ (years c).index t ∧ (clock c t).y = (years c).index t := by
  obtain ⟨hlow, hhigh⟩ := hw.lt_day
  have hfirst := hw.first
  exact year_fields (by omega)

theorem Window.max_le (hw : Window z c lo hi) (hlo : lo ≤ t) (hhi : t ≤ hi) : |t + c| ≤ maxTime := by
  obtain ⟨hlow, hhigh⟩ := hw.lt_day
  have hfirst := hw.first
  have hlast := hw.last
  exact abs_le_maxTime (by omega) (by omega)

end Window

section Loops
variable {s : Spec} {c lo hi t : ℤ}

/-- The loops, each with the units it goes by. -/
def levels (s : Spec) (c : ℤ) : List (Level Wall) :=
  [⟨monthLoop s, months c⟩, ⟨dayLoop s, days c⟩, ⟨hourLoop s, hours c⟩, ⟨minuteLoop s, minutes c⟩,
    ⟨secondLoop s, seconds c⟩]

theorem month_mark (c k : ℤ) : (months c).mark k + c = Calendar.monthStart k * day := sub_add_cancel _ _
theorem day_mark (c n : ℤ) : (days c).mark n + c = n * day := sub_add_cancel _ _

theorem clock_mo (c t : ℤ) : (clock c t).mo = ((months c).index t + 2) % 12 + 1 := rfl
theorem clock_d (c t : ℤ) : (clock c t).d = (days c).index t - Calendar.monthStart ((months c).index t) + 1 := rfl
theorem clock_h (c t : ℤ) : (clock c t).h = (hours c).index t % 24 := rfl
theorem clock_mi (c t : ℤ) : (clock c t).mi = (minutes c).index t % 60 := rfl
theorem clock_s (c t : ℤ) : (clock c t).s = (seconds c).index t % 60 := rfl

theorem clock_year_month (hw : Window s.zone c lo hi) (hlo : lo ≤ t) :
    12 * (clock c t).y + ((clock c t).mo - 1) - 2 = (months c).index t := by
  have hyear : (years c).index t = ((months c).index t + 2) / 12 := rfl
  rw [(hw.fields_eq hlo).2, clock_mo, hyear]
  omega

/-- A clock at midnight. -/
theorem clock_midnight (ht : (days c).start t = t) : (clock c t).h = 0 ∧ (clock c t).mi = 0 ∧ (clock c t).s = 0 := by
  have hmark : t + c = (days c).index t * day := by rw [← day_mark, ← Ruler.start, ht]
  unfold clock fields
  rw [hmark]
  generalize (days c).index t = n
  unfold day hour minute second
  dsimp only
  omega

theorem clock_first (ht : (months c).start t = t) : (clock c t).d = 1 := by
  have hn : (days c).index t = Calendar.monthStart ((months c).index t) := by
    have hmark := (days c).index_mark (Calendar.monthStart ((months c).index t))
    exact (congrArg (days c).index ht).symm.trans hmark
  rw [clock_d, hn]
  omega

theorem month_reset (hw : Window s.zone c lo hi) (hlo : (months c).start lo = lo) (hge : lo ≤ t) (hle : t ≤ hi) :
    (monthLoop s).reset (clock c t) t = some ((months c).start t) := by
  have hstart : lo ≤ (months c).start t := hlo ▸ Ruler.start_mono hge
  have hend : (months c).start t ≤ hi := Ruler.start_le.trans hle
  obtain ⟨hyear, hy⟩ := hw.fields_eq hge
  refine hw.goDate_eq hstart hend (dateUTC_eq (hy ▸ hyear) ?_ (hw.max_le hstart hend))
  rw [clock_year_month hw hge, Ruler.start, month_mark, add_sub_cancel_right]
  omega

theorem month_advance (hw : Window s.zone c lo hi) (hge : lo ≤ t) (hstart : (months c).start t = t)
    (hle : (months c).next t ≤ hi) :
    (monthLoop s).advance t = some ((months c).next t, clock c ((months c).next t)) := by
  have hlt : t < (months c).next t := Ruler.lt_next
  have hday : 0 < day := by decide
  obtain ⟨hyear, hy⟩ := hw.fields_eq hge
  obtain ⟨hh, hmi, hs⟩ := clock_midnight ((days_within c).start_eq hstart)
  have hnext : addDate t 1 0 s.zone = some ((months c).next t) := by
    rw [addDate, hw.wall_eq (by omega) (by omega), Option.bind_eq_bind, Option.bind_some, clock_first hstart, hh, hmi,
      hs]
    refine hw.goDate_eq (by omega) hle (dateUTC_eq (hy ▸ hyear) ?_ (hw.max_le (by omega) hle))
    have hk := clock_year_month hw hge
    rw [show 12 * (clock c t).y + ((clock c t).mo + 1 - 1) - 2 = (months c).index t + 1 by omega, Ruler.next,
      month_mark, add_zero, add_sub_cancel_right]
    omega
  unfold monthLoop
  dsimp only
  rw [hnext, Option.bind_eq_bind, Option.bind_some, hw.wall_eq (by omega) (by omega)]
  rfl

theorem month_wraps (hstart : (months c).start t = t) :
    (monthLoop s).wraps (clock c t) = true ↔ (years c).start t = t := by
  have hmo : (monthLoop s).wraps (clock c t) = true ↔ (clock c t).mo = 1 := decide_eq_true_iff
  rw [hmo, clock_mo, years, Ruler.comp_start_iff hstart]
  unfold Ruler.start Calendar.years Ruler.every
  dsimp only
  omega

/-- The day, the hour and so on of a clock give the time back. -/
theorem clock_day (hw : Window s.zone c lo hi) (hlo : lo ≤ t) :
    Calendar.monthStart (12 * (clock c t).y + ((clock c t).mo - 1) - 2) + (clock c t).d - 1 = (days c).index t := by
  rw [clock_year_month hw hlo, clock_d]
  omega

theorem day_reset (hw : Window s.zone c lo hi) (hlo : (days c).start lo = lo) (hge : lo ≤ t) (hle : t ≤ hi) :
    (dayLoop s).reset (clock c t) t = some ((days c).start t) := by
  have hstart : lo ≤ (days c).start t := hlo ▸ Ruler.start_mono hge
  have hend : (days c).start t ≤ hi := Ruler.start_le.trans hle
  obtain ⟨hyear, hy⟩ := hw.fields_eq hge
  refine hw.goDate_eq hstart hend (dateUTC_eq (hy ▸ hyear) ?_ (hw.max_le hstart hend))
  rw [clock_day hw hge, Ruler.start, day_mark]
  omega

theorem day_advance (hw : Window s.zone c lo hi) (hge : lo ≤ t) (hstart : (days c).start t = t)
    (hle : (days c).next t ≤ hi) :
    (dayLoop s).advance t = some ((days c).next t, clock c ((days c).next t)) := by
  have hlt : t < (days c).next t := Ruler.lt_next
  have hday : 0 < day := by decide
  obtain ⟨hyear, hy⟩ := hw.fields_eq hge
  obtain ⟨hh, hmi, hs⟩ := clock_midnight hstart
  have hnext : addDate t 0 1 s.zone = some ((days c).next t) := by
    rw [addDate, hw.wall_eq (by omega) (by omega), Option.bind_eq_bind, Option.bind_some, hh, hmi, hs]
    refine hw.goDate_eq (by omega) hle (dateUTC_eq (hy ▸ hyear) ?_ (hw.max_le (by omega) hle))
    have hn := clock_day hw hge
    rw [add_zero, show Calendar.monthStart (12 * (clock c t).y + ((clock c t).mo - 1) - 2) + ((clock c t).d + 1) - 1 =
      (days c).index t + 1 by omega, Ruler.next, day_mark]
    omega
  have hmidnight : (clock c ((days c).next t)).h = 0 := (clock_midnight ((days c).start_next t)).1
  unfold dayLoop
  dsimp only
  rw [hnext, Option.bind_eq_bind, Option.bind_some, hw.wall_eq (by omega) (by omega), Option.bind_eq_bind,
    Option.bind_some, if_pos hmidnight]

theorem day_wraps (hstart : (days c).start t = t) :
    (dayLoop s).wraps (clock c t) = true ↔ (months c).start t = t := by
  have hd : (dayLoop s).wraps (clock c t) = true ↔ (clock c t).d = 1 := decide_eq_true_iff
  have hmonth : Calendar.months.start ((days c).index t) = Calendar.monthStart ((months c).index t) := rfl
  rw [hd, clock_d, months, Ruler.comp_start_iff hstart, hmonth, months]
  omega

/-- What a day says does not depend on the time of day. -/
theorem day_congr {t' : ℤ} (h : (days c).index t = (days c).index t') :
    dayMatches s (clock c t) = dayMatches s (clock c t') := by
  have hmonth : (months c).index t = (months c).index t' := (days_within c).index_eq h
  have hyear : (clock c t).y = (clock c t').y := congrArg (fun k => shownYear ((k + 2) / 12)) hmonth
  unfold dayMatches
  rw [hyear, clock_mo, clock_mo, clock_d, clock_d, hmonth, h]

theorem hour_reset (hw : Window s.zone c lo hi) (hlo : (hours c).start lo = lo) (hge : lo ≤ t) (hle : t ≤ hi) :
    (hourLoop s).reset (clock c t) t = some ((hours c).start t) := by
  have hstart : lo ≤ (hours c).start t := hlo ▸ Ruler.start_mono hge
  have hend : (hours c).start t ≤ hi := Ruler.start_le.trans hle
  obtain ⟨hyear, hy⟩ := hw.fields_eq hge
  refine hw.goDate_eq hstart hend (dateUTC_eq (hy ▸ hyear) ?_ (hw.max_le hstart hend))
  rw [clock_day hw hge, clock_h]
  unfold Ruler.start days hours Ruler.every hour day hour minute second
  dsimp only
  omega

/-- A time goes on by a part of a day. -/
theorem Window.wall_next (hw : Window s.zone c lo hi) {n : ℤ} {hn : 0 < n} (hge : lo ≤ t)
    (hstart : (Ruler.every n hn c).start t = t) (hle : (Ruler.every n hn c).next t ≤ hi) :
    t + n = (Ruler.every n hn c).next t ∧
      wall (t + n) s.zone = some (clock c ((Ruler.every n hn c).next t)) := by
  have hnext : t + n = (Ruler.every n hn c).next t := by
    have hmark : (t + c) / n * n - c = t := hstart
    have hstep : (Ruler.every n hn c).next t = ((t + c) / n + 1) * n - c := rfl
    rw [hstep, add_mul, one_mul]
    omega
  have hday : 0 < day := by decide
  refine ⟨hnext, ?_⟩
  rw [hnext]
  exact hw.wall_eq (by omega) (by omega)

theorem hour_wraps (hstart : (hours c).start t = t) :
    (hourLoop s).wraps (clock c t) = true ↔ (days c).start t = t := by
  have hh : (hourLoop s).wraps (clock c t) = true ↔ (clock c t).h = 0 := decide_eq_true_iff
  rw [hh, clock_h]
  unfold Ruler.start days hours Ruler.every hour day hour minute second at *
  dsimp only at *
  omega

theorem minute_wraps (hstart : (minutes c).start t = t) :
    (minuteLoop s).wraps (clock c t) = true ↔ (hours c).start t = t := by
  have hmi : (minuteLoop s).wraps (clock c t) = true ↔ (clock c t).mi = 0 := decide_eq_true_iff
  rw [hmi, clock_mi]
  unfold Ruler.start minutes hours Ruler.every hour minute second at *
  dsimp only at *
  omega

theorem second_wraps (hstart : (seconds c).start t = t) :
    (secondLoop s).wraps (clock c t) = true ↔ (minutes c).start t = t := by
  have hs : (secondLoop s).wraps (clock c t) = true ↔ (clock c t).s = 0 := decide_eq_true_iff
  rw [hs, clock_s]
  unfold Ruler.start minutes seconds Ruler.every minute second at *
  dsimp only at *
  omega

/-- The loops go by their units. -/
theorem moves_levels (hw : Window s.zone c lo hi) (hlo : (months c).start lo = lo) :
    Moves (clock c) lo hi (years c) (levels s c) := by
  have hdays := (days_within c).start_eq hlo
  have hhours := (hours_within c).start_eq hdays
  obtain ⟨m, rfl⟩ := hw.minutes
  refine ⟨⟨months_within _, fun h => ?_, month_reset hw hlo, month_advance hw, fun _ _ => month_wraps⟩,
    ⟨days_within _, day_congr, day_reset hw hdays, day_advance hw, fun _ _ => day_wraps⟩,
    ⟨hours_within _, fun h => ?_, hour_reset hw hhours, fun hge hstart hle => ?_, fun _ _ => hour_wraps⟩,
    ⟨minutes_within _, fun h => ?_, fun {t} _ _ => ?_, fun hge hstart hle => ?_, fun _ _ => minute_wraps⟩,
    ⟨seconds_within _, fun h => ?_, fun {t} _ _ => ?_, fun hge hstart hle => ?_, fun _ _ => second_wraps⟩, trivial⟩
  · exact congrArg (fun k => s.month.bits ((k + 2) % 12 + 1)) h
  · exact congrArg (fun n => s.hour.bits (n % 24)) h
  · obtain ⟨hnext, hwall⟩ := hw.wall_next hge hstart hle
    unfold hourLoop
    dsimp only
    rw [hwall, hnext]
    rfl
  · exact congrArg (fun n => s.minute.bits (n % 60)) h
  · refine congrArg some ?_
    unfold Ruler.start minutes Ruler.every minute second
    dsimp only
    omega
  · obtain ⟨hnext, hwall⟩ := hw.wall_next hge hstart hle
    unfold minuteLoop
    dsimp only
    rw [hwall, hnext]
    rfl
  · exact congrArg (fun n => s.second.bits (n % 60)) h
  · refine congrArg some ?_
    unfold Ruler.start seconds Ruler.every minute second
    dsimp only
    omega
  · obtain ⟨hnext, hwall⟩ := hw.wall_next hge hstart hle
    unfold secondLoop
    dsimp only
    rw [hwall, hnext]
    rfl

end Loops
section First
variable {s : Spec} {c lo hi since t y : ℤ} {r : Option ℤ}

/-- Sunday is 0. -/
def weekday (c t : ℤ) : ℤ := ((days c).index t + 4) % 7

/-- The second of `t`, by a clock that is `c` ahead of UTC, is one that the five fields name. -/
structure Fires (s : Spec) (c t : ℤ) : Prop where
  month : s.month.bits (clock c t).mo = true
  day : if s.dom.star || s.dow.star then s.dom.bits (clock c t).d = true ∧ s.dow.bits (weekday c t) = true
    else s.dom.bits (clock c t).d = true ∨ s.dow.bits (weekday c t) = true
  hour : s.hour.bits (clock c t).h = true
  minute : s.minute.bits (clock c t).mi = true
  second : s.second.bits (clock c t).s = true

structure Due (s : Spec) (c since t : ℤ) : Prop where
  after : since < t
  whole : second ∣ t
  fires : Fires s c t

def year (c since : ℤ) : ℤ := (years c).index (nextSecond since)

/-- The end of the fifth year after the one that the search begins in. -/
def horizon (c since : ℤ) : ℤ := (years c).mark (year c since + 6)

/-- The first time that is due, if there is one in these years. -/
def IsNext (s : Spec) (c since : ℤ) : Option ℤ → Prop
  | some m => IsLeast {t | Due s c since t} m ∧ m < horizon c since
  | none => ∀ t, Due s c since t → horizon c since ≤ t

/-- Where the search ends. -/
def endOf (c since : ℤ) (r : Option ℤ) : ℤ := r.getD (horizon c since)

theorem nextSecond_le (hwhole : second ∣ t) : nextSecond since ≤ t ↔ since < t := by
  obtain ⟨k, rfl⟩ := hwhole
  unfold nextSecond second
  omega

theorem nextSecond_lt_horizon (c since : ℤ) : nextSecond since < horizon c since := by
  by_contra hle
  have hindex := ((years c).gc _ _).mp (not_lt.mp hle)
  unfold year at hindex
  omega

/-- One of the two is so, and there is just one first time. -/
theorem exists_isNext (s : Spec) (c since : ℤ) : ∃ r, IsNext s c since r := by
  classical
  by_cases hdue : ∃ t, Due s c since t ∧ t < horizon c since
  · obtain ⟨t, ht, hlt⟩ := hdue
    obtain ⟨m, hm, hleast⟩ := Int.exists_least_of_bdd ⟨since, fun z hz => le_of_lt (Due.after hz)⟩ ⟨t, ht⟩
    exact ⟨some m, ⟨hm, fun z hz => hleast z hz⟩, (hleast t ht).trans_lt hlt⟩
  · refine ⟨none, fun t ht => ?_⟩
    by_contra hlt
    exact hdue ⟨t, ht, not_le.mp hlt⟩

theorem weekday_eq (hw : Window s.zone c lo hi) (hge : lo ≤ t) (hle : t ≤ hi) :
    dateUTC (clock c t).y ((clock c t).mo - 1) (clock c t).d 0 0 0 = some ((days c).index t * day) ∧
      getUTCDay ((days c).index t * day) = weekday c t := by
  obtain ⟨hyear, hy⟩ := hw.fields_eq hge
  obtain ⟨hlow, hhigh⟩ := hw.lt_day
  have hfirst := hw.first
  have hlast := hw.last
  have hday : 0 < day := by decide
  refine ⟨dateUTC_eq (hy ▸ hyear) (by rw [clock_day hw hge]; omega) (abs_le_maxTime ?_ ?_), ?_⟩
  · have hnext : t < (days c).next t := Ruler.lt_next
    have hmark : (days c).next t = ((days c).index t + 1) * day - c := rfl
    rw [hmark, add_mul, one_mul] at hnext
    omega
  · have hstart : (days c).start t ≤ t := Ruler.start_le
    have hmark : (days c).start t = (days c).index t * day - c := rfl
    omega
  · rw [getUTCDay, Int.mul_ediv_cancel _ hday.ne']
    rfl

theorem dayMatches_iff (hw : Window s.zone c lo hi) (hge : lo ≤ t) (hle : t ≤ hi) :
    dayMatches s (clock c t) = true ↔
      if s.dom.star || s.dow.star then s.dom.bits (clock c t).d = true ∧ s.dow.bits (weekday c t) = true
      else s.dom.bits (clock c t).d = true ∨ s.dow.bits (weekday c t) = true := by
  obtain ⟨hdate, hweekday⟩ := weekday_eq hw hge hle
  unfold dayMatches
  rw [hdate, Option.elim_some, hweekday]
  split_ifs
  · exact Bool.and_eq_true_iff
  · exact Bool.or_eq_true_iff

/-- All loops are passed where the fields name the second. -/
theorem ok_iff_fires (hw : Window s.zone c lo hi) (hge : lo ≤ t) (hle : t ≤ hi) :
    (∀ l ∈ levels s c, l.loop.ok (clock c t) = true) ↔ Fires s c t := by
  unfold levels
  simp only [List.forall_mem_cons]
  constructor
  · rintro ⟨hmonth, hday, hhour, hminute, hsecond, -⟩
    exact ⟨hmonth, (dayMatches_iff hw hge hle).mp hday, hhour, hminute, hsecond⟩
  · rintro ⟨hmonth, hday, hhour, hminute, hsecond⟩
    exact ⟨hmonth, (dayMatches_iff hw hge hle).mpr hday, hhour, hminute, hsecond, List.forall_mem_nil _⟩

/-- A clock shows no parts of a second. -/
theorem fires_start : Fires s c ((seconds c).start t) ↔ Fires s c t := by
  have hseconds : (seconds c).index ((seconds c).start t) = (seconds c).index t := Ruler.index_start _ _
  have hminutes := (seconds_within c).index_eq hseconds
  have hhours := (minutes_within c).index_eq hminutes
  have hdays := (hours_within c).index_eq hhours
  have hclock (t : ℤ) : clock c t = ⟨shownYear ((Calendar.monthOf ((days c).index t) + 2) / 12),
      (Calendar.monthOf ((days c).index t) + 2) % 12 + 1,
      (days c).index t - Calendar.monthStart (Calendar.monthOf ((days c).index t)) + 1, (hours c).index t % 24,
      (minutes c).index t % 60, (seconds c).index t % 60⟩ := rfl
  have heq : clock c ((seconds c).start t) = clock c t := by
    rw [hclock, hdays, hhours, hminutes, hseconds, ← hclock]
  have hweekday : weekday c ((seconds c).start t) = weekday c t := by rw [weekday, hdays, weekday]
  constructor
  · rintro ⟨hmonth, hday, hhour, hminute, hsecond⟩
    rw [heq, hweekday] at hday
    exact ⟨heq ▸ hmonth, hday, heq ▸ hhour, heq ▸ hminute, heq ▸ hsecond⟩
  · rintro ⟨hmonth, hday, hhour, hminute, hsecond⟩
    rw [← heq, ← hweekday] at hday
    exact ⟨heq ▸ hmonth, hday, heq ▸ hhour, heq ▸ hminute, heq ▸ hsecond⟩

theorem le_endOf (hr : IsNext s c since r) :
    nextSecond since ≤ endOf c since r ∧ endOf c since r ≤ horizon c since := by
  cases r with
  | none => exact ⟨(nextSecond_lt_horizon c since).le, le_rfl⟩
  | some m => exact ⟨(nextSecond_le hr.1.1.whole).mpr hr.1.1.after, hr.2.le⟩

theorem not_due_before (hr : IsNext s c since r) (ht : Due s c since t) : endOf c since r ≤ t := by
  cases r with
  | none => exact hr t ht
  | some m => exact hr.1.2 ht

/-- A time of the search that the fields name is due from the start of its second on. -/
theorem due_start (hwhole : second ∣ c) (hge : nextSecond since ≤ t) (h : Fires s c t) :
    Due s c since ((seconds c).start t) := by
  have hsecond : second ∣ (seconds c).start t := Int.dvd_sub (Dvd.intro_left _ rfl) hwhole
  refine ⟨(nextSecond_le hsecond).mp ?_, hsecond, fires_start.mpr h⟩
  have hnext : second ∣ nextSecond since := Int.dvd_add (Int.dvd_self_sub_emod) dvd_rfl
  have hstart : (seconds c).start (nextSecond since) = nextSecond since := by
    obtain ⟨k, hk⟩ := Int.dvd_add hnext hwhole
    unfold Ruler.start seconds Ruler.every
    dsimp only
    rw [hk, Int.mul_ediv_cancel_left _ (by decide), mul_comm, ← hk, add_sub_cancel_right]
  rw [← hstart]
  exact Ruler.start_mono hge

/-- The search is over where the years are. -/
theorem over_iff (hw : Window s.zone c lo hi) (hge : lo ≤ t) :
    year c since + 5 < (clock c t).y ↔ horizon c since ≤ t := by
  rw [(hw.fields_eq hge).2, horizon, (years c).gc]
  omega

/-- What is due first is where the search ends. -/
theorem IsNext.ends (hr : IsNext s c since r) (hw : Window s.zone c lo (endOf c since r))
    (hlo : (months c).start (nextSecond since) = lo) :
    Ends (clock c) (fun t => wall t s.zone) (fun w => year c since + 5 < w.y) (years c) (levels s c) lo
      (endOf c since r) (nextSecond since) := by
  have hmonths : (months c).start lo = lo := by rw [← hlo, Ruler.start_start]
  have hdays := (days_within c).start_eq hmonths
  have hhours := (hours_within c).start_eq hdays
  have hminutes := (minutes_within c).start_eq hhours
  have hday : 0 < day := by decide
  have hge : lo ≤ nextSecond since := hlo ▸ Ruler.start_le
  obtain ⟨hle, hend⟩ := le_endOf hr
  have hwhole : second ∣ c := dvd_trans (Dvd.intro_left 60 rfl) hw.whole
  refine ⟨moves_levels hw hmonths, fun hlo hhi => hw.wall_eq (by omega) (by omega),
    congrArg fun k => decide (year c since + 5 < shownYear k), ?_, hge, hle,
    fun t ht hlt => ⟨?_, fun hpassed => ?_⟩, ?_⟩
  · unfold levels
    simp only [List.forall_mem_cons]
    exact ⟨hmonths, hdays, hhours, hminutes, (seconds_within c).start_eq hminutes, List.forall_mem_nil _⟩
  · refine decide_eq_false fun hover => ?_
    have hhorizon := (over_iff hw (hge.trans ht)).mp hover
    omega
  · have hfires := (ok_iff_fires hw (hge.trans ht) hlt.le).mp hpassed.ok
    have hfirst := not_due_before hr (due_start hwhole ht hfires)
    exact absurd (hfirst.trans Ruler.start_le) (not_le.mpr hlt)
  · cases r with
    | none => exact .inl (decide_eq_true ((over_iff hw (hge.trans hle)).mpr le_rfl))
    | some m =>
      obtain ⟨⟨hdue, -⟩, hlt⟩ := hr
      refine .inr ⟨decide_eq_false fun hover => ?_, (ok_iff_fires hw (hge.trans hle) le_rfl).mpr hdue.fires⟩
      exact absurd ((over_iff hw (hge.trans hle)).mp hover) (not_le.mpr hlt)

theorem IsNext.window {z : Zone} (hr : IsNext s c since r) (hfirst : 101 ≤ year c since)
    (hlast : year c since ≤ 275754) (hzone : z.Keeps c ((months c).start (nextSecond since)) (endOf c since r)) :
    Window z c ((months c).start (nextSecond since)) (endOf c since r) := by
  obtain ⟨hle, hend⟩ := le_endOf hr
  have hstart : (months c).start (nextSecond since) ≤ nextSecond since := Ruler.start_le
  obtain ⟨hlow, hhigh⟩ := hzone.lt_day (hstart.trans hle)
  have hyears (k : ℤ) : (years c).mark k = (years 0).mark k - c := by
    have hshift : (years 0).mark k = (years c).mark k + c := (sub_zero _).trans (sub_add_cancel _ _).symm
    omega
  have hearly : (years c).mark 101 ≤ (months c).start (nextSecond since) :=
    (Ruler.mark_mono hfirst).trans (months_within c).start_le
  have hlate : horizon c since ≤ (years c).mark 275760 := Ruler.mark_mono (by omega)
  rw [hyears] at hearly hlate
  refine ⟨hzone, ?_, ?_, hstart.trans hle⟩
  · have hyear : hundredth + 2 * day ≤ (years 0).mark 101 - day := by decide
    omega
  · have hyear : (years 0).mark 275760 + day + 2 * day ≤ maxTime := by decide
    omega

/-- What `specNext` finds in a zone that keeps its clocks. -/
theorem specNext_eq (hr : IsNext s c since r) (hfirst : 101 ≤ year c since) (hlast : year c since ≤ 275754)
    (hzone : s.zone.Keeps c ((months c).start (nextSecond since)) (endOf c since r)) :
    ∃ n, ∀ fuel ≥ n, specNext s fuel since = some r := by
  have hw := hr.window hfirst hlast hzone
  have hge : (months c).start (nextSecond since) ≤ nextSecond since := Ruler.start_le
  have hday : 0 < day := by decide
  obtain ⟨hle, hend⟩ := le_endOf hr
  obtain ⟨n, hn⟩ := (hr.ends hw rfl).search_eq
  refine ⟨n, fun fuel hfuel => ?_⟩
  rw [specNext, hw.wall_eq (by omega) (by omega), Option.bind_eq_bind, Option.bind_some, (hw.fields_eq hge).2]
  refine (hn fuel hfuel).trans (congrArg some ?_)
  have hover : year c since + 5 < (clock c (endOf c since r)).y ↔ horizon c since ≤ endOf c since r :=
    over_iff hw (hge.trans hle)
  cases r with
  | none => exact if_pos (decide_eq_true (hover.mpr le_rfl))
  | some m => exact if_neg fun h => not_le.mpr hr.2 (hover.mp (of_decide_eq_true h))

/-- `specNext` finds the first second that the schedule names, in the five years after this one and in no
zone that changes its clocks before. -/
theorem specNext_first (s : Spec) (c since : ℤ) (hfirst : 101 ≤ year c since) (hlast : year c since ≤ 275754) :
    ∃ r, IsNext s c since r ∧ (s.zone.Keeps c ((months c).start (nextSecond since)) (endOf c since r) →
      ∃ n, ∀ fuel ≥ n, specNext s fuel since = some r) := by
  obtain ⟨r, hr⟩ := exists_isNext s c since
  exact ⟨r, hr, specNext_eq hr hfirst hlast⟩

/-- The half past three of each leap day, in UTC. -/
def leapDay : Spec where
  second := ⟨(· = 0), false⟩
  minute := ⟨(· = 30), false⟩
  hour := ⟨(· = 3), false⟩
  dom := ⟨(· = 29), false⟩
  month := ⟨(· = 2), false⟩
  dow := ⟨fun _ => true, true⟩
  zone := ⟨fun _ => 0, fun _ => by decide⟩

/-- After the first of March 2025. -/
theorem specNext_first_leapDay : ∃ r, IsNext leapDay 0 1740787200000 r ∧
    ∃ n, ∀ fuel ≥ n, specNext leapDay fuel 1740787200000 = some r := by
  obtain ⟨r, hr, hnext⟩ := specNext_first leapDay 0 1740787200000 (by decide) (by decide)
  exact ⟨r, hr, hnext ⟨⟨0, rfl⟩, fun _ _ _ => rfl⟩⟩

example : specNext leapDay 40 1740787200000 = some (some 1835407800000) := by decide +kernel

end First

section Every
variable {delay now start t : ℤ}

/-- The next run of an `@every` schedule, which counts from `start` where there is one. -/
def everyNext (delay now : ℤ) : Option ℤ → ℤ
  | none => now - now % second + delay
  | some start =>
    let first := start - start % second
    first + max 1 ((now - first) / delay + 1) * delay

/-- The times that it counts to. -/
def Counted (delay start t : ℤ) : Prop := ∃ k ≥ 1, t = start - start % second + k * delay

theorem everyNext_isLeast (hdelay : 0 < delay) :
    IsLeast {t | now < t ∧ Counted delay start t} (everyNext delay now (some start)) := by
  unfold everyNext
  dsimp only
  generalize hfirst : start - start % second = first
  constructor
  · refine ⟨?_, _, le_max_left 1 _, by rw [hfirst]⟩
    have hlt : now - first < ((now - first) / delay + 1) * delay := Int.lt_ediv_add_one_mul_self _ hdelay
    have hle := mul_le_mul_of_nonneg_right (le_max_right 1 ((now - first) / delay + 1)) hdelay.le
    omega
  · rintro t ⟨hlt, k, hk, rfl⟩
    rw [hfirst] at hlt ⊢
    have hquotient : (now - first) / delay < k := Int.ediv_lt_of_lt_mul hdelay (by omega)
    have hle := mul_le_mul_of_nonneg_right (max_le hk (show (now - first) / delay + 1 ≤ k by omega)) hdelay.le
    omega

end Every
end Kubeast.Cron
