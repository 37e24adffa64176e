import Kubeast.Foundation.Ruler

/-! The Gregorian calendar, by the numbers of its days, months and years. A year goes from March to
February, so that the day of a leap year is its last; days count from 1970. -/
namespace Calendar
variable {k n y : ℤ}

/-- The first of March of the year `y`. -/
def yearStart (y : ℤ) : ℤ := 365 * y + y / 4 - y / 100 + y / 400 - 719468

/-- The first of the month `k`, counted from March of the year 0. -/
def monthStart (k : ℤ) : ℤ := yearStart (k / 12) + (153 * (k % 12) + 2) / 5

/-- The year of a day, from March to February. -/
def yearOf (n : ℤ) : ℤ :=
  let y := (n + 719468) * 400 / 146097
  if yearStart (y + 1) ≤ n then y + 1 else y

def monthOf (n : ℤ) : ℤ := 12 * yearOf n + (5 * (n - yearStart (yearOf n)) + 2) / 153

theorem yearStart_succ (y : ℤ) : yearStart y + 365 ≤ yearStart (y + 1) ∧ yearStart (y + 1) ≤ yearStart y + 366 := by
  unfold yearStart
  omega

theorem yearOf_spec (n : ℤ) : yearStart (yearOf n) ≤ n ∧ n < yearStart (yearOf n + 1) := by
  unfold yearOf
  dsimp only
  generalize hy : (n + 719468) * 400 / 146097 = y
  have hlow : yearStart y ≤ n := by
    unfold yearStart
    omega
  have hhigh : n < yearStart (y + 1 + 1) := by
    unfold yearStart
    omega
  split_ifs with h
  · exact ⟨h, hhigh⟩
  · exact ⟨hlow, not_le.mp h⟩

theorem monthStart_succ (k : ℤ) : monthStart k + 28 ≤ monthStart (k + 1) ∧ monthStart (k + 1) ≤ monthStart k + 31 := by
  obtain ⟨hlow, hhigh⟩ := yearStart_succ (k / 12)
  unfold monthStart
  by_cases hlast : k % 12 = 11
  · rw [show (k + 1) / 12 = k / 12 + 1 by omega, show (k + 1) % 12 = 0 by omega, hlast]
    omega
  · rw [show (k + 1) / 12 = k / 12 by omega, show (k + 1) % 12 = k % 12 + 1 by omega]
    omega

theorem monthStart_le_iff (k l : ℤ) : monthStart k ≤ monthStart l ↔ k ≤ l := by
  have hmono : StrictMono monthStart := strictMono_int_of_lt_succ fun k => by
    have h := (monthStart_succ k).1
    omega
  exact hmono.le_iff_le

theorem monthOf_spec (n : ℤ) : monthStart (monthOf n) ≤ n ∧ n < monthStart (monthOf n + 1) := by
  obtain ⟨hlow, hhigh⟩ := yearOf_spec n
  obtain ⟨hshort, hlong⟩ := yearStart_succ (yearOf n)
  unfold monthOf
  generalize yearOf n = y at *
  generalize hm : (5 * (n - yearStart y) + 2) / 153 = m
  have hm' : 0 ≤ m ∧ m < 12 := by omega
  unfold monthStart
  constructor
  · rw [show (12 * y + m) / 12 = y by omega, show (12 * y + m) % 12 = m by omega]
    omega
  · by_cases hlast : m = 11
    · rw [show (12 * y + m + 1) / 12 = y + 1 by omega, show (12 * y + m + 1) % 12 = 0 by omega]
      omega
    · rw [show (12 * y + m + 1) / 12 = y by omega, show (12 * y + m + 1) % 12 = m + 1 by omega]
      omega

/-- The months, by days. -/
def months : Ruler :=
  .ofMarks monthStart monthOf monthStart_le_iff (fun n => (monthOf_spec n).1) fun n => (monthOf_spec n).2

/-- The years from January on, by months. -/
def years : Ruler := .every 12 (by decide) 2

end Calendar
