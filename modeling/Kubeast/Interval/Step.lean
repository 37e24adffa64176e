import Kubeast.Foundation.Text
import Kubeast.Foundation.Brackets
import Mathlib.Tactic.Linarith

/-! The lengths a query names: Go's durations, Grafana's and the min step
(`internal/interval/prometheus.go`). A length is counted in nanoseconds. -/
namespace Kubeast.Interval

def second : ℤ := 10 ^ 9

def millisecond : ℤ := 10 ^ 6

inductive DurationError
  | invalidInterval
  | outOfRange (digits : String)
  | invalid (s : String)
  | missingUnit (s : String)
  | unknownUnit (unit s : String)
deriving DecidableEq

section Durations

/-- `leadingInt`: the number in front, less where it is above `2 ^ 63`. -/
def leadingInt : ℕ → List Char → Option (ℕ × List Char)
  | x, [] => some (x, [])
  | x, c :: s =>
    if c.isDigit = false then some (x, c :: s)
    else if 2 ^ 63 / 10 < x then none
    else if 2 ^ 63 < 10 * x + (c.toNat - '0'.toNat) then none
    else leadingInt (10 * x + (c.toNat - '0'.toNat)) s

/-- `leadingFraction`: the digits in front as a number, and the power of ten they are over; digits
that do not fit are left aside. -/
def leadingFraction : ℕ → ℕ → Bool → List Char → ℕ × ℕ × List Char
  | x, scale, _, [] => (x, scale, [])
  | x, scale, overflow, c :: s =>
    if c.isDigit = false then (x, scale, c :: s)
    else if overflow ∨ (2 ^ 63 - 1) / 10 < x ∨ 2 ^ 63 < 10 * x + (c.toNat - '0'.toNat) then
      leadingFraction x scale true s
    else leadingFraction (10 * x + (c.toNat - '0'.toNat)) (10 * scale) false s

/-- `unitMap`. -/
def durationUnit : String → Option ℕ
  | "ns" => some 1
  | "us" => some (10 ^ 3)
  | "µs" => some (10 ^ 3)
  | "μs" => some (10 ^ 3)
  | "ms" => some (10 ^ 6)
  | "s" => some (10 ^ 9)
  | "m" => some (60 * 10 ^ 9)
  | "h" => some (3600 * 10 ^ 9)
  | _ => none

/-- The part of a unit that digits behind the point stand for, worked out in floating point. -/
abbrev Share := (digits unit scale : ℕ) → ℕ

/-- The numbers with their units, one after another; `fuel` is at least their length. -/
def durationParts (share : Share) (orig : String) : ℕ → ℕ → List Char → Except DurationError ℕ
  | _, d, [] => .ok d
  | 0, _, _ :: _ => .error (.invalid orig)
  | fuel + 1, d, c :: s =>
    if c ≠ '.' ∧ c.isDigit = false then .error (.invalid orig)
    else match leadingInt 0 (c :: s) with
      | none => .error (.invalid orig)
      | some (v, rest) =>
        let pre := rest.length ≠ (c :: s).length
        let (f, scale, post, rest) := match rest with
          | '.' :: digits =>
            let (f, scale, rest) := leadingFraction 0 1 false digits
            (f, scale, decide (rest.length ≠ digits.length), rest)
          | rest => (0, 1, false, rest)
        if ¬ pre ∧ post = false then .error (.invalid orig)
        else
          let unitText := rest.takeWhile fun c => c ≠ '.' && !c.isDigit
          let rest := rest.dropWhile fun c => c ≠ '.' && !c.isDigit
          if unitText = [] then .error (.missingUnit orig)
          else match durationUnit (String.ofList unitText) with
            | none => .error (.unknownUnit (String.ofList unitText) orig)
            | some unit =>
              if 2 ^ 63 / unit < v then .error (.invalid orig)
              else
                let v := v * unit + if 0 < f then share f unit scale else 0
                if 2 ^ 63 < v ∨ 2 ^ 63 < d + v then .error (.invalid orig)
                else durationParts share orig fuel (d + v) rest

/-- `time.ParseDuration`. -/
def timeParseDuration (share : Share) (s : String) : Except DurationError ℤ :=
  let (neg, rest) := match s.toList with
    | '-' :: rest => (true, rest)
    | '+' :: rest => (false, rest)
    | rest => (false, rest)
  if rest = ['0'] then .ok 0
  else if rest = [] then .error (.invalid s)
  else match durationParts share s rest.length 0 rest with
    | .error e => .error e
    | .ok d =>
      if neg then .ok (-d)
      else if 2 ^ 63 - 1 < d then .error (.invalid s)
      else .ok d

end Durations

section Intervals
variable (share : Share)

def day : ℤ := 24 * 3600 * second

/-- 365.25 days. -/
def year : ℤ := 31557600 * second

/-- `dateUnit`, and the length of its unit: a month is a twelfth of a year. -/
def dateUnit (s : String) : Option (String × ℤ) :=
  match s.toList.reverse with
  | [] => none
  | c :: digits =>
    if digits = [] ∨ digits.all Char.isDigit = false then none
    else
      let unit := match c with
        | 'd' => some day
        | 'w' => some (7 * day)
        | 'M' => some (year / 12)
        | 'y' => some year
        | _ => none
      unit.map fun unit => (String.ofList digits.reverse, unit)

/-- `parseDuration`. -/
def parseDuration (s : String) : Except DurationError ℤ :=
  match dateUnit s with
  | none => timeParseDuration share s
  | some (digits, unit) =>
    match Text.atoi digits with
    | none => .error (.outOfRange digits)
    | some n => .ok (n * unit)

def allDigits (s : String) : Bool := s.toList.all Char.isDigit && s ≠ ""

/-- The text between `<` and `>`, where it has them. -/
def trimBrackets (s : String) : String :=
  let s := match s.toList with
    | '<' :: s => s
    | s => s
  match s.reverse with
  | '>' :: s => String.ofList s.reverse
  | _ => String.ofList s

/-- `parseInterval`. -/
def parseInterval (s : String) : Except DurationError ℤ :=
  if s = "" then .error .invalidInterval
  else if allDigits (trimBrackets s) then
    match Text.atoi (trimBrackets s) with
    | none => .error (.outOfRange (trimBrackets s))
    | some n => .ok (n * second)
  else parseDuration share (trimBrackets s)

def defaultMinStep : ℤ := 15 * second

/-- `minInterval`: the query's min step, else the screen's interval, else the data source's. -/
def minInterval (scrape minStep : String) (intervalMs : ℤ) : Except DurationError ℤ :=
  let minStep := if minStep = "0s" then "" else minStep
  if minStep = "" ∧ intervalMs ≠ 0 then .ok (intervalMs * millisecond)
  else
    let minStep := if minStep = "" then scrape else minStep
    if minStep = "" then .ok defaultMinStep else parseInterval share minStep

/-- `rateInterval`. -/
def rateInterval (step : ℤ) (scrape : String) : ℤ :=
  match parseInterval share (if scrape = "" then "15s" else scrape) with
  | .error _ => 0
  | .ok d => if 4 * d < step + d then step + d else 4 * d

end Intervals
end Kubeast.Interval

/-! The step of a panel's query: the range over the points, rounded to a familiar length. How many
points a range query asks for at that step is decided by the brackets of the rounding. -/
namespace Kubeast.Interval
open Brackets

section Rounding

/-- A bracket of `roundSteps`, in milliseconds. -/
structure RoundStep where
  upTo : ℤ
  to_ : ℤ
  inclusive : Bool

def RoundStep.holds (s : RoundStep) (d : ℤ) : Bool :=
  (s.inclusive && decide (d ≤ s.upTo * millisecond)) ||
    (!s.inclusive && decide (d < s.upTo * millisecond))

def RoundStep.length (s : RoundStep) : ℤ := s.to_ * millisecond

def roundSteps : List RoundStep :=
  [⟨10, 1, true⟩, ⟨15, 10, true⟩, ⟨35, 20, true⟩, ⟨75, 50, true⟩, ⟨150, 100, true⟩,
    ⟨350, 200, true⟩, ⟨750, 500, true⟩, ⟨1500, 1000, true⟩, ⟨3500, 2000, true⟩,
    ⟨7500, 5000, true⟩, ⟨12500, 10000, true⟩, ⟨17500, 15000, true⟩, ⟨25000, 20000, true⟩,
    ⟨45000, 30000, true⟩, ⟨90000, 60000, true⟩, ⟨210000, 120000, true⟩, ⟨450000, 300000, true⟩,
    ⟨750000, 600000, true⟩, ⟨1050000, 900000, true⟩, ⟨1500000, 1200000, true⟩,
    ⟨2700000, 1800000, true⟩, ⟨5400000, 3600000, true⟩, ⟨9000000, 7200000, true⟩,
    ⟨16200000, 10800000, true⟩, ⟨32400000, 21600000, true⟩, ⟨86400000, 43200000, true⟩,
    ⟨172800000, 86400000, true⟩, ⟨604800000, 86400000, true⟩, ⟨1814400000, 604800000, true⟩,
    ⟨63072000000, 2592000000, false⟩]

/-- 365 days, behind the last bracket. -/
def longest : ℤ := 31536000000 * millisecond

/-- `round`: a familiar length. -/
def round (d : ℤ) : ℤ := lookup RoundStep.holds RoundStep.length longest roundSteps d

/-- The brackets with a length below `n` end below `d`. -/
def Past (n d : ℤ) : Prop := Reaches RoundStep.holds RoundStep.length longest (n ≤ ·) roundSteps d

instance (n d : ℤ) : Decidable (Past n d) := inferInstanceAs (Decidable (Reaches _ _ _ _ _ _))

theorem ascends_roundSteps : Ascends RoundStep.length longest roundSteps := by
  unfold Ascends
  decide

theorem round_iff {n d : ℤ} : n ≤ round d ↔ Past n d :=
  lookup_iff ascends_roundSteps fun hxy hx => hx.trans hxy

theorem round_mono {d d' : ℤ} (h : d ≤ d') : round d ≤ round d' := by
  refine lookup_mono ascends_roundSteps fun s _ hs => ?_
  cases hinclusive : s.inclusive <;> simp only [RoundStep.holds, hinclusive, Bool.true_and,
    Bool.false_and, Bool.not_true, Bool.not_false, Bool.or_false, Bool.false_or,
    decide_eq_false_iff_not] at hs ⊢ <;> omega

theorem round_max (d d' : ℤ) : max (round d) (round d') = round (max d d') := by
  rcases le_total d d' with h | h
  · rw [max_eq_right h, max_eq_right (round_mono h)]
  · rw [max_eq_left h, max_eq_left (round_mono h)]

theorem round_pos (d : ℤ) : 0 < round d := by
  refine (round_iff (n := 1)).mpr ⟨by decide, ?_⟩
  exact fun s hs hnot => absurd (List.forall_iff_forall_mem.mp (by decide :
    roundSteps.Forall fun s => 1 ≤ s.length) s hs) hnot

end Rounding

/-- A range query as the data source gets it, its ends in nanoseconds. -/
structure Query where
  from_ : ℤ
  to_ : ℤ
  maxDataPoints : ℤ
  intervalMs : ℤ
  minStep : String
  intervalFactor : ℤ
  scrapeInterval : String

/-- The most points a range query asks for. -/
def safeResolution : ℤ := 11000

def defaultResolution : ℤ := 1500

def isRate (s : String) : Bool :=
  ["$__rate_interval", "${__rate_interval}", "$__rate_interval_ms", "${__rate_interval_ms}"].contains s

def isVariable (s : String) : Bool :=
  ["$__interval", "${__interval}", "$__interval_ms", "${__interval_ms}"].contains s || isRate s

/-- The least whole length `k` times which is at least `x`. -/
def roundUp (x k : ℤ) : ℤ := -(-x / k)

theorem roundUp_le_iff {x k length : ℤ} (hk : 0 < k) : roundUp x k ≤ length ↔ x ≤ length * k := by
  rw [roundUp, neg_le, Int.le_ediv_iff_mul_le hk, neg_mul, neg_le_neg_iff]

namespace Query
variable (share : Share) (q : Query)

def span : ℤ := q.to_ - q.from_

def resolution : ℤ := if q.maxDataPoints = 0 then defaultResolution else q.maxDataPoints

def factor : ℤ := if q.intervalFactor = 0 then 1 else q.intervalFactor

/-- The min step the query has: a variable is none. -/
def low : Except DurationError ℤ :=
  minInterval share q.scrapeInterval (if isVariable q.minStep then "" else q.minStep) q.intervalMs

/-- The step before the factor. -/
def rounded (low : ℤ) : ℤ :=
  let step := q.span.tdiv q.resolution
  let step := if step < low then low else round step
  let safe := round (q.span.tdiv safeResolution)
  if step < safe then safe else step

/-- `Step`. -/
def step : Except DurationError ℤ :=
  match q.low share with
  | .error e => .error e
  | .ok low =>
    if isRate q.minStep then .ok (rateInterval share (q.rounded low) q.scrapeInterval)
    else .ok (q.rounded low * q.factor)

/-- The least length at which the query asks for no more points than it may. -/
def coarse : ℤ := roundUp q.span (safeResolution * q.factor)

/-- The least length that is coarse and whose multiple is at least the min step. -/
def needed (low : ℤ) : ℤ := max (roundUp low q.factor) q.coarse

/-- The queries that survive the rounding. Where the min step is more than the range over the
points, it is coarse itself, or the range over the most points is past the brackets that are not.
Elsewhere the larger of the two quotients is past the brackets that are shorter than is needed. -/
def Fits (low : ℤ) : Prop :=
  if q.span / q.resolution < low then q.coarse ≤ low ∨ Past q.coarse (q.span / safeResolution)
  else Past (q.needed low) (max (q.span / q.resolution) (q.span / safeResolution))

instance (low : ℤ) : Decidable (q.Fits low) := inferInstanceAs (Decidable (ite _ _ _))

variable {share} {q} {low : ℤ}

theorem factor_pos (h : 0 ≤ q.intervalFactor) : 0 < q.factor := by
  unfold factor
  split <;> omega

theorem coarse_le_iff (hfactor : 0 < q.factor) {length : ℤ} :
    q.coarse ≤ length ↔ q.span ≤ safeResolution * (length * q.factor) := by
  have hpos : 0 < safeResolution * q.factor := Int.mul_pos (by decide) hfactor
  rw [coarse, roundUp_le_iff hpos, Int.mul_left_comm]

theorem needed_le_iff (hfactor : 0 < q.factor) {length : ℤ} : q.needed low ≤ length ↔
    low ≤ length * q.factor ∧ q.span ≤ safeResolution * (length * q.factor) := by
  rw [needed, max_le_iff, roundUp_le_iff hfactor, coarse_le_iff hfactor]

theorem resolution_pos (h : 0 ≤ q.maxDataPoints) : 0 < q.resolution := by
  unfold resolution defaultResolution
  split <;> omega

/-- The step before the factor is the larger of two: the quotients rounded, or the min step. -/
theorem rounded_eq (hspan : q.from_ < q.to_) : q.rounded low =
    if q.span / q.resolution < low then max low (round (q.span / safeResolution))
    else round (max (q.span / q.resolution) (q.span / safeResolution)) := by
  have hspan' : 0 ≤ q.span := by
    unfold span
    omega
  unfold rounded
  rw [Int.tdiv_eq_ediv_of_nonneg hspan', Int.tdiv_eq_ediv_of_nonneg hspan']
  dsimp only
  split
  · split_ifs <;> omega
  · rw [← round_max]
    split_ifs <;> omega

theorem rounded_pos (hspan : q.from_ < q.to_) : 0 < q.rounded low := by
  rw [rounded_eq hspan]
  split
  · exact (round_pos _).trans_le (le_max_right _ _)
  · exact round_pos _

/-- The step is at least the min step and asks for no more points than it may exactly where the
brackets allow it. -/
theorem rounded_iff (hspan : q.from_ < q.to_) (hpoints : 0 ≤ q.maxDataPoints)
    (hfactor : 0 ≤ q.intervalFactor) :
    (low ≤ q.rounded low * q.factor ∧ q.span ≤ safeResolution * (q.rounded low * q.factor)) ↔
      q.Fits low := by
  have hfactor := factor_pos hfactor
  rw [rounded_eq hspan, Fits]
  split
  · next hlow =>
    have hnonneg : 0 ≤ q.span / q.resolution := by
      refine Int.ediv_nonneg ?_ (resolution_pos hpoints).le
      unfold span
      omega
    have hmin : low ≤ max low (round (q.span / safeResolution)) * q.factor := by
      have hle := le_max_left low (round (q.span / safeResolution))
      nlinarith
    rw [and_iff_right hmin, ← coarse_le_iff hfactor, le_max_iff, round_iff]
  · rw [← needed_le_iff hfactor, round_iff]

/-- An hour at 1500 points with a scrape interval of 15 s. -/
def hourPanel : Query := ⟨0, 3600 * second, 1500, 15000, "", 0, "15s"⟩

/-- 136400 s at 11000 points: 12.4 s a point, which is rounded down to 10 s. -/
def roundedDown : Query := ⟨0, 136400 * second, 11000, 0, "12s", 1, "15s"⟩

end Query
end Kubeast.Interval
