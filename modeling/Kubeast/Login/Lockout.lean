import Kubeast.Foundation.Transition
import Mathlib.Data.Int.Notation
import Mathlib.Data.List.Chain
import Mathlib.Data.List.Infix
import Mathlib.Data.List.Induction
import Mathlib.Tactic.Linarith

/-! The lock after failed password logins (`auth-service-go/internal/handler/login_lockout.go`).
Times are in nanoseconds; a time that is not set is `none`. -/
namespace Kubeast.Login
open Transition

/-- What `auth_users` carries for one account. -/
structure LockoutState where
  failures : ℤ
  lastFailure : Option ℤ
  lockedUntil : Option ℤ
deriving DecidableEq

def LockoutState.fresh : LockoutState := ⟨0, none, none⟩

def LockoutState.isLocked (s : LockoutState) (now : ℤ) : Bool :=
  s.lockedUntil.any fun lockedUntil => now < lockedUntil

/-- The streak a failure at `now` adds to: none once the last failure is over a window ago. -/
def LockoutState.counted (s : LockoutState) (now window : ℤ) : ℤ :=
  if s.lastFailure.all (fun last => now - last > window) = true then 0 else s.failures

/-- The state after one more failure, and whether this one locked the account. -/
def LockoutState.afterFailure (s : LockoutState) (now threshold window : ℤ) : LockoutState × Bool :=
  let failures := s.counted now window + 1
  if threshold > 0 ∧ failures ≥ threshold then (⟨failures, some now, some (now + window)⟩, true)
  else (⟨failures, some now, s.lockedUntil⟩, false)

/-- The state after failures at the times given. -/
def failing (threshold window : ℤ) (s : LockoutState) (now : ℤ) : LockoutState :=
  (s.afterFailure now threshold window).1

def stateAfter (threshold window : ℤ) (times : List ℤ) : LockoutState :=
  exec (failing threshold window) .fresh times

/-- The failure at `now` after those before it locks the account. -/
def Locks (threshold window : ℤ) (before : List ℤ) (now : ℤ) : Prop :=
  ((stateAfter threshold window before).afterFailure now threshold window).2 = true

/-- Attempts are made while the account is not locked. -/
def Attempted (threshold window : ℤ) (times : List ℤ) : Prop :=
  Along (failing threshold window) (fun s now => s.isLocked now = false) .fresh times

/-- All of the times fall in the window that starts at the first. -/
def InOneWindow (window : ℤ) (times : List ℤ) : Prop :=
  ∀ first ∈ times.head?, ∀ t ∈ times, t ≤ first + window

/-- Each of the times is at most a window after the one before. -/
def Close (window : ℤ) (times : List ℤ) : Prop := times.IsChain fun a b => b - a ≤ window

/-- The last failures, at least `threshold` with this one, fall in one window. -/
def Crowded (threshold window : ℤ) (before : List ℤ) (now : ℤ) (recent : List ℤ) : Prop :=
  recent <:+ before ++ [now] ∧ threshold ≤ recent.length ∧ InOneWindow window recent

/-- What is promised of one failure: it locks only for `threshold` failures in one window that
all come after the previous lock, and it does lock for `threshold` failures in one window. -/
def CountsAsPromised (threshold window : ℤ) (before : List ℤ) (now : ℤ) : Prop :=
  (Locks threshold window before now → ∃ recent, Crowded threshold window before now recent ∧
    ∀ lockEnd ∈ (stateAfter threshold window before).lockedUntil, ∀ t ∈ recent, lockEnd ≤ t) ∧
  (∀ recent, Crowded threshold window before now recent → Locks threshold window before now)

section Streak
variable {threshold window now : ℤ} {before : List ℤ} {n : ℕ}

/-- The last `n` failures are close together. -/
def Streak (window : ℤ) (n : ℕ) (times : List ℤ) : Prop :=
  ∃ l, l <:+ times ∧ l.length = n ∧ Close window l

theorem streak_zero : Streak window 0 before := ⟨[], List.nil_suffix, rfl, List.IsChain.nil⟩

theorem getLast?_of_suffix {l : List ℤ} (h : l <:+ before) (hl : l ≠ []) :
    l.getLast? = before.getLast? := by
  obtain ⟨a, rfl⟩ := h
  rw [List.getLast?_append_of_ne_nil _ hl]

theorem close_concat {l : List ℤ} :
    Close window (l ++ [now]) ↔ Close window l ∧ ∀ last ∈ l.getLast?, now - last ≤ window := by
  simp [Close, List.isChain_append]

theorem streak_concat : Streak window (n + 1) (before ++ [now]) ↔
    ∃ l, l <:+ before ∧ l.length = n ∧ Close window l ∧ ∀ last ∈ l.getLast?, now - last ≤ window := by
  constructor
  · rintro ⟨l, hsuffix, hlen, hclose⟩
    rcases List.suffix_concat_iff.mp hsuffix with rfl | ⟨l, rfl, hl⟩
    · cases hlen
    · rw [close_concat] at hclose
      exact ⟨l, hl, by simpa using hlen, hclose⟩
  · rintro ⟨l, hl, hlen, hclose⟩
    refine ⟨l ++ [now], List.suffix_concat_iff.mpr (Or.inr ⟨l, rfl, hl⟩), by simp [hlen], ?_⟩
    exact close_concat.mpr hclose

theorem stateAfter_concat : stateAfter threshold window (before ++ [now]) =
    failing threshold window (stateAfter threshold window before) now := by
  simp [stateAfter]

@[simp] theorem failures_failing {s : LockoutState} :
    (failing threshold window s now).failures = s.counted now window + 1 := by
  unfold failing LockoutState.afterFailure
  dsimp only
  split <;> rfl

@[simp] theorem lastFailure_failing {s : LockoutState} :
    (failing threshold window s now).lastFailure = some now := by
  unfold failing LockoutState.afterFailure
  dsimp only
  split <;> rfl

theorem lastFailure_stateAfter (before : List ℤ) :
    (stateAfter threshold window before).lastFailure = before.getLast? := by
  induction before using List.reverseRecOn with
  | nil => rfl
  | append_singleton before now ih => simp [stateAfter_concat]

/-- The failures that a further one is added to are those close to it. -/
theorem le_counted_iff (now : ℤ)
    (hfailures : ∀ n : ℕ, (n : ℤ) ≤ (stateAfter threshold window before).failures ↔
      Streak window n before) (n : ℕ) :
    (n : ℤ) ≤ (stateAfter threshold window before).counted now window ↔
      ∃ l, l <:+ before ∧ l.length = n ∧ Close window l ∧
        ∀ last ∈ l.getLast?, now - last ≤ window := by
  unfold LockoutState.counted
  rw [lastFailure_stateAfter]
  split
  · next hreset =>
    constructor
    · intro hn
      have hzero : n = 0 := by omega
      exact ⟨[], List.nil_suffix, hzero.symm, List.IsChain.nil, by simp⟩
    · rintro ⟨l, hl, rfl, -, hgap⟩
      by_cases hnil : l = []
      · simp [hnil]
      · rw [getLast?_of_suffix hl hnil] at hgap
        obtain ⟨last, hlast⟩ := Option.ne_none_iff_exists'.mp
          (mt List.getLast?_eq_none_iff.mp fun hbefore => hnil (List.suffix_nil.mp (hbefore ▸ hl)))
        have hclose := hgap last hlast
        simp [hlast] at hreset
        omega
  · next hkept =>
    rw [hfailures n]
    constructor
    · rintro ⟨l, hl, hlen, hclose⟩
      refine ⟨l, hl, hlen, hclose, fun last hlast => ?_⟩
      rw [getLast?_of_suffix hl (by rintro rfl; cases hlast)] at hlast
      simp [Option.mem_def.mp hlast] at hkept
      omega
    · rintro ⟨l, hl, hlen, hclose, -⟩
      exact ⟨l, hl, hlen, hclose⟩

/-- The count is the length of the streak. -/
theorem le_failures_iff (threshold window : ℤ) (before : List ℤ) (n : ℕ) :
    (n : ℤ) ≤ (stateAfter threshold window before).failures ↔ Streak window n before := by
  induction before using List.reverseRecOn generalizing n with
  | nil =>
    constructor
    · intro h
      have hn : n = 0 := by
        have hzero : (n : ℤ) ≤ 0 := h
        omega
      subst hn
      exact streak_zero
    · rintro ⟨l, hl, rfl, -⟩
      simp [List.suffix_nil.mp hl, stateAfter, LockoutState.fresh]
  | append_singleton before now ih =>
    have hcounted := le_counted_iff now ih
    rw [stateAfter_concat, failures_failing]
    cases n with
    | zero =>
      have hzero := (hcounted 0).mpr ⟨[], List.nil_suffix, rfl, List.IsChain.nil, by simp⟩
      exact iff_of_true (by simp at hzero ⊢; omega) streak_zero
    | succ n =>
      rw [streak_concat, ← hcounted n]
      push_cast
      omega

theorem locks_iff {k : ℕ} :
    Locks (k + 1) window before now ↔ Streak window (k + 1) (before ++ [now]) := by
  rw [← le_failures_iff (k + 1), stateAfter_concat, failures_failing]
  unfold Locks LockoutState.afterFailure
  dsimp only
  split
  · next hlocks => exact iff_of_true rfl (by push_cast; omega)
  · next hopen => exact iff_of_false (by simp) (by push_cast; omega)

theorem lockedUntil_failing {s : LockoutState} (hpos : 0 < threshold) :
    (failing threshold window s now).lockedUntil =
      if threshold ≤ s.counted now window + 1 then some (now + window) else s.lockedUntil := by
  unfold failing LockoutState.afterFailure
  dsimp only
  by_cases hlocks : threshold ≤ s.counted now window + 1
  · rw [if_pos ⟨hpos, hlocks⟩, if_pos hlocks]
  · rw [if_neg (fun h => hlocks h.2), if_neg hlocks]

end Streak

section Since
variable {threshold window now : ℤ} {before : List ℤ}

/-- A streak that has locked the account ends a window before the lock does; one that has not
is younger than the lock before it. -/
structure LockFollows (threshold window : ℤ) (before : List ℤ) : Prop where
  held : threshold ≤ (stateAfter threshold window before).failures →
    (stateAfter threshold window before).lockedUntil = before.getLast?.map (· + window)
  since : (stateAfter threshold window before).failures < threshold →
    ∀ l, l <:+ before → (l.length : ℤ) ≤ (stateAfter threshold window before).failures →
      ∀ lockEnd ∈ (stateAfter threshold window before).lockedUntil, ∀ t ∈ l, lockEnd ≤ t

theorem attempted_concat : Attempted threshold window (before ++ [now]) ↔
    Attempted threshold window before ∧
      (stateAfter threshold window before).isLocked now = false := by
  simp [Attempted, along_append, stateAfter]

theorem le_of_not_isLocked {s : LockoutState} (h : s.isLocked now = false) :
    ∀ lockEnd ∈ s.lockedUntil, lockEnd ≤ now := by
  intro lockEnd hlockEnd
  unfold LockoutState.isLocked at h
  rw [Option.mem_def.mp hlockEnd] at h
  simpa using h

theorem lockFollows (hpos : 0 < threshold) (h : Attempted threshold window before) :
    LockFollows threshold window before := by
  induction before using List.reverseRecOn with
  | nil =>
    constructor
    · intro hle
      have hzero : threshold ≤ 0 := hle
      omega
    · rintro - l - - lockEnd hlockEnd
      cases hlockEnd
  | append_singleton before now ih =>
    obtain ⟨hbefore, hopen⟩ := attempted_concat.mp h
    specialize ih hbefore
    constructor
    · intro hle
      rw [stateAfter_concat, failures_failing] at hle
      rw [stateAfter_concat, lockedUntil_failing hpos, if_pos hle]
      simp
    · intro hlt l hsuffix hlen lockEnd hlockEnd t ht
      rw [stateAfter_concat, failures_failing] at hlt hlen
      rw [stateAfter_concat, lockedUntil_failing hpos, if_neg (by omega)] at hlockEnd
      rcases List.suffix_concat_iff.mp hsuffix with rfl | ⟨l, rfl, hl⟩
      · cases ht
      rcases List.mem_append.mp ht with ht | ht
      · have hcounted : (l.length : ℤ) ≤ (stateAfter threshold window before).counted now window := by
          simp at hlen
          exact hlen
        unfold LockoutState.counted at hcounted hlt
        split at hcounted
        · have hnil : l = [] := List.eq_nil_of_length_eq_zero (by omega)
          rw [hnil] at ht
          cases ht
        · next hkept =>
          rw [if_neg hkept] at hlt
          exact ih.since (by omega) l hl hcounted lockEnd hlockEnd t ht
      · obtain rfl := List.mem_singleton.mp ht
        exact le_of_not_isLocked hopen lockEnd hlockEnd

end Since

section Promise
variable {window now : ℤ} {before times l : List ℤ} {k : ℕ}

theorem close_of_inOneWindow (hsorted : l.Pairwise (· ≤ ·)) (h : InOneWindow window l) :
    Close window l := by
  cases l with
  | nil => exact List.IsChain.nil
  | cons first l =>
    apply List.Pairwise.isChain
    apply List.pairwise_of_forall_mem_list
    intro a ha b hb
    have hfirst : first ≤ a := by
      rcases List.mem_cons.mp ha with rfl | ha
      · exact le_rfl
      · exact (List.pairwise_cons.mp hsorted).1 a ha
    have hb' := h first rfl b hb
    omega

/-- The later failures of a window fall in one window too. -/
theorem InOneWindow.suffix {l' : List ℤ} (hsorted : l.Pairwise (· ≤ ·)) (h : InOneWindow window l)
    (hl' : l' <:+ l) : InOneWindow window l' := by
  intro first hfirst t ht
  have hmem : first ∈ l := hl'.subset (List.mem_of_mem_head? hfirst)
  have hnonempty : l ≠ [] := List.ne_nil_of_mem hmem
  have hhead := h (l.head hnonempty) (List.head?_eq_some_head hnonempty) t (hl'.subset ht)
  have hle : l.head hnonempty ≤ first := hsorted.rel_head hmem
  omega

theorem Streak.mono {m n : ℕ} (hmn : n ≤ m) (h : Streak window m times) : Streak window n times := by
  rw [← le_failures_iff 1] at h ⊢
  omega

theorem crowded_locks {recent : List ℤ} (hsorted : (before ++ [now]).Pairwise (· ≤ ·))
    (h : Crowded (k + 1) window before now recent) : Locks (k + 1) window before now := by
  obtain ⟨hrecent, hcount, hwithin⟩ := h
  rw [locks_iff]
  have hstreak : Streak window recent.length (before ++ [now]) :=
    ⟨recent, hrecent, rfl, close_of_inOneWindow (hsorted.sublist hrecent.sublist) hwithin⟩
  exact hstreak.mono (by omega)

/-- A streak that goes on after its lock has a failure before the lock's end. -/
theorem LockFollows.mem_lockedUntil (h : LockFollows (k + 1) window before)
    (hstreak : Streak window (k + 1) before) (hl : l <:+ before) (hne : l ≠ []) :
    ∃ last ∈ l, last + window ∈ (stateAfter (k + 1) window before).lockedUntil := by
  have hcount := (le_failures_iff (k + 1) window before (k + 1)).mpr hstreak
  rw [h.held (by push_cast at hcount; exact hcount), ← getLast?_of_suffix hl hne,
    List.getLast?_eq_some_getLast hne]
  exact ⟨l.getLast hne, List.getLast_mem hne, rfl⟩

/-- Of a streak that locks for the first time, every failure comes after the lock before. -/
theorem LockFollows.le_of_streak (h : LockFollows (k + 1) window before)
    (hopen : (stateAfter (k + 1) window before).isLocked now = false) (hl : l <:+ before)
    (hlen : l.length = k) (hclose : Close window l) (hgap : ∀ last ∈ l.getLast?, now - last ≤ window)
    (hfirst : k = 0 ∨ ¬ Streak window (k + 2) (before ++ [now])) :
    ∀ lockEnd ∈ (stateAfter (k + 1) window before).lockedUntil, ∀ t ∈ l ++ [now], lockEnd ≤ t := by
  intro lockEnd hlockEnd t ht
  rcases List.mem_append.mp ht with ht | ht
  · have hk : k ≠ 0 := by
      rintro rfl
      rw [List.eq_nil_of_length_eq_zero hlen] at ht
      cases ht
    have hlt : (stateAfter (k + 1) window before).failures < k + 1 := by
      by_contra hge
      apply hfirst.resolve_left hk
      rw [streak_concat]
      obtain ⟨l', hl', hlen', hclose'⟩ := (le_failures_iff (k + 1) window before (k + 1)).mp
        (by push_cast; omega)
      refine ⟨l', hl', hlen', hclose', fun last hlast => hgap last ?_⟩
      rwa [getLast?_of_suffix hl (by rintro rfl; cases ht),
        ← getLast?_of_suffix hl' (by rintro rfl; cases hlen')]
    have hcount := (le_failures_iff (k + 1) window before k).mpr ⟨l, hl, hlen, hclose⟩
    exact h.since hlt l hl (by rw [hlen]; exact hcount) lockEnd hlockEnd t ht
  · obtain rfl := List.mem_singleton.mp ht
    exact le_of_not_isLocked hopen lockEnd hlockEnd

/-- What one failure does is as promised exactly when a streak that locks falls in one window
and does not go on after its lock. -/
theorem countsAsPromised_iff (hwindow : 0 < window) (hsorted : (before ++ [now]).Pairwise (· ≤ ·))
    (hattempted : Attempted (k + 1) window (before ++ [now])) :
    CountsAsPromised (k + 1) window before now ↔
      (∀ l, l <:+ before ++ [now] → l.length = k + 1 → Close window l → InOneWindow window l) ∧
        (k = 0 ∨ ¬ Streak window (k + 2) (before ++ [now])) := by
  obtain ⟨hbefore, hopen⟩ := attempted_concat.mp hattempted
  have hfollows := lockFollows (by omega) hbefore
  constructor
  · rintro ⟨hlocks, -⟩
    constructor
    · intro l hl hlen hclose
      obtain ⟨recent, ⟨hrecent, hcount, hwithin⟩, -⟩ := hlocks (locks_iff.mpr ⟨l, hl, hlen, hclose⟩)
      have hsuffix : l <:+ recent := List.suffix_of_suffix_length_le hl hrecent (by omega)
      exact hwithin.suffix (hsorted.sublist hrecent.sublist) hsuffix
    · by_contra hnot
      obtain ⟨hk, hstreak⟩ := not_or.mp hnot
      rw [not_not] at hstreak
      obtain ⟨recent, ⟨hrecent, hcount, -⟩, hsince⟩ :=
        hlocks (locks_iff.mpr (hstreak.mono (by omega)))
      obtain ⟨l, hl, hlen, hclose, -⟩ := streak_concat.mp hstreak
      rcases List.suffix_concat_iff.mp hrecent with rfl | ⟨earlier, rfl, hearlier⟩
      · simp at hcount
        omega
      · have hne : earlier ≠ [] := by
          rintro rfl
          simp at hcount
          omega
        obtain ⟨last, hmem, hlock⟩ := hfollows.mem_lockedUntil ⟨l, hl, hlen, hclose⟩ hearlier hne
        have hle := hsince _ hlock last (List.mem_append_left _ hmem)
        omega
  · rintro ⟨hwithin, hfirst⟩
    refine ⟨fun hlocks => ?_, fun recent hcrowded => crowded_locks hsorted hcrowded⟩
    obtain ⟨l, hl, hlen, hclose, hgap⟩ := streak_concat.mp (locks_iff.mp hlocks)
    have hsuffix : l ++ [now] <:+ before ++ [now] := List.suffix_concat_iff.mpr (Or.inr ⟨l, rfl, hl⟩)
    have hlength : (l ++ [now]).length = k + 1 := by simp [hlen]
    refine ⟨l ++ [now], ⟨hsuffix, by rw [hlength]; push_cast; omega, ?_⟩, ?_⟩
    · exact hwithin _ hsuffix hlength (close_concat.mpr ⟨hclose, hgap⟩)
    · exact hfollows.le_of_streak hopen hl hlen hclose hgap hfirst

theorem Attempted.initial (h : Attempted (k + 1) window times) (hinitial : l <+: times) :
    Attempted (k + 1) window l := by
  obtain ⟨rest, rfl⟩ := hinitial
  exact (along_append.mp h).1

/-- Failures in a row are the last ones at some point. -/
theorem exists_initial (hl : l <:+: times) (hne : l ≠ []) :
    ∃ before now, before ++ [now] <+: times ∧ l <:+ before ++ [now] := by
  obtain ⟨a, b, rfl⟩ := hl
  refine ⟨a ++ l.dropLast, l.getLast hne, ?_, ?_⟩
  · rw [List.append_assoc a, List.dropLast_append_getLast]
    exact List.prefix_append _ b
  · rw [List.append_assoc a, List.dropLast_append_getLast]
    exact List.suffix_append a l

end Promise

/-- `threshold` failures in a row that come each at most a window after the one before fall in
one window; and with a threshold above one, no more than `threshold` in a row come so. -/
def StreaksFit (threshold window : ℤ) (times : List ℤ) : Prop :=
  (∀ l : List ℤ, l <:+: times → l.length = threshold → Close window l → InOneWindow window l) ∧
    (threshold = 1 ∨ ∀ l : List ℤ, l <:+: times → l.length = threshold + 1 → ¬ Close window l)

/-- Every failure of a sequence counts as promised exactly when its streaks fit the window. -/
theorem lockout_counts_iff (threshold window : ℤ) (hthreshold : 0 < threshold)
    (hwindow : 0 < window) (times : List ℤ) (hsorted : times.Pairwise (· ≤ ·))
    (hattempted : Attempted threshold window times) :
    (∀ before now, before ++ [now] <+: times → CountsAsPromised threshold window before now) ↔
      StreaksFit threshold window times := by
  obtain ⟨k, rfl⟩ : ∃ k : ℕ, threshold = k + 1 := ⟨(threshold - 1).toNat, by omega⟩
  have hone : ∀ before now, before ++ [now] <+: times →
      (CountsAsPromised (k + 1) window before now ↔
        (∀ l, l <:+ before ++ [now] → l.length = k + 1 → Close window l → InOneWindow window l) ∧
          (k = 0 ∨ ¬ Streak window (k + 2) (before ++ [now]))) := fun before now hinitial =>
    countsAsPromised_iff hwindow (hsorted.sublist hinitial.sublist) (hattempted.initial hinitial)
  constructor
  · intro hall
    constructor
    · intro l hl hlen hclose
      have hlen' : l.length = k + 1 := by omega
      obtain ⟨before, now, hinitial, hsuffix⟩ :=
        exists_initial hl (List.ne_nil_of_length_eq_add_one hlen')
      exact ((hone before now hinitial).mp (hall before now hinitial)).1 l hsuffix hlen' hclose
    · rcases Nat.eq_zero_or_pos k with rfl | hk
      · exact Or.inl rfl
      · refine Or.inr fun l hl hlen hclose => ?_
        have hlen' : l.length = k + 2 := by omega
        obtain ⟨before, now, hinitial, hsuffix⟩ :=
          exists_initial hl (List.ne_nil_of_length_eq_add_one hlen')
        have hfirst := ((hone before now hinitial).mp (hall before now hinitial)).2
        exact hfirst.resolve_left (by omega) ⟨l, hsuffix, hlen', hclose⟩
  · rintro ⟨hwithin, hfirst⟩ before now hinitial
    rw [hone before now hinitial]
    constructor
    · intro l hl hlen hclose
      exact hwithin l (hl.isInfix.trans hinitial.isInfix) (by omega) hclose
    · refine hfirst.imp (by omega) fun hnone => ?_
      rintro ⟨l, hl, hlen, hclose⟩
      exact hnone l (hl.isInfix.trans hinitial.isInfix) (by omega) hclose

/-- Three failures, each just inside a window after the one before: the third locks, though
the first is long over. -/
theorem spacedFailures_lock : Attempted 3 10 [0, 9, 18] ∧ Locks 3 10 [0, 9] 18 ∧
    ¬ CountsAsPromised 3 10 [0, 9] 18 := by
  have hlocks : Locks 3 10 [0, 9] 18 := by unfold Locks; decide
  refine ⟨by unfold Attempted; decide, hlocks, fun hcounts => ?_⟩
  obtain ⟨recent, ⟨hrecent, hcount, hwithin⟩, -⟩ := hcounts.1 hlocks
  have hall : recent = [0, 9, 18] := by
    apply hrecent.eq_of_length_le
    simp only [List.cons_append, List.nil_append, List.length_cons, List.length_nil]
    omega
  rw [hall] at hwithin
  exact absurd (hwithin 0 rfl 18 (by simp)) (by decide)

theorem lockout_counts_iff_pair : CountsAsPromised 2 10 [0] 5 := by
  have hfit : StreaksFit 2 10 [0, 5] := by
    constructor
    · intro l hl hlen _
      obtain rfl : l = [0, 5] := hl.eq_of_length_le (by simp; omega)
      intro first hfirst t ht
      simp at hfirst ht
      omega
    · refine Or.inr fun l hl hlen _ => ?_
      have hle := hl.length_le
      simp at hle
      omega
  exact (lockout_counts_iff 2 10 (by decide) (by decide) [0, 5] (by decide)
    (by unfold Attempted; decide)).mpr hfit [0] 5 (List.prefix_refl _)

end Kubeast.Login
