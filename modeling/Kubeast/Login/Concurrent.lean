import Kubeast.Login.Lockout

/-! Wrong passwords at once (`Login` in `auth-service-go/internal/handler/auth_user.go`). Each
request reads the account's row, decides, and writes the row back in a statement of its own. -/
namespace Kubeast.Login
open Transition

/-- Where a request with a wrong password stands. -/
inductive Phase
  | started
  | read (row : LockoutState)
  | failed (row : LockoutState) (now : ℤ)
deriving DecidableEq

/-- The audit row a request leaves, with the clock it went by. -/
inductive Outcome
  | locked (now : ℤ)
  | passwordMismatch (now failures : ℤ) (locks : Bool)
deriving DecidableEq

/-- The clock, the row of the account, the requests on their way and those finished. -/
structure Account where
  now : ℤ
  row : LockoutState
  pending : List Phase
  finished : List Outcome
deriving DecidableEq

def Account.start (now : ℤ) (row : LockoutState) : Account := ⟨now, row, [], []⟩

inductive Step
  | tick (d : ℕ)
  | request
  | getUser (i : ℕ)
  | check (i : ℕ)
  | saveLoginFailure (i : ℕ)

namespace Account

def getUser (s : Account) (i : ℕ) : Account :=
  match s.pending[i]? with
  | some .started => { s with pending := s.pending.set i (.read s.row) }
  | _ => s

/-- The clock is read; a locked account refuses the password without checking it. -/
def check (s : Account) (i : ℕ) : Account :=
  match s.pending[i]? with
  | some (.read row) =>
      if row.isLocked s.now = true then
        { s with pending := s.pending.eraseIdx i, finished := s.finished ++ [.locked s.now] }
      else { s with pending := s.pending.set i (.failed row s.now) }
  | _ => s

/-- The statement writes all three columns, from the row as it was read. -/
def saveLoginFailure (threshold window : ℤ) (s : Account) (i : ℕ) : Account :=
  match s.pending[i]? with
  | some (.failed row now) =>
      let (next, locks) := row.afterFailure now threshold window
      { s with
        row := next
        pending := s.pending.eraseIdx i
        finished := s.finished ++ [.passwordMismatch now next.failures locks] }
  | _ => s

end Account

def step (threshold window : ℤ) (s : Account) : Step → Account
  | .tick d => { s with now := s.now + d }
  | .request => { s with pending := s.pending ++ [.started] }
  | .getUser i => s.getUser i
  | .check i => s.check i
  | .saveLoginFailure i => s.saveLoginFailure threshold window i

/-- Every request goes by a clock of the window that starts at `first`. -/
def InWindow (first window : ℤ) (s : Account) : Step → Prop
  | .check _ => first ≤ s.now ∧ s.now ≤ first + window
  | _ => True

/-- The row a request is about to write over. -/
def Phase.toSave : Phase → Option LockoutState
  | .failed row _ => some row
  | _ => none

/-- A failure is saved over the row its request read. -/
def Undisturbed (s : Account) : Step → Prop
  | .saveLoginFailure i => ∀ row ∈ s.pending[i]?.bind Phase.toSave, s.row = row
  | _ => True

instance (first window : ℤ) (s : Account) : (a : Step) → Decidable (InWindow first window s a)
  | .check _ => inferInstanceAs (Decidable (_ ∧ _))
  | .tick _ | .request | .getUser _ | .saveLoginFailure _ => isTrue trivial

instance (s : Account) : (a : Step) → Decidable (Undisturbed s a)
  | .saveLoginFailure i =>
      inferInstanceAs (Decidable (∀ row ∈ s.pending[i]?.bind Phase.toSave, s.row = row))
  | .tick _ | .request | .getUser _ | .check _ => isTrue trivial

def Outcome.isMismatch : Outcome → Bool
  | .locked _ => false
  | .passwordMismatch .. => true

/-- The failures saved so far. -/
def Account.saved (s : Account) : ℕ := s.finished.countP Outcome.isMismatch

variable {threshold window first now : ℤ} {initial row : LockoutState}
  {s : Account} {i : ℕ}

/-- The streak of the requests has reached the threshold. -/
def Account.Reached (threshold : ℤ) (s : Account) : Prop := 0 < s.saved ∧ threshold ≤ s.row.failures

/-- What holds while the requests of one window save over the rows they read. -/
structure Counted (threshold window first : ℤ) (initial : LockoutState) (s : Account) : Prop where
  clock : s.saved = 0 → s.row = initial
  count : (s.saved : ℤ) ≤ s.row.failures
  last : 0 < s.saved → ∃ t, s.row.lastFailure = some t ∧ first ≤ t ∧ t ≤ first + window
  lock : s.Reached threshold → ∃ lockEnd, s.row.lockedUntil = some lockEnd ∧ first + window ≤ lockEnd
  current : s.row.lockedUntil = initial.lockedUntil ∨ s.Reached threshold
  rows : ∀ row, (.read row ∈ s.pending ∨ ∃ now, .failed row now ∈ s.pending) →
    row.lockedUntil = initial.lockedUntil ∨ s.Reached threshold
  clocks : ∀ row now, .failed row now ∈ s.pending → first ≤ now ∧ now ≤ first + window
  refused : ∀ now, .locked now ∈ s.finished → s.Reached threshold

section Steps

theorem counted_of_close {last : ℤ} (hlast : row.lastFailure = some last)
    (hclose : now - last ≤ window) : row.counted now window = row.failures := by
  unfold LockoutState.counted
  rw [hlast, if_neg (by simpa using hclose)]

/-- No failure of the window starts the count over. -/
theorem Counted.le_counted (h : Counted threshold window first initial s)
    (hinitial : 0 ≤ initial.failures) (hnow : first ≤ now ∧ now ≤ first + window) :
    (s.saved : ℤ) ≤ s.row.counted now window ∧
      (0 < s.saved → s.row.counted now window = s.row.failures) := by
  have hkept : 0 < s.saved → s.row.counted now window = s.row.failures := by
    intro hsaved
    obtain ⟨t, ht, hfirst, hle⟩ := h.last hsaved
    exact counted_of_close ht (by omega)
  refine ⟨?_, hkept⟩
  rcases Nat.eq_zero_or_pos s.saved with hzero | hsaved
  · rw [hzero, h.clock hzero]
    unfold LockoutState.counted
    split
    · exact le_rfl
    · exact hinitial
  · rw [hkept hsaved]
    exact h.count

theorem saveLoginFailure_eq (hi : s.pending[i]? = some (.failed row now)) :
    s.saveLoginFailure threshold window i =
      { s with
        row := failing threshold window row now
        pending := s.pending.eraseIdx i
        finished := s.finished ++ [.passwordMismatch now (failing threshold window row now).failures
          (row.afterFailure now threshold window).2] } := by
  simp [Account.saveLoginFailure, hi, failing]

theorem Counted.saveLoginFailure (hpos : 0 < threshold) (hinitial : 0 ≤ initial.failures)
    (h : Counted threshold window first initial s) (hrow : Undisturbed s (.saveLoginFailure i)) :
    Counted threshold window first initial (s.saveLoginFailure threshold window i) := by
  cases hi : s.pending[i]? with
  | none => simpa [Account.saveLoginFailure, hi] using h
  | some phase =>
    cases phase with
    | started => simpa [Account.saveLoginFailure, hi] using h
    | read row => simpa [Account.saveLoginFailure, hi] using h
    | failed row now =>
      obtain rfl : s.row = row := hrow row (by rw [hi]; rfl)
      have hclock := h.clocks s.row now (List.mem_of_getElem? hi)
      obtain ⟨hle, hkept⟩ := h.le_counted hinitial hclock
      rw [saveLoginFailure_eq hi]
      set t : Account := { s with
        row := failing threshold window s.row now
        pending := s.pending.eraseIdx i
        finished := s.finished ++ [.passwordMismatch now
          (failing threshold window s.row now).failures
          (s.row.afterFailure now threshold window).2] } with ht
      have hsaved : t.saved = s.saved + 1 := by
        simp [ht, Account.saved, Outcome.isMismatch]
      have hfailures : t.row.failures = s.row.counted now window + 1 := failures_failing
      have hlock : t.row.lockedUntil = if threshold ≤ s.row.counted now window + 1 then
          some (now + window) else s.row.lockedUntil := lockedUntil_failing hpos
      have hreached : s.Reached threshold → t.Reached threshold := by
        rintro ⟨hmade, hthreshold⟩
        have hcounted := hkept hmade
        exact ⟨by omega, by omega⟩
      have hpending : ∀ p, p ∈ t.pending → p ∈ s.pending := fun p hp => List.mem_of_mem_eraseIdx hp
      constructor
      · intro hzero
        omega
      · rw [hsaved, hfailures]
        push_cast
        omega
      · intro _
        exact ⟨now, lastFailure_failing, hclock⟩
      · rintro ⟨-, hthreshold⟩
        rw [hlock, if_pos (by omega)]
        exact ⟨now + window, rfl, by omega⟩
      · rw [hlock]
        split
        · next hthreshold => exact Or.inr ⟨by omega, by omega⟩
        · exact h.current.imp_right hreached
      · rintro row (hrow | ⟨n, hrow⟩)
        · exact (h.rows row (Or.inl (hpending _ hrow))).imp_right hreached
        · exact (h.rows row (Or.inr ⟨n, hpending _ hrow⟩)).imp_right hreached
      · exact fun row n hrow => h.clocks row n (hpending _ hrow)
      · intro n hn
        have hn' : .locked n ∈ s.finished := by simpa [ht] using hn
        exact hreached (h.refused n hn')

/-- A step that saves nothing. -/
theorem Counted.sameRow {t : Account} (h : Counted threshold window first initial s)
    (hrow : t.row = s.row) (hsaved : t.saved = s.saved)
    (hpending : ∀ p ∈ t.pending, p ∈ s.pending ∨ p = .started)
    (hrefused : ∀ n, .locked n ∈ t.finished → .locked n ∈ s.finished ∨ s.Reached threshold) :
    Counted threshold window first initial t := by
  have hreached : t.Reached threshold ↔ s.Reached threshold := by
    rw [Account.Reached, Account.Reached, hrow, hsaved]
  constructor
  · rw [hrow, hsaved]
    exact h.clock
  · rw [hrow, hsaved]
    exact h.count
  · rw [hrow, hsaved]
    exact h.last
  · rw [hrow, hreached]
    exact h.lock
  · rw [hrow, hreached]
    exact h.current
  · rw [hreached]
    rintro row (hmem | ⟨n, hmem⟩)
    · exact h.rows row (Or.inl ((hpending _ hmem).resolve_right (by simp)))
    · exact h.rows row (Or.inr ⟨n, (hpending _ hmem).resolve_right (by simp)⟩)
  · exact fun row n hmem => h.clocks row n ((hpending _ hmem).resolve_right (by simp))
  · rw [hreached]
    exact fun n hn => (hrefused n hn).elim (h.refused n) id

theorem Counted.getUser (h : Counted threshold window first initial s) :
    Counted threshold window first initial (s.getUser i) := by
  unfold Account.getUser
  split
  · refine ⟨h.clock, h.count, h.last, h.lock, h.current, ?_, ?_, h.refused⟩
    · rintro row (hrow | ⟨n, hrow⟩)
      · rcases List.mem_or_eq_of_mem_set hrow with hrow | hrow
        · exact h.rows row (Or.inl hrow)
        · obtain rfl := Phase.read.inj hrow
          exact h.current
      · rcases List.mem_or_eq_of_mem_set hrow with hrow | hrow
        · exact h.rows row (Or.inr ⟨n, hrow⟩)
        · cases hrow
    · intro row n hrow
      rcases List.mem_or_eq_of_mem_set hrow with hrow | hrow
      · exact h.clocks row n hrow
      · cases hrow
  · exact h

/-- Only a row with a lock of this window refuses. -/
theorem Counted.check (hopen : initial.isLocked first = false)
    (h : Counted threshold window first initial s) (hclock : InWindow first window s (.check i)) :
    Counted threshold window first initial (s.check i) := by
  unfold Account.check
  split
  · next row hi =>
    have hrow := h.rows row (Or.inl (List.mem_of_getElem? hi))
    split
    · next hlocked =>
      have hreached : s.Reached threshold := by
        apply hrow.resolve_left
        intro hsame
        have hunlocked : row.isLocked s.now = false := by
          unfold LockoutState.isLocked at hopen ⊢
          rw [hsame]
          cases hlock : initial.lockedUntil with
          | none => rfl
          | some lockEnd =>
            rw [hlock] at hopen
            have hend : lockEnd ≤ first := by simpa using hopen
            have hfirst := hclock.1
            simp
            omega
        rw [hunlocked] at hlocked
        cases hlocked
      apply h.sameRow
      · rfl
      · simp [Account.saved, Outcome.isMismatch]
      · exact fun p hp => Or.inl (List.mem_of_mem_eraseIdx hp)
      · exact fun n _ => Or.inr hreached
    · next hunlocked =>
      refine ⟨h.clock, h.count, h.last, h.lock, h.current, ?_, ?_, h.refused⟩
      · rintro row' (hrow' | ⟨n, hrow'⟩)
        · rcases List.mem_or_eq_of_mem_set hrow' with hrow' | hrow'
          · exact h.rows row' (Or.inl hrow')
          · cases hrow'
        · rcases List.mem_or_eq_of_mem_set hrow' with hrow' | hrow'
          · exact h.rows row' (Or.inr ⟨n, hrow'⟩)
          · obtain ⟨rfl, -⟩ := Phase.failed.inj hrow'
            exact hrow
      · intro row' n hrow'
        rcases List.mem_or_eq_of_mem_set hrow' with hrow' | hrow'
        · exact h.clocks row' n hrow'
        · obtain ⟨-, rfl⟩ := Phase.failed.inj hrow'
          exact hclock
  · exact h

theorem counted_step (hpos : 0 < threshold) (hinitial : 0 ≤ initial.failures)
    (hopen : initial.isLocked first = false) (a : Step)
    (h : Counted threshold window first initial s)
    (hguard : InWindow first window s a ∧ Undisturbed s a) :
    Counted threshold window first initial (step threshold window s a) := by
  cases a with
  | tick d => exact h.sameRow rfl rfl (fun p hp => Or.inl hp) fun n hn => Or.inl hn
  | request =>
    refine h.sameRow rfl rfl (fun p hp => ?_) fun n hn => Or.inl hn
    simpa [step] using hp
  | getUser i => exact h.getUser
  | check i => exact h.check hopen hguard.1
  | saveLoginFailure i => exact h.saveLoginFailure hpos hinitial hguard.2

theorem counted_start (hinitial : 0 ≤ initial.failures) (start : ℤ) :
    Counted threshold window first initial (Account.start start initial) where
  clock _ := rfl
  count := hinitial
  last h := absurd h (lt_irrefl 0)
  lock h := absurd h.1 (lt_irrefl 0)
  current := Or.inl rfl
  rows _ h := by simp [Account.start] at h
  clocks _ _ h := by cases h
  refused _ h := by cases h

end Steps

/-- The requests of a run, finished or not. -/
def Account.requests (s : Account) : ℕ := s.pending.length + s.finished.length

section Result

theorem saved_of_no_refusal (h : ∀ n, Outcome.locked n ∉ s.finished) :
    s.saved = s.finished.length := by
  unfold Account.saved
  rw [List.countP_eq_length]
  intro o ho
  cases o with
  | locked n => exact absurd ho (h n)
  | passwordMismatch n failures locks => rfl

end Result

/-- Wrong passwords of one window, each saved over the row its request read: none is lost, and
enough of them lock the account to the end of the window at least. -/
theorem no_failure_lost (threshold window : ℤ) (hpos : 0 < threshold) (first start : ℤ)
    (initial : LockoutState) (hinitial : 0 ≤ initial.failures)
    (hopen : initial.isLocked first = false) (as : List Step)
    (hrun : Along (step threshold window) (fun s a => InWindow first window s a ∧ Undisturbed s a)
      (Account.start start initial) as)
    (hdone : (exec (step threshold window) (Account.start start initial) as).pending = []) :
    min ((exec (step threshold window) (Account.start start initial) as).requests : ℤ) threshold ≤
        (exec (step threshold window) (Account.start start initial) as).row.failures ∧
      (threshold ≤ (exec (step threshold window) (Account.start start initial) as).requests →
        ∀ t < first + window,
          (exec (step threshold window) (Account.start start initial) as).row.isLocked t = true) := by
  have hcounted := exec_invariant (fun s a h hg => counted_step hpos hinitial hopen a h hg)
    (counted_start hinitial start) hrun
  generalize exec (step threshold window) (Account.start start initial) as = s at *
  have hrequests : s.requests = s.finished.length := by simp [Account.requests, hdone]
  by_cases hreached : s.Reached threshold
  · refine ⟨(min_le_right _ _).trans hreached.2, fun _ t ht => ?_⟩
    obtain ⟨lockEnd, hlock, hend⟩ := hcounted.lock hreached
    unfold LockoutState.isLocked
    rw [hlock]
    simp
    omega
  · have hsaved : s.saved = s.requests := by
      rw [hrequests]
      exact saved_of_no_refusal fun n hn => hreached (hcounted.refused n hn)
    have hcount := hcounted.count
    rw [hsaved] at hcount
    refine ⟨(min_le_left _ _).trans hcount, fun hk => absurd ⟨?_, by omega⟩ hreached⟩
    omega

/-- Two requests read the row before either saves. -/
def bothReadFirst : List Step :=
  [.request, .request, .getUser 0, .getUser 1, .check 0, .check 1, .saveLoginFailure 0,
   .saveLoginFailure 0]

/-- Both failures are counted as the first, and a threshold of two does not lock. -/
theorem bothReadFirst_loses_one :
    (exec (step 2 10) (Account.start 0 .fresh) bothReadFirst).pending = [] ∧
      (exec (step 2 10) (Account.start 0 .fresh) bothReadFirst).requests = 2 ∧
      (exec (step 2 10) (Account.start 0 .fresh) bothReadFirst).row.failures = 1 ∧
      (exec (step 2 10) (Account.start 0 .fresh) bothReadFirst).row.isLocked 0 = false := by
  decide

def oneAfterTheOther : List Step :=
  [.request, .request, .getUser 0, .check 0, .saveLoginFailure 0, .tick 3, .getUser 0, .check 0,
   .saveLoginFailure 0]

theorem no_failure_lost_oneAfterTheOther :
    (exec (step 2 10) (Account.start 0 .fresh) oneAfterTheOther).row.isLocked 9 = true :=
  (no_failure_lost 2 10 (by decide) 0 0 .fresh (by decide) (by decide) oneAfterTheOther
    (by decide) (by decide)).2 (by decide) 9 (by decide)

end Kubeast.Login
