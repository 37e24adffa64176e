import Kubeast.Foundation.Transition
import Mathlib.Data.Int.Notation

/-! The fail-closed audit store (`pkg/audit/gate.go`): calls of `Write` and `Ready` as steps between
what they ask of the store, in any order and by any clock. -/
namespace Kubeast.AuditGate
open Transition

/-- What `Guard` is given beside the store. -/
inductive Pinger
  | none
  | pings
  | probes
deriving DecidableEq

/-- A `Guarded` as it is built. -/
structure Config where
  failClosed : Bool
  pinger : Pinger

/-- `ttl`, in nanoseconds. -/
def ttl : ℤ := 2000000000

/-- What the lock guards. A time that is absent is the zero time. -/
structure Guarded where
  checkedAt : Option ℤ
  lastPing : Option String
  broken : Bool
  probedAt : Option ℤ
  lastProbe : Option String

def Guarded.start : Guarded := ⟨none, none, false, none, none⟩

/-- `writeFailure`. -/
structure WriteFailure where
  time : ℤ
  err : String

/-- Where a call stands. A call that pings or probes holds the lock. Moments count the steps of
the run. -/
inductive Task
  | writing (began : ℕ)
  | recording (ended : ℕ) (err : Option String)
  | counting (ended : ℕ) (err : String)
  | wrote (ended returned : ℕ) (err : Option String)
  | waiting (started : ℕ)
  | pinging (started : ℕ)
  | probing (started began : ℕ)
  | answered (started : ℕ) (err : Option String)
deriving DecidableEq

/-- The wrapper, its calls, and when the inner writes and probes that succeeded had begun. -/
structure State where
  now : ℤ
  moment : ℕ
  guarded : Guarded
  failures : ℕ
  lastFail : Option WriteFailure
  tasks : List Task
  landed : List ℕ

def State.start (now : ℤ) : State := ⟨now, 0, Guarded.start, 0, none, [], []⟩

/-- An answer that is absent is a nil error. -/
inductive Step
  | clock (elapsed : ℕ)
  | write
  | ready
  | run (i : ℕ) (answer : Option String)

/-- `time.Since(t) >= g.ttl`. -/
def stale (now : ℤ) (t : Option ℤ) : Bool := t.all fun t => ttl ≤ now - t

def unavailable (err : Option String) : Option String :=
  some ("audit unavailable: " ++ err.getD "<nil>")

def Task.locks : Task → Bool
  | .pinging _ | .probing .. => true
  | _ => false

namespace State

def locked (s : State) : Bool := s.tasks.any Task.locks

def put (s : State) (i : ℕ) (t : Task) : State := { s with tasks := s.tasks.set i t }

/-- The rest of `Ready` once the ping is known. -/
def afterPing (cfg : Config) (s : State) (i started : ℕ) : State :=
  if s.guarded.lastPing ≠ none then s.put i (.answered started (unavailable s.guarded.lastPing))
  else if s.guarded.broken = true ∧ cfg.pinger = .probes then
    if stale s.now s.guarded.probedAt then s.put i (.probing started s.moment)
    else s.put i (.answered started (unavailable s.guarded.lastProbe))
  else s.put i (.answered started none)

/-- The inner write has answered. -/
def noteLanded (s : State) (began : ℕ) (answer : Option String) : State :=
  if answer = none then { s with landed := began :: s.landed } else s

/-- `Write` under the lock. -/
def record (s : State) (err : Option String) : State :=
  if err ≠ none then
    { s with guarded := { s.guarded with checkedAt := none, probedAt := none, broken := true } }
  else { s with guarded := { s.guarded with broken := false } }

/-- `ProbeWrite` has answered. -/
def probed (s : State) (began : ℕ) (answer : Option String) : State :=
  let s := s.noteLanded began answer
  { s with guarded := { s.guarded with
    lastProbe := answer, probedAt := some s.now, broken := answer ≠ none } }

def run (cfg : Config) (s : State) (i : ℕ) (answer : Option String) : State :=
  match s.tasks[i]? with
  | some (.writing began) => (s.noteLanded began answer).put i (.recording s.moment answer)
  | some (.recording ended err) =>
      if s.locked then s
      else match err with
        | none => (s.record none).put i (.wrote ended s.moment none)
        | some err => (s.record (some err)).put i (.counting ended err)
  | some (.counting ended err) =>
      { s with failures := s.failures + 1, lastFail := some ⟨s.now, err⟩ }.put i
        (.wrote ended s.moment (some err))
  | some (.waiting started) =>
      if cfg.failClosed = false ∨ cfg.pinger = .none then s.put i (.answered started none)
      else if s.locked then s
      else if stale s.now s.guarded.checkedAt then s.put i (.pinging started)
      else s.afterPing cfg i started
  | some (.pinging started) =>
      { s with guarded := { s.guarded with lastPing := answer, checkedAt := some s.now } }.afterPing
        cfg i started
  | some (.probing started began) =>
      if (s.probed began answer).guarded.broken then
        (s.probed began answer).put i (.answered started (unavailable answer))
      else (s.probed began answer).put i (.answered started none)
  | some (.wrote ..) | some (.answered ..) | none => s

end State

def act (cfg : Config) (s : State) : Step → State
  | .clock elapsed => { s with now := s.now + elapsed }
  | .write => { s with tasks := s.tasks ++ [.writing s.moment] }
  | .ready => { s with tasks := s.tasks ++ [.waiting s.moment] }
  | .run i answer => s.run cfg i answer

def step (cfg : Config) (s : State) (a : Step) : State :=
  { act cfg s a with moment := s.moment + 1 }

end Kubeast.AuditGate

/-! After a failed write `Ready` refuses until a write lands again: in every run whose recorded
successes answer the failures recorded before them. -/
namespace Kubeast.AuditGate
open Transition

variable {cfg : Config} {s s' : State} {i : ℕ} {t t' : Task} {e : ℕ} {a : Step}

/-- When the inner write of a failure that is recorded had ended. -/
def Task.failure : Task → Option ℕ
  | .counting ended _ => some ended
  | .wrote ended _ err => err.map fun _ => ended
  | _ => none

namespace State

/-- A failed write that had ended at a moment is recorded. -/
def Failed (s : State) (e : ℕ) : Prop := ∃ t ∈ s.tasks, t.failure = some e

/-- An inner write or a probe that began after the moment succeeded. -/
def LandedAfter (s : State) (e : ℕ) : Prop := ∃ b ∈ s.landed, e < b

/-- An answer that lets an action run, of a call that started after a failed write returned, comes
only after a write or probe landed that began after the failed one had ended. -/
def StaysClosed (s : State) : Prop :=
  ∀ ended returned err started, .wrote ended returned (some err) ∈ s.tasks →
    .answered started none ∈ s.tasks → returned < started → s.LandedAfter ended

end State

/-- A success is recorded only when a write or probe landed after each failure recorded before. -/
def RecordsInOrder (s : State) (a : Step) : Prop :=
  ∀ i answer ended, a = .run i answer → s.tasks[i]? = some (.recording ended none) →
    s.locked = false → ∀ e, s.Failed e → s.LandedAfter e

/-- The moments a call knows have passed. -/
def Task.Before (m : ℕ) : Task → Prop
  | .writing began => began < m
  | .recording ended _ | .counting ended _ => ended < m
  | .wrote ended returned _ => ended < m ∧ returned < m
  | .waiting started | .pinging started | .answered started _ => started < m
  | .probing started began => started < m ∧ began < m

/-- The invariant of every run. -/
structure Sound (s : State) : Prop where
  before : ∀ t ∈ s.tasks, t.Before s.moment
  closed : s.guarded.broken = false → ∀ e, s.Failed e → s.LandedAfter e
  probing : ∀ started began, .probing started began ∈ s.tasks → ∀ e, s.Failed e → e < began
  answers : s.StaysClosed

section Tasks

theorem Task.Before.mono {m m' : ℕ} (h : t.Before m) (hle : m ≤ m') : t.Before m' := by
  cases t <;> simp only [Task.Before] at h ⊢ <;> omega

theorem Task.failure_lt {m : ℕ} (h : t.Before m) (ht : t.failure = some e) : e < m := by
  cases t with
  | counting ended err =>
    obtain rfl := Option.some.inj ht
    exact h
  | wrote ended returned err =>
    obtain ⟨-, -, rfl⟩ := Option.map_eq_some_iff.mp ht
    exact h.1
  | _ => cases ht

theorem Sound.failed_lt (h : Sound s) (he : s.Failed e) : e < s.moment := by
  obtain ⟨t, ht, hfail⟩ := he
  exact Task.failure_lt (h.before t ht) hfail

theorem State.LandedAfter.mono (hsub : s.landed ⊆ s'.landed) (h : s.LandedAfter e) : s'.LandedAfter e := by
  obtain ⟨b, hb, hlt⟩ := h
  exact ⟨b, hsub hb, hlt⟩

end Tasks

section Turns

/-- What a step does to the calls: one is put in its next place, or one is new. -/
structure Turn (s s' : State) (t' : Task) : Prop where
  tasks : ∀ t ∈ s'.tasks, t = t' ∨ t ∈ s.tasks
  moment : s'.moment = s.moment + 1
  landed : s.landed ⊆ s'.landed

theorem Turn.failed (h : Turn s s' t') (he : s'.Failed e) : t'.failure = some e ∨ s.Failed e := by
  obtain ⟨t, ht, hfail⟩ := he
  rcases h.tasks t ht with rfl | hold
  · exact Or.inl hfail
  · exact Or.inr ⟨t, hold, hfail⟩

/-- A step keeps the invariant when it keeps what is said of the flag and of probes. -/
theorem Sound.turn (h : Sound s) (hturn : Turn s s' t') (hbefore : t'.Before s'.moment)
    (hreturned : ∀ ended returned err, t' = .wrote ended returned err → returned = s.moment)
    (hanswer : ∀ started, t' = .answered started none → s'.guarded.broken = false)
    (hclosed : s'.guarded.broken = false → ∀ e, s'.Failed e → s'.LandedAfter e)
    (hprobing : ∀ started began, .probing started began ∈ s'.tasks → ∀ e, s'.Failed e → e < began) :
    Sound s' := by
  refine ⟨?_, hclosed, hprobing, ?_⟩
  · intro t ht
    rcases hturn.tasks t ht with rfl | hold
    · exact hbefore
    · exact (h.before t hold).mono (by have := hturn.moment; omega)
  · intro ended returned err started hw ha hlt
    rcases hturn.tasks _ ha with hnew | hanswered
    · exact hclosed (hanswer started hnew.symm) ended ⟨_, hw, rfl⟩
    · rcases hturn.tasks _ hw with hnew | hwrote
      · -- it returns now, after the call that was answered had started
        have hstarted : started < s.moment := h.before _ hanswered
        have hnow := hreturned ended returned (some err) hnew.symm
        omega
      · exact (h.answers ended returned err started hwrote hanswered hlt).mono hturn.landed

/-- A step that records nothing. -/
theorem Sound.quiet (h : Sound s) (hturn : Turn s s' t') (hbefore : t'.Before s'.moment)
    (hreturned : ∀ ended returned err, t' = .wrote ended returned err → returned = s.moment)
    (hanswer : ∀ started, t' = .answered started none → s.guarded.broken = false)
    (hfail : ∀ e, t'.failure = some e → s.Failed e)
    (hprobing : ∀ started began, t' = .probing started began → began = s.moment)
    (hbroken : s'.guarded.broken = s.guarded.broken) : Sound s' := by
  have hfailed (e : ℕ) (he : s'.Failed e) : s.Failed e := (hturn.failed he).elim (hfail e) id
  refine h.turn hturn hbefore hreturned (fun started ht => hbroken.trans (hanswer started ht)) ?_ ?_
  · exact fun hopen e he => (h.closed (hbroken ▸ hopen) e (hfailed e he)).mono hturn.landed
  · intro started began ht e he
    rcases hturn.tasks _ ht with hnew | hold
    · have hlt := h.failed_lt (hfailed e he)
      have hnow := hprobing started began hnew.symm
      omega
    · exact h.probing started began hold e (hfailed e he)

theorem turn_put {u : State} (htasks : u.tasks = s.tasks) (hlanded : s.landed ⊆ u.landed) :
    Turn s { u.put i t' with moment := s.moment + 1 } t' := by
  refine ⟨fun t ht => ?_, rfl, hlanded⟩
  have hmem : t ∈ u.tasks.set i t' := ht
  rw [htasks] at hmem
  exact (List.mem_or_eq_of_mem_set hmem).symm

theorem turn_append {u : State} (htasks : u.tasks = s.tasks ++ [t']) (hlanded : u.landed = s.landed) :
    Turn s { u with moment := s.moment + 1 } t' := by
  refine ⟨fun t ht => ?_, rfl, hlanded ▸ List.Subset.refl _⟩
  have hmem : t ∈ u.tasks := ht
  rw [htasks, List.mem_append, List.mem_singleton] at hmem
  exact hmem.symm

end Turns

section Calls
variable {u : State} {answer : Option String} {started began ended : ℕ}

/-- A state as a step finds it, but for what the lock guards beside the flag. -/
structure Found (s u : State) : Prop where
  tasks : u.tasks = s.tasks
  landed : u.landed = s.landed
  moment : u.moment = s.moment
  broken : u.guarded.broken = s.guarded.broken

theorem Found.turn (hu : Found s u) : Turn s { u.put i t' with moment := s.moment + 1 } t' :=
  turn_put hu.tasks (hu.landed ▸ List.Subset.refl _)

theorem Sound.afterPing (h : Sound s) (hu : Found s u) (hstarted : started < s.moment) :
    Sound { u.afterPing ⟨true, .probes⟩ i started with moment := s.moment + 1 } := by
  have hlt : started < s.moment + 1 := Nat.lt_succ_of_lt hstarted
  have hrefuse (err : Option String) :
      Sound { u.put i (.answered started (unavailable err)) with moment := s.moment + 1 } := by
    refine h.quiet hu.turn hlt ?_ ?_ ?_ ?_ hu.broken <;> intros <;> simp_all [unavailable, Task.failure]
  unfold State.afterPing
  split
  · exact hrefuse _
  split
  · split
    · refine h.quiet hu.turn ⟨hlt, ?_⟩ ?_ ?_ ?_ ?_ hu.broken
      · rw [hu.moment]
        exact Nat.lt_succ_self _
      all_goals intros
      all_goals simp_all [Task.failure, hu.moment]
    · exact hrefuse _
  · next hbroken =>
    have hopen : s.guarded.broken = false := by
      rw [← hu.broken]
      simpa using hbroken
    refine h.quiet hu.turn hlt ?_ ?_ ?_ ?_ hu.broken <;> intros <;> simp_all [Task.failure]

/-- A failed write under the lock: no call probes, and the flag is set. -/
theorem Sound.recordFailure (h : Sound s) {err : String} (ht : .recording ended (some err) ∈ s.tasks)
    (hfree : s.locked = false) :
    Sound { (s.record (some err)).put i (.counting ended err) with moment := s.moment + 1 } := by
  have hended : ended < s.moment := h.before _ ht
  refine h.turn (turn_put rfl (List.Subset.refl _)) (Nat.lt_succ_of_lt hended) ?_ ?_ ?_ ?_
  · intros
    simp_all
  · intros
    simp_all
  · intro hopen
    cases hopen
  · intro started began hprobe
    have hmem : .probing started began ∈ s.tasks.set i (.counting ended err) := hprobe
    rcases List.mem_or_eq_of_mem_set hmem with hold | hnew
    · have hnone : ∀ t ∈ s.tasks, t.locks = false := by simpa [State.locked] using hfree
      exact absurd (hnone _ hold) (by simp [Task.locks])
    · cases hnew

/-- A success under the lock clears the flag: the guard is what makes that right. -/
theorem Sound.recordSuccess (h : Sound s) (ht : .recording ended none ∈ s.tasks)
    (hlanded : ∀ e, s.Failed e → s.LandedAfter e) :
    Sound { (s.record none).put i (.wrote ended s.moment none) with moment := s.moment + 1 } := by
  have hended : ended < s.moment := h.before _ ht
  have hturn : Turn s { (s.record none).put i (.wrote ended s.moment none) with moment := s.moment + 1 }
      (.wrote ended s.moment none) := turn_put rfl (List.Subset.refl _)
  have hfailed (e : ℕ) (he : State.Failed _ e) : s.Failed e := (hturn.failed he).elim (by rintro ⟨⟩) id
  refine h.turn hturn ⟨Nat.lt_succ_of_lt hended, Nat.lt_succ_self _⟩ ?_ ?_ ?_ ?_
  · rintro _ _ _ ⟨⟩
    rfl
  · rintro _ ⟨⟩
  · exact fun _ e he => hlanded e (hfailed e he)
  · intro started began hprobe e he
    rcases hturn.tasks _ hprobe with hnew | hold
    · cases hnew
    · exact h.probing started began hold e (hfailed e he)

/-- What a probe answers: the failures recorded so far had ended before it began. -/
theorem Sound.probed (h : Sound s) (ht : .probing started began ∈ s.tasks) {err : Option String}
    (herr : err = none → answer = none) :
    Sound { (s.probed began answer).put i (.answered started err) with moment := s.moment + 1 } := by
  have hbroken : (s.probed began answer).guarded.broken = decide (answer ≠ none) := rfl
  have htasks : (s.probed began answer).tasks = s.tasks := by
    unfold State.probed State.noteLanded
    split <;> rfl
  have hlanded : (s.probed began answer).landed = (s.noteLanded began answer).landed := rfl
  have hsub : s.landed ⊆ (s.probed began answer).landed := by
    rw [hlanded]
    unfold State.noteLanded
    split
    · exact List.subset_cons_self _ _
    · exact List.Subset.refl _
  have hturn : Turn s { (s.probed began answer).put i (.answered started err) with
      moment := s.moment + 1 } (.answered started err) := turn_put htasks hsub
  have hfailed (e : ℕ) (he : State.Failed _ e) : s.Failed e := (hturn.failed he).elim (by rintro ⟨⟩) id
  refine h.turn hturn (Nat.lt_succ_of_lt (h.before _ ht).1) ?_ ?_ ?_ ?_
  · rintro _ _ _ ⟨⟩
  · rintro _ hnone
    obtain ⟨-, rfl⟩ := Task.answered.inj hnone
    show (s.probed began answer).guarded.broken = false
    rw [hbroken, herr rfl]
    rfl
  · intro hopen e he
    have hnone : answer = none := by
      have hopen' : (s.probed began answer).guarded.broken = false := hopen
      simpa [hbroken] using hopen'
    refine ⟨began, ?_, h.probing started began ht e (hfailed e he)⟩
    show began ∈ (s.probed began answer).landed
    rw [hlanded, hnone]
    simp [State.noteLanded]
  · intro started' began' hprobe e he
    rcases hturn.tasks _ hprobe with hnew | hold
    · cases hnew
    · exact h.probing started' began' hold e (hfailed e he)

end Calls

section Runs
variable {answer : Option String}

theorem Sound.run (h : Sound s) (hguard : RecordsInOrder s (.run i answer)) :
    Sound (step ⟨true, .probes⟩ s (.run i answer)) := by
  have hsame : Sound { s with moment := s.moment + 1 } := by
    refine ⟨fun t ht => (h.before t ht).mono (Nat.le_succ _), h.closed, h.probing, h.answers⟩
  show Sound { s.run ⟨true, .probes⟩ i answer with moment := s.moment + 1 }
  unfold State.run
  split
  · next began hi =>
    have hlt : began < s.moment := h.before _ (List.mem_of_getElem? hi)
    have hturn : Turn s { (s.noteLanded began answer).put i (.recording s.moment answer) with
        moment := s.moment + 1 } (.recording s.moment answer) := by
      unfold State.noteLanded
      split
      · exact turn_put rfl (List.subset_cons_self _ _)
      · exact turn_put rfl (List.Subset.refl _)
    refine h.quiet hturn (Nat.lt_succ_self _) ?_ ?_ ?_ ?_ ?_
    · rintro _ _ _ ⟨⟩
    · rintro _ ⟨⟩
    · rintro _ ⟨⟩
    · rintro _ _ ⟨⟩
    · show (s.noteLanded began answer).guarded.broken = _
      unfold State.noteLanded
      split <;> rfl
  · next ended err hi =>
    have hmem := List.mem_of_getElem? hi
    split
    · exact hsame
    · next hfree =>
      have hfree : s.locked = false := by simpa using hfree
      split
      · exact h.recordSuccess hmem (hguard i answer ended rfl hi hfree)
      · exact h.recordFailure hmem hfree
  · next ended err hi =>
    have hmem := List.mem_of_getElem? hi
    have hlt : ended < s.moment := h.before _ hmem
    refine h.quiet (turn_put rfl (List.Subset.refl _)) ⟨Nat.lt_succ_of_lt hlt, Nat.lt_succ_self _⟩
      ?_ ?_ ?_ ?_ rfl
    · rintro _ _ _ ⟨⟩
      rfl
    · rintro _ ⟨⟩
    · exact fun e he => ⟨_, hmem, he⟩
    · rintro _ _ ⟨⟩
  · next started hi =>
    have hlt : started < s.moment := h.before _ (List.mem_of_getElem? hi)
    split
    · next hoff => simp at hoff
    split
    · exact hsame
    split
    · refine h.quiet (turn_put rfl (List.Subset.refl _)) (Nat.lt_succ_of_lt hlt) ?_ ?_ ?_ ?_ rfl
      · rintro _ _ _ ⟨⟩
      · rintro _ ⟨⟩
      · rintro _ ⟨⟩
      · rintro _ _ ⟨⟩
    · exact h.afterPing ⟨rfl, rfl, rfl, rfl⟩ hlt
  · next started hi =>
    exact h.afterPing ⟨rfl, rfl, rfl, rfl⟩ (h.before _ (List.mem_of_getElem? hi))
  · next started began hi =>
    have hmem := List.mem_of_getElem? hi
    split
    · exact h.probed hmem (by simp [unavailable])
    · next hopen => exact h.probed hmem fun _ => by simpa [State.probed] using hopen
  · exact hsame
  · exact hsame
  · exact hsame

theorem Sound.step (h : Sound s) (hguard : RecordsInOrder s a) :
    Sound (step ⟨true, .probes⟩ s a) := by
  cases a with
  | clock elapsed =>
    exact ⟨fun t ht => (h.before t ht).mono (Nat.le_succ _), h.closed, h.probing, h.answers⟩
  | write =>
    refine h.quiet (turn_append rfl rfl) (Nat.lt_succ_self _) ?_ ?_ ?_ ?_ rfl
    · rintro _ _ _ ⟨⟩
    · rintro _ ⟨⟩
    · rintro _ ⟨⟩
    · rintro _ _ ⟨⟩
  | ready =>
    refine h.quiet (turn_append rfl rfl) (Nat.lt_succ_self _) ?_ ?_ ?_ ?_ rfl
    · rintro _ _ _ ⟨⟩
    · rintro _ ⟨⟩
    · rintro _ ⟨⟩
    · rintro _ _ ⟨⟩
  | run i answer => exact h.run hguard

theorem sound_start (now : ℤ) : Sound (State.start now) where
  before := by simp [State.start]
  closed := by simp [State.Failed, State.start]
  probing := by simp [State.start]
  answers := by simp [State.StaysClosed, State.start]

/-- Until a write or a probe has landed after a failed write, no later check lets an action run. -/
theorem ready_stays_closed (now : ℤ) (as : List Step)
    (h : Along (step ⟨true, .probes⟩) RecordsInOrder (State.start now) as) :
    (exec (step ⟨true, .probes⟩) (State.start now) as).StaysClosed :=
  (exec_invariant (fun _ _ => Sound.step) (sound_start now) h).answers

/-- A write that fails, is recorded and returns; a check, a probe that succeeds, and an answer. -/
def repairedRun : List Step :=
  [.write, .run 0 (some "disk full"), .run 0 none, .run 0 none, .ready, .run 1 none, .run 1 none,
    .run 1 none]

theorem ready_stays_closed_probed :
    (exec (step ⟨true, .probes⟩) (State.start 0) repairedRun).StaysClosed ∧
      .answered 4 none ∈ (exec (step ⟨true, .probes⟩) (State.start 0) repairedRun).tasks := by
  refine ⟨ready_stays_closed 0 repairedRun ?_, by decide⟩
  refine ⟨?_, ?_, ?_, ?_, ?_, ?_, ?_, ?_, trivial⟩ <;> rintro i answer ended ha hi <;>
    cases ha <;> cases hi

/-- The write of call 0 lands, that of call 1 fails later and is recorded first: recording the
older success opens the gate. -/
def lateRun : List Step :=
  [.write, .run 0 none, .write, .run 1 (some "disk full"), .run 1 none, .run 1 none, .run 0 none,
    .ready, .run 2 none, .run 2 none]

theorem older_success_opens :
    ¬(exec (step ⟨true, .probes⟩) (State.start 0) lateRun).StaysClosed := by
  intro h
  have hlanded := h 3 5 "disk full" 7 (by decide) (by decide) (by decide)
  revert hlanded
  have hlog : (exec (step ⟨true, .probes⟩) (State.start 0) lateRun).landed = [0] := by decide
  unfold State.LandedAfter
  rw [hlog]
  simp

end Runs

end Kubeast.AuditGate
