import Kubeast.Foundation.Text
import Mathlib.Data.Int.Notation
import Mathlib.Data.List.Sort
import Mathlib.Logic.Function.Basic

/-! The build queue (`ci-controller-go/internal/queue`). The group that a build carries once
it is submitted is computed here where it is used. -/
namespace Kubeast.BuildQueue
open Text

structure Build where
  id : String
  repo : String
  ref : String
  sha : String
  defaultBranch : Bool
  enqueued : ℤ
deriving DecidableEq, Inhabited

/-- The branch of a build, by which the indexes go. -/
def Build.group (b : Build) : String := b.repo ++ "\x00" ++ b.ref

structure Settings where
  maxRunning : ℤ
  maxPerRepo : ℤ
  maxWaiting : ℤ
  keepRunning : Bool
  cancelDefaultBranch : Bool
deriving DecidableEq

def defaultMaxRunning : ℤ := 10
def defaultMaxPerRepo : ℤ := 5
def defaultMaxWaiting : ℤ := 1000

def Settings.withDefaults (s : Settings) : Settings :=
  let maxRunning := if s.maxRunning = 0 then defaultMaxRunning else s.maxRunning
  { s with
    maxRunning := maxRunning
    maxPerRepo := if s.maxPerRepo = 0 then min defaultMaxPerRepo maxRunning else s.maxPerRepo
    maxWaiting := if s.maxWaiting = 0 then defaultMaxWaiting else s.maxWaiting }

def Settings.validate (s : Settings) : Except String Unit :=
  if s.maxRunning < 0 ∨ s.maxPerRepo < 0 ∨ s.maxWaiting < 0 then
    .error "queue settings: negative numbers"
  else if s.withDefaults.maxPerRepo > s.withDefaults.maxRunning then
    .error ("queue settings: maxPerRepo " ++ toString s.withDefaults.maxPerRepo ++
      " is above maxRunning " ++ toString s.withDefaults.maxRunning)
  else .ok ()

structure Decision where
  start : List Build
  cancel : List Build
  replaced : List Build
deriving DecidableEq

def Decision.none : Decision := ⟨[], [], []⟩

/-- `ErrDuplicate` and `ErrFull`. -/
inductive SubmitError
  | duplicate
  | full
deriving DecidableEq

def SubmitError.text : SubmitError → String
  | .duplicate => "queue: this commit is already queued or running"
  | .full => "queue: full"

inductive RestoreError
  | inUse
  | incomplete (id : String)
  | listedTwice (id : String)
deriving DecidableEq

def RestoreError.text (tables : CharTables) : RestoreError → String
  | .inUse => "queue: restore into a queue that is in use"
  | .incomplete id =>
      "queue: restore: build " ++ quote tables id ++ " has no ID, repository or ref"
  | .listedTwice id => "queue: restore: build " ++ id ++ " is listed twice"

/-- The map `running` holds each build under its id; `waiting` has the oldest first. -/
structure Queue where
  settings : Settings
  running : List Build
  runningGroup : String → Option String
  perRepo : String → Option ℤ
  waiting : List Build
  waitingGroup : String → Option String

/-- `New`. -/
def newQueue (s : Settings) : Except String Queue :=
  s.validate.map fun _ => ⟨s.withDefaults, [], fun _ => none, fun _ => none, [], fun _ => none⟩

namespace Queue

/-- `q.running[id]`: the zero build where there is none. -/
def runningBuild (q : Queue) (id : String) : Build :=
  (q.running.find? fun b => b.id == id).getD default

/-- `q.perRepo[repo]`. -/
def repoCount (q : Queue) (repo : String) : ℤ := (q.perRepo repo).getD 0

def release (q : Queue) (id : String) : Queue :=
  let r := q.runningBuild id
  let n := q.repoCount r.repo - 1
  { q with
    running := q.running.filter fun b => b.id != id
    runningGroup := Function.update q.runningGroup r.group none
    perRepo := Function.update q.perRepo r.repo (if n ≤ 0 then none else some n) }

/-- The three indexes of a build that starts to run. -/
def run (q : Queue) (b : Build) : Queue :=
  { q with
    running := (q.running.filter fun r => r.id != b.id) ++ [b]
    runningGroup := Function.update q.runningGroup b.group (some b.id)
    perRepo := Function.update q.perRepo b.repo (some (q.repoCount b.repo + 1)) }

def leaveWaiting (q : Queue) (group : String) : Queue :=
  { q with waitingGroup := Function.update q.waitingGroup group none }

/-- The loop of `fill` over the waiting builds: the queue, what is kept and what is started. -/
def fillFrom (q : Queue) : List Build → Queue × List Build × List Build
  | [] => (q, [], [])
  | w :: ws =>
      if q.running.length ≥ q.settings.maxRunning ∨ q.repoCount w.repo ≥ q.settings.maxPerRepo ∨
          (q.runningGroup w.group).isSome = true then
        let r := fillFrom q ws
        (r.1, w :: r.2.1, r.2.2)
      else
        let r := fillFrom ((q.run w).leaveWaiting w.group) ws
        (r.1, r.2.1, w :: r.2.2)

def fill (q : Queue) : Queue × List Build :=
  if q.running.length ≥ q.settings.maxRunning ∨ q.waiting = [] then (q, [])
  else
    let r := q.fillFrom q.waiting
    ({ r.1 with waiting := r.2.1 }, r.2.2)

/-- `removeAt` for the waiting build `w` at `i`. -/
def removeAt (q : Queue) (i : ℕ) (w : Build) : Queue :=
  { q.leaveWaiting w.group with waiting := q.waiting.eraseIdx i }

def indexOf (q : Queue) (id : String) : Option ℕ := q.waiting.findIdx? fun w => w.id == id

/-- The waiting build of a branch, with its place; an id that waits nowhere is no case, since
the index holds only ids that wait. -/
def waitingOf (q : Queue) (group : String) : Option (ℕ × Build) := do
  let id ← q.waitingGroup group
  let i ← q.indexOf id
  let w ← q.waiting[i]?
  return (i, w)

/-- The running build that a newer one of its branch cancels. -/
def cancels (q : Queue) (group : String) : Option String :=
  (q.runningGroup group).filter fun id =>
    !q.settings.keepRunning &&
      (!(q.runningBuild id).defaultBranch || q.settings.cancelDefaultBranch)

/-- The running build of the branch leaves, unless the settings keep it. -/
def makeWay (q : Queue) (group : String) : Queue × List Build :=
  match q.cancels group with
  | some id => (q.release id, [q.runningBuild id])
  | none => (q, [])

def join (q : Queue) (b : Build) : Queue :=
  { q with
    waiting := q.waiting ++ [b]
    waitingGroup := Function.update q.waitingGroup b.group (some b.id) }

/-- `Submit` from where the build joins the list. -/
def enqueue (q : Queue) (b : Build) (replaced : List Build) : Queue × Decision :=
  let r := (q.join b).makeWay b.group
  (r.1.fill.1, ⟨r.1.fill.2, r.2, replaced⟩)

def submit (q : Queue) (b : Build) : Queue × Except SubmitError Decision :=
  if (q.runningGroup b.group).any (fun id => (q.runningBuild id).sha == b.sha) = true then
    (q, .error .duplicate)
  else match q.waitingOf b.group with
    | some (i, w) =>
        if w.sha = b.sha then (q, .error .duplicate)
        else
          let r := (q.removeAt i w).enqueue b [w]
          (r.1, .ok r.2)
    | none =>
        if q.waiting.length ≥ q.settings.maxWaiting then (q, .error .full)
        else
          let r := q.enqueue b []
          (r.1, .ok r.2)

def finish (q : Queue) (id : String) : Queue × Decision :=
  let q := if (q.running.find? fun b => b.id == id).isSome = true then q.release id else q
  (q.fill.1, ⟨q.fill.2, [], []⟩)

def remove (q : Queue) (id : String) : Queue × Bool :=
  match q.indexOf id with
  | none => (q, false)
  | some i =>
      match q.waiting[i]? with
      | none => (q, false)
      | some w => (q.removeAt i w, true)

/-- Builds by arrival, then id. -/
def less (a b : Build) : Bool :=
  a.enqueued < b.enqueued || (a.enqueued == b.enqueued && a.id < b.id)

/-- One running build found after a restart: it takes the place of an older one of its branch. -/
def restoreOne (acc : Queue × List Build) (b : Build) : Queue × List Build :=
  match acc.1.runningGroup b.group with
  | some id => ((acc.1.release id).run b, acc.2 ++ [acc.1.runningBuild id])
  | none => (acc.1.run b, acc.2)

/-- The checks of `Restore` on its list, with the ids seen so far. -/
def checkRestored : List String → List Build → Except RestoreError Unit
  | _, [] => .ok ()
  | seen, b :: bs =>
      if b.id = "" ∨ b.repo = "" ∨ b.ref = "" then .error (.incomplete b.id)
      else if b.id ∈ seen then .error (.listedTwice b.id)
      else checkRestored (b.id :: seen) bs

def restore (q : Queue) (running : List Build) : Queue × Except RestoreError Decision :=
  if q.running.length > 0 ∨ q.waiting.length > 0 then (q, .error .inUse)
  else match checkRestored [] running with
    | .error e => (q, .error e)
    | .ok () =>
        let sorted := running.insertionSort fun a b => !less b a
        let r := sorted.foldl restoreOne (q, [])
        (r.1, .ok ⟨[], r.2, []⟩)

end Queue

inductive Action
  | restore (running : List Build)
  | submit (b : Build)
  | finish (id : String)
  | remove (id : String)

/-- One call, with what it decides; a refused call decides nothing. -/
def Queue.act (q : Queue) : Action → Queue × Decision
  | .restore running => ((q.restore running).1, (q.restore running).2.toOption.getD .none)
  | .submit b => ((q.submit b).1, (q.submit b).2.toOption.getD .none)
  | .finish id => q.finish id
  | .remove id => ((q.remove id).1, .none)

def step (q : Queue) (a : Action) : Queue := (q.act a).1

end Kubeast.BuildQueue
