import Kubeast.Inbox.Record

/-! The queue of alert investigations: `ai-service/app/services/investigation/store.py` and the
worker of `runner.py`. A press on "Investigate now" holds the alert's inbox row from its first
statement to its commit; a worker holds the row it is about to claim. -/
namespace Kubeast.Investigations
open Inbox

inductive Status
  | queued
  | running
  | done
  | failed
  | skipped
deriving DecidableEq

/-- `BUSY_STATUSES`. -/
def busyStatuses : List Status := [.queued, .running, .done]

/-- `AlertInvestigation`. -/
structure Investigation where
  id : String
  cluster : String
  fingerprint : String
  labels : Labels
  annotations : Labels
  status : Status
  skipReason : String
  error : String
  startsAt : Option ℤ
  receivedAt : ℤ
  lastSeenAt : ℤ
  startedAt : Option ℤ
  finishedAt : Option ℤ
  requestedBy : String
deriving DecidableEq

def Investigation.busy (r : Investigation) : Bool := busyStatuses.contains r.status

abbrev Rows := Table Investigation.id

/-- The rows `queue_requested` takes for those of the firing. -/
def ofFiring (item : Item) (r : Investigation) : Bool :=
  r.cluster = item.cluster && r.fingerprint = item.fingerprint &&
    (item.startsAt ≤ r.receivedAt || item.startsAt ≤ r.lastSeenAt)

def current (item : Item) (rows : Rows) : Option Investigation :=
  Sorted.newest Investigation.receivedAt (rows.select (ofFiring item))

/-- The row a press adds. -/
def requested (item : Item) (id : String) (now : ℤ) (requestedBy : String) : Investigation where
  id := id
  cluster := item.cluster
  fingerprint := item.fingerprint
  labels := item.labels
  annotations := item.annotations
  status := .queued
  skipReason := ""
  error := ""
  startsAt := some item.startsAt
  receivedAt := now
  lastSeenAt := now
  startedAt := none
  finishedAt := none
  requestedBy := String.ofList (requestedBy.toList.take 320)

/-- What `run_one` ends with. -/
inductive Ending
  | done
  | failed
deriving DecidableEq

def Ending.status : Ending → Status
  | .done => .done
  | .failed => .failed

namespace Investigation

def claimed (now : ℤ) (r : Investigation) : Investigation :=
  { r with status := .running, startedAt := some now }

def finished (ending : Ending) (error : String) (now : ℤ) (r : Investigation) : Investigation :=
  { r with status := ending.status, error, finishedAt := some now }

def skipped (reason : String) (r : Investigation) : Investigation :=
  { r with status := .skipped, skipReason := reason }

def interrupted (now : ℤ) (r : Investigation) : Investigation :=
  { r with
    status := .failed
    error := "interrupted: the investigation outlived its time limit (ai-service stopped?)"
    finishedAt := some now }

@[simp] theorem id_claimed (now : ℤ) (r : Investigation) : (r.claimed now).id = r.id := rfl

@[simp] theorem id_finished (ending : Ending) (error : String) (now : ℤ) (r : Investigation) :
    (r.finished ending error now).id = r.id := rfl

@[simp] theorem id_skipped (reason : String) (r : Investigation) : (r.skipped reason).id = r.id := rfl

@[simp] theorem id_interrupted (now : ℤ) (r : Investigation) : (r.interrupted now).id = r.id := rfl

end Investigation

/-- A press: its clock is read before it waits for the inbox row. -/
inductive Press
  | pressed (now : ℤ) (requestedBy : String)
  | locked (now : ℤ) (requestedBy : String)
  | flushed (row : Investigation)
  | answered (id : Option String) (started : Bool)
deriving DecidableEq

/-- The press holds the inbox row. -/
def Press.holds : Press → Bool
  | .locked .. | .flushed _ => true
  | .pressed .. | .answered .. => false

/-- A worker of some replica. -/
inductive Worker
  | idle
  | claiming (id : String)
  | running (row : Investigation)
deriving DecidableEq

/-- The rows as committed, the presses, the workers, and the ids of the rows workers were given. -/
structure World where
  rows : Rows
  presses : List Press
  workers : List Worker
  given : List String
deriving DecidableEq

def World.start (rows : Rows) (replicas : ℕ) : World :=
  ⟨rows, [], List.replicate replicas .idle, []⟩

inductive Step
  | press (now : ℤ) (requestedBy : String)
  | lock (i : ℕ)
  | look (i : ℕ) (id : String)
  | settle (i : ℕ) (stored : Bool)
  | lockNext (w : ℕ) (id : String)
  | claim (w : ℕ) (now : ℤ)
  | finish (w : ℕ) (ending : Ending) (error : String) (now : ℤ)
  | skip (w : ℕ) (reason : String)
  | failStaleRunning (startedBefore now : ℤ)
deriving DecidableEq

namespace World

def lock (s : World) (i : ℕ) : World :=
  match s.presses[i]? with
  | some (.pressed now requestedBy) =>
    if s.presses.any Press.holds then s
    else { s with presses := s.presses.set i (.locked now requestedBy) }
  | _ => s

/-- The newest row of the firing is read, and unless it is busy one with a new id is flushed. -/
def look (item : Item) (s : World) (i : ℕ) (id : String) : World :=
  match s.presses[i]? with
  | some (.locked now requestedBy) =>
    match (current item s.rows).filter Investigation.busy with
    | some r => { s with presses := s.presses.set i (.answered (some r.id) false) }
    | none =>
      if s.rows.get id = none then
        { s with presses := s.presses.set i (.flushed (requested item id now requestedBy)) }
      else s
  | _ => s

/-- `record` answered: the commit, or the rollback. -/
def settle (s : World) (i : ℕ) (stored : Bool) : World :=
  match s.presses[i]? with
  | some (.flushed row) =>
    if stored then
      { s with
        rows := s.rows.insertNew row
        presses := s.presses.set i (.answered (some row.id) true) }
    else { s with presses := s.presses.set i (.answered none false) }
  | _ => s

def isLocked (s : World) (id : String) : Bool := s.workers.any (· = .claiming id)

/-- `FOR UPDATE SKIP LOCKED` takes an oldest queued row no other worker holds. -/
def lockNext (s : World) (w : ℕ) (id : String) : World :=
  match s.workers[w]?, s.rows.get id with
  | some .idle, some r =>
    if r.status = .queued ∧ s.isLocked id = false ∧
        ∀ x ∈ s.rows.rows, x.status = .queued → s.isLocked x.id = false → r.receivedAt ≤ x.receivedAt then
      { s with workers := s.workers.set w (.claiming id) }
    else s
  | _, _ => s

def claim (s : World) (w : ℕ) (now : ℤ) : World :=
  match s.workers[w]? with
  | some (.claiming id) =>
    match s.rows.get id with
    | some r =>
      { s with
        rows := s.rows.update (fun x => x.id = id) (Investigation.claimed now)
          (Investigation.id_claimed now)
        workers := s.workers.set w (.running (r.claimed now))
        given := s.given ++ [id] }
    | none => { s with workers := s.workers.set w .idle }
  | _ => s

/-- The end of a run is written by the row's id. -/
def finish (s : World) (w : ℕ) (ending : Ending) (error : String) (now : ℤ) : World :=
  match s.workers[w]? with
  | some (.running row) =>
    { s with
      rows := s.rows.update (fun x => x.id = row.id) (Investigation.finished ending error now)
        (Investigation.id_finished ending error now)
      workers := s.workers.set w .idle }
  | _ => s

def skip (s : World) (w : ℕ) (reason : String) : World :=
  match s.workers[w]? with
  | some (.running row) =>
    { s with
      rows := s.rows.update (fun x => x.id = row.id) (Investigation.skipped reason)
        (Investigation.id_skipped reason)
      workers := s.workers.set w .idle }
  | _ => s

def failStaleRunning (s : World) (startedBefore now : ℤ) : World :=
  { s with
    rows := s.rows.update (fun x => x.status = .running && x.startedAt.any (· < startedBefore))
      (Investigation.interrupted now) (Investigation.id_interrupted now) }

end World

def step (item : Item) (s : World) : Step → World
  | .press now requestedBy => { s with presses := s.presses ++ [.pressed now requestedBy] }
  | .lock i => s.lock i
  | .look i id => s.look item i id
  | .settle i stored => s.settle i stored
  | .lockNext w id => s.lockNext w id
  | .claim w now => s.claim w now
  | .finish w ending error now => s.finish w ending error now
  | .skip w reason => s.skip w reason
  | .failStaleRunning startedBefore now => s.failStaleRunning startedBefore now

end Kubeast.Investigations
