import Kubeast.Foundation.Sorted
import Kubeast.Foundation.Table
import Kubeast.Foundation.Transition

/-! The rows of the alert inbox (`record` in `ai-service/app/services/investigation/inbox.py`).
`record` selects the row of its alert, decides, and writes with the commit: a new row, or the
columns the session changed, with the values it worked out from the row as it was read. -/
namespace Kubeast.Inbox

inductive State
  | firing
  | resolved
deriving DecidableEq

abbrev Labels := List (String × String)

/-- What `record` is called with. -/
structure Alert where
  cluster : String
  fingerprint : String
  firing : Bool
  startsAt : Option ℤ
  endsAt : Option ℤ
  labels : Labels
  annotations : Labels
  now : ℤ
deriving DecidableEq

/-- `AlertInboxItem`. -/
structure Item where
  cluster : String
  fingerprint : String
  startsAt : ℤ
  labels : Labels
  annotations : Labels
  state : State
  resolvedAt : Option ℤ
  firstReceivedAt : ℤ
  lastReceivedAt : ℤ
  receivedCount : ℕ
deriving DecidableEq

abbrev Key := String × String × ℤ

/-- The columns of the constraint `alert_inbox_alert`. -/
def Item.alert (r : Item) : Key := (r.cluster, r.fingerprint, r.startsAt)

abbrev Rows := Table Item.alert

/-- `_row`: a message without `startsAt` is about the alert's newest row. -/
def rowOf (db : Rows) (cluster fingerprint : String) : Option ℤ → Option Item
  | some startsAt => db.get (cluster, fingerprint, startsAt)
  | none =>
    Sorted.newest Item.startsAt
      (db.select fun r => r.cluster = cluster && r.fingerprint = fingerprint)

inductive Outcome
  | new
  | repeated
  | resolved
deriving DecidableEq

/-- The alert is counted on a row that was found. -/
def Alert.countsOn (a : Alert) (r : Item) : Bool :=
  a.startsAt.isSome || r.state = .firing || !a.firing

/-- The row as the session holds it after counting the alert, and the answer. -/
def Alert.countOn (a : Alert) (r : Item) : Item × Outcome :=
  let counted := { r with
    receivedCount := r.receivedCount + 1
    lastReceivedAt := a.now
    labels := a.labels
    annotations := a.annotations }
  if a.firing = false ∧ r.state = .firing then
    ({ counted with state := .resolved, resolvedAt := some (a.endsAt.getD a.now) }, .resolved)
  else (counted, .repeated)

/-- The row of an alert that has none. -/
def Alert.item (a : Alert) : Item where
  cluster := a.cluster
  fingerprint := a.fingerprint
  startsAt := a.startsAt.getD a.now
  labels := a.labels
  annotations := a.annotations
  state := if a.firing then .firing else .resolved
  resolvedAt := if a.firing then none else some (a.endsAt.getD a.now)
  firstReceivedAt := a.now
  lastReceivedAt := a.now
  receivedCount := 1

/-- What an UPDATE leaves in a column: only a changed one is written. -/
def written {α : Type*} [DecidableEq α] (loaded held stored : α) : α :=
  if held = loaded then stored else held

/-- The UPDATE of a row that was `loaded` and is `held` by the session, on the row as `stored`. -/
def flush (loaded held stored : Item) : Item :=
  { stored with
    labels := written loaded.labels held.labels stored.labels
    annotations := written loaded.annotations held.annotations stored.annotations
    state := written loaded.state held.state stored.state
    resolvedAt := written loaded.resolvedAt held.resolvedAt stored.resolvedAt
    lastReceivedAt := written loaded.lastReceivedAt held.lastReceivedAt stored.lastReceivedAt
    receivedCount := written loaded.receivedCount held.receivedCount stored.receivedCount }

@[simp] theorem alert_flush (loaded held stored : Item) :
    (flush loaded held stored).alert = stored.alert := rfl

/-- Where a call stands, with the times it went round before. -/
inductive Phase
  | started (attempt : ℕ)
  | selected (attempt : ℕ) (found : Option Item)
deriving DecidableEq

/-- A call that returned, or raised, and whether its insert stored the row. -/
structure Handled where
  alert : Alert
  answer : Option Outcome
  created : Bool
deriving DecidableEq

structure World where
  db : Rows
  pending : List (Alert × Phase)
  handled : List Handled
deriving DecidableEq

def World.start (db : Rows) : World := ⟨db, [], []⟩

inductive Step
  | call (a : Alert)
  | select (i : ℕ)
  | commit (i : ℕ)
deriving DecidableEq

namespace World

def select (s : World) (i : ℕ) : World :=
  match s.pending[i]? with
  | some (a, .started attempt) =>
    let found := rowOf s.db a.cluster a.fingerprint a.startsAt
    { s with pending := s.pending.set i (a, .selected attempt found) }
  | _ => s

def answer (s : World) (i : ℕ) (db : Rows) (h : Handled) : World :=
  { db, pending := s.pending.eraseIdx i, handled := s.handled ++ [h] }

def commit (s : World) (i : ℕ) : World :=
  match s.pending[i]? with
  | some (a, .selected attempt found) =>
    match found.filter a.countsOn with
    | some r =>
      let db := s.db.update (fun x => x.alert = r.alert) (flush r (a.countOn r).1) (alert_flush _ _)
      s.answer i db ⟨a, some (a.countOn r).2, false⟩
    | none =>
      if h : s.db.get a.item.alert = none then
        s.answer i (s.db.insert a.item h) ⟨a, some (if a.firing then .new else .resolved), true⟩
      else if attempt = 0 then { s with pending := s.pending.set i (a, .started 1) }
      else s.answer i s.db ⟨a, none, false⟩
  | _ => s

end World

def step (s : World) : Step → World
  | .call a => { s with pending := s.pending ++ [(a, .started 0)] }
  | .select i => s.select i
  | .commit i => s.commit i

end Kubeast.Inbox
