import Kubeast.Permissions.Matching
import Kubeast.Foundation.Sorted
import Mathlib.Data.Int.Notation
import Mathlib.Logic.Function.Basic

/-! Audit sinks as configured (`auth-service-go/internal/auditsink/config.go`, `filter.go`). -/
namespace Kubeast.AuditSink
open Permissions

/-- The columns of an audit row the loop and the filter read. Times are in microseconds. -/
structure Event where
  id : ℤ
  time : ℤ
  action : String
  result : String
deriving DecidableEq

structure Filter where
  actions : List String
  results : List String
deriving DecidableEq

/-- `Match`: a pattern for the action and the result, an empty list matching everything. -/
def Filter.matchEvent (f : Filter) (e : Event) : Bool :=
  if 0 < f.actions.length ∧ matchAny f.actions e.action = false then false
  else if 0 < f.results.length then f.results.contains e.result
  else true

def Filter.apply (f : Filter) (events : List Event) : List Event :=
  if f.actions.length = 0 ∧ f.results.length = 0 then events else events.filter f.matchEvent

inductive SinkType
  | s3
  | webhook
  | email
  | file
deriving DecidableEq

inductive StartFrom
  | beginning
  | latest
deriving DecidableEq

structure SinkConfig where
  name : String
  type : SinkType
  startFrom : Option StartFrom
  maxEvents : ℤ
  maxWaitSeconds : ℤ
  filter : Filter
deriving DecidableEq

/-- `if n <= 0 { n = d }`. -/
def orDefault (n d : ℤ) : ℤ := if n ≤ 0 then d else n

/-- The batch size and wait, with the defaults of the type where the config leaves zero. -/
def SinkConfig.batchLimits (s : SinkConfig) : ℤ × ℤ :=
  match s.type with
  | .s3 => (orDefault s.maxEvents 500, orDefault s.maxWaitSeconds 60)
  | .file => (orDefault s.maxEvents 500, orDefault s.maxWaitSeconds 5)
  | .webhook | .email => (orDefault s.maxEvents 20, orDefault s.maxWaitSeconds 5)

/-- Archives copy the whole history by default; notification sinks start from now. -/
def SinkConfig.startAtBeginning (s : SinkConfig) : Bool :=
  match s.startFrom with
  | some from_ => from_ == .beginning
  | none => s.type == .s3 || s.type == .file

theorem Filter.apply_eq (f : Filter) (events : List Event) :
    f.apply events = events.filter f.matchEvent := by
  unfold apply
  split
  · next h =>
    have hall : ∀ e ∈ events, f.matchEvent e = true := by
      intro e _
      simp [matchEvent, h.1, h.2]
    exact (List.filter_eq_self.mpr hall).symm
  · rfl

/-- A chunk holds at least one event, and a wait is not empty. -/
theorem SinkConfig.batchLimits_pos (s : SinkConfig) : 0 < s.batchLimits.1 ∧ 0 < s.batchLimits.2 := by
  have hpos : ∀ n d : ℤ, 0 < d → 0 < orDefault n d := by
    intro n d hd
    unfold orDefault
    split <;> omega
  unfold batchLimits
  cases s.type <;> exact ⟨hpos _ _ (by decide), hpos _ _ (by decide)⟩

end Kubeast.AuditSink

/-! The loop that copies audit rows to one sink (`dispatcher.go`, `postgres.go`). Every sink
has a loop and a cursor row of its own, so the model is of one of them. -/
namespace Kubeast.AuditSink
open Sorted

def readPage : ℕ := 500

/-- Five seconds. -/
def settleDelay : ℤ := 5000000

/-- A row of `auth_audit_logs`; others see it once its transaction has committed. -/
structure LogRow where
  event : Event
  committed : Bool
deriving DecidableEq

def LogRow.id (r : LogRow) : ℤ := r.event.id

def LogRow.setCommitted (r : LogRow) : LogRow := { r with committed := true }

theorem LogRow.id_setCommitted (r : LogRow) : r.setCommitted.id = r.id := rfl

/-- The sink's row of `audit_sink_cursors`. `start` is what it was created with, kept here for
the statements about it. -/
structure Cursor where
  start : ℤ
  lastId : ℤ
  failures : ℕ
deriving DecidableEq

/-- The database: its clock, the sequence of audit ids, the audit rows and the cursor. -/
structure Store where
  now : ℤ
  nextId : ℤ
  log : Table LogRow.id
  cursor : Option Cursor
  ids : ∀ r ∈ log.rows, 0 < r.id ∧ r.id < nextId
  next_pos : 0 < nextId

namespace Store

def empty : Store := ⟨0, 1, Table.empty, none, by simp [Table.empty], by decide⟩

theorem get_nextId (st : Store) : st.log.get st.nextId = none :=
  Table.get_eq_none.mpr fun r hr => (st.ids r hr).2.ne

/-- `INSERT` inside a transaction that began at `time`: the id is drawn now. -/
def insertRow (st : Store) (time : ℤ) (action result : String) : Store :=
  { st with
    nextId := st.nextId + 1
    log := st.log.insert ⟨⟨st.nextId, time, action, result⟩, false⟩ st.get_nextId
    ids := by
      intro r hr
      have hpos := st.next_pos
      rcases Table.mem_insert.mp hr with rfl | hr
      · show 0 < st.nextId ∧ st.nextId < st.nextId + 1
        omega
      · have := st.ids r hr
        omega
    next_pos := by
      have := st.next_pos
      omega }

/-- The transaction of a row commits. -/
def commit (st : Store) (id : ℤ) : Store :=
  { st with
    log := st.log.update (fun r => decide (r.id = id)) LogRow.setCommitted LogRow.id_setCommitted
    ids := by
      intro r hr
      obtain ⟨x, hx, rfl⟩ := (Table.mem_update _).mp hr
      have := st.ids x hx
      split <;> exact this }

/-- What a query sees. -/
def visible (st : Store) : List Event := (st.log.select LogRow.committed).map LogRow.event

def maxID (st : Store) : ℤ := (st.visible.map Event.id).max?.getD 0

def ensureCursor (st : Store) (start : ℤ) : Store :=
  { st with cursor := some (st.cursor.getD ⟨start, start, 0⟩) }

/-- Up to `limit` rows behind `after` that are older than `settle`, by id. -/
def after (st : Store) (after : ℤ) (limit : ℕ) (settle : ℤ) : List Event :=
  (sortBy Event.id (st.visible.filter fun e =>
    decide (after < e.id ∧ e.time < st.now - settle))).take limit

/-- The cursor only moves forward. -/
def advance (st : Store) (id : ℤ) : Store :=
  { st with
    cursor := st.cursor.map fun k => if k.lastId < id then { k with lastId := id, failures := 0 } else k }

def fail (st : Store) : Store :=
  { st with cursor := st.cursor.map fun k => { k with failures := k.failures + 1 } }

end Store

/-- The call a replica's `runSink` stands at, with its local variables. -/
inductive Phase
  /-- `runSink` does not run. -/
  | idle
  | maxID
  /-- `EnsureCursor(start)`; `read` when `start` came from a `MaxID` that returned. -/
  | ensureCursor (start : ℤ) (read : Bool)
  | after (cursor : ℤ)
  /-- `Send` of the next chunk of `rest`; the page ends at `last`. -/
  | send (cursor last : ℤ) (rest : List Event)
  | fail (cursor upTo : ℤ)
  /-- `Advance(upTo)` before the chunk that failed. -/
  | advanceTo (cursor upTo : ℤ)
  /-- `Advance(last)` behind the page. -/
  | advance (cursor last : ℤ)
deriving DecidableEq

/-- How a call ends. One that fails may have done its work, or the first of its statements. -/
inductive Outcome
  | ok
  | failed (done : Bool)
deriving DecidableEq

def Outcome.isOk : Outcome → Bool
  | .ok => true
  | .failed _ => false

def Outcome.done : Outcome → Bool
  | .ok => true
  | .failed done => done

/-- A call of the sink's `Send`. -/
structure Delivery where
  events : List Event
  ok : Bool
deriving DecidableEq

/-- The database, where every replica stands, the deliveries so far and the highest audit id
there was when `runSink` was first entered. -/
structure System where
  store : Store
  phase : ℕ → Phase
  sends : List Delivery
  firstMax : Option ℤ

namespace System

def start : System := ⟨Store.empty, fun _ => .idle, [], none⟩

def goto (s : System) (r : ℕ) (p : Phase) : System := { s with phase := Function.update s.phase r p }

end System

/-- The head of the chunk loop. -/
def Phase.nextChunk (cursor last : ℤ) (rest : List Event) : Phase :=
  if rest = [] then .advance cursor last else .send cursor last rest

/-- What `step` does with the page it has read. -/
def Phase.withPage (cfg : SinkConfig) (cursor : ℤ) (rows : List Event) : Phase :=
  match rows.getLast? with
  | none => .after cursor
  | some last => .nextChunk cursor last.id (cfg.filter.apply rows)

/-- The call replica `r` stands at ends. -/
def System.call (cfg : SinkConfig) (s : System) (r : ℕ) (o : Outcome) : System :=
  match s.phase r with
  | .idle => s
  | .maxID => s.goto r (.ensureCursor (if o.isOk then s.store.maxID else 0) o.isOk)
  | .ensureCursor start read =>
      let store := if o.done then s.store.ensureCursor start else s.store
      ({ s with store := store } : System).goto r
        (if o.isOk then .after (store.cursor.elim start Cursor.lastId) else .ensureCursor start read)
  | .after cursor =>
      s.goto r (if o.isOk then .withPage cfg cursor (s.store.after cursor readPage settleDelay)
        else .after cursor)
  | .send cursor last rest =>
      let chunk := rest.take cfg.batchLimits.1.toNat
      ({ s with sends := s.sends ++ [⟨chunk, o.isOk⟩] } : System).goto r
        (if o.isOk then .nextChunk cursor last (rest.drop cfg.batchLimits.1.toNat)
          else .fail cursor (rest.head?.elim cursor fun e => e.id - 1))
  | .fail cursor upTo =>
      ({ s with store := if o.done then s.store.fail else s.store } : System).goto r
        (if cursor < upTo then .advanceTo cursor upTo else .after cursor)
  | .advanceTo cursor upTo =>
      ({ s with store := if o.done then s.store.advance upTo else s.store } : System).goto r
        (.after (if o.isOk then upTo else cursor))
  | .advance cursor last =>
      ({ s with store := if o.done then s.store.advance last else s.store } : System).goto r
        (.after (if o.isOk then last else cursor))

/-- The head of `runSink`. -/
def System.enter (cfg : SinkConfig) (s : System) (r : ℕ) : System :=
  if s.phase r = .idle then
    ({ s with firstMax := some (s.firstMax.getD s.store.maxID) } : System).goto r
      (if cfg.startAtBeginning then .ensureCursor 0 false else .maxID)
  else s

/-- A replica whose lock connection dropped goes on until it notices, so `enter` asks for no
lock: any number of replicas may run the loop at once. `leave` is a return, a restart or a
crash at any call. -/
inductive SinkStep
  | tick (d : ℕ)
  | insertRow (time : ℤ) (action result : String)
  | commit (id : ℤ)
  | enter (r : ℕ)
  | leave (r : ℕ)
  | call (r : ℕ) (o : Outcome)

def sinkStep (cfg : SinkConfig) (s : System) : SinkStep → System
  | .tick d => { s with store := { s.store with now := s.store.now + d } }
  | .insertRow time action result => { s with store := s.store.insertRow time action result }
  | .commit id => { s with store := s.store.commit id }
  | .enter r => s.enter cfg r
  | .leave r => s.goto r .idle
  | .call r o => s.call cfg r o

section Store
variable {st : Store} {e e' : Event} {r : LogRow} {id m c n : ℤ} {limit : ℕ}

namespace Store

theorem mem_visible : e ∈ st.visible ↔ ⟨e, true⟩ ∈ st.log.rows := by
  unfold visible
  rw [List.mem_map]
  constructor
  · rintro ⟨⟨event, committed⟩, hr, rfl⟩
    obtain ⟨hmem, hcommitted⟩ := Table.mem_select.mp hr
    obtain rfl : committed = true := hcommitted
    exact hmem
  · intro h
    exact ⟨_, Table.mem_select.mpr ⟨h, rfl⟩, rfl⟩

theorem mem_log_insertRow {time : ℤ} {action result : String} :
    r ∈ (st.insertRow time action result).log.rows ↔
      r = ⟨⟨st.nextId, time, action, result⟩, false⟩ ∨ r ∈ st.log.rows :=
  Table.mem_insert (h := st.get_nextId)

/-- A commit only flips the flag of its row. -/
theorem mem_log_commit : r ∈ (st.commit id).log.rows ↔
    ∃ x ∈ st.log.rows, x.event = r.event ∧ r.committed = (x.committed || decide (x.id = id)) := by
  refine (Table.mem_update LogRow.id_setCommitted).trans (exists_congr fun x => ?_)
  refine and_congr_right fun _ => ?_
  obtain ⟨event, committed⟩ := r
  by_cases hx : x.id = id
  · simp [hx, LogRow.setCommitted, eq_comm]
  · cases x
    simp [hx, eq_comm]

theorem increasing_after : Increasing Event.id (st.after c limit n) := by
  refine (increasing_sortBy ?_).sublist (List.take_sublist _ _)
  have hids : (st.visible.map Event.id).Nodup := by
    rw [visible, List.map_map]
    exact st.log.nodup.sublist (List.filter_sublist.map _)
  exact hids.sublist (List.filter_sublist.map _)

theorem of_mem_after (h : e ∈ st.after c limit n) :
    ⟨e, true⟩ ∈ st.log.rows ∧ c < e.id ∧ e.time < st.now - n := by
  have hmem := mem_sortBy.mp (List.mem_of_mem_take h)
  obtain ⟨hvisible, hin⟩ := List.mem_filter.mp hmem
  exact ⟨mem_visible.mp hvisible, of_decide_eq_true hin⟩

/-- A page holds every settled row up to its last. -/
theorem mem_after_of_le (hlast : (st.after c limit n).getLast? = some e')
    (he : ⟨e, true⟩ ∈ st.log.rows) (hlow : c < e.id) (hold : e.time < st.now - n)
    (hhigh : e.id ≤ e'.id) : e ∈ st.after c limit n := by
  have hids : (st.visible.map Event.id).Nodup := by
    rw [visible, List.map_map]
    exact st.log.nodup.sublist (List.filter_sublist.map _)
  refine Increasing.mem_take_of_le (increasing_sortBy (hids.sublist (List.filter_sublist.map _)))
    hlast ?_ hhigh
  exact mem_sortBy.mpr (List.mem_filter.mpr ⟨mem_visible.mpr he, decide_eq_true ⟨hlow, hold⟩⟩)

theorem le_maxID (h : ⟨e, true⟩ ∈ st.log.rows) : e.id ≤ st.maxID := by
  have hmem : e.id ∈ st.visible.map Event.id := List.mem_map.mpr ⟨e, mem_visible.mpr h, rfl⟩
  unfold maxID
  cases hmax : (st.visible.map Event.id).max? with
  | none =>
    rw [List.max?_eq_none_iff.mp hmax] at hmem
    cases hmem
  | some x => exact (List.max?_eq_some_iff.mp hmax).2 _ hmem

theorem maxID_cases (st : Store) : st.maxID = 0 ∨ ∃ e, ⟨e, true⟩ ∈ st.log.rows ∧ e.id = st.maxID := by
  unfold maxID
  cases hmax : (st.visible.map Event.id).max? with
  | none => exact Or.inl rfl
  | some x =>
    obtain ⟨e, he, hid⟩ := List.mem_map.mp (List.max?_eq_some_iff.mp hmax).1
    exact Or.inr ⟨e, mem_visible.mp he, hid⟩

theorem maxID_nonneg : 0 ≤ st.maxID := by
  rcases maxID_cases st with h | ⟨e, he, hid⟩
  · rw [h]
  · rw [← hid]
    exact (st.ids _ he).1.le

/-- The highest id does not go down while no row disappears. -/
theorem maxID_mono {st' : Store} (h : ∀ e, ⟨e, true⟩ ∈ st.log.rows → ⟨e, true⟩ ∈ st'.log.rows) :
    st.maxID ≤ st'.maxID := by
  rcases maxID_cases st with hzero | ⟨e, he, hid⟩
  · rw [hzero]
    exact maxID_nonneg
  · rw [← hid]
    exact le_maxID (h e he)

theorem maxID_lt : st.maxID < st.nextId := by
  rcases maxID_cases st with h | ⟨e, he, hid⟩
  · rw [h]
    exact st.next_pos
  · rw [← hid]
    exact (st.ids _ he).2

end Store
end Store
end Kubeast.AuditSink
