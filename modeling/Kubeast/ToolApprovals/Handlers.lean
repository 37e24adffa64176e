import Kubeast.Foundation.Table
import Kubeast.Foundation.Transition
import Mathlib.Data.Int.Notation

/-! Approvals of AI writes (`ai-service/app/database.py` and `api.py`): the requests on
`tool_approvals` as steps between their database statements, in any order and by any clock. -/
namespace Kubeast.ToolApprovals

inductive Status
  | pending | approved | executed | failed | rejected | expired
deriving DecidableEq

def Status.text : Status → String
  | .pending => "pending"
  | .approved => "approved"
  | .executed => "executed"
  | .failed => "failed"
  | .rejected => "rejected"
  | .expired => "expired"

/-- A row of `tool_approvals`. -/
structure ToolApproval (A : Type*) where
  id : String
  sessionId : String
  userId : String
  cluster : String
  tool : String
  args : A
  status : Status
  result : Option String
  expiresAt : ℤ
  decidedAt : Option ℤ

/-- The fields an `UPDATE` sets; those absent stay. -/
structure Fields (A : Type*) where
  status : Status
  decidedAt : ℤ
  args : Option A
  result : Option String

/-- What an approval token binds a run to. -/
structure Token (A : Type*) where
  approvalId : String
  userId : String
  cluster : String
  tool : String
  args : A

/-- A call of a write tool at tool-server. -/
structure Run (A : Type*) where
  approvalId : String
  cluster : String
  tool : String
  args : A
  token : Token A

/-- The arguments of `create_tool_approval`. -/
structure NewApproval (A : Type*) where
  sessionId : String
  userId : String
  cluster : String
  tool : String
  args : A
  ttlSeconds : ℤ

inductive Response (A : Type*)
  | approval (a : ToolApproval A)
  | approvals (as : List (ToolApproval A))
  | refused (code : ℕ) (detail : String)
  | raised

/-- What a request that loads one approval is about to do with it. -/
inductive Intent
  | get | reject | approve

/-- Where a request stands, named after what it does next. -/
inductive Task (A : Type*)
  | readWaiting (r : NewApproval A)
  | expireWaiting (r : NewApproval A) (now : ℤ) (waiting : List (ToolApproval A))
  | insert (r : NewApproval A)
  | list (sessionId userId : String)
  | load (k : Intent) (id userId : String)
  | expireIfDue (k : Intent) (a : ToolApproval A)
  | expire (k : Intent) (a : ToolApproval A)
  | reload (k : Intent) (id : String)
  | requireAuditToReject (a : ToolApproval A)
  | reject (a : ToolApproval A)
  | sign (a : ToolApproval A)
  | requireAudit (a : ToolApproval A) (token : Token A)
  | approve (a : ToolApproval A) (token : Token A)
  | readApproved (id : String) (token : Token A)
  | recordApproval (a : ToolApproval A) (token : Token A)
  | failUnrecorded (a : ToolApproval A)
  | buildService (a : ToolApproval A) (token : Token A)
  | run (a : ToolApproval A) (token : Token A)
  | finish (a : ToolApproval A) (status : Status) (result : String)
  | answer (id : String)
  | ended (r : Response A)

inductive Event (A : Type*)
  | created (a : ToolApproval A)
  /-- An approve request of the user found the approval pending and not expired. -/
  | found (id userId : String)
  /-- An approve request moved the approval out of pending. -/
  | won (id : String)
  | closed (id : String) (status : Status)
  | ran (r : Run A)

/-- The table, the requests on their way, and what happened, the latest first. -/
structure State (A : Type*) where
  now : ℤ
  rows : Table (ToolApproval.id : ToolApproval A → String)
  tasks : List (Task A)
  log : List (Event A)

def State.start {A : Type*} (now : ℤ) : State A := ⟨now, Table.empty, [], []⟩

/-- What the world beside the table brings to one step of a request. -/
structure Answer where
  /-- The probe, the write, the signature, the build or the call goes through. -/
  ok : Bool
  /-- What a call answers that the role of the user no longer allows. -/
  refusal : Option String
  /-- The fresh id of a new row, or the formatted result of a run. -/
  text : String
  /-- The rows a read with a limit takes when more match. -/
  picked : List String

inductive Request (A : Type*)
  | create (r : NewApproval A)
  | list (sessionId userId : String)
  | one (k : Intent) (id userId : String)

def Request.task {A : Type*} : Request A → Task A
  | .create r => .readWaiting r
  | .list sessionId userId => .list sessionId userId
  | .one k id userId => .load k id userId

inductive Step (A : Type*)
  | clock (t : ℤ)
  | request (r : Request A)
  | statement (i : ℕ) (w : Answer)
  /-- The request ends where it is: what it does next raises, or its process ends. -/
  | raise (i : ℕ)

variable {A : Type*}

def ToolApproval.set (a : ToolApproval A) (f : Fields A) : ToolApproval A :=
  { a with
    status := f.status
    decidedAt := some f.decidedAt
    args := f.args.getD a.args
    result := f.result.or a.result }

theorem ToolApproval.id_set (f : Fields A) (a : ToolApproval A) : (a.set f).id = a.id := rfl

/-- `sign`. -/
def ToolApproval.token (a : ToolApproval A) : Token A :=
  ⟨a.id, a.userId, a.cluster, a.tool, a.args⟩

def ToolApproval.due (a : ToolApproval A) (now : ℤ) : Bool :=
  a.status = .pending ∧ a.expiresAt < now

def waitingLimit : ℕ := 50

/-- The fields the bulk expiry sets in the row of an id. -/
def expiredFields (kept : A → A) (now : ℤ) (waiting : List (ToolApproval A)) (id : String) :
    Fields A :=
  ⟨.expired, now, (waiting.find? fun w => w.id = id).map fun w => kept w.args, none⟩

def approvalResultMaxChars : ℕ := 4000

def truncate (result : String) : String := String.ofList (result.toList.take approvalResultMaxChars)

/-- A text column takes no NUL: the statement raises. -/
def storable (text : String) : Bool := !text.toList.contains '\x00'

namespace State

def put (s : State A) (i : ℕ) (t : Task A) : State A := { s with tasks := s.tasks.set i t }

def note (s : State A) (e : Event A) : State A := { s with log := e :: s.log }

/-- `transition_tool_approval` up to its commit; nothing when no row matched. -/
def transition (s : State A) (id : String) (fromStatus : Status) (f : Fields A) :
    Option (State A) :=
  if (s.rows.get id).any fun a => a.status = fromStatus then
    let hit (a : ToolApproval A) : Bool := a.id = id ∧ a.status = fromStatus
    some { s with rows := s.rows.update hit (fun a => a.set f) (ToolApproval.id_set f) }
  else none

/-- The read of `_expire_waiting_tool_approvals`. -/
def waiting (s : State A) (picked : List String) : List (ToolApproval A) :=
  let due := s.rows.select fun a => a.due s.now
  if due.length ≤ waitingLimit then due
  else (due.filter fun a => picked.contains a.id).take waitingLimit

/-- The write of `_expire_waiting_tool_approvals`: one transaction that sets every row that was
read, by its id alone. -/
def expireRead (kept : A → A) (s : State A) (now : ℤ) (waiting : List (ToolApproval A)) : State A :=
  { s with
    rows := s.rows.update (fun a => waiting.any fun w => w.id = a.id)
      (fun a => a.set (expiredFields kept now waiting a.id)) fun _ => ToolApproval.id_set _ _
    log := waiting.map (fun w => .closed w.id .expired) ++ s.log }

/-- The `INSERT` of `create_tool_approval`; an id that is taken is refused. -/
def create (s : State A) (id : String) (r : NewApproval A) : Option (State A × ToolApproval A) :=
  let a : ToolApproval A := ⟨id, r.sessionId, r.userId, r.cluster, r.tool, r.args, .pending, none,
    s.now + r.ttlSeconds, none⟩
  if h : s.rows.get a.id = none then
    some ({ s with rows := s.rows.insert a h, log := Event.created a :: s.log }, a)
  else none

end State

/-- What follows once the approval is loaded and expired if due. -/
def proceed (k : Intent) (a : ToolApproval A) : Task A :=
  match k with
  | .get => .ended (.approval a)
  | .reject =>
      if a.status = .pending then .requireAuditToReject a
      else .ended (.refused 409 ("Approval is " ++ a.status.text))
  | .approve =>
      if a.status = .pending then .sign a
      else .ended (.refused 409 ("Approval is " ++ a.status.text))

/-- One step of a request, up to its next database statement or call. -/
def State.advance (kept : A → A) (s : State A) (i : ℕ) (w : Answer) : Task A → State A
  | .readWaiting r => s.put i (.expireWaiting r s.now (s.waiting w.picked))
  | .expireWaiting r now waiting =>
      (if w.ok then s.expireRead kept now waiting else s).put i (.insert r)
  | .insert r =>
      match s.create w.text r with
      | some (s', a) => s'.put i (.ended (.approval a))
      | none => s.put i (.ended .raised)
  | .list sessionId userId =>
      s.put i (.ended (.approvals (s.rows.select fun a =>
        a.sessionId = sessionId ∧ a.userId = userId ∧ a.status = .pending)))
  | .load k id userId =>
      match s.rows.get id with
      | some a =>
          if a.userId = userId then s.put i (.expireIfDue k a)
          else s.put i (.ended (.refused 404 "Approval not found"))
      | none => s.put i (.ended (.refused 404 "Approval not found"))
  | .expireIfDue k a =>
      if a.due s.now then s.put i (.expire k a)
      else match k with
        | .approve =>
            (if a.status = .pending then s.note (.found a.id a.userId) else s).put i (proceed k a)
        | _ => s.put i (proceed k a)
  | .expire k a =>
      match s.transition a.id .pending ⟨.expired, s.now, some (kept a.args), none⟩ with
      | some s' => (s'.note (.closed a.id .expired)).put i (.reload k a.id)
      | none => s.put i (.reload k a.id)
  | .reload k id =>
      match s.rows.get id with
      | some a => s.put i (proceed k a)
      | none => s.put i (.ended .raised)
  | .requireAuditToReject a =>
      s.put i (if w.ok then .reject a else .ended (.refused 503 "audit unavailable"))
  | .reject a =>
      match s.transition a.id .pending ⟨.rejected, s.now, some (kept a.args), none⟩ with
      | some s' => (s'.note (.closed a.id .rejected)).put i (.answer a.id)
      | none => s.put i (.ended (.refused 409 "Approval is no longer pending"))
  | .sign a =>
      s.put i (if w.ok then .requireAudit a a.token else .ended (.refused 503 w.text))
  | .requireAudit a token =>
      s.put i (if w.ok then .approve a token else .ended (.refused 503 "audit unavailable"))
  | .approve a token =>
      match s.transition a.id .pending ⟨.approved, s.now, none, none⟩ with
      | some s' => (s'.note (.won a.id)).put i (.readApproved a.id token)
      | none => s.put i (.ended (.refused 409 "Approval is no longer pending"))
  | .readApproved id token =>
      match s.rows.get id with
      | some a => s.put i (.recordApproval a token)
      | none => s.put i (.ended (.refused 409 "Approval is no longer pending"))
  -- `ok` is a stored row, or an audit that need not be closed on failure
  | .recordApproval a token => s.put i (if w.ok then .buildService a token else .failUnrecorded a)
  | .failUnrecorded a =>
      ((s.transition a.id .approved
        ⟨.failed, s.now, some (kept a.args), some "audit unavailable"⟩).getD s).put i
          (.ended (.refused 503 "audit unavailable"))
  | .buildService a token => s.put i (if w.ok then .run a token else .ended .raised)
  | .run a token =>
      match w.refusal with
      | some refusal => s.put i (.finish a .failed refusal)
      | none =>
          (s.note (.ran ⟨a.id, a.cluster, a.tool, a.args, token⟩)).put i
            (.finish a (if w.ok then .executed else .failed) w.text)
  | .finish a status result =>
      if storable (truncate result) then
        match s.transition a.id .approved
          ⟨status, s.now, some (kept a.args), some (truncate result)⟩ with
        | some s' => s'.put i (.answer a.id)
        | none => s.put i (.ended (.approval a))
      else s.put i (.ended .raised)
  | .answer id =>
      match s.rows.get id with
      | some a => s.put i (.ended (.approval a))
      | none => s.put i (.ended .raised)
  | .ended r => s.put i (.ended r)

section Statements
variable {s s' : State A} {a : ToolApproval A} {id : String} {st : Status} {f : Fields A}
  {r : NewApproval A} {kept : A → A} {now : ℤ} {waiting : List (ToolApproval A)}

/-- The stored status of an approval. -/
def State.status (s : State A) (id : String) : Option Status :=
  (s.rows.get id).map ToolApproval.status

theorem State.status_of_get (h : s.rows.get id = some a) : s.status id = some a.status := by
  simp [State.status, h]

theorem State.status_eq_some :
    s.status id = some st ↔ ∃ a, s.rows.get id = some a ∧ a.status = st := by
  simp [State.status]

/-- What a transition that matched a row leaves. -/
structure Moved (s s' : State A) (id : String) (f : Fields A) (a : ToolApproval A) : Prop where
  read : s.rows.get id = some a
  rows : ∀ k, s'.rows.get k = if k = id then some (a.set f) else s.rows.get k
  tasks : s'.tasks = s.tasks
  log : s'.log = s.log

theorem Moved.status (h : Moved s s' id f a) (k : String) :
    s'.status k = if k = id then some f.status else s.status k := by
  unfold State.status
  rw [h.rows]
  split <;> rfl

theorem transition_some (h : s.transition id st f = some s') :
    ∃ a, a.status = st ∧ Moved s s' id f a := by
  unfold State.transition at h
  split at h
  · next hany =>
    obtain ⟨a, hget, hst⟩ : ∃ a, s.rows.get id = some a ∧ a.status = st := by
      simpa [Option.any_eq_true] using hany
    refine ⟨a, hst, hget, ?_, ?_, ?_⟩
    all_goals
      obtain rfl := Option.some.inj h
    · intro k
      rw [Table.get_update]
      by_cases hk : k = id
      · subst hk
        simp [hget, hst, Table.key_of_get hget]
      · rw [if_neg hk]
        cases hother : s.rows.get k with
        | none => rfl
        | some b =>
          have hid : b.id ≠ id := fun e => hk ((Table.key_of_get hother).symm.trans e)
          simp [hid]
    · rfl
    · rfl
  · cases h

theorem transition_none (h : s.transition id st f = none) : s.status id ≠ some st := by
  intro hst
  obtain ⟨a, hget, rfl⟩ := State.status_eq_some.mp hst
  simp [State.transition, hget] at h

theorem get_expireRead (id : String) : (s.expireRead kept now waiting).rows.get id =
    (s.rows.get id).map fun a =>
      if waiting.any fun w => w.id = id then a.set (expiredFields kept now waiting id) else a := by
  unfold State.expireRead
  dsimp only
  rw [Table.get_update]
  cases hget : s.rows.get id with
  | none => rfl
  | some a =>
    obtain rfl : a.id = id := Table.key_of_get hget
    rfl

theorem status_expireRead (id : String) : (s.expireRead kept now waiting).status id =
    (s.status id).map fun st => if waiting.any fun w => w.id = id then .expired else st := by
  unfold State.status
  rw [get_expireRead, Option.map_map, Option.map_map]
  congr 1
  funext a
  simp only [Function.comp_apply]
  split <;> rfl

/-- What an insertion that went through leaves. -/
structure Created (s s' : State A) (id : String) (r : NewApproval A) (a : ToolApproval A) :
    Prop where
  fresh : s.rows.get id = none
  key : a.id = id
  args : a.args = r.args
  pending : a.status = .pending
  rows : ∀ k, s'.rows.get k = if k = id then some a else s.rows.get k
  tasks : s'.tasks = s.tasks
  log : s'.log = [Event.created a] ++ s.log

theorem Created.status (h : Created s s' id r a) (k : String) :
    s'.status k = if k = id then some .pending else s.status k := by
  unfold State.status
  rw [h.rows]
  split
  · rw [Option.map_some, h.pending]
  · rfl

theorem create_some (h : s.create id r = some (s', a)) : Created s s' id r a := by
  unfold State.create at h
  dsimp only at h
  split at h
  · next hfresh =>
    obtain ⟨rfl, rfl⟩ := Prod.mk.inj (Option.some.inj h)
    refine ⟨hfresh, rfl, rfl, rfl, fun k => ?_, rfl, rfl⟩
    dsimp only
    rw [Table.get_insert]
    by_cases hk : id = k
    · rw [if_pos hk, if_pos hk.symm]
    · rw [if_neg hk, if_neg (Ne.symm hk)]
  · cases h

theorem countP_put {p : Task A → Bool} {i : ℕ} {t t' : Task A} (h : s.tasks[i]? = some t) :
    (s.put i t').tasks.countP p + (if p t then 1 else 0) =
      s.tasks.countP p + (if p t' then 1 else 0) := by
  obtain ⟨hi, rfl⟩ := List.getElem?_eq_some_iff.mp h
  have hpos : p s.tasks[i] = true → 0 < s.tasks.countP p := fun hp =>
    List.countP_pos_iff.mpr ⟨_, List.getElem_mem hi, hp⟩
  rw [State.put, List.countP_set hi]
  split <;> split <;> simp_all

theorem countP_put_le {p : Task A → Bool} {i : ℕ} {t t' : Task A} (h : s.tasks[i]? = some t)
    (hp : p t' = true → p t = true) : (s.put i t').tasks.countP p ≤ s.tasks.countP p := by
  have hput : (s.put i t').tasks.countP p + _ = _ := countP_put h
  by_cases ht' : p t' = true
  · rw [if_pos ht', if_pos (hp ht')] at hput
    omega
  · rw [if_neg ht'] at hput
    omega

theorem put_beyond {i : ℕ} (h : s.tasks[i]? = none) (t : Task A) : s.put i t = s := by
  rw [State.put, List.set_eq_of_length_le (List.getElem?_eq_none_iff.mp h)]

theorem mem_put {i : ℕ} {t t' : Task A} (h : t ∈ (s.put i t').tasks) : t ∈ s.tasks ∨ t = t' :=
  List.mem_or_eq_of_mem_set h

end Statements

def step (kept : A → A) (s : State A) : Step A → State A
  | .clock t => { s with now := t }
  | .request r => { s with tasks := s.tasks ++ [r.task] }
  | .statement i w =>
      match s.tasks[i]? with
      | some t => s.advance kept i w t
      | none => s
  | .raise i => s.put i (.ended .raised)

end Kubeast.ToolApprovals
