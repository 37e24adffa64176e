import Kubeast.ToolApprovals.Handlers

/-! A tool runs at most once for an approval, and only once a user was found to ask for it:
in every run of the requests. -/
namespace Kubeast.ToolApprovals
open Transition

variable {A : Type*} {s s' : State A} {a c : ToolApproval A} {id : String} {log log' : List (Event A)}
  {t t' : Task A} {i : ℕ} {e : Event A} {token : Token A} {f : Fields A} {kept : A → A}

/-- A row of the call that was created. -/
structure OfCall (c a : ToolApproval A) : Prop where
  key : a.id = c.id
  userId : a.userId = c.userId
  cluster : a.cluster = c.cluster
  tool : a.tool = c.tool

/-- A row as it was stored at some time: while it waits, its arguments are those created. -/
def Known (log : List (Event A)) (a : ToolApproval A) : Prop :=
  ∃ c, .created c ∈ log ∧ OfCall c a ∧ (a.status = .pending → a.args = c.args)

/-- The approval is no longer pending. -/
def Left (log : List (Event A)) (id : String) : Prop :=
  Event.won id ∈ log ∨ ∃ st, Event.closed id st ∈ log

/-- An approve request of the user of the approval found it pending and not expired. -/
def Asked (log : List (Event A)) (a : ToolApproval A) : Prop :=
  ∃ c, .created c ∈ log ∧ OfCall c a ∧ a.args = c.args ∧ .found c.id c.userId ∈ log

/-- The call was created, asked for and won, and the token is its own. -/
structure Authorized (log : List (Event A)) (id : String) (token : Token A)
    (c : ToolApproval A) : Prop where
  created : .created c ∈ log
  key : id = c.id
  token : token = c.token
  found : .found c.id c.userId ∈ log
  won : Event.won c.id ∈ log

/-- What holds of a request at each place of its handler. -/
def TaskOk (log : List (Event A)) : Task A → Prop
  | .expireWaiting _ _ waiting => ∀ w ∈ waiting, Known log w
  | .expireIfDue _ a => Known log a
  | .expire _ a => Known log a
  | .reload _ id => Left log id
  | .sign a => Asked log a
  | .requireAudit a token | .approve a token => Asked log a ∧ token = a.token
  | .readApproved id token => ∃ c, Authorized log id token c
  | .recordApproval a token | .buildService a token | .run a token =>
      ∃ c, Authorized log a.id token c ∧ OfCall c a
  | .finish _ st _ => st = .executed ∨ st = .failed
  | _ => True

/-- The request won the approval and has not called its tool yet. -/
def Task.mayRun (id : String) : Task A → Bool
  | .readApproved k _ => k = id
  | .recordApproval a _ | .buildService a _ | .run a _ => a.id = id
  | _ => false

def Event.isRun (id : String) : Event A → Bool
  | .ran r => r.approvalId = id
  | _ => false

section Logs

theorem Known.mono (hsub : log ⊆ log') (h : Known log a) : Known log' a := by
  obtain ⟨c, hc, hrest⟩ := h
  exact ⟨c, hsub hc, hrest⟩

theorem Left.mono (hsub : log ⊆ log') (h : Left log id) : Left log' id :=
  h.imp (fun h => hsub h) fun ⟨st, h⟩ => ⟨st, hsub h⟩

theorem Asked.mono (hsub : log ⊆ log') (h : Asked log a) : Asked log' a := by
  obtain ⟨c, hc, hcall, hargs, hfound⟩ := h
  exact ⟨c, hsub hc, hcall, hargs, hsub hfound⟩

theorem Authorized.mono (hsub : log ⊆ log') (h : Authorized log id token c) :
    Authorized log' id token c :=
  ⟨hsub h.created, h.key, h.token, hsub h.found, hsub h.won⟩

theorem TaskOk.mono (hsub : log ⊆ log') (h : TaskOk log t) : TaskOk log' t := by
  cases t with
  | expireWaiting r now waiting => exact fun w hw => (h w hw).mono hsub
  | expireIfDue k a | expire k a => exact Known.mono hsub h
  | reload k id => exact Left.mono hsub h
  | sign a => exact Asked.mono hsub h
  | requireAudit a token => exact ⟨h.1.mono hsub, h.2⟩
  | approve a token => exact ⟨h.1.mono hsub, h.2⟩
  | readApproved id token =>
    obtain ⟨c, hc⟩ := h
    exact ⟨c, hc.mono hsub⟩
  | recordApproval a token | buildService a token | run a token =>
    obtain ⟨c, hc, hcall⟩ := h
    exact ⟨c, hc.mono hsub, hcall⟩
  | finish a st result => exact h
  | _ => trivial

/-- Every run of the log is `P` for what came before it. -/
def BeforeRuns (P : List (Event A) → Run A → Prop) (log : List (Event A)) : Prop :=
  ∀ later r earlier, log = later ++ Event.ran r :: earlier → P earlier r

variable {P : List (Event A) → Run A → Prop}

theorem BeforeRuns.cons (h : BeforeRuns P log) (he : ∀ r, e = Event.ran r → P log r) :
    BeforeRuns P (e :: log) := by
  intro later r earlier hlog
  cases later with
  | nil =>
    obtain ⟨rfl, rfl⟩ := List.cons.inj hlog
    exact he r rfl
  | cons x later => exact h later r earlier (List.cons.inj hlog).2

theorem BeforeRuns.append {es : List (Event A)} (h : BeforeRuns P log)
    (hes : ∀ e ∈ es, ∀ r, e ≠ Event.ran r) : BeforeRuns P (es ++ log) := by
  induction es with
  | nil => exact h
  | cons e es ih =>
    have hrest : BeforeRuns P (es ++ log) := ih fun x hx => hes x (List.mem_cons_of_mem e hx)
    exact hrest.cons fun r hr => absurd hr (hes e (by simp) r)

end Logs

/-- What the table and the log say of each other. -/
structure TableOk (s : State A) : Prop where
  known : ∀ id a, s.rows.get id = some a → Known s.log a
  left : ∀ id, Left s.log id ↔ ∃ st, s.status id = some st ∧ st ≠ .pending
  stored : ∀ c, .created c ∈ s.log → s.status c.id ≠ none
  unique : ∀ c c', .created c ∈ s.log → .created c' ∈ s.log → c.id = c'.id → c = c'

section Tables

/-- An event that neither creates nor moves an approval. -/
def Event.neutral : Event A → Prop
  | .found .. | .ran _ => True
  | _ => False

theorem TableOk.note (h : TableOk s) (he : e.neutral) : TableOk (s.note e) := by
  have hcreated (c : ToolApproval A) : .created c ∈ (s.note e).log → .created c ∈ s.log := by
    intro hc
    rcases List.mem_cons.mp hc with rfl | hc
    · exact he.elim
    · exact hc
  have hleft (id : String) : Left (s.note e).log id ↔ Left s.log id := by
    refine ⟨?_, Left.mono (List.subset_cons_self e s.log)⟩
    rintro (hwon | ⟨st, hclosed⟩)
    · rcases List.mem_cons.mp hwon with rfl | hwon
      · exact he.elim
      · exact Or.inl hwon
    · rcases List.mem_cons.mp hclosed with rfl | hclosed
      · exact he.elim
      · exact Or.inr ⟨st, hclosed⟩
  exact {
    known := fun id a ha => (h.known id a ha).mono (List.subset_cons_self e s.log)
    left := fun id => (hleft id).trans (h.left id)
    stored := fun c hc => h.stored c (hcreated c hc)
    unique := fun c c' hc hc' => h.unique c c' (hcreated c hc) (hcreated c' hc') }

theorem Known.set (h : Known log a) (hst : f.status ≠ .pending) : Known log (a.set f) := by
  obtain ⟨c, hc, hcall, -⟩ := h
  exact ⟨c, hc, ⟨hcall.key, hcall.userId, hcall.cluster, hcall.tool⟩, fun h => absurd h hst⟩

/-- A row that is not pending moves on. -/
theorem TableOk.moved (h : TableOk s) (hmoved : Moved s s' id f a) (ha : a.status ≠ .pending)
    (hst : f.status ≠ .pending) : TableOk s' := by
  constructor
  · intro k b hb
    rw [hmoved.log]
    rw [hmoved.rows] at hb
    split at hb
    · obtain rfl := Option.some.inj hb
      exact (h.known id a hmoved.read).set hst
    · exact h.known k b hb
  · intro k
    rw [hmoved.log, hmoved.status, h.left]
    split
    · next hk =>
      subst hk
      rw [State.status_of_get hmoved.read]
      simp [ha, hst]
    · rfl
  · intro c hc
    rw [hmoved.log] at hc
    rw [hmoved.status]
    split
    · simp
    · exact h.stored c hc
  · rw [hmoved.log]
    exact h.unique

/-- A pending row leaves, and the log says so. -/
theorem TableOk.leaves (h : TableOk s) (hmoved : Moved s s' id f a) (hst : f.status ≠ .pending)
    (he : e = Event.won id ∨ ∃ st, e = Event.closed id st) : TableOk (s'.note e) := by
  have hlog : (s'.note e).log = e :: s.log := by rw [State.note, hmoved.log]
  have hcreated (c : ToolApproval A) : .created c ∈ (s'.note e).log → .created c ∈ s.log := by
    rw [hlog]
    intro hc
    rcases List.mem_cons.mp hc with rfl | hc
    · simp at he
    · exact hc
  have hleft (k : String) : Left (s'.note e).log k ↔ k = id ∨ Left s.log k := by
    unfold Left
    rw [hlog]
    rcases he with rfl | ⟨st, rfl⟩
    · simp [or_assoc]
    · simp only [List.mem_cons, reduceCtorEq, false_or, Event.closed.injEq]
      constructor
      · rintro (hwon | ⟨st', ⟨rfl, -⟩ | hclosed⟩)
        · exact Or.inr (Or.inl hwon)
        · exact Or.inl rfl
        · exact Or.inr (Or.inr ⟨st', hclosed⟩)
      · rintro (rfl | hwon | ⟨st', hclosed⟩)
        · exact Or.inr ⟨st, Or.inl ⟨rfl, rfl⟩⟩
        · exact Or.inl hwon
        · exact Or.inr ⟨st', Or.inr hclosed⟩
  have hstatus (k : String) : (s'.note e).status k = if k = id then some f.status else s.status k :=
    hmoved.status k
  constructor
  · intro k b hb
    rw [hlog]
    have hb' : s'.rows.get k = some b := hb
    rw [hmoved.rows] at hb'
    split at hb'
    · obtain rfl := Option.some.inj hb'
      exact ((h.known id a hmoved.read).set hst).mono (List.subset_cons_self e s.log)
    · exact (h.known k b hb').mono (List.subset_cons_self e s.log)
  · intro k
    rw [hleft, hstatus, h.left]
    split
    · next hk => simp [hk, hst]
    · next hk => simp [hk]
  · intro c hc
    rw [hstatus]
    split
    · simp
    · exact h.stored c (hcreated c hc)
  · exact fun c c' hc hc' => h.unique c c' (hcreated c hc) (hcreated c' hc')

theorem TableOk.expireRead (h : TableOk s) {now : ℤ} {waiting : List (ToolApproval A)}
    (hstored : ∀ w ∈ waiting, s.status w.id ≠ none) : TableOk (s.expireRead kept now waiting) := by
  set s' := s.expireRead kept now waiting with hs'
  have hlog : s'.log = waiting.map (fun w => Event.closed w.id .expired) ++ s.log := rfl
  have hsub : s.log ⊆ s'.log := by
    rw [hlog]
    exact List.subset_append_right _ _
  have hcreated (c : ToolApproval A) : .created c ∈ s'.log → .created c ∈ s.log := by
    rw [hlog]
    simp
  have hread (k : String) : (waiting.any fun w => w.id = k) = true ↔ ∃ w ∈ waiting, w.id = k := by
    simp
  constructor
  · intro k b hb
    rw [hs', get_expireRead, Option.map_eq_some_iff] at hb
    obtain ⟨a, ha, rfl⟩ := hb
    have hknown : Known s'.log a := (h.known k a ha).mono hsub
    split
    · exact hknown.set (by simp [expiredFields])
    · exact hknown
  · intro k
    have hleft : Left s'.log k ↔ (∃ w ∈ waiting, w.id = k) ∨ Left s.log k := by
      unfold Left
      rw [hlog]
      simp only [List.mem_append, List.mem_map, reduceCtorEq, and_false, exists_false, false_or,
        Event.closed.injEq]
      constructor
      · rintro (hwon | ⟨st, ⟨w, hw, hk, -⟩ | hclosed⟩)
        · exact Or.inr (Or.inl hwon)
        · exact Or.inl ⟨w, hw, hk⟩
        · exact Or.inr (Or.inr ⟨st, hclosed⟩)
      · rintro (⟨w, hw, hk⟩ | hwon | ⟨st, hclosed⟩)
        · exact Or.inr ⟨.expired, Or.inl ⟨w, hw, hk, rfl⟩⟩
        · exact Or.inl hwon
        · exact Or.inr ⟨st, Or.inr hclosed⟩
    rw [hleft, hs', status_expireRead, ← hread, h.left]
    by_cases hk : (waiting.any fun w => w.id = k) = true
    · obtain ⟨w, hw, rfl⟩ := (hread k).mp hk
      obtain ⟨st, hst⟩ := Option.ne_none_iff_exists'.mp (hstored w hw)
      simp [hk, hst]
    · simp [hk]
  · intro c hc
    rw [hs', status_expireRead]
    simpa using h.stored c (hcreated c hc)
  · exact fun c c' hc hc' => h.unique c c' (hcreated c hc) (hcreated c' hc')

theorem TableOk.create (h : TableOk s) {r : NewApproval A} (hnew : Created s s' id r a) :
    TableOk s' := by
  have hfresh : s.status id = none := by simp [State.status, hnew.fresh]
  have hsub : s.log ⊆ s'.log := by
    rw [hnew.log]
    exact List.subset_cons_self _ _
  have hleft (k : String) : Left s'.log k ↔ Left s.log k := by
    simp [Left, hnew.log]
  have hold (c : ToolApproval A) (hc : .created c ∈ s.log) : c.id ≠ id := by
    rintro rfl
    exact h.stored c hc hfresh
  constructor
  · intro k b hb
    rw [hnew.rows] at hb
    split at hb
    · obtain rfl := Option.some.inj hb
      exact ⟨_, by simp [hnew.log], ⟨rfl, rfl, rfl, rfl⟩, fun _ => rfl⟩
    · exact (h.known k b hb).mono hsub
  · intro k
    rw [hleft, h.left, hnew.status]
    split
    · next hk => simp [hk, hfresh]
    · rfl
  · intro c hc
    rw [hnew.log] at hc
    rw [hnew.status]
    split
    · simp
    · next hk =>
      rcases List.mem_cons.mp hc with hc | hc
      · obtain rfl := Event.created.inj hc
        exact absurd hnew.key hk
      · exact h.stored c hc
  · rw [hnew.log]
    intro c c' hc hc' hid
    rcases List.mem_cons.mp hc with hnow | hthen <;>
      rcases List.mem_cons.mp hc' with hnow' | hthen'
    · exact (Event.created.inj hnow).trans (Event.created.inj hnow').symm
    · obtain rfl := Event.created.inj hnow
      exact absurd (hid.symm.trans hnew.key) (hold c' hthen')
    · obtain rfl := Event.created.inj hnow'
      exact absurd (hid.trans hnew.key) (hold c hthen)
    · exact h.unique c c' hthen hthen' hid

end Tables

/-- The invariant of every run of the requests. -/
structure Sound (s : State A) : Prop where
  table : TableOk s
  tasks : ∀ t ∈ s.tasks, TaskOk s.log t
  once : ∀ id, s.log.countP (Event.isRun id) + s.tasks.countP (Task.mayRun id) ≤ 1
  idle : ∀ id, Event.won id ∉ s.log →
    s.log.countP (Event.isRun id) + s.tasks.countP (Task.mayRun id) = 0
  entitled : BeforeRuns (fun earlier r => ∃ c, Authorized earlier r.approvalId r.token c ∧
    r.cluster = c.cluster ∧ r.tool = c.tool) s.log

section Requests

/-- The table and the log change, and none of the requests. -/
theorem Sound.change (h : Sound s) (htable : TableOk s') (htasks : s'.tasks = s.tasks)
    {es : List (Event A)} (hlog : s'.log = es ++ s.log) (hes : ∀ e ∈ es, ∀ r, e ≠ Event.ran r) :
    Sound s' := by
  have hsub : s.log ⊆ s'.log := by
    rw [hlog]
    exact List.subset_append_right _ _
  have hruns (id : String) : s'.log.countP (Event.isRun id) = s.log.countP (Event.isRun id) := by
    rw [hlog, List.countP_append, Nat.add_eq_right, List.countP_eq_zero]
    intro e he
    cases e with
    | ran r => exact absurd rfl (hes _ he r)
    | _ => simp [Event.isRun]
  exact {
    table := htable
    tasks := fun t ht => (h.tasks t (htasks ▸ ht)).mono hsub
    once := fun id => by
      rw [hruns, htasks]
      exact h.once id
    idle := fun id hwon => by
      rw [hruns, htasks]
      exact h.idle id fun hw => hwon (hsub hw)
    entitled := by
      rw [hlog]
      exact h.entitled.append hes }

theorem TableOk.of_eq (h : TableOk s) (hrows : s'.rows = s.rows) (hlog : s'.log = s.log) :
    TableOk s' := by
  have hstatus (id : String) : s'.status id = s.status id := by rw [State.status, hrows]; rfl
  exact {
    known := fun id a ha => hlog ▸ h.known id a (hrows ▸ ha)
    left := fun id => by rw [hlog, hstatus]; exact h.left id
    stored := fun c hc => by rw [hstatus]; exact h.stored c (hlog ▸ hc)
    unique := by rw [hlog]; exact h.unique }

/-- A request moves on without a chance to run that it did not have. -/
theorem Sound.put (h : Sound s) (hi : s.tasks[i]? = some t) (ht : TaskOk s.log t')
    (hrun : ∀ id, t'.mayRun id = true → t.mayRun id = true) : Sound (s.put i t') := by
  have hcount (id : String) : (s.put i t').tasks.countP (Task.mayRun id) ≤
      s.tasks.countP (Task.mayRun id) := countP_put_le hi (hrun id)
  have hlog : (s.put i t').log = s.log := rfl
  constructor
  · exact h.table.of_eq rfl rfl
  · intro x hx
    rcases mem_put hx with hx | rfl
    · exact h.tasks x hx
    · exact ht
  · intro id
    have honce := h.once id
    have hle := hcount id
    rw [hlog]
    omega
  · intro id hwon
    have hidle := h.idle id hwon
    have hle := hcount id
    rw [hlog]
    omega
  · exact h.entitled

/-- A request moves on once the table and the log have changed. -/
theorem Sound.changePut (h : Sound s) (hi : s.tasks[i]? = some t) (htable : TableOk s')
    (htasks : s'.tasks = s.tasks) {es : List (Event A)} (hlog : s'.log = es ++ s.log)
    (hes : ∀ e ∈ es, ∀ r, e ≠ Event.ran r) (ht : TaskOk s'.log t')
    (hrun : ∀ id, t'.mayRun id = true → t.mayRun id = true) : Sound (s'.put i t') :=
  (h.change htable htasks hlog hes).put (htasks ▸ hi) ht hrun

theorem Known.asked (h : Known log a) (ha : a.status = .pending)
    (hfound : .found a.id a.userId ∈ log) : Asked log a := by
  obtain ⟨c, hc, hcall, hargs⟩ := h
  exact ⟨c, hc, hcall, hargs ha, hcall.key ▸ hcall.userId ▸ hfound⟩

/-- The approve request that moves a pending row holds the only chance to run. -/
theorem Sound.win (h : Sound s) (hi : s.tasks[i]? = some (.approve a token))
    (hmoved : Moved s s' a.id f c) (hpending : c.status = .pending) (hst : f.status ≠ .pending) :
    Sound ((s'.note (Event.won a.id)).put i (.readApproved a.id token)) := by
  obtain ⟨⟨c', hc', hcall, hargs, hfound⟩, htoken⟩ := h.tasks _ (List.mem_of_getElem? hi)
  have hlog : (s'.note (Event.won a.id)).log = Event.won a.id :: s.log := by rw [State.note, hmoved.log]
  have hi' : (s'.note (Event.won a.id)).tasks[i]? = some (.approve a token) := by
    rw [State.note, hmoved.tasks]
    exact hi
  have hbefore : Event.won a.id ∉ s.log := by
    intro hwon
    obtain ⟨st, hstatus, hne⟩ := (h.table.left a.id).mp (Or.inl hwon)
    rw [State.status_of_get hmoved.read] at hstatus
    exact hne ((Option.some.inj hstatus).symm.trans hpending)
  have hchange : Sound (s'.note (Event.won a.id)) := by
    have hone : ∀ e ∈ [Event.won a.id], ∀ r : Run A, e ≠ Event.ran r := by simp
    exact h.change (h.table.leaves hmoved hst (Or.inl rfl)) hmoved.tasks hlog hone
  have htoken' : token = c'.token := by
    rw [htoken, ToolApproval.token, ToolApproval.token, hcall.key, hcall.userId, hcall.cluster,
      hcall.tool, hargs]
  have hauthorized : Authorized (s'.note (Event.won a.id)).log a.id token c' := by
    rw [hlog]
    exact ⟨List.mem_cons_of_mem _ hc', hcall.key, htoken', List.mem_cons_of_mem _ hfound,
      by simp [hcall.key]⟩
  have hruns (id : String) : (s'.note (Event.won a.id)).log.countP (Event.isRun id) =
      s.log.countP (Event.isRun id) := by
    rw [hlog, List.countP_cons_of_neg (by simp [Event.isRun])]
  have htasks (id : String) : ((s'.note (Event.won a.id)).put i
      (.readApproved a.id token)).tasks.countP (Task.mayRun id) =
        s.tasks.countP (Task.mayRun id) + if a.id = id then 1 else 0 := by
    have hput : ((s'.note (Event.won a.id)).put i (.readApproved a.id token)).tasks.countP
      (Task.mayRun id) + _ = _ := countP_put hi'
    have hsame : (s'.note (Event.won a.id)).tasks = s.tasks := hmoved.tasks
    rw [hsame] at hput
    simpa [Task.mayRun] using hput
  constructor
  · exact hchange.table.of_eq rfl rfl
  · intro t ht
    rcases mem_put ht with ht | rfl
    · exact hchange.tasks t ht
    · exact ⟨c', hauthorized⟩
  · intro id
    have hsame : ((s'.note (Event.won a.id)).put i (.readApproved a.id token)).log =
      (s'.note (Event.won a.id)).log := rfl
    rw [hsame, hruns, htasks]
    split
    · next hid =>
      have hnone := h.idle id (hid ▸ hbefore)
      omega
    · exact h.once id
  · intro id hwon
    have hwon' : Event.won id ∉ (s'.note (Event.won a.id)).log := hwon
    rw [hlog, List.mem_cons, not_or] at hwon'
    have hid : a.id ≠ id := fun hid => hwon'.1 (congrArg Event.won hid.symm)
    have hsame : ((s'.note (Event.won a.id)).put i (.readApproved a.id token)).log =
      (s'.note (Event.won a.id)).log := rfl
    rw [hsame, hruns, htasks, if_neg hid]
    exact h.idle id hwon'.2
  · exact hchange.entitled

/-- The call of the tool uses the chance of its request up. -/
theorem Sound.ran (h : Sound s) (hi : s.tasks[i]? = some (.run a token)) {st : Status}
    {result : String} (hst : st = .executed ∨ st = .failed) :
    Sound ((s.note (.ran ⟨a.id, a.cluster, a.tool, a.args, token⟩)).put i (.finish a st result)) := by
  obtain ⟨c, hauthorized, hcall⟩ := h.tasks _ (List.mem_of_getElem? hi)
  set r : Run A := ⟨a.id, a.cluster, a.tool, a.args, token⟩ with hr
  have hsub : s.log ⊆ Event.ran r :: s.log := List.subset_cons_self _ _
  have hruns (id : String) : (Event.ran r :: s.log).countP (Event.isRun id) =
      s.log.countP (Event.isRun id) + if a.id = id then 1 else 0 := by
    simp [List.countP_cons, Event.isRun, hr]
  have htasks (id : String) : (s.put i (.finish a st result)).tasks.countP (Task.mayRun id) +
      (if a.id = id then 1 else 0) = s.tasks.countP (Task.mayRun id) := by
    have hput : (s.put i (.finish a st result)).tasks.countP (Task.mayRun id) + _ = _ :=
      countP_put hi
    simpa [Task.mayRun] using hput
  constructor
  · exact (h.table.note (e := Event.ran r) trivial).of_eq rfl rfl
  · intro t ht
    rcases mem_put ht with ht | rfl
    · exact (h.tasks t ht).mono hsub
    · exact hst
  · intro id
    have honce := h.once id
    have hid := htasks id
    show (Event.ran r :: s.log).countP (Event.isRun id) +
      (s.put i (.finish a st result)).tasks.countP (Task.mayRun id) ≤ 1
    rw [hruns]
    omega
  · intro id hwon
    have hidle := h.idle id fun hw => hwon (hsub hw)
    have hid := htasks id
    show (Event.ran r :: s.log).countP (Event.isRun id) +
      (s.put i (.finish a st result)).tasks.countP (Task.mayRun id) = 0
    rw [hruns]
    omega
  · apply h.entitled.cons
    intro r' hr'
    obtain rfl := Event.ran.inj hr'
    exact ⟨c, hauthorized, hcall.cluster, hcall.tool⟩

theorem mem_waiting {picked : List String} (h : a ∈ s.waiting picked) : a ∈ s.rows.rows := by
  unfold State.waiting at h
  dsimp only at h
  split at h
  · exact (Table.mem_select.mp h).1
  · exact (Table.mem_select.mp (List.mem_of_mem_filter (List.mem_of_mem_take h))).1

/-- What follows a load may be a token to sign, and nothing else that asks for anything. -/
theorem taskOk_proceed {k : Intent} (h : k = .approve → a.status = .pending → Asked log a) :
    TaskOk log (proceed k a) := by
  unfold proceed
  cases k with
  | get => trivial
  | reject => dsimp only; split <;> trivial
  | approve =>
    dsimp only
    split
    · next hpending => exact h rfl hpending
    · trivial

theorem mayRun_proceed (k : Intent) (a : ToolApproval A) (id : String) :
    (proceed k a).mayRun id = false := by
  unfold proceed
  cases k <;> dsimp only <;> first | rfl | (split <;> rfl)

theorem Moved.note (h : Moved s s' id f a) (e : Event A) : (s'.note e).log = [e] ++ s.log :=
  congrArg (e :: ·) h.log

theorem TableOk.stored_of_known (h : TableOk s) (hknown : Known s.log a) : s.status a.id ≠ none := by
  obtain ⟨c, hc, hcall, -⟩ := hknown
  exact hcall.key ▸ h.stored c hc

theorem TableOk.left_of_none (h : TableOk s) (hknown : Known s.log a)
    (hnone : s.transition a.id .pending f = none) : Left s.log a.id := by
  obtain ⟨st, hst⟩ := Option.ne_none_iff_exists'.mp (h.stored_of_known hknown)
  exact (h.left a.id).mpr ⟨st, hst, fun e => transition_none hnone (e ▸ hst)⟩

/-- One step of a request keeps the invariant. -/
theorem Sound.advance (h : Sound s) (w : Answer) (hi : s.tasks[i]? = some t) :
    Sound (s.advance kept i w t) := by
  have ht : TaskOk s.log t := h.tasks t (List.mem_of_getElem? hi)
  have hend (r : Response A) : Sound (s.put i (.ended r)) := h.put hi trivial (by simp [Task.mayRun])
  have hproceed (k : Intent) (a : ToolApproval A)
      (hask : k = .approve → a.status = .pending → Asked s.log a) : Sound (s.put i (proceed k a)) :=
    h.put hi (taskOk_proceed hask) (by simp [mayRun_proceed])
  cases t with
  | readWaiting r =>
    apply h.put hi
    · intro a ha
      exact h.table.known a.id a (Table.get_of_mem (mem_waiting ha))
    · simp [Task.mayRun]
  | expireWaiting r now waiting =>
    dsimp only [State.advance]
    split
    · have hstored : ∀ w ∈ waiting, s.status w.id ≠ none := fun w hw =>
        h.table.stored_of_known (ht w hw)
      apply h.changePut hi (h.table.expireRead hstored) rfl rfl
      · simp
      · trivial
      · simp [Task.mayRun]
    · exact h.put hi trivial (by simp [Task.mayRun])
  | insert r =>
    dsimp only [State.advance]
    split
    · next s' a hnew =>
      have hnew := create_some hnew
      apply h.changePut hi (h.table.create hnew) hnew.tasks hnew.log
      · simp
      · trivial
      · simp [Task.mayRun]
    · exact hend _
  | list sessionId userId => exact hend _
  | load k id userId =>
    dsimp only [State.advance]
    split
    · next a ha =>
      split
      · exact h.put hi (h.table.known id a ha) (by simp [Task.mayRun])
      · exact hend _
    · exact hend _
  | expireIfDue k a =>
    dsimp only [State.advance]
    split
    · exact h.put hi ht (by simp [Task.mayRun])
    · cases k with
      | get => exact hproceed .get a (by simp)
      | reject => exact hproceed .reject a (by simp)
      | approve =>
        dsimp only
        split
        · next hpending =>
          have hfound : .found a.id a.userId ∈ (s.note (.found a.id a.userId)).log := by
            simp [State.note]
          have hknown : Known (s.note (.found a.id a.userId)).log a :=
            ht.mono (List.subset_cons_self _ _)
          apply h.changePut hi (h.table.note (e := .found a.id a.userId) trivial) rfl
            (rfl : _ = [.found a.id a.userId] ++ s.log)
          · simp
          · exact taskOk_proceed fun _ _ => hknown.asked hpending hfound
          · simp [mayRun_proceed]
        · next hnot => exact hproceed .approve a fun _ hpending => absurd hpending hnot
  | expire k a =>
    dsimp only [State.advance]
    split
    · next s' hmove =>
      obtain ⟨b, -, hmoved⟩ := transition_some hmove
      have hleaves := h.table.leaves (e := Event.closed a.id .expired) hmoved (by simp) (Or.inr ⟨_, rfl⟩)
      apply h.changePut hi hleaves hmoved.tasks (hmoved.note _)
      · simp
      · exact Or.inr ⟨.expired, by simp [State.note]⟩
      · simp [Task.mayRun]
    · next hnone => exact h.put hi (h.table.left_of_none ht hnone) (by simp [Task.mayRun])
  | reload k id =>
    dsimp only [State.advance]
    split
    · next b hb =>
      obtain ⟨st, hst, hne⟩ := (h.table.left id).mp ht
      rw [State.status_of_get hb] at hst
      exact hproceed k b fun _ hpending => absurd ((Option.some.inj hst).symm.trans hpending) hne
    · exact hend _
  | requireAuditToReject a =>
    dsimp only [State.advance]
    split
    · exact h.put hi trivial (by simp [Task.mayRun])
    · exact hend _
  | reject a =>
    dsimp only [State.advance]
    split
    · next s' hmove =>
      obtain ⟨b, -, hmoved⟩ := transition_some hmove
      have hleaves := h.table.leaves (e := Event.closed a.id .rejected) hmoved (by simp) (Or.inr ⟨_, rfl⟩)
      apply h.changePut hi hleaves hmoved.tasks (hmoved.note _)
      · simp
      · trivial
      · simp [Task.mayRun]
    · exact hend _
  | sign a =>
    dsimp only [State.advance]
    split
    · exact h.put hi ⟨ht, rfl⟩ (by simp [Task.mayRun])
    · exact hend _
  | requireAudit a token =>
    dsimp only [State.advance]
    split
    · exact h.put hi ht (by simp [Task.mayRun])
    · exact hend _
  | approve a token =>
    dsimp only [State.advance]
    split
    · next s' hmove =>
      obtain ⟨b, hpending, hmoved⟩ := transition_some hmove
      exact h.win hi hmoved hpending (by simp)
    · exact hend _
  | readApproved id token =>
    dsimp only [State.advance]
    split
    · next b hb =>
      obtain ⟨c, hauthorized⟩ := ht
      obtain ⟨c', hc', hcall, -⟩ := h.table.known id b hb
      have hkey : b.id = id := Table.key_of_get hb
      obtain rfl : c = c' := h.table.unique c c' hauthorized.created hc'
        (hauthorized.key.symm.trans (hkey.symm.trans hcall.key))
      have hnext : TaskOk s.log (.recordApproval b token) := ⟨c, hkey ▸ hauthorized, hcall⟩
      exact h.put hi hnext (by simp [Task.mayRun, hkey])
    · exact hend _
  | recordApproval a token =>
    dsimp only [State.advance]
    split
    · exact h.put hi ht (by simp [Task.mayRun])
    · exact h.put hi trivial (by simp [Task.mayRun])
  | failUnrecorded a =>
    dsimp only [State.advance]
    cases hmove : s.transition a.id .approved _ with
    | some s' =>
      obtain ⟨b, happroved, hmoved⟩ := transition_some hmove
      apply h.changePut hi (h.table.moved hmoved (by simp [happroved]) (by simp)) hmoved.tasks
        (hmoved.log.trans (List.nil_append _).symm)
      · simp
      · trivial
      · simp [Task.mayRun]
    | none => exact hend _
  | buildService a token =>
    dsimp only [State.advance]
    split
    · exact h.put hi ht (by simp [Task.mayRun])
    · exact hend _
  | run a token =>
    dsimp only [State.advance]
    split
    · exact h.put hi (Or.inr rfl) (by simp [Task.mayRun])
    · apply h.ran hi
      split
      · exact Or.inl rfl
      · exact Or.inr rfl
  | finish a st result =>
    dsimp only [State.advance]
    split
    · split
      · next s' hmove =>
        obtain ⟨b, happroved, hmoved⟩ := transition_some hmove
        have hst : st ≠ .pending := by
          rintro rfl
          simp [TaskOk] at ht
        apply h.changePut hi (h.table.moved hmoved (by simp [happroved]) hst) hmoved.tasks
          (hmoved.log.trans (List.nil_append _).symm)
        · simp
        · trivial
        · simp [Task.mayRun]
      · exact hend _
    · exact hend _
  | answer id =>
    dsimp only [State.advance]
    split
    · exact hend _
    · exact hend _
  | ended r => exact hend r

theorem Sound.step (h : Sound s) (x : Step A) : Sound (step kept s x) := by
  cases x with
  | clock n =>
    have htable : TableOk { s with now := n } := h.table.of_eq rfl rfl
    exact ⟨htable, h.tasks, h.once, h.idle, h.entitled⟩
  | request r =>
    have htable : TableOk { s with tasks := s.tasks ++ [r.task] } := h.table.of_eq rfl rfl
    have hcount (id : String) : (s.tasks ++ [r.task]).countP (Task.mayRun id) =
        s.tasks.countP (Task.mayRun id) := by
      cases r <;> simp [Request.task, Task.mayRun]
    constructor
    · exact htable
    · intro t ht
      rcases List.mem_append.mp ht with ht | ht
      · exact h.tasks t ht
      · obtain rfl := List.mem_singleton.mp ht
        cases r <;> trivial
    · intro id
      have honce := h.once id
      rw [← hcount] at honce
      exact honce
    · intro id hwon
      have hidle := h.idle id hwon
      rw [← hcount] at hidle
      exact hidle
    · exact h.entitled
  | statement i w =>
    dsimp only [ToolApprovals.step]
    split
    · next t hi => exact h.advance w hi
    · exact h
  | raise i =>
    dsimp only [ToolApprovals.step]
    cases hi : s.tasks[i]? with
    | some t => exact h.put hi trivial (by simp [Task.mayRun])
    | none => exact (put_beyond hi _).symm ▸ h

theorem sound_start (now : ℤ) : Sound (State.start now : State A) := by
  have hnone (id : String) : (State.start now : State A).status id = none := rfl
  constructor
  · constructor
    · intro id a ha
      cases ha
    · intro id
      rw [hnone]
      simp [Left, State.start]
    · simp [State.start]
    · simp [State.start]
  · simp [State.start]
  · simp [State.start]
  · simp [State.start]
  · intro later r earlier hlog
    simp [State.start] at hlog

/-- The invariant of every run, in any order and by any clock. -/
theorem sound_exec (now : ℤ) (steps : List (Step A)) :
    Sound (exec (step kept) (State.start now) steps) :=
  exec_invariant (G := fun _ _ => True) (fun _ x h _ => h.step x) (sound_start now)
    (.of_forall fun _ _ => trivial)

/-- Whatever the order and the clock, the tool of an approval is called at most once. -/
theorem runs_at_most_once (kept : A → A) (now : ℤ) (steps : List (Step A)) (id : String) :
    (exec (step kept) (State.start now) steps).log.countP (Event.isRun id) ≤ 1 := by
  have hsound : Sound (exec (step kept) (State.start now) steps) := sound_exec now steps
  have honce := hsound.once id
  omega

end Requests

end Kubeast.ToolApprovals
