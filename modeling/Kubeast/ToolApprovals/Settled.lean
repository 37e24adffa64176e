import Kubeast.ToolApprovals.Once

/-! What the stored status says of an approval, in every run in which no bulk expiry overwrites an
approved row and no request that won its row ends before its last update. -/
namespace Kubeast.ToolApprovals
open Transition

variable {A : Type*} {s s' : State A} {a c : ToolApproval A} {id : String} {log log' : List (Event A)}
  {t t' : Task A} {i : ℕ} {e : Event A} {token : Token A} {f : Fields A} {kept : A → A}

/-- An approve request moved the row out of pending. -/
def Status.wasApproved : Status → Bool
  | .approved | .executed | .failed => true
  | .pending | .rejected | .expired => false

/-- The request won the approval and is to write how it ended. -/
def Task.settles (id : String) : Task A → Bool
  | .readApproved k _ => k = id
  | .recordApproval a _ | .failUnrecorded a | .buildService a _ | .run a _ | .finish a _ _ => a.id = id
  | _ => false

/-- A request about to run holds the arguments its token is for. -/
def Task.faithful : Task A → Prop
  | .recordApproval a token | .buildService a token | .run a token => a.args = token.args
  | _ => True

/-- The request won an approval and its last update is still to come. -/
def Task.hasWon : Task A → Bool
  | .readApproved .. | .recordApproval .. | .failUnrecorded _ | .buildService .. | .run .. | .finish .. => true
  | _ => false

/-- No bulk expiry is written over a row that was approved meanwhile, the service that runs an
approved tool can be built, and what the tool answers can be stored. -/
def Task.undisturbed (s : State A) (w : Answer) : Task A → Prop
  | .expireWaiting _ _ waiting =>
      w.ok = true → ∀ x ∈ waiting, ∀ st ∈ s.status x.id, st.wasApproved = false
  | .buildService .. => w.ok = true
  | .finish _ _ result => storable (truncate result) = true
  | _ => True

/-- And no request that won its row ends before its last update. -/
def Undisturbed (s : State A) : Step A → Prop
  | .statement i w => ∀ t ∈ s.tasks[i]?, t.undisturbed s w
  | .raise i => ∀ t ∈ s.tasks[i]?, t.hasWon = false
  | _ => True

instance (s : State A) (w : Answer) : (t : Task A) → Decidable (t.undisturbed s w)
  | .expireWaiting _ _ waiting => inferInstanceAs (Decidable
      (w.ok = true → ∀ x ∈ waiting, ∀ st ∈ s.status x.id, st.wasApproved = false))
  | .buildService .. => inferInstanceAs (Decidable (w.ok = true))
  | .finish _ _ result => inferInstanceAs (Decidable (storable (truncate result) = true))
  | .readWaiting _ | .insert _ | .list .. | .load .. | .expireIfDue .. | .expire .. | .reload ..
  | .requireAuditToReject _ | .reject _ | .sign _ | .requireAudit .. | .approve ..
  | .readApproved .. | .recordApproval .. | .failUnrecorded _ | .run .. | .answer _
  | .ended _ => isTrue trivial

instance (s : State A) : (x : Step A) → Decidable (Undisturbed s x)
  | .statement i w => inferInstanceAs (Decidable (∀ t ∈ s.tasks[i]?, t.undisturbed s w))
  | .raise i => inferInstanceAs (Decidable (∀ t ∈ s.tasks[i]?, t.hasWon = false))
  | .clock _ | .request _ => isTrue trivial

/-- What a run knows of what came before it. -/
def Rightful (earlier : List (Event A)) (r : Run A) : Prop :=
  (∀ st, Event.closed r.approvalId st ∉ earlier) ∧ r.args = r.token.args

/-- The invariant of every undisturbed run. -/
structure Settled (s : State A) : Prop where
  won : ∀ id, Event.won id ∈ s.log ↔ ∃ st, s.status id = some st ∧ st.wasApproved = true
  closed : ∀ id st, Event.closed id st ∈ s.log → Event.won id ∉ s.log
  settles : ∀ id, s.tasks.countP (Task.settles id) = if s.status id = some .approved then 1 else 0
  args : ∀ c a, .created c ∈ s.log → s.rows.get c.id = some a → a.status = .approved →
    a.args = c.args
  tasks : ∀ t ∈ s.tasks, t.faithful
  rightful : BeforeRuns Rightful s.log

section Steps

theorem settles_of_hasWon (h : t.hasWon = false) (id : String) : t.settles id = false := by
  cases t <;> first | rfl | cases h

/-- One request moves on while the table and the log change. -/
theorem Settled.next (h : Settled s) (hi : s.tasks[i]? = some t) (htasks : s'.tasks = s.tasks)
    (hwon : ∀ id, Event.won id ∈ s'.log ↔ ∃ st, s'.status id = some st ∧ st.wasApproved = true)
    (hclosed : ∀ id st, Event.closed id st ∈ s'.log → Event.won id ∉ s'.log)
    (hsettles : ∀ id, (if s.status id = some .approved then 1 else 0) +
        (if t'.settles id = true then 1 else 0) =
      (if s'.status id = some .approved then 1 else 0) + if t.settles id = true then 1 else 0)
    (hargs : ∀ c a, .created c ∈ s'.log → s'.rows.get c.id = some a → a.status = .approved →
      a.args = c.args)
    (ht' : t'.faithful) (hrightful : BeforeRuns Rightful s'.log) : Settled (s'.put i t') := by
  have hi' : s'.tasks[i]? = some t := htasks ▸ hi
  constructor
  · exact hwon
  · exact hclosed
  · intro id
    have hput : (s'.put i t').tasks.countP (Task.settles id) + _ = _ := countP_put hi'
    have hold := h.settles id
    have hnew := hsettles id
    rw [htasks] at hput
    show _ = if s'.status id = some .approved then 1 else 0
    omega
  · exact hargs
  · intro x hx
    rcases mem_put hx with hx | rfl
    · exact h.tasks x (htasks ▸ hx)
    · exact ht'
  · exact hrightful

theorem Settled.put (h : Settled s) (hi : s.tasks[i]? = some t)
    (hsame : ∀ id, t'.settles id = t.settles id) (ht' : t'.faithful) : Settled (s.put i t') :=
  h.next hi rfl h.won h.closed (fun id => by rw [hsame]) h.args ht' h.rightful

/-- An event that says nothing of what became of the approval. -/
theorem Settled.note (h : Settled s) (hi : s.tasks[i]? = some t) (he : e.neutral)
    (hsame : ∀ id, t'.settles id = t.settles id) (ht' : t'.faithful)
    (hrun : ∀ r, e = Event.ran r → Rightful s.log r) : Settled ((s.note e).put i t') := by
  have hwon (id : String) : Event.won id ∈ (s.note e).log ↔ Event.won id ∈ s.log := by
    unfold State.note
    cases e <;> simp_all [Event.neutral]
  have hclosed (id : String) (st : Status) : Event.closed id st ∈ (s.note e).log ↔
      Event.closed id st ∈ s.log := by
    unfold State.note
    cases e <;> simp_all [Event.neutral]
  have hcreated (c : ToolApproval A) : .created c ∈ (s.note e).log ↔ .created c ∈ s.log := by
    unfold State.note
    cases e <;> simp_all [Event.neutral]
  have htasks : (s.note e).tasks = s.tasks := rfl
  apply h.next hi htasks
  · intro id
    rw [hwon]
    exact h.won id
  · intro id st
    rw [hclosed, hwon]
    exact h.closed id st
  · intro id
    rw [hsame]
    rfl
  · intro c a hc
    exact h.args c a ((hcreated c).mp hc)
  · exact ht'
  · exact h.rightful.cons hrun

/-- A pending row is rejected or expired. -/
theorem Settled.close (h : Settled s) (hi : s.tasks[i]? = some t) (hmoved : Moved s s' id f a)
    (ha : a.status = .pending) (hst : f.status = .rejected ∨ f.status = .expired)
    (hsame : ∀ id, t'.settles id = t.settles id) (ht' : t'.faithful) :
    Settled ((s'.note (Event.closed id f.status)).put i t') := by
  have hlog : (s'.note (Event.closed id f.status)).log = [Event.closed id f.status] ++ s.log := hmoved.note _
  have hbefore : s.status id = some .pending := ha ▸ State.status_of_get hmoved.read
  have hafter : f.status.wasApproved = false := by rcases hst with hst | hst <;> rw [hst] <;> rfl
  have hne : f.status ≠ .approved := by rcases hst with hst | hst <;> rw [hst] <;> simp
  have hnotWon : Event.won id ∉ s.log := by
    rw [h.won]
    rintro ⟨st, hstatus, happroved⟩
    rw [hbefore] at hstatus
    obtain rfl := Option.some.inj hstatus
    cases happroved
  have hstatus (k : String) : (s'.note (Event.closed id f.status)).status k =
      if k = id then some f.status else s.status k := hmoved.status k
  have htasks : (s'.note (Event.closed id f.status)).tasks = s.tasks := hmoved.tasks
  apply h.next hi htasks
  · intro k
    rw [hlog, hstatus]
    by_cases hk : k = id
    · simp [hk, hafter, hnotWon]
    · simpa [hk] using h.won k
  · intro k st
    rw [hlog]
    simp only [List.mem_append, List.mem_singleton, Event.closed.injEq, reduceCtorEq, false_or]
    rintro (⟨rfl, -⟩ | hclosed)
    · exact hnotWon
    · exact h.closed k st hclosed
  · intro k
    rw [hsame, hstatus]
    by_cases hk : k = id
    · simp [hk, hbefore, hne]
    · simp [hk]
  · intro c b hc hb hb'
    rw [hlog] at hc
    have hb : s'.rows.get c.id = some b := hb
    rw [hmoved.rows] at hb
    split at hb
    · obtain rfl := Option.some.inj hb
      exact absurd hb' hne
    · exact h.args c b (by simpa using hc) hb hb'
  · exact ht'
  · rw [hlog]
    exact h.rightful.cons (by simp)

/-- The row is approved, and its request is to write how it ended. -/
theorem Settled.win (h : Settled s) (hsound : Sound s) (hi : s.tasks[i]? = some t)
    (hmoved : Moved s s' id f a) (ha : a.status = .pending) (hst : f.status = .approved)
    (hargs : f.args = none) (hnot : ∀ k, t.settles k = false)
    (hgains : ∀ k, t'.settles k = decide (id = k)) (ht' : t'.faithful) :
    Settled ((s'.note (Event.won id)).put i t') := by
  have hlog : (s'.note (Event.won id)).log = [Event.won id] ++ s.log := hmoved.note _
  have hbefore : s.status id = some .pending := ha ▸ State.status_of_get hmoved.read
  have hnotLeft : ¬ Left s.log id := by
    rw [hsound.table.left]
    rintro ⟨st, hstatus, hne⟩
    rw [hbefore] at hstatus
    exact hne (Option.some.inj hstatus).symm
  have hstatus (k : String) : (s'.note (Event.won id)).status k =
      if k = id then some .approved else s.status k := hst ▸ hmoved.status k
  have htasks : (s'.note (Event.won id)).tasks = s.tasks := hmoved.tasks
  apply h.next hi htasks
  · intro k
    rw [hlog, hstatus]
    by_cases hk : k = id
    · simp [hk, Status.wasApproved]
    · simpa [hk] using h.won k
  · intro k st hclosed hwon
    rw [hlog] at hclosed hwon
    have hclosed' : Event.closed k st ∈ s.log := by simpa using hclosed
    rcases List.mem_append.mp hwon with hwon | hwon
    · obtain rfl := Event.won.inj (List.mem_singleton.mp hwon)
      exact hnotLeft (Or.inr ⟨st, hclosed'⟩)
    · exact h.closed k st hclosed' hwon
  · intro k
    rw [hgains, hnot, hstatus]
    by_cases hk : k = id
    · simp [hk, hbefore]
    · simp [hk, Ne.symm hk]
  · intro c b hc hb hb'
    rw [hlog] at hc
    have hc : .created c ∈ s.log := by simpa using hc
    have hb : s'.rows.get c.id = some b := hb
    rw [hmoved.rows] at hb
    split at hb
    · next hk =>
      obtain rfl := Option.some.inj hb
      obtain ⟨c', hc', hcall, hpending⟩ := hsound.table.known id a hmoved.read
      have hid : a.id = id := Table.key_of_get hmoved.read
      obtain rfl : c' = c := hsound.table.unique c' c hc' hc (hcall.key.symm.trans (hid.trans hk.symm))
      rw [ToolApproval.set, hargs]
      exact hpending ha
    · exact h.args c b hc hb hb'
  · exact ht'
  · rw [hlog]
    exact h.rightful.cons (by simp)

/-- The request that won the approval writes how it ended. -/
theorem Settled.finish (h : Settled s) (hi : s.tasks[i]? = some t) (hmoved : Moved s s' id f a)
    (ha : a.status = .approved) (hst : f.status = .executed ∨ f.status = .failed)
    (hloses : ∀ k, t.settles k = decide (id = k)) (hnot : ∀ k, t'.settles k = false)
    (ht' : t'.faithful) : Settled (s'.put i t') := by
  have hbefore : s.status id = some .approved := ha ▸ State.status_of_get hmoved.read
  have hafter : f.status.wasApproved = true := by rcases hst with hst | hst <;> rw [hst] <;> rfl
  have hne : f.status ≠ .approved := by rcases hst with hst | hst <;> rw [hst] <;> simp
  have happroved : Status.approved.wasApproved = true := rfl
  apply h.next hi hmoved.tasks
  · intro k
    rw [hmoved.log, hmoved.status, h.won]
    by_cases hk : k = id
    · simp [hk, hbefore, hafter, happroved]
    · simp [hk]
  · rw [hmoved.log]
    exact h.closed
  · intro k
    rw [hloses, hnot, hmoved.status]
    by_cases hk : k = id
    · simp [hk, hbefore, hne]
    · simp [hk, Ne.symm hk]
  · intro c b hc hb hb'
    rw [hmoved.log] at hc
    rw [hmoved.rows] at hb
    split at hb
    · obtain rfl := Option.some.inj hb
      exact absurd hb' hne
    · exact h.args c b hc hb hb'
  · exact ht'
  · rw [hmoved.log]
    exact h.rightful

/-- Rows that no request approved are set to expired. -/
theorem Settled.expireRead (h : Settled s) (hi : s.tasks[i]? = some t) {now : ℤ}
    {waiting : List (ToolApproval A)}
    (hfree : ∀ x ∈ waiting, ∀ st, s.status x.id = some st → st.wasApproved = false)
    (hsame : ∀ id, t'.settles id = t.settles id) (ht' : t'.faithful) :
    Settled ((s.expireRead kept now waiting).put i t') := by
  set s' := s.expireRead kept now waiting with hs'
  have hlog : s'.log = waiting.map (fun w => Event.closed w.id .expired) ++ s.log := rfl
  have hstatus (k : String) : s'.status k =
      (s.status k).map fun st => if waiting.any fun w => w.id = k then .expired else st :=
    status_expireRead k
  have hread (k : String) (hk : (waiting.any fun w => w.id = k) = true) (st : Status)
      (hst : s.status k = some st) : st.wasApproved = false := by
    obtain ⟨w, hw, hkey⟩ := List.any_eq_true.mp hk
    obtain rfl : w.id = k := of_decide_eq_true hkey
    exact hfree w hw st hst
  have hwon (k : String) : Event.won k ∈ s'.log ↔ Event.won k ∈ s.log := by
    rw [hlog]
    simp
  have htasks : s'.tasks = s.tasks := rfl
  apply h.next hi htasks
  · intro k
    rw [hwon, hstatus, h.won]
    cases hst : s.status k with
    | none => simp
    | some st =>
      by_cases hk : (waiting.any fun w => w.id = k) = true
      · have hexpired : Status.expired.wasApproved = false := rfl
        simp [hk, hread k hk st hst, hexpired]
      · simp [hk]
  · intro k st hclosed
    rw [hwon]
    rw [hlog] at hclosed
    rcases List.mem_append.mp hclosed with hnow | hthen
    · obtain ⟨w, hw, hevent⟩ := List.mem_map.mp hnow
      obtain ⟨rfl, -⟩ := Event.closed.inj hevent
      rw [h.won]
      rintro ⟨st, hst, happroved⟩
      rw [hfree w hw st hst] at happroved
      cases happroved
    · exact h.closed k st hthen
  · intro k
    rw [hsame, hstatus]
    cases hst : s.status k with
    | none => simp
    | some st =>
      by_cases hk : (waiting.any fun w => w.id = k) = true
      · have hne : st ≠ .approved := by
          rintro rfl
          cases hread k hk .approved hst
        simp [hk, hne]
      · simp [hk]
  · intro c b hc hb hb'
    have hc : .created c ∈ s.log := by
      rw [hlog] at hc
      simpa using hc
    rw [hs', get_expireRead, Option.map_eq_some_iff] at hb
    obtain ⟨a, ha, rfl⟩ := hb
    split at hb'
    · cases hb'
    · next hk =>
      rw [if_neg hk]
      exact h.args c a hc ha hb'
  · exact ht'
  · rw [hlog]
    apply h.rightful.append
    simp

theorem Settled.create (h : Settled s) (hsound : Sound s) (hi : s.tasks[i]? = some t)
    {r : NewApproval A} (hnew : Created s s' id r a)
    (hsame : ∀ id, t'.settles id = t.settles id) (ht' : t'.faithful) : Settled (s'.put i t') := by
  have hfresh : s.status id = none := by simp [State.status, hnew.fresh]
  have hnotLeft : ¬ Left s.log id := by
    rw [hsound.table.left, hfresh]
    simp
  have hwon (k : String) : Event.won k ∈ s'.log ↔ Event.won k ∈ s.log := by
    rw [hnew.log]
    simp
  have hpending : Status.pending.wasApproved = false := rfl
  apply h.next hi hnew.tasks
  · intro k
    rw [hwon, hnew.status, h.won]
    by_cases hk : k = id
    · simp [hk, hfresh, hpending]
    · simp [hk]
  · intro k st hclosed
    rw [hwon]
    rw [hnew.log] at hclosed
    exact h.closed k st (by simpa using hclosed)
  · intro k
    rw [hsame, hnew.status]
    by_cases hk : k = id
    · simp [hk, hfresh]
    · simp [hk]
  · intro c b hc hb hb'
    rw [hnew.rows] at hb
    split at hb
    · obtain rfl := Option.some.inj hb
      rw [hnew.pending] at hb'
      cases hb'
    · next hk =>
      rw [hnew.log] at hc
      rcases List.mem_append.mp hc with hnow | hthen
      · obtain rfl := Event.created.inj (List.mem_singleton.mp hnow)
        exact absurd hnew.key hk
      · exact h.args c b hthen hb hb'
  · exact ht'
  · rw [hnew.log]
    exact h.rightful.cons (by simp)

theorem settles_proceed (k : Intent) (a : ToolApproval A) (id : String) :
    (proceed k a).settles id = false := by
  unfold proceed
  cases k <;> dsimp only <;> first | rfl | (split <;> rfl)

theorem faithful_proceed (k : Intent) (a : ToolApproval A) : (proceed k a).faithful := by
  unfold proceed
  cases k <;> dsimp only <;> first | trivial | (split <;> trivial)

/-- A request that is to settle its approval finds the row approved. -/
theorem Settled.approved (h : Settled s) (hi : s.tasks[i]? = some t) (ht : t.settles id = true) :
    s.status id = some .approved := by
  have hcount := h.settles id
  have hpos : 0 < s.tasks.countP (Task.settles id) :=
    List.countP_pos_iff.mpr ⟨t, List.mem_of_getElem? hi, ht⟩
  by_contra hne
  rw [if_neg hne] at hcount
  omega

theorem Settled.not_none (h : Settled s) (hi : s.tasks[i]? = some t) (ht : t.settles id = true) :
    s.transition id .approved f ≠ none := fun hnone => transition_none hnone (h.approved hi ht)

/-- One step of a request keeps the invariant. -/
theorem Settled.advance (h : Settled s) (hsound : Sound s) (w : Answer)
    (hi : s.tasks[i]? = some t) (hfree : t.undisturbed s w) :
    Settled (s.advance kept i w t) := by
  have ht : TaskOk s.log t := hsound.tasks t (List.mem_of_getElem? hi)
  have hfaithful : t.faithful := h.tasks t (List.mem_of_getElem? hi)
  have hend (hnot : ∀ id, t.settles id = false) (r : Response A) : Settled (s.put i (.ended r)) :=
    h.put hi (fun id => (hnot id).symm) trivial
  have hproceed (hnot : ∀ id, t.settles id = false) (k : Intent) (a : ToolApproval A) :
      Settled (s.put i (proceed k a)) :=
    h.put hi (fun id => by rw [settles_proceed, hnot]) (faithful_proceed k a)
  cases t with
  | readWaiting r => exact h.put hi (fun _ => rfl) trivial
  | expireWaiting r now waiting =>
    dsimp only [State.advance]
    split
    · next hok => exact h.expireRead hi (hfree hok) (fun _ => rfl) trivial
    · exact h.put hi (fun _ => rfl) trivial
  | insert r =>
    dsimp only [State.advance]
    split
    · next s' a hnew => exact h.create hsound hi (create_some hnew) (fun _ => rfl) trivial
    · exact hend (fun _ => rfl) _
  | list sessionId userId => exact hend (fun _ => rfl) _
  | load k id userId =>
    dsimp only [State.advance]
    split
    · split
      · exact h.put hi (fun _ => rfl) trivial
      · exact hend (fun _ => rfl) _
    · exact hend (fun _ => rfl) _
  | expireIfDue k a =>
    dsimp only [State.advance]
    split
    · exact h.put hi (fun _ => rfl) trivial
    · cases k with
      | get => exact hproceed (fun _ => rfl) .get a
      | reject => exact hproceed (fun _ => rfl) .reject a
      | approve =>
        dsimp only
        split
        · exact h.note hi trivial (settles_proceed .approve a) (faithful_proceed .approve a)
            (by simp)
        · exact hproceed (fun _ => rfl) .approve a
  | expire k a =>
    dsimp only [State.advance]
    split
    · next s' hmove =>
      obtain ⟨b, hpending, hmoved⟩ := transition_some hmove
      exact h.close hi hmoved hpending (Or.inr rfl) (fun _ => rfl) trivial
    · exact h.put hi (fun _ => rfl) trivial
  | reload k id =>
    dsimp only [State.advance]
    split
    · exact hproceed (fun _ => rfl) k _
    · exact hend (fun _ => rfl) _
  | requireAuditToReject a =>
    dsimp only [State.advance]
    split
    · exact h.put hi (fun _ => rfl) trivial
    · exact hend (fun _ => rfl) _
  | reject a =>
    dsimp only [State.advance]
    split
    · next s' hmove =>
      obtain ⟨b, hpending, hmoved⟩ := transition_some hmove
      exact h.close hi hmoved hpending (Or.inl rfl) (fun _ => rfl) trivial
    · exact hend (fun _ => rfl) _
  | sign a =>
    dsimp only [State.advance]
    split
    · exact h.put hi (fun _ => rfl) trivial
    · exact hend (fun _ => rfl) _
  | requireAudit a token =>
    dsimp only [State.advance]
    split
    · exact h.put hi (fun _ => rfl) trivial
    · exact hend (fun _ => rfl) _
  | approve a token =>
    dsimp only [State.advance]
    split
    · next s' hmove =>
      obtain ⟨b, hpending, hmoved⟩ := transition_some hmove
      exact h.win hsound hi hmoved hpending rfl rfl (fun _ => rfl) (fun _ => rfl) trivial
    · exact hend (fun _ => rfl) _
  | readApproved id token =>
    dsimp only [State.advance]
    have happroved := h.approved hi (decide_eq_true rfl : Task.settles id (.readApproved id token) = true)
    split
    · next b hb =>
      obtain ⟨c, hauthorized⟩ := ht
      have hkey : b.id = id := Table.key_of_get hb
      rw [State.status_of_get hb] at happroved
      have hargs : b.args = token.args := by
        rw [hauthorized.token]
        exact h.args c b hauthorized.created (hauthorized.key ▸ hb) (Option.some.inj happroved)
      exact h.put hi (fun k => by simp [Task.settles, hkey]) hargs
    · next hnone => simp [State.status, hnone] at happroved
  | recordApproval a token =>
    dsimp only [State.advance]
    split
    · exact h.put hi (fun _ => rfl) hfaithful
    · exact h.put hi (fun _ => rfl) trivial
  | failUnrecorded a =>
    dsimp only [State.advance]
    cases hmove : s.transition a.id .approved _ with
    | some s' =>
      obtain ⟨b, happroved, hmoved⟩ := transition_some hmove
      exact h.finish hi hmoved happroved (Or.inr rfl) (fun _ => rfl) (fun _ => rfl) trivial
    | none => exact absurd hmove (h.not_none hi (decide_eq_true rfl))
  | buildService a token =>
    have hok : w.ok = true := hfree
    dsimp only [State.advance]
    rw [if_pos hok]
    exact h.put hi (fun _ => rfl) hfaithful
  | run a token =>
    dsimp only [State.advance]
    split
    · exact h.put hi (fun _ => rfl) trivial
    · obtain ⟨c, hauthorized, hcall⟩ := ht
      have hclosed (st : Status) : Event.closed a.id st ∉ s.log := fun hclosed =>
        h.closed a.id st hclosed (hauthorized.key ▸ hauthorized.won)
      apply h.note (e := .ran ⟨a.id, a.cluster, a.tool, a.args, token⟩) hi trivial
      · intro _
        rfl
      · trivial
      · intro r hr
        obtain rfl := Event.ran.inj hr
        exact ⟨hclosed, hfaithful⟩
  | finish a st result =>
    have hstored : storable (truncate result) = true := hfree
    dsimp only [State.advance]
    rw [if_pos hstored]
    split
    · next s' hmove =>
      obtain ⟨b, happroved, hmoved⟩ := transition_some hmove
      exact h.finish hi hmoved happroved ht (fun _ => rfl) (fun _ => rfl) trivial
    · next hnone => exact absurd hnone (h.not_none hi (decide_eq_true rfl))
  | answer id =>
    dsimp only [State.advance]
    split
    · exact hend (fun _ => rfl) _
    · exact hend (fun _ => rfl) _
  | ended r => exact hend (fun _ => rfl) r

theorem Settled.step (h : Settled s) (hsound : Sound s) (x : Step A) (hfree : Undisturbed s x) :
    Settled (step kept s x) := by
  cases x with
  | clock n => exact ⟨h.won, h.closed, h.settles, h.args, h.tasks, h.rightful⟩
  | request r =>
    have hcount (id : String) : (s.tasks ++ [r.task]).countP (Task.settles id) =
        s.tasks.countP (Task.settles id) := by
      cases r <;> simp [Request.task, Task.settles]
    constructor
    · exact h.won
    · exact h.closed
    · intro id
      exact (hcount id).trans (h.settles id)
    · exact h.args
    · intro t ht
      rcases List.mem_append.mp ht with ht | ht
      · exact h.tasks t ht
      · obtain rfl := List.mem_singleton.mp ht
        cases r <;> trivial
    · exact h.rightful
  | statement i w =>
    dsimp only [ToolApprovals.step]
    split
    · next t hi => exact h.advance hsound w hi (hfree t hi)
    · exact h
  | raise i =>
    dsimp only [ToolApprovals.step]
    cases hi : s.tasks[i]? with
    | some t =>
      exact h.put hi (fun id => (settles_of_hasWon (hfree t hi) id).symm) trivial
    | none => exact (put_beyond hi _).symm ▸ h

theorem settled_start (now : ℤ) : Settled (State.start now : State A) := by
  have hnone (id : String) : (State.start now : State A).status id = none := rfl
  constructor
  · intro id
    rw [hnone]
    simp [State.start]
  · simp [State.start]
  · intro id
    rw [hnone]
    simp [State.start]
  · simp [State.start]
  · simp [State.start]
  · intro later r earlier hlog
    simp [State.start] at hlog

theorem settled_exec (now : ℤ) {steps : List (Step A)}
    (h : Along (step kept) Undisturbed (State.start now) steps) :
    Settled (exec (step kept) (State.start now) steps) := by
  have hboth : Sound (exec (step kept) (State.start now) steps) ∧
      Settled (exec (step kept) (State.start now) steps) := by
    apply exec_invariant (I := fun s => Sound s ∧ Settled s) (G := Undisturbed)
    · exact fun s x hs hx => ⟨hs.1.step x, hs.2.step hs.1 x hx⟩
    · exact ⟨sound_start now, settled_start now⟩
    · exact h
  exact hboth.2

end Steps

def Task.isEnded : Task A → Bool
  | .ended _ => true
  | _ => false

/-- What an approval says of its run: the tool runs at most once, only after an approve request
of its own user found it pending and not expired, never after it was rejected or expired, with the
arguments stored at creation; and once all requests have ended, the stored status is `executed` or
`failed` exactly when an approve request won the row. -/
structure Says (s : State A) : Prop where
  once : ∀ id, s.log.countP (Event.isRun id) ≤ 1
  run : ∀ later r earlier, s.log = later ++ Event.ran r :: earlier →
    ∃ c, .created c ∈ earlier ∧ c.id = r.approvalId ∧ .found c.id c.userId ∈ earlier ∧
      (∀ st, Event.closed c.id st ∉ earlier) ∧ r.cluster = c.cluster ∧ r.tool = c.tool ∧ r.args = c.args
  ended : (∀ t ∈ s.tasks, t.isEnded = true) → ∀ id st, s.status id = some st →
    (st = .executed ∨ st = .failed ↔ Event.won id ∈ s.log)

theorem Settled.toSays (h : Settled s) (hsound : Sound s) : Says s := by
  constructor
  · intro id
    have honce := hsound.once id
    omega
  · intro later r earlier hlog
    obtain ⟨c, hauthorized, hcluster, htool⟩ := hsound.entitled later r earlier hlog
    obtain ⟨hclosed, hargs⟩ := h.rightful later r earlier hlog
    refine ⟨c, hauthorized.created, hauthorized.key.symm, hauthorized.found, ?_, hcluster, htool, ?_⟩
    · rw [← hauthorized.key]
      exact hclosed
    · rw [hargs, hauthorized.token]
      rfl
  · intro hended id st hst
    have hcount : s.tasks.countP (Task.settles id) = 0 := by
      rw [List.countP_eq_zero]
      intro t ht
      have hend := hended t ht
      cases t <;> simp_all [Task.settles, Task.isEnded]
    have hne : st ≠ .approved := by
      rintro rfl
      rw [h.settles, if_pos hst] at hcount
      cases hcount
    rw [h.won, hst]
    cases st <;> simp_all [Status.wasApproved]

/-- Every run of the requests in which no bulk expiry overwrites an approved row and no request that
won its row ends before its last update. -/
theorem approvals_say (kept : A → A) (now : ℤ) (steps : List (Step A))
    (h : Along (step kept) Undisturbed (State.start now) steps) :
    Says (exec (step kept) (State.start now) steps) :=
  (settled_exec now h).toSays (sound_exec now steps)

section Runs

/-- A restart that a user was asked to approve. -/
def restart : NewApproval (List (String × String)) :=
  ⟨"s1", "u1", "prod", "k8s_rollout_restart", [("namespace", "shop"), ("resource_name", "web")], 600⟩

def goesOn (text : String) : Answer := ⟨true, none, text, []⟩

/-- The card is made and its user approves it: up to the update that wins the row. -/
def askAndApprove : List (Step (List (String × String))) :=
  [.request (.create restart), .statement 0 (goesOn ""), .statement 0 (goesOn ""),
    .statement 0 (goesOn "a1"), .request (.one .approve "a1" "u1"), .statement 1 (goesOn ""),
    .statement 1 (goesOn ""), .statement 1 (goesOn ""), .statement 1 (goesOn "")]

/-- The user approves in time and the tool runs. -/
def approvedInTime : List (Step (List (String × String))) :=
  askAndApprove ++ [Step.statement 1 (goesOn ""), .statement 1 (goesOn ""), .statement 1 (goesOn ""),
    .statement 1 (goesOn ""), .statement 1 (goesOn "restarted"), .statement 1 (goesOn ""),
    .statement 1 (goesOn "")]

theorem approvals_say_restart :
    Says (exec (step fun args => args) (State.start 0) approvedInTime) :=
  approvals_say (fun args => args) 0 approvedInTime (by decide)

/-- Another card is made meanwhile: the approval has just come due and is read as waiting, then it
is approved, then the expiry that was read is written. -/
def approvedOverwritten : List (Step (List (String × String))) :=
  askAndApprove ++ [Step.clock 601, .request (.create restart), .statement 2 (goesOn ""),
    .statement 1 (goesOn ""), .statement 1 (goesOn ""), .statement 2 (goesOn ""),
    .statement 1 (goesOn ""), .statement 1 (goesOn ""), .statement 1 (goesOn "restarted"),
    .statement 1 (goesOn ""), .statement 2 (goesOn "a2")]

theorem expiry_overwrites_approval :
    ¬ Says (exec (step fun args => args) (State.start 0) approvedOverwritten) := by
  intro h
  have hended : ∀ t ∈ (exec (step fun args => args) (State.start 0) approvedOverwritten).tasks,
      t.isEnded = true := by decide
  have hstatus : (exec (step fun args => args) (State.start 0) approvedOverwritten).status "a1" =
      some .expired := by decide
  have hwon : Event.won "a1" ∈ (exec (step fun args => args) (State.start 0) approvedOverwritten).log :=
    List.mem_of_getElem? (i := 3) rfl
  rcases (h.ended hended "a1" .expired hstatus).mpr hwon with h | h <;> cases h

end Runs

end Kubeast.ToolApprovals
