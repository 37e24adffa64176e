import Kubeast.AccessRequests.Permanence

/-! Requests and the grants behind them, under every writer of the grant row: the admin
handlers, whose closing of the request is a second statement outside the transaction, and
the group sync of a sign-in (`syncClusterGrants` in `handler/oidc.go`). -/
namespace Kubeast
open Text Permissions Transition

/-- A group sync under way: the roles it read, what it decided from them, and whether it took
a grant away. -/
structure Sync where
  userID : String
  current : Dict String String
  sets : List (String × String)
  deletes : List String
  lost : Bool

/-- The tables, the `EndApprovedRequests` statements still to run, and the syncs under way. -/
structure LinkState where
  db : Database
  ending : List (String × String × EndReason)
  syncs : List Sync

inductive LinkAction
  | grant (a : GrantAction)
  | endApproved (userID clusterID : String) (reason : EndReason)
  | expirePending (before : ℤ)
  | syncRead (userID : String) (want : Dict String String)
  | syncSet (i : ℕ) (clusterID roleName : String)
  | syncDelete (i : ℕ) (clusterID : String)
  | syncDone (i : ℕ)

/-- What a sync decides: clusters held by a temporary grant are left alone. -/
def readSync (db : Database) (now : ℤ) (userID : String) (want : Dict String String) : Sync :=
  let current := db.listUserClusterRoleNames now userID
  let temporary := ((db.listUserClusterGrants now userID).filter fun g =>
    g.expiresAt.isSome).map UserClusterGrant.clusterId
  { userID := userID
    current := current
    sets := want.rows.filter fun w => !temporary.contains w.1 && current.index w.1 != w.2
    deletes := (current.rows.map Prod.fst).filter fun c =>
      !temporary.contains c && (want.get c).isNone
    lost := false }

/-- One group's grant; an unknown role or an unregistered cluster is passed over. -/
def syncSet (db : Database) (sync : Sync) (clusterID roleName : String) :
    Database × Sync :=
  let rest := { sync with sets := sync.sets.erase (clusterID, roleName) }
  match db.getRoleByName roleName with
  | none => (db, rest)
  | some role =>
    match db.setUserClusterRole sync.userID clusterID role.id [] with
    | .error _ => (db, rest)
    | .ok db' => (db', { rest with lost := sync.lost || sync.current.index clusterID != "" })

/-- What `EndApprovedRequests` an admin's statement leaves to run. -/
def endingAfter (db : Database) : GrantAction → List (String × String × EndReason)
  | .adminSet userID clusterID roleID namespaces =>
      match db.setUserClusterRoleEndingTokens userID clusterID roleID namespaces with
      | .ok _ => [(userID, clusterID, .superseded)]
      | .error _ => []
  | .adminDelete userID clusterID =>
      if (db.deleteUserClusterRoleEndingTokens userID clusterID).2
        then [(userID, clusterID, .revoked)] else []
  | _ => []

def linkStep (tables : CharTables) (cfg : AccessRequestsConfig) (s : LinkState) :
    ℤ × LinkAction → LinkState
  | (now, .grant a) =>
      { s with db := grantStep tables cfg s.db (now, a), ending := endingAfter s.db a ++ s.ending }
  | (now, .endApproved userID clusterID reason) =>
      if (userID, clusterID, reason) ∈ s.ending then
        { s with
          db := s.db.endApprovedRequests userID clusterID reason now
          ending := s.ending.erase (userID, clusterID, reason) }
      else s
  | (now, .expirePending before) => { s with db := s.db.expirePendingRequests before now }
  | (now, .syncRead userID want) =>
      { s with syncs := s.syncs ++ [readSync s.db now userID want] }
  | (_, .syncSet i clusterID roleName) =>
      match s.syncs[i]? with
      | none => s
      | some sync =>
        if (clusterID, roleName) ∈ sync.sets then
          let (db, rest) := syncSet s.db sync clusterID roleName
          { s with db := db, syncs := s.syncs.set i rest }
        else s
  | (_, .syncDelete i clusterID) =>
      match s.syncs[i]? with
      | none => s
      | some sync =>
        if sync.sets = [] ∧ clusterID ∈ sync.deletes then
          { s with
            db := (s.db.deleteUserClusterRole sync.userID clusterID).1
            syncs := s.syncs.set i
              { sync with deletes := sync.deletes.erase clusterID, lost := true } }
        else s
  | (_, .syncDone i) =>
      match s.syncs[i]? with
      | none => s
      | some sync =>
        if sync.sets = [] ∧ sync.deletes = [] then
          { s with
            db := if sync.lost then s.db.endTokens sync.userID else s.db
            syncs := s.syncs.eraseIdx i }
        else s

def rowTemporary (db : Database) (k : String × String) : Bool :=
  (db.grants.get k).any fun g => g.expiresAt.isSome

/-- The pair whose grant or approved requests a step would overwrite. -/
def overwrites (s : LinkState) : LinkAction → Option (String × String)
  | .grant (.approve id _ _) =>
      ((s.db.requests.get id).filter fun q => q.status == .pending).map fun q =>
        (q.userId, q.clusterId)
  | .endApproved userID clusterID _ => some (userID, clusterID)
  | .syncSet i clusterID _ => s.syncs[i]?.map fun sync => (sync.userID, clusterID)
  | .syncDelete i clusterID => s.syncs[i]?.map fun sync => (sync.userID, clusterID)
  | _ => none

/-- A step that approves, closes or syncs over a temporary grant. -/
def overwritesTemporary (s : LinkState) (a : ℤ × LinkAction) : Bool :=
  (overwrites s a.2).any (rowTemporary s.db)

/-- The request is stored and approved. -/
def Database.IsApproved (db : Database) (q : AccessRequest) : Prop :=
  db.requests.get q.id = some q ∧ q.status = .approved

/-- The row of the request's pair is temporary and carries its id. -/
def Database.Carries (db : Database) (q : AccessRequest) : Prop :=
  ∃ g, db.grants.get (q.userId, q.clusterId) = some g ∧ g.expiresAt ≠ none ∧
    g.requestId = some q.id

/-- Every temporary row carries an approved request of its pair, and every approved request
is carried by its row or about to be closed. -/
structure Linked (s : LinkState) : Prop where
  carried : ∀ k g, s.db.grants.get k = some g → g.expiresAt ≠ none →
    ∃ q, s.db.IsApproved q ∧ g.requestId = some q.id ∧ (q.userId, q.clusterId) = k
  approved : ∀ q, s.db.IsApproved q →
    s.db.Carries q ∨ ∃ reason, (q.userId, q.clusterId, reason) ∈ s.ending

section Approved
variable {db db' : Database} {q : AccessRequest} {id userId clusterId deciderID note : String}
  {now expiresAt : ℤ}

/-- An update that leaves nothing approved takes away the approved requests it meets. -/
theorem isApproved_of_get {p : AccessRequest → Prop} [DecidablePred p]
    {f : AccessRequest → AccessRequest} (hf : ∀ q, (f q).status ≠ .approved)
    (hget : ∀ r, db'.requests.get r = (db.requests.get r).map fun q => if p q then f q else q) :
    db'.IsApproved q ↔ db.IsApproved q ∧ ¬ p q := by
  rw [Database.IsApproved, hget, Option.map_eq_some_iff, Database.IsApproved]
  constructor
  · intro ⟨⟨x, hx, hxq⟩, hs⟩
    split at hxq
    · exact absurd (hxq ▸ hs) (hf x)
    · next hp =>
      subst hxq
      exact ⟨⟨hx, hs⟩, hp⟩
  · intro ⟨⟨hx, hs⟩, hp⟩
    exact ⟨⟨q, hx, if_neg hp⟩, hs⟩

theorem isApproved_updateRequests {p : AccessRequest → Bool} {f : AccessRequest → AccessRequest}
    (hk : AccessRequest.KeepsAsked f) (hf : ∀ q, (f q).status ≠ .approved) :
    (db.updateRequests p f hk).IsApproved q ↔ db.IsApproved q ∧ ¬ p q = true :=
  isApproved_of_get hf fun r => Database.get_updateRequests hk r

/-- An update of pending requests alone leaves the approved ones as they are. -/
theorem isApproved_of_pending {p : AccessRequest → Bool} {f : AccessRequest → AccessRequest}
    (hk : AccessRequest.KeepsAsked f) (hf : ∀ q, (f q).status ≠ .approved)
    (hp : ∀ q, p q = true → q.status = .pending) :
    (db.updateRequests p f hk).IsApproved q ↔ db.IsApproved q := by
  rw [isApproved_updateRequests hk hf, and_iff_left_iff_imp]
  rintro ⟨-, hs⟩ hpq
  rw [hp q hpq] at hs
  cases hs

theorem isApproved_cancel (h : db.cancelAccessRequest id userId now = .ok db') :
    db'.IsApproved q ↔ db.IsApproved q := by
  unfold Database.cancelAccessRequest at h
  dsimp only at h
  split_ifs at h
  obtain rfl := Except.ok.inj h
  exact isApproved_of_pending _ (by simp [AccessRequest.cancelled]) (by simp)

theorem isApproved_reject (h : db.rejectAccessRequest id deciderID note now = .ok db') :
    db'.IsApproved q ↔ db.IsApproved q := by
  unfold Database.rejectAccessRequest at h
  dsimp only at h
  split_ifs at h
  obtain rfl := Except.ok.inj h
  exact isApproved_of_pending _ (by simp [AccessRequest.rejected]) (by simp)

theorem isApproved_create {roleId : ℕ} {minutes : ℤ} {reason : String} {namespaces : List String}
    (h : db.createAccessRequest id userId clusterId roleId minutes reason namespaces now =
      .ok db') : db'.IsApproved q ↔ db.IsApproved q := by
  obtain ⟨-, hfree, x, hid, -, -, -, -, hs, hget⟩ := Database.createAccessRequest_ok h
  rw [Database.IsApproved, Database.IsApproved, hget]
  split
  · next hq =>
    rw [← hq, hfree]
    constructor
    · rintro ⟨hx, hqs⟩
      obtain rfl := Option.some.inj hx
      rw [hs] at hqs
      cases hqs
    · rintro ⟨hx, -⟩
      cases hx
  · exact Iff.rfl

theorem isApproved_approve
    (h : db.approveAccessRequest id deciderID note now = .ok (db', expiresAt)) :
    ∃ x, db.requests.get id = some x ∧ x.status = .pending ∧
      (∀ k, db'.grants.get k = if (x.userId, x.clusterId) = k
        then some (db.approvedGrant x expiresAt) else db.grants.get k) ∧
      db'.IsApproved (x.approved deciderID note now expiresAt) ∧
      ∀ q, q.id ≠ id → (db'.IsApproved q ↔ db.IsApproved q) := by
  obtain ⟨x, hx, hpending, -, hget, hreq⟩ := Database.approveAccessRequest_ok h
  have hid : x.id = id := Table.key_of_get hx
  refine ⟨x, hx, hpending, hget, ⟨?_, rfl⟩, fun q hq => ?_⟩
  · exact (hreq _).trans (if_pos hid.symm)
  · rw [Database.IsApproved, hreq, if_neg hq.symm, Database.IsApproved]

end Approved

section Preserved
variable {tables : CharTables} {cfg : AccessRequestsConfig} {s s' : LinkState}
  {k : String × String} {q : AccessRequest}

theorem not_carries_of_plain (hplain : rowTemporary s.db (q.userId, q.clusterId) = false) :
    ¬ s.db.Carries q := by
  rintro ⟨g, hg, htemp, -⟩
  rw [rowTemporary, hg, Option.any_some] at hplain
  exact htemp (by simpa using hplain)

/-- A step that touches neither grants nor approved requests. -/
theorem Linked.of_frame (h : Linked s) (hrow : ∀ k, s'.db.grants.get k = s.db.grants.get k)
    (hreq : ∀ q, s'.db.IsApproved q ↔ s.db.IsApproved q) (hend : s.ending ⊆ s'.ending) :
    Linked s' := by
  constructor
  · intro k g hg htemp
    rw [hrow] at hg
    obtain ⟨q, hq, hid, hk⟩ := h.carried k g hg htemp
    exact ⟨q, (hreq q).mpr hq, hid, hk⟩
  · intro q hq
    rcases h.approved q ((hreq q).mp hq) with ⟨g, hg, hrest⟩ | ⟨reason, hr⟩
    · exact Or.inl ⟨g, (hrow _).trans hg, hrest⟩
    · exact Or.inr ⟨reason, hend hr⟩

/-- A step that writes one pair's row, not as a temporary one, and either finds no temporary
row there or leaves its request to be closed. -/
theorem Linked.of_row (h : Linked s) (k₀ : String × String)
    (hrow : ∀ g, s'.db.grants.get k₀ = some g → g.expiresAt = none)
    (hother : ∀ k, k₀ ≠ k → s'.db.grants.get k = s.db.grants.get k)
    (hreq : ∀ q, s'.db.IsApproved q ↔ s.db.IsApproved q) (hend : s.ending ⊆ s'.ending)
    (hclosed : rowTemporary s.db k₀ = false ∨ ∃ reason, (k₀.1, k₀.2, reason) ∈ s'.ending) :
    Linked s' := by
  constructor
  · intro k g hg htemp
    by_cases hk : k₀ = k
    · subst hk
      exact absurd (hrow g hg) htemp
    · rw [hother k hk] at hg
      obtain ⟨q, hq, hid, hpair⟩ := h.carried k g hg htemp
      exact ⟨q, (hreq q).mpr hq, hid, hpair⟩
  · intro q hq
    have hold := h.approved q ((hreq q).mp hq)
    by_cases hk : k₀ = (q.userId, q.clusterId)
    · subst hk
      rcases hclosed with hplain | hclosed
      · rcases hold with hcarries | ⟨reason, hr⟩
        · exact absurd hcarries (not_carries_of_plain hplain)
        · exact Or.inr ⟨reason, hend hr⟩
      · exact Or.inr hclosed
    · rcases hold with ⟨g, hg, hrest⟩ | ⟨reason, hr⟩
      · exact Or.inl ⟨g, (hother _ hk).trans hg, hrest⟩
      · exact Or.inr ⟨reason, hend hr⟩

/-- An approval over a row that is not temporary. -/
theorem Linked.approve (h : Linked s) {id deciderID note : String} {now expiresAt : ℤ}
    {db' : Database}
    (hok : s.db.approveAccessRequest id deciderID note now = .ok (db', expiresAt))
    (hplain : ∀ x, s.db.requests.get id = some x → x.status = .pending →
      rowTemporary s.db (x.userId, x.clusterId) = false) :
    Linked { s with db := db' } := by
  obtain ⟨x, hx, hpending, hget, hnew, hold⟩ := isApproved_approve hok
  have hid : x.id = id := Table.key_of_get hx
  have hne : ∀ q, s.db.IsApproved q → q.id ≠ id := by
    rintro q ⟨hq, hs⟩ rfl
    rw [hx] at hq
    obtain rfl := Option.some.inj hq
    rw [hpending] at hs
    cases hs
  constructor
  · intro k g hg htemp
    dsimp only at hg
    rw [hget] at hg
    split at hg
    · next hk =>
      obtain rfl := Option.some.inj hg
      exact ⟨_, hnew, rfl, hk⟩
    · obtain ⟨q, hq, hqid, hk⟩ := h.carried k g hg htemp
      exact ⟨q, (hold q (hne q hq)).mpr hq, hqid, hk⟩
  · intro q hq
    by_cases hqid : q.id = id
    · have hqx : q = x.approved deciderID note now expiresAt := by
        have hstored := hnew.1
        rw [show (x.approved deciderID note now expiresAt).id = q.id from hid.trans hqid.symm,
          hq.1] at hstored
        exact Option.some.inj hstored
      subst hqx
      refine Or.inl ⟨s.db.approvedGrant x expiresAt, ?_, by simp [Database.approvedGrant], rfl⟩
      exact (hget _).trans (if_pos rfl)
    · have hqold := (hold q hqid).mp hq
      rcases h.approved q hqold with hcarries | hend
      · obtain ⟨g, hg, hrest⟩ := hcarries
        refine Or.inl ⟨g, (hget _).trans ?_, hrest⟩
        have hk : (x.userId, x.clusterId) ≠ (q.userId, q.clusterId) := by
          intro hk
          refine not_carries_of_plain (s := s) (q := q) ?_ ⟨g, hg, hrest⟩
          rw [← hk]
          exact hplain x hx hpending
        rw [if_neg hk, hg]
      · exact Or.inr hend

/-- A sweep reverts a row and closes the request the row carries. -/
theorem Linked.sweep (h : Linked s) {now : ℤ} {skipped : List (String × String)} {db' : Database}
    {out : List ExpiredGrant} (hok : s.db.expireGrants now skipped = .ok (db', out)) :
    Linked { s with db := db' } := by
  obtain ⟨db₁, out₁, hok₁, hget, -, hreq⟩ := Database.expireGrants_spec s.db now skipped
  rw [hok] at hok₁
  obtain ⟨rfl, rfl⟩ := Prod.mk.inj (Except.ok.inj hok₁)
  have happroved : ∀ q, db'.IsApproved q ↔ s.db.IsApproved q ∧ ¬ (q.status = .approved ∧
      ∃ g ∈ s.db.grants.rows, Database.swept now skipped g = true ∧ g.requestId = some q.id) :=
    fun q => isApproved_of_get (by simp [AccessRequest.ended]) hreq
  constructor
  · intro k g hg htemp
    dsimp only at hg
    rw [hget] at hg
    cases hold : s.db.grants.get k with
    | none => simp [hold] at hg
    | some x =>
      rw [hold, Option.bind_some] at hg
      split at hg
      · obtain ⟨r, -, rfl⟩ := Option.map_eq_some_iff.mp hg
        exact absurd rfl htemp
      · next hkept =>
        obtain rfl := Option.some.inj hg
        obtain ⟨q, hq, hid, hk⟩ := h.carried k x hold htemp
        refine ⟨q, (happroved q).mpr ⟨hq, ?_⟩, hid, hk⟩
        rintro ⟨-, y, hy, hswept, hyid⟩
        have hyget : s.db.grants.get y.pair = some y := Table.get_of_mem hy
        have hytemp : y.expiresAt ≠ none := fun e => by simp [Database.swept, e] at hswept
        obtain ⟨q', hq', hid', hk'⟩ := h.carried y.pair y hyget hytemp
        have hsame : q' = q := by
          have hids : q'.id = q.id := Option.some.inj (hid'.symm.trans hyid)
          have hstored := hq'.1
          rw [hids, hq.1] at hstored
          exact (Option.some.inj hstored).symm
        subst hsame
        rw [← hk', hk, hold] at hyget
        obtain rfl := Option.some.inj hyget
        exact hkept hswept
  · intro q hq
    obtain ⟨hqold, hkept⟩ := (happroved q).mp hq
    rcases h.approved q hqold with ⟨g, hg, htemp, hid⟩ | hend
    · refine Or.inl ⟨g, (hget _).trans ?_, htemp, hid⟩
      have hnot : ¬ Database.swept now skipped g = true := fun hswept =>
        hkept ⟨hqold.2, g, Table.mem_of_get hg, hswept, hid⟩
      rw [hg, Option.bind_some, if_neg hnot]
    · exact Or.inr hend

/-- Closing the approved requests of a pair whose row is not temporary. -/
theorem Linked.endApproved (h : Linked s) {userID clusterID : String} {reason : EndReason}
    {now : ℤ} (hplain : rowTemporary s.db (userID, clusterID) = false) :
    Linked { s with
      db := s.db.endApprovedRequests userID clusterID reason now
      ending := s.ending.erase (userID, clusterID, reason) } := by
  have happroved : ∀ q, (s.db.endApprovedRequests userID clusterID reason now).IsApproved q ↔
      s.db.IsApproved q ∧ ¬ (q.userId = userID ∧ q.clusterId = clusterID) := by
    intro q
    rw [Database.endApprovedRequests,
      isApproved_updateRequests _ (by simp [AccessRequest.ended])]
    refine and_congr_right fun hq => ?_
    simp [hq.2]
  have hget : ∀ k, (s.db.endApprovedRequests userID clusterID reason now).grants.get k =
      s.db.grants.get k := fun _ => rfl
  constructor
  · intro k g hg htemp
    obtain ⟨q, hq, hid, hk⟩ := h.carried k g hg htemp
    refine ⟨q, (happroved q).mpr ⟨hq, ?_⟩, hid, hk⟩
    rintro ⟨rfl, rfl⟩
    refine not_carries_of_plain hplain ⟨g, ?_, htemp, hid⟩
    rw [hk]
    exact hg
  · intro q hq
    obtain ⟨hqold, hother⟩ := (happroved q).mp hq
    rcases h.approved q hqold with ⟨g, hg, hrest⟩ | ⟨r, hr⟩
    · exact Or.inl ⟨g, (hget _).trans hg, hrest⟩
    · refine Or.inr ⟨r, (List.mem_erase_of_ne ?_).mpr hr⟩
      intro he
      obtain ⟨hu, he⟩ := Prod.mk.inj he
      exact hother ⟨hu, (Prod.mk.inj he).1⟩

theorem Linked.adminSet (h : Linked s) (now : ℤ) (userID clusterID : String) (roleID : ℕ)
    (namespaces : List String) :
    Linked (linkStep tables cfg s (now, .grant (.adminSet userID clusterID roleID namespaces))) := by
  rw [linkStep]
  cases hset : s.db.setUserClusterRoleEndingTokens userID clusterID roleID namespaces with
  | error e =>
    rw [grantStep, hset, endingAfter, hset]
    exact h.of_frame (fun _ => rfl) (fun _ => Iff.rfl) fun _ hx => hx
  | ok db' =>
    obtain ⟨hget, hreq⟩ := Database.setUserClusterRoleEndingTokens_ok hset
    rw [grantStep, hset, endingAfter, hset]
    refine h.of_row (userID, clusterID) (fun g hg => ?_) (fun k hk => ?_) (fun q => ?_)
      (fun x hx => List.mem_append_right _ hx) (Or.inr ⟨.superseded, by simp⟩)
    · rw [show g = permanentGrant userID clusterID roleID namespaces from
        Option.some.inj (hg.symm.trans ((hget _).trans (if_pos rfl)))]
      rfl
    · exact (hget k).trans (if_neg hk)
    · simp only [Database.IsApproved, attempt, hreq]

theorem Linked.adminDelete (h : Linked s) (now : ℤ) (userID clusterID : String) :
    Linked (linkStep tables cfg s (now, .grant (.adminDelete userID clusterID))) := by
  have hget := Database.get_deleteUserClusterRoleEndingTokens s.db userID clusterID
  refine h.of_row (userID, clusterID) (fun g hg => ?_) (fun k hk => ?_) (fun q => ?_)
    (fun x hx => List.mem_append_right _ hx) ?_
  · rw [linkStep, grantStep, hget, if_pos rfl] at hg
    cases hg
  · exact (hget k).trans (if_neg hk)
  · simp only [Database.IsApproved, linkStep, grantStep,
      Database.requests_deleteUserClusterRoleEndingTokens]
  · cases hold : s.db.grants.get (userID, clusterID) with
    | none => exact Or.inl (by simp [rowTemporary, hold])
    | some g =>
      refine Or.inr ⟨.revoked, ?_⟩
      simp [linkStep, endingAfter, Database.deleteUserClusterRoleEndingTokens,
        Database.deleteUserClusterRole, hold]

/-- A group sync's statement on a pair whose row is not temporary. -/
theorem Linked.syncSet (h : Linked s) {sync : Sync} {clusterID roleName : String}
    (hplain : rowTemporary s.db (sync.userID, clusterID) = false) :
    Linked { s with db := (syncSet s.db sync clusterID roleName).1 } := by
  rw [Kubeast.syncSet]
  dsimp only
  split
  · exact h
  · next role _ =>
    split
    · exact h
    · next db' hset =>
      obtain ⟨hget, hreq, -⟩ := Database.setUserClusterRole_ok hset
      refine h.of_row (sync.userID, clusterID) (fun g hg => ?_) (fun k hk => ?_) (fun q => ?_)
        (fun _ hx => hx) (Or.inl hplain)
      · rw [show g = permanentGrant sync.userID clusterID role.id [] from
          Option.some.inj (hg.symm.trans ((hget _).trans (if_pos rfl)))]
        rfl
      · exact (hget k).trans (if_neg hk)
      · simp only [Database.IsApproved, hreq]

theorem Linked.syncDelete (h : Linked s) {userID clusterID : String}
    (hplain : rowTemporary s.db (userID, clusterID) = false) :
    Linked { s with db := (s.db.deleteUserClusterRole userID clusterID).1 } := by
  have hget := Database.get_deleteUserClusterRole s.db userID clusterID
  refine h.of_row (userID, clusterID) (fun g hg => ?_) (fun k hk => ?_) (fun q => Iff.rfl)
    (fun _ hx => hx) (Or.inl hplain)
  · dsimp only at hg
    rw [hget, if_pos rfl] at hg
    cases hg
  · exact (hget k).trans (if_neg hk)

/-- A transaction that touches neither grants nor approved requests, whether it fails or not. -/
theorem Linked.attempt (h : Linked s) {ε : Type} {r : Except ε Database}
    (hframe : ∀ db', r = .ok db' →
      db'.grants = s.db.grants ∧ ∀ q, db'.IsApproved q ↔ s.db.IsApproved q) :
    Linked { s with db := attempt s.db r } := by
  cases r with
  | error e => exact h
  | ok db' =>
    obtain ⟨hrow, hreq⟩ := hframe db' rfl
    exact h.of_frame (fun k => congrArg (fun t => Table.get t k) hrow) hreq fun _ hx => hx

/-- A change of the syncs under way is none of the tables'. -/
theorem Linked.syncs (h : Linked s) (syncs : List Sync) : Linked { s with syncs := syncs } :=
  ⟨h.carried, h.approved⟩

/-- The link is kept by every step that does not approve, close or sync over a temporary
grant. -/
theorem linkStep_linked (h : Linked s) {a : ℤ × LinkAction}
    (hover : overwritesTemporary s a = false) : Linked (linkStep tables cfg s a) := by
  obtain ⟨now, a⟩ := a
  cases a with
  | grant a =>
    cases a with
    | create payload body id =>
      refine h.attempt fun db' hok => ?_
      obtain ⟨-, roleId, namespaces, hcreate⟩ := createAccessRequest_ok hok
      exact ⟨(Database.createAccessRequest_ok hcreate).1, fun q => isApproved_create hcreate⟩
    | approve id deciderID note =>
      cases hok : s.db.approveAccessRequest id deciderID note now with
      | error e =>
        rw [linkStep, grantStep, hok]
        exact h
      | ok r =>
        rw [linkStep, grantStep, hok]
        obtain ⟨db', expiresAt⟩ := r
        refine h.approve hok fun x hx hpending => ?_
        simpa [overwritesTemporary, overwrites, Option.filter, hx, hpending] using hover
    | reject id deciderID note =>
      exact h.attempt fun _ hok => ⟨rejectAccessRequest_grants hok, fun q => isApproved_reject hok⟩
    | cancel id userID =>
      exact h.attempt fun _ hok => ⟨cancelAccessRequest_grants hok, fun q => isApproved_cancel hok⟩
    | adminSet userID clusterID roleID namespaces => exact h.adminSet now ..
    | adminDelete userID clusterID => exact h.adminDelete now ..
    | sweep skipped =>
      obtain ⟨db', out, hok, -⟩ := Database.expireGrants_spec s.db now skipped
      rw [linkStep, grantStep, hok]
      exact h.sweep hok
  | endApproved userID clusterID reason =>
    rw [linkStep]
    split
    · exact h.endApproved (by simpa [overwritesTemporary, overwrites] using hover)
    · exact h
  | expirePending before =>
    refine h.of_frame (fun _ => rfl) (fun q => ?_) fun _ hx => hx
    exact isApproved_of_pending (AccessRequest.keepsAsked_ended _ _)
      (by simp [AccessRequest.ended]) fun q hq => by
      simp only [Bool.and_eq_true, beq_iff_eq] at hq
      exact hq.1
  | syncRead userID want => exact h.syncs _
  | syncSet i clusterID roleName =>
    rw [linkStep]
    split
    · exact h
    · next sync hsync =>
      split
      · have hplain : rowTemporary s.db (sync.userID, clusterID) = false := by
          simpa [overwritesTemporary, overwrites, hsync] using hover
        exact (h.syncSet hplain).syncs _
      · exact h
  | syncDelete i clusterID =>
    rw [linkStep]
    split
    · exact h
    · next sync hsync =>
      split
      · refine (h.syncDelete ?_).syncs _
        simpa [overwritesTemporary, overwrites, hsync] using hover
      · exact h
  | syncDone i =>
    rw [linkStep]
    split
    · exact h
    · split
      · refine h.of_frame (fun _ => ?_) (fun _ => ?_) fun _ hx => hx
        · dsimp only
          split <;> rfl
        · dsimp only
          split <;> exact Iff.rfl
      · exact h

end Preserved

/-- Requests and grants stay linked, as long as no step approves, closes or syncs over a
temporary grant: with no closing statement outstanding, a stored request is approved exactly
when its pair's row is temporary and carries its id, and no pair has two approved requests. -/
theorem requests_linked (tables : CharTables) (cfg : AccessRequestsConfig) (db : Database)
    (hgrants : db.grants = Table.empty) (hrequests : db.requests = Table.empty)
    (as : List (ℤ × LinkAction))
    (h : Along (linkStep tables cfg) (fun s a => overwritesTemporary s a = false)
      ⟨db, [], []⟩ as)
    (hdone : (exec (linkStep tables cfg) ⟨db, [], []⟩ as).ending = []) (q : AccessRequest)
    (hq : (exec (linkStep tables cfg) ⟨db, [], []⟩ as).db.requests.get q.id = some q) :
    (q.status = .approved ↔ (exec (linkStep tables cfg) ⟨db, [], []⟩ as).db.Carries q) ∧
      ∀ q' : AccessRequest,
        (exec (linkStep tables cfg) ⟨db, [], []⟩ as).db.requests.get q'.id = some q' →
        (q'.userId, q'.clusterId) = (q.userId, q.clusterId) →
        q.status = .approved → q'.status = .approved → q' = q := by
  have hstart : Linked ⟨db, [], []⟩ :=
    ⟨fun k g hg => by simp [hgrants] at hg, fun q hq => by simp [Database.IsApproved, hrequests] at hq⟩
  have hlinked : Linked (exec (linkStep tables cfg) ⟨db, [], []⟩ as) :=
    exec_invariant (fun _ _ hs ha => linkStep_linked hs ha) hstart h
  generalize exec (linkStep tables cfg) ⟨db, [], []⟩ as = s at hlinked hdone hq
  have hcarries : ∀ x, s.db.requests.get x.id = some x → (x.status = .approved ↔ s.db.Carries x) := by
    intro x hx
    constructor
    · intro hs
      rcases hlinked.approved x ⟨hx, hs⟩ with hc | ⟨reason, hr⟩
      · exact hc
      · rw [hdone] at hr
        exact absurd hr List.not_mem_nil
    · rintro ⟨g, hg, htemp, hid⟩
      obtain ⟨y, hy, hyid, -⟩ := hlinked.carried _ g hg htemp
      have hids : y.id = x.id := Option.some.inj (hyid.symm.trans hid)
      have hstored := hy.1
      rw [hids, hx] at hstored
      rw [Option.some.inj hstored]
      exact hy.2
  refine ⟨hcarries q hq, fun q' hq' hpair hs hs' => ?_⟩
  obtain ⟨g, hg, -, hid⟩ := (hcarries q hq).mp hs
  obtain ⟨g', hg', -, hid'⟩ := (hcarries q' hq').mp hs'
  rw [hpair, hg] at hg'
  obtain rfl := Option.some.inj hg'
  have hids : q.id = q'.id := Option.some.inj (hid.symm.trans hid')
  rw [hids, hq'] at hq
  exact Option.some.inj hq

/-- A second request approved over the temporary grant of the first. -/
def secondApproval : List (ℤ × LinkAction) :=
  [(0, .grant (.adminSet "alice" "prod" 1 [])), (1, .endApproved "alice" "prod" .superseded),
   (2, .grant (.create (signedIn "alice") (askFor "Write") "r1")),
   (3, .grant (.approve "r1" "root" "")),
   (4, .grant (.create (signedIn "alice") (askFor "Read") "r2")),
   (5, .grant (.approve "r2" "root" ""))]

def linkedRun (as : List (ℤ × LinkAction)) : LinkState :=
  exec (linkStep .ascii hoursOnly) ⟨.small, [], []⟩ as

/-- Both requests stay approved, one of them with no row that carries it. -/
theorem secondApproval_both_approved :
    (linkedRun secondApproval).ending = [] ∧
      ((linkedRun secondApproval).db.requests.get "r1").map AccessRequest.status =
        some .approved ∧
      ((linkedRun secondApproval).db.requests.get "r2").map AccessRequest.status =
        some .approved ∧
      ((linkedRun secondApproval).db.grants.get ("alice", "prod")).bind ClusterGrant.requestId =
        some "r2" := by
  decide

/-- A sign-in whose groups name the cluster meets an expired grant the sweep has not reverted. -/
def syncOverExpired : List (ℤ × LinkAction) :=
  [(0, .grant (.adminSet "alice" "prod" 1 [])), (1, .endApproved "alice" "prod" .superseded),
   (2, .grant (.create (signedIn "alice") (askFor "Write") "r1")),
   (3, .grant (.approve "r1" "root" "")),
   (3600000000004, .syncRead "alice" (Dict.set Table.empty "prod" "Read")),
   (3600000000005, .syncSet 0 "prod" "Read")]

example : (linkedRun syncOverExpired).db.grants.get ("alice", "prod") =
      some (permanentGrant "alice" "prod" 1 []) ∧
    ((linkedRun syncOverExpired).db.requests.get "r1").map AccessRequest.status =
      some .approved := by
  decide

/-- A request approved over the permanent grant a sync left. -/
def approvedOnce : List (ℤ × LinkAction) :=
  [(0, .syncRead "alice" (Dict.set Table.empty "prod" "Read")), (0, .syncSet 0 "prod" "Read"),
   (0, .syncDone 0), (2, .grant (.create (signedIn "alice") (askFor "Write") "r1")),
   (3, .grant (.approve "r1" "root" ""))]

def approvedRequest : AccessRequest :=
  ⟨"r1", "alice", "prod", 2, 60, "deploy", .approved, 2, some "root", some 3, none,
    some 3600000000003, none, none, []⟩

theorem requests_linked_approvedOnce :
    approvedRequest.status = .approved ↔ (linkedRun approvedOnce).db.Carries approvedRequest :=
  (requests_linked .ascii hoursOnly .small rfl rfl approvedOnce (by decide) rfl
    approvedRequest (by decide)).1

end Kubeast
