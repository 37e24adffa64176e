import Kubeast.ClusterRoles
import Mathlib.Data.Int.Init
import Mathlib.Algebra.Order.Ring.Int

/-! Access requests and the sweep (`auth-service-go/internal/repository/`
`repository_access_requests.go`). An approval turns a grant into a temporary one; the
sweep turns it back. -/
namespace Kubeast

/-- `time.Duration(minutes) * time.Minute`, in 64-bit nanoseconds. -/
def durationOfMinutes (minutes : ℤ) : ℤ := (minutes * 60000000000).bmod (2 ^ 64)

def nullIfEmpty (s : String) : Option String := if s = "" then none else some s

namespace AccessRequest

def cancelled (now : ℤ) (q : AccessRequest) : AccessRequest :=
  { q with status := .cancelled, endedAt := some now }

def rejected (deciderID note : String) (now : ℤ) (q : AccessRequest) : AccessRequest :=
  { q with
    status := .rejected, decidedBy := some deciderID, decidedAt := some now,
    decisionNote := nullIfEmpty note, endedAt := some now }

def approved (deciderID note : String) (now expiresAt : ℤ) (q : AccessRequest) : AccessRequest :=
  { q with
    status := .approved, decidedBy := some deciderID, decidedAt := some now,
    decisionNote := nullIfEmpty note, expiresAt := some expiresAt }

def ended (reason : EndReason) (now : ℤ) (q : AccessRequest) : AccessRequest :=
  { q with status := .expired, endedAt := some now, endReason := some reason }

theorem keepsAsked_cancelled (now : ℤ) : KeepsAsked (cancelled now) :=
  fun _ => ⟨rfl, rfl, rfl, rfl⟩

theorem keepsAsked_rejected (deciderID note : String) (now : ℤ) :
    KeepsAsked (rejected deciderID note now) :=
  fun _ => ⟨rfl, rfl, rfl, rfl⟩

theorem keepsAsked_approved (deciderID note : String) (now expiresAt : ℤ) :
    KeepsAsked (approved deciderID note now expiresAt) :=
  fun _ => ⟨rfl, rfl, rfl, rfl⟩

theorem keepsAsked_ended (reason : EndReason) (now : ℤ) : KeepsAsked (ended reason now) :=
  fun _ => ⟨rfl, rfl, rfl, rfl⟩

end AccessRequest

/-- A temporary grant the sweep reverted. -/
structure ExpiredGrant where
  userId : String
  userEmail : String
  clusterId : String
  role : String
  restoredRole : Option String
  requestId : Option String
deriving DecidableEq

namespace Database

/-- `INSERT INTO access_requests`: a new pending request. -/
def createAccessRequest (db : Database) (id userId clusterId : String) (roleId : ℕ)
    (durationMinutes : ℤ) (reason : String) (namespaces : List String) (now : ℤ) :
    Except StoreError Database :=
  if hid : db.requests.get id = none then
    if href : db.Refers userId clusterId roleId then
      let q : AccessRequest :=
        { id := id, userId := userId, clusterId := clusterId, roleId := roleId,
          durationMinutes := durationMinutes, reason := reason, status := .pending,
          createdAt := now, decidedBy := none, decidedAt := none, decisionNote := none,
          expiresAt := none, endedAt := none, endReason := none, namespaces := namespaces }
      .ok (db.withRequests (db.requests.insert q hid) fun r hr => by
        rcases Table.mem_insert.mp hr with rfl | hr
        · exact href
        · exact db.requests_refer r hr)
    else .error .foreignKeyViolation
  else .error .uniqueViolation

def hasPendingAccessRequest (db : Database) (userId clusterId : String) : Bool :=
  db.requests.rows.any fun q =>
    q.userId == userId && q.clusterId == clusterId && q.status == .pending

def cancelAccessRequest (db : Database) (id userId : String) (now : ℤ) :
    Except StoreError Database :=
  let p : AccessRequest → Bool := fun q =>
    q.id == id && q.userId == userId && q.status == .pending
  if db.requests.rows.any p then
    .ok (db.updateRequests p (.cancelled now) (AccessRequest.keepsAsked_cancelled now))
  else .error .notPending

def rejectAccessRequest (db : Database) (id deciderID note : String) (now : ℤ) :
    Except StoreError Database :=
  let p : AccessRequest → Bool := fun q => q.id == id && q.status == .pending
  if ¬ db.requests.rows.any p then .error .notPending
  else if ¬ db.users.has deciderID then .error .foreignKeyViolation
  else .ok (db.updateRequests p (.rejected deciderID note now)
    (AccessRequest.keepsAsked_rejected deciderID note now))

/-- The row an approval writes over the current grant of the pair. -/
def approvedGrant (db : Database) (q : AccessRequest) (expiresAt : ℤ) : ClusterGrant :=
  let current := db.grants.get (q.userId, q.clusterId)
  { userId := q.userId, clusterId := q.clusterId, roleId := q.roleId,
    namespaces := q.namespaces, expiresAt := some expiresAt,
    -- COALESCE(restore_role_id, role_id)
    restoreRoleId := current.map fun g => g.restoreRoleId.getD g.roleId
    restoreNamespaces := match current with
      | none => []
      | some g => if g.restoreRoleId = none then g.namespaces else g.restoreNamespaces
    requestId := some q.id }

/-- `SELECT … WHERE id = $1 AND status = 'pending' FOR UPDATE`. -/
def pendingRequest (db : Database) (id : String) : Except StoreError AccessRequest :=
  match (db.requests.get id).filter fun q => q.status == .pending with
  | some q => .ok q
  | none => .error .notPending

/-- Grants the requested role for the requested time and marks the request approved, in
one transaction. -/
def approveAccessRequest (db : Database) (id deciderID note : String) (now : ℤ) :
    Except StoreError (Database × ℤ) := do
  let q ← db.pendingRequest id
  let expiresAt := now + durationOfMinutes q.durationMinutes
  let db ← db.upsertGrant (db.approvedGrant q expiresAt)
  if ¬ db.users.has deciderID then .error .foreignKeyViolation
  let db := db.updateRequests (fun x => x.id == id) (.approved deciderID note now expiresAt)
    (AccessRequest.keepsAsked_approved deciderID note now expiresAt)
  return (db.endTokens q.userId, expiresAt)

/-- Closes the approved requests behind a grant that was set or revoked by hand. -/
def endApprovedRequests (db : Database) (userId clusterId : String) (reason : EndReason)
    (now : ℤ) : Database :=
  db.updateRequests
    (fun q => q.userId == userId && q.clusterId == clusterId && q.status == .approved)
    (.ended reason now) (AccessRequest.keepsAsked_ended reason now)

/-- A temporary grant whose time has passed, unless another replica holds the row
(`FOR UPDATE SKIP LOCKED`). -/
def swept (now : ℤ) (skipped : List (String × String)) (g : ClusterGrant) : Bool :=
  g.expiresAt.any (fun t => decide (t ≤ now)) && !skipped.contains g.pair

/-- What the sweep reports of a grant; the row it reverts is kept beside it. -/
def joinExpired (db : Database) (g : ClusterGrant) : Option (ExpiredGrant × ClusterGrant) :=
  (db.users.get g.userId).bind fun u => (db.roles.get g.roleId).map fun ro =>
    ({ userId := g.userId, userEmail := u.email, clusterId := g.clusterId, role := ro.name,
       restoredRole := (g.restoreRoleId.bind db.roles.get).map Role.name,
       requestId := g.requestId }, g)

def findExpired (db : Database) (now : ℤ) (skipped : List (String × String)) :
    List (ExpiredGrant × ClusterGrant) :=
  (db.grants.select (swept now skipped)).filterMap db.joinExpired

/-- The row a temporary grant goes back to. -/
def restoredGrant (g : ClusterGrant) : Option ClusterGrant :=
  g.restoreRoleId.map fun r => permanentGrant g.userId g.clusterId r g.restoreNamespaces

def restoreRow (db : Database) (g : ClusterGrant) : Except StoreError Database :=
  match restoredGrant g with
  | none => .ok (db.deleteUserClusterRole g.userId g.clusterId).1
  | some restored => db.updateGrant restored

/-- One pass of the sweep's loop. -/
def revertGrant (now : ℤ) (db : Database) (g : ClusterGrant) : Except StoreError Database := do
  let db ← db.restoreRow g
  let db := match g.requestId with
    | none => db
    | some id => db.updateRequests (fun q => q.id == id && q.status == RequestStatus.approved)
        (.ended .expired now) (AccessRequest.keepsAsked_ended .expired now)
  return db.endTokens g.userId

/-- Reverts every temporary grant whose time has passed, in one transaction. -/
def expireGrants (db : Database) (now : ℤ) (skipped : List (String × String)) :
    Except StoreError (Database × List ExpiredGrant) := do
  let found := db.findExpired now skipped
  let db ← found.foldlM (fun db p => revertGrant now db p.2) db
  return (db, found.map Prod.fst)

/-- Closes pending requests created before `before`. -/
def expirePendingRequests (db : Database) (before now : ℤ) : Database :=
  db.updateRequests (fun q => q.status == .pending && decide (q.createdAt < before))
    (.ended .notReviewed now) (AccessRequest.keepsAsked_ended .notReviewed now)

section Spec
variable {db db' : Database} {g : ClusterGrant} {now expiresAt : ℤ}
  {id userId clusterId deciderID note reason : String} {skipped : List (String × String)}

theorem get_updateRequests {p : AccessRequest → Bool} {f : AccessRequest → AccessRequest}
    (hf : AccessRequest.KeepsAsked f) (r : String) : (db.updateRequests p f hf).requests.get r =
      (db.requests.get r).map fun q => if p q = true then f q else q :=
  Table.get_update fun q => (hf q).1

theorem createAccessRequest_ok {roleId : ℕ} {minutes : ℤ} {namespaces : List String}
    (h : db.createAccessRequest id userId clusterId roleId minutes reason namespaces now = .ok db') :
    db'.grants = db.grants ∧ db.requests.get id = none ∧
      ∃ q : AccessRequest, q.id = id ∧ q.userId = userId ∧ q.clusterId = clusterId ∧
        q.roleId = roleId ∧ q.namespaces = namespaces ∧ q.status = .pending ∧
        ∀ r, db'.requests.get r = if id = r then some q else db.requests.get r := by
  unfold createAccessRequest at h
  split at h
  · next hid =>
    split at h
    · obtain rfl := Except.ok.inj h
      exact ⟨rfl, hid, _, rfl, rfl, rfl, rfl, rfl, rfl, fun r => Table.get_insert hid⟩
    · cases h
  · cases h

theorem approveAccessRequest_ok
    (h : db.approveAccessRequest id deciderID note now = .ok (db', expiresAt)) :
    ∃ q, db.requests.get id = some q ∧ q.status = .pending ∧
      expiresAt = now + durationOfMinutes q.durationMinutes ∧
      (∀ k, db'.grants.get k = if (q.userId, q.clusterId) = k
        then some (db.approvedGrant q expiresAt) else db.grants.get k) ∧
      ∀ r, db'.requests.get r = if id = r
        then some (q.approved deciderID note now expiresAt) else db.requests.get r := by
  obtain ⟨q, hq, h⟩ := Transition.bind_eq_ok.mp h
  obtain ⟨db₁, hgrant, hclose⟩ := Transition.bind_eq_ok.mp h
  obtain ⟨hget, hreq, -⟩ := upsertGrant_ok hgrant
  have hq' : db.requests.get id = some q ∧ q.status = .pending := by
    rw [pendingRequest] at hq
    split at hq
    · next x hx =>
      obtain rfl := Except.ok.inj hq
      simpa using Option.filter_eq_some_iff.mp hx
    · cases hq
  split at hclose
  · cases hclose
  · obtain ⟨rfl, rfl⟩ := Prod.mk.inj (Except.ok.inj hclose)
    refine ⟨q, hq'.1, hq'.2, rfl, hget, fun r => ?_⟩
    refine (get_updateRequests (AccessRequest.keepsAsked_approved _ _ _ _) r).trans ?_
    rw [hreq]
    by_cases hr : id = r
    · have hid : q.id = id := Table.key_of_get hq'.1
      simp [← hr, hq'.1, hid]
    · cases hx : db.requests.get r with
      | none => simp [hr]
      | some x =>
        have hid : x.id = r := Table.key_of_get hx
        simp [hid, hr, Ne.symm hr]

theorem pair_restoredGrant {x : ClusterGrant} (h : restoredGrant g = some x) :
    x.pair = g.pair := by
  obtain ⟨r, -, rfl⟩ := Option.map_eq_some_iff.mp h
  rfl

theorem restoreRow_spec (hrow : db.grants.get g.pair = some g) :
    ∃ db', db.restoreRow g = .ok db' ∧ db'.requests = db.requests ∧
      db'.rolePermissions = db.rolePermissions ∧
      ∀ k, db'.grants.get k = if g.pair = k then restoredGrant g else db.grants.get k := by
  unfold restoreRow
  cases hrestored : restoredGrant g with
  | none => exact ⟨_, rfl, rfl, rfl, get_deleteUserClusterRole db g.userId g.clusterId⟩
  | some restored =>
    obtain ⟨r, hr, rfl⟩ := Option.map_eq_some_iff.mp hrestored
    obtain ⟨⟨hu, hc, -⟩, hroles⟩ := db.grants_refer g (Table.mem_of_get hrow)
    have hrefers : db.RefersGrant (permanentGrant g.userId g.clusterId r g.restoreNamespaces) :=
      ⟨⟨hu, hc, hroles r hr⟩, by simp [permanentGrant]⟩
    have hok : db.updateGrant (permanentGrant g.userId g.clusterId r g.restoreNamespaces) =
        .ok _ := dif_pos hrefers
    obtain ⟨hget, hreq, -, hperms⟩ := updateGrant_ok hok
    refine ⟨_, hok, hreq, hperms, fun k => ?_⟩
    have hpair : (permanentGrant g.userId g.clusterId r g.restoreNamespaces).pair = g.pair := rfl
    rw [hget, hpair]
    split
    · next hk => rw [← hk, hrow, Option.map_some]
    · rfl

/-- One pass of the loop succeeds and touches one pair and at most one request. -/
theorem revertGrant_spec (now : ℤ) (hrow : db.grants.get g.pair = some g) :
    ∃ db', revertGrant now db g = .ok db' ∧
      (∀ k, db'.grants.get k = if g.pair = k then restoredGrant g else db.grants.get k) ∧
      db'.rolePermissions = db.rolePermissions ∧
      ∀ r, db'.requests.get r = (db.requests.get r).map fun q =>
        if g.requestId = some q.id ∧ q.status = .approved then q.ended .expired now else q := by
  obtain ⟨db₁, hok, hreq, hperms, hget⟩ := restoreRow_spec hrow
  have hrevert : revertGrant now db g = .ok _ := Transition.bind_eq_ok.mpr ⟨db₁, hok, rfl⟩
  refine ⟨_, hrevert, fun k => ?_, ?_, fun r => ?_⟩
  · rw [← hget]
    cases g.requestId <;> rfl
  · rw [← hperms]
    cases g.requestId <;> rfl
  · rw [← hreq]
    cases hid : g.requestId with
    | none =>
      have hsame : (db₁.endTokens g.userId).requests.get r = db₁.requests.get r := rfl
      simp [hsame]
    | some id =>
      refine (get_updateRequests (AccessRequest.keepsAsked_ended _ _) r).trans ?_
      congr 1
      funext q
      by_cases hq : id = q.id <;> simp [hq, Ne.symm]

/-- The joins drop no row: the foreign keys hold. -/
theorem findExpired_map_snd :
    (db.findExpired now skipped).map Prod.snd = db.grants.select (swept now skipped) := by
  have hjoin : ∀ g ∈ db.grants.select (swept now skipped), ∃ e,
      db.joinExpired g = some (e, g) := by
    intro g hg
    obtain ⟨⟨⟨u, hu, huid⟩, -, ⟨ro, hro, hroid⟩⟩, -⟩ :=
      db.grants_refer g (Table.mem_select.mp hg).1
    have hugot : db.users.get g.userId = some u := Table.get_eq_some.mpr ⟨hu, huid⟩
    have hrogot : db.roles.get g.roleId = some ro := Table.get_eq_some.mpr ⟨hro, hroid⟩
    rw [joinExpired, hugot, hrogot]
    exact ⟨_, rfl⟩
  unfold findExpired
  generalize db.grants.select (swept now skipped) = l at hjoin
  induction l with
  | nil => rfl
  | cons g l ih =>
    obtain ⟨e, he⟩ := hjoin g (by simp)
    rw [List.filterMap_cons_some he, List.map_cons, ih fun x hx => hjoin x (by simp [hx])]

/-- The loop over distinct rows of the table succeeds, reverts those rows and closes the
approved requests behind them. -/
theorem revertGrants_spec (now : ℤ) (gs : List ClusterGrant) (db : Database)
    (hrows : ∀ g ∈ gs, db.grants.get g.pair = some g) (hpairs : (gs.map (·.pair)).Nodup) :
    ∃ db', gs.foldlM (revertGrant now) db = .ok db' ∧
      (∀ k, db'.grants.get k = (db.grants.get k).bind fun g =>
        if g ∈ gs then restoredGrant g else some g) ∧
      db'.rolePermissions = db.rolePermissions ∧
      ∀ r, db'.requests.get r = (db.requests.get r).map fun q =>
        if q.status = .approved ∧ ∃ g ∈ gs, g.requestId = some q.id
          then q.ended .expired now else q := by
  induction gs generalizing db with
  | nil => exact ⟨db, rfl, fun k => by simp, rfl, fun r => by simp⟩
  | cons g gs ih =>
    obtain ⟨hnot, hpairs⟩ := List.nodup_cons.mp hpairs
    obtain ⟨db₁, hfirst, hget₁, hperms₁, hreq₁⟩ := revertGrant_spec now (hrows g (by simp))
    have hrows₁ : ∀ x ∈ gs, db₁.grants.get x.pair = some x := by
      intro x hx
      have hne : g.pair ≠ x.pair := fun e => hnot (List.mem_map.mpr ⟨x, hx, e.symm⟩)
      rw [hget₁, if_neg hne]
      exact hrows x (by simp [hx])
    obtain ⟨db₂, hrest, hget₂, hperms₂, hreq₂⟩ := ih db₁ hrows₁ hpairs
    refine ⟨db₂, ?_, fun k => ?_, hperms₂.trans hperms₁, fun r => ?_⟩
    · rw [List.foldlM_cons]
      exact Transition.bind_eq_ok.mpr ⟨db₁, hfirst, hrest⟩
    · rw [hget₂, hget₁]
      split
      · next hk =>
        rw [← hk, hrows g (by simp), Option.bind_some, if_pos List.mem_cons_self]
        cases hx : restoredGrant g with
        | none => rfl
        | some x =>
          have hpair : x.pair = g.pair := pair_restoredGrant hx
          have hmem : x ∉ gs := fun h => hnot (List.mem_map.mpr ⟨x, h, hpair⟩)
          simp [hmem]
      · next hk =>
        cases hx : db.grants.get k with
        | none => rfl
        | some x =>
          have hpair : x.pair = k := Table.key_of_get hx
          have hne : x ≠ g := fun e => hk (e ▸ hpair)
          simp [hne]
    · rw [hreq₂, hreq₁, Option.map_map]
      congr 1
      funext q
      by_cases hq : g.requestId = some q.id ∧ q.status = .approved
      · have hended : (q.ended .expired now).status ≠ .approved := by simp [AccessRequest.ended]
        simp [hq.1, hq.2, hended]
      · rw [Function.comp_apply, if_neg hq]
        have hiff : (q.status = .approved ∧ ∃ x ∈ gs, x.requestId = some q.id) ↔
            q.status = .approved ∧ ∃ x ∈ g :: gs, x.requestId = some q.id := by
          simp only [List.mem_cons, exists_eq_or_imp]
          tauto
        simp only [hiff]

/-- The sweep always succeeds: every row it takes up goes back to what it remembers, or is
deleted, and the approved request it names is closed. -/
theorem expireGrants_spec (db : Database) (now : ℤ) (skipped : List (String × String)) :
    ∃ db' out, db.expireGrants now skipped = .ok (db', out) ∧
      (∀ k, db'.grants.get k = (db.grants.get k).bind fun g =>
        if swept now skipped g = true then restoredGrant g else some g) ∧
      db'.rolePermissions = db.rolePermissions ∧
      ∀ r, db'.requests.get r = (db.requests.get r).map fun q =>
        if q.status = .approved ∧
            ∃ g ∈ db.grants.rows, swept now skipped g = true ∧ g.requestId = some q.id
          then q.ended .expired now else q := by
  have hpairs : ((db.grants.select (swept now skipped)).map (·.pair)).Nodup :=
    db.grants.nodup.sublist (List.filter_sublist.map _)
  obtain ⟨db', hloop, hget, hperms, hreq⟩ := revertGrants_spec now
    (db.grants.select (swept now skipped)) db
    (fun g hg => Table.get_of_mem (Table.mem_select.mp hg).1) hpairs
  refine ⟨db', _, Transition.bind_eq_ok.mpr ⟨db', ?_, rfl⟩, fun k => ?_, hperms, fun r => ?_⟩
  · rw [← findExpired_map_snd, List.foldlM_map] at hloop
    exact hloop
  · rw [hget]
    cases hx : db.grants.get k with
    | none => rfl
    | some x => simp [Table.mem_of_get hx]
  · rw [hreq]
    congr 1
    funext q
    simp [and_assoc]

end Spec
end Database
end Kubeast
