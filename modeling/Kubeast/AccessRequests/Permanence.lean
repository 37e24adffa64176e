import Kubeast.AccessRequests.Store
import Kubeast.Permissions.Ceiling
import Kubeast.Roles.Store

/-! Filing an access request (`auth-service-go/internal/handler/access_requests.go` and
`access_requests_policy.go`). -/
namespace Kubeast
open Text Permissions Transition

/-- The settings a request is checked against. -/
structure AccessRequestsConfig where
  enabled : Bool
  maxHours : ℤ
  roles : List String

/-- The body of `POST /access-requests`. -/
structure AccessRequestInput where
  clusterID : String
  role : String
  durationMinutes : ℤ
  reason : String
  namespaces : List String

def accessRequestCeilingRole : String := "Write"

def accessRequestReasonMax : ℕ := 500

def roleRequestable (tables : CharTables) (role : String) (allowed : List String) : Bool :=
  allowed.any fun a => equalFold tables (trimSpace a) role

/-- The request body against the policy; the error is the text of the 400. -/
def validateAccessRequestInput (tables : CharTables) (input : AccessRequestInput)
    (cfg : AccessRequestsConfig) : Except String Unit := do
  failIf (trimSpace input.clusterID = "") "cluster_id required"
  failIf (trimSpace input.role = "") "role required"
  failIf (¬ roleRequestable tables input.role cfg.roles)
    ("role " ++ quote tables input.role ++ " cannot be requested (allowed: " ++
      String.intercalate ", " cfg.roles ++ ")")
  let maxMinutes := cfg.maxHours * 60
  failIf (input.durationMinutes < 1 ∨ input.durationMinutes > maxMinutes)
    ("duration_minutes must be between 1 and " ++ toString maxMinutes)
  let reason := trimSpace input.reason
  failIf (reason = "") "reason required"
  failIf (reason.utf8ByteSize > accessRequestReasonMax)
    ("reason must be at most " ++ toString accessRequestReasonMax ++ " characters")
  let _ ← normalizeNamespaces tables input.namespaces
  return ()

/-- A limited grant can only ask for a role within its own namespaces. -/
def requestWithinGrant (tables : CharTables) (grant : UserClusterGrant)
    (namespaces : List String) : Except String Unit :=
  if grant.namespaces = [] then .ok ()
  else if namespaces = [] then
    .error ("your grant on this cluster is limited to namespaces (" ++
      String.intercalate ", " grant.namespaces ++ "); request within them")
  else match namespaces.find? fun n => !grant.namespaces.contains n with
    | some n => .error ("namespace " ++ quote tables n ++
        " is outside your grant on this cluster (" ++
        String.intercalate ", " grant.namespaces ++ ")")
    | none => .ok ()

/-- What a role gives beyond the ceiling role; an empty role is never within it. -/
def uncoveredPermissions (rolePerms ceiling : List String) : List String :=
  if rolePerms = [] then ["(no permissions)"]
  else
    let m : PermissionMatrix := Dict.set Table.empty "*" ceiling
    sortStrings (rolePerms.filter fun p => !m.hasForCluster p "*")

def badRequest {α : Type} (r : Except String α) : Except Refusal α := r.mapError fun e => ⟨400, e⟩

/-- `CreateAccessRequest` for the signed-in user, from the decoded body on; `id` is the
fresh UUID. -/
def createAccessRequest (tables : CharTables) (cfg : AccessRequestsConfig) (db : Database)
    (payload : TokenPayload) (body : AccessRequestInput) (id : String) (now : ℤ) :
    Except Refusal Database := do
  failIf (¬ cfg.enabled) ⟨404, "Access requests are disabled"⟩
  let input := { body with reason := trimSpace body.reason }
  badRequest (validateAccessRequestInput tables input cfg)
  let grant ← orFail (db.getUserClusterGrant now payload.userID input.clusterID)
    ⟨403, "You have no access to this cluster to escalate; ask an admin for a grant first"⟩
  failIf (equalFold tables grant.role input.role)
    ⟨400, "You already hold this role on the cluster"⟩
  let role ← orFail (db.getRoleByName input.role) ⟨400, "Unknown role: " ++ input.role⟩
  let ceiling ← orFail (db.getRoleByName accessRequestCeilingRole) internalError
  let uncovered := uncoveredPermissions role.permissions ceiling.permissions
  failIf (uncovered ≠ [])
    ⟨400, "Role " ++ role.name ++ " exceeds the " ++ accessRequestCeilingRole ++ " ceiling: " ++
      String.intercalate ", " uncovered⟩
  failIf (db.hasPendingAccessRequest payload.userID input.clusterID)
    ⟨409, "You already have a pending request on this cluster"⟩
  -- validated above: the error is ignored
  let namespaces := (normalizeNamespaces tables input.namespaces).toOption.getD []
  badRequest (requestWithinGrant tables grant namespaces)
  (db.createAccessRequest id payload.userID input.clusterID role.id input.durationMinutes
    input.reason namespaces now).mapError fun
      | .foreignKeyViolation => ⟨404, "Unknown cluster: " ++ input.clusterID⟩
      | _ => internalError

/-- A request that is filed passed the checks: its user has an active grant to escalate. -/
theorem createAccessRequest_ok {tables : CharTables} {cfg : AccessRequestsConfig}
    {db db' : Database} {payload : TokenPayload} {body : AccessRequestInput} {id : String} {now : ℤ}
    (h : createAccessRequest tables cfg db payload body id now = .ok db') :
    (db.getUserClusterGrant now payload.userID body.clusterID).isSome = true ∧
      ∃ roleId namespaces, db.createAccessRequest id payload.userID body.clusterID roleId
        body.durationMinutes (trimSpace body.reason) namespaces now = .ok db' := by
  obtain ⟨-, -, h⟩ := bind_eq_ok.mp h
  obtain ⟨-, -, h⟩ := bind_eq_ok.mp h
  obtain ⟨grant, hgrant, h⟩ := bind_eq_ok.mp h
  obtain ⟨-, -, h⟩ := bind_eq_ok.mp h
  obtain ⟨role, -, h⟩ := bind_eq_ok.mp h
  obtain ⟨ceiling, -, h⟩ := bind_eq_ok.mp h
  obtain ⟨-, -, h⟩ := bind_eq_ok.mp h
  obtain ⟨-, -, h⟩ := bind_eq_ok.mp h
  obtain ⟨-, -, h⟩ := bind_eq_ok.mp h
  exact ⟨by rw [orFail_eq_ok.mp hgrant]; rfl, role.id, _, mapError_eq_ok.mp h⟩

end Kubeast

/-! Temporary grants and permanent access. The permanent access of a pair is what its row
gives, or goes back to. Only an admin's set or delete is meant to change it. -/
namespace Kubeast
open Text Permissions Transition

/-- The writers of grants and requests, each at a time of its own. -/
inductive GrantAction
  | create (payload : TokenPayload) (body : AccessRequestInput) (id : String)
  | approve (id deciderID note : String)
  | reject (id deciderID note : String)
  | cancel (id userID : String)
  | adminSet (userID clusterID : String) (roleID : ℕ) (namespaces : List String)
  | adminDelete (userID clusterID : String)
  | sweep (skipped : List (String × String))

/-- One writer's transaction; one that fails leaves the tables as they are. -/
def grantStep (tables : CharTables) (cfg : AccessRequestsConfig) (db : Database) :
    ℤ × GrantAction → Database
  | (now, .create payload body id) =>
      attempt db (createAccessRequest tables cfg db payload body id now)
  | (now, .approve id deciderID note) =>
      attempt db ((db.approveAccessRequest id deciderID note now).map Prod.fst)
  | (now, .reject id deciderID note) => attempt db (db.rejectAccessRequest id deciderID note now)
  | (now, .cancel id userID) => attempt db (db.cancelAccessRequest id userID now)
  | (_, .adminSet userID clusterID roleID namespaces) =>
      attempt db (db.setUserClusterRoleEndingTokens userID clusterID roleID namespaces)
  | (_, .adminDelete userID clusterID) =>
      (db.deleteUserClusterRoleEndingTokens userID clusterID).1
  | (now, .sweep skipped) => attempt db ((db.expireGrants now skipped).map Prod.fst)

/-- A role and its namespaces. -/
abbrev Access := ℕ × List String

/-- What an admin's statement makes of the access a pair was last given for good. -/
def recordSet (k : String × String) (db : Database) :
    ℤ × GrantAction → Option Access → Option Access
  | (_, .adminSet userID clusterID roleID namespaces), last =>
      if (userID, clusterID) = k then
        match db.setUserClusterRoleEndingTokens userID clusterID roleID namespaces with
        | .ok _ => some (roleID, namespaces)
        | .error _ => last
      else last
  | (_, .adminDelete userID clusterID), last => if (userID, clusterID) = k then none else last
  | _, last => last

/-- The last admin set on the pair that was not followed by an admin delete. -/
def lastSet (tables : CharTables) (cfg : AccessRequestsConfig) (k : String × String)
    (db : Database) (as : List (ℤ × GrantAction)) : Option Access :=
  replay (grantStep tables cfg) (recordSet k) db none as

/-- What a row gives for good: itself, or what it goes back to. -/
def returnsTo (g : ClusterGrant) : Option Access :=
  if g.expiresAt = none then some (g.roleId, g.namespaces)
  else g.restoreRoleId.map fun r => (r, g.restoreNamespaces)

def permanentAccess (k : String × String) (db : Database) : Option Access :=
  (db.grants.get k).bind returnsTo

/-- A permanent row remembers no role to go back to. -/
def PermanentRowsPlain (db : Database) : Prop :=
  ∀ k g, db.grants.get k = some g → g.expiresAt = none → g.restoreRoleId = none

/-- An approval decided over a temporary grant that goes back to nothing. -/
def approvesOverBareGrant (db : Database) : ℤ × GrantAction → Bool
  | (_, .approve id _ _) =>
      ((db.requests.get id).filter fun q => q.status == .pending).any fun q =>
        (db.grants.get (q.userId, q.clusterId)).any fun g =>
          g.expiresAt.isSome && g.restoreRoleId.isNone
  | _ => false

section Step
variable {tables : CharTables} {cfg : AccessRequestsConfig} {db db' : Database}
  {a : ℤ × GrantAction} {k : String × String} {g : ClusterGrant} {q : AccessRequest} {t : ℤ}

theorem returnsTo_permanentGrant (userId clusterId : String) (access : Access) :
    returnsTo (permanentGrant userId clusterId access.1 access.2) = some access := rfl

/-- A reverted grant gives for good what it was to go back to. -/
theorem restoredGrant_bind_returnsTo (h : g.expiresAt ≠ none) :
    (Database.restoredGrant g).bind returnsTo = returnsTo g := by
  rw [returnsTo, if_neg h, Database.restoredGrant]
  cases g.restoreRoleId <;> rfl

theorem plain_restoredGrant {x : ClusterGrant} (h : Database.restoredGrant g = some x) :
    x.restoreRoleId = none := by
  obtain ⟨r, -, rfl⟩ := Option.map_eq_some_iff.mp h
  rfl

/-- An approval remembers the permanent access, unless it finds a bare temporary grant. -/
theorem returnsTo_approvedGrant (hplain : PermanentRowsPlain db)
    (hbare : ∀ g, db.grants.get (q.userId, q.clusterId) = some g →
      g.expiresAt ≠ none → g.restoreRoleId ≠ none) :
    returnsTo (db.approvedGrant q t) = permanentAccess (q.userId, q.clusterId) db := by
  rw [permanentAccess, Database.approvedGrant, returnsTo]
  cases hg : db.grants.get (q.userId, q.clusterId) with
  | none => rfl
  | some g =>
    cases hr : g.restoreRoleId with
    | none =>
      have hperm : g.expiresAt = none := by
        by_contra hne
        exact hbare g hg hne hr
      simp [returnsTo, hperm, hr]
    | some r =>
      have htemp : g.expiresAt ≠ none := fun he => by
        rw [hplain _ g hg he] at hr
        cases hr
      simp [returnsTo, htemp, hr]

/-- What one step can do to the row of a pair, with what it says of the last admin set. -/
inductive RowStep (db : Database) (k : String × String) (a : ℤ × GrantAction)
    (row : Option ClusterGrant) : Prop
  | kept (hrow : row = db.grants.get k) (hlast : ∀ last, recordSet k db a last = last)
  | approved (q : AccessRequest) (t : ℤ) (hk : (q.userId, q.clusterId) = k)
      (hrow : row = some (db.approvedGrant q t)) (hlast : ∀ last, recordSet k db a last = last)
      (hbare : approvesOverBareGrant db a = false → ∀ g, db.grants.get k = some g →
        g.expiresAt ≠ none → g.restoreRoleId ≠ none)
  | set (access : Access) (hrow : row = some (permanentGrant k.1 k.2 access.1 access.2))
      (hlast : ∀ last, recordSet k db a last = some access)
  | deleted (hrow : row = none) (hlast : ∀ last, recordSet k db a last = none)
  | reverted (g : ClusterGrant) (hg : db.grants.get k = some g) (htemp : g.expiresAt ≠ none)
      (hrow : row = Database.restoredGrant g) (hlast : ∀ last, recordSet k db a last = last)

private theorem rowStep_of_frame {ε : Type} {r : Except ε Database}
    (h : ∀ db', r = .ok db' → db'.grants = db.grants)
    (hlast : ∀ last, recordSet k db a last = last) :
    RowStep db k a ((attempt db r).grants.get k) := by
  apply RowStep.kept _ hlast
  rcases attempt_cases db r with hr | hr
  · rw [hr]
  · rw [h _ hr]

theorem rejectAccessRequest_grants {id deciderID note : String} {now : ℤ}
    (h : db.rejectAccessRequest id deciderID note now = .ok db') : db'.grants = db.grants := by
  unfold Database.rejectAccessRequest at h
  dsimp only at h
  split_ifs at h
  obtain rfl := Except.ok.inj h
  rfl

theorem cancelAccessRequest_grants {id userID : String} {now : ℤ}
    (h : db.cancelAccessRequest id userID now = .ok db') : db'.grants = db.grants := by
  unfold Database.cancelAccessRequest at h
  dsimp only at h
  split_ifs at h
  obtain rfl := Except.ok.inj h
  rfl

theorem grantStep_row (tables : CharTables) (cfg : AccessRequestsConfig) (db : Database)
    (a : ℤ × GrantAction) (k : String × String) :
    RowStep db k a ((grantStep tables cfg db a).grants.get k) := by
  obtain ⟨now, a⟩ := a
  cases a with
  | create payload body id =>
    refine rowStep_of_frame (fun db' h => ?_) fun _ => rfl
    obtain ⟨-, roleId, namespaces, hcreate⟩ := createAccessRequest_ok h
    exact (Database.createAccessRequest_ok hcreate).1
  | reject id deciderID note =>
    exact rowStep_of_frame (fun _ => rejectAccessRequest_grants) fun _ => rfl
  | cancel id userID =>
    exact rowStep_of_frame (fun _ => cancelAccessRequest_grants) fun _ => rfl
  | approve id deciderID note =>
    rcases attempt_cases db ((db.approveAccessRequest id deciderID note now).map Prod.fst) with h | h
    · exact RowStep.kept (by rw [grantStep, h]) fun _ => rfl
    · obtain ⟨t, hok⟩ := ok_of_map_fst h
      obtain ⟨q, hq, hpending, -, hget, -⟩ := Database.approveAccessRequest_ok hok
      by_cases hk : (q.userId, q.clusterId) = k
      · refine RowStep.approved q t hk (by rw [grantStep, hget, if_pos hk]) (fun _ => rfl) ?_
        intro hbare g hg htemp hnone
        simp [approvesOverBareGrant, hq, hpending, hk, hg, hnone] at hbare
        exact htemp hbare
      · exact RowStep.kept (by rw [grantStep, hget, if_neg hk]) fun _ => rfl
  | adminSet userID clusterID roleID namespaces =>
    cases hset : db.setUserClusterRoleEndingTokens userID clusterID roleID namespaces with
    | error e =>
      refine RowStep.kept (by rw [grantStep, hset, attempt]) fun last => ?_
      simp [recordSet, hset]
    | ok db' =>
      have hget := (Database.setUserClusterRoleEndingTokens_ok hset).1 k
      by_cases hk : (userID, clusterID) = k
      · refine RowStep.set (roleID, namespaces) ?_ fun last => ?_
        · rw [grantStep, hset, attempt, hget, if_pos hk, ← hk]
        · simp [recordSet, hset, hk]
      · refine RowStep.kept ?_ fun last => ?_
        · rw [grantStep, hset, attempt, hget, if_neg hk]
        · simp [recordSet, hk]
  | adminDelete userID clusterID =>
    have hget := Database.get_deleteUserClusterRoleEndingTokens db userID clusterID k
    by_cases hk : (userID, clusterID) = k
    · refine RowStep.deleted ?_ fun last => ?_
      · rw [grantStep, hget, if_pos hk]
      · simp [recordSet, hk]
    · refine RowStep.kept ?_ fun last => ?_
      · rw [grantStep, hget, if_neg hk]
      · simp [recordSet, hk]
  | sweep skipped =>
    obtain ⟨db', out, hok, hget, -⟩ := Database.expireGrants_spec db now skipped
    have hstep : (grantStep tables cfg db (now, .sweep skipped)).grants.get k =
        db'.grants.get k := by
      rw [grantStep, hok]
      rfl
    rw [hstep, hget]
    cases hg : db.grants.get k with
    | none => exact RowStep.kept hg.symm fun _ => rfl
    | some g =>
      rw [Option.bind_some]
      split
      · next hswept =>
        have htemp : g.expiresAt ≠ none := fun h => by simp [Database.swept, h] at hswept
        exact RowStep.reverted g hg htemp rfl fun _ => rfl
      · exact RowStep.kept hg.symm fun _ => rfl

/-- Permanent rows stay plain under every step. -/
theorem grantStep_plain (hplain : PermanentRowsPlain db) :
    PermanentRowsPlain (grantStep tables cfg db a) := by
  intro k g hg hperm
  have hrow := grantStep_row tables cfg db a k
  rw [hg] at hrow
  cases hrow with
  | kept hrow => exact hplain k g hrow.symm hperm
  | approved q t hk hrow =>
    obtain rfl := Option.some.inj hrow
    cases hperm
  | set access hrow =>
    obtain rfl := Option.some.inj hrow
    rfl
  | deleted hrow => cases hrow
  | reverted x hx htemp hrow => exact plain_restoredGrant hrow.symm

/-- A step changes the permanent access of a pair only as an admin's statement says. -/
theorem grantStep_refines (k : String × String) (hplain : PermanentRowsPlain db)
    (hbare : approvesOverBareGrant db a = false) :
    permanentAccess k (grantStep tables cfg db a) = recordSet k db a (permanentAccess k db) := by
  have hrow := grantStep_row tables cfg db a k
  rw [permanentAccess]
  cases hrow with
  | kept hrow hlast => rw [hlast, hrow, permanentAccess]
  | approved q t hk hrow hlast hover =>
    subst hk
    rw [hlast, hrow, Option.bind_some, returnsTo_approvedGrant hplain (hover hbare)]
  | set access hrow hlast => rw [hlast, hrow, Option.bind_some, returnsTo_permanentGrant]
  | deleted hrow hlast => rw [hlast, hrow, Option.bind_none]
  | reverted g hg htemp hrow hlast =>
    rw [hlast, hrow, restoredGrant_bind_returnsTo htemp, permanentAccess, hg, Option.bind_some]

end Step

section Run
variable {tables : CharTables} {cfg : AccessRequestsConfig} {db : Database}
  {as : List (ℤ × GrantAction)} {k : String × String}

/-- Along a run without approvals over bare grants, permanent rows stay plain and the
permanent access of every pair is the last admin set. -/
theorem permanentAccess_run (hstart : db.grants = Table.empty)
    (h : Along (grantStep tables cfg) (fun db a => approvesOverBareGrant db a = false) db as) :
    PermanentRowsPlain (exec (grantStep tables cfg) db as) ∧
      permanentAccess k (exec (grantStep tables cfg) db as) = lastSet tables cfg k db as := by
  have hplain : PermanentRowsPlain db := fun k g hg => by simp [hstart] at hg
  have hnone : permanentAccess k db = none := by simp [permanentAccess, hstart]
  refine ⟨exec_invariant (fun _ _ hs _ => grantStep_plain hs) hplain h, ?_⟩
  rw [lastSet, ← hnone]
  exact exec_refines (fun _ _ hs _ => grantStep_plain hs)
    (fun _ _ hs ha => grantStep_refines k hs ha) hplain h

end Run

/-- No temporary grant becomes permanent, as long as no approval is decided over a temporary
grant that goes back to nothing: a permanent row is the last admin set of its pair, and the
sweep that finds a temporary row expired leaves exactly the last admin set, or no row. -/
theorem temporary_never_permanent (tables : CharTables) (cfg : AccessRequestsConfig)
    (db : Database) (hstart : db.grants = Table.empty) (as : List (ℤ × GrantAction))
    (h : Along (grantStep tables cfg) (fun db a => approvesOverBareGrant db a = false) db as)
    (k : String × String) (g : ClusterGrant)
    (hg : (exec (grantStep tables cfg) db as).grants.get k = some g) :
    (g.expiresAt = none → lastSet tables cfg k db as = some (g.roleId, g.namespaces)) ∧
      ∀ t now skipped, g.expiresAt = some t → t ≤ now → k ∉ skipped →
        (grantStep tables cfg (exec (grantStep tables cfg) db as)
          (now, .sweep skipped)).grants.get k =
        (lastSet tables cfg k db as).map fun access =>
          permanentGrant k.1 k.2 access.1 access.2 := by
  have hpair : g.pair = k := Table.key_of_get hg
  have hrun : permanentAccess k _ = lastSet tables cfg k db as := (permanentAccess_run hstart h).2
  rw [permanentAccess, hg, Option.bind_some] at hrun
  refine ⟨fun hperm => by rw [← hrun, returnsTo, if_pos hperm], ?_⟩
  intro t now skipped ht hle hskip
  obtain ⟨db', out, hok, hget, -⟩ :=
    Database.expireGrants_spec (exec (grantStep tables cfg) db as) now skipped
  have hswept : Database.swept now skipped g = true := by
    simp [Database.swept, ht, hle, hpair, hskip]
  have htemp : g.expiresAt ≠ none := by simp [ht]
  rw [grantStep, hok, ← hrun, returnsTo, if_neg htemp]
  refine (hget k).trans ?_
  rw [hg, Option.bind_some, if_pos hswept, Database.restoredGrant, Option.map_map, ← hpair]
  rfl

def hoursOnly : AccessRequestsConfig := ⟨true, 8, ["Read", "Write"]⟩

def signedIn (userID : String) : TokenPayload :=
  ⟨userID, userID ++ "@example.com", Table.empty, Table.empty, Table.empty, 0, ""⟩

def askFor (role : String) : AccessRequestInput := ⟨"prod", role, 60, "deploy", []⟩

/-- The pair's permanent role is revoked while a request waits; the request and a second one
are approved one over the other. -/
def stackedApprovals : List (ℤ × GrantAction) :=
  [(0, .adminSet "alice" "prod" 1 []), (1, .create (signedIn "alice") (askFor "Write") "r1"),
   (2, .adminDelete "alice" "prod"), (3, .approve "r1" "root" ""),
   (4, .create (signedIn "alice") (askFor "Read") "r2"), (5, .approve "r2" "root" ""),
   (3600000000005, .sweep [])]

/-- The role of the first approval stays for good: no admin set stands. -/
theorem stackedApprovals_permanent :
    (exec (grantStep .ascii hoursOnly) .small stackedApprovals).grants.get ("alice", "prod") =
        some (permanentGrant "alice" "prod" 2 []) ∧
      lastSet .ascii hoursOnly ("alice", "prod") .small stackedApprovals = none := by
  decide

def askInWeb (role : String) : AccessRequestInput := { askFor role with namespaces := ["web"] }

/-- A request approved over a permanent grant, and a second one over the first. -/
def stackedOverPermanent : List (ℤ × GrantAction) :=
  [(0, .adminSet "alice" "prod" 1 ["web"]), (1, .create (signedIn "alice") (askInWeb "Write") "r1"),
   (2, .approve "r1" "root" ""), (3, .create (signedIn "alice") (askInWeb "Read") "r2"),
   (4, .approve "r2" "root" "")]

theorem temporary_never_permanent_stacked :
    (grantStep .ascii hoursOnly
      (exec (grantStep .ascii hoursOnly) .small stackedOverPermanent)
      (3600000000004, .sweep [])).grants.get ("alice", "prod") =
    (lastSet .ascii hoursOnly ("alice", "prod") .small stackedOverPermanent).map fun access =>
      permanentGrant "alice" "prod" access.1 access.2 :=
  (temporary_never_permanent .ascii hoursOnly .small rfl stackedOverPermanent
    (by decide) ("alice", "prod")
    ⟨"alice", "prod", 1, ["web"], some 3600000000004, some 1, ["web"], some "r2"⟩
    (by decide)).2 3600000000004 3600000000004 [] rfl (by decide) (by decide)

end Kubeast
