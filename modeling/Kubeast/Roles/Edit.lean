import Kubeast.AccessRequests.Store
import Kubeast.Permissions.Catalog
import Kubeast.Roles.Store

/-! Editing a role (`UpdateRole` in `auth-service-go/internal/handler/role.go`). A role in
use reaches its holders at once, so the edit is checked against every grant of it. -/
namespace Kubeast
open Text Permissions Transition

structure UpdateRoleRequest where
  name : String
  description : String
  permissions : List String

def samePermissions (a b : List String) : Bool := a.length == b.length && b.all a.contains

/-- Why a role may not take this name; `id` is the role being renamed. -/
def roleNameConflict (tables : CharTables) (db : Database) (name : String) (id : ℕ) :
    Option String :=
  let slug := roleGroupSlug tables name
  (db.listRoleNames.find? fun other =>
    other.id != id && roleGroupSlug tables other.name == slug).map fun other =>
      if other.isSystem then
        "Role name " ++ quote tables name ++ " is taken: it is the built-in role " ++ other.name ++
          " apart from letter case or spaces"
      else
        "Role name " ++ quote tables name ++ " acts as the same Kubernetes group as role " ++
          quote tables other.name ++ " (kubeast:role:" ++ slug ++ "). Choose another name"

/-- A name whose group the chart binds is for a global admin only. -/
def chartBoundCeiling (tables : CharTables) (boundSlugs : List String) (actor : TokenPayload)
    (name : String) : Option String :=
  let slug := roleGroupSlug tables name
  if slug ∉ boundSlugs ∨ actor.holdsEverything = true then none
  else some ("permission ceiling: the chart binds kubeast:role:" ++ slug ++
    " on the clusters (auth.impersonation.customRoles). " ++
    "Only a global admin can give a role this name")

/-- The keys an edit adds to what the role covers. -/
def addedPermissions (covered perms : List String) : List String :=
  perms.filter fun p => !matchAny covered p

/-- A key the role does not cover yet must be held wherever the role is granted, as far as
it is granted there. -/
def grantedRoleCeiling (db : Database) (actor : TokenPayload) (roleID : ℕ)
    (covered perms : List String) : Option String :=
  let added := addedPermissions covered perms
  if added = [] then none
  else
    let missing := (db.listRoleGrants roleID).flatMap fun g =>
      missingOnCluster actor added g.clusterId g.namespaces
    if missing = [] then none
    else some ("permission ceiling: this role is granted where you do not hold what it would add: "
      ++ String.intercalate ", " (sortStrings missing).dedup)

/-- The loop of `tokensEndedBy` over the keys the role had. -/
def tokensEndedByKeys (perms : List String) : RoleTokens → List String → RoleTokens
  | tokens, [] => tokens
  | tokens, p :: rest =>
      if matchAny perms p then tokensEndedByKeys perms tokens rest
      else if isGlobalPermission p then .ofAllHolders
      else tokensEndedByKeys perms .ofGrants rest

/-- Whose issued tokens the edit makes wrong: only what was taken away ends a session. -/
def tokensEndedBy (tables : CharTables) (existing : RoleWithPermissions) (name : String)
    (perms : List String) : RoleTokens :=
  let tokens := if roleGroupSlug tables name ≠ roleGroupSlug tables existing.name
    then RoleTokens.ofGrants else .kept
  tokensEndedByKeys perms tokens existing.permissions

def refuseWith (status : ℕ) (reason : Option String) : Except Refusal Unit :=
  reason.elim (.ok ()) fun detail => .error ⟨status, detail⟩

/-- The checks of a rename; a stored name stays usable whatever it is. -/
def checkRename (tables : CharTables) (boundSlugs : List String) (db : Database)
    (payload : TokenPayload) (existing : RoleWithPermissions) (name : String) :
    Except Refusal Unit :=
  if trimSpace name = trimSpace existing.name then .ok ()
  else do
    failIf (trimSpace name = "") ⟨400, "Name required"⟩
    refuseWith 400 (roleNameConflict tables db name existing.id)
    if roleGroupSlug tables name ≠ roleGroupSlug tables existing.name
      then refuseWith 403 (chartBoundCeiling tables boundSlugs payload name) else .ok ()

def updateRole (tables : CharTables) (boundSlugs : List String) (db : Database)
    (payload : TokenPayload) (idParam : Option ℕ) (body : Option UpdateRoleRequest) :
    Except Refusal (Database × RoleWithPermissions) := do
  failIf (¬ payload.hasPermission "admin.roles.update") ⟨403, "Permission denied"⟩
  let id ← orFail idParam ⟨400, "Invalid ID"⟩
  let existing ← orFail (db.getRoleByID id) ⟨404, "Role not found"⟩
  let req ← orFail body ⟨400, "Invalid request body"⟩
  failIf (existing.isSystem ∧ req.name ≠ existing.name) ⟨400, "Cannot rename system role"⟩
  failIf (existing.isSystem ∧ ¬ samePermissions existing.permissions req.permissions)
    ⟨403, "System role permissions are fixed"⟩
  let unknown := unknownPermissions req.permissions
  failIf (unknown ≠ []) ⟨400, "Unknown permissions: " ++ String.intercalate ", " unknown⟩
  let missing := missingPermissions payload req.permissions ""
  failIf (missing ≠ []) ⟨403, ceilingError missing⟩
  refuseWith 403 (grantedRoleCeiling db payload id existing.permissions req.permissions)
  checkRename tables boundSlugs db payload existing req.name
  (db.updateRole id req.name req.description req.permissions
    (tokensEndedBy tables existing req.name req.permissions)).mapError fun _ => internalError

/-- What an accepted edit has passed, and the statement it ran. -/
structure EditAccepted (tables : CharTables) (db : Database) (payload : TokenPayload) (id : ℕ)
    (req : UpdateRoleRequest) (existing : RoleWithPermissions) : Prop where
  stored : db.getRoleByID id = some existing
  known : unknownPermissions req.permissions = []
  held : missingPermissions payload req.permissions "" = []
  granted : grantedRoleCeiling db payload id existing.permissions req.permissions = none

section Accepted
variable {tables : CharTables} {boundSlugs : List String} {db db' : Database}
  {payload : TokenPayload} {idParam : Option ℕ} {body : Option UpdateRoleRequest}
  {role existing : RoleWithPermissions} {id : ℕ} {req : UpdateRoleRequest}
  {covered perms : List String} {p q n : String}

theorem refuseWith_eq_ok {status : ℕ} {reason : Option String} {x : Unit} :
    refuseWith status reason = .ok x ↔ reason = none := by
  cases reason <;> simp [refuseWith]

theorem updateRole_ok
    (h : updateRole tables boundSlugs db payload idParam body = .ok (db', role)) :
    ∃ id req existing, EditAccepted tables db payload id req existing ∧
      db.updateRole id req.name req.description req.permissions
        (tokensEndedBy tables existing req.name req.permissions) = .ok (db', role) := by
  obtain ⟨_, -, h₁⟩ := bind_eq_ok.mp h
  obtain ⟨id, -, h₂⟩ := bind_eq_ok.mp h₁
  obtain ⟨existing, hstored, h₃⟩ := bind_eq_ok.mp h₂
  obtain ⟨req, -, h₄⟩ := bind_eq_ok.mp h₃
  obtain ⟨_, -, h₅⟩ := bind_eq_ok.mp h₄
  obtain ⟨_, -, h₆⟩ := bind_eq_ok.mp h₅
  obtain ⟨_, hknown, h₇⟩ := bind_eq_ok.mp h₆
  obtain ⟨_, hheld, h₈⟩ := bind_eq_ok.mp h₇
  obtain ⟨_, hgranted, h₉⟩ := bind_eq_ok.mp h₈
  obtain ⟨_, -, hrun⟩ := bind_eq_ok.mp h₉
  exact ⟨id, req, existing,
    ⟨orFail_eq_ok.mp hstored, not_not.mp (failIf_eq_ok.mp hknown),
      not_not.mp (failIf_eq_ok.mp hheld), refuseWith_eq_ok.mp hgranted⟩, mapError_eq_ok.mp hrun⟩

theorem permissions_of_getRoleByID (h : db.getRoleByID id = some existing) :
    existing.permissions = db.getPermissionsByRoleID id ∧
      (db.roles.get id).map Role.name = some existing.name := by
  obtain ⟨r, hr, rfl⟩ := Option.map_eq_some_iff.mp h
  have hid : r.id = id := Table.key_of_get hr
  exact ⟨by rw [← hid]; rfl, by rw [hr]; rfl⟩

/-- A permission only the new list gives comes from an added key. -/
theorem added_of_gained (hnew : matchAny perms q = true) (hold : matchAny covered q = false) :
    ∃ p ∈ addedPermissions covered perms, permMatches p q = true := by
  obtain ⟨p, hp, hpq⟩ := matchAny_eq_true.mp hnew
  refine ⟨p, List.mem_filter.mpr ⟨hp, ?_⟩, hpq⟩
  cases hc : matchAny covered p with
  | false => rfl
  | true =>
    rw [matchAny_trans hc hpq] at hold
    cases hold

/-- The ceiling over the grants of a role: what an edit adds, the editor holds wherever the
role is granted, in every namespace it is granted in. -/
theorem held_of_gained {g : RoleGrant}
    (h : grantedRoleCeiling db payload id covered perms = none)
    (hadmin : payload.holdsEverything = false) (hg : g ∈ db.listRoleGrants id)
    (hcluster : g.clusterId ≠ "") (hnew : matchAny perms q = true)
    (hold : matchAny covered q = false) (hn : g.namespaces = [] ∨ n ∈ g.namespaces) :
    payload.hasPermissionForCluster q g.clusterId = true ∧
      payload.allowedIn g.clusterId n = true := by
  obtain ⟨p, hp, hpq⟩ := added_of_gained hnew hold
  have hne : addedPermissions covered perms ≠ [] := fun e => by simp [e] at hp
  simp only [grantedRoleCeiling, if_neg hne] at h
  split_ifs at h with hmissing
  have hnone := List.flatMap_eq_nil_iff.mp hmissing g hg
  obtain ⟨hperms, hns⟩ := missingOnCluster_eq_nil.mp hnone
  refine ⟨hasPermissionForCluster_of_covered hcluster hperms hp hpq, ?_⟩
  rcases allowedIn_of_missingNamespaces hns hn with hall | hallowed
  · rw [hadmin] at hall
    cases hall
  · exact hallowed

end Accepted

namespace Database

/-- The grant of an account on a cluster gives a permission in a namespace. -/
def gives (db : Database) (now : ℤ) (userId clusterId q ns : String) : Bool :=
  ((db.grants.get (userId, clusterId)).filter (activeGrant now)).any fun g =>
    matchAny (db.getPermissionsByRoleID g.roleId) q &&
      (g.namespaces.isEmpty || g.namespaces.contains ns)

/-- The state once the temporary grants whose time has passed are reverted. -/
def afterSweep (db : Database) (now : ℤ) (skipped : List (String × String)) : Database :=
  attempt db ((db.expireGrants now skipped).map Prod.fst)

theorem gives_iff {db : Database} {now : ℤ} {userId clusterId q ns : String} :
    db.gives now userId clusterId q ns = true ↔
      ∃ g, db.grants.get (userId, clusterId) = some g ∧ activeGrant now g = true ∧
        matchAny (db.getPermissionsByRoleID g.roleId) q = true ∧
        (g.namespaces = [] ∨ ns ∈ g.namespaces) := by
  simp only [gives, Option.any_eq_true_iff_get, Option.any_filter]
  cases hg : db.grants.get (userId, clusterId) <;> simp

theorem afterSweep_spec (db : Database) (now : ℤ) (skipped : List (String × String)) :
    (∀ k, (db.afterSweep now skipped).grants.get k = (db.grants.get k).bind fun g =>
      if swept now skipped g = true then restoredGrant g else some g) ∧
      (db.afterSweep now skipped).rolePermissions = db.rolePermissions := by
  obtain ⟨db', out, hok, hget, hperms, -⟩ := expireGrants_spec db now skipped
  simp only [afterSweep, hok]
  exact ⟨hget, hperms⟩

theorem getPermissionsByRoleID_afterSweep {db : Database} {now : ℤ}
    {skipped : List (String × String)} {r : ℕ} :
    (db.afterSweep now skipped).getPermissionsByRoleID r = db.getPermissionsByRoleID r := by
  rw [getPermissionsByRoleID, (afterSweep_spec db now skipped).2, getPermissionsByRoleID]

/-- A grant of a role, and a grant the sweep leaves of it, is listed for the ceiling. -/
theorem mem_listRoleGrants_of_get {db : Database} {userId clusterId : String} {g : ClusterGrant}
    (hg : db.grants.get (userId, clusterId) = some g) :
    ⟨clusterId, g.namespaces⟩ ∈ db.listRoleGrants g.roleId := by
  have hpair : g.pair = (userId, clusterId) := Table.key_of_get hg
  have hcluster : g.clusterId = clusterId := (Prod.mk.inj hpair).2
  exact mem_listRoleGrants.mpr (Or.inl ⟨g, Table.mem_of_get hg, rfl, by rw [hcluster]⟩)

theorem mem_listRoleGrants_of_afterSweep {db : Database} {now : ℤ}
    {skipped : List (String × String)} {userId clusterId : String} {g : ClusterGrant}
    (hg : (db.afterSweep now skipped).grants.get (userId, clusterId) = some g) :
    ⟨clusterId, g.namespaces⟩ ∈ db.listRoleGrants g.roleId := by
  rw [(afterSweep_spec db now skipped).1, Option.bind_eq_some_iff] at hg
  obtain ⟨x, hx, hstays⟩ := hg
  split at hstays
  · have hpair : x.pair = (userId, clusterId) := Table.key_of_get hx
    have hcluster : x.clusterId = clusterId := (Prod.mk.inj hpair).2
    obtain ⟨r, hr, rfl⟩ := Option.map_eq_some_iff.mp hstays
    exact mem_listRoleGrants.mpr (Or.inr ⟨x, Table.mem_of_get hx, hr, by rw [hcluster]; rfl⟩)
  · obtain rfl := Option.some.inj hstays
    exact mem_listRoleGrants_of_get hx

end Database

section Widening
variable {tables : CharTables} {db before after : Database} {payload : TokenPayload} {id : ℕ}
  {covered perms : List String} {now : ℤ} {userId clusterId q ns : String}

/-- Only a holder of the edited role gains a permission, and one the role did not cover. -/
theorem gained_of_edited {r : ℕ}
    (hperm : ∀ p, p ∈ after.getPermissionsByRoleID r ↔
      if r = id then p ∈ perms else p ∈ before.getPermissionsByRoleID r)
    (hnew : matchAny (after.getPermissionsByRoleID r) q = true)
    (hold : matchAny (before.getPermissionsByRoleID r) q = false) :
    r = id ∧ matchAny perms q = true := by
  obtain ⟨p, hp, hpq⟩ := matchAny_eq_true.mp hnew
  rw [hperm] at hp
  split at hp
  · next hr => exact ⟨hr, matchAny_eq_true.mpr ⟨p, hp, hpq⟩⟩
  · rw [matchAny_eq_true.mpr ⟨p, hp, hpq⟩] at hold
    cases hold

/-- Two states with the same grants, one with the edited role: what a grant gives in the
second only, the editor holds. -/
theorem held_of_widened
    (hceiling : grantedRoleCeiling db payload id (db.getPermissionsByRoleID id) perms = none)
    (hadmin : payload.holdsEverything = false)
    (hgrants : after.grants.get (userId, clusterId) = before.grants.get (userId, clusterId))
    (hperms : ∀ r, before.getPermissionsByRoleID r = db.getPermissionsByRoleID r)
    (hperm : ∀ r p, p ∈ after.getPermissionsByRoleID r ↔
      if r = id then p ∈ perms else p ∈ before.getPermissionsByRoleID r)
    (hlisted : ∀ g, before.grants.get (userId, clusterId) = some g →
      ⟨clusterId, g.namespaces⟩ ∈ db.listRoleGrants g.roleId)
    (hnew : after.gives now userId clusterId q ns = true)
    (hold : before.gives now userId clusterId q ns = false) :
    payload.hasPermissionForCluster q clusterId = true ∧
      payload.allowedIn clusterId ns = true := by
  obtain ⟨g, hg, hactive, hmatch, hns⟩ := Database.gives_iff.mp hnew
  rw [hgrants] at hg
  have hlost : matchAny (before.getPermissionsByRoleID g.roleId) q = false := by
    rw [← Bool.not_eq_true] at hold ⊢
    exact fun h => hold (Database.gives_iff.mpr ⟨g, hg, hactive, h, hns⟩)
  obtain ⟨hrole, hgained⟩ := gained_of_edited (hperm g.roleId) hmatch hlost
  have hmem := hlisted g hg
  rw [hperms] at hlost
  rw [hrole] at hlost hmem
  have hcluster : clusterId ≠ "" := by
    have hpair : g.pair = (userId, clusterId) := Table.key_of_get hg
    have hrefers := (before.grants_refer g (Table.mem_of_get hg)).1.clusterId_ne
    rwa [(Prod.mk.inj hpair).2] at hrefers
  exact held_of_gained hceiling hadmin hmem hcluster hgained hlost hns

end Widening

/-- Editing a granted role never widens anyone past the editor: what a grant gives after the
edit and did not give before it, the editor holds on the cluster and reaches there; so too
for the grant a temporary one goes back to when it ends. -/
theorem updateRole_never_widens (tables : CharTables) (boundSlugs : List String)
    (db db' : Database) (payload : TokenPayload) (idParam : Option ℕ)
    (body : Option UpdateRoleRequest) (role : RoleWithPermissions)
    (hadmin : payload.holdsEverything = false)
    (h : updateRole tables boundSlugs db payload idParam body = .ok (db', role))
    (userId clusterId q ns : String) (now : ℤ) :
    (db'.gives now userId clusterId q ns = true → db.gives now userId clusterId q ns = false →
      payload.hasPermissionForCluster q clusterId = true ∧
        payload.allowedIn clusterId ns = true) ∧
    ∀ (ended : ℤ) (skipped : List (String × String)),
      (db'.afterSweep ended skipped).gives now userId clusterId q ns = true →
      (db.afterSweep ended skipped).gives now userId clusterId q ns = false →
      payload.hasPermissionForCluster q clusterId = true ∧
        payload.allowedIn clusterId ns = true := by
  obtain ⟨id, req, existing, haccepted, hrun⟩ := updateRole_ok h
  have hupdated := Database.updateRole_ok hrun
  have hceiling := haccepted.granted
  rw [(permissions_of_getRoleByID haccepted.stored).1] at hceiling
  constructor
  · intro hnew hold
    exact held_of_widened hceiling hadmin (by rw [hupdated.grants]) (fun _ => rfl)
      hupdated.permission (fun g hg => Database.mem_listRoleGrants_of_get hg) hnew hold
  · intro ended skipped hnew hold
    refine held_of_widened hceiling hadmin ?_
      (fun _ => Database.getPermissionsByRoleID_afterSweep) ?_
      (fun g hg => Database.mem_listRoleGrants_of_afterSweep hg) hnew hold
    · rw [(Database.afterSweep_spec db' _ _).1, (Database.afterSweep_spec db _ _).1,
        hupdated.grants]
    · intro r p
      rw [Database.getPermissionsByRoleID_afterSweep, Database.getPermissionsByRoleID_afterSweep]
      exact hupdated.permission r p

/-- Alice operates `prod`; the role she has there is about to get a second permission. -/
def Database.withOps : Database :=
  { Database.small with
    roles := ⟨[⟨3, "Admin", "", true⟩, ⟨4, "Member", "", true⟩, ⟨5, "Ops", "", false⟩], by decide⟩
    rolePermissions := ⟨[(3, "*"), (5, "resource.*.read")], by decide⟩
    grants := ⟨[permanentGrant "alice" "prod" 5 []], by decide⟩
    grants_refer := by decide
    requests_refer := by simp [Database.small, Table.empty] }

/-- A role editor who may edit workloads on `prod`. -/
def opsEditor : TokenPayload where
  userID := "root"
  email := "root@example.com"
  perms := (Table.empty.upsert ("*", ["admin.roles.*"]) id fun x => Eq.refl x.1).upsert
    ("prod", ["resource.*.*"]) id fun x => Eq.refl x.1
  roles := Table.empty
  namespaces := Table.empty
  tokenVersion := 0
  system := ""

def opsEdit : UpdateRoleRequest := ⟨"Ops", "", ["resource.*.read", "resource.*.edit"]⟩

def opsEdited : Database × RoleWithPermissions :=
  attempt (Database.withOps, Database.withOps.withPermissions ⟨5, "Ops", "", false⟩)
    (updateRole .ascii [] Database.withOps opsEditor (some 5) (some opsEdit))

theorem updateRole_opsEdit :
    updateRole .ascii [] Database.withOps opsEditor (some 5) (some opsEdit) = .ok opsEdited :=
  eq_ok_of_isOk (by decide)

theorem updateRole_never_widens_ops :
    opsEditor.hasPermissionForCluster "resource.pod.edit" "prod" = true ∧
      opsEditor.allowedIn "prod" "web" = true :=
  (updateRole_never_widens .ascii [] Database.withOps opsEdited.1 opsEditor (some 5) (some opsEdit)
    opsEdited.2 (by decide) updateRole_opsEdit "alice" "prod" "resource.pod.edit" "web" 0).1 (by decide) (by decide)

end Kubeast
