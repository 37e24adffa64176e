import Kubeast.ClusterRoles
import Kubeast.Foundation.Text
import Mathlib.Data.List.Dedup

/-! Roles (`auth-service-go/internal/repository/repository_role.go`). -/
namespace Kubeast
open Text

structure RoleWithPermissions extends Role where
  permissions : List String
deriving DecidableEq

/-- Where a role is granted. -/
structure RoleGrant where
  clusterId : String
  namespaces : List String
deriving DecidableEq

/-- Whose issued tokens an edit of a role ends. -/
inductive RoleTokens
  | kept
  | ofGrants
  | ofAllHolders
deriving DecidableEq

namespace Database

def getPermissionsByRoleID (db : Database) (roleId : ℕ) : List String :=
  sortStrings ((db.rolePermissions.select fun r => r.1 == roleId).map Prod.snd)

def withPermissions (db : Database) (r : Role) : RoleWithPermissions :=
  { r with permissions := db.getPermissionsByRoleID r.id }

def getRoleByID (db : Database) (id : ℕ) : Option RoleWithPermissions :=
  (db.roles.get id).map db.withPermissions

def getRoleByName (db : Database) (name : String) : Option RoleWithPermissions :=
  (db.roles.rows.find? fun r => r.name == name).map db.withPermissions

def listRoleNames (db : Database) : List Role :=
  db.roles.rows.insertionSort fun a b => a.id ≤ b.id

/-- Grants that give the role now or go back to it, each place once (`UNION`). -/
def listRoleGrants (db : Database) (roleId : ℕ) : List RoleGrant :=
  (((db.grants.select fun g => g.roleId == roleId).map fun g =>
      RoleGrant.mk g.clusterId g.namespaces) ++
    (db.grants.select fun g => g.restoreRoleId == some roleId).map fun g =>
      RoleGrant.mk g.clusterId g.restoreNamespaces).dedup

def holdsOnCluster (db : Database) (roleId : ℕ) (userId : String) : Bool :=
  ((db.grants.select fun g => g.roleId == roleId).map ClusterGrant.userId).contains userId

end Database

/-- The accounts whose `token_version` the statement raises; none for `kept`. -/
def RoleTokens.statement (db : Database) (roleId : ℕ) : RoleTokens → Option (User → Bool)
  | .kept => none
  | .ofGrants => some fun u => db.holdsOnCluster roleId u.id
  | .ofAllHolders => some fun u => u.roleId == roleId || db.holdsOnCluster roleId u.id

namespace Database

/-- `UPDATE roles SET name, description WHERE id RETURNING …`. -/
def updateRoleRow (db : Database) (id : ℕ) (name description : String) :
    Except StoreError (Database × Role) :=
  match db.roles.get id with
  | none => .error .noRows
  | some r =>
    if db.roles.rows.any fun other => other.id != id && other.name == name then
      .error .uniqueViolation
    else
      .ok ({ db with
        roles := db.roles.update (fun x => x.id == id)
          (fun x => { x with name := name, description := description }) fun _ => rfl
        grants_refer := fun g hg => by
          simpa [Directory.RefersGrant, Directory.Refers] using db.grants_refer g hg
        requests_refer := fun q hq => by
          simpa [Directory.Refers] using db.requests_refer q hq },
        { r with name := name, description := description })

def insertPermission (db : Database) (roleId : ℕ) (p : String) : Except StoreError Database :=
  if h : db.rolePermissions.get (roleId, p) = none then
    .ok { db with rolePermissions := db.rolePermissions.insert (roleId, p) h }
  else .error .uniqueViolation

/-- One transaction: the row, its permissions anew, and the tokens the edit ends. -/
def updateRole (db : Database) (id : ℕ) (name description : String) (permissions : List String)
    (tokens : RoleTokens) : Except StoreError (Database × RoleWithPermissions) := do
  let (db, role) ← db.updateRoleRow id name description
  let db := { db with rolePermissions := db.rolePermissions.delete fun r => r.1 == id }
  let db ← permissions.foldlM (fun db p => db.insertPermission id p) db
  let db := match tokens.statement db id with
    | none => db
    | some ended => db.bumpTokenVersion ended
  return (db, { role with permissions := permissions })

section Spec
variable {db db' : Database} {id roleId : ℕ} {name description p : String}
  {permissions : List String} {tokens : RoleTokens}

theorem mem_getPermissionsByRoleID :
    p ∈ db.getPermissionsByRoleID roleId ↔ (roleId, p) ∈ db.rolePermissions.rows := by
  simp [getPermissionsByRoleID]

theorem mem_listRoleGrants {g : RoleGrant} :
    g ∈ db.listRoleGrants roleId ↔
      (∃ r ∈ db.grants.rows, r.roleId = roleId ∧ ⟨r.clusterId, r.namespaces⟩ = g) ∨
      ∃ r ∈ db.grants.rows, r.restoreRoleId = some roleId ∧
        ⟨r.clusterId, r.restoreNamespaces⟩ = g := by
  simp [listRoleGrants, and_assoc]

theorem holdsOnCluster_iff {userId : String} :
    db.holdsOnCluster roleId userId = true ↔
      ∃ r ∈ db.grants.rows, r.roleId = roleId ∧ r.userId = userId := by
  simp [holdsOnCluster, and_assoc]

/-- The insert loop adds the new pairs and touches no other table. -/
theorem insertPermissions_ok (ps : List String) (db : Database)
    (h : ps.foldlM (fun db p => db.insertPermission id p) db = Except.ok db') :
    (∀ r p, (r, p) ∈ db'.rolePermissions.rows ↔
      (r, p) ∈ db.rolePermissions.rows ∨ r = id ∧ p ∈ ps) ∧
      db' = { db with rolePermissions := db'.rolePermissions } := by
  induction ps generalizing db with
  | nil =>
    obtain rfl := Except.ok.inj h
    simp
  | cons a ps ih =>
    rw [List.foldlM_cons] at h
    obtain ⟨db₁, hfirst, hrest⟩ := Transition.bind_eq_ok.mp h
    rw [insertPermission] at hfirst
    split at hfirst
    · obtain rfl := Except.ok.inj hfirst
      obtain ⟨hmem, hframe⟩ := ih _ hrest
      refine ⟨fun r p => ?_, hframe⟩
      rw [hmem, Table.mem_insert, List.mem_cons, Prod.mk.injEq]
      tauto
    · cases hfirst

/-- What an edit of a role leaves behind. -/
structure RoleUpdated (db db' : Database) (id : ℕ) (name : String) (permissions : List String)
    (tokens : RoleTokens) : Prop where
  grants : db'.grants = db.grants
  permission : ∀ r p, p ∈ db'.getPermissionsByRoleID r ↔
    if r = id then p ∈ permissions else p ∈ db.getPermissionsByRoleID r
  role : ∀ r, (db'.roles.get r).map Role.name =
    (db.roles.get r).map fun x => if x.id = id then name else x.name
  user : ∀ u, db'.users.get u = (db.users.get u).map fun x =>
    if ((tokens.statement db id).any fun ended => ended x) = true
      then { x with tokenVersion := x.tokenVersion + 1 } else x

private theorem statement_frame {db₁ : Database} (h : db₁.grants = db.grants) :
    tokens.statement db₁ id = tokens.statement db id := by
  cases tokens <;> simp [RoleTokens.statement, holdsOnCluster, h]

theorem updateRoleRow_ok {db₁ : Database} {row : Role}
    (h : db.updateRoleRow id name description = .ok (db₁, row)) :
    db₁.grants = db.grants ∧ db₁.users = db.users ∧ db₁.rolePermissions = db.rolePermissions ∧
      ∀ r, (db₁.roles.get r).map Role.name =
        (db.roles.get r).map fun x => if x.id = id then name else x.name := by
  rw [updateRoleRow] at h
  split at h
  · cases h
  split at h
  · cases h
  obtain ⟨rfl, rfl⟩ := Prod.mk.inj (Except.ok.inj h)
  refine ⟨rfl, rfl, rfl, fun r => ?_⟩
  have hget := Table.get_update (t := db.roles) (k := r) (p := fun x => x.id == id)
    (f := fun x => { x with name := name, description := description }) fun _ => rfl
  rw [hget, Option.map_map]
  congr 1
  funext x
  by_cases hx : x.id = id <;> simp [hx]

theorem updateRole_ok {role : RoleWithPermissions}
    (h : db.updateRole id name description permissions tokens = .ok (db', role)) :
    RoleUpdated db db' id name permissions tokens := by
  obtain ⟨⟨db₁, row⟩, hrow, hbody⟩ := Transition.bind_eq_ok.mp h
  obtain ⟨db₂, hinsert, hreturn⟩ := Transition.bind_eq_ok.mp hbody
  obtain ⟨hgrants, husers, hperms, hroles⟩ := updateRoleRow_ok hrow
  obtain ⟨hmem, hframe⟩ := insertPermissions_ok permissions _ hinsert
  have hgrants₂ : db₂.grants = db.grants := by rw [hframe, ← hgrants]
  have husers₂ : db₂.users = db.users := by rw [hframe, ← husers]
  have hroles₂ : db₂.roles = db₁.roles := by rw [hframe]
  have hperms₂ : ∀ r p, p ∈ db₂.getPermissionsByRoleID r ↔
      if r = id then p ∈ permissions else p ∈ db.getPermissionsByRoleID r := by
    intro r p
    rw [mem_getPermissionsByRoleID, hmem, Table.mem_delete, hperms, mem_getPermissionsByRoleID]
    by_cases hr : r = id <;> simp [hr]
  rw [← hroles₂] at hroles
  obtain ⟨hdb, -⟩ := Prod.mk.inj (Except.ok.inj hreturn)
  rw [statement_frame hgrants₂] at hdb
  cases hended : tokens.statement db id with
  | none =>
    rw [hended] at hdb
    subst hdb
    exact ⟨hgrants₂, hperms₂, hroles, fun u => by simp [hended, husers₂]⟩
  | some ended =>
    rw [hended] at hdb
    subst hdb
    refine ⟨hgrants₂, hperms₂, hroles, fun u => ?_⟩
    simp only [hended, Option.any_some, ← husers₂]
    exact get_users_bumpTokenVersion

end Spec
end Database
end Kubeast
