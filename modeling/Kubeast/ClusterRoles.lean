import Kubeast.Database
import Kubeast.Foundation.Transition
import Mathlib.Data.List.Sort

/-! Cluster grants (`auth-service-go/internal/repository/repository_cluster_roles.go`). -/
namespace Kubeast

/-- A temporary grant is gone for every reader once its time passes, swept or not. -/
def activeGrant (now : ℤ) (g : ClusterGrant) : Bool := g.expiresAt.all fun t => decide (now < t)

structure UserClusterRole where
  clusterId : String
  roleId : ℕ
  namespaces : List String
deriving DecidableEq

structure UserClusterGrant where
  clusterId : String
  roleId : ℕ
  role : String
  expiresAt : Option ℤ
  namespaces : List String
deriving DecidableEq

/-- The row a permanent grant writes. -/
def permanentGrant (userId clusterId : String) (roleId : ℕ) (namespaces : List String) :
    ClusterGrant where
  userId := userId
  clusterId := clusterId
  roleId := roleId
  namespaces := namespaces
  expiresAt := none
  restoreRoleId := none
  restoreNamespaces := []
  requestId := none

namespace Database

/-- A grant joined with the name of its role. -/
def viewGrant (db : Database) (g : ClusterGrant) : Option UserClusterGrant :=
  (db.roles.get g.roleId).map fun ro =>
    { clusterId := g.clusterId, roleId := g.roleId, role := ro.name, expiresAt := g.expiresAt,
      namespaces := g.namespaces }

def activeGrantsOf (db : Database) (now : ℤ) (userId : String) : List ClusterGrant :=
  db.grants.select fun g => g.userId == userId && activeGrant now g

def getUserClusterGrant (db : Database) (now : ℤ) (userId clusterId : String) :
    Option UserClusterGrant :=
  ((db.grants.get (userId, clusterId)).filter (activeGrant now)).bind db.viewGrant

def listUserClusterGrants (db : Database) (now : ℤ) (userId : String) : List UserClusterGrant :=
  ((db.activeGrantsOf now userId).filterMap db.viewGrant).insertionSort
    fun a b => a.clusterId ≤ b.clusterId

def listUserClusterRoles (db : Database) (now : ℤ) (userId : String) : List UserClusterRole :=
  (db.activeGrantsOf now userId).map fun g =>
    { clusterId := g.clusterId, roleId := g.roleId, namespaces := g.namespaces }

/-- Cluster id to role name, the token's `roles` claim. -/
def listUserClusterRoleNames (db : Database) (now : ℤ) (userId : String) : Dict String String :=
  ((db.activeGrantsOf now userId).filterMap db.viewGrant).foldl
    (fun m g => m.set g.clusterId g.role) Table.empty

/-- Cluster id to the namespaces of a limited grant, the token's `ns` claim. -/
def listUserClusterNamespaces (db : Database) (now : ℤ) (userId : String) :
    Dict String (List String) :=
  ((db.activeGrantsOf now userId).filter fun g => !g.namespaces.isEmpty).foldl
    (fun m g => m.set g.clusterId g.namespaces) Table.empty

/-- An explicit grant is permanent: it clears the columns of a temporary one. -/
def setUserClusterRole (db : Database) (userId clusterId : String) (roleId : ℕ)
    (namespaces : List String) : Except StoreError Database :=
  db.upsertGrant (permanentGrant userId clusterId roleId namespaces)

def endTokens (db : Database) (userId : String) : Database :=
  db.bumpTokenVersion fun u => u.id == userId

def setUserClusterRoleEndingTokens (db : Database) (userId clusterId : String) (roleId : ℕ)
    (namespaces : List String) : Except StoreError Database := do
  let db ← db.setUserClusterRole userId clusterId roleId namespaces
  return db.endTokens userId

/-- The grant is gone afterwards; says whether there was one. -/
def deleteUserClusterRole (db : Database) (userId clusterId : String) : Database × Bool :=
  (db.deleteGrants fun g => g.pair == (userId, clusterId),
    (db.grants.get (userId, clusterId)).isSome)

def deleteUserClusterRoleEndingTokens (db : Database) (userId clusterId : String) :
    Database × Bool :=
  let (deleted, existed) := db.deleteUserClusterRole userId clusterId
  if existed then (deleted.endTokens userId, true) else (deleted, false)

section Spec
variable {db db' : Database} {userId clusterId : String} {roleId : ℕ} {namespaces : List String}
  {k : String × String}

theorem setUserClusterRole_ok
    (h : db.setUserClusterRole userId clusterId roleId namespaces = .ok db') :
    (∀ k, db'.grants.get k = if (userId, clusterId) = k
      then some (permanentGrant userId clusterId roleId namespaces) else db.grants.get k) ∧
      db'.requests = db.requests ∧ db'.toDirectory = db.toDirectory :=
  upsertGrant_ok h

theorem setUserClusterRoleEndingTokens_ok
    (h : db.setUserClusterRoleEndingTokens userId clusterId roleId namespaces = .ok db') :
    (∀ k, db'.grants.get k = if (userId, clusterId) = k
      then some (permanentGrant userId clusterId roleId namespaces) else db.grants.get k) ∧
      db'.requests = db.requests := by
  obtain ⟨db₁, hset, hend⟩ := Transition.bind_eq_ok.mp h
  obtain ⟨hget, hreq, -⟩ := setUserClusterRole_ok hset
  obtain rfl := Except.ok.inj hend
  exact ⟨hget, hreq⟩

theorem get_deleteUserClusterRole (db : Database) (userId clusterId : String)
    (k : String × String) :
    (db.deleteUserClusterRole userId clusterId).1.grants.get k =
      if (userId, clusterId) = k then none else db.grants.get k := by
  rw [deleteUserClusterRole, grants_deleteGrants, Table.get_delete]
  cases hx : db.grants.get k with
  | none => simp
  | some x =>
    have hpair : x.pair = k := Table.key_of_get hx
    by_cases hk : (userId, clusterId) = k
    · simp [hpair, hk]
    · simp [hpair, hk, Ne.symm hk]

theorem get_deleteUserClusterRoleEndingTokens (db : Database) (userId clusterId : String)
    (k : String × String) :
    (db.deleteUserClusterRoleEndingTokens userId clusterId).1.grants.get k =
      if (userId, clusterId) = k then none else db.grants.get k := by
  rw [← get_deleteUserClusterRole, deleteUserClusterRoleEndingTokens]
  dsimp only
  split <;> rfl

@[simp] theorem requests_deleteUserClusterRoleEndingTokens :
    (db.deleteUserClusterRoleEndingTokens userId clusterId).1.requests = db.requests := by
  rw [deleteUserClusterRoleEndingTokens]
  dsimp only
  split <;> rfl

theorem mem_activeGrantsOf {now : ℤ} {g : ClusterGrant} :
    g ∈ db.activeGrantsOf now userId ↔
      g ∈ db.grants.rows ∧ g.userId = userId ∧ activeGrant now g = true := by
  simp [activeGrantsOf]

end Spec
end Database
end Kubeast
