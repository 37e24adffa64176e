import Kubeast.Foundation.Table
import Mathlib.Data.Int.Notation

/-! The tables behind roles, grants and access requests (`services/pkg/dbmigrate`), each
with the columns the modelled statements read or write. Foreign keys are fields of
`Database`, so a grant of an unknown account, cluster or role cannot be built. -/
namespace Kubeast

/-- A row of `auth_users`. -/
structure User where
  id : String
  email : String
  roleId : ℕ
  tokenVersion : ℕ
deriving DecidableEq

/-- A row of `clusters`. `AddSelf` and `AddExternal` refuse an id that slugs to nothing. -/
structure Cluster where
  id : String
  id_ne : id ≠ ""
deriving DecidableEq

/-- A row of `roles`. -/
structure Role where
  id : ℕ
  name : String
  description : String
  isSystem : Bool
deriving DecidableEq

/-- A row of `user_cluster_roles`. An absent namespace array reads as the empty list,
the whole cluster; no statement stores an empty array. Times are in nanoseconds. -/
structure ClusterGrant where
  userId : String
  clusterId : String
  roleId : ℕ
  namespaces : List String
  expiresAt : Option ℤ
  restoreRoleId : Option ℕ
  restoreNamespaces : List String
  requestId : Option String
deriving DecidableEq

def ClusterGrant.pair (g : ClusterGrant) : String × String := (g.userId, g.clusterId)

/-- The columns of `g` written over the row `x`. -/
def ClusterGrant.over (g x : ClusterGrant) : ClusterGrant :=
  { g with userId := x.userId, clusterId := x.clusterId }

theorem ClusterGrant.pair_over (g x : ClusterGrant) : (g.over x).pair = x.pair := rfl

theorem ClusterGrant.over_eq {g x : ClusterGrant} (h : x.pair = g.pair) : g.over x = g := by
  obtain ⟨hu, hc⟩ := Prod.mk.inj h
  rw [ClusterGrant.over, hu, hc]

inductive RequestStatus
  | pending
  | approved
  | rejected
  | cancelled
  | expired
deriving DecidableEq

inductive EndReason
  | expired
  | notReviewed
  | revoked
  | superseded
deriving DecidableEq

/-- A row of `access_requests`. -/
structure AccessRequest where
  id : String
  userId : String
  clusterId : String
  roleId : ℕ
  durationMinutes : ℤ
  reason : String
  status : RequestStatus
  createdAt : ℤ
  decidedBy : Option String
  decidedAt : Option ℤ
  decisionNote : Option String
  expiresAt : Option ℤ
  endedAt : Option ℤ
  endReason : Option EndReason
  namespaces : List String
deriving DecidableEq

/-- A change of a request that leaves alone who asked for what. -/
def AccessRequest.KeepsAsked (f : AccessRequest → AccessRequest) : Prop :=
  ∀ q, (f q).id = q.id ∧ (f q).userId = q.userId ∧ (f q).clusterId = q.clusterId ∧
    (f q).roleId = q.roleId

/-- The tables other tables refer to. -/
structure Directory where
  users : Table User.id
  clusters : Table Cluster.id
  roles : Table Role.id

def Directory.Refers (d : Directory) (userId clusterId : String) (roleId : ℕ) : Prop :=
  d.users.has userId ∧ d.clusters.has clusterId ∧ d.roles.has roleId

instance (d : Directory) (userId clusterId : String) (roleId : ℕ) :
    Decidable (d.Refers userId clusterId roleId) :=
  inferInstanceAs (Decidable (_ ∧ _ ∧ _))

def Directory.RefersGrant (d : Directory) (g : ClusterGrant) : Prop :=
  d.Refers g.userId g.clusterId g.roleId ∧ ∀ r ∈ g.restoreRoleId, d.roles.has r

instance (d : Directory) (g : ClusterGrant) : Decidable (d.RefersGrant g) :=
  inferInstanceAs (Decidable (_ ∧ _))

/-- The stored state; a row of `rolePermissions` is a role id and a permission key. -/
structure Database extends Directory where
  rolePermissions : Table (id : ℕ × String → ℕ × String)
  grants : Table ClusterGrant.pair
  requests : Table AccessRequest.id
  grants_refer : ∀ g ∈ grants.rows, toDirectory.RefersGrant g
  requests_refer : ∀ q ∈ requests.rows, toDirectory.Refers q.userId q.clusterId q.roleId

/-- Why a statement of the store fails. -/
inductive StoreError
  | noRows
  | foreignKeyViolation
  | uniqueViolation
  | notPending
deriving DecidableEq

theorem Directory.Refers.clusterId_ne {d : Directory} {userId clusterId : String} {roleId : ℕ}
    (h : d.Refers userId clusterId roleId) : clusterId ≠ "" := by
  obtain ⟨-, ⟨c, -, rfl⟩, -⟩ := h
  exact c.id_ne

namespace Database

def withGrants (db : Database) (t : Table ClusterGrant.pair)
    (h : ∀ g ∈ t.rows, db.RefersGrant g) : Database :=
  { db with grants := t, grants_refer := h }

def withRequests (db : Database) (t : Table AccessRequest.id)
    (h : ∀ q ∈ t.rows, db.Refers q.userId q.clusterId q.roleId) : Database :=
  { db with requests := t, requests_refer := h }

/-- `UPDATE auth_users SET token_version = token_version + 1 WHERE p`. -/
def bumpTokenVersion (db : Database) (p : User → Bool) : Database :=
  { db with
    users := db.users.update p (fun u => { u with tokenVersion := u.tokenVersion + 1 }) fun _ => rfl
    grants_refer := fun g hg => by
      simpa [Directory.RefersGrant, Directory.Refers] using db.grants_refer g hg
    requests_refer := fun q hq => by simpa [Directory.Refers] using db.requests_refer q hq }

/-- `UPDATE access_requests SET f WHERE p`. -/
def updateRequests (db : Database) (p : AccessRequest → Bool) (f : AccessRequest → AccessRequest)
    (hf : AccessRequest.KeepsAsked f) : Database :=
  db.withRequests (db.requests.update p f fun q => (hf q).1) fun q hq => by
    obtain ⟨x, hx, rfl⟩ := (Table.mem_update _).mp hq
    split
    · simpa [hf x] using db.requests_refer x hx
    · exact db.requests_refer x hx

/-- `DELETE FROM user_cluster_roles WHERE p`. -/
def deleteGrants (db : Database) (p : ClusterGrant → Bool) : Database :=
  db.withGrants (db.grants.delete p) fun g hg => db.grants_refer g (Table.mem_delete.mp hg).1

/-- An upsert on the pair that writes every column of the row. -/
def upsertGrant (db : Database) (g : ClusterGrant) : Except StoreError Database :=
  if h : db.RefersGrant g then
    .ok (db.withGrants (db.grants.upsert g g.over g.pair_over) fun r hr => by
      rcases Table.mem_upsert _ hr with rfl | hr | ⟨x, hx, hk, rfl⟩
      · exact h
      · exact db.grants_refer r hr
      · rwa [ClusterGrant.over_eq hk])
  else .error .foreignKeyViolation

/-- `UPDATE user_cluster_roles SET … WHERE` the pair of `g`. -/
def updateGrant (db : Database) (g : ClusterGrant) : Except StoreError Database :=
  if h : db.RefersGrant g then
    .ok (db.withGrants
      (db.grants.update (fun x => decide (x.pair = g.pair)) g.over g.pair_over) fun r hr => by
        obtain ⟨x, hx, rfl⟩ := (Table.mem_update _).mp hr
        split
        · next hk => rwa [ClusterGrant.over_eq (of_decide_eq_true hk)]
        · exact db.grants_refer x hx)
  else .error .foreignKeyViolation

section Frame
variable {db db' : Database} {p : ClusterGrant → Bool} {pu : User → Bool}
  {pq : AccessRequest → Bool} {g : ClusterGrant}

@[simp] theorem grants_bumpTokenVersion : (db.bumpTokenVersion pu).grants = db.grants := rfl

@[simp] theorem requests_bumpTokenVersion : (db.bumpTokenVersion pu).requests = db.requests := rfl

theorem get_users_bumpTokenVersion {u : String} :
    (db.bumpTokenVersion pu).users.get u = (db.users.get u).map fun x =>
      if pu x = true then { x with tokenVersion := x.tokenVersion + 1 } else x :=
  Table.get_update (t := db.users)
    (f := fun x => { x with tokenVersion := x.tokenVersion + 1 }) fun _ => rfl

@[simp] theorem grants_updateRequests {f : AccessRequest → AccessRequest} {hf} :
    (db.updateRequests pq f hf).grants = db.grants := rfl

@[simp] theorem requests_updateRequests {f : AccessRequest → AccessRequest} {hf} :
    (db.updateRequests pq f hf).requests = db.requests.update pq f fun q => (hf q).1 := rfl

@[simp] theorem requests_deleteGrants : (db.deleteGrants p).requests = db.requests := rfl

@[simp] theorem grants_deleteGrants : (db.deleteGrants p).grants = db.grants.delete p := rfl

/-- What a successful upsert leaves behind: the row, and everything else as it was. -/
theorem upsertGrant_ok (h : db.upsertGrant g = .ok db') :
    (∀ k, db'.grants.get k = if g.pair = k then some g else db.grants.get k) ∧
      db'.requests = db.requests ∧ db'.toDirectory = db.toDirectory := by
  rw [upsertGrant] at h
  split at h
  · obtain rfl := Except.ok.inj h
    refine ⟨fun k => ?_, rfl, rfl⟩
    split
    · next hk =>
      rw [← hk]
      refine (Table.get_upsert_self g.pair_over).trans ?_
      cases hx : db.grants.get g.pair with
      | none => rfl
      | some x => simp [ClusterGrant.over_eq (Table.key_of_get hx)]
    · next hk => exact Table.get_upsert_ne g.pair_over hk
  · cases h

theorem updateGrant_ok (h : db.updateGrant g = .ok db') :
    (∀ k, db'.grants.get k =
      if g.pair = k then (db.grants.get k).map fun _ => g else db.grants.get k) ∧
      db'.requests = db.requests ∧ db'.toDirectory = db.toDirectory ∧
      db'.rolePermissions = db.rolePermissions := by
  rw [updateGrant] at h
  split at h
  · obtain rfl := Except.ok.inj h
    refine ⟨fun k => ?_, rfl, rfl, rfl⟩
    refine (Table.get_update g.pair_over).trans ?_
    cases hx : db.grants.get k with
    | none => simp
    | some x =>
      have hpair : x.pair = k := Table.key_of_get hx
      rw [← hpair]
      by_cases hk : x.pair = g.pair
      · simp [hk, ClusterGrant.over_eq hk]
      · simp [hk, Ne.symm hk]
  · cases h

end Frame

/-- One cluster, an administrator and an account without grants, and two built-in roles. -/
def small : Database where
  users := ⟨[⟨"root", "root@example.com", 3, 0⟩, ⟨"alice", "alice@example.com", 4, 0⟩], by decide⟩
  clusters := ⟨[⟨"prod", by decide⟩], by decide⟩
  roles := ⟨[⟨1, "Read", "", true⟩, ⟨2, "Write", "", true⟩, ⟨3, "Admin", "", true⟩,
    ⟨4, "Member", "", true⟩], by decide⟩
  rolePermissions := ⟨[(1, "resource.*.read"), (2, "resource.*.read"), (2, "resource.*.edit"),
    (3, "*")], by decide⟩
  grants := Table.empty
  requests := Table.empty
  grants_refer := by simp [Table.empty]
  requests_refer := by simp [Table.empty]

end Database
end Kubeast
