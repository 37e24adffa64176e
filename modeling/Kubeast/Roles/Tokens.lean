import Kubeast.Roles.Edit

/-! What an edit of a role does to the tokens that are out (`tokensEndedBy`,
`buildPermissionMatrix`): whoever keeps a token keeps nothing the edit took away. -/
namespace Kubeast
open Text Permissions Transition

namespace Database

/-- The matrix of an account without grants. -/
def globalEntry (globalRolePerms : List String) : PermissionMatrix :=
  if globalPermissions globalRolePerms = [] then Table.empty
  else Dict.set Table.empty "*" (globalPermissions globalRolePerms)

/-- The permission matrix of a token: of the global role only `"*"` and `admin.*`, of
every cluster role all keys. -/
def buildPermissionMatrix (db : Database) (now : ℤ) (userID : String)
    (globalRolePerms : List String) : PermissionMatrix :=
  (db.listUserClusterRoles now userID).foldl
    (fun m g => m.set g.clusterId (db.getPermissionsByRoleID g.roleId)) (globalEntry globalRolePerms)

/-- What login and refresh put into a token. -/
def issueToken (db : Database) (now : ℤ) (user : User) : TokenPayload where
  userID := user.id
  email := user.email
  perms := db.buildPermissionMatrix now user.id (db.getPermissionsByRoleID user.roleId)
  roles := db.listUserClusterRoleNames now user.id
  namespaces := db.listUserClusterNamespaces now user.id
  tokenVersion := user.tokenVersion
  system := ""

end Database

/-- The group a token acts as on a cluster through its role there. -/
def tokenGroup (tables : CharTables) (p : TokenPayload) (clusterID : String) : Option String :=
  clusterGroup tables (p.roles.index clusterID) !(p.namespaces.index clusterID).isEmpty

section Ended
variable {tables : CharTables} {perms ks : List String} {tokens : RoleTokens}
  {existing : RoleWithPermissions} {name p : String}

/-- Only an edit whose every old key is still matched keeps all tokens. -/
theorem tokensEndedByKeys_kept (h : tokensEndedByKeys perms tokens ks = .kept) :
    tokens = .kept ∧ ∀ p ∈ ks, matchAny perms p = true := by
  induction ks generalizing tokens with
  | nil => exact ⟨h, by simp⟩
  | cons k ks ih =>
    rw [tokensEndedByKeys] at h
    split_ifs at h with hmatch hglobal
    · obtain ⟨htokens, hrest⟩ := ih h
      exact ⟨htokens, List.forall_mem_cons.mpr ⟨hmatch, hrest⟩⟩
    · cases (ih h).1

/-- An edit that spares the holders of the global role still matches its global keys. -/
theorem tokensEndedByKeys_global (h : tokensEndedByKeys perms tokens ks ≠ .ofAllHolders) :
    ∀ p ∈ ks, isGlobalPermission p = true → matchAny perms p = true := by
  induction ks generalizing tokens with
  | nil => simp
  | cons k ks ih =>
    rw [tokensEndedByKeys] at h
    split_ifs at h with hmatch hglobal
    · exact List.forall_mem_cons.mpr ⟨fun _ => hmatch, ih h⟩
    · exact absurd rfl h
    · exact List.forall_mem_cons.mpr ⟨fun hk => absurd hk hglobal, ih h⟩

theorem tokensEndedBy_kept (h : tokensEndedBy tables existing name perms = .kept) :
    roleGroupSlug tables name = roleGroupSlug tables existing.name ∧
      ∀ p ∈ existing.permissions, matchAny perms p = true := by
  obtain ⟨htokens, hmatch⟩ := tokensEndedByKeys_kept h
  refine ⟨?_, hmatch⟩
  by_contra hslug
  rw [if_pos hslug] at htokens
  cases htokens

end Ended

section Kept
variable {db db' : Database} {id : ℕ} {name q : String} {perms : List String}
  {tokens : RoleTokens} {user user' : User} {now : ℤ}

/-- The statement left out an account whose token version it did not raise. -/
theorem spared_of_kept (hupdated : Database.RoleUpdated db db' id name perms tokens)
    (hu : db.users.get user.id = some user) (hu' : db'.users.get user.id = some user')
    (hkept : user'.tokenVersion = user.tokenVersion) :
    user' = user ∧ (tokens.statement db id).any (fun ended => ended user) = false := by
  rw [hupdated.user, hu, Option.map_some, Option.some.injEq] at hu'
  split at hu'
  · rw [← hu'] at hkept
    simp only at hkept
    omega
  · next hspared => exact ⟨hu'.symm, Bool.eq_false_iff.mpr hspared⟩

theorem kept_of_spared_holder
    (hspared : (tokens.statement db id).any (fun ended => ended user) = false)
    (hholds : db.holdsOnCluster id user.id = true) : tokens = .kept := by
  cases tokens with
  | kept => rfl
  | ofGrants => simp [RoleTokens.statement, hholds] at hspared
  | ofAllHolders => simp [RoleTokens.statement, hholds] at hspared

theorem not_allHolders_of_spared
    (hspared : (tokens.statement db id).any (fun ended => ended user) = false)
    (hrole : user.roleId = id) : tokens ≠ .ofAllHolders := by
  rintro rfl
  simp [RoleTokens.statement, hrole] at hspared

/-- A role gives what it gave when, if it is the edited one, its old keys are matched. -/
theorem matchAny_after_edit (hupdated : Database.RoleUpdated db db' id name perms tokens) {r : ℕ}
    (hcovered : r = id → ∀ p ∈ db.getPermissionsByRoleID id, matchAny perms p = true)
    (h : matchAny (db.getPermissionsByRoleID r) q = true) :
    matchAny (db'.getPermissionsByRoleID r) q = true := by
  obtain ⟨p, hp, hpq⟩ := matchAny_eq_true.mp h
  by_cases hr : r = id
  · obtain ⟨p', hp', hp'q⟩ := matchAny_eq_true.mp
      (matchAny_trans (hcovered hr p (by rwa [hr] at hp)) hpq)
    exact matchAny_eq_true.mpr ⟨p', (hupdated.permission r p').mpr (by rwa [if_pos hr]), hp'q⟩
  · exact matchAny_eq_true.mpr ⟨p, (hupdated.permission r p).mpr (by rwa [if_neg hr]), hpq⟩

/-- The `"*"` entry gives what it gave when the old global keys are matched: among known
keys only a global one matches them. -/
theorem matchAny_global_after_edit (hupdated : Database.RoleUpdated db db' id name perms tokens)
    {r : ℕ} (hknown : unknownPermissions perms = [])
    (hcovered : r = id → ∀ p ∈ db.getPermissionsByRoleID id, isGlobalPermission p = true →
      matchAny perms p = true)
    (h : matchAny (globalPermissions (db.getPermissionsByRoleID r)) q = true) :
    matchAny (globalPermissions (db'.getPermissionsByRoleID r)) q = true := by
  obtain ⟨p, hp, hpq⟩ := matchAny_eq_true.mp h
  obtain ⟨hp, hglobal⟩ := List.mem_filter.mp hp
  by_cases hr : r = id
  · obtain ⟨p', hp', hp'p⟩ := matchAny_eq_true.mp (hcovered hr p (by rwa [hr] at hp) hglobal)
    have hp'known := unknownPermissions_eq_nil.mp hknown p' hp'
    have hstays : p' ∈ db'.getPermissionsByRoleID r :=
      (hupdated.permission r p').mpr (by rwa [if_pos hr])
    exact matchAny_eq_true.mpr ⟨p',
      List.mem_filter.mpr ⟨hstays, isGlobalPermission_of_matches hp'known hglobal hp'p⟩,
      permMatches_trans hp'p hpq⟩
  · have hstays := (hupdated.permission r p).mpr (by rwa [if_neg hr])
    exact matchAny_eq_true.mpr ⟨p, List.mem_filter.mpr ⟨hstays, hglobal⟩, hpq⟩

theorem index_globalEntry (globalRolePerms : List String) (c : String) :
    (Database.globalEntry globalRolePerms).index c =
      if c = "*" then globalPermissions globalRolePerms else [] := by
  unfold Database.globalEntry
  by_cases hset : globalPermissions globalRolePerms = []
  · rw [if_pos hset, hset, Dict.index_empty, ite_self]
    rfl
  · rw [if_neg hset]
    by_cases hc : c = "*"
    · rw [hc, Dict.index_set_self, if_pos rfl]
    · rw [Dict.index_set_ne (Ne.symm hc), Dict.index_empty, if_neg hc]
      rfl

/-- No entry of a kept token's matrix is wider than the one of a new token. -/
theorem index_perms_after_edit (hupdated : Database.RoleUpdated db db' id name perms tokens)
    (hknown : unknownPermissions perms = [])
    (hgranted : db.holdsOnCluster id user.id = true →
      ∀ p ∈ db.getPermissionsByRoleID id, matchAny perms p = true)
    (hglobal : user.roleId = id →
      ∀ p ∈ db.getPermissionsByRoleID id, isGlobalPermission p = true → matchAny perms p = true)
    (c : String) (h : matchAny ((db.issueToken now user).perms.index c) q = true) :
    matchAny ((db'.issueToken now user).perms.index c) q = true := by
  have hlist : db'.listUserClusterRoles now user.id = db.listUserClusterRoles now user.id := by
    simp only [Database.listUserClusterRoles, Database.activeGrantsOf, hupdated.grants]
  have hrows : List.Forall₂ (fun g g' : UserClusterRole => g.clusterId = g'.clusterId ∧
      (matchAny (db.getPermissionsByRoleID g.roleId) q = true →
        matchAny (db'.getPermissionsByRoleID g'.roleId) q = true))
      (db.listUserClusterRoles now user.id) (db'.listUserClusterRoles now user.id) := by
    rw [hlist, List.forall₂_same]
    intro g hg
    refine ⟨rfl, matchAny_after_edit hupdated fun hrole => hgranted ?_⟩
    obtain ⟨r, hr, rfl⟩ := List.mem_map.mp hg
    obtain ⟨hmem, huser, -⟩ := Database.mem_activeGrantsOf.mp hr
    exact Database.holdsOnCluster_iff.mpr ⟨r, hmem, hrole, huser⟩
  refine Dict.index_foldl_set_rel (r := fun a b => matchAny a q = true → matchAny b q = true)
    hrows ?_ h
  rw [index_globalEntry, index_globalEntry]
  split
  · exact matchAny_global_after_edit hupdated hknown hglobal
  · exact fun hnone => hnone

/-- A grant keeps its cluster, and the group slug of its role unless the edit renamed it. -/
theorem viewGrant_after_edit {tables : CharTables}
    (hupdated : Database.RoleUpdated db db' id name perms tokens)
    (hslug : db.holdsOnCluster id user.id = true → ∀ r, db.roles.get id = some r →
      roleGroupSlug tables name = roleGroupSlug tables r.name)
    {g : ClusterGrant} (hg : g ∈ db.activeGrantsOf now user.id) :
    Option.Rel (fun a b => a.clusterId = b.clusterId ∧
      roleGroupSlug tables a.role = roleGroupSlug tables b.role)
      (db.viewGrant g) (db'.viewGrant g) := by
  obtain ⟨hmem, huser, -⟩ := Database.mem_activeGrantsOf.mp hg
  obtain ⟨-, -, ⟨ro, hro, hroid⟩⟩ := (db.grants_refer g hmem).1
  have hget : db.roles.get g.roleId = some ro := Table.get_eq_some.mpr ⟨hro, hroid⟩
  have hrole := hupdated.role g.roleId
  rw [hget, Option.map_some, Option.map_eq_some_iff] at hrole
  obtain ⟨ro', hget', hname⟩ := hrole
  rw [Database.viewGrant, Database.viewGrant, hget, hget', Option.map_some, Option.map_some]
  refine Option.Rel.some ⟨rfl, ?_⟩
  simp only
  rw [hname]
  split
  · next hedited =>
    have hgranted : g.roleId = id := hroid.symm.trans hedited
    have hholds := Database.holdsOnCluster_iff.mpr ⟨g, hmem, hgranted, huser⟩
    exact (hslug hholds ro (by rwa [← hgranted])).symm
  · rfl

/-- Nor is a role's group on any cluster another one. -/
theorem index_roles_after_edit {tables : CharTables}
    (hupdated : Database.RoleUpdated db db' id name perms tokens)
    (hslug : db.holdsOnCluster id user.id = true → ∀ r, db.roles.get id = some r →
      roleGroupSlug tables name = roleGroupSlug tables r.name) (c : String) :
    roleGroupSlug tables ((db.issueToken now user).roles.index c) =
      roleGroupSlug tables ((db'.issueToken now user).roles.index c) := by
  have hlist : db'.activeGrantsOf now user.id = db.activeGrantsOf now user.id := by
    simp only [Database.activeGrantsOf, hupdated.grants]
  have hsame : List.Forall₂ (fun g g' => g = g' ∧ g ∈ db.activeGrantsOf now user.id)
      (db.activeGrantsOf now user.id) (db.activeGrantsOf now user.id) :=
    List.forall₂_same.mpr fun g hg => ⟨rfl, hg⟩
  have hrows := List.rel_filterMap (P := fun a b : UserClusterGrant => a.clusterId = b.clusterId ∧
    roleGroupSlug tables a.role = roleGroupSlug tables b.role)
    (by
      rintro g _ ⟨rfl, hg⟩
      exact viewGrant_after_edit hupdated hslug hg) hsame
  show roleGroupSlug tables ((db.listUserClusterRoleNames now user.id).index c) =
    roleGroupSlug tables ((db'.listUserClusterRoleNames now user.id).index c)
  rw [Database.listUserClusterRoleNames, Database.listUserClusterRoleNames, hlist]
  exact Dict.index_foldl_set_rel
    (r := fun a b => roleGroupSlug tables a = roleGroupSlug tables b) hrows rfl

end Kept

/-- An edit that takes something away ends the tokens that carry it: an account whose
token version the edit left alone holds a token no wider than one issued afterwards, and
acts as the same group on every cluster. -/
theorem kept_token_no_wider (tables : CharTables) (boundSlugs : List String) (db db' : Database)
    (payload : TokenPayload) (idParam : Option ℕ) (body : Option UpdateRoleRequest)
    (role : RoleWithPermissions)
    (h : updateRole tables boundSlugs db payload idParam body = .ok (db', role)) (user user' : User)
    (hu : db.users.get user.id = some user) (hu' : db'.users.get user.id = some user')
    (hkept : user'.tokenVersion = user.tokenVersion) (now : ℤ) (c : String) :
    (∀ q, matchAny ((db.issueToken now user).perms.index c) q = true →
      matchAny ((db'.issueToken now user').perms.index c) q = true) ∧
    roleGroupSlug tables ((db.issueToken now user).roles.index c) =
      roleGroupSlug tables ((db'.issueToken now user').roles.index c) ∧
    tokenGroup tables (db.issueToken now user) c =
      tokenGroup tables (db'.issueToken now user') c := by
  obtain ⟨id, req, existing, haccepted, hrun⟩ := updateRole_ok h
  have hupdated := Database.updateRole_ok hrun
  obtain ⟨hperms, hname⟩ := permissions_of_getRoleByID haccepted.stored
  obtain ⟨rfl, hspared⟩ := spared_of_kept hupdated hu hu' hkept
  have hholder : db.holdsOnCluster id user'.id = true →
      roleGroupSlug tables req.name = roleGroupSlug tables existing.name ∧
        ∀ p ∈ existing.permissions, matchAny req.permissions p = true := fun hholds =>
    tokensEndedBy_kept (kept_of_spared_holder hspared hholds)
  have hslugs : roleGroupSlug tables ((db.issueToken now user').roles.index c) =
      roleGroupSlug tables ((db'.issueToken now user').roles.index c) := by
    apply index_roles_after_edit hupdated
    intro hholds r hr
    rw [hr, Option.map_some, Option.some.injEq] at hname
    rw [hname]
    exact (hholder hholds).1
  have hns : (db'.issueToken now user').namespaces = (db.issueToken now user').namespaces := by
    simp only [Database.issueToken, Database.listUserClusterNamespaces, Database.activeGrantsOf,
      hupdated.grants]
  refine ⟨fun q hq => ?_, hslugs, ?_⟩
  · rw [hperms] at hholder
    refine index_perms_after_edit hupdated haccepted.known (fun hholds => (hholder hholds).2) ?_ c hq
    intro hrole
    have hkeys := tokensEndedByKeys_global (not_allHolders_of_spared hspared hrole)
    rwa [hperms] at hkeys
  · rw [tokenGroup, tokenGroup, hns]
    exact clusterGroup_congr tables _ hslugs

def opsUser : User := ⟨"alice", "alice@example.com", 4, 0⟩

theorem kept_token_no_wider_opsUser :
    matchAny ((opsEdited.1.issueToken 0 opsUser).perms.index "prod") "resource.pod.read" = true :=
  (kept_token_no_wider .ascii [] Database.withOps opsEdited.1 opsEditor (some 5) (some opsEdit)
    opsEdited.2 updateRole_opsEdit opsUser opsUser (by decide) (by decide) rfl 0
    "prod").1 "resource.pod.read" (by decide)

end Kubeast
