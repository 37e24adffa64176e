import Kubeast.AccessRequests.Permanence
import Kubeast.Roles.Tokens

/-! Issuing a token read by read (`issueToken`, `buildPermissionMatrix`) while grants change
and run out. -/
namespace Kubeast
open Text Permissions Transition

/-- The read the issuing stands at, with its local variables. `listedAt` and `limitedAt` are
the clock of the database when the grants and the namespaces were read. -/
inductive Issuing
  | account
  | permissions (user : User)
  | grants (user : User) (global : List String)
  | rolePermissions (user : User) (matrix : PermissionMatrix) (rest : List UserClusterRole)
      (listedAt : ℤ)
  | names (user : User) (matrix : PermissionMatrix) (listedAt : ℤ)
  | namespaces (user : User) (matrix : PermissionMatrix) (roles : Dict String String)
      (listedAt : ℤ)
  | sign (token : TokenPayload) (listedAt limitedAt : ℤ)
  | issued (token : TokenPayload) (listedAt limitedAt : ℤ)

/-- The loop over the grants: the permissions of the next one's role, or the next read. -/
def Issuing.nextRole (user : User) (matrix : PermissionMatrix) (rest : List UserClusterRole)
    (listedAt : ℤ) : Issuing :=
  if rest = [] then .names user matrix listedAt else .rolePermissions user matrix rest listedAt

/-- The next read of the issuing for `userID`. -/
def Issuing.read (userID : String) (db : Database) (now : ℤ) : Issuing → Issuing
  | .account => (db.users.get userID).elim .account .permissions
  | .permissions user => .grants user (db.getPermissionsByRoleID user.roleId)
  | .grants user global =>
      .nextRole user (Database.globalEntry global) (db.listUserClusterRoles now user.id) now
  | .rolePermissions user matrix rest listedAt =>
      match rest with
      | [] => .names user matrix listedAt
      | g :: rest =>
          .nextRole user (matrix.set g.clusterId (db.getPermissionsByRoleID g.roleId)) rest listedAt
  | .names user matrix listedAt =>
      .namespaces user matrix (db.listUserClusterRoleNames now user.id) listedAt
  | .namespaces user matrix roles listedAt =>
      .sign
        { userID := user.id, email := user.email, perms := matrix, roles := roles
          namespaces := db.listUserClusterNamespaces now user.id
          tokenVersion := user.tokenVersion, system := "" } listedAt now
  | .sign token listedAt limitedAt => .issued token listedAt limitedAt
  | .issued token listedAt limitedAt => .issued token listedAt limitedAt

/-- The database and its clock, where the issuing stands, and every state there was from the
read of the account on. -/
structure Session where
  db : Database
  now : ℤ
  issuing : Issuing
  moments : List (Database × ℤ)

inductive SessionStep
  | tick (d : ℕ)
  | write (a : GrantAction)
  | read

namespace Session

def start (db : Database) (now : ℤ) : Session := ⟨db, now, .account, []⟩

/-- The state is one during the issuing when the account has been read and the token is not
out yet. -/
def noted (s s' : Session) : Session :=
  match s.issuing, s'.issuing with
  | .issued .., _ => s'
  | _, .account => s'
  | _, _ => { s' with moments := s'.moments ++ [(s'.db, s'.now)] }

end Session

def sessionStep (tables : CharTables) (cfg : AccessRequestsConfig) (userID : String) (s : Session) :
    SessionStep → Session
  | .tick d => s.noted { s with now := s.now + d }
  | .write a => s.noted { s with db := grantStep tables cfg s.db (s.now, a) }
  | .read => s.noted { s with issuing := s.issuing.read userID s.db s.now }

/-- For every cluster the token has an entry of its own for: at one moment during the issuing
the account's active grant there had the role the entry is made of, and exactly the namespaces
of the token. -/
def Backed (s : Session) (userID : String) (token : TokenPayload) : Prop :=
  ∀ c, c ≠ "*" → (token.perms.get c).isSome = true → ∃ m ∈ s.moments, ∃ g,
    m.1.grants.get (userID, c) = some g ∧ activeGrant m.2 g = true ∧
    token.perms.index c = m.1.getPermissionsByRoleID g.roleId ∧
    token.namespaces.index c = g.namespaces

/-- What a writer leaves of the rows an account's token is read from: the roles' permissions,
and the account's grants unless its token version went up. -/
structure Kept (userID : String) (db db' : Database) : Prop where
  rolePermissions : db'.rolePermissions = db.rolePermissions
  user : ∀ x, db.users.get userID = some x → ∃ x', db'.users.get userID = some x' ∧
    x.tokenVersion ≤ x'.tokenVersion ∧ (x'.tokenVersion = x.tokenVersion →
      ∀ c, db'.grants.get (userID, c) = db.grants.get (userID, c))

section Kept
variable {userID : String} {db db' db'' : Database}

theorem Kept.refl (userID : String) (db : Database) : Kept userID db db :=
  ⟨rfl, fun x hx => ⟨x, hx, le_rfl, fun _ _ => rfl⟩⟩

theorem Kept.trans (h : Kept userID db db') (h' : Kept userID db' db'') : Kept userID db db'' := by
  refine ⟨h'.rolePermissions.trans h.rolePermissions, fun x hx => ?_⟩
  obtain ⟨x', hx', hle, hsame⟩ := h.user x hx
  obtain ⟨x'', hx'', hle', hsame'⟩ := h'.user x' hx'
  refine ⟨x'', hx'', hle.trans hle', fun heq c => ?_⟩
  have heq' : x'.tokenVersion = x.tokenVersion := by omega
  rw [hsame' (by omega) c, hsame heq' c]

/-- A writer of one account's grants that raises its token version. -/
theorem Kept.ofEndTokens {owner : String} (hperms : db'.rolePermissions = db.rolePermissions)
    (husers : db'.users = db.users)
    (hothers : ∀ u c, u ≠ owner → db'.grants.get (u, c) = db.grants.get (u, c)) :
    Kept userID db (db'.endTokens owner) := by
  refine ⟨hperms, fun x hx => ?_⟩
  have hget : (db'.endTokens owner).users.get userID = _ := Database.get_users_bumpTokenVersion
  have hid : x.id = userID := Table.key_of_get hx
  rw [husers, hx, Option.map_some] at hget
  by_cases howner : userID = owner
  · rw [if_pos (by simp [hid, howner])] at hget
    exact ⟨_, hget, by simp, by simp⟩
  · rw [if_neg (by simp [hid, howner])] at hget
    exact ⟨_, hget, le_rfl, fun _ c => hothers userID c howner⟩

/-- A writer of requests alone. -/
theorem Kept.ofRequests (hperms : db'.rolePermissions = db.rolePermissions)
    (husers : db'.users = db.users) (hgrants : db'.grants = db.grants) : Kept userID db db' :=
  ⟨hperms, fun x hx => ⟨x, by rw [husers, hx], le_rfl, fun _ _ => by rw [hgrants]⟩⟩

/-- An attempt that fails leaves everything. -/
theorem Kept.attempt {ε : Type} {r : Except ε Database} (h : ∀ db', r = .ok db' → Kept userID db db') :
    Kept userID db (attempt db r) := by
  rcases attempt_cases db r with hr | hr
  · rw [hr]
    exact Kept.refl userID db
  · exact h _ hr

end Kept

section Writers
variable {userID : String} {db db' : Database} {g : ClusterGrant} {now : ℤ}

theorem frame_upsertGrant (h : db.upsertGrant g = .ok db') :
    db'.rolePermissions = db.rolePermissions ∧ db'.users = db.users ∧
      ∀ u c, u ≠ g.userId → db'.grants.get (u, c) = db.grants.get (u, c) := by
  obtain ⟨hget, -, hdirectory⟩ := Database.upsertGrant_ok h
  refine ⟨?_, congrArg Directory.users hdirectory, fun u c hu => ?_⟩
  · unfold Database.upsertGrant at h
    split at h
    · obtain rfl := Except.ok.inj h
      rfl
    · cases h
  · rw [hget, if_neg]
    intro heq
    exact hu (Prod.mk.inj heq).1.symm

theorem kept_approveAccessRequest {id deciderID note : String} {expiresAt : ℤ}
    (h : db.approveAccessRequest id deciderID note now = .ok (db', expiresAt)) :
    Kept userID db db' := by
  obtain ⟨q, -, h⟩ := bind_eq_ok.mp h
  obtain ⟨db₁, hgrant, hclose⟩ := bind_eq_ok.mp h
  obtain ⟨hperms, husers, hothers⟩ := frame_upsertGrant hgrant
  split at hclose
  · cases hclose
  · obtain ⟨rfl, -⟩ := Prod.mk.inj (Except.ok.inj hclose)
    exact Kept.ofEndTokens hperms husers hothers

theorem kept_setUserClusterRoleEndingTokens {owner clusterID : String} {roleID : ℕ}
    {namespaces : List String}
    (h : db.setUserClusterRoleEndingTokens owner clusterID roleID namespaces = .ok db') :
    Kept userID db db' := by
  obtain ⟨db₁, hset, hend⟩ := bind_eq_ok.mp h
  obtain rfl := Except.ok.inj hend
  obtain ⟨hperms, husers, hothers⟩ := frame_upsertGrant hset
  exact Kept.ofEndTokens hperms husers hothers

theorem get_deleteUserClusterRole_ne {owner clusterID u : String} (c : String) (hu : u ≠ owner) :
    (db.deleteUserClusterRole owner clusterID).1.grants.get (u, c) = db.grants.get (u, c) := by
  rw [Database.get_deleteUserClusterRole, if_neg]
  intro heq
  exact hu (Prod.mk.inj heq).1.symm

theorem kept_deleteUserClusterRoleEndingTokens (owner clusterID : String) :
    Kept userID db (db.deleteUserClusterRoleEndingTokens owner clusterID).1 := by
  unfold Database.deleteUserClusterRoleEndingTokens
  dsimp only
  split
  · exact Kept.ofEndTokens rfl rfl fun u c hu => get_deleteUserClusterRole_ne c hu
  · next hexisted =>
    refine ⟨rfl, fun x hx => ⟨x, hx, le_rfl, fun _ c => ?_⟩⟩
    rw [Database.get_deleteUserClusterRole]
    split
    · next heq =>
      rw [← heq]
      exact (Option.not_isSome_iff_eq_none.mp hexisted).symm
    · rfl

/-- One pass of the sweep ends the tokens of the account whose grant it reverts. -/
theorem kept_revertGrant (h : Database.revertGrant now db g = .ok db') : Kept userID db db' := by
  obtain ⟨db₁, hrestore, hend⟩ := bind_eq_ok.mp h
  obtain rfl := Except.ok.inj hend
  have hframe : db₁.rolePermissions = db.rolePermissions ∧ db₁.users = db.users ∧
      ∀ u c, u ≠ g.userId → db₁.grants.get (u, c) = db.grants.get (u, c) := by
    unfold Database.restoreRow at hrestore
    split at hrestore
    · obtain rfl := Except.ok.inj hrestore
      exact ⟨rfl, rfl, fun u c hu => get_deleteUserClusterRole_ne c hu⟩
    · next restored hrestored =>
      obtain ⟨hget, -, hdirectory, hperms⟩ := Database.updateGrant_ok hrestore
      refine ⟨hperms, congrArg Directory.users hdirectory, fun u c hu => ?_⟩
      rw [hget, if_neg]
      intro heq
      rw [Database.pair_restoredGrant hrestored] at heq
      exact hu (Prod.mk.inj heq).1.symm
  obtain ⟨hperms, husers, hothers⟩ := hframe
  apply Kept.ofEndTokens
  · cases g.requestId <;> exact hperms
  · cases g.requestId <;> exact husers
  · cases g.requestId <;> exact hothers

theorem kept_expireGrants {skipped : List (String × String)} {out : List ExpiredGrant}
    (h : db.expireGrants now skipped = .ok (db', out)) : Kept userID db db' := by
  obtain ⟨db₁, hloop, hreturn⟩ := bind_eq_ok.mp h
  obtain ⟨rfl, -⟩ := Prod.mk.inj (Except.ok.inj hreturn)
  generalize db.findExpired now skipped = found at hloop
  clear h hreturn
  induction found generalizing db with
  | nil =>
    obtain rfl := Except.ok.inj hloop
    exact Kept.refl userID db
  | cons p found ih =>
    rw [List.foldlM_cons] at hloop
    obtain ⟨db₂, hfirst, hrest⟩ := bind_eq_ok.mp hloop
    exact (kept_revertGrant hfirst).trans (ih hrest)

/-- Every writer of a grant raises the token version of its account. -/
theorem kept_grantStep (tables : CharTables) (cfg : AccessRequestsConfig) (userID : String)
    (db : Database) (a : ℤ × GrantAction) : Kept userID db (grantStep tables cfg db a) := by
  obtain ⟨now, a⟩ := a
  cases a with
  | create payload body id =>
    apply Kept.attempt
    intro db' h
    obtain ⟨-, roleId, namespaces, hcreate⟩ := createAccessRequest_ok h
    unfold Database.createAccessRequest at hcreate
    split at hcreate
    · split at hcreate
      · obtain rfl := Except.ok.inj hcreate
        exact Kept.ofRequests rfl rfl rfl
      · cases hcreate
    · cases hcreate
  | approve id deciderID note =>
    apply Kept.attempt
    intro db' h
    obtain ⟨expiresAt, hok⟩ := ok_of_map_fst h
    exact kept_approveAccessRequest hok
  | reject id deciderID note =>
    apply Kept.attempt
    intro db' h
    unfold Database.rejectAccessRequest at h
    dsimp only at h
    split_ifs at h
    obtain rfl := Except.ok.inj h
    exact Kept.ofRequests rfl rfl rfl
  | cancel id owner =>
    apply Kept.attempt
    intro db' h
    unfold Database.cancelAccessRequest at h
    dsimp only at h
    split_ifs at h
    obtain rfl := Except.ok.inj h
    exact Kept.ofRequests rfl rfl rfl
  | adminSet owner clusterID roleID namespaces =>
    exact Kept.attempt fun db' h => kept_setUserClusterRoleEndingTokens h
  | adminDelete owner clusterID => exact kept_deleteUserClusterRoleEndingTokens owner clusterID
  | sweep skipped =>
    apply Kept.attempt
    intro db' h
    obtain ⟨out, hok⟩ := ok_of_map_fst h
    exact kept_expireGrants hok

end Writers

section Claims
variable {db : Database} {userID c : String} {now : ℤ} {g : ClusterGrant} {global : List String}

theorem nodup_clusterId_activeGrantsOf :
    ((db.activeGrantsOf now userID).map ClusterGrant.clusterId).Nodup := by
  have hpairs : ((db.activeGrantsOf now userID).map ClusterGrant.pair).Nodup :=
    db.grants.nodup.sublist (List.filter_sublist.map _)
  rw [List.nodup_map_iff_inj_on (List.Nodup.of_map _ hpairs)]
  intro g hg g' hg' hcluster
  obtain ⟨hmem, huser, -⟩ := Database.mem_activeGrantsOf.mp hg
  obtain ⟨hmem', huser', -⟩ := Database.mem_activeGrantsOf.mp hg'
  apply Table.eq_of_key_eq hmem hmem'
  rw [ClusterGrant.pair, ClusterGrant.pair, huser, huser', hcluster]

theorem mem_activeGrantsOf_of_get (hg : db.grants.get (userID, c) = some g)
    (hactive : activeGrant now g = true) : g ∈ db.activeGrantsOf now userID ∧ g.clusterId = c := by
  obtain ⟨hmem, hpair⟩ := Table.get_eq_some.mp hg
  obtain ⟨huser, hcluster⟩ := Prod.mk.inj hpair
  exact ⟨Database.mem_activeGrantsOf.mpr ⟨hmem, huser, hactive⟩, hcluster⟩

theorem get_of_mem_activeGrantsOf (h : g ∈ db.activeGrantsOf now userID) :
    db.grants.get (userID, g.clusterId) = some g := by
  obtain ⟨hmem, huser, -⟩ := Database.mem_activeGrantsOf.mp h
  rw [← huser]
  exact Table.get_of_mem hmem

/-- A cluster has an entry of its own where there is an active grant. -/
theorem get_matrix_isSome (hc : c ≠ "*") :
    ((db.buildPermissionMatrix now userID global).get c).isSome = true ↔
      ∃ g, db.grants.get (userID, c) = some g ∧ activeGrant now g = true := by
  have hbase : ((Database.globalEntry global).get c).isSome = false := by
    unfold Database.globalEntry
    split
    · rfl
    · rw [Dict.get_set_isSome]
      simp [Ne.symm hc]
  unfold Database.buildPermissionMatrix
  rw [Dict.get_foldl_set_isSome, hbase]
  constructor
  · rintro (hfalse | ⟨r, hr, hcluster⟩)
    · cases hfalse
    · obtain ⟨g, hg, rfl⟩ := List.mem_map.mp hr
      have hget := get_of_mem_activeGrantsOf hg
      have hcluster' : g.clusterId = c := hcluster
      rw [hcluster'] at hget
      exact ⟨g, hget, (Database.mem_activeGrantsOf.mp hg).2.2⟩
  · rintro ⟨g, hg, hactive⟩
    obtain ⟨hmem, hcluster⟩ := mem_activeGrantsOf_of_get hg hactive
    exact Or.inr ⟨_, List.mem_map_of_mem hmem, hcluster⟩

theorem index_matrix (hg : db.grants.get (userID, c) = some g)
    (hactive : activeGrant now g = true) :
    (db.buildPermissionMatrix now userID global).index c = db.getPermissionsByRoleID g.roleId := by
  obtain ⟨hmem, hcluster⟩ := mem_activeGrantsOf_of_get hg hactive
  have hkeys : ((db.listUserClusterRoles now userID).map UserClusterRole.clusterId).Nodup := by
    unfold Database.listUserClusterRoles
    rw [List.map_map]
    exact nodup_clusterId_activeGrantsOf
  have hrow : (⟨g.clusterId, g.roleId, g.namespaces⟩ : UserClusterRole) ∈ db.listUserClusterRoles now userID :=
    List.mem_map_of_mem hmem
  have hentry := Dict.index_foldl_set_of_mem (m := Database.globalEntry global)
    (g := fun r => db.getPermissionsByRoleID r.roleId) hkeys hrow
  unfold Database.buildPermissionMatrix
  rw [← hcluster]
  exact hentry

/-- The `ns` claim lists a grant's namespaces while it is active, and nothing afterwards. -/
theorem index_listUserClusterNamespaces (hg : db.grants.get (userID, c) = some g) :
    (db.listUserClusterNamespaces now userID).index c =
      if activeGrant now g = true then g.namespaces else [] := by
  have hkeys : (((db.activeGrantsOf now userID).filter fun g => !g.namespaces.isEmpty).map
      ClusterGrant.clusterId).Nodup :=
    nodup_clusterId_activeGrantsOf.sublist (List.filter_sublist.map _)
  unfold Database.listUserClusterNamespaces
  by_cases hlisted : activeGrant now g = true ∧ g.namespaces ≠ []
  · obtain ⟨hmem, hcluster⟩ := mem_activeGrantsOf_of_get hg hlisted.1
    rw [if_pos hlisted.1, ← hcluster]
    apply Dict.index_foldl_set_of_mem (g := ClusterGrant.namespaces) hkeys
    rw [List.mem_filter]
    exact ⟨hmem, by simpa using hlisted.2⟩
  · rw [Dict.index_foldl_set_of_notMem]
    · split
      · next hactive =>
        by_contra hne
        exact hlisted ⟨hactive, fun hnil => hne hnil.symm⟩
      · rfl
    · intro r hr hcluster
      obtain ⟨hr, hns⟩ := List.mem_filter.mp hr
      have hget := get_of_mem_activeGrantsOf hr
      rw [hcluster, hg] at hget
      obtain rfl := Option.some.inj hget
      exact hlisted ⟨(Database.mem_activeGrantsOf.mp hr).2.2, by simpa using hns⟩

end Claims
end Kubeast
