import Kubeast.Roles.Issue

/-! Whether the reads of an issuing agree on the account's grants. A writer that comes
between them raises the token version, which voids the token. A grant that runs out between
them raises nothing. -/
namespace Kubeast
open Text Permissions Transition

variable {tables : CharTables} {cfg : AccessRequestsConfig} {userID : String} {user : User}
  {s s' : Session} {moments moments' : List (Database × ℤ)}

@[simp] theorem Session.db_noted : (s.noted s').db = s'.db := by
  unfold Session.noted
  split <;> rfl

@[simp] theorem Session.now_noted : (s.noted s').now = s'.now := by
  unfold Session.noted
  split <;> rfl

@[simp] theorem Session.issuing_noted : (s.noted s').issuing = s'.issuing := by
  unfold Session.noted
  split <;> rfl

section Alone
variable {db : Database} {now : ℤ}

theorem exec_reads (n : ℕ) :
    (exec (sessionStep tables cfg userID) s (List.replicate n .read)).issuing =
      (Issuing.read userID s.db s.now)^[n] s.issuing := by
  induction n generalizing s with
  | zero => rfl
  | succ n ih =>
    rw [List.replicate_succ, exec_cons, ih, Function.iterate_succ_apply]
    simp only [sessionStep, Session.db_noted, Session.now_noted, Session.issuing_noted]

/-- The loop over the grants ends in the matrix filled from all of them. -/
theorem read_rolePermissions (rest : List UserClusterRole) (matrix : PermissionMatrix) (t : ℤ) :
    ∃ n, (Issuing.read userID db now)^[n] (.nextRole user matrix rest t) = .names user
      (rest.foldl (fun m g => m.set g.clusterId (db.getPermissionsByRoleID g.roleId)) matrix) t := by
  induction rest generalizing matrix with
  | nil => exact ⟨0, rfl⟩
  | cons g rest ih =>
    obtain ⟨n, hn⟩ := ih (matrix.set g.clusterId (db.getPermissionsByRoleID g.roleId))
    exact ⟨n + 1, by rw [Function.iterate_succ_apply]; exact hn⟩

/-- Reads that nothing comes between issue the token of one state. -/
theorem issueToken_of_reads (huser : db.users.get userID = some user) :
    ∃ n, (exec (sessionStep tables cfg userID) (Session.start db now)
      (List.replicate n .read)).issuing = .issued (db.issueToken now user) now now := by
  have hgrants : (Issuing.read userID db now)^[3] .account =
      .nextRole user (Database.globalEntry (db.getPermissionsByRoleID user.roleId))
        (db.listUserClusterRoles now user.id) now := by
    simp [Issuing.read, huser]
  have hloop : ∃ n, (Issuing.read userID db now)^[n] (.nextRole user
      (Database.globalEntry (db.getPermissionsByRoleID user.roleId))
      (db.listUserClusterRoles now user.id) now) = .names user
      (db.buildPermissionMatrix now user.id (db.getPermissionsByRoleID user.roleId)) now :=
    read_rolePermissions _ _ _
  obtain ⟨n, hn⟩ := hloop
  apply Exists.intro ((3 + n) + 3)
  rw [exec_reads, Nat.add_comm 3 n, Nat.add_comm _ 3, Function.iterate_add_apply,
    Function.iterate_add_apply]
  show (Issuing.read userID db now)^[3] ((Issuing.read userID db now)^[n]
    ((Issuing.read userID db now)^[3] .account)) = _
  rw [hgrants, hn]
  rfl

end Alone

/-- The grants were listed at the moment `t`, and the matrix becomes that of the moment once
the rest of them are in. -/
def ListedAt (moments : List (Database × ℤ)) (userID : String) (matrix : PermissionMatrix)
    (rest : List UserClusterRole) (t : ℤ) : Prop :=
  ∃ m ∈ moments, m.2 = t ∧ ∃ global,
    rest.foldl (fun p g => p.set g.clusterId (m.1.getPermissionsByRoleID g.roleId)) matrix =
      m.1.buildPermissionMatrix t userID global

def LimitedAt (moments : List (Database × ℤ)) (userID : String)
    (namespaces : Dict String (List String)) (t : ℤ) : Prop :=
  ∃ m ∈ moments, m.2 = t ∧ namespaces = m.1.listUserClusterNamespaces t userID

/-- What the issuing holds of the account it read, and of the grants. -/
def Issuing.Follows (user : User) (moments : List (Database × ℤ)) : Issuing → Prop
  | .account => False
  | .permissions u => u = user
  | .grants u _ => u = user
  | .rolePermissions u matrix rest t => u = user ∧ ListedAt moments user.id matrix rest t
  | .names u matrix t => u = user ∧ ListedAt moments user.id matrix [] t
  | .namespaces u matrix _ t => u = user ∧ ListedAt moments user.id matrix [] t
  | .sign token t t' | .issued token t t' =>
      token.tokenVersion = user.tokenVersion ∧ ListedAt moments user.id token.perms [] t ∧
        LimitedAt moments user.id token.namespaces t'

theorem ListedAt.mono {matrix : PermissionMatrix} {rest : List UserClusterRole} {t : ℤ}
    (hsub : moments ⊆ moments') (h : ListedAt moments userID matrix rest t) :
    ListedAt moments' userID matrix rest t := by
  obtain ⟨m, hm, hrest⟩ := h
  exact ⟨m, hsub hm, hrest⟩

theorem LimitedAt.mono {namespaces : Dict String (List String)} {t : ℤ}
    (hsub : moments ⊆ moments') (h : LimitedAt moments userID namespaces t) :
    LimitedAt moments' userID namespaces t := by
  obtain ⟨m, hm, hrest⟩ := h
  exact ⟨m, hsub hm, hrest⟩

theorem Issuing.Follows.mono {i : Issuing} (hsub : moments ⊆ moments') (h : i.Follows user moments) :
    i.Follows user moments' := by
  cases i with
  | account => exact h
  | permissions u => exact h
  | grants u global => exact h
  | rolePermissions u matrix rest t => exact ⟨h.1, h.2.mono hsub⟩
  | names u matrix t => exact ⟨h.1, h.2.mono hsub⟩
  | namespaces u matrix roles t => exact ⟨h.1, h.2.mono hsub⟩
  | sign token t t' => exact ⟨h.1, h.2.1.mono hsub, h.2.2.mono hsub⟩
  | issued token t t' => exact ⟨h.1, h.2.1.mono hsub, h.2.2.mono hsub⟩

/-- From the read of the account on: every moment so far had the account at the version read
or a later one, and what the writers since then kept. -/
structure Session.Tracks (userID : String) (user : User) (s : Session) : Prop where
  id : user.id = userID
  current : ∃ x, s.db.users.get userID = some x ∧ user.tokenVersion ≤ x.tokenVersion
  version : ∀ m ∈ s.moments, ∃ x, m.1.users.get userID = some x ∧ user.tokenVersion ≤ x.tokenVersion
  kept : ∀ m ∈ s.moments, Kept userID m.1 s.db
  follows : s.issuing.Follows user s.moments

def Session.Started (userID : String) (s : Session) : Prop :=
  s.issuing = .account ∧ s.moments = [] ∨ ∃ user, s.Tracks userID user

section Steps

theorem Session.mem_noted {m : Database × ℤ} (hm : m ∈ (s.noted s').moments) :
    m ∈ s'.moments ∨ m = (s'.db, s'.now) := by
  unfold Session.noted at hm
  split at hm
  · exact Or.inl hm
  · exact Or.inl hm
  · simpa using hm

theorem Session.subset_noted : s'.moments ⊆ (s.noted s').moments := by
  unfold Session.noted
  split
  · exact List.Subset.refl _
  · exact List.Subset.refl _
  · exact List.subset_append_left _ _

/-- What the writers keep is all that the invariant needs of a step. -/
theorem Session.Tracks.noted (h : s.Tracks userID user) (hkept : Kept userID s.db s'.db)
    (hmoments : s'.moments = s.moments) (hfollows : s'.issuing.Follows user (s.noted s').moments) :
    (s.noted s').Tracks userID user := by
  obtain ⟨x, hx, hle⟩ := h.current
  obtain ⟨x', hx', hle', -⟩ := hkept.user x hx
  have hcurrent : ∃ x, s'.db.users.get userID = some x ∧ user.tokenVersion ≤ x.tokenVersion :=
    ⟨x', hx', hle.trans hle'⟩
  refine ⟨h.id, by simpa using hcurrent, fun m hm => ?_, fun m hm => ?_, by simpa using hfollows⟩
  · rcases Session.mem_noted hm with hm | rfl
    · exact h.version m (hmoments ▸ hm)
    · exact hcurrent
  · rw [Session.db_noted]
    rcases Session.mem_noted hm with hm | rfl
    · exact (h.kept m (hmoments ▸ hm)).trans hkept
    · exact Kept.refl userID s'.db

theorem Session.now_mem_noted (hopen : ∀ token t t', s.issuing ≠ .issued token t t')
    (hread : s'.issuing ≠ .account) : (s'.db, s'.now) ∈ (s.noted s').moments := by
  unfold Session.noted
  split
  · exact absurd ‹_› (hopen _ _ _)
  · exact absurd ‹_› hread
  · simp

theorem Issuing.nextRole_ne_account {matrix : PermissionMatrix} {rest : List UserClusterRole}
    {t : ℤ} : Issuing.nextRole user matrix rest t ≠ .account := by
  unfold Issuing.nextRole
  split <;> simp

theorem ListedAt.matrix_eq {matrix : PermissionMatrix} {g : UserClusterRole}
    {rest : List UserClusterRole} {t : ℤ} {db : Database}
    (hperms : ∀ m ∈ moments, db.rolePermissions = m.1.rolePermissions)
    (h : ListedAt moments userID matrix (g :: rest) t) :
    ListedAt moments userID (matrix.set g.clusterId (db.getPermissionsByRoleID g.roleId)) rest t := by
  obtain ⟨m, hm, ht, global, hmatrix⟩ := h
  refine ⟨m, hm, ht, global, ?_⟩
  rw [← hmatrix, List.foldl_cons]
  unfold Database.getPermissionsByRoleID
  rw [hperms m hm]

/-- The loop over the grants keeps the matrix it is on its way to. -/
theorem Issuing.follows_nextRole {matrix : PermissionMatrix} {rest : List UserClusterRole} {t : ℤ}
    (h : ListedAt moments user.id matrix rest t) :
    (Issuing.nextRole user matrix rest t).Follows user moments := by
  unfold Issuing.nextRole
  split
  · next hrest =>
    subst hrest
    exact ⟨rfl, h⟩
  · exact ⟨rfl, h⟩

theorem Session.Tracks.read (h : s.Tracks userID user)
    (hs' : s' = { s with issuing := s.issuing.read userID s.db s.now }) :
    s'.issuing.Follows user (s.noted s').moments := by
  have hsub : s.moments ⊆ (s.noted s').moments := by
    have hmoments : s'.moments = s.moments := by rw [hs']
    rw [← hmoments]
    exact Session.subset_noted
  have hnow : (∀ token t t', s.issuing ≠ .issued token t t') → s'.issuing ≠ .account →
      (s.db, s.now) ∈ (s.noted s').moments := by
    have hmem := @Session.now_mem_noted s s'
    rw [hs'] at hmem ⊢
    exact hmem
  have hissuing : s'.issuing = s.issuing.read userID s.db s.now := by rw [hs']
  have hfollows := h.follows
  have hperms : ∀ m ∈ s.moments, s.db.rolePermissions = m.1.rolePermissions :=
    fun m hm => (h.kept m hm).rolePermissions
  rw [hissuing] at hnow ⊢
  generalize (s.noted s').moments = moments at hsub hnow ⊢
  generalize s.issuing = i at hfollows hnow ⊢
  cases i with
  | account => exact hfollows.elim
  | permissions u => exact hfollows
  | grants u global =>
    obtain rfl := hfollows
    apply Issuing.follows_nextRole
    exact ⟨(s.db, s.now), hnow (by simp) Issuing.nextRole_ne_account, rfl, global, rfl⟩
  | rolePermissions u matrix rest t =>
    obtain ⟨rfl, hlisted⟩ := hfollows
    cases rest with
    | nil => exact ⟨rfl, hlisted.mono hsub⟩
    | cons g rest =>
      apply Issuing.follows_nextRole
      exact (hlisted.matrix_eq hperms).mono hsub
  | names u matrix t => exact ⟨hfollows.1, hfollows.2.mono hsub⟩
  | namespaces u matrix roles t =>
    obtain ⟨rfl, hlisted⟩ := hfollows
    exact ⟨rfl, hlisted.mono hsub, (s.db, s.now), hnow (by simp) (by simp [Issuing.read]), rfl, rfl⟩
  | sign token t t' => exact Issuing.Follows.mono (i := .sign token t t') hsub hfollows
  | issued token t t' => exact Issuing.Follows.mono (i := .issued token t t') hsub hfollows

/-- The read of the account starts the tracking. -/
theorem tracks_account (hi : s.issuing = .account) (hmoments : s.moments = [])
    (huser : s.db.users.get userID = some user) :
    (sessionStep tables cfg userID s .read).Tracks userID user := by
  have hread : Issuing.account.read userID s.db s.now = .permissions user := by
    simp [Issuing.read, huser]
  have hstep : sessionStep tables cfg userID s .read =
      { s with issuing := .permissions user, moments := [(s.db, s.now)] } := by
    simp [sessionStep, Session.noted, hi, hread, hmoments]
  rw [hstep]
  refine ⟨Table.key_of_get huser, ⟨user, huser, le_rfl⟩, ?_, ?_, rfl⟩
  · intro m hm
    obtain rfl := List.mem_singleton.mp hm
    exact ⟨user, huser, le_rfl⟩
  · intro m hm
    obtain rfl := List.mem_singleton.mp hm
    exact Kept.refl userID s.db

theorem started_step (a : SessionStep) (h : s.Started userID) :
    (sessionStep tables cfg userID s a).Started userID := by
  rcases h with ⟨hi, hmoments⟩ | ⟨user, htracks⟩
  · cases a with
    | tick d => exact Or.inl (by simp [sessionStep, Session.noted, hi, hmoments])
    | write a => exact Or.inl (by simp [sessionStep, Session.noted, hi, hmoments])
    | read =>
      cases huser : s.db.users.get userID with
      | none =>
        exact Or.inl (by simp [sessionStep, Session.noted, Issuing.read, huser, hi, hmoments])
      | some user => exact Or.inr ⟨user, tracks_account hi hmoments huser⟩
  · refine Or.inr ⟨user, ?_⟩
    cases a with
    | tick d =>
      exact htracks.noted (Kept.refl userID s.db) rfl
        (htracks.follows.mono Session.subset_noted)
    | write a =>
      exact htracks.noted (kept_grantStep tables cfg userID s.db (s.now, a)) rfl
        (htracks.follows.mono Session.subset_noted)
    | read => exact htracks.noted (Kept.refl userID s.db) rfl (htracks.read rfl)

theorem started_exec (tables : CharTables) (cfg : AccessRequestsConfig) (userID : String)
    (db : Database) (now : ℤ) (run : List SessionStep) :
    (exec (sessionStep tables cfg userID) (Session.start db now) run).Started userID := by
  have hall : Along (sessionStep tables cfg userID) (fun _ _ => True) (Session.start db now) run :=
    Along.of_forall fun _ _ => trivial
  exact exec_invariant (fun s a h _ => started_step a h) (Or.inl ⟨rfl, rfl⟩) hall

end Steps

section Scope
variable {token : TokenPayload} {x : User} {listedAt limitedAt : ℤ} {m : Database × ℤ}

/-- A token of the account's present version was read from its present grants. -/
theorem Session.Tracks.grants_eq (h : s.Tracks userID user)
    (hx : s.db.users.get userID = some x) (hversion : x.tokenVersion = user.tokenVersion)
    (hm : m ∈ s.moments) (c : String) : m.1.grants.get (userID, c) = s.db.grants.get (userID, c) := by
  obtain ⟨y, hy, hle⟩ := h.version m hm
  obtain ⟨x', hx', hle', hsame⟩ := (h.kept m hm).user y hy
  obtain rfl : x' = x := by rw [hx] at hx'; exact (Option.some.inj hx').symm
  rw [hsame (by omega) c]

variable (h : s.Tracks userID user) (hissued : s.issuing = .issued token listedAt limitedAt)
  (hx : s.db.users.get userID = some x) (hversion : token.tokenVersion = x.tokenVersion)
include h hissued hx hversion

theorem token_grants_eq (hm : m ∈ s.moments) (c : String) :
    m.1.grants.get (userID, c) = s.db.grants.get (userID, c) := by
  have hfollows := h.follows
  rw [hissued] at hfollows
  exact h.grants_eq hx (hversion.symm.trans hfollows.1) hm c

/-- The entries of the matrix are the account's grants that were active when they were listed. -/
theorem get_perms_isSome {c : String} (hc : c ≠ "*") :
    (token.perms.get c).isSome = true ↔
      ∃ g, s.db.grants.get (userID, c) = some g ∧ activeGrant listedAt g = true := by
  have hfollows := h.follows
  rw [hissued] at hfollows
  obtain ⟨-, ⟨m, hm, -, global, hmatrix⟩, -⟩ := hfollows
  have hperms : token.perms = m.1.buildPermissionMatrix listedAt userID global := h.id ▸ hmatrix
  rw [hperms, get_matrix_isSome hc, token_grants_eq h hissued hx hversion hm c]

theorem index_perms {c : String} {g : ClusterGrant} (hg : s.db.grants.get (userID, c) = some g)
    (hactive : activeGrant listedAt g = true) : ∃ m ∈ s.moments,
      m.1.grants.get (userID, c) = some g ∧ activeGrant m.2 g = true ∧
      token.perms.index c = m.1.getPermissionsByRoleID g.roleId := by
  have hfollows := h.follows
  rw [hissued] at hfollows
  obtain ⟨-, ⟨m, hm, ht, global, hmatrix⟩, -⟩ := hfollows
  have hperms : token.perms = m.1.buildPermissionMatrix listedAt userID global := h.id ▸ hmatrix
  have hgm : m.1.grants.get (userID, c) = some g :=
    (token_grants_eq h hissued hx hversion hm c).trans hg
  exact ⟨m, hm, hgm, ht ▸ hactive, by rw [hperms, index_matrix hgm hactive]⟩

theorem index_namespaces {c : String} {g : ClusterGrant}
    (hg : s.db.grants.get (userID, c) = some g) :
    token.namespaces.index c = if activeGrant limitedAt g = true then g.namespaces else [] := by
  have hfollows := h.follows
  rw [hissued] at hfollows
  obtain ⟨-, -, m, hm, -, hnamespaces⟩ := hfollows
  have hgm : m.1.grants.get (userID, c) = some g :=
    (token_grants_eq h hissued hx hversion hm c).trans hg
  rw [hnamespaces, h.id, index_listUserClusterNamespaces hgm]

end Scope

/-- No grant of the account that is limited to namespaces was active when the grants were
listed and had run out when the namespaces were. -/
def LimitedGrantsLast (db : Database) (userID : String) (listedAt limitedAt : ℤ) : Prop :=
  ∀ g ∈ db.grants.rows, g.userId = userID → g.clusterId ≠ "*" → g.namespaces ≠ [] →
    activeGrant listedAt g = true → activeGrant limitedAt g = true

/-- A token that still counts reaches no further than the account's grants of one moment,
exactly when no limited grant ran out between the two reads. -/
theorem token_within_scope_iff (tables : CharTables) (cfg : AccessRequestsConfig)
    (userID : String) (db : Database) (now : ℤ) (run : List SessionStep) (token : TokenPayload)
    (listedAt limitedAt : ℤ) (x : User)
    (hissued : (exec (sessionStep tables cfg userID) (Session.start db now) run).issuing =
      .issued token listedAt limitedAt)
    (hx : (exec (sessionStep tables cfg userID) (Session.start db now) run).db.users.get userID =
      some x)
    (hversion : token.tokenVersion = x.tokenVersion) :
    Backed (exec (sessionStep tables cfg userID) (Session.start db now) run) userID token ↔
      LimitedGrantsLast (exec (sessionStep tables cfg userID) (Session.start db now) run).db
        userID listedAt limitedAt := by
  have hstarted := started_exec tables cfg userID db now run
  generalize exec (sessionStep tables cfg userID) (Session.start db now) run = s at *
  obtain ⟨hi, -⟩ | ⟨user, h⟩ := hstarted
  · rw [hi] at hissued
    cases hissued
  constructor
  · intro hbacked g hrow huser hc hns hlisted
    have hg : s.db.grants.get (userID, g.clusterId) = some g := huser ▸ Table.get_of_mem hrow
    obtain ⟨m, hm, g', hg', -, -, hlimits⟩ :=
      hbacked g.clusterId hc ((get_perms_isSome h hissued hx hversion hc).mpr ⟨g, hg, hlisted⟩)
    obtain rfl : g = g' := by
      rw [token_grants_eq h hissued hx hversion hm, hg] at hg'
      exact Option.some.inj hg'
    rw [index_namespaces h hissued hx hversion hg] at hlimits
    by_contra hover
    rw [if_neg hover] at hlimits
    exact hns hlimits.symm
  · intro hlast c hc hentry
    obtain ⟨g, hg, hlisted⟩ := (get_perms_isSome h hissued hx hversion hc).mp hentry
    obtain ⟨m, hm, hgm, hactive, hperms⟩ := index_perms h hissued hx hversion hg hlisted
    refine ⟨m, hm, g, hgm, hactive, hperms, ?_⟩
    rw [index_namespaces h hissued hx hversion hg]
    split
    · rfl
    · next hover =>
      obtain ⟨hrow, hpair⟩ := Table.get_eq_some.mp hg
      obtain ⟨huser, hcluster⟩ := Prod.mk.inj hpair
      by_contra hns
      exact hover (hlast g hrow huser (hcluster.symm ▸ hc) (Ne.symm hns) hlisted)

/-- Alice operates namespace `dev` of `prod` for ten more nanoseconds. -/
def Database.withTemporaryDev : Database :=
  { Database.withOps with
    grants := ⟨[{ permanentGrant "alice" "prod" 5 ["dev"] with expiresAt := some 10 }], by decide⟩
    grants_refer := by decide }

/-- The reads of an issuing, the clock `d` further on between the role names and the
namespaces. -/
def lateNamespaces (d : ℕ) : List SessionStep :=
  List.replicate 5 .read ++ [.tick d, .read, .read]

def lateToken (d : ℕ) : Session :=
  exec (sessionStep .ascii hoursOnly "alice") (Session.start .withTemporaryDev 0) (lateNamespaces d)

/-- The grant is over when the namespaces are read, and the token has all of `prod`. -/
theorem lateToken_unscoped : ∃ token, (lateToken 10).issuing = .issued token 0 10 ∧
    ((lateToken 10).db.users.get "alice").map User.tokenVersion = some token.tokenVersion ∧
    token.perms.index "prod" = ["resource.*.read"] ∧ token.namespaces.index "prod" = [] ∧
    ¬ Backed (lateToken 10) "alice" token := by
  have hmoments : ∀ m ∈ (lateToken 10).moments,
      (m.1.grants.get ("alice", "prod")).map ClusterGrant.namespaces = some ["dev"] := by
    decide
  refine ⟨_, rfl, by decide, by decide, by decide, fun hbacked => ?_⟩
  obtain ⟨m, hm, g, hg, -, -, hnamespaces⟩ := hbacked "prod" (by decide) (by decide)
  have hdev := hmoments m hm
  rw [hg, Option.map_some, ← hnamespaces] at hdev
  exact absurd hdev (by decide)

theorem token_within_scope_iff_intime : ∃ token, (lateToken 9).issuing = .issued token 0 9 ∧
    Backed (lateToken 9) "alice" token :=
  ⟨_, rfl, (token_within_scope_iff .ascii hoursOnly "alice" .withTemporaryDev 0 (lateNamespaces 9) _
    0 9 opsUser rfl (by decide) rfl).mpr fun g hg _ _ _ _ => by
      have hrows : ∀ g ∈ (lateToken 9).db.grants.rows, activeGrant 9 g = true := by decide
      exact hrows g hg⟩

end Kubeast
