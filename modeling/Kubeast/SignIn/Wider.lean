import Kubeast.SignIn.Provision

/-! Whether a token of a sign-in that still counts is wider than the account. The matrix is read
after the version, so only a role that is older than the version goes unnoticed, and a grant that
goes without the version. -/
namespace Kubeast.SignIn
open Text Permissions Transition

variable {db db' : Database} {user : User} {matrix : PermissionMatrix} {cfg : OIDCConfig}
  {claims : Claims} {w : World}

/-- The account is there, at the version the sign-in holds or a later one; while it is the same one,
its role is the one the sign-in holds, and `P`. -/
def Current (db : Database) (user : User) (P : Prop) : Prop :=
  ∃ x, db.users.get user.id = some x ∧ user.tokenVersion ≤ x.tokenVersion ∧
    (x.tokenVersion = user.tokenVersion → x.roleId = user.roleId ∧ P)

/-- Every entry of the matrix is what the account has now. -/
def Backed (db : Database) (user : User) (matrix : PermissionMatrix) : Prop :=
  ∀ c, (matrix.get c).isSome = true →
    c = "*" ∧ matrix.index c = globalPermissions (db.getPermissionsByRoleID user.roleId) ∨
    ∃ g, db.grants.get (user.id, c) = some g ∧ matrix.index c = db.getPermissionsByRoleID g.roleId

def Listed (db : Database) (user : User) (rest : List UserClusterRole) : Prop :=
  ∀ r ∈ rest, ∃ g, db.grants.get (user.id, r.clusterId) = some g ∧ g.roleId = r.roleId

/-- The account that a token was issued to. -/
def holder (token : TokenPayload) (roleId : ℕ) : User :=
  ⟨token.userID, token.email, roleId, token.tokenVersion⟩

/-- What a sign-in holds while it reads its token's claims. -/
def IssuingOk (db : Database) : Issuing → Prop
  | .account => False
  | .permissions user => Current db user True
  | .grants user global => global = db.getPermissionsByRoleID user.roleId ∧ Current db user True
  | .rolePermissions user matrix rest _ =>
      Current db user (Backed db user matrix ∧ Listed db user rest)
  | .names user matrix _ => Current db user (Backed db user matrix)
  | .namespaces user matrix _ _ => Current db user (Backed db user matrix)
  | .sign token _ _ | .issued token _ _ =>
      ∃ roleId, Current db (holder token roleId) (Backed db (holder token roleId) token.perms)

/-- What a sign-in holds. -/
def PhaseOk (db : Database) : Phase → Prop
  | .unlink user _ | .bump user _ | .version user _ | .findRole user | .updateRole user _
  | .roleVersion user _ | .names user | .temporaries user _ => Current db user True
  | .want sync _ | .set sync _ _ _ | .unwant sync _ => Current db sync.user True
  | .issuing i => IssuingOk db i
  | .lookup | .newRole | .create _ | .failed => True

section Frames

/-- What a writer leaves of every account, unless it raises the token version. -/
structure Keeps (db db' : Database) : Prop where
  rolePermissions : db'.rolePermissions = db.rolePermissions
  user : ∀ u x, db.users.get u = some x → ∃ x', db'.users.get u = some x' ∧
    x.tokenVersion ≤ x'.tokenVersion ∧ (x'.tokenVersion = x.tokenVersion →
      x'.roleId = x.roleId ∧ ∀ c, db'.grants.get (u, c) = db.grants.get (u, c))

theorem Keeps.refl (db : Database) : Keeps db db :=
  ⟨rfl, fun _ x hx => ⟨x, hx, le_rfl, fun _ => ⟨rfl, fun _ => rfl⟩⟩⟩

theorem permissions_eq (h : db'.rolePermissions = db.rolePermissions) (roleId : ℕ) :
    db'.getPermissionsByRoleID roleId = db.getPermissionsByRoleID roleId := by
  unfold Database.getPermissionsByRoleID
  rw [h]

theorem Current.mono {P Q : Prop} (hkeeps : Keeps db db')
    (hPQ : (∀ c, db'.grants.get (user.id, c) = db.grants.get (user.id, c)) → P → Q)
    (h : Current db user P) : Current db' user Q := by
  obtain ⟨x, hx, hle, hsame⟩ := h
  obtain ⟨x', hx', hle', hsame'⟩ := hkeeps.user _ x hx
  refine ⟨x', hx', hle.trans hle', ?_⟩
  intro heq
  obtain ⟨hrole, hP⟩ := hsame (by omega)
  obtain ⟨hrole', hgrants⟩ := hsame' (by omega)
  exact ⟨hrole'.trans hrole, hPQ hgrants hP⟩

theorem Backed.congr (hperms : db'.rolePermissions = db.rolePermissions)
    (hgrants : ∀ c, (matrix.get c).isSome = true →
      db'.grants.get (user.id, c) = db.grants.get (user.id, c)) (h : Backed db user matrix) :
    Backed db' user matrix := by
  intro c hc
  rcases h c hc with ⟨rfl, hindex⟩ | ⟨g, hg, hindex⟩
  · exact Or.inl ⟨rfl, by rw [hindex, permissions_eq hperms]⟩
  · exact Or.inr ⟨g, by rw [hgrants c hc, hg], by rw [hindex, permissions_eq hperms]⟩

theorem Listed.congr {rest : List UserClusterRole}
    (hgrants : ∀ c ∈ rest.map UserClusterRole.clusterId,
      db'.grants.get (user.id, c) = db.grants.get (user.id, c)) (h : Listed db user rest) :
    Listed db' user rest := by
  intro r hr
  obtain ⟨g, hg, hrole⟩ := h r hr
  exact ⟨g, by rw [hgrants _ (List.mem_map_of_mem hr), hg], hrole⟩

theorem IssuingOk.mono {i : Issuing} (hkeeps : Keeps db db') (h : IssuingOk db i) :
    IssuingOk db' i := by
  have hperms := hkeeps.rolePermissions
  cases i with
  | account => exact h
  | permissions user => exact Current.mono hkeeps (fun _ _ => trivial) h
  | grants user global =>
    exact ⟨by rw [h.1, permissions_eq hperms], Current.mono hkeeps (fun _ _ => trivial) h.2⟩
  | rolePermissions user matrix rest t =>
    exact Current.mono hkeeps (fun hgrants hP => ⟨hP.1.congr hperms fun c _ => hgrants c,
      hP.2.congr fun c _ => hgrants c⟩) h
  | names user matrix t =>
    exact Current.mono hkeeps (fun hgrants hP => hP.congr hperms fun c _ => hgrants c) h
  | namespaces user matrix roles t =>
    exact Current.mono hkeeps (fun hgrants hP => hP.congr hperms fun c _ => hgrants c) h
  | sign token t t' =>
    obtain ⟨roleId, h⟩ := h
    exact ⟨roleId, Current.mono hkeeps (fun hgrants hP => hP.congr hperms fun c _ => hgrants c) h⟩
  | issued token t t' =>
    obtain ⟨roleId, h⟩ := h
    exact ⟨roleId, Current.mono hkeeps (fun hgrants hP => hP.congr hperms fun c _ => hgrants c) h⟩

theorem PhaseOk.mono {p : Phase} (hkeeps : Keeps db db') (h : PhaseOk db p) : PhaseOk db' p := by
  have hcurrent : ∀ {user : User}, Current db user True → Current db' user True :=
    Current.mono hkeeps fun _ _ => trivial
  cases p with
  | lookup => trivial
  | unlink user roleName => exact hcurrent h
  | bump user after => exact hcurrent h
  | version user after => exact hcurrent h
  | newRole => trivial
  | create role => trivial
  | findRole user => exact hcurrent h
  | updateRole user role => exact hcurrent h
  | roleVersion user role => exact hcurrent h
  | names user => exact hcurrent h
  | temporaries user held => exact hcurrent h
  | want sync rest => exact hcurrent h
  | set sync rest clusterID role => exact hcurrent h
  | unwant sync rest => exact hcurrent h
  | issuing i => exact IssuingOk.mono hkeeps h
  | failed => trivial

end Frames

section Writers

/-- A statement that raises a token version with each row that it changes. -/
theorem Keeps.of_users (f : User → User) (p : User → Bool) (hf : ∀ u, (f u).id = u.id)
    (hperms : db'.rolePermissions = db.rolePermissions)
    (husers : db'.users = db.users.update p f hf)
    (hversion : ∀ u, u.tokenVersion < (f u).tokenVersion)
    (hgrants : ∀ u x, db.users.get u = some x → p x = false →
      ∀ c, db'.grants.get (u, c) = db.grants.get (u, c)) : Keeps db db' := by
  refine ⟨hperms, fun u x hx => ?_⟩
  have hget := Table.get_update (t := db.users) (p := p) (k := u) hf
  rw [← husers, hx, Option.map_some] at hget
  cases hp : p x with
  | true =>
    rw [hp, if_pos rfl] at hget
    have hlt := hversion x
    exact ⟨f x, hget, hlt.le, fun heq => absurd heq (by omega)⟩
  | false =>
    rw [hp, if_neg Bool.false_ne_true] at hget
    exact ⟨x, hget, le_rfl, fun _ => ⟨rfl, hgrants u x hx hp⟩⟩

theorem keeps_endTokens (db : Database) (id : String) : Keeps db (db.endTokens id) :=
  Keeps.of_users (fun u => { u with tokenVersion := u.tokenVersion + 1 }) (fun u => u.id == id)
    (fun _ => rfl) rfl rfl (fun _ => Nat.lt_succ_self _) fun _ _ _ _ _ => rfl

theorem keeps_updateUserRoleEndingTokens {id : String} {roleId : ℕ}
    (h : db.updateUserRoleEndingTokens id roleId = .ok db') : Keeps db db' := by
  unfold Database.updateUserRoleEndingTokens at h
  split_ifs at h
  obtain rfl := Except.ok.inj h
  exact Keeps.of_users (fun u => { u with roleId := roleId, tokenVersion := u.tokenVersion + 1 })
    (fun u => u.id == id) (fun _ => rfl) rfl rfl (fun _ => Nat.lt_succ_self _) fun _ _ _ _ _ => rfl

/-- Grants of one account that end its tokens. -/
theorem Keeps.of_owner {owner : String} {db₁ : Database}
    (hperms : db₁.rolePermissions = db.rolePermissions) (husers : db₁.users = db.users)
    (hothers : ∀ u c, u ≠ owner → db₁.grants.get (u, c) = db.grants.get (u, c)) :
    Keeps db (db₁.endTokens owner) := by
  refine Keeps.of_users (fun u => { u with tokenVersion := u.tokenVersion + 1 })
    (fun u => u.id == owner) (fun _ => rfl) hperms ?_ (fun _ => Nat.lt_succ_self _) ?_
  · simp only [Database.endTokens, Database.bumpTokenVersion, husers]
  · intro u x hx hp c
    have hid : x.id = u := Table.key_of_get hx
    rw [hid, beq_eq_false_iff_ne] at hp
    exact hothers u c hp

theorem keeps_setUserClusterRoleEndingTokens {owner clusterID : String} {roleID : ℕ}
    {namespaces : List String}
    (h : db.setUserClusterRoleEndingTokens owner clusterID roleID namespaces = .ok db') :
    Keeps db db' := by
  obtain ⟨db₁, hset, hend⟩ := bind_eq_ok.mp h
  obtain rfl := Except.ok.inj hend
  obtain ⟨hperms, husers, hothers⟩ := frame_upsertGrant hset
  exact Keeps.of_owner hperms husers hothers

theorem keeps_deleteUserClusterRoleEndingTokens (db : Database) (owner clusterID : String) :
    Keeps db (db.deleteUserClusterRoleEndingTokens owner clusterID).1 := by
  unfold Database.deleteUserClusterRoleEndingTokens
  dsimp only
  split
  · exact Keeps.of_owner rfl rfl fun u c hu => get_deleteUserClusterRole_ne c hu
  · next hexisted =>
    refine ⟨rfl, fun u x hx => ⟨x, hx, le_rfl, fun _ => ⟨rfl, fun c => ?_⟩⟩⟩
    rw [Database.get_deleteUserClusterRole]
    split
    · next heq =>
      rw [← heq]
      exact (Option.not_isSome_iff_eq_none.mp hexisted).symm
    · rfl

theorem Keeps.attempt {r : Except StoreError Database} (h : ∀ db', r = .ok db' → Keeps db db') :
    Keeps db (attempt db r) := by
  rcases attempt_cases db r with hr | hr
  · rw [hr]
    exact Keeps.refl db
  · exact h _ hr

theorem createUser_ok {u : User} (h : db.createUser u = .ok db') :
    Keeps db db' ∧ db'.users.get u.id = some u := by
  unfold Database.createUser at h
  split at h
  · next hnone =>
    split_ifs at h
    obtain rfl := Except.ok.inj h
    refine ⟨⟨rfl, fun id x hx => ⟨x, ?_, le_rfl, fun _ => ⟨rfl, fun _ => rfl⟩⟩⟩, ?_⟩
    · show (db.users.insert u hnone).get id = some x
      rw [Table.get_insert, if_neg]
      · exact hx
      · rintro rfl
        rw [hnone] at hx
        cases hx
    · show (db.users.insert u hnone).get u.id = some u
      rw [Table.get_insert, if_pos rfl]
  · cases h

end Writers

section Unversioned

/-- A sign-in on its way to a token, or a token, of the account's version of now with an entry for
the cluster. -/
def Carries (db : Database) (userID clusterID : String) : Issuing → Prop
  | .rolePermissions user matrix rest _ =>
      user.id = userID ∧ db.getTokenVersion userID = some user.tokenVersion ∧
        ((matrix.get clusterID).isSome = true ∨ clusterID ∈ rest.map UserClusterRole.clusterId)
  | .names user matrix _ | .namespaces user matrix _ _ =>
      user.id = userID ∧ db.getTokenVersion userID = some user.tokenVersion ∧
        (matrix.get clusterID).isSome = true
  | .sign token _ _ | .issued token _ _ =>
      token.userID = userID ∧ db.getTokenVersion userID = some token.tokenVersion ∧
        (token.perms.get clusterID).isSome = true
  | _ => False

/-- A write of one grant that raises no token version. -/
structure WritesGrant (db db' : Database) (userID clusterID : String) : Prop where
  rolePermissions : db'.rolePermissions = db.rolePermissions
  users : db'.users = db.users
  others : ∀ k, k ≠ (userID, clusterID) → db'.grants.get k = db.grants.get k

theorem writesGrant_set {userID clusterID : String} {roleId : ℕ}
    (h : db.setUserClusterRole userID clusterID roleId [] = .ok db') :
    WritesGrant db db' userID clusterID := by
  obtain ⟨hperms, husers, -⟩ := frame_upsertGrant h
  refine ⟨hperms, husers, ?_⟩
  intro k hk
  rw [(Database.setUserClusterRole_ok h).1, if_neg (Ne.symm hk)]

theorem writesGrant_delete (db : Database) (userID clusterID : String) :
    WritesGrant db (db.deleteUserClusterRole userID clusterID).1 userID clusterID := by
  refine ⟨rfl, rfl, ?_⟩
  intro k hk
  rw [Database.get_deleteUserClusterRole, if_neg (Ne.symm hk)]

variable {userID clusterID : String}

theorem Current.unversioned {P Q : Prop} (hwrites : WritesGrant db db' userID clusterID)
    (hPQ : db.getTokenVersion user.id = some user.tokenVersion → P → Q) (h : Current db user P) :
    Current db' user Q := by
  obtain ⟨x, hx, hle, hsame⟩ := h
  refine ⟨x, by rw [hwrites.users, hx], hle, ?_⟩
  intro heq
  obtain ⟨hrole, hP⟩ := hsame heq
  exact ⟨hrole, hPQ (by rw [Database.getTokenVersion, hx, Option.map_some, heq]) hP⟩

/-- An entry for the cluster that is not carried was made of no grant there. -/
theorem Backed.unversioned (hwrites : WritesGrant db db' userID clusterID)
    (hfree : user.id = userID → (db.grants.get (userID, clusterID)).isSome = true →
      ¬ (matrix.get clusterID).isSome = true) (h : Backed db user matrix) :
    Backed db' user matrix := by
  intro c hc
  rcases h c hc with ⟨rfl, hindex⟩ | ⟨g, hg, hindex⟩
  · exact Or.inl ⟨rfl, by rw [hindex, permissions_eq hwrites.rolePermissions]⟩
  · have hother : (user.id, c) ≠ (userID, clusterID) := by
      intro heq
      obtain ⟨rfl, rfl⟩ := Prod.mk.inj heq
      exact hfree rfl (by rw [hg]; rfl) hc
    exact Or.inr ⟨g, by rw [hwrites.others _ hother, hg],
      by rw [hindex, permissions_eq hwrites.rolePermissions]⟩

theorem Listed.unversioned {rest : List UserClusterRole}
    (hwrites : WritesGrant db db' userID clusterID)
    (hfree : user.id = userID → (db.grants.get (userID, clusterID)).isSome = true →
      clusterID ∉ rest.map UserClusterRole.clusterId) (h : Listed db user rest) :
    Listed db' user rest := by
  intro r hr
  obtain ⟨g, hg, hrole⟩ := h r hr
  have hother : (user.id, r.clusterId) ≠ (userID, clusterID) := by
    intro heq
    obtain ⟨rfl, rfl⟩ := Prod.mk.inj heq
    exact hfree rfl (by rw [hg]; rfl) (List.mem_map_of_mem hr)
  exact ⟨g, by rw [hwrites.others _ hother, hg], hrole⟩

theorem IssuingOk.unversioned {i : Issuing} (hwrites : WritesGrant db db' userID clusterID)
    (hfree : (db.grants.get (userID, clusterID)).isSome = true → ¬ Carries db userID clusterID i)
    (h : IssuingOk db i) : IssuingOk db' i := by
  have hperms := hwrites.rolePermissions
  cases i with
  | account => exact h
  | permissions user => exact Current.unversioned hwrites (fun _ _ => trivial) h
  | grants user global =>
    exact ⟨by rw [h.1, permissions_eq hperms], Current.unversioned hwrites (fun _ _ => trivial) h.2⟩
  | rolePermissions user matrix rest t =>
    refine Current.unversioned hwrites (fun hversion hP => ⟨hP.1.unversioned hwrites ?_,
      hP.2.unversioned hwrites ?_⟩) h
    · rintro rfl hgrant hentry
      exact hfree hgrant ⟨rfl, hversion, Or.inl hentry⟩
    · rintro rfl hgrant hentry
      exact hfree hgrant ⟨rfl, hversion, Or.inr hentry⟩
  | names user matrix t =>
    refine Current.unversioned hwrites (fun hversion hP => hP.unversioned hwrites ?_) h
    rintro rfl hgrant hentry
    exact hfree hgrant ⟨rfl, hversion, hentry⟩
  | namespaces user matrix roles t =>
    refine Current.unversioned hwrites (fun hversion hP => hP.unversioned hwrites ?_) h
    rintro rfl hgrant hentry
    exact hfree hgrant ⟨rfl, hversion, hentry⟩
  | sign token t t' =>
    obtain ⟨roleId, h⟩ := h
    refine ⟨roleId, Current.unversioned hwrites (fun hversion hP => hP.unversioned hwrites ?_) h⟩
    intro hid hgrant hentry
    exact hfree hgrant ⟨hid, hid ▸ hversion, hentry⟩
  | issued token t t' =>
    obtain ⟨roleId, h⟩ := h
    refine ⟨roleId, Current.unversioned hwrites (fun hversion hP => hP.unversioned hwrites ?_) h⟩
    intro hid hgrant hentry
    exact hfree hgrant ⟨hid, hid ▸ hversion, hentry⟩

theorem PhaseOk.unversioned {p : Phase} (hwrites : WritesGrant db db' userID clusterID)
    (hfree : (db.grants.get (userID, clusterID)).isSome = true →
      ∀ i, p = .issuing i → ¬ Carries db userID clusterID i) (h : PhaseOk db p) : PhaseOk db' p := by
  have hcurrent : ∀ {user : User}, Current db user True → Current db' user True :=
    Current.unversioned hwrites fun _ _ => trivial
  cases p with
  | lookup => trivial
  | unlink user roleName => exact hcurrent h
  | bump user after => exact hcurrent h
  | version user after => exact hcurrent h
  | newRole => trivial
  | create role => trivial
  | findRole user => exact hcurrent h
  | updateRole user role => exact hcurrent h
  | roleVersion user role => exact hcurrent h
  | names user => exact hcurrent h
  | temporaries user held => exact hcurrent h
  | want sync rest => exact hcurrent h
  | set sync rest c role => exact hcurrent h
  | unwant sync rest => exact hcurrent h
  | issuing i => exact IssuingOk.unversioned hwrites (fun hgrant => hfree hgrant i rfl) h
  | failed => trivial

end Unversioned

section Reads

theorem globalEntry_backed (user : User) :
    Backed db user (Database.globalEntry (db.getPermissionsByRoleID user.roleId)) := by
  intro c hc
  unfold Database.globalEntry at hc ⊢
  split_ifs at hc ⊢
  · cases hc
  · rw [Dict.get_set_isSome, Table.get_empty] at hc
    obtain rfl : "*" = c := by simpa using hc
    exact Or.inl ⟨rfl, Dict.index_set_self⟩

theorem Backed.set {r : UserClusterRole} {g : ClusterGrant} (h : Backed db user matrix)
    (hg : db.grants.get (user.id, r.clusterId) = some g) (hrole : g.roleId = r.roleId) :
    Backed db user (matrix.set r.clusterId (db.getPermissionsByRoleID r.roleId)) := by
  intro c hc
  by_cases heq : r.clusterId = c
  · subst heq
    exact Or.inr ⟨g, hg, by rw [Dict.index_set_self, hrole]⟩
  · rw [Dict.get_set_isSome, decide_eq_false heq, Bool.or_false] at hc
    rw [Dict.index_set_ne heq]
    exact h c hc

theorem listed_listUserClusterRoles (now : ℤ) :
    Listed db user (db.listUserClusterRoles now user.id) := by
  intro r hr
  obtain ⟨g, hg, rfl⟩ := List.mem_map.mp hr
  exact ⟨g, get_of_mem_activeGrantsOf hg, rfl⟩

theorem Current.imp {P Q : Prop} (h : Current db user P) (hPQ : P → Q) : Current db user Q := by
  obtain ⟨x, hx, hle, hsame⟩ := h
  exact ⟨x, hx, hle, fun heq => ⟨(hsame heq).1, hPQ (hsame heq).2⟩⟩

theorem issuingOk_nextRole {rest : List UserClusterRole} {t : ℤ}
    (h : Current db user (Backed db user matrix ∧ Listed db user rest)) :
    IssuingOk db (.nextRole user matrix rest t) := by
  unfold Issuing.nextRole
  split
  · exact h.imp And.left
  · exact h

/-- A read of the database as it is. -/
theorem IssuingOk.read {i : Issuing} (now : ℤ) (h : IssuingOk db i) :
    IssuingOk db (i.read "" db now) := by
  cases i with
  | account => exact h.elim
  | permissions user => exact ⟨rfl, h⟩
  | grants user global =>
    obtain ⟨rfl, h⟩ := h
    exact issuingOk_nextRole (h.imp fun _ =>
      ⟨globalEntry_backed user, listed_listUserClusterRoles now⟩)
  | rolePermissions user matrix rest t =>
    cases rest with
    | nil => exact Current.imp h And.left
    | cons r rest =>
      apply issuingOk_nextRole
      refine Current.imp h ?_
      rintro ⟨hbacked, hlisted⟩
      obtain ⟨g, hg, hrole⟩ := hlisted r (List.mem_cons_self ..)
      exact ⟨hbacked.set hg hrole, fun r' hr' => hlisted r' (List.mem_cons_of_mem _ hr')⟩
  | names user matrix t => exact h
  | namespaces user matrix roles t =>
    exact ⟨user.roleId, h⟩
  | sign token t t' => exact h
  | issued token t t' => exact h

end Reads

section Steps

/-- The role of the account is still the one that the sign-in goes on with, where it reads the
version again. -/
def Rereads (db : Database) : Phase → Prop
  | .version user after =>
      after = .fail ∨ ∀ x, db.users.get user.id = some x → x.roleId = user.roleId
  | .roleVersion user role => ∀ x, db.users.get user.id = some x → x.roleId = role.id
  | _ => True

/-- The grant that a sign-in writes next without raising the token version. -/
def Phase.writesGrant (k : ℕ) : Phase → Option (String × String)
  | .set sync _ clusterID _ => some (sync.user.id, clusterID)
  | .unwant sync rest => rest[k]?.map fun c => (sync.user.id, c)
  | _ => none

/-- A sign-in reads the version again only while its role is the account's, and writes over or
deletes a grant only while no token of the account's version carries it. -/
def Settled (w : World) : Step → Prop
  | .go i k => ∀ claims p, w.signIns[i]? = some (claims, p) → Rereads w.db p ∧
      ∀ u c, p.writesGrant k = some (u, c) → (w.db.grants.get (u, c)).isSome = true →
        ∀ s ∈ w.signIns, ∀ j, s.2 = .issuing j → ¬ Carries w.db u c j
  | _ => True

def Ok (w : World) : Prop := ∀ s ∈ w.signIns, PhaseOk w.db s.2

theorem current_of_get {x : User} (hx : db.users.get user.id = some x)
    (hversion : user.tokenVersion ≤ x.tokenVersion) (hrole : x.roleId = user.roleId) :
    Current db user True := ⟨x, hx, hversion, fun _ => ⟨hrole, trivial⟩⟩

theorem phaseOk_grantSync (h : Current db user True) : PhaseOk db (grantSync cfg claims user) := by
  unfold grantSync
  split_ifs <;> exact h

theorem phaseOk_roleSync {roleName : String} (h : Current db user True) :
    PhaseOk db (roleSync cfg claims user roleName) := by
  unfold roleSync
  split_ifs
  · exact h
  · exact phaseOk_grantSync h

theorem phaseOk_leave {sync : Sync} {after : After} (h : Current db sync.user True) :
    PhaseOk db (sync.leave after) := by
  unfold Sync.leave
  split_ifs
  · exact h
  · cases after with
    | fail => trivial
    | roleSync roleName => exact h
    | issue => exact h

theorem phaseOk_unwant {sync : Sync} {rest : List String} (h : Current db sync.user True) :
    PhaseOk db (sync.unwant rest) := by
  unfold Sync.unwant
  split_ifs
  · exact phaseOk_leave h
  · exact h

theorem phaseOk_want {sync : Sync} {rest : List (String × String)}
    (h : Current db sync.user True) : PhaseOk db (sync.want claims rest) := by
  unfold Sync.want
  split_ifs
  · exact phaseOk_unwant h
  · exact h

theorem phaseOk_error {p : Phase} (k : ℕ) (h : PhaseOk db p) : PhaseOk db (p.error claims k) := by
  cases p with
  | want sync rest => exact phaseOk_want h
  | set sync rest c role => exact phaseOk_leave h
  | unwant sync rest => exact phaseOk_leave h
  | issuing i =>
    cases i with
    | issued token t t' => exact h
    | account => trivial
    | permissions user => trivial
    | grants user global => trivial
    | rolePermissions user matrix rest t => trivial
    | names user matrix t => trivial
    | namespaces user matrix roles t => trivial
    | sign token t t' => trivial
  | lookup => trivial
  | unlink user roleName => trivial
  | bump user after => trivial
  | version user after => trivial
  | newRole => trivial
  | create role => trivial
  | findRole user => trivial
  | updateRole user role => trivial
  | roleVersion user role => trivial
  | names user => trivial
  | temporaries user held => trivial
  | failed => trivial

variable {passwords : List String} {k : ℕ}

/-- The account found has the version and the role that the sign-in goes on with. -/
theorem phaseOk_found : PhaseOk db (found cfg claims passwords (db.getUserByEmail claims.email)) := by
  cases h : db.getUserByEmail claims.email with
  | none => trivial
  | some p =>
    obtain ⟨user, role⟩ := p
    obtain ⟨x, hfind, hrole⟩ := Option.bind_eq_some_iff.mp h
    obtain ⟨ro, -, hpair⟩ := Option.map_eq_some_iff.mp hrole
    obtain ⟨rfl, rfl⟩ := Prod.mk.inj hpair
    have hget : db.users.get x.id = some x := Table.get_of_mem (List.mem_of_find?_eq_some hfind)
    have hcurrent : Current db x True := current_of_get hget le_rfl rfl
    unfold found
    dsimp only
    split_ifs
    · exact hcurrent
    · exact phaseOk_roleSync hcurrent

/-- A version read while the account has the role of the sign-in. -/
theorem current_version {v roleId : ℕ} (hversion : db.getTokenVersion user.id = some v)
    (hrole : ∀ x, db.users.get user.id = some x → x.roleId = roleId) :
    Current db { user with tokenVersion := v, roleId := roleId } True := by
  obtain ⟨x, hx, rfl⟩ := Option.map_eq_some_iff.mp hversion
  exact current_of_get hx le_rfl (hrole x hx)

/-- The database after a statement. -/
theorem advance_db (cfg : OIDCConfig) (claims : Claims) (db : Database) (now : ℤ)
    (passwords : List String) (k : ℕ) (p : Phase) : (p.writesGrant k = none →
      Keeps db (p.advance cfg claims db now passwords k).1) ∧
    ∀ u c, p.writesGrant k = some (u, c) →
      WritesGrant db (p.advance cfg claims db now passwords k).1 u c := by
  have hkeeps : ∀ {o : Option (String × String)}, o = none → (o = none → Keeps db db) ∧
      ∀ u c, o = some (u, c) → WritesGrant db db u c := by
    rintro o rfl
    exact ⟨fun _ => Keeps.refl db, fun u c h => (nomatch h)⟩
  cases p with
  | bump user after => exact ⟨fun _ => keeps_endTokens db user.id, fun u c h => by cases h⟩
  | create role =>
    refine ⟨fun _ => ?_, fun u c h => by cases h⟩
    unfold Phase.advance
    dsimp only
    cases hcreate : db.createUser ⟨claims.newId, claims.email, role.id, 0⟩ with
    | error e => exact Keeps.refl db
    | ok db' => exact (createUser_ok hcreate).1
  | updateRole user role =>
    refine ⟨fun _ => ?_, fun u c h => by cases h⟩
    unfold Phase.advance
    dsimp only
    cases hupdate : db.updateUserRoleEndingTokens user.id role.id with
    | error e => exact Keeps.refl db
    | ok db' => exact keeps_updateUserRoleEndingTokens hupdate
  | set sync rest clusterID role =>
    refine ⟨fun h => (nomatch h), fun u c h => ?_⟩
    obtain ⟨rfl, rfl⟩ := Prod.mk.inj (Option.some.inj h)
    unfold Phase.advance
    dsimp only
    cases hset : db.setUserClusterRole sync.user.id clusterID role.id [] with
    | error e => exact ⟨rfl, rfl, fun _ _ => rfl⟩
    | ok db' => exact writesGrant_set hset
  | unwant sync rest =>
    unfold Phase.advance Phase.writesGrant
    dsimp only
    cases hrest : rest[k]? with
    | none => exact hkeeps rfl
    | some clusterID =>
      refine ⟨fun h => (nomatch h), fun u c h => ?_⟩
      obtain ⟨rfl, rfl⟩ := Prod.mk.inj (Option.some.inj h)
      exact writesGrant_delete db sync.user.id clusterID
  | lookup => exact hkeeps rfl
  | unlink user roleName => exact hkeeps rfl
  | version user after => exact hkeeps rfl
  | newRole => exact hkeeps rfl
  | findRole user => exact hkeeps rfl
  | roleVersion user role => exact hkeeps rfl
  | names user => exact hkeeps rfl
  | temporaries user held => exact hkeeps rfl
  | want sync rest => exact hkeeps rfl
  | issuing i => exact hkeeps rfl
  | failed => exact hkeeps rfl

/-- What a sign-in holds after a statement. -/
theorem phaseOk_advance (cfg : OIDCConfig) (claims : Claims) (now : ℤ) (passwords : List String)
    (k : ℕ) {p : Phase} (h : PhaseOk db p) (hreads : Rereads db p) :
    PhaseOk (p.advance cfg claims db now passwords k).1
      (p.advance cfg claims db now passwords k).2.2 := by
  cases p with
  | lookup => exact phaseOk_found
  | unlink user roleName => exact h
  | bump user after => exact Current.mono (keeps_endTokens db user.id) (fun _ _ => trivial) h
  | version user after =>
    unfold Phase.advance
    dsimp only
    cases hversion : db.getTokenVersion user.id with
    | none => trivial
    | some v =>
      cases after with
      | fail => trivial
      | issue => exact current_version hversion (hreads.resolve_left (by simp))
      | roleSync roleName =>
        exact phaseOk_roleSync (current_version hversion (hreads.resolve_left (by simp)))
  | newRole =>
    unfold Phase.advance
    dsimp only
    cases db.getRoleByName claims.mapped <;> trivial
  | create role =>
    unfold Phase.advance
    dsimp only
    cases hcreate : db.createUser ⟨claims.newId, claims.email, role.id, 0⟩ with
    | error e => trivial
    | ok db' => exact phaseOk_grantSync (current_of_get (createUser_ok hcreate).2 le_rfl rfl)
  | findRole user =>
    unfold Phase.advance
    dsimp only
    cases db.getRoleByName claims.mapped with
    | none => trivial
    | some role => exact h
  | updateRole user role =>
    unfold Phase.advance
    dsimp only
    cases hupdate : db.updateUserRoleEndingTokens user.id role.id with
    | error e => trivial
    | ok db' => exact Current.mono (keeps_updateUserRoleEndingTokens hupdate) (fun _ _ => trivial) h
  | roleVersion user role =>
    unfold Phase.advance
    dsimp only
    cases hversion : db.getTokenVersion user.id with
    | none => trivial
    | some v => exact phaseOk_grantSync (current_version hversion hreads)
  | names user => exact h
  | temporaries user held => exact phaseOk_want h
  | want sync rest =>
    unfold Phase.advance
    dsimp only
    cases rest[k]? with
    | none => exact h
    | some r =>
      dsimp only
      split_ifs
      · exact phaseOk_want h
      · cases db.getRoleByName r.2 with
        | none => exact phaseOk_want h
        | some role => exact h
  | set sync rest clusterID role =>
    unfold Phase.advance
    dsimp only
    cases hset : db.setUserClusterRole sync.user.id clusterID role.id [] with
    | error e => exact phaseOk_want h
    | ok db' =>
      exact phaseOk_want (Current.unversioned (writesGrant_set hset) (fun _ _ => trivial) h)
  | unwant sync rest =>
    unfold Phase.advance
    dsimp only
    cases rest[k]? with
    | none => exact h
    | some clusterID =>
      exact phaseOk_unwant (Current.unversioned (writesGrant_delete db sync.user.id clusterID)
        (fun _ _ => trivial) h)
  | issuing i => exact IssuingOk.read now h
  | failed => trivial

theorem ok_go {i : ℕ} (h : Ok w) (hsettled : Settled w (.go i k)) : Ok (go cfg w i k) := by
  unfold go
  cases hi : w.signIns[i]? with
  | none => exact h
  | some s =>
    obtain ⟨claims, p⟩ := s
    obtain ⟨hreads, hfree⟩ := hsettled claims p hi
    obtain ⟨hkeeps, hwrites⟩ := advance_db cfg claims w.db w.now w.passwords k p
    have hmover := phaseOk_advance cfg claims w.now w.passwords k
      (h (claims, p) (List.mem_of_getElem? hi)) hreads
    have hothers : ∀ s ∈ w.signIns,
        PhaseOk (p.advance cfg claims w.db w.now w.passwords k).1 s.2 := by
      cases hgrant : p.writesGrant k with
      | none => exact fun s hs => (h s hs).mono (hkeeps hgrant)
      | some uc =>
        intro s hs
        exact (h s hs).unversioned (hwrites uc.1 uc.2 hgrant) fun hsome j hj =>
          hfree uc.1 uc.2 hgrant hsome s hs j hj
    intro s hs
    rcases List.mem_or_eq_of_mem_set hs with hs | rfl
    · exact hothers s hs
    · exact hmover

theorem ok_step (a : Step) (h : Ok w) (hsettled : Settled w a) : Ok (step cfg w a) := by
  cases a with
  | tick d => exact h
  | begin claims =>
    intro s hs
    rcases List.mem_append.mp hs with hs | hs
    · exact h s hs
    · rw [List.mem_singleton.mp hs]
      trivial
  | go i k => exact ok_go h hsettled
  | fail i k =>
    unfold step
    dsimp only
    cases hi : w.signIns[i]? with
    | none => exact h
    | some s =>
      intro s' hs'
      rcases List.mem_or_eq_of_mem_set hs' with hs' | rfl
      · exact h s' hs'
      · exact phaseOk_error k (h s (List.mem_of_getElem? hi))
  | setRole userID roleID =>
    intro s hs
    exact (h s hs).mono (Keeps.attempt fun db' => keeps_updateUserRoleEndingTokens)
  | setGrant userID clusterID roleID namespaces =>
    intro s hs
    exact (h s hs).mono (Keeps.attempt fun db' => keeps_setUserClusterRoleEndingTokens)
  | deleteGrant userID clusterID =>
    intro s hs
    exact (h s hs).mono (keeps_deleteUserClusterRoleEndingTokens w.db userID clusterID)

end Steps

section Tokens
variable {perm clusterID : String}

theorem isSome_of_matchAny (h : matchAny (matrix.index clusterID) perm = true) :
    (matrix.get clusterID).isSome = true := by
  by_contra hnone
  rw [Dict.index_of_get_none (Option.not_isSome_iff_eq_none.mp hnone)] at h
  cases h

theorem gives_of_entry {c : String} (hbacked : Backed db user matrix)
    (hc : c = clusterID ∨ c = "*") (h : matchAny (matrix.index c) perm = true) :
    gives db user perm clusterID := by
  rcases hbacked c (isSome_of_matchAny h) with ⟨rfl, hindex⟩ | ⟨g, hg, hindex⟩
  · rw [hindex] at h
    exact Or.inl h
  · rw [hindex] at h
    exact Or.inr ⟨c, g, hc, hg, h⟩

/-- A matrix of the account's own entries gives what the account has. -/
theorem gives_of_backed (hbacked : Backed db user matrix)
    (h : matrix.hasForCluster perm clusterID = true) : gives db user perm clusterID := by
  unfold PermissionMatrix.hasForCluster at h
  rcases Bool.or_eq_true_iff.mp h with h | h
  · exact gives_of_entry hbacked (Or.inr rfl) h
  · exact gives_of_entry hbacked (Or.inl rfl) (Bool.and_eq_true_iff.mp h).2

theorem mem_tokens {token : TokenPayload} (h : token ∈ w.tokens) :
    ∃ s ∈ w.signIns, ∃ t t', s.2 = .issuing (.issued token t t') := by
  obtain ⟨s, hs, htoken⟩ := List.mem_filterMap.mp h
  split at htoken
  · next t t' hphase =>
    obtain rfl := Option.some.inj htoken
    exact ⟨s, hs, _, _, hphase⟩
  · cases htoken

end Tokens

/-- A token of the account's version gives no permission on a cluster that the account's role and
its grants do not, while sign-ins only take steps that are settled. -/
theorem token_no_wider (cfg : OIDCConfig) (db : Database) (now : ℤ) (passwords : List String)
    (run : List Step) (h : Along (step cfg) Settled (World.start db now passwords) run)
    (token : TokenPayload) (user : User) (perm clusterID : String)
    (htoken : token ∈ (exec (step cfg) (World.start db now passwords) run).tokens)
    (huser : (exec (step cfg) (World.start db now passwords) run).db.users.get token.userID =
      some user)
    (hversion : token.tokenVersion = user.tokenVersion)
    (hperm : token.hasPermissionForCluster perm clusterID = true) :
    gives (exec (step cfg) (World.start db now passwords) run).db user perm clusterID := by
  have hok : Ok (exec (step cfg) (World.start db now passwords) run) :=
    exec_invariant (fun w a hw ha => ok_step a hw ha) (fun s hs => by cases hs) h
  obtain ⟨s, hs, t, t', hphase⟩ := mem_tokens htoken
  have hphaseOk := hok s hs
  rw [hphase] at hphaseOk
  obtain ⟨roleId, x, hx, -, hsame⟩ := hphaseOk
  obtain rfl : x = user := Option.some.inj (hx.symm.trans huser)
  obtain ⟨hrole, hbacked⟩ := hsame hversion.symm
  have hholder : holder token roleId = { x with email := token.email } := by
    have hid : x.id = token.userID := Table.key_of_get hx
    have hrole' : x.roleId = roleId := hrole
    rw [holder, ← hid, hversion, ← hrole']
  rw [hholder] at hbacked
  exact gives_of_backed hbacked hperm

/-- A statement that neither reads the version again nor writes a grant. -/
def Phase.calm : Phase → Bool
  | .version .. | .roleVersion .. | .set .. | .unwant .. => false
  | _ => true

theorem settled_of_calm {a : Step} (h : ∀ s ∈ w.signIns, s.2.calm = true) : Settled w a := by
  cases a with
  | go i k =>
    intro claims p hi
    have hcalm := h (claims, p) (List.mem_of_getElem? hi)
    cases p with
    | version user after => cases hcalm
    | roleVersion user role => cases hcalm
    | set sync rest c role => cases hcalm
    | unwant sync rest => cases hcalm
    | _ => exact ⟨trivial, fun u c hw => by cases hw⟩
  | _ => trivial

/-- Alice as a member, whose groups name the role that she has on a cluster. -/
def aliceReads : Claims := ⟨"alice@example.com", "Member", true, [("prod", "Read")], "n1"⟩

def readRun : List Step :=
  .setGrant "alice" "prod" 1 [] :: .begin aliceReads :: List.replicate 10 (.go 0 0)

theorem token_no_wider_readRun :
    gives (exec (step ⟨true⟩) (World.start .small 0 []) readRun).db
      ⟨"alice", "alice@example.com", 4, 1⟩ "resource.pod.read" "prod" := by
  have hcalm : Along (step ⟨true⟩) (fun w _ => ∀ s ∈ w.signIns, s.2.calm = true)
      (World.start .small 0 []) readRun := by decide
  have htokens : (exec (step ⟨true⟩) (World.start .small 0 []) readRun).tokens.map (fun token =>
      (token.userID, token.tokenVersion, token.hasPermissionForCluster "resource.pod.read" "prod")) =
        [("alice", 1, true)] := by decide
  obtain ⟨token, htoken, hfacts⟩ := List.mem_map.mp (htokens ▸ List.mem_singleton_self _)
  obtain ⟨huser, hversion, hperm⟩ := Prod.mk.inj hfacts |>.imp_right Prod.mk.inj
  apply token_no_wider ⟨true⟩ .small 0 [] readRun (hcalm.mono fun w a => settled_of_calm) token _ _ _
    htoken ?_ hversion hperm
  rw [huser]
  decide

/-- Alice, made an administrator by the groups of her identity provider. -/
def aliceAdmin : Claims := ⟨"alice@example.com", "Admin", true, [], "n1"⟩

/-- An administrator makes her a member again between the sign-in's write and its second read of the
version: the token of an administrator has the version of the member. -/
def overtakenRun : List Step :=
  [Step.begin aliceAdmin, .go 0 0, .go 0 0, .go 0 0, .setRole "alice" 4] ++ List.replicate 8 (.go 0 0)

def overtaken : World := exec (step ⟨true⟩) (World.start .small 0 []) overtakenRun

theorem token_wider : ∃ token ∈ overtaken.tokens, ∃ user,
    overtaken.db.users.get token.userID = some user ∧ token.tokenVersion = user.tokenVersion ∧
    token.hasPermissionForCluster "resource.pod.delete" "prod" = true ∧
    ¬ gives overtaken.db user "resource.pod.delete" "prod" := by
  have htokens : overtaken.tokens.map (fun token => (token.userID, token.tokenVersion,
      token.hasPermissionForCluster "resource.pod.delete" "prod")) = [("alice", 2, true)] := by
    decide
  obtain ⟨token, htoken, hfacts⟩ := List.mem_map.mp (htokens ▸ List.mem_singleton_self _)
  obtain ⟨huser, hversion, hperm⟩ := Prod.mk.inj hfacts |>.imp_right Prod.mk.inj
  refine ⟨token, htoken, ⟨"alice", "alice@example.com", 4, 2⟩, ?_, hversion, hperm, ?_⟩
  · rw [huser]
    decide
  · have hgrants : overtaken.db.grants.rows = [] := by decide
    rintro (hrole | ⟨c, g, -, hg, -⟩)
    · revert hrole
      decide
    · have hmem := Table.mem_of_get hg
      rw [hgrants] at hmem
      cases hmem

end Kubeast.SignIn
