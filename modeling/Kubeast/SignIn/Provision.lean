import Kubeast.Roles.Issue

/-! Sign-in through an identity provider (`auth-service-go/internal/handler/oidc.go`), statement by
statement, between other sign-ins and the writes of administrators. -/
namespace Kubeast
open Text Permissions Transition

namespace Database

/-- The account with the name of its role. -/
def getUserByEmail (db : Database) (email : String) : Option (User × Role) :=
  (db.users.rows.find? fun u => u.email == email).bind fun u =>
    (db.roles.get u.roleId).map fun ro => (u, ro)

def getTokenVersion (db : Database) (id : String) : Option ℕ :=
  (db.users.get id).map User.tokenVersion

/-- `UPDATE auth_users SET role_id, token_version = token_version + 1 WHERE id`. -/
def updateUserRoleEndingTokens (db : Database) (id : String) (roleId : ℕ) :
    Except StoreError Database :=
  if db.users.has id ∧ ¬ db.roles.has roleId then .error .foreignKeyViolation
  else .ok { db with
    users := db.users.update (fun u => u.id == id)
      (fun u => { u with roleId := roleId, tokenVersion := u.tokenVersion + 1 }) fun _ => rfl
    grants_refer := fun g hg => by
      simpa [Directory.RefersGrant, Directory.Refers] using db.grants_refer g hg
    requests_refer := fun q hq => by simpa [Directory.Refers] using db.requests_refer q hq }

theorem has_insert_user {t : Table User.id} {u : User} (h : t.get u.id = none) {id : String}
    (hid : t.has id) : (t.insert u h).has id := by
  obtain ⟨x, hx, rfl⟩ := hid
  exact ⟨x, Table.mem_insert.mpr (Or.inr hx), rfl⟩

/-- `INSERT INTO auth_users`. -/
def createUser (db : Database) (u : User) : Except StoreError Database :=
  if h : db.users.get u.id = none then
    if db.users.rows.any fun x => x.email == u.email then .error .uniqueViolation
    else if ¬ db.roles.has u.roleId then .error .foreignKeyViolation
    else .ok { db with
      users := db.users.insert u h
      grants_refer := fun g hg =>
        have hrefer := db.grants_refer g hg
        ⟨⟨has_insert_user h hrefer.1.1, hrefer.1.2⟩, hrefer.2⟩
      requests_refer := fun q hq =>
        have hrefer := db.requests_refer q hq
        ⟨has_insert_user h hrefer.1, hrefer.2⟩ }
  else .error .uniqueViolation

end Database

namespace SignIn

structure OIDCConfig where
  syncRoles : Bool

/-- What the verified claims come to: the role that the groups are mapped to, or the default one,
and the roles they name on clusters. -/
structure Claims where
  email : String
  mapped : String
  hasGroups : Bool
  want : List (String × String)
  /-- The fresh UUID of an account that is made now. -/
  newId : String

/-- What follows the end of the tokens issued so far. -/
inductive After
  | roleSync (roleName : String)
  | issue
  | fail

/-- The locals of `syncClusterGrants`. -/
structure Sync where
  user : User
  held : Dict String String
  temporary : List String
  lost : Bool

/-- The statement that a sign-in executes next, with its locals. -/
inductive Phase
  | lookup
  | unlink (user : User) (roleName : String)
  | bump (user : User) (after : After)
  | version (user : User) (after : After)
  | newRole
  | create (role : Role)
  | findRole (user : User)
  | updateRole (user : User) (role : Role)
  | roleVersion (user : User) (role : Role)
  | names (user : User)
  | temporaries (user : User) (held : Dict String String)
  | want (sync : Sync) (rest : List (String × String))
  | set (sync : Sync) (rest : List (String × String)) (clusterID : String) (role : Role)
  | unwant (sync : Sync) (rest : List String)
  | issuing (issuing : Issuing)
  | failed

section Branches
variable (cfg : OIDCConfig) (claims : Claims)

/-- The sign-in goes on to its token. -/
def Phase.issue (user : User) : Phase := .issuing (.permissions user)

def grantSync (user : User) : Phase :=
  if cfg.syncRoles && claims.hasGroups then .names user else .issue user

def roleSync (user : User) (roleName : String) : Phase :=
  if cfg.syncRoles && claims.hasGroups && claims.mapped ≠ roleName then .findRole user
  else grantSync cfg claims user

def found (passwords : List String) : Option (User × Role) → Phase
  | none => .newRole
  | some (user, role) =>
      if role.name = "Pending" ∧ user.id ∈ passwords then .unlink user role.name
      else roleSync cfg claims user role.name

/-- The deferred end of the tokens, if a grant was lost. -/
def Sync.leave (sync : Sync) (after : After) : Phase :=
  if sync.lost then .bump sync.user after
  else match after with
    | .fail => .failed
    | _ => .issue sync.user

def Sync.unwanted (sync : Sync) : List String :=
  (sync.held.rows.map Prod.fst).filter fun c =>
    !sync.temporary.contains c && !(claims.want.map Prod.fst).contains c

def Sync.unwant (sync : Sync) (rest : List String) : Phase :=
  if rest = [] then sync.leave .issue else .unwant sync rest

def Sync.want (sync : Sync) (rest : List (String × String)) : Phase :=
  if rest = [] then sync.unwant (sync.unwanted claims) else .want sync rest

end Branches

/-- The database and its clock, the accounts with a password, and the sign-ins so far. -/
structure World where
  db : Database
  now : ℤ
  passwords : List String
  signIns : List (Claims × Phase)

def World.start (db : Database) (now : ℤ) (passwords : List String) : World :=
  ⟨db, now, passwords, []⟩

/-- One statement: the database afterwards, the accounts with a password, and the next phase. The
loops over a map take its keys in any order: `k` says which is next. -/
def Phase.advance (cfg : OIDCConfig) (claims : Claims) (db : Database) (now : ℤ)
    (passwords : List String) (k : ℕ) : Phase → Database × List String × Phase
  | .lookup => (db, passwords, found cfg claims passwords (db.getUserByEmail claims.email))
  | .unlink user roleName =>
      (db, passwords.filter (· ≠ user.id), .bump user (.roleSync roleName))
  | .bump user after => (db.endTokens user.id, passwords, .version user after)
  | .version user after =>
      (db, passwords, match db.getTokenVersion user.id, after with
        | none, _ => .failed
        | some _, .fail => .failed
        | some v, .issue => .issue { user with tokenVersion := v }
        | some v, .roleSync roleName => roleSync cfg claims { user with tokenVersion := v } roleName)
  | .newRole => (db, passwords, match db.getRoleByName claims.mapped with
      | none => .failed
      | some role => .create role.toRole)
  | .create role =>
      -- no password: the account can only sign in through the provider
      let user : User := ⟨claims.newId, claims.email, role.id, 0⟩
      match db.createUser user with
      | .error _ => (db, passwords, .failed)
      | .ok db => (db, passwords, grantSync cfg claims user)
  | .findRole user => (db, passwords, match db.getRoleByName claims.mapped with
      | none => .failed
      | some role => .updateRole user role.toRole)
  | .updateRole user role => match db.updateUserRoleEndingTokens user.id role.id with
      | .error _ => (db, passwords, .failed)
      | .ok db => (db, passwords, .roleVersion user role)
  | .roleVersion user role => (db, passwords, match db.getTokenVersion user.id with
      | none => .failed
      | some v => grantSync cfg claims { user with tokenVersion := v, roleId := role.id })
  | .names user => (db, passwords, .temporaries user (db.listUserClusterRoleNames now user.id))
  | .temporaries user held =>
      let temporary := ((db.listUserClusterGrants now user.id).filter fun g =>
        g.expiresAt.isSome).map UserClusterGrant.clusterId
      (db, passwords, Sync.want claims ⟨user, held, temporary, false⟩ claims.want)
  | .want sync rest => (db, passwords, match rest[k]? with
      | none => .want sync rest
      | some (clusterID, roleName) =>
        if sync.temporary.contains clusterID || sync.held.index clusterID = roleName then
          sync.want claims (rest.eraseIdx k)
        else match db.getRoleByName roleName with
          | none => sync.want claims (rest.eraseIdx k)
          | some role => .set sync (rest.eraseIdx k) clusterID role.toRole)
  | .set sync rest clusterID role => match db.setUserClusterRole sync.user.id clusterID role.id [] with
      -- a cluster that is not registered does not fail the sign-in
      | .error _ => (db, passwords, sync.want claims rest)
      | .ok db =>
        let lost := sync.lost || sync.held.index clusterID ≠ ""
        (db, passwords, Sync.want claims { sync with lost := lost } rest)
  | .unwant sync rest => match rest[k]? with
      | none => (db, passwords, .unwant sync rest)
      | some clusterID =>
        ((db.deleteUserClusterRole sync.user.id clusterID).1, passwords,
          Sync.unwant { sync with lost := true } (rest.eraseIdx k))
  | .issuing i => (db, passwords, .issuing (i.read "" db now))
  | .failed => (db, passwords, .failed)

/-- A call of the sign-in answers with an error. So ends also a sign-in to a dormant account. A role that
is not read is skipped: `k` says which. -/
def Phase.error (claims : Claims) (k : ℕ) : Phase → Phase
  | .want sync rest => sync.want claims (rest.eraseIdx k)
  | .set sync _ _ _ | .unwant sync _ => sync.leave .fail
  | .issuing (.issued token t t') => .issuing (.issued token t t')
  | _ => .failed

inductive Step
  | tick (d : ℕ)
  | begin (claims : Claims)
  | go (i k : ℕ)
  | fail (i k : ℕ)
  | setRole (userID : String) (roleID : ℕ)
  | setGrant (userID clusterID : String) (roleID : ℕ) (namespaces : List String)
  | deleteGrant (userID clusterID : String)

def go (cfg : OIDCConfig) (w : World) (i k : ℕ) : World :=
  match w.signIns[i]? with
  | none => w
  | some (claims, phase) =>
    let (db, passwords, phase) := phase.advance cfg claims w.db w.now w.passwords k
    { w with db := db, passwords := passwords, signIns := w.signIns.set i (claims, phase) }

def step (cfg : OIDCConfig) (w : World) : Step → World
  | .tick d => { w with now := w.now + d }
  | .begin claims => { w with signIns := w.signIns ++ [(claims, .lookup)] }
  | .go i k => go cfg w i k
  | .fail i k => match w.signIns[i]? with
      | none => w
      | some (claims, phase) => { w with signIns := w.signIns.set i (claims, phase.error claims k) }
  | .setRole userID roleID =>
      { w with db := attempt w.db (w.db.updateUserRoleEndingTokens userID roleID) }
  | .setGrant userID clusterID roleID namespaces =>
      { w with db := attempt w.db (w.db.setUserClusterRoleEndingTokens userID clusterID roleID namespaces) }
  | .deleteGrant userID clusterID =>
      { w with db := (w.db.deleteUserClusterRoleEndingTokens userID clusterID).1 }

/-- The tokens that sign-ins have issued. -/
def World.tokens (w : World) : List TokenPayload := w.signIns.filterMap fun s =>
  match s.2 with
  | .issuing (.issued token _ _) => some token
  | _ => none

/-- What an account's role and its grants give on a cluster, whatever the grants' time. -/
def gives (db : Database) (user : User) (perm clusterID : String) : Prop :=
  matchAny (globalPermissions (db.getPermissionsByRoleID user.roleId)) perm = true ∨
    ∃ c g, (c = clusterID ∨ c = "*") ∧ db.grants.get (user.id, c) = some g ∧
      matchAny (db.getPermissionsByRoleID g.roleId) perm = true

end SignIn
end Kubeast
