import Kubeast.Permissions.Matching
import Kubeast.Foundation.Text

/-! What a signed-in request carries (`services/pkg/auth/jwt.go`) and the identity it
acts as on a cluster (`services/pkg/auth/impersonation.go`). -/
namespace Kubeast.Permissions
open Text

/-- The claims the checks of this development read. -/
structure TokenPayload where
  userID : String
  email : String
  perms : PermissionMatrix
  roles : Dict String String
  namespaces : Dict String (List String)
  tokenVersion : ℕ
  system : String

namespace TokenPayload

def allowedIn (p : TokenPayload) (clusterID ns : String) : Bool :=
  (p.namespaces.index clusterID).isEmpty || (p.namespaces.index clusterID).contains ns

/-- A global permission: the `"*"` entry only. -/
def hasPermission (p : TokenPayload) (perm : String) : Bool := p.perms.hasForCluster perm "*"

def hasPermissionForCluster (p : TokenPayload) (perm clusterID : String) : Bool :=
  p.perms.hasForCluster perm clusterID

def hasPermissionIn (p : TokenPayload) (perm clusterID ns : String) : Bool :=
  p.hasPermissionForCluster perm clusterID && p.allowedIn clusterID ns

/-- `matchAny(p.Perms["*"], "*")`: the global admin. -/
def holdsEverything (p : TokenPayload) : Bool := matchAny (p.perms.index "*") "*"

theorem hasPermission_iff {p : TokenPayload} {perm : String} :
    p.hasPermission perm = true ↔ matchAny (p.perms.index "*") perm = true := by
  simp [hasPermission, PermissionMatrix.hasForCluster]

theorem hasPermissionForCluster_of_hasPermission {p : TokenPayload} {perm : String}
    (clusterID : String) (h : p.hasPermission perm = true) :
    p.hasPermissionForCluster perm clusterID = true :=
  PermissionMatrix.hasForCluster_of_global (hasPermission_iff.mp h)

theorem allowedIn_iff {p : TokenPayload} {clusterID ns : String} :
    p.allowedIn clusterID ns = true ↔
      p.namespaces.index clusterID = [] ∨ ns ∈ p.namespaces.index clusterID := by
  simp [allowedIn]

end TokenPayload

def groupAuthenticated : String := "kubeast:authenticated"
def groupViewer : String := "kubeast:viewer"
def groupOperator : String := "kubeast:operator"
def groupAdmin : String := "kubeast:admin"
def groupRolePrefix : String := "kubeast:role:"
def systemInvestigator : String := "investigator"
def userInvestigator : String := "kubeast:investigator"
def groupInvestigator : String := "kubeast:investigator"

/-- One rune of `groupSlug`: lowercase letters, digits, dot, underscore and dash stay. -/
def slugRune (r : Char) : Char :=
  if ('a' ≤ r ∧ r ≤ 'z') ∨ ('0' ≤ r ∧ r ≤ '9') ∨ r = '.' ∨ r = '_' ∨ r = '-' then r else '-'

def groupSlug (tables : CharTables) (s : String) : String :=
  String.ofList ((toLower tables s).toList.map slugRune)

def roleGroupSlug (tables : CharTables) (name : String) : String :=
  groupSlug tables (trimSpace name)

/-- The group of a cluster role, for a grant limited to namespaces or not. -/
def clusterGroup (tables : CharTables) (role : String) (limited : Bool) : Option String :=
  let role := trimSpace role
  if role = "" then none
  else if limited then some (groupRolePrefix ++ groupSlug tables role)
  else if toLower tables role = "admin" then some groupAdmin
  else if toLower tables role = "write" then some groupOperator
  else if toLower tables role = "read" then some groupViewer
  else some (groupRolePrefix ++ groupSlug tables role)

/-- `Impersonation`: the user and the groups, each once and sorted. -/
def TokenPayload.impersonation (tables : CharTables) (p : TokenPayload) (clusterID : String) :
    String × List String :=
  let user := if trimSpace p.email = "" then p.userID else trimSpace p.email
  if p.system ≠ "" then
    if p.system = systemInvestigator then (userInvestigator, [groupInvestigator])
    else (user, [groupAuthenticated])
  else
    let set := [groupAuthenticated] ++ (if p.holdsEverything then [groupAdmin] else []) ++
      (clusterGroup tables (p.roles.index clusterID)
        !(p.namespaces.index clusterID).isEmpty).toList
    (user, sortStrings set.dedup)

theorem roleGroupSlug_toList (tables : CharTables) (name : String) :
    (roleGroupSlug tables name).toList =
      (trimSpace name).toList.map fun c => slugRune (tables.toLower c) := by
  simp [roleGroupSlug, groupSlug, toLower]

private theorem slugRune_eq {r c : Char} (hc : 'a' ≤ c ∧ c ≤ 'z') : slugRune r = c ↔ r = c := by
  rw [slugRune]
  split
  · rfl
  · next h =>
    constructor
    · rintro rfl
      exact absurd hc (by decide)
    · rintro rfl
      exact absurd (Or.inl hc) h

/-- A slug of lowercase letters is the name itself, in whatever capitals. -/
theorem toLower_eq_iff_slug (tables : CharTables) (s word : String)
    (hword : ∀ c ∈ word.toList, 'a' ≤ c ∧ c ≤ 'z') :
    toLower tables s = word ↔ groupSlug tables s = word := by
  have hmap : ∀ (l w : List Char), (∀ c ∈ w, 'a' ≤ c ∧ c ≤ 'z') →
      (l.map slugRune = w ↔ l = w) := by
    intro l
    induction l with
    | nil => intro w _; simp
    | cons r l ih =>
      intro w hw
      cases w with
      | nil => simp
      | cons c w =>
        rw [List.map_cons, List.cons.injEq, List.cons.injEq, slugRune_eq (hw c (by simp)),
          ih w fun x hx => hw x (by simp [hx])]
  rw [← String.toList_inj, ← String.toList_inj, groupSlug, String.toList_ofList,
    hmap _ _ hword]

/-- The group a role acts as comes from the slug of its name alone. -/
theorem clusterGroup_congr (tables : CharTables) {role role' : String} (limited : Bool)
    (h : roleGroupSlug tables role = roleGroupSlug tables role') :
    clusterGroup tables role limited = clusterGroup tables role' limited := by
  have hslug : groupSlug tables (trimSpace role) = groupSlug tables (trimSpace role') := h
  have hempty : trimSpace role = "" ↔ trimSpace role' = "" := by
    have hlen := congrArg (fun s => s.toList.length) h
    simp only [roleGroupSlug_toList, List.length_map] at hlen
    rw [← String.toList_inj, ← String.toList_inj, String.toList_empty]
    rw [← List.length_eq_zero_iff, ← List.length_eq_zero_iff, hlen]
  have hlower : ∀ word : String, (∀ c ∈ word.toList, 'a' ≤ c ∧ c ≤ 'z') →
      (toLower tables (trimSpace role) = word ↔ toLower tables (trimSpace role') = word) := by
    intro word hword
    rw [toLower_eq_iff_slug tables _ _ hword, toLower_eq_iff_slug tables _ _ hword, hslug]
  have hadmin := hlower "admin" (by simp)
  have hwrite := hlower "write" (by simp)
  have hread := hlower "read" (by simp)
  simp only [clusterGroup, hempty, hadmin, hwrite, hread, hslug]

end Kubeast.Permissions
