import Kubeast.Permissions.Token
import Kubeast.Foundation.Transition

/-! Nobody hands out more than they hold: the checks of
`auth-service-go/internal/handler/permission_ceiling.go`. -/
namespace Kubeast.Permissions
open Text Transition

/-- An error response: the status and its `detail`. -/
structure Refusal where
  status : ℕ
  detail : String
deriving DecidableEq

def internalError : Refusal := ⟨500, "internal server error"⟩

/-- `"*"` and `admin.*` live in the token's `"*"` entry alone. -/
def isGlobalPermission (p : String) : Bool := p == "*" || hasPrefix p "admin."

def globalPermissions (perms : List String) : List String := perms.filter isGlobalPermission

/-- Whether the actor holds one requested permission; the empty cluster id stands for
a global object. -/
def heldFor (actor : TokenPayload) (clusterID p : String) : Bool :=
  actor.hasPermission p ||
    (clusterID != "" && actor.hasPermissionForCluster p clusterID) ||
    (clusterID == "" && !isGlobalPermission p &&
      actor.perms.rows.any fun c => c.1 != "*" && actor.hasPermissionForCluster p c.1)

def missingPermissions (actor : TokenPayload) (perms : List String) (clusterID : String) :
    List String :=
  sortStrings (perms.filter fun p => !heldFor actor clusterID p)

/-- The namespaces a grant would reach beyond the actor's own grant; `"*"` stands for
the whole cluster. -/
def missingNamespaces (actor : TokenPayload) (clusterID : String) (namespaces : List String) :
    List String :=
  let own := actor.namespaces.index clusterID
  if own = [] ∨ actor.holdsEverything = true then []
  else if namespaces = [] then ["*"]
  else namespaces.filter fun n => !actor.allowedIn clusterID n

def missingOnCluster (actor : TokenPayload) (perms : List String) (clusterID : String)
    (namespaces : List String) : List String :=
  (missingPermissions actor perms clusterID).map (fun p => clusterID ++ ": " ++ p) ++
    (missingNamespaces actor clusterID namespaces).map fun n =>
      if n = "*" then clusterID ++ ": the whole cluster" else clusterID ++ ": namespace " ++ n

def ceilingError (missing : List String) : String :=
  "permission ceiling: cannot grant permissions you do not hold: " ++
    String.intercalate ", " missing

def ceilingNamespacesError (missing : List String) : String :=
  if missing = ["*"] then
    "permission ceiling: your grant on this cluster is limited to namespaces; " ++
      "you cannot grant the whole cluster"
  else "permission ceiling: cannot grant namespaces you do not hold: " ++
    String.intercalate ", " missing

def maxGrantNamespaces : ℕ := 50

/-- A lowercase DNS label; a dash stands neither first nor last. -/
def validNamespaceName (n : String) : Bool :=
  let inner : Char → Bool := fun c => ('a' ≤ c && c ≤ 'z') || ('0' ≤ c && c ≤ '9')
  n != "" && n.toList.length ≤ 63 && n.toList.all (fun c => inner c || c == '-') &&
    n.toList.head?.all inner && n.toList.getLast?.all inner

/-- Trims and checks a grant's namespaces: no blanks, no duplicates, sorted. -/
def normalizeNamespaces (tables : CharTables) (namespaces : List String) :
    Except String (List String) := do
  let out ← namespaces.foldlM (fun out raw => do
    let n := trimSpace raw
    if n = "" then return out
    failIf (¬ validNamespaceName n) ("invalid namespace " ++ quote tables n ++
      ": lowercase letters, digits and '-' only, 1-63 characters")
    return if n ∈ out then out else out ++ [n]) []
  failIf (out.length > maxGrantNamespaces) ("at most " ++ toString maxGrantNamespaces ++
    " namespaces per grant (grant the whole cluster instead)")
  return sortStrings out

section Held
variable {actor : TokenPayload} {perms namespaces : List String} {clusterID p q n : String}

theorem missingPermissions_eq_nil :
    missingPermissions actor perms clusterID = [] ↔
      ∀ p ∈ perms, heldFor actor clusterID p = true := by
  simp [missingPermissions, List.filter_eq_nil_iff]

theorem heldFor_cluster (h : clusterID ≠ "") :
    heldFor actor clusterID p = true ↔ actor.hasPermissionForCluster p clusterID = true := by
  have hglobal : actor.hasPermission p = true →
      actor.hasPermissionForCluster p clusterID = true :=
    TokenPayload.hasPermissionForCluster_of_hasPermission clusterID
  simp only [heldFor, Bool.or_eq_true, Bool.and_eq_true, bne_iff_ne, beq_iff_eq]
  constructor
  · rintro ((hg | ⟨-, hc⟩) | ⟨⟨he, -⟩, -⟩)
    · exact hglobal hg
    · exact hc
    · exact absurd he h
  · intro hc
    exact Or.inl (Or.inr ⟨h, hc⟩)

/-- No missing namespace: the actor is a global admin, or reaches what the grant reaches. -/
theorem allowedIn_of_missingNamespaces (h : missingNamespaces actor clusterID namespaces = [])
    (hn : namespaces = [] ∨ n ∈ namespaces) :
    actor.holdsEverything = true ∨ actor.allowedIn clusterID n = true := by
  rw [missingNamespaces] at h
  split_ifs at h with hown hns
  · rcases hown with hown | hall
    · exact Or.inr (TokenPayload.allowedIn_iff.mpr (Or.inl hown))
    · exact Or.inl hall
  · rcases hn with hn | hn
    · exact absurd hn hns
    · rw [List.filter_eq_nil_iff] at h
      exact Or.inr (by simpa using h n hn)

theorem missingOnCluster_eq_nil :
    missingOnCluster actor perms clusterID namespaces = [] ↔
      missingPermissions actor perms clusterID = [] ∧
        missingNamespaces actor clusterID namespaces = [] := by
  simp [missingOnCluster]

/-- Holding a pattern on a cluster is holding all the pattern grants there. -/
theorem hasPermissionForCluster_of_covered (hc : clusterID ≠ "")
    (h : missingPermissions actor perms clusterID = []) (hp : p ∈ perms)
    (hq : permMatches p q = true) : actor.hasPermissionForCluster q clusterID = true := by
  have hheld := missingPermissions_eq_nil.mp h p hp
  exact PermissionMatrix.hasForCluster_trans ((heldFor_cluster hc).mp hheld) hq

end Held

/-- The ceiling is sound: a grant with nothing missing gives no concrete permission in
no namespace that the grantor lacks, unless the grantor holds everything. -/
theorem missingOnCluster_sound (actor : TokenPayload) (perms : List String) (clusterID : String)
    (namespaces : List String) (hempty : clusterID ≠ "")
    (h : missingOnCluster actor perms clusterID namespaces = []) (q n : String)
    (hq : ∃ p ∈ perms, permMatches p q = true) (hn : namespaces = [] ∨ n ∈ namespaces) :
    actor.hasPermissionIn q clusterID n = true ∨ actor.holdsEverything = true := by
  obtain ⟨hperms, hns⟩ := missingOnCluster_eq_nil.mp h
  obtain ⟨p, hp, hpq⟩ := hq
  have hheld := hasPermissionForCluster_of_covered hempty hperms hp hpq
  rcases allowedIn_of_missingNamespaces hns hn with hall | hallowed
  · exact Or.inr hall
  · exact Or.inl (by simp [TokenPayload.hasPermissionIn, hheld, hallowed])

/-- An operator limited to the namespace `web` of one cluster. -/
def webOperator : TokenPayload where
  userID := "u1"
  email := "op@example.com"
  perms := Table.empty.upsert ("prod", ["menu.*", "resource.*.read"]) id fun _ => rfl
  roles := Table.empty
  namespaces := Table.empty.upsert ("prod", ["web"]) id fun _ => rfl
  tokenVersion := 0
  system := ""

/-- The operator passes on a wildcard of their own to the namespace they have. -/
theorem missingOnCluster_sound_webOperator :
    webOperator.hasPermissionIn "resource.pod.read" "prod" "web" = true ∨
      webOperator.holdsEverything = true :=
  missingOnCluster_sound webOperator ["resource.*.read", "menu.gpu"] "prod" ["web"]
    (by decide) (by decide) "resource.pod.read" "web"
    ⟨"resource.*.read", by decide, by decide⟩ (Or.inr (by decide))

end Kubeast.Permissions
