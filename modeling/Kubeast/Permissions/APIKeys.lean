import Kubeast.Permissions.Token

/-! The scope of an API key, applied when it is exchanged for a token
(`auth-service-go/internal/handler/api_keys_scope.go`). -/
namespace Kubeast.Permissions
open Text

/-- The built-in cluster roles in order; a custom role has no rank. -/
def roleRank (role : String) : Option ℕ :=
  if role = "read" then some 1
  else if role = "write" then some 2
  else if role = "admin" then some 3
  else none

/-- The rank of a role as the map is read for a ceiling: zero where there is none. -/
def ceilingRank (tables : CharTables) (ceiling : String) : ℕ :=
  (roleRank (toLower tables ceiling)).getD 0

/-- Lowers a built-in role that ranks above the ceiling to the ceiling. -/
def roleAtMost (tables : CharTables) (role ceiling : String) : String :=
  match roleRank (toLower tables (trimSpace role)) with
  | some r => if r > ceilingRank tables ceiling then ceiling else role
  | none => role

/-- `add`: appends what has not been seen. -/
def addUnseen (out : List String) (p : String) : List String :=
  if p ∈ out then out else out ++ [p]

/-- What both lists grant, wildcards on either side honoured. -/
def intersectPerms (a b : List String) : List String :=
  sortStrings ((b.filter (matchAny a)).foldl addUnseen ((a.filter (matchAny b)).foldl addUnseen []))

/-- What the owner holds on a cluster; a global admin holds all of it. -/
def heldOn (matrix : PermissionMatrix) (c : String) : List String :=
  if matchAny (matrix.index "*") "*" = true then "*" :: matrix.index c else matrix.index c

/-- The loop's body: the entry and the role of one listed cluster. -/
def narrowCluster (tables : CharTables) (matrix : PermissionMatrix) (roles : Dict String String)
    (ceiling : String) (ceilingPerms : List String)
    (out : PermissionMatrix × Dict String String) (c : String) :
    PermissionMatrix × Dict String String :=
  let c := trimSpace c
  if c = "" ∨ c = "*" then out
  else
    let perms := intersectPerms (heldOn matrix c) ceilingPerms
    if perms = [] then out
    else
      let role := trimSpace (roles.index c)
      (out.1.set c perms,
        if matchAny (matrix.index "*") "*" = true then out.2.set c ceiling
        else if role ≠ "" then out.2.set c (roleAtMost tables role ceiling)
        else out.2)

/-- The matrix and the cluster roles of an exchanged token. -/
def narrowForAPIKey (tables : CharTables) (matrix : PermissionMatrix) (roles : Dict String String)
    (clusterIDs : List String) (ceiling : String) (ceilingPerms : List String) :
    PermissionMatrix × Dict String String :=
  clusterIDs.foldl (narrowCluster tables matrix roles ceiling ceilingPerms)
    (Table.empty, Table.empty)

section Intersect
variable {a b : List String} {p q : String}

theorem mem_addUnseen {out : List String} : q ∈ addUnseen out p ↔ q ∈ out ∨ q = p := by
  unfold addUnseen
  split
  · next hp =>
    constructor
    · exact Or.inl
    · rintro (hq | rfl)
      · exact hq
      · exact hp
  · simp

theorem mem_foldl_addUnseen {l out : List String} :
    q ∈ l.foldl addUnseen out ↔ q ∈ out ∨ q ∈ l := by
  induction l generalizing out with
  | nil => simp
  | cons p l ih => rw [List.foldl_cons, ih, mem_addUnseen, List.mem_cons, or_assoc]

theorem mem_intersectPerms : p ∈ intersectPerms a b ↔
    (p ∈ a ∧ matchAny b p = true) ∨ (p ∈ b ∧ matchAny a p = true) := by
  simp [intersectPerms, mem_foldl_addUnseen]

theorem matchAny_of_mem (h : p ∈ a) : matchAny a p = true :=
  matchAny_eq_true.mpr ⟨p, h, permMatches_refl p⟩

/-- What is kept is granted by either list. -/
theorem matchAny_intersectPerms (h : matchAny (intersectPerms a b) q = true) :
    matchAny a q = true ∧ matchAny b q = true := by
  constructor
  · apply matchAny_of_covered _ h
    intro p hp
    rcases mem_intersectPerms.mp hp with ⟨ha, -⟩ | ⟨-, ha⟩
    · exact matchAny_of_mem ha
    · exact ha
  · apply matchAny_of_covered _ h
    intro p hp
    rcases mem_intersectPerms.mp hp with ⟨-, hb⟩ | ⟨hb, -⟩
    · exact hb
    · exact matchAny_of_mem hb

theorem matchAny_heldOn {matrix : PermissionMatrix} {c : String} (hc : c ≠ "")
    (h : matchAny (heldOn matrix c) q = true) :
    matrix.hasForCluster q c = true ∨ matchAny (matrix.index "*") "*" = true := by
  unfold heldOn at h
  split at h
  · next hglobal => exact Or.inr hglobal
  · exact Or.inl ((PermissionMatrix.hasForCluster_iff hc).mpr (Or.inr h))

end Intersect

/-- A role a key may act as: the owner's own, or a built-in one that ranks no higher than the
ceiling and than the owner's. -/
def KeyRole (tables : CharTables) (globalAdmin : Bool) (owner ceiling role : String) : Prop :=
  role = trimSpace owner ∨
    (role ∈ ["Read", "Write", "Admin"] ∧ ceilingRank tables role ≤ ceilingRank tables ceiling ∧
      (globalAdmin = false → ∃ r, roleRank (toLower tables (trimSpace owner)) = some r ∧
        ceilingRank tables role ≤ r))

section Narrow
variable {tables : CharTables} {matrix : PermissionMatrix} {roles : Dict String String}
  {ceiling : String} {ceilingPerms : List String} {out : PermissionMatrix × Dict String String}

theorem keyRole_roleAtMost {owner : String} (hceiling : ceiling ∈ ["Read", "Write", "Admin"]) :
    KeyRole tables false owner ceiling (roleAtMost tables (trimSpace owner) ceiling) := by
  unfold roleAtMost
  rw [trimSpace_trimSpace]
  cases hrank : roleRank (toLower tables (trimSpace owner)) with
  | none => exact Or.inl rfl
  | some r =>
    dsimp only
    split
    · next habove => exact Or.inr ⟨hceiling, le_rfl, fun _ => ⟨r, hrank, by omega⟩⟩
    · exact Or.inl rfl

/-- Every entry is that of a listed cluster, cut down to the ceiling. -/
def EntriesNarrowed (matrix : PermissionMatrix) (ceilingPerms listed : List String)
    (out : PermissionMatrix) : Prop :=
  ∀ c, (out.get c).isSome = true → (c ∈ listed.map trimSpace ∧ c ≠ "" ∧ c ≠ "*") ∧
    out.index c = intersectPerms (heldOn matrix c) ceilingPerms

def RolesNarrowed (tables : CharTables) (matrix : PermissionMatrix) (roles : Dict String String)
    (ceiling : String) (out : Dict String String) : Prop :=
  ∀ c, (out.get c).isSome = true →
    KeyRole tables (matchAny (matrix.index "*") "*") (roles.index c) ceiling (out.index c)

theorem entries_narrowCluster {listed : List String} (c : String)
    (h : EntriesNarrowed matrix ceilingPerms listed out.1) :
    EntriesNarrowed matrix ceilingPerms (listed ++ [c])
      (narrowCluster tables matrix roles ceiling ceilingPerms out c).1 := by
  have hkept : EntriesNarrowed matrix ceilingPerms (listed ++ [c]) out.1 := by
    intro d hd
    obtain ⟨⟨hmem, hne⟩, hperms⟩ := h d hd
    rw [List.map_append]
    exact ⟨⟨List.mem_append_left _ hmem, hne⟩, hperms⟩
  unfold narrowCluster
  dsimp only
  split
  · exact hkept
  · next hskip =>
    split
    · exact hkept
    · have hlisted : trimSpace c ∈ (listed ++ [c]).map trimSpace := by simp
      intro d hd
      exact Dict.forall_set (P := fun d perms => (d ∈ (listed ++ [c]).map trimSpace ∧ d ≠ "" ∧
        d ≠ "*") ∧ perms = intersectPerms (heldOn matrix d) ceilingPerms) hkept
        ⟨⟨hlisted, not_or.mp hskip⟩, rfl⟩ hd

theorem roles_narrowCluster (hceiling : ceiling ∈ ["Read", "Write", "Admin"]) (c : String)
    (h : RolesNarrowed tables matrix roles ceiling out.2) :
    RolesNarrowed tables matrix roles ceiling
      (narrowCluster tables matrix roles ceiling ceilingPerms out c).2 := by
  have hset {role : String} (hrole : KeyRole tables (matchAny (matrix.index "*") "*")
      (roles.index (trimSpace c)) ceiling role) :
      RolesNarrowed tables matrix roles ceiling (out.2.set (trimSpace c) role) := by
    intro d hd
    exact Dict.forall_set (P := fun d role => KeyRole tables (matchAny (matrix.index "*") "*")
      (roles.index d) ceiling role) h hrole hd
  unfold narrowCluster
  dsimp only
  split_ifs with hskip hnone hglobal hrole
  · exact h
  · exact h
  · apply hset
    rw [hglobal]
    exact Or.inr ⟨hceiling, le_rfl, by simp⟩
  · apply hset
    rw [Bool.not_eq_true] at hglobal
    rw [hglobal]
    exact keyRole_roleAtMost hceiling
  · exact h

theorem entries_narrowForAPIKey (clusterIDs : List String) :
    EntriesNarrowed matrix ceilingPerms clusterIDs
      (narrowForAPIKey tables matrix roles clusterIDs ceiling ceilingPerms).1 := by
  unfold narrowForAPIKey
  induction clusterIDs using List.reverseRecOn with
  | nil => exact fun c hc => by cases hc
  | append_singleton listed c ih =>
    rw [List.foldl_append, List.foldl_cons, List.foldl_nil]
    exact entries_narrowCluster c ih

theorem roles_narrowForAPIKey (hceiling : ceiling ∈ ["Read", "Write", "Admin"])
    (clusterIDs : List String) : RolesNarrowed tables matrix roles ceiling
      (narrowForAPIKey tables matrix roles clusterIDs ceiling ceilingPerms).2 := by
  unfold narrowForAPIKey
  induction clusterIDs using List.reverseRecOn with
  | nil => exact fun c hc => by cases hc
  | append_singleton listed c ih =>
    rw [List.foldl_append, List.foldl_cons, List.foldl_nil]
    exact roles_narrowCluster hceiling c ih

end Narrow

/-- A key's token exceeds neither its owner nor its ceiling. -/
theorem narrowForAPIKey_within (tables : CharTables) (matrix : PermissionMatrix)
    (roles : Dict String String) (clusterIDs : List String) (ceiling : String)
    (hceiling : ceiling ∈ ["Read", "Write", "Admin"]) (ceilingPerms : List String) :
    (∀ c q, (narrowForAPIKey tables matrix roles clusterIDs ceiling ceilingPerms).1.hasForCluster
        q c = true →
      c ∈ clusterIDs.map trimSpace ∧
        (matrix.hasForCluster q c = true ∨ matchAny (matrix.index "*") "*" = true) ∧
        matchAny ceilingPerms q = true) ∧
    (narrowForAPIKey tables matrix roles clusterIDs ceiling ceilingPerms).1.get "*" = none ∧
    ∀ c role, (narrowForAPIKey tables matrix roles clusterIDs ceiling ceilingPerms).2.get c =
        some (c, role) →
      KeyRole tables (matchAny (matrix.index "*") "*") (roles.index c) ceiling role := by
  have hentries : EntriesNarrowed matrix ceilingPerms clusterIDs
      (narrowForAPIKey tables matrix roles clusterIDs ceiling ceilingPerms).1 :=
    entries_narrowForAPIKey clusterIDs
  have hroles : RolesNarrowed tables matrix roles ceiling
      (narrowForAPIKey tables matrix roles clusterIDs ceiling ceilingPerms).2 :=
    roles_narrowForAPIKey hceiling clusterIDs
  generalize narrowForAPIKey tables matrix roles clusterIDs ceiling ceilingPerms = out at *
  have hstar : out.1.get "*" = none := by
    rw [← Option.not_isSome_iff_eq_none]
    intro hsome
    exact (hentries "*" hsome).1.2.2 rfl
  have hempty : ∀ {c}, out.1.get c = none → ∀ q, matchAny (out.1.index c) q = false := by
    intro c hc q
    rw [Dict.index_of_get_none hc]
    rfl
  refine ⟨fun c q hgrants => ?_, hstar, fun c role hrole => ?_⟩
  · rw [PermissionMatrix.hasForCluster, hempty hstar, Bool.false_or, Bool.and_eq_true] at hgrants
    have hsome : (out.1.get c).isSome = true := by
      by_contra hnone
      rw [hempty (Option.not_isSome_iff_eq_none.mp hnone)] at hgrants
      exact absurd hgrants.2 (by simp)
    obtain ⟨⟨hlisted, hne, -⟩, hperms⟩ := hentries c hsome
    rw [hperms] at hgrants
    obtain ⟨hheld, hceil⟩ := matchAny_intersectPerms hgrants.2
    exact ⟨hlisted, matchAny_heldOn hne hheld, hceil⟩
  · have hkey := hroles c (by rw [hrole]; rfl)
    rwa [Dict.index_of_get hrole] at hkey

/-- A global admin's key for `staging`, with the id listed between spaces. -/
def stagingKey : PermissionMatrix × Dict String String :=
  narrowForAPIKey .ascii (Dict.set Table.empty "*" ["*"]) Table.empty [" staging "] "Write"
    ["resource.*.read", "resource.*.update"]

/-- A key of an owner whose role on the cluster has a name with a space behind it. -/
def opsKey : PermissionMatrix × Dict String String :=
  narrowForAPIKey .ascii (Dict.set Table.empty "staging" ["resource.*.read"]) (Dict.set Table.empty "staging" "Ops ")
    ["staging"] "Read" ["resource.*.read"]

/-- Role names and listed ids are trimmed: the key's role is then neither the owner's letter by letter nor a
built-in one, and an id is reached that is not listed. -/
theorem narrowForAPIKey_trims :
    (opsKey.2.get "staging" = some ("staging", "Ops") ∧ "Ops" ≠ "Ops " ∧ "Ops" ∉ ["Read", "Write", "Admin"]) ∧
      stagingKey.1.hasForCluster "resource.pod.read" "staging" = true ∧ "staging" ∉ [" staging "] := by
  decide

theorem narrowForAPIKey_within_stagingKey : "staging" ∈ [" staging "].map trimSpace ∧
    KeyRole .ascii true "" "Write" "Write" :=
  have hwithin := narrowForAPIKey_within .ascii (Dict.set Table.empty "*" ["*"]) Table.empty
    [" staging "] "Write" (by decide) ["resource.*.read", "resource.*.update"]
  ⟨(hwithin.1 "staging" "resource.pod.read" (by decide)).1,
    hwithin.2.2 "staging" "Write" (by decide)⟩

end Kubeast.Permissions
