import Kubeast.Foundation.Sorted
import Kubeast.Foundation.Table
import Kubeast.Foundation.Text
import Mathlib.Data.Prod.Lex
import Mathlib.Data.String.Basic

/-! The roles that a provider's groups give (`auth-service-go/internal/handler/oidc.go`,
`oidc_google_groups.go`). -/
namespace Kubeast.SignIn
open Sorted Text

structure GroupConfig where
  roleMapping : Dict String String
  defaultRole : String
  clusterGroupPrefix : String
  clusterGroupMapping : Dict String String

/-- Admin before a custom role before Member before Pending; on a cluster Admin, Write, Read. -/
def rolePrecedence (name : String) : ℕ :=
  match name with
  | "Admin" => 0
  | "Write" => 1
  | "Read" => 2
  | "Member" => 4
  | "Pending" => 5
  | _ => 3

/-- By precedence, ties by name. -/
def roleOrder (name : String) : ℕ ×ₗ String := toLex (rolePrecedence name, name)

def mappedRoles (groups : List String) (mapping : Dict String String) : List String :=
  groups.filterMap fun g => (mapping.get g).map Prod.snd

/-- The empty text when no group maps. -/
def mapRole (groups : List String) (mapping : Dict String String) : String :=
  (sortBy roleOrder (mappedRoles groups mapping)).head?.getD ""

/-- `strings.Cut` at the first colon. -/
def cutColon (s : List Char) : List Char × List Char × Bool :=
  (s.takeWhile (· ≠ ':'), (s.dropWhile (· ≠ ':')).drop 1, s.contains ':')

/-- The cluster and the role of a group `<prefix><cluster-id>:<Role>`. -/
def prefixGrant (pre g : String) : Option (String × String) :=
  if hasPrefix g pre then
    let (id, role, ok) := cutColon (g.toList.drop pre.toList.length)
    if !ok || id = [] || role = [] then none else some (String.ofList id, String.ofList role)
  else none

/-- The step of both loops: a role of higher precedence takes the place of the one there is. -/
def widen (out : Dict String String) (x : String × String) : Dict String String :=
  match out.get x.1 with
  | some cur => if rolePrecedence x.2 < rolePrecedence cur.2 then out.set x.1 x.2 else out
  | none => out.set x.1 x.2

def clusterGrants (groups : List String) (pre : String) : Dict String String :=
  if pre = "" then Table.empty
  else groups.foldl (fun out g => match prefixGrant pre g with
    | none => out
    | some x => widen out x) Table.empty

def mappingGrant (grant : String) : String × String :=
  let (id, role, _) := cutColon grant.toList
  (String.ofList id, String.ofList role)

def clusterGrantsOf (cfg : GroupConfig) (groups : List String) : Dict String String :=
  groups.foldl (fun out g => match cfg.clusterGroupMapping.get g with
    | none => out
    | some grant => widen out (mappingGrant grant.2)) (clusterGrants groups cfg.clusterGroupPrefix)

/-- What the groups name: by their prefix first, then by the mapping. -/
def prefixed (cfg : GroupConfig) (groups : List String) : List (String × String) :=
  if cfg.clusterGroupPrefix = "" then []
  else groups.filterMap (prefixGrant cfg.clusterGroupPrefix)

def remapped (cfg : GroupConfig) (groups : List String) : List (String × String) :=
  groups.filterMap fun g => (cfg.clusterGroupMapping.get g).map fun grant => mappingGrant grant.2

/-- The roles named for a cluster. -/
def rolesOn (c : String) (named : List (String × String)) : List String :=
  (named.filter fun x => x.1 = c).map Prod.snd

def named (cfg : GroupConfig) (groups : List String) (c : String) : List String :=
  rolesOn c (prefixed cfg groups) ++ rolesOn c (remapped cfg groups)

/-- The role of highest precedence, the first by name of several. -/
def highest (roles : List String) : Option String := roles.argmin roleOrder

section Loops
variable {cfg : GroupConfig} {groups groups' : List String} {c r : String}

theorem roleOrder_injective : Function.Injective roleOrder := fun _ _ h =>
  (Prod.mk.inj (toLex.injective h)).2

theorem roleOrder_le {s : String} : roleOrder r ≤ roleOrder s ↔
    rolePrecedence r < rolePrecedence s ∨ rolePrecedence r = rolePrecedence s ∧ r ≤ s :=
  Prod.Lex.toLex_le_toLex

theorem mapRole_eq (groups : List String) (mapping : Dict String String) :
    mapRole groups mapping = (highest (mappedRoles groups mapping)).getD "" := by
  rw [mapRole, head?_sortBy roleOrder_injective]
  rfl

theorem clusterGrantsOf_eq (cfg : GroupConfig) (groups : List String) :
    clusterGrantsOf cfg groups = (prefixed cfg groups ++ remapped cfg groups).foldl widen Table.empty := by
  have hprefixed : clusterGrants groups cfg.clusterGroupPrefix = (prefixed cfg groups).foldl widen Table.empty := by
    rw [clusterGrants, prefixed]
    split
    · rfl
    · rw [List.foldl_filterMap]
      congr 1
      funext out g
      cases prefixGrant cfg.clusterGroupPrefix g <;> rfl
  rw [clusterGrantsOf, hprefixed, List.foldl_append, remapped, List.foldl_filterMap]
  congr 1
  funext out g
  cases cfg.clusterGroupMapping.get g <;> rfl

theorem rolesOn_cons_of_eq {x : String × String} (hx : x.1 = c) (l : List (String × String)) :
    rolesOn c (x :: l) = x.2 :: rolesOn c l := by simp [rolesOn, hx]

theorem rolesOn_cons_of_ne {x : String × String} (hx : x.1 ≠ c) (l : List (String × String)) :
    rolesOn c (x :: l) = rolesOn c l := by simp [rolesOn, hx]

/-- On a cluster the loops keep the first role of the highest precedence. -/
theorem get_foldl_widen (named : List (String × String)) (out : Dict String String) (c : String) :
    ((named.foldl widen out).get c).map Prod.snd = (rolesOn c named).foldl
      (List.argAux fun r cur => rolePrecedence r < rolePrecedence cur) ((out.get c).map Prod.snd) := by
  induction named generalizing out with
  | nil => rfl
  | cons x named ih =>
    rw [List.foldl_cons, ih]
    by_cases hx : x.1 = c
    · rw [rolesOn_cons_of_eq hx, List.foldl_cons, widen, hx]
      congr 1
      cases hcur : out.get c with
      | none =>
        rw [Dict.get_set_self]
        rfl
      | some cur =>
        dsimp only [Option.map_some, List.argAux]
        split
        · rw [Dict.get_set_self]
          rfl
        · rw [hcur]
          rfl
    · have hget : (widen out x).get c = out.get c := by
        rw [widen]
        split
        · split
          · exact Dict.get_set_ne hx
          · rfl
        · exact Dict.get_set_ne hx
      rw [rolesOn_cons_of_ne hx, hget]

theorem get_clusterGrantsOf (cfg : GroupConfig) (groups : List String) (c : String) :
    ((clusterGrantsOf cfg groups).get c).map Prod.snd = (named cfg groups c).argmin rolePrecedence := by
  rw [clusterGrantsOf_eq, get_foldl_widen, rolesOn, List.filter_append, List.map_append]
  rfl

section Order
variable (h : groups.Perm groups')
include h

theorem mapRole_perm (mapping : Dict String String) : mapRole groups mapping = mapRole groups' mapping := by
  have hroles : (mappedRoles groups mapping).Perm (mappedRoles groups' mapping) := h.filterMap _
  rw [mapRole_eq, mapRole_eq, highest, highest, argmin_perm roleOrder_injective hroles]

theorem mem_prefixed_perm : r ∈ rolesOn c (prefixed cfg groups) ↔ r ∈ rolesOn c (prefixed cfg groups') := by
  rw [prefixed, prefixed]
  split
  · rfl
  · exact (((h.filterMap _).filter _).map _).mem_iff

theorem mem_remapped_perm : r ∈ rolesOn c (remapped cfg groups) ↔ r ∈ rolesOn c (remapped cfg groups') :=
  (((h.filterMap _).filter _).map _).mem_iff

theorem mem_named_perm : r ∈ named cfg groups c ↔ r ∈ named cfg groups' c := by
  rw [named, named, List.mem_append, List.mem_append, mem_prefixed_perm h, mem_remapped_perm h]

end Order

end Loops

section Contenders

/-- The roles of the highest precedence. -/
def top (roles l : List String) : List String :=
  l.filter fun r => ∀ r' ∈ roles, rolePrecedence r ≤ rolePrecedence r'

/-- The roles that the loops may end with on a cluster, whatever the order of the groups: those of
the highest precedence that the prefix names, where there are any, else those of the mapping. -/
def contenders (cfg : GroupConfig) (groups : List String) (c : String) : List String :=
  let first := top (named cfg groups c) (rolesOn c (prefixed cfg groups))
  if first = [] then top (named cfg groups c) (rolesOn c (remapped cfg groups)) else first

/-- On each cluster every contender is the first by name of the roles as high as it. -/
def Decided (cfg : GroupConfig) (groups : List String) : Prop :=
  ∀ c, ∀ r ∈ contenders cfg groups c, ∀ r' ∈ named cfg groups c,
    rolePrecedence r' = rolePrecedence r → r ≤ r'

variable {cfg : GroupConfig} {groups groups' : List String} {c r : String} {l roles : List String}

theorem mem_top : r ∈ top roles l ↔ r ∈ l ∧ ∀ r' ∈ roles, rolePrecedence r ≤ rolePrecedence r' := by
  rw [top, List.mem_filter, decide_eq_true_eq]

theorem false_of_top_nil (h : top roles l = []) (hr : r ∈ l)
    (htop : ∀ r' ∈ roles, rolePrecedence r ≤ rolePrecedence r') : False := by
  have hmem := mem_top.mpr ⟨hr, htop⟩
  rw [h] at hmem
  cases hmem

theorem mem_contenders : r ∈ contenders cfg groups c ↔
    (r ∈ rolesOn c (prefixed cfg groups) ∨ r ∈ rolesOn c (remapped cfg groups) ∧
      top (named cfg groups c) (rolesOn c (prefixed cfg groups)) = []) ∧
      ∀ r' ∈ named cfg groups c, rolePrecedence r ≤ rolePrecedence r' := by
  rw [contenders]
  split
  · next hnil =>
    rw [mem_top]
    constructor
    · exact fun h => ⟨Or.inr ⟨h.1, hnil⟩, h.2⟩
    · rintro ⟨hr | hr, htop⟩
      · exact (false_of_top_nil hnil hr htop).elim
      · exact ⟨hr.1, htop⟩
  · next hne =>
    rw [mem_top]
    constructor
    · exact fun h => ⟨Or.inl h.1, h.2⟩
    · rintro ⟨hr | hr, htop⟩
      · exact ⟨hr, htop⟩
      · exact absurd hr.2 hne

theorem mem_top_perm (h : groups.Perm groups') :
    r ∈ top (named cfg groups c) (rolesOn c (prefixed cfg groups)) ↔
      r ∈ top (named cfg groups' c) (rolesOn c (prefixed cfg groups')) := by
  rw [mem_top, mem_top, mem_prefixed_perm h]
  simp only [mem_named_perm h]

theorem mem_contenders_perm (h : groups.Perm groups') :
    r ∈ contenders cfg groups c ↔ r ∈ contenders cfg groups' c := by
  rw [mem_contenders, mem_contenders, mem_prefixed_perm h, mem_remapped_perm h, List.eq_nil_iff_forall_not_mem,
    List.eq_nil_iff_forall_not_mem]
  simp only [mem_named_perm h, mem_top_perm h]

/-- The loops end with a contender. -/
theorem mem_contenders_of_argmin (h : (named cfg groups c).argmin rolePrecedence = some r) :
    r ∈ contenders cfg groups c := by
  obtain ⟨hr, htop, hfirst⟩ := List.argmin_eq_some_iff.mp h
  refine mem_contenders.mpr ⟨?_, htop⟩
  by_cases hpre : r ∈ rolesOn c (prefixed cfg groups)
  · exact Or.inl hpre
  · refine Or.inr ⟨(List.mem_append.mp hr).resolve_left hpre, ?_⟩
    rw [List.eq_nil_iff_forall_not_mem]
    intro a ha
    obtain ⟨ha, hatop⟩ := mem_top.mp ha
    have hle := hfirst a (List.mem_append_left _ ha) (hatop r hr)
    rw [named, List.idxOf_append_of_notMem hpre, List.idxOf_append_of_mem ha] at hle
    have hlt := List.idxOf_lt_length_iff.mpr ha
    omega

/-- A contender whose group comes first is what the loops end with. -/
theorem exists_perm_of_contender (h : r ∈ contenders cfg groups c) : ∃ groups', groups.Perm groups' ∧
    (named cfg groups' c).argmin rolePrecedence = some r := by
  obtain ⟨hnamed, htop⟩ := mem_contenders.mp h
  -- the group that names the role, moved to the front
  have hmove : ∀ g ∈ groups, groups.Perm (g :: groups.erase g) := fun g hg => List.perm_cons_erase hg
  rcases hnamed with hr | ⟨hr, hnil⟩
  · obtain ⟨x, hx, rfl⟩ := List.mem_map.mp hr
    obtain ⟨hx, hc⟩ := List.mem_filter.mp hx
    rw [prefixed] at hx
    split at hx
    · cases hx
    · next hpre =>
      obtain ⟨g, hg, hgrant⟩ := List.mem_filterMap.mp hx
      have hfront : rolesOn c (prefixed cfg (g :: groups.erase g)) =
          x.2 :: rolesOn c (prefixed cfg (groups.erase g)) := by
        rw [prefixed, if_neg hpre, List.filterMap_cons_some hgrant, rolesOn_cons_of_eq (of_decide_eq_true hc),
          prefixed, if_neg hpre]
      refine ⟨_, hmove g hg, List.argmin_eq_some_iff.mpr ⟨?_, ?_, ?_⟩⟩
      · rw [← mem_named_perm (hmove g hg)]
        exact List.mem_append_left _ hr
      · intro a ha
        exact htop a ((mem_named_perm (hmove g hg)).mpr ha)
      · intro a _ _
        rw [named, hfront, List.cons_append, List.idxOf_cons_self]
        exact Nat.zero_le _
  · obtain ⟨x, hx, rfl⟩ := List.mem_map.mp hr
    obtain ⟨hx, hc⟩ := List.mem_filter.mp hx
    obtain ⟨g, hg, hgrant⟩ := List.mem_filterMap.mp hx
    have hfront : rolesOn c (remapped cfg (g :: groups.erase g)) =
        x.2 :: rolesOn c (remapped cfg (groups.erase g)) := by
      rw [remapped, List.filterMap_cons, hgrant]
      exact rolesOn_cons_of_eq (of_decide_eq_true hc) _
    refine ⟨_, hmove g hg, List.argmin_eq_some_iff.mpr ⟨?_, ?_, ?_⟩⟩
    · rw [← mem_named_perm (hmove g hg)]
      exact List.mem_append_right _ hr
    · intro a ha
      exact htop a ((mem_named_perm (hmove g hg)).mpr ha)
    · intro a ha hle
      have hnot : ∀ b, rolePrecedence b ≤ rolePrecedence x.2 →
          b ∉ rolesOn c (prefixed cfg (g :: groups.erase g)) := by
        intro b hb hmem
        refine false_of_top_nil hnil ((mem_prefixed_perm (hmove g hg)).mpr hmem) ?_
        exact fun r' hr' => hb.trans (htop r' hr')
      rw [named, List.idxOf_append_of_notMem (hnot _ le_rfl), List.idxOf_append_of_notMem (hnot a hle), hfront,
        List.idxOf_cons_self]
      exact Nat.add_le_add_left (Nat.zero_le _) _

/-- What the groups grant is the same in every order, the highest role on each cluster, exactly
when every contender is. -/
theorem grants_perm_iff (cfg : GroupConfig) (groups : List String) :
    (∀ groups', groups.Perm groups' → ∀ c,
      ((clusterGrantsOf cfg groups').get c).map Prod.snd = highest (named cfg groups c)) ↔
      Decided cfg groups := by
  constructor
  · intro hgrants c r hr r' hr' heq
    obtain ⟨groups', hperm, hargmin⟩ := exists_perm_of_contender hr
    have hhighest := hgrants groups' hperm c
    rw [get_clusterGrantsOf, hargmin] at hhighest
    have hle := ((argmin_eq_some roleOrder_injective).mp hhighest.symm).2 r' hr'
    rcases roleOrder_le.mp hle with hlt | ⟨-, hle⟩
    · omega
    · exact hle
  · intro hdecided groups' hperm c
    rw [get_clusterGrantsOf]
    cases hargmin : (named cfg groups' c).argmin rolePrecedence with
    | none =>
      have hnil : named cfg groups c = [] := by
        rw [List.eq_nil_iff_forall_not_mem]
        intro a ha
        have hmem := (mem_named_perm hperm).mp ha
        rw [List.argmin_eq_none.mp hargmin] at hmem
        cases hmem
      rw [hnil]
      rfl
    | some r =>
      have hcontender := mem_contenders_of_argmin hargmin
      obtain ⟨hr, htop, -⟩ := List.argmin_eq_some_iff.mp hargmin
      symm
      refine (argmin_eq_some roleOrder_injective).mpr ⟨(mem_named_perm hperm).mpr hr, fun b hb => ?_⟩
      rcases (htop b ((mem_named_perm hperm).mp hb)).lt_or_eq with hlt | heq
      · exact roleOrder_le.mpr (Or.inl hlt)
      · have hle := hdecided c r ((mem_contenders_perm hperm).mpr hcontender) b hb heq.symm
        exact roleOrder_le.mpr (Or.inr ⟨heq, hle⟩)

end Contenders
end Kubeast.SignIn
