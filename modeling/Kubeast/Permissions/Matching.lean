import Kubeast.Foundation.Table
import Kubeast.Foundation.Wildcard

/-! Permission keys, wildcard entries and the per-cluster matrix
(`services/pkg/auth/permissions.go`). -/
namespace Kubeast.Permissions
open Wildcard

/-- `strings.Split(s, ".")`. -/
def split (s : String) : List (List Char) := s.toList.splitOn '.'

/-- The segment `"*"`. -/
def star : List Char := ['*']

/-- The loop of `permMatches` from segment `i` of a pattern of `n` segments; the
list holds the segments from `i` on. -/
def segmentsMatch (n : ℕ) (qs : List (List Char)) : ℕ → List (List Char) → Bool
  | _, [] => n == qs.length
  | i, seg :: rest =>
      if seg = star ∧ i + 1 = n then decide (n ≤ qs.length)
      else match qs[i]? with
        | none => false
        | some q => if seg ≠ star ∧ seg ≠ q then false else segmentsMatch n qs (i + 1) rest

/-- A granted pattern against a required key: `"*"` alone grants everything, a `"*"`
segment one segment, a trailing one the rest. -/
def permMatches (pattern perm : String) : Bool :=
  pattern == "*" || pattern == perm ||
    segmentsMatch (split pattern).length (split perm) 0 (split pattern)

def matchAny (perms : List String) (perm : String) : Bool :=
  perms.any fun pp => permMatches pp perm

/-- Cluster id to the keys granted there; `"*"` stands for every cluster. -/
abbrev PermissionMatrix := Dict String (List String)

/-- The `"*"` entry always counts, the cluster's own entry for a real id only. -/
def PermissionMatrix.hasForCluster (m : PermissionMatrix) (perm clusterID : String) : Bool :=
  matchAny (m.index "*") perm ||
    (clusterID != "" && clusterID != "*" && matchAny (m.index clusterID) perm)

theorem split_ne_nil (s : String) : split s ≠ [] := List.splitOn_ne_nil _ _

/-- The indexed loop compares what is left of the pattern with what is left of the key. -/
theorem segmentsMatch_iff (qs rest : List (List Char)) (i : ℕ)
    (hi : i ≤ qs.length) :
    segmentsMatch (i + rest.length) qs i rest = true ↔ Covers star rest (qs.drop i) := by
  induction rest generalizing i with
  | nil =>
    rw [covers_nil_left, List.drop_eq_nil_iff]
    simp only [segmentsMatch, List.length_nil, Nat.add_zero, beq_iff_eq]
    omega
  | cons seg rest ih =>
    rw [segmentsMatch]
    by_cases hlast : seg = star ∧ i + 1 = i + (seg :: rest).length
    · obtain ⟨rfl, hn⟩ := hlast
      have hrest : rest = [] := by simpa using hn
      subst hrest
      rw [if_pos ⟨rfl, hn⟩, covers_star, ne_eq, List.drop_eq_nil_iff, decide_eq_true_eq]
      simp only [List.length_cons, List.length_nil]
      omega
    · rw [if_neg hlast]
      have hne : seg ≠ star ∨ rest ≠ [] := by
        by_contra h
        simp only [not_or, not_not] at h
        exact hlast ⟨h.1, by simp [h.2]⟩
      cases hq : qs[i]? with
      | none =>
        have hlen : qs.length ≤ i := List.getElem?_eq_none_iff.mp hq
        simp [List.drop_eq_nil_iff.mpr hlen, covers_nil_right]
      | some q =>
        obtain ⟨hlt, rfl⟩ := List.getElem?_eq_some_iff.mp hq
        rw [List.drop_eq_getElem_cons hlt, covers_cons hne, ← ih (i + 1) hlt]
        have hn : i + 1 + rest.length = i + (seg :: rest).length := by simp; omega
        rw [hn]
        by_cases hs : seg = star <;> by_cases hx : seg = qs[i] <;> simp_all

/-- The matcher computes the covering relation on segments. -/
theorem permMatches_iff (pattern perm : String) :
    permMatches pattern perm = true ↔ Covers star (split pattern) (split perm) := by
  have h := segmentsMatch_iff (split perm) (split pattern) 0 (Nat.zero_le _)
  simp only [Nat.zero_add, List.drop_zero] at h
  simp only [permMatches, Bool.or_eq_true, beq_iff_eq, h]
  constructor
  · rintro ((rfl | rfl) | hc)
    · exact covers_star.mpr (split_ne_nil perm)
    · exact Covers.refl _ _
    · exact hc
  · exact Or.inr

theorem permMatches_refl (p : String) : permMatches p p = true :=
  (permMatches_iff p p).mpr (Covers.refl _ _)

/-- Patterns compare as strings without ever granting more than the first grants. -/
theorem permMatches_trans {a p q : String} (h : permMatches a p = true)
    (h' : permMatches p q = true) : permMatches a q = true :=
  (permMatches_iff a q).mpr (((permMatches_iff a p).mp h).trans ((permMatches_iff p q).mp h'))

theorem matchAny_eq_true {perms : List String} {q : String} :
    matchAny perms q = true ↔ ∃ p ∈ perms, permMatches p q = true := by
  simp [matchAny]

theorem matchAny_trans {perms : List String} {p q : String} (h : matchAny perms p = true)
    (h' : permMatches p q = true) : matchAny perms q = true := by
  obtain ⟨a, ha, hap⟩ := matchAny_eq_true.mp h
  exact matchAny_eq_true.mpr ⟨a, ha, permMatches_trans hap h'⟩

/-- A list whose every entry is matched by another list grants no more than it. -/
theorem matchAny_of_covered {perms covered : List String} {q : String}
    (hc : ∀ p ∈ perms, matchAny covered p = true) (h : matchAny perms q = true) :
    matchAny covered q = true := by
  obtain ⟨p, hp, hpq⟩ := matchAny_eq_true.mp h
  exact matchAny_trans (hc p hp) hpq

namespace PermissionMatrix
variable {m : PermissionMatrix} {clusterID p q : String}

theorem hasForCluster_iff (h : clusterID ≠ "") :
    m.hasForCluster q clusterID = true ↔
      matchAny (m.index "*") q = true ∨ matchAny (m.index clusterID) q = true := by
  by_cases hs : clusterID = "*"
  · simp [hasForCluster, hs]
  · simp [hasForCluster, h, hs]

theorem hasForCluster_of_global (h : matchAny (m.index "*") q = true) :
    m.hasForCluster q clusterID = true := by
  simp [hasForCluster, h]

theorem hasForCluster_trans (h : m.hasForCluster p clusterID = true)
    (h' : permMatches p q = true) : m.hasForCluster q clusterID = true := by
  simp only [hasForCluster, Bool.or_eq_true, Bool.and_eq_true] at h ⊢
  exact h.imp (matchAny_trans · h') fun h => ⟨h.1, matchAny_trans h.2 h'⟩

end PermissionMatrix

example : permMatches "resource.*.read" "resource.pod.read" = true := by decide
example : permMatches "ai.tool.*" "ai.tool" = false := by decide

end Kubeast.Permissions
