import Mathlib.Algebra.BigOperators.Group.List.Basic
import Mathlib.Data.List.Induction
import Mathlib.Data.List.Nodup

/-! Items folded into groups, one for each key, in the order of their first items. -/
namespace Buckets

variable {α K G : Type*} [DecidableEq K]

/-- One item: its group takes it, or it starts one. -/
def bucket (key : α → K) (new : α → G) (add : G → α → G) (groups : List (K × G)) (a : α) : List (K × G) :=
  if groups.any fun g => g.1 = key a then groups.map fun g => if g.1 = key a then (g.1, add g.2 a) else g
  else groups ++ [(key a, add (new a) a)]

variable {key : α → K} {new : α → G} {add : G → α → G} {groups : List (K × G)} {as : List α} {a : α} {k : K}
  {g : G}

theorem any_key : (groups.any fun g => g.1 = key a) = true ↔ key a ∈ groups.map Prod.fst := by
  rw [List.any_eq_true, List.mem_map]
  exact ⟨fun ⟨g, hg, h⟩ => ⟨g, hg, of_decide_eq_true h⟩, fun ⟨g, hg, h⟩ => ⟨g, hg, decide_eq_true h⟩⟩

theorem keys_bucket : (bucket key new add groups a).map Prod.fst =
    if key a ∈ groups.map Prod.fst then groups.map Prod.fst else groups.map Prod.fst ++ [key a] := by
  unfold bucket
  by_cases h : key a ∈ groups.map Prod.fst
  · rw [if_pos (any_key.mpr h), if_pos h, List.map_map]
    refine List.map_congr_left fun g _ => ?_
    simp only [Function.comp_apply]
    split_ifs <;> rfl
  · rw [if_neg (mt any_key.mp h), if_neg h, List.map_append]
    rfl

theorem nodup_bucket (h : (groups.map Prod.fst).Nodup) :
    ((bucket key new add groups a).map Prod.fst).Nodup := by
  rw [keys_bucket]
  split_ifs with hmem
  · exact h
  · rw [List.nodup_append]
    refine ⟨h, List.nodup_singleton _, ?_⟩
    rintro x hx y hy rfl
    exact hmem (List.mem_singleton.mp hy ▸ hx)

/-- What stands after an item: groups of other keys, the group that took it, or the one it started. -/
theorem mem_bucket : (k, g) ∈ bucket key new add groups a ↔
    (k, g) ∈ groups ∧ k ≠ key a ∨ k = key a ∧
      if key a ∈ groups.map Prod.fst then ∃ g', (k, g') ∈ groups ∧ g = add g' a else g = add (new a) a := by
  unfold bucket
  by_cases h : key a ∈ groups.map Prod.fst
  · rw [if_pos (any_key.mpr h), if_pos h, List.mem_map]
    constructor
    · rintro ⟨⟨k', g'⟩, hmem, heq⟩
      split_ifs at heq with hk
      · obtain ⟨rfl, rfl⟩ := Prod.mk.inj heq
        exact .inr ⟨hk, g', hmem, rfl⟩
      · obtain ⟨rfl, rfl⟩ := Prod.mk.inj heq
        exact .inl ⟨hmem, hk⟩
    · rintro (⟨hmem, hk⟩ | ⟨hk, g', hmem, rfl⟩)
      · exact ⟨_, hmem, if_neg hk⟩
      · exact ⟨_, hmem, if_pos hk⟩
  · rw [if_neg (mt any_key.mp h), if_neg h, List.mem_append, List.mem_singleton, Prod.mk.injEq]
    constructor
    · rintro (hmem | heq)
      · refine .inl ⟨hmem, ?_⟩
        rintro rfl
        exact h (List.mem_map.mpr ⟨_, hmem, rfl⟩)
      · exact .inr heq
    · rintro (⟨hmem, -⟩ | heq)
      · exact .inl hmem
      · exact .inr heq

theorem nodup_foldl (as : List α) : ((as.foldl (bucket key new add) []).map Prod.fst).Nodup := by
  induction as using List.reverseRecOn with
  | nil => exact List.nodup_nil
  | append_singleton as a ih =>
    rw [List.foldl_concat]
    exact nodup_bucket ih

theorem mem_keys_foldl : k ∈ (as.foldl (bucket key new add) []).map Prod.fst ↔ ∃ a ∈ as, key a = k := by
  induction as using List.reverseRecOn with
  | nil => simp
  | append_singleton as a ih =>
    rw [List.foldl_concat, keys_bucket]
    split_ifs with hmem
    · rw [ih]
      constructor
      · rintro ⟨b, hb, h⟩
        exact ⟨b, List.mem_append_left _ hb, h⟩
      · rintro ⟨b, hb, rfl⟩
        rcases List.mem_append.mp hb with hb | hb
        · exact ⟨b, hb, rfl⟩
        · obtain rfl := List.mem_singleton.mp hb
          exact ih.mp hmem
    · rw [List.mem_append, ih]
      simp [or_and_right, exists_or, eq_comm]

/-- A group is what its items add up to, from the first of them on. -/
theorem mem_foldl : (k, g) ∈ as.foldl (bucket key new add) [] ↔
    ∃ a rest, as.filter (key · = k) = a :: rest ∧ g = (a :: rest).foldl add (new a) := by
  induction as using List.reverseRecOn generalizing g with
  | nil => simp
  | append_singleton as b ih =>
    rw [List.foldl_concat, mem_bucket, List.filter_append]
    by_cases hk : k = key b
    · have hb : [b].filter (key · = k) = [b] := by simp [hk]
      have hkeys : key b ∈ (as.foldl (bucket key new add) []).map Prod.fst ↔ as.filter (key · = k) ≠ [] := by
        rw [mem_keys_foldl, ← hk]
        simp [List.filter_eq_nil_iff]
      rw [hb]
      simp only [hk, ne_eq, not_true_eq_false, and_false, false_or, true_and]
      rw [← hk]
      cases hfilter : as.filter (key · = k) with
      | nil =>
        rw [← hk] at hkeys
        rw [if_neg (fun h => hkeys.mp h hfilter)]
        simp
      | cons a rest =>
        rw [← hk] at hkeys
        rw [if_pos (hkeys.mpr (hfilter ▸ List.cons_ne_nil _ _))]
        simp only [ih, hfilter]
        constructor
        · rintro ⟨g', ⟨a', rest', heq, rfl⟩, rfl⟩
          obtain ⟨rfl, rfl⟩ := List.cons.inj heq
          exact ⟨a, rest ++ [b], rfl, (List.foldl_concat ..).symm⟩
        · rintro ⟨a', rest', heq, rfl⟩
          obtain ⟨rfl, rfl⟩ := List.cons.inj heq
          exact ⟨_, ⟨a, rest, rfl, rfl⟩, List.foldl_concat ..⟩
    · have hb : [b].filter (key · = k) = [] := by simp [Ne.symm hk]
      rw [hb, List.append_nil, ← ih]
      simp [hk]

section Sums
variable {N : Type*} [AddCommMonoid N] {size : G → N} {weight : α → N}

theorem map_of_notMem {f : K × G → K × G} (h : k ∉ groups.map Prod.fst) :
    (groups.map fun g => if g.1 = k then f g else g) = groups := by
  refine (List.map_congr_left fun g hg => if_neg ?_).trans (List.map_id groups)
  rintro rfl
  exact h (List.mem_map_of_mem hg)

theorem sum_bucket (hnew : ∀ a, size (new a) = 0) (hadd : ∀ g a, size (add g a) = size g + weight a)
    (h : (groups.map Prod.fst).Nodup) :
    ((bucket key new add groups a).map fun g => size g.2).sum =
      (groups.map fun g => size g.2).sum + weight a := by
  unfold bucket
  by_cases hmem : key a ∈ groups.map Prod.fst
  · rw [if_pos (any_key.mpr hmem)]
    induction groups with
    | nil => cases hmem
    | cons g groups ih =>
      obtain ⟨hg, hrest⟩ := List.nodup_cons.mp h
      rw [List.map_cons, List.map_cons, List.map_cons, List.sum_cons, List.sum_cons]
      by_cases hk : g.1 = key a
      · rw [map_of_notMem (hk ▸ hg), if_pos hk, hadd]
        exact add_right_comm _ _ _
      · rw [if_neg hk, ih hrest ((List.mem_cons.mp hmem).resolve_left (Ne.symm hk)), add_assoc]
  · rw [if_neg (mt any_key.mp hmem), List.map_append, List.sum_append, List.map_singleton,
      List.sum_singleton, hadd, hnew, zero_add]

/-- What the items add to their groups is what they add up to. -/
theorem sum_foldl (hnew : ∀ a, size (new a) = 0) (hadd : ∀ g a, size (add g a) = size g + weight a)
    (as : List α) :
    ((as.foldl (bucket key new add) []).map fun g => size g.2).sum = (as.map weight).sum := by
  induction as using List.reverseRecOn with
  | nil => rfl
  | append_singleton as a ih =>
    rw [List.foldl_concat, sum_bucket hnew hadd (nodup_foldl as), ih, List.map_append, List.sum_append,
      List.map_singleton, List.sum_singleton]

end Sums

/-- What a group has from its first item alone stands in the order of the items. -/
theorem sublist_foldl {T : Type*} {stamp : G → T} {time : α → T} (hnew : ∀ a, stamp (new a) = time a)
    (hadd : ∀ g a, stamp (add g a) = stamp g) (as : List α) :
    ((as.foldl (bucket key new add) []).map fun g => stamp g.2).Sublist (as.map time) := by
  induction as using List.reverseRecOn with
  | nil => exact List.Sublist.refl _
  | append_singleton as a ih =>
    rw [List.foldl_concat, List.map_append]
    generalize as.foldl (bucket key new add) [] = groups at ih
    unfold bucket
    split_ifs
    · rw [List.map_map]
      have hsame : (groups.map ((fun g => stamp g.2) ∘ fun g => if g.1 = key a then (g.1, add g.2 a) else g)) =
          groups.map fun g => stamp g.2 := by
        refine List.map_congr_left fun g _ => ?_
        simp only [Function.comp_apply]
        split_ifs
        · exact hadd g.2 a
        · rfl
      rw [hsame]
      exact ih.trans (List.sublist_append_left _ _)
    · rw [List.map_append, List.map_singleton, List.map_singleton, hadd, hnew]
      exact ih.append (List.Sublist.refl _)

end Buckets
