import Kubeast.Permissions.APIKeys

/-! What the intersection of two permission lists loses: patterns that overlap without either
covering the other. -/
namespace Kubeast.Permissions
open Wildcard

/-- `strings.Join(segs, ".")`. -/
def join (segs : List (List Char)) : String := String.ofList (['.'].intercalate segs)

/-- The pattern of what two patterns both match. -/
def meetPattern (x y : String) : Option String := (meet star (split x) (split y)).map join

/-- A permission without wildcards. -/
def Concrete (q : String) : Prop := star ∉ split q

instance (q : String) : Decidable (Concrete q) := inferInstanceAs (Decidable (_ ∉ _))

/-- Every two overlapping entries, one of each list, overlap inside an entry of one list that the
other list covers. -/
def OverlapsKept (a b : List String) : Prop :=
  ∀ x ∈ a, ∀ y ∈ b, ∀ m ∈ meetPattern x y,
    (∃ u ∈ a, matchAny b u = true ∧ permMatches u m = true) ∨
      ∃ u ∈ b, matchAny a u = true ∧ permMatches u m = true

instance (a b : List String) : Decidable (OverlapsKept a b) :=
  inferInstanceAs (Decidable (∀ x ∈ a, ∀ y ∈ b, ∀ m ∈ meetPattern x y,
    (∃ u ∈ a, matchAny b u = true ∧ permMatches u m = true) ∨
      ∃ u ∈ b, matchAny a u = true ∧ permMatches u m = true))

section Segments
variable {a b : List String} {x y u q : String} {segs : List (List Char)}

theorem split_join (hne : segs ≠ []) (h : ∀ seg ∈ segs, '.' ∉ seg) : split (join segs) = segs := by
  rw [split, join, String.toList_ofList]
  exact List.splitOn_intercalate '.' h hne

theorem split_meet {m : List (List Char)} (h : meet star (split x) (split y) = some m) :
    split (join m) = m := by
  apply split_join (meet_ne_nil h (split_ne_nil x))
  intro seg hseg
  rcases mem_of_meet h seg hseg with hseg | hseg
  · exact Text.notMem_of_mem_splitOn hseg
  · exact Text.notMem_of_mem_splitOn hseg

/-- The overlap of two patterns matches what both match. -/
theorem permMatches_meet : (∃ m, meetPattern x y = some m ∧ permMatches m q = true) ↔
    permMatches x q = true ∧ permMatches y q = true := by
  rw [permMatches_iff, permMatches_iff, ← covers_meet]
  constructor
  · rintro ⟨_, hm, hmatches⟩
    obtain ⟨m, hmeet, rfl⟩ := Option.map_eq_some_iff.mp hm
    rw [permMatches_iff, split_meet hmeet] at hmatches
    exact ⟨m, hmeet, hmatches⟩
  · rintro ⟨m, hmeet, hcovers⟩
    refine ⟨join m, by rw [meetPattern, hmeet]; rfl, ?_⟩
    rwa [permMatches_iff, split_meet hmeet]

/-- A segment longer than every segment of some patterns. -/
def unused (ps : List String) : List Char :=
  List.replicate ((ps.flatMap split).flatten.length + 2) 'x'

theorem unused_notMem {ps : List String} (h : u ∈ ps) : unused ps ∉ split u := by
  intro hmem
  have hpart := List.sublist_flatten_of_mem (List.mem_flatMap.mpr ⟨u, h, hmem⟩)
  have hle := hpart.length_le
  rw [unused, List.length_replicate] at hle
  omega

theorem unused_ne_star (ps : List String) : unused ps ≠ star := by
  intro h
  have hlength : (unused ps).length = 1 := congrArg List.length h
  rw [unused, List.length_replicate] at hlength
  omega

/-- A concrete permission of a pattern that only patterns covering all of it match. -/
theorem exists_concrete (ps : List String) (m : String) : ∃ q, Concrete q ∧ permMatches m q = true ∧
    ∀ u ∈ ps, permMatches u q = true → permMatches u m = true := by
  have hdot : '.' ∉ unused ps := by
    rw [unused, List.mem_replicate]
    rintro ⟨-, h⟩
    cases h
  have hsplit : split (join (fresh star (unused ps) (split m))) = fresh star (unused ps) (split m) := by
    apply split_join
    · exact fun h => split_ne_nil m (List.map_eq_nil_iff.mp h)
    · intro seg hseg
      obtain ⟨s, hs, rfl⟩ := List.mem_map.mp hseg
      split
      · exact hdot
      · exact Text.notMem_of_mem_splitOn hs
  refine ⟨join (fresh star (unused ps) (split m)), ?_, ?_, ?_⟩
  · rw [Concrete, hsplit]
    exact star_notMem_fresh (unused_ne_star ps)
  · rw [permMatches_iff, hsplit]
    exact covers_fresh
  · intro u hu hmatches
    rw [permMatches_iff, hsplit] at hmatches
    rw [permMatches_iff]
    exact covers_of_fresh (unused_notMem hu) hmatches

end Segments

/-- The intersection keeps every concrete permission both lists grant, exactly when every overlap of
two entries lies inside an entry that the other list covers. -/
theorem intersectPerms_keeps_iff (a b : List String) :
    (∀ q, Concrete q → matchAny a q = true → matchAny b q = true → matchAny (intersectPerms a b) q = true) ↔
      OverlapsKept a b := by
  constructor
  · intro hkeeps x hx y hy m hm
    obtain ⟨q, hconcrete, hmatches, hcovers⟩ := exists_concrete (a ++ b) m
    obtain ⟨hxq, hyq⟩ := permMatches_meet.mp ⟨m, hm, hmatches⟩
    have hkept := hkeeps q hconcrete (matchAny_eq_true.mpr ⟨x, hx, hxq⟩) (matchAny_eq_true.mpr ⟨y, hy, hyq⟩)
    obtain ⟨u, hu, huq⟩ := matchAny_eq_true.mp hkept
    rcases mem_intersectPerms.mp hu with ⟨hua, hub⟩ | ⟨hub, hua⟩
    · exact Or.inl ⟨u, hua, hub, hcovers u (List.mem_append_left b hua) huq⟩
    · exact Or.inr ⟨u, hub, hua, hcovers u (List.mem_append_right a hub) huq⟩
  · intro hkept q _ ha hb
    obtain ⟨x, hx, hxq⟩ := matchAny_eq_true.mp ha
    obtain ⟨y, hy, hyq⟩ := matchAny_eq_true.mp hb
    obtain ⟨m, hm, hmq⟩ := permMatches_meet.mpr ⟨hxq, hyq⟩
    apply matchAny_eq_true.mpr
    rcases hkept x hx y hy m hm with ⟨u, hu, hcovered, hum⟩ | ⟨u, hu, hcovered, hum⟩
    · exact ⟨u, mem_intersectPerms.mpr (Or.inl ⟨hu, hcovered⟩), permMatches_trans hum hmq⟩
    · exact ⟨u, mem_intersectPerms.mpr (Or.inr ⟨hu, hcovered⟩), permMatches_trans hum hmq⟩

/-- Both lists grant `resource.helm.read`, neither entry covers the other, and nothing is left. -/
theorem intersectPerms_loses : Concrete "resource.helm.read" ∧
    matchAny ["resource.*.read"] "resource.helm.read" = true ∧
    matchAny ["resource.helm.*"] "resource.helm.read" = true ∧
    matchAny (intersectPerms ["resource.*.read"] ["resource.helm.*"]) "resource.helm.read" = false := by
  decide

end Kubeast.Permissions
