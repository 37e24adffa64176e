import Mathlib.Data.List.Nodup

/-! Maps as lists of keys and values: writing and deleting a key, and runs of steps that each touch
one key. -/
namespace Keyed

variable {K V : Type*} [DecidableEq K] {l : List (K × V)} {k k' : K} {v : V}

/-- `m[k] = v`. -/
def put (l : List (K × V)) (k : K) (v : V) : List (K × V) :=
  if (l.lookup k).isSome then l.map fun m => if m.1 = k then (k, v) else m else l ++ [(k, v)]

/-- `delete(m, k)`. -/
def erase (l : List (K × V)) (k : K) : List (K × V) := l.filter fun m => decide (m.1 ≠ k)

theorem lookup_of_mem (hl : (l.map Prod.fst).Nodup) (h : (k, v) ∈ l) : l.lookup k = some v := by
  induction l with
  | nil => cases h
  | cons m l ih =>
    obtain ⟨k', v'⟩ := m
    obtain ⟨hnot, hrest⟩ := List.nodup_cons.mp hl
    rcases List.mem_cons.mp h with heq | hmem
    · obtain ⟨rfl, rfl⟩ := Prod.mk.inj heq
      exact List.lookup_cons_self
    · have hne : k ≠ k' := by
        rintro rfl
        exact hnot (List.mem_map.mpr ⟨_, hmem, rfl⟩)
      rw [List.lookup_cons, beq_eq_false_iff_ne.mpr hne]
      exact ih hrest hmem

theorem mem_of_lookup (h : l.lookup k = some v) : (k, v) ∈ l := by
  obtain ⟨l₁, l₂, rfl, -⟩ := List.lookup_eq_some_iff.mp h
  simp

theorem mem_iff_lookup (hl : (l.map Prod.fst).Nodup) : (k, v) ∈ l ↔ l.lookup k = some v :=
  ⟨lookup_of_mem hl, mem_of_lookup⟩

theorem lookup_eq_none : l.lookup k = none ↔ k ∉ l.map Prod.fst := by
  rw [List.lookup_eq_none_iff, List.mem_map]
  constructor
  · rintro h ⟨m, hm, rfl⟩
    simpa using h m hm
  · rintro h m hm
    rw [bne_iff_ne]
    rintro rfl
    exact h ⟨m, hm, rfl⟩

theorem lookup_map {W : Type*} (f : V → W) (l : List (K × V)) (k : K) :
    (l.map fun m => (m.1, f m.2)).lookup k = (l.lookup k).map f := by
  induction l with
  | nil => rfl
  | cons m l ih =>
    rw [List.map_cons, List.lookup_cons, List.lookup_cons, ih]
    cases k == m.1 <;> rfl

@[simp] theorem lookup_erase_self : (erase l k).lookup k = none := by
  rw [lookup_eq_none, List.mem_map]
  rintro ⟨m, hm, rfl⟩
  simp [erase] at hm

@[simp] theorem lookup_erase_ne (h : k' ≠ k) : (erase l k).lookup k' = l.lookup k' := by
  induction l with
  | nil => rfl
  | cons m l ih =>
    unfold erase at ih ⊢
    rw [List.filter_cons]
    split_ifs with hm
    · rw [List.lookup_cons, List.lookup_cons, ih]
    · have hmk : m.1 = k := by simpa using hm
      rw [ih, List.lookup_cons, hmk, beq_eq_false_iff_ne.mpr h]

@[simp] theorem lookup_put_self : (put l k v).lookup k = some v := by
  unfold put
  split_ifs with hsome
  · induction l with
    | nil => cases hsome
    | cons m l ih =>
      rw [List.map_cons, List.lookup_cons]
      split_ifs with hm
      · rw [beq_self_eq_true]
      · have hne : (k == m.1) = false := beq_eq_false_iff_ne.mpr (Ne.symm hm)
        rw [hne]
        rw [List.lookup_cons, hne] at hsome
        exact ih hsome
  · rw [List.lookup_append, Option.not_isSome_iff_eq_none.mp hsome]
    simp

@[simp] theorem lookup_put_ne (h : k' ≠ k) : (put l k v).lookup k' = l.lookup k' := by
  have hne : (k' == k) = false := beq_eq_false_iff_ne.mpr h
  unfold put
  split_ifs with hsome
  · clear hsome
    induction l with
    | nil => rfl
    | cons m l ih =>
      rw [List.map_cons, List.lookup_cons, List.lookup_cons, ih]
      split_ifs with hm
      · rw [hm, hne]
      · rfl
  · rw [List.lookup_append, List.lookup_cons, hne]
    simp

theorem nodup_erase (hl : (l.map Prod.fst).Nodup) : ((erase l k).map Prod.fst).Nodup :=
  hl.sublist (List.filter_sublist.map Prod.fst)

theorem nodup_put (hl : (l.map Prod.fst).Nodup) : ((put l k v).map Prod.fst).Nodup := by
  unfold put
  split_ifs with hsome
  · have hkeys : (l.map fun m => if m.1 = k then (k, v) else m).map Prod.fst = l.map Prod.fst := by
      rw [List.map_map]
      refine List.map_congr_left fun m _ => ?_
      simp only [Function.comp_apply]
      split_ifs with hm
      · exact hm.symm
      · rfl
    rwa [hkeys]
  · rw [List.map_append, List.nodup_append]
    refine ⟨hl, List.nodup_singleton k, ?_⟩
    rintro x hx y hy rfl
    obtain rfl : x = k := by simpa using hy
    exact lookup_eq_none.mp (Option.not_isSome_iff_eq_none.mp hsome) hx

/-- A run of steps over distinct keys, each of which touches its own key alone. -/
theorem lookup_foldl {step : List (K × V) → K → List (K × V)} {f : K → Option V → Option V}
    (hself : ∀ l k, (step l k).lookup k = f k (l.lookup k))
    (hother : ∀ l k k', k' ≠ k → (step l k).lookup k' = l.lookup k') {keys : List K} (hkeys : keys.Nodup)
    (l : List (K × V)) (k : K) :
    (keys.foldl step l).lookup k = if k ∈ keys then f k (l.lookup k) else l.lookup k := by
  induction keys generalizing l with
  | nil => simp
  | cons x keys ih =>
    obtain ⟨hx, hrest⟩ := List.nodup_cons.mp hkeys
    rw [List.foldl_cons, ih hrest]
    by_cases hk : k = x
    · rw [hk, if_neg hx, if_pos List.mem_cons_self, hself]
    · have hmem : k ∈ x :: keys ↔ k ∈ keys := by simp [hk]
      rw [hother l x k hk]
      simp only [hmem]

end Keyed
