import Mathlib.Data.List.Basic
import Mathlib.Data.List.Infix
import Mathlib.Data.List.Nodup
import Mathlib.Data.List.TakeWhile
import Mathlib.Algebra.Order.Ring.Int

/-! A memory of the keys taken lately, oldest first: it forgets what is older than a time to live,
and the oldest when it is full. -/
namespace Recent
variable {K : Type*} [DecidableEq K]

abbrev Memory (K : Type*) := List (K × ℤ)

def expired (ttl now : ℤ) (e : K × ℤ) : Bool := decide (ttl ≤ now - e.2)

def expire (ttl now : ℤ) (m : Memory K) : Memory K := m.dropWhile (expired ttl now)

def seen (ttl : ℤ) (m : Memory K) (k : K) (now : ℤ) : Bool :=
  (expire ttl now m).any fun e => decide (e.1 = k) && !expired ttl now e

def take (ttl : ℤ) (max : ℕ) (m : Memory K) (k : K) (now : ℤ) : Memory K :=
  if k ∈ (expire ttl now m).map Prod.fst then
    (expire ttl now m).map fun e => if e.1 = k then (k, now) else e
  else (expire ttl now m).drop ((expire ttl now m).length + 1 - max) ++ [(k, now)]

/-- The times go up, as they do while no key is taken again. -/
def Sorted (m : Memory K) : Prop := m.Pairwise fun e e' => e.2 ≤ e'.2

section Memory
variable {ttl now : ℤ} {max : ℕ} {m m₁ m₂ : Memory K} {k : K} {e : K × ℤ}

omit [DecidableEq K] in
theorem expire_isSuffix (ttl now : ℤ) (m : Memory K) : expire ttl now m <:+ m :=
  List.dropWhile_suffix _

omit [DecidableEq K] in
/-- What is forgotten by age is old. -/
theorem old_of_not_mem_expire (h : e ∈ m) (hgone : e ∉ expire ttl now m) : ttl ≤ now - e.2 := by
  rw [← List.takeWhile_append_dropWhile (p := expired ttl now) (l := m)] at h
  rcases List.mem_append.mp h with h | h
  · exact of_decide_eq_true (List.mem_takeWhile_imp (p := expired ttl now) h)
  · exact absurd h hgone

omit [DecidableEq K] in
/-- What is left is not old. -/
theorem live_of_mem_expire (hsorted : Sorted m) (h : e ∈ expire ttl now m) : now - e.2 < ttl := by
  induction m with
  | nil => cases h
  | cons a m ih =>
    obtain ⟨hfirst, hrest⟩ := List.pairwise_cons.mp hsorted
    rw [expire, List.dropWhile_cons] at h
    split at h
    · exact ih hrest h
    · next hlive =>
      have hnow : now - a.2 < ttl := by simpa [expired] using hlive
      rcases List.mem_cons.mp h with rfl | h
      · exact hnow
      · have := hfirst e h
        omega

omit [DecidableEq K] in
theorem sorted_expire (h : Sorted m) : Sorted (expire ttl now m) :=
  List.Pairwise.sublist (expire_isSuffix ttl now m).sublist h

/-- A key is seen while it is remembered. -/
theorem seen_iff (hsorted : Sorted m) :
    seen ttl m k now = true ↔ k ∈ (expire ttl now m).map Prod.fst := by
  simp only [seen, List.any_eq_true, List.mem_map, Bool.and_eq_true, decide_eq_true_eq]
  constructor
  · rintro ⟨e, he, hk, -⟩
    exact ⟨e, he, hk⟩
  · rintro ⟨e, he, hk⟩
    have hlive := live_of_mem_expire hsorted he
    exact ⟨e, he, hk, by simpa [expired] using hlive⟩

omit [DecidableEq K] in
/-- Expiry leaves an entry with all that came after it, unless the entry is old. -/
theorem expire_append_cons (ttl now : ℤ) (m₁ : Memory K) (e : K × ℤ) (m₂ : Memory K) :
    ttl ≤ now - e.2 ∨ ∃ m₁', expire ttl now (m₁ ++ e :: m₂) = m₁' ++ e :: m₂ := by
  by_cases hold : ttl ≤ now - e.2
  · exact Or.inl hold
  · right
    rw [expire, List.dropWhile_append]
    split
    · exact ⟨[], by rw [List.dropWhile_cons_of_neg (by simpa [expired] using hold), List.nil_append]⟩
    · exact ⟨_, rfl⟩

section New
variable (hnew : k ∉ (expire ttl now m).map Prod.fst)
include hnew

theorem take_of_new : take ttl max m k now =
    (expire ttl now m).drop ((expire ttl now m).length + 1 - max) ++ [(k, now)] := if_neg hnew

/-- What becomes of an entry when a new key is taken. -/
theorem take_append_cons (hm : m = m₁ ++ e :: m₂) : ttl ≤ now - e.2 ∨ max ≤ m₂.length + 1 ∨
    ∃ m₁', take ttl max m k now = m₁' ++ e :: (m₂ ++ [(k, now)]) := by
  rcases expire_append_cons ttl now m₁ e m₂ with hold | ⟨m₁', hexpire⟩
  · exact Or.inl hold
  · right
    rw [take_of_new hnew, hm, hexpire]
    by_cases hlength : (m₁' ++ e :: m₂).length + 1 - max ≤ m₁'.length
    · right
      exact ⟨m₁'.drop ((m₁' ++ e :: m₂).length + 1 - max), by
        rw [List.drop_append_of_le_length hlength, List.append_assoc, List.cons_append]⟩
    · left
      rw [List.length_append, List.length_cons] at hlength
      omega

theorem sorted_take (h : Sorted m) (hnow : ∀ e ∈ m, e.2 ≤ now) : Sorted (take ttl max m k now) := by
  rw [take_of_new hnew]
  refine List.pairwise_append.mpr ⟨List.Pairwise.sublist (List.drop_sublist _ _) (sorted_expire h),
    List.pairwise_singleton _ _, ?_⟩
  intro e he e' he'
  rw [List.mem_singleton.mp he']
  exact hnow e ((expire_isSuffix ttl now m).subset (List.mem_of_mem_drop he))

theorem nodup_take (h : (m.map Prod.fst).Nodup) : ((take ttl max m k now).map Prod.fst).Nodup := by
  rw [take_of_new hnew, List.map_append, List.nodup_append]
  have hdrop := (List.drop_sublist ((expire ttl now m).length + 1 - max) (expire ttl now m)).map
    Prod.fst
  refine ⟨(h.sublist ((expire_isSuffix ttl now m).sublist.map _)).sublist hdrop,
    List.nodup_singleton _, ?_⟩
  rintro x hx y hy rfl
  rw [List.map_singleton, List.mem_singleton] at hy
  obtain rfl : x = k := hy
  exact hnew (hdrop.subset hx)

theorem mem_take (h : e ∈ take ttl max m k now) : e = (k, now) ∨ e ∈ m := by
  rw [take_of_new hnew] at h
  rcases List.mem_append.mp h with h | h
  · exact Or.inr ((expire_isSuffix ttl now m).subset (List.mem_of_mem_drop h))
  · exact Or.inl (List.mem_singleton.mp h)

end New
end Memory

section Window
variable {ttl now : ℤ} {max n : ℕ} {m : Memory K} {k : K} {keys keys' : List K}

/-- No key comes again within `n` keys. -/
def Apart (n : ℕ) (keys : List K) : Prop :=
  ∀ i j, i < j → j < keys.length → keys[i]? = keys[j]? → n < j - i

omit [DecidableEq K] in
theorem Apart.left (h : Apart n (keys ++ keys')) : Apart n keys := by
  intro i j hij hj heq
  apply h i j hij
  · rw [List.length_append]
    omega
  · rwa [List.getElem?_append_left (by omega), List.getElem?_append_left hj]

omit [DecidableEq K] in
/-- One more key is apart from the rest when it is none of the last `n`. -/
theorem apart_concat : Apart n (keys ++ [k]) ↔ Apart n keys ∧ k ∉ keys.drop (keys.length - n) := by
  constructor
  · intro h
    refine ⟨h.left, fun hmem => ?_⟩
    obtain ⟨i, hi, hk⟩ := List.mem_iff_getElem.mp hmem
    rw [List.length_drop] at hi
    rw [List.getElem_drop] at hk
    have hfar := h (keys.length - n + i) keys.length (by omega) (by simp) (by
      rw [List.getElem?_append_left (by omega), List.getElem?_concat_length,
        List.getElem?_eq_getElem (by omega), hk])
    omega
  · rintro ⟨h, hk⟩ i j hij hj heq
    rw [List.length_append, List.length_singleton] at hj
    rw [List.getElem?_append_left (by omega)] at heq
    by_cases hlast : j < keys.length
    · rw [List.getElem?_append_left hlast] at heq
      exact h i j hij hlast heq
    · obtain rfl : j = keys.length := by omega
      rw [List.getElem?_concat_length] at heq
      by_contra hnear
      apply hk
      refine List.mem_of_getElem? (i := i - (keys.length - n)) ?_
      rw [List.getElem?_drop, ← heq]
      congr 1
      omega

/-- The memory holds the last `n` of the keys. -/
def Holds (n : ℕ) (keys : List K) (m : Memory K) : Prop :=
  m.map Prod.fst = keys.drop (keys.length - n)

omit [DecidableEq K] in
theorem expire_of_live (hlive : ∀ e ∈ m, now - e.2 < ttl) : expire ttl now m = m := by
  rw [expire, List.dropWhile_eq_self_iff]
  intro hl
  have hfirst := hlive m[0] (List.getElem_mem hl)
  simpa [expired] using hfirst

/-- While nothing is old, the keys seen are those the memory holds. -/
theorem seen_of_live (hlive : ∀ e ∈ m, now - e.2 < ttl) :
    seen ttl m k now = true ↔ k ∈ m.map Prod.fst := by
  rw [seen, expire_of_live hlive, List.any_eq_true, List.mem_map]
  constructor
  · rintro ⟨e, he, hk⟩
    exact ⟨e, he, of_decide_eq_true (Bool.and_eq_true_iff.mp hk).1⟩
  · rintro ⟨e, he, hk⟩
    have := hlive e he
    exact ⟨e, he, by simpa [expired, hk] using this⟩

/-- A new key is taken among the last ones. -/
theorem Holds.take (h : Holds (1 ⊔ max) keys m) (hlive : ∀ e ∈ m, now - e.2 < ttl)
    (hnew : k ∉ m.map Prod.fst) : Holds (1 ⊔ max) (keys ++ [k]) (take ttl max m k now) := by
  have hlength := congrArg List.length h
  rw [List.length_map, List.length_drop] at hlength
  have hexpire := expire_of_live hlive
  rw [Holds, take_of_new (by rwa [hexpire]), hexpire, List.map_append, List.map_drop, h,
    List.drop_drop, List.length_append, List.length_singleton,
    List.drop_append_of_le_length (by omega)]
  congr 1
  by_cases hshort : keys.length ≤ keys.length - (1 ⊔ max) + (m.length + 1 - max)
  · rw [List.drop_eq_nil_of_le hshort, List.drop_eq_nil_of_le (by omega)]
  · congr 1
    omega

end Window
end Recent
