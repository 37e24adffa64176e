import Mathlib.Data.List.MinMax
import Mathlib.Data.List.Sort
import Mathlib.Data.Set.Basic

/-! Lists in the order of a key, as `ORDER BY` returns them. Where the keys are distinct such
a list is fixed by its members. -/
namespace Sorted

variable {α K : Type*} [LinearOrder K] {key : α → K} {l l' : List α} {a : α} {n : ℕ}

/-- `ORDER BY key`. -/
def sortBy (key : α → K) (l : List α) : List α := l.insertionSort fun a b => key a ≤ key b

/-- The keys go up strictly along the list. -/
def Increasing (key : α → K) (l : List α) : Prop := l.Pairwise fun a b => key a < key b

@[simp] theorem mem_sortBy : a ∈ sortBy key l ↔ a ∈ l := List.mem_insertionSort _

theorem perm_sortBy (key : α → K) (l : List α) : (sortBy key l).Perm l := List.perm_insertionSort _ l

@[simp] theorem length_sortBy : (sortBy key l).length = l.length := List.length_insertionSort _ l

theorem increasing_sortBy (h : (l.map key).Nodup) : Increasing key (sortBy key l) := by
  have : Std.Total fun a b : α => key a ≤ key b := ⟨fun a b => le_total _ _⟩
  have : IsTrans α fun a b : α => key a ≤ key b := ⟨fun a b c => le_trans⟩
  have hle : (sortBy key l).Pairwise fun a b => key a ≤ key b := List.pairwise_insertionSort _ l
  have hne : (sortBy key l).Pairwise fun a b => key a ≠ key b := by
    rw [← List.pairwise_map (f := key) (R := fun x y => x ≠ y)]
    exact ((perm_sortBy key l).map key).nodup_iff.mpr h
  exact (hle.and hne).imp fun ⟨h₁, h₂⟩ => lt_of_le_of_ne h₁ h₂

theorem Increasing.nodup (h : Increasing key l) : l.Nodup :=
  List.Pairwise.imp (fun hlt heq => absurd (heq ▸ hlt) (lt_irrefl _)) h

theorem Increasing.nodup_map (h : Increasing key l) : (l.map key).Nodup :=
  List.pairwise_map.mpr (List.Pairwise.imp (fun hlt => hlt.ne) h)

theorem Increasing.filter (p : α → Bool) (h : Increasing key l) : Increasing key (l.filter p) :=
  List.Pairwise.filter p h

theorem Increasing.sublist (h : Increasing key l) (hs : l'.Sublist l) : Increasing key l' :=
  List.Pairwise.sublist hs h

/-- A key occurs once. -/
theorem Increasing.eq_of_key_eq (h : Increasing key l) {x y : α} (hx : x ∈ l) (hy : y ∈ l)
    (hk : key x = key y) : x = y := by
  induction l with
  | nil => cases hx
  | cons b l ih =>
    obtain ⟨hb, hl⟩ := List.pairwise_cons.mp h
    rcases List.mem_cons.mp hx with hxb | hx <;> rcases List.mem_cons.mp hy with hyb | hy
    · rw [hxb, hyb]
    · rw [hxb] at hk
      exact absurd hk (hb y hy).ne
    · rw [hyb] at hk
      exact absurd hk (hb x hx).ne'
    · exact ih hl hx hy

/-- Lists in the order of distinct keys with the same members are the same list. -/
theorem Increasing.ext (h : Increasing key l) (h' : Increasing key l')
    (hmem : ∀ x, x ∈ l ↔ x ∈ l') : l = l' :=
  ((List.perm_ext_iff_of_nodup h.nodup h'.nodup).mpr hmem).eq_of_pairwise
    (fun _ _ _ _ hab hba => absurd hab hba.asymm) h h'

/-- Part of the list is its end when nothing above a kept element is missing. -/
theorem Increasing.suffix_iff (h : Increasing key l) (h' : Increasing key l')
    (hsub : ∀ x ∈ l', x ∈ l) :
    l' <:+ l ↔ ∀ x ∈ l', ∀ y ∈ l, key x < key y → y ∈ l' := by
  constructor
  · rintro ⟨p, rfl⟩ x hx y hy hlt
    rcases List.mem_append.mp hy with hy | hy
    · exact absurd ((List.pairwise_append.mp h).2.2 y hy x hx) hlt.asymm
    · exact hy
  · intro hup
    induction l with
    | nil =>
      have hnil : l' = [] := List.eq_nil_iff_forall_not_mem.mpr fun x hx => nomatch hsub x hx
      exact hnil ▸ List.suffix_refl []
    | cons b l ih =>
      obtain ⟨hb, hl⟩ := List.pairwise_cons.mp h
      by_cases hmem : b ∈ l'
      · have heq : l' = b :: l := h'.ext h fun x => ⟨hsub x, fun hx => by
          rcases List.mem_cons.mp hx with rfl | hx'
          · exact hmem
          · exact hup b hmem x hx (hb x hx')⟩
        exact heq ▸ List.suffix_refl l'
      · have hsub' : ∀ x ∈ l', x ∈ l := fun x hx => by
          rcases List.mem_cons.mp (hsub x hx) with rfl | hx'
          · exact absurd hx hmem
          · exact hx'
        exact (ih hl hsub' fun x hx y hy => hup x hx y (List.mem_cons_of_mem b hy)).trans
          (List.suffix_cons b l)

/-- The greatest key stands last. -/
theorem Increasing.le_getLast (h : Increasing key l) {last x : α} (hlast : l.getLast? = some last)
    (hx : x ∈ l) : key x ≤ key last := by
  obtain ⟨p, rfl⟩ := List.getLast?_eq_some_iff.mp hlast
  rcases List.mem_append.mp hx with hx | hx
  · exact ((List.pairwise_append.mp h).2.2 x hx last (by simp)).le
  · rw [List.mem_singleton.mp hx]

theorem Increasing.head_le (h : Increasing key l) {first x : α} (hfirst : l.head? = some first)
    (hx : x ∈ l) : key first ≤ key x := by
  obtain ⟨tail, rfl⟩ := List.head?_eq_some_iff.mp hfirst
  rcases List.mem_cons.mp hx with rfl | hx
  · exact le_rfl
  · exact ((List.pairwise_cons.mp h).1 x hx).le

/-- The first `n` elements are those with fewer than `n` below them. -/
theorem Increasing.mem_take_iff (h : Increasing key l) :
    a ∈ l.take n ↔ a ∈ l ∧ (l.filter fun b => decide (key b < key a)).length < n := by
  induction l generalizing n with
  | nil => simp
  | cons b l ih =>
    obtain ⟨hb, hl⟩ := List.pairwise_cons.mp h
    cases n with
    | zero => simp
    | succ n =>
      rw [List.take_succ_cons, List.mem_cons, List.mem_cons, ih hl]
      by_cases hab : a = b
      · subst hab
        have hnone : (l.filter fun x => decide (key x < key a)) = [] :=
          List.filter_eq_nil_iff.mpr fun x hx => by simpa using (hb x hx).le
        simp [hnone]
      · by_cases hal : a ∈ l
        · simp [hab, hal, hb a hal]
        · simp [hab, hal]

/-- What is not above the last of the first elements is one of them. -/
theorem Increasing.mem_take_of_le (h : Increasing key l) {last : α}
    (hlast : (l.take n).getLast? = some last) (ha : a ∈ l) (hle : key a ≤ key last) :
    a ∈ l.take n := by
  rw [Increasing, ← List.take_append_drop n l, List.pairwise_append] at h
  rw [← List.take_append_drop n l] at ha
  refine (List.mem_append.mp ha).resolve_right fun hdrop => ?_
  have hlt := h.2.2 last (List.mem_of_getLast? hlast) a hdrop
  exact absurd hle (not_le.mpr hlt)

theorem Increasing.filter_le_take (h : Increasing key l) (high : K) :
    l.filter (fun x => decide (key x ≤ high)) <+: l := by
  induction l with
  | nil => exact List.prefix_refl []
  | cons b l ih =>
    obtain ⟨hb, hl⟩ := List.pairwise_cons.mp h
    by_cases hle : key b ≤ high
    · rw [List.filter_cons_of_pos (by simpa using hle)]
      exact List.cons_prefix_cons.mpr ⟨rfl, ih hl⟩
    · have hnone : (b :: l).filter (fun x => decide (key x ≤ high)) = [] := by
        refine List.filter_eq_nil_iff.mpr fun x hx => ?_
        rcases List.mem_cons.mp hx with rfl | hx
        · simpa using hle
        · simpa using (not_le.mp hle).trans (hb x hx)
      rw [hnone]
      exact List.nil_prefix

/-- The elements between two bounds stand together. -/
theorem Increasing.filter_between_part (h : Increasing key l) (low high : K) :
    l.filter (fun x => decide (low ≤ key x ∧ key x ≤ high)) <:+: l := by
  have hsuffix : l.filter (fun x => decide (low ≤ key x)) <:+ l := by
    refine (h.suffix_iff (h.filter _) fun x hx => (List.mem_filter.mp hx).1).mpr ?_
    intro x hx y hy hlt
    have hlow := of_decide_eq_true (List.mem_filter.mp hx).2
    exact List.mem_filter.mpr ⟨hy, by simpa using hlow.trans hlt.le⟩
  have hprefix := (h.filter fun x => decide (low ≤ key x)).filter_le_take high
  rw [List.filter_filter] at hprefix
  have hand : (fun x => decide (key x ≤ high) && decide (low ≤ key x)) =
      fun x => decide (low ≤ key x ∧ key x ≤ high) := by
    funext x
    rw [Bool.decide_and, Bool.and_comm]
  rw [hand] at hprefix
  exact hprefix.isInfix.trans hsuffix.isInfix

section Least

/-- The first least entry is the least one, where no two entries share a key. -/
theorem argmin_eq_some (hinj : Function.Injective key) :
    l.argmin key = some a ↔ a ∈ l ∧ ∀ b ∈ l, key a ≤ key b := by
  classical
  rw [List.argmin_eq_some_iff]
  constructor
  · exact fun h => ⟨h.1, h.2.1⟩
  · intro h
    have hself : ∀ b ∈ l, key b ≤ key a → b = a := fun b hb hle => hinj (le_antisymm hle (h.2 b hb))
    exact ⟨h.1, h.2, fun b hb hle => (congrArg l.idxOf (hself b hb hle)).ge⟩

theorem argmin_perm (hinj : Function.Injective key) (h : l.Perm l') : l.argmin key = l'.argmin key := by
  cases hmin : l'.argmin key with
  | none =>
    rw [List.argmin_eq_none.mp hmin] at h
    rw [h.eq_nil]
    rfl
  | some a =>
    obtain ⟨ha, hle⟩ := (argmin_eq_some hinj).mp hmin
    exact (argmin_eq_some hinj).mpr ⟨h.mem_iff.mpr ha, fun b hb => hle b (h.mem_iff.mp hb)⟩

/-- The first entry of a sorted list. -/
theorem head?_sortBy (hinj : Function.Injective key) : (sortBy key l).head? = l.argmin key := by
  have : Std.Total fun a b : α => key a ≤ key b := ⟨fun a b => le_total _ _⟩
  have : IsTrans α fun a b : α => key a ≤ key b := ⟨fun a b c => le_trans⟩
  have hsorted : (sortBy key l).Pairwise fun a b => key a ≤ key b := List.pairwise_insertionSort _ l
  rw [← argmin_perm hinj (perm_sortBy key l)]
  cases hl : sortBy key l with
  | nil => rfl
  | cons a rest =>
    rw [hl] at hsorted
    symm
    refine (argmin_eq_some hinj).mpr ⟨List.mem_cons_self, fun b hb => ?_⟩
    rcases List.mem_cons.mp hb with rfl | hb
    · exact le_rfl
    · exact (List.pairwise_cons.mp hsorted).1 b hb

end Least

section Newest

/-- The first of the rows with the largest time: `ORDER BY time DESC LIMIT 1`. -/
def newest (time : α → ℤ) (l : List α) : Option α :=
  letI : Preorder ℤ := Int.instLinearOrder.toPreorder
  l.argmax time

variable {time : α → ℤ}

@[simp] theorem newest_eq_none : newest time l = none ↔ l = [] := List.argmax_eq_none

theorem mem_of_newest (h : newest time l = some a) : a ∈ l := List.argmax_mem h

theorem le_of_newest (h : newest time l = some a) {b : α} (hb : b ∈ l) : time b ≤ time a :=
  List.le_of_mem_argmax hb h

end Newest

end Sorted

/-! Stretches of keys in which every item is done or still to come: what a reader with a
cursor knows of the items behind it. -/
namespace Coverage
open Sorted

variable {α K : Type*} [LinearOrder K] {key : α → K} {items items' : Set α}
  {done done' : α → Prop} {low mid high : K} {rest rest' : List α} {a : α} {n : ℕ}

/-- Every item with a key in `(low, high]` is done or one of the rest. -/
def Covered (key : α → K) (items : Set α) (done : α → Prop) (low high : K) (rest : List α) :
    Prop :=
  ∀ x ∈ items, low < key x → key x ≤ high → done x ∨ x ∈ rest

theorem covered_self (key : α → K) (items : Set α) (done : α → Prop) (low : K)
    (rest : List α) : Covered key items done low low rest :=
  fun _ _ hlow hhigh => absurd hlow (not_lt.mpr hhigh)

/-- Fewer items up to the end of the stretch, and more of them done. -/
theorem Covered.mono (h : Covered key items done low high rest)
    (hitems : ∀ x ∈ items', key x ≤ high → x ∈ items) (hdone : ∀ x, done x → done' x) :
    Covered key items' done' low high rest := by
  intro x hx hlow hhigh
  exact (h x (hitems x hx hhigh) hlow hhigh).imp_left (hdone x)

/-- A stretch goes on where the one before it ends. -/
theorem Covered.trans (h : Covered key items done low mid [])
    (h' : Covered key items done mid high rest) : Covered key items done low high rest := by
  intro x hx hlow hhigh
  by_cases hmid : key x ≤ mid
  · exact (h x hx hlow hmid).imp_right fun hnil => absurd hnil (List.not_mem_nil)
  · exact h' x hx (not_le.mp hmid) hhigh

/-- Doing the first items of the rest leaves the others. -/
theorem Covered.drop (h : Covered key items done low high rest)
    (hdone : ∀ x ∈ rest.take n, done x) : Covered key items done low high (rest.drop n) := by
  intro x hx hlow hhigh
  rcases h x hx hlow hhigh with hx | hx
  · exact Or.inl hx
  rw [← List.take_append_drop n rest] at hx
  exact (List.mem_append.mp hx).imp_left (hdone x)

/-- Before the first of the rest nothing is left. -/
theorem Covered.before_head (h : Covered key items done low high (a :: rest))
    (hinc : Increasing key (a :: rest)) (hmid : mid < key a) (hle : mid ≤ high) :
    Covered key items done low mid [] := by
  intro x hx hlow hx_mid
  refine Or.inl ((h x hx hlow (hx_mid.trans hle)).resolve_right fun hrest => ?_)
  rcases List.mem_cons.mp hrest with rfl | hrest
  · exact absurd hmid (not_lt.mpr hx_mid)
  · have hlt := (List.pairwise_cons.mp hinc).1 x hrest
    exact absurd (hmid.trans hlt) (not_lt.mpr hx_mid)

end Coverage
