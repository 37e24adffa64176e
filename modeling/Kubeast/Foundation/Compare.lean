import Kubeast.Foundation.Sorted
import Mathlib.Data.Prod.Lex
import Mathlib.Data.List.Lex
import Mathlib.Data.Int.Order.Basic

/-! Comparison functions that answer with a sign, and the keys whose order they give. -/
namespace Compare

variable {α : Type*} {K L : Type*} [LinearOrder K] [LinearOrder L] {P : α → Prop} {cmp cmp' : α → α → ℤ}
  {key : α → K} {key' : α → L}

/-- `cmp.Compare`. -/
def ordered (a b : K) : ℤ := if a < b then -1 else if b < a then 1 else 0

/-- Between members that meet `P` the comparison has the sign of the keys' order. -/
structure Signs (P : α → Prop) (cmp : α → α → ℤ) (key : α → K) : Prop where
  neg : ∀ {a b}, P a → P b → (cmp a b < 0 ↔ key a < key b)
  pos : ∀ {a b}, P a → P b → (0 < cmp a b ↔ key b < key a)

/-- `slices.SortFunc` by a comparison that tells all members apart. -/
def sortFunc (cmp : α → α → ℤ) (l : List α) : List α := l.insertionSort fun a b => cmp a b ≤ 0

theorem ordered_lt {a b : K} : ordered a b < 0 ↔ a < b := by
  unfold ordered
  split_ifs with hlt hgt
  · exact iff_of_true (by decide) hlt
  · exact iff_of_false (by decide) hlt
  · exact iff_of_false (by decide) hlt

theorem ordered_gt {a b : K} : 0 < ordered a b ↔ b < a := by
  unfold ordered
  split_ifs with hlt hgt
  · exact iff_of_false (by decide) (not_lt_of_gt hlt)
  · exact iff_of_true (by decide) hgt
  · exact iff_of_false (by decide) hgt

theorem ordered_congr {a b : K} {c d : L} (hlt : a < b ↔ c < d) (hgt : b < a ↔ d < c) : ordered a b = ordered c d := by
  unfold ordered
  by_cases h : c < d
  · rw [if_pos (hlt.mpr h), if_pos h]
  · rw [if_neg (hlt.not.mpr h), if_neg h]
    by_cases h' : d < c
    · rw [if_pos (hgt.mpr h'), if_pos h']
    · rw [if_neg (hgt.not.mpr h'), if_neg h']

theorem ordered_signs (key : α → K) : Signs P (fun a b => ordered (key a) (key b)) key :=
  ⟨fun _ _ => ordered_lt, fun _ _ => ordered_gt⟩

namespace Signs

theorem eq_zero (h : Signs P cmp key) {a b : α} (ha : P a) (hb : P b) : cmp a b = 0 ↔ key a = key b := by
  have hneg := h.neg ha hb
  have hpos := h.pos ha hb
  constructor
  · intro hzero
    refine le_antisymm (not_lt.mp fun hlt => ?_) (not_lt.mp fun hlt => ?_)
    · exact absurd (hpos.mpr hlt) (by omega)
    · exact absurd (hneg.mpr hlt) (by omega)
  · intro hkey
    rw [hkey] at hneg hpos
    have hnotneg : ¬cmp a b < 0 := fun hlt => lt_irrefl _ (hneg.mp hlt)
    have hnotpos : ¬0 < cmp a b := fun hlt => lt_irrefl _ (hpos.mp hlt)
    omega

theorem congr (h : Signs P cmp key) (heq : ∀ a b, cmp' a b = cmp a b) : Signs P cmp' key := by
  have hcmp : cmp' = cmp := funext fun a => funext (heq a)
  rwa [hcmp]

/-- The same order by another key. -/
theorem rekey (h : Signs P cmp key) (hlt : ∀ a b, key a < key b ↔ key' a < key' b) : Signs P cmp key' :=
  ⟨fun ha hb => (h.neg ha hb).trans (hlt _ _), fun ha hb => (h.pos ha hb).trans (hlt _ _)⟩

theorem negated (h : Signs P cmp key) : Signs P (fun a b => -cmp a b) (OrderDual.toDual ∘ key) :=
  ⟨fun ha hb => Int.neg_neg_iff_pos.trans (h.pos ha hb), fun ha hb => Int.neg_pos.trans (h.neg ha hb)⟩

/-- One comparison, and where it finds no difference another. -/
theorem thenBy (h : Signs P cmp key) (h' : Signs P cmp' key') :
    Signs P (fun a b => if cmp a b ≠ 0 then cmp a b else cmp' a b) fun a => toLex (key a, key' a) := by
  constructor <;> intro a b ha hb <;> rw [Prod.Lex.toLex_lt_toLex] <;> have hzero := h.eq_zero ha hb
  · by_cases hab : cmp a b = 0
    · have hkey := hzero.mp hab
      simp only [hab, hkey, ne_eq, not_true_eq_false, if_false, h'.neg ha hb, lt_irrefl, false_or, true_and]
    · have hkey : key a ≠ key b := fun e => hab (hzero.mpr e)
      simp only [hab, hkey, ne_eq, not_false_eq_true, if_true, h.neg ha hb, false_and, or_false]
  · by_cases hab : cmp a b = 0
    · have hkey := hzero.mp hab
      simp only [hab, hkey, ne_eq, not_true_eq_false, if_false, h'.pos ha hb, lt_irrefl, false_or, true_and]
    · have hkey : key b ≠ key a := fun e => hab (hzero.mpr e.symm)
      simp only [hab, hkey, ne_eq, not_false_eq_true, if_true, h.pos ha hb, false_and, or_false]

end Signs

section Insertion
variable {r r' : α → α → Prop} [DecidableRel r] [DecidableRel r'] {l : List α} {a : α}

theorem orderedInsert_congr (h : ∀ b ∈ l, r a b ↔ r' a b) : l.orderedInsert r a = l.orderedInsert r' a := by
  induction l with
  | nil => rfl
  | cons b l ih =>
    obtain ⟨hb, hl⟩ := List.forall_mem_cons.mp h
    simp only [List.orderedInsert, hb, ih hl]

theorem insertionSort_congr (h : ∀ a ∈ l, ∀ b ∈ l, r a b ↔ r' a b) : l.insertionSort r = l.insertionSort r' := by
  induction l with
  | nil => rfl
  | cons a l ih =>
    have hrest := ih fun a ha b hb => h a (List.mem_cons_of_mem _ ha) b (List.mem_cons_of_mem _ hb)
    rw [List.insertionSort_cons, List.insertionSort_cons, hrest]
    refine orderedInsert_congr fun b hb => ?_
    exact h a List.mem_cons_self b (List.mem_cons_of_mem _ ((List.mem_insertionSort _).mp hb))

end Insertion

theorem Signs.sortFunc_eq {l : List α} (h : Signs P cmp key) (hl : ∀ a ∈ l, P a) :
    sortFunc cmp l = Sorted.sortBy key l := by
  refine insertionSort_congr fun a ha b hb => ?_
  rw [← not_lt, h.pos (hl a ha) (hl b hb), not_lt]

end Compare
