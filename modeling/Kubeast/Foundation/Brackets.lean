import Mathlib.Order.Basic
import Mathlib.Order.Lattice

/-! Tables that round a value to that of the first bracket which holds it. What the rounded value
reaches can be read off the brackets, without rounding. -/
namespace Brackets

section Lookup
variable {ρ α β : Type*} (holds : ρ → α → Bool) (value : ρ → β) (last : β)

/-- The value of the first row that holds `a`, `last` behind all of them. -/
def lookup : List ρ → α → β
  | [], _ => last
  | row :: rows, a => if holds row a then value row else lookup rows a

/-- The rows whose value is not enough are behind `a`. -/
def Reaches (p : β → Prop) (rows : List ρ) (a : α) : Prop :=
  p last ∧ ∀ row ∈ rows, ¬ p (value row) → holds row a = false

instance (p : β → Prop) [DecidablePred p] (rows : List ρ) (a : α) :
    Decidable (Reaches holds value last p rows a) :=
  inferInstanceAs (Decidable (_ ∧ ∀ row ∈ rows, _))

/-- The values ascend along the table. -/
def Ascends [LE β] (rows : List ρ) : Prop := (rows.map value ++ [last]).Pairwise (· ≤ ·)

variable {holds value last} {p : β → Prop} {rows : List ρ} {a b : α}

theorem lookup_of_holds {row : ρ} (h : holds row a = true) :
    lookup holds value last (row :: rows) a = value row := if_pos h

theorem lookup_of_not_holds {row : ρ} (h : holds row a = false) :
    lookup holds value last (row :: rows) a = lookup holds value last rows a :=
  if_neg (by rw [h]; decide)

/-- What holds of every value from some on holds of a rounded one exactly where the rows before
have been passed. -/
theorem lookup_iff [Preorder β] (hascends : Ascends value last rows)
    (hp : ∀ {x y}, x ≤ y → p x → p y) :
    p (lookup holds value last rows a) ↔ Reaches holds value last p rows a := by
  induction rows with
  | nil => exact ⟨fun h => ⟨h, nofun⟩, fun h => h.1⟩
  | cons row rows ih =>
    obtain ⟨hfirst, hrest⟩ := List.pairwise_cons.mp hascends
    cases hrow : holds row a with
    | false =>
      rw [lookup_of_not_holds hrow, ih hrest]
      refine and_congr_right fun _ => ?_
      rw [List.forall_mem_cons]
      exact (and_iff_right fun _ => hrow).symm
    | true =>
      rw [lookup_of_holds hrow]
      constructor
      · intro h
        have hafter : ∀ y ∈ rows.map value ++ [last], p y := fun y hy => hp (hfirst y hy) h
        refine ⟨hafter last (by simp), ?_⟩
        rw [List.forall_mem_cons]
        refine ⟨fun hnot => absurd h hnot, fun r hr hnot => absurd (hafter _ ?_) hnot⟩
        exact List.mem_append_left _ (List.mem_map_of_mem hr)
      · intro h
        by_contra hnot
        rw [h.2 row List.mem_cons_self hnot] at hrow
        contradiction

/-- A larger value is not rounded to a smaller one. -/
theorem lookup_mono [Preorder β] (hascends : Ascends value last rows)
    (hholds : ∀ row ∈ rows, holds row a = false → holds row b = false) :
    lookup holds value last rows a ≤ lookup holds value last rows b := by
  have ha := (lookup_iff (p := (lookup holds value last rows a ≤ ·)) hascends
    fun hxy hx => hx.trans hxy).mp le_rfl
  exact (lookup_iff hascends fun hxy hx => hx.trans hxy).mpr
    ⟨ha.1, fun row hrow hnot => hholds row hrow (ha.2 row hrow hnot)⟩

end Lookup
end Brackets
