import Mathlib.Data.List.Basic
import Mathlib.Data.List.Nodup
import Mathlib.Data.List.Perm.Basic

/-! One greedy pass over a list of candidates: each is taken unless what has been taken so far
blocks it. -/
namespace Greedy

variable {α : Type*} {blocked : List α → α → Bool} {base ws pre post : List α} {o b w : α}

/-- The candidates passed over and those taken, each in order. -/
def pass (blocked : List α → α → Bool) : List α → List α → List α × List α
  | _, [] => ([], [])
  | base, w :: ws =>
      if blocked base w = true then (w :: (pass blocked base ws).1, (pass blocked base ws).2)
      else ((pass blocked (base ++ [w]) ws).1, w :: (pass blocked (base ++ [w]) ws).2)

def kept (blocked : List α → α → Bool) (base ws : List α) : List α := (pass blocked base ws).1

def taken (blocked : List α → α → Bool) (base ws : List α) : List α := (pass blocked base ws).2

@[simp] theorem kept_nil : kept blocked base [] = [] := rfl

@[simp] theorem taken_nil : taken blocked base [] = [] := rfl

theorem pass_of_block (h : blocked base w = true) :
    pass blocked base (w :: ws) = (w :: kept blocked base ws, taken blocked base ws) := if_pos h

theorem pass_of_free (h : ¬ blocked base w = true) :
    pass blocked base (w :: ws) = (kept blocked (base ++ [w]) ws, w :: taken blocked (base ++ [w]) ws) := if_neg h

theorem kept_cons_of_blocked (h : blocked base w = true) :
    kept blocked base (w :: ws) = w :: kept blocked base ws :=
  (congrArg Prod.fst (pass_of_block h) :)

theorem taken_cons_of_blocked (h : blocked base w = true) :
    taken blocked base (w :: ws) = taken blocked base ws :=
  (congrArg Prod.snd (pass_of_block h) :)

theorem kept_cons_of_free (h : ¬ blocked base w = true) :
    kept blocked base (w :: ws) = kept blocked (base ++ [w]) ws :=
  (congrArg Prod.fst (pass_of_free h) :)

theorem taken_cons_of_free (h : ¬ blocked base w = true) :
    taken blocked base (w :: ws) = w :: taken blocked (base ++ [w]) ws :=
  (congrArg Prod.snd (pass_of_free h) :)

theorem perm_pass (blocked : List α → α → Bool) (base ws : List α) :
    (kept blocked base ws ++ taken blocked base ws).Perm ws := by
  induction ws generalizing base with
  | nil => exact List.Perm.refl _
  | cons w ws ih =>
    by_cases h : blocked base w = true
    · rw [kept_cons_of_blocked h, taken_cons_of_blocked h]
      exact (ih base).cons w
    · rw [kept_cons_of_free h, taken_cons_of_free h]
      exact List.perm_middle.trans ((ih (base ++ [w])).cons w)

theorem kept_sublist (base ws : List α) : (kept blocked base ws).Sublist ws := by
  induction ws generalizing base with
  | nil => exact List.Sublist.slnil
  | cons w ws ih =>
    by_cases h : blocked base w = true
    · rw [kept_cons_of_blocked h]
      exact (ih base).cons_cons w
    · rw [kept_cons_of_free h]
      exact (ih _).cons w

theorem taken_sublist (base ws : List α) : (taken blocked base ws).Sublist ws := by
  induction ws generalizing base with
  | nil => exact List.Sublist.slnil
  | cons w ws ih =>
    by_cases h : blocked base w = true
    · rw [taken_cons_of_blocked h]
      exact (ih base).cons w
    · rw [taken_cons_of_free h]
      exact (ih _).cons_cons w

/-- At the moment a candidate is taken, nothing taken so far blocks it. -/
theorem free_of_taken (h : taken blocked base ws = pre ++ b :: post) :
    blocked (base ++ pre) b = false := by
  induction ws generalizing base pre with
  | nil => simp at h
  | cons w ws ih =>
    by_cases hw : blocked base w = true
    · rw [taken_cons_of_blocked hw] at h
      exact ih h
    · rw [taken_cons_of_free hw] at h
      cases pre with
      | nil =>
        obtain ⟨rfl, -⟩ := List.cons.inj h
        simpa using hw
      | cons p pre =>
        obtain ⟨rfl, hrest⟩ := List.cons.inj h
        rw [List.append_cons]
        exact ih hrest

theorem pass_of_blocked (h : ∀ w ∈ ws, blocked base w = true) :
    kept blocked base ws = ws ∧ taken blocked base ws = [] := by
  induction ws with
  | nil => exact ⟨rfl, rfl⟩
  | cons w ws ih =>
    obtain ⟨hkept, htaken⟩ := ih fun v hv => h v (List.mem_cons_of_mem w hv)
    have hw := h w List.mem_cons_self
    exact ⟨by rw [kept_cons_of_blocked hw, hkept], by rw [taken_cons_of_blocked hw, htaken]⟩

/-- What taking an unblocked candidate preserves holds when the pass is over. -/
theorem taken_invariant {P : List α → Prop} (hbase : P base)
    (hstep : ∀ l w, P l → blocked l w = false → P (l ++ [w])) :
    P (base ++ taken blocked base ws) := by
  induction ws generalizing base with
  | nil => simpa using hbase
  | cons w ws ih =>
    by_cases h : blocked base w = true
    · rw [taken_cons_of_blocked h]
      exact ih hbase
    · rw [taken_cons_of_free h, List.append_cons]
      exact ih (hstep base w hbase (by simpa using h))

/-- Two members of a list stand in it as they stand in a list it was taken from. -/
theorem pair_sublist {l : List α} (hsub : l.Sublist ws) (hnodup : ws.Nodup)
    (horder : [o, b].Sublist ws) (ho : o ∈ l) (hb : b ∈ l) : [o, b].Sublist l := by
  induction hsub with
  | slnil => cases ho
  | cons x hsub ih =>
    obtain ⟨hx, hws⟩ := List.nodup_cons.mp hnodup
    cases horder with
    | cons _ horder => exact ih hws horder ho hb
    | cons_cons _ _ => exact absurd (hsub.subset ho) hx
  | cons_cons x hsub ih =>
    obtain ⟨hx, hws⟩ := List.nodup_cons.mp hnodup
    cases horder with
    | cons _ horder =>
      have ho' : o ≠ x := fun heq => hx (heq ▸ horder.subset (by simp))
      have hb' : b ≠ x := fun heq => hx (heq ▸ horder.subset (by simp))
      exact (ih hws horder (List.mem_of_ne_of_mem ho' ho) (List.mem_of_ne_of_mem hb' hb)).cons x
    | cons_cons _ horder =>
      have hb' : b ≠ o := fun heq => hx (heq ▸ List.singleton_sublist.mp horder)
      exact (List.singleton_sublist.mpr (List.mem_of_ne_of_mem hb' hb)).cons_cons o

section Monotone
variable (hmono : ∀ l r x, blocked l x = true → blocked (l ++ r) x = true)
include hmono

/-- Whoever is passed over is still blocked when the pass is over. -/
theorem blocked_of_kept (h : w ∈ kept blocked base ws) :
    blocked (base ++ taken blocked base ws) w = true := by
  induction ws generalizing base with
  | nil => cases h
  | cons v ws ih =>
    by_cases hv : blocked base v = true
    · rw [kept_cons_of_blocked hv] at h
      rw [taken_cons_of_blocked hv]
      rcases List.mem_cons.mp h with rfl | h
      · exact hmono _ _ _ hv
      · exact ih h
    · rw [kept_cons_of_free hv] at h
      rw [taken_cons_of_free hv, List.append_cons]
      exact ih h

/-- A candidate is taken ahead of an earlier one only while the earlier one is blocked. -/
theorem blocked_of_passed_over (hnodup : ws.Nodup) (horder : [o, b].Sublist ws)
    (h : taken blocked base ws = pre ++ b :: post) (ho : o ∉ pre) :
    blocked (base ++ pre) o = true := by
  induction ws generalizing base pre with
  | nil => simp at h
  | cons w ws ih =>
    obtain ⟨hw, hws⟩ := List.nodup_cons.mp hnodup
    have hcases : [o, b].Sublist ws ∨ (o = w ∧ b ∈ ws) := by
      cases horder with
      | cons _ horder => exact Or.inl horder
      | cons_cons _ horder => exact Or.inr ⟨rfl, List.singleton_sublist.mp horder⟩
    by_cases hblocked : blocked base w = true
    · rw [taken_cons_of_blocked hblocked] at h
      rcases hcases with horder | ⟨rfl, -⟩
      · exact ih hws horder h ho
      · exact hmono _ _ _ hblocked
    · rw [taken_cons_of_free hblocked] at h
      have hb : b ∈ ws := by
        rcases hcases with horder | ⟨-, hb⟩
        · exact horder.subset (by simp)
        · exact hb
      cases pre with
      | nil =>
        obtain ⟨rfl, -⟩ := List.cons.inj h
        exact absurd hb hw
      | cons p pre =>
        obtain ⟨rfl, hrest⟩ := List.cons.inj h
        rw [List.mem_cons, not_or] at ho
        rw [List.append_cons]
        exact ih hws (hcases.resolve_right fun h => ho.1 h.1) hrest ho.2

end Monotone
end Greedy
