import Mathlib.Data.List.Basic
import Mathlib.Data.List.TakeWhile
import Mathlib.Logic.Nontrivial.Defs

/-! Words of letters and atoms, an atom standing for a text that is not known. Written out with a
mark for each atom, a word is read back by a scanner that finds the marks. -/
namespace Words
variable {α R : Type*}

abbrev Word (α R : Type*) := List (α ⊕ R)

def letters (s : List α) : Word α R := s.map Sum.inl

/-- The word with a text for each atom. -/
def fill (f : R → List α) (w : Word α R) : List α := w.flatMap (Sum.elim (fun a => [a]) f)

section Fill
variable {f : R → List α} {w w' : Word α R} {a : α} {r : R} {s : List α}

@[simp] theorem fill_nil : fill f ([] : Word α R) = [] := rfl

@[simp] theorem fill_letter : fill f (Sum.inl a :: w) = a :: fill f w := rfl

@[simp] theorem fill_atom : fill f (Sum.inr r :: w) = f r ++ fill f w := rfl

@[simp] theorem fill_append : fill f (w ++ w') = fill f w ++ fill f w' := List.flatMap_append

@[simp] theorem fill_letters : fill f (letters s) = s := by
  induction s with
  | nil => rfl
  | cons a s ih => rw [letters, List.map_cons, fill_letter]; exact congrArg _ ih

theorem fill_congr {g : R → List α} (h : ∀ r, Sum.inr r ∈ w → f r = g r) : fill f w = fill g w := by
  induction w with
  | nil => rfl
  | cons x w ih =>
    have ih := ih fun r hr => h r (List.mem_cons_of_mem x hr)
    cases x with
    | inl a => rw [fill_letter, fill_letter, ih]
    | inr r => rw [fill_atom, fill_atom, ih, h r (List.mem_cons_self ..)]

/-- Words that are the same text whatever the atoms stand for are the same word. -/
theorem eq_of_fill [Nontrivial α] [DecidableEq R] (h : ∀ f, fill f w = fill f w') : w = w' := by
  induction w generalizing w' with
  | nil =>
    cases w' with
    | nil => rfl
    | cons t w' =>
      obtain ⟨a, -, -⟩ := exists_pair_ne α
      have ha := h fun _ => [a]
      cases t <;> cases ha
  | cons t w ih =>
    cases w' with
    | nil =>
      obtain ⟨a, -, -⟩ := exists_pair_ne α
      have ha := h fun _ => [a]
      cases t <;> cases ha
    | cons t' w' =>
      have hhead : t = t' := by
        cases t with
        | inl a =>
          cases t' with
          | inl a' =>
            obtain ⟨b, -, -⟩ := exists_pair_ne α
            exact congrArg Sum.inl (List.cons.inj (h fun _ => [b])).1
          | inr r' =>
            obtain ⟨b, hb⟩ := exists_ne a
            exact absurd (List.cons.inj (h fun _ => [b])).1 hb.symm
        | inr r =>
          cases t' with
          | inl a' =>
            obtain ⟨b, hb⟩ := exists_ne a'
            exact absurd (List.cons.inj (h fun _ => [b])).1 hb
          | inr r' =>
            by_contra hne
            obtain ⟨a, b, hab⟩ := exists_pair_ne α
            have hr : r' ≠ r := fun heq => hne (congrArg Sum.inr heq.symm)
            have hfill := h fun x => if x = r then [a] else [b]
            rw [fill_atom, fill_atom, if_pos rfl, if_neg hr] at hfill
            exact hab (List.cons.inj hfill).1
      subst hhead
      refine congrArg _ (ih fun f => ?_)
      cases t with
      | inl a => exact (List.cons.inj (h f)).2
      | inr r => exact List.append_cancel_left (h f)

end Fill

/-- Reads a text from the left: where a mark starts it is read as its atom, and `find` says how
long it is. The first `skip` letters are of a mark that has been read. -/
def scan (find : List α → Option (R × ℕ)) : ℕ → List α → Word α R
  | _, [] => []
  | skip + 1, _ :: s => scan find skip s
  | 0, a :: s =>
    match find (a :: s) with
    | some (r, n) => Sum.inr r :: scan find (n - 1) s
    | none => Sum.inl a :: scan find 0 s

section Scan
variable {find : List α → Option (R × ℕ)} {mark : R → List α} {w : Word α R} {s t : List α} {r : R}

/-- What `find` finds is the mark of the atom. -/
def Finds (find : List α → Option (R × ℕ)) (mark : R → List α) : Prop :=
  ∀ s r n, find s = some (r, n) → ∃ t, s = mark r ++ t ∧ n = (mark r).length ∧ 0 < n

theorem fill_scan_drop (h : Finds find mark) (skip : ℕ) (s : List α) :
    fill mark (scan find skip s) = s.drop skip := by
  induction s generalizing skip with
  | nil =>
    rw [List.drop_nil]
    cases skip <;> rfl
  | cons a s ih =>
    cases skip with
    | succ skip => exact ih skip
    | zero =>
      rw [scan]
      split
      · next r n hfind =>
        obtain ⟨t, heq, hn, hpos⟩ := h _ _ _ hfind
        rw [fill_atom, ih, List.drop_zero]
        obtain ⟨m, rfl⟩ : ∃ m, n = m + 1 := ⟨n - 1, by omega⟩
        have hdrop : (a :: s).drop (m + 1) = t := by rw [heq, hn, List.drop_left]
        rw [Nat.add_sub_cancel, ← List.drop_succ_cons (a := a), hdrop, heq]
      · rw [fill_letter, ih]
        rfl

/-- Nothing of a text is lost when it is scanned. -/
theorem fill_scan (h : Finds find mark) (s : List α) : fill mark (scan find 0 s) = s :=
  fill_scan_drop h 0 s

theorem scan_append_left (find : List α → Option (R × ℕ)) (s t : List α) :
    scan find s.length (s ++ t) = scan find 0 t := by
  induction s with
  | nil => rfl
  | cons a s ih => exact ih

/-- A written word is read back where marks start at its atoms only. -/
theorem scan_fill (hfind : ∀ r, Sum.inr r ∈ w → ∀ t, find (mark r ++ t) = some (r, (mark r).length))
    (hpos : ∀ r, Sum.inr r ∈ w → mark r ≠ []) (hletter : ∀ a, Sum.inl a ∈ w → ∀ t, find (a :: t) = none) :
    scan find 0 (fill mark w) = w := by
  induction w with
  | nil => rfl
  | cons x w ih =>
    have ih := ih (fun r hr => hfind r (List.mem_cons_of_mem x hr))
      (fun r hr => hpos r (List.mem_cons_of_mem x hr))
      (fun a ha => hletter a (List.mem_cons_of_mem x ha))
    cases x with
    | inl a =>
      rw [fill_letter, scan, hletter a (List.mem_cons_self ..)]
      exact congrArg _ ih
    | inr r =>
      obtain ⟨a, m, hm⟩ := List.exists_cons_of_ne_nil (hpos r (List.mem_cons_self ..))
      have hfound := hfind r (List.mem_cons_self ..) (fill mark w)
      rw [hm, List.cons_append] at hfound
      rw [fill_atom, hm, List.cons_append, scan, hfound]
      dsimp only
      rw [List.length_cons, Nat.add_sub_cancel, scan_append_left, ih]

end Scan
end Words
