import Mathlib.Data.Set.Basic
import Mathlib.Tactic.Tauto

/-! Segment patterns over any alphabet with one wildcard. Inside a pattern the
wildcard stands for exactly one segment, at its end for one or more. A pattern is
itself a segment list, so one pattern can be compared with another as if the second
were a name; transitivity is what makes that comparison sound. -/
namespace Wildcard
variable {σ : Type*} {star a b : σ} {p q r : List σ}

/-- `Covers star p q`: the pattern `p` accepts the segments `q`. -/
inductive Covers (star : σ) : List σ → List σ → Prop
  | nil : Covers star [] []
  | rest (a : σ) (q : List σ) : Covers star [star] (a :: q)
  | any (a : σ) {p q : List σ} : Covers star p q → Covers star (star :: p) (a :: q)
  | seg (a : σ) {p q : List σ} : Covers star p q → Covers star (a :: p) (a :: q)

theorem Covers.refl (star : σ) : ∀ p : List σ, Covers star p p
  | [] => .nil
  | a :: p => .seg a (refl star p)

theorem covers_nil_right : Covers star p [] ↔ p = [] :=
  ⟨fun h => by cases h; rfl, by rintro rfl; exact .nil⟩

theorem covers_nil_left : Covers star [] q ↔ q = [] :=
  ⟨fun h => by cases h; rfl, by rintro rfl; exact .nil⟩

theorem covers_star : Covers star [star] q ↔ q ≠ [] := by
  cases q with
  | nil => simp [covers_nil_right]
  | cons a q => exact ⟨fun _ => by simp, fun _ => .rest a q⟩

theorem covers_cons (h : a ≠ star ∨ p ≠ []) :
    Covers star (a :: p) (b :: q) ↔ (a = star ∨ a = b) ∧ Covers star p q := by
  constructor
  · intro hc
    cases hc with
    | rest => simp at h
    | any _ hc => exact ⟨.inl rfl, hc⟩
    | seg _ hc => exact ⟨.inr rfl, hc⟩
  · rintro ⟨rfl | rfl, hc⟩
    · exact .any b hc
    · exact .seg a hc

/-- A pattern that accepts a second pattern accepts all that the second accepts. -/
theorem Covers.trans (h : Covers star p q) (h' : Covers star q r) : Covers star p r := by
  induction h generalizing r with
  | nil => exact h'
  | rest a q => cases h' <;> exact .rest _ _
  | any a h ih =>
    cases h' with
    | rest => rw [covers_nil_right.mp h]; exact .rest _ _
    | any b h' => exact .any b (ih h')
    | seg _ h' => exact .any _ (ih h')
  | seg a h ih =>
    cases h' with
    | rest => rw [covers_nil_right.mp h]; exact .rest _ _
    | any b h' => exact .any b (ih h')
    | seg _ h' => exact .seg _ (ih h')

/-- What a pattern accepts. -/
def accepts (star : σ) (p : List σ) : Set (List σ) := {q | Covers star p q}

/-- Comparing two patterns as strings decides containment of what they accept. -/
theorem accepts_subset_iff : accepts star q ⊆ accepts star p ↔ Covers star p q :=
  ⟨fun h => h (Covers.refl star q), fun h _ hr => h.trans hr⟩

theorem covers_cons_nil : ¬ Covers star (a :: p) [] := nofun

theorem covers_map_meet {o : Option (List σ)} {s c : σ} (ho : ∀ m, o = some m → s ≠ star ∨ m ≠ []) :
    (∃ m, o.map (s :: ·) = some m ∧ Covers star m (c :: r)) ↔
      (s = star ∨ s = c) ∧ ∃ m, o = some m ∧ Covers star m r := by
  constructor
  · rintro ⟨m, hm, hcovers⟩
    obtain ⟨m', hm', rfl⟩ := Option.map_eq_some_iff.mp hm
    obtain ⟨hhead, htail⟩ := (covers_cons (ho m' hm')).mp hcovers
    exact ⟨hhead, m', hm', htail⟩
  · rintro ⟨hhead, m, hm, hcovers⟩
    exact ⟨s :: m, by rw [hm]; rfl, (covers_cons (ho m hm)).mpr ⟨hhead, hcovers⟩⟩

section Meet
variable [DecidableEq σ] {m : List σ}

/-- The pattern of what two patterns both accept, where there is such. -/
def meet (star : σ) : List σ → List σ → Option (List σ)
  | [], [] => some []
  | a :: p, b :: q =>
    if a = star ∧ p = [] then some (b :: q)
    else if b = star ∧ q = [] then some (a :: p)
    else if a = star then (meet star p q).map (b :: ·)
    else if b = star ∨ b = a then (meet star p q).map (a :: ·)
    else none
  | [], _ :: _ => none
  | _ :: _, [] => none

theorem meet_ne_nil (h : meet star p q = some m) (hp : p ≠ []) : m ≠ [] := by
  cases p with
  | nil => exact absurd rfl hp
  | cons a p =>
    cases q with
    | nil => cases h
    | cons b q =>
      rw [meet] at h
      split_ifs at h
      · cases h
        exact List.cons_ne_nil _ _
      · cases h
        exact List.cons_ne_nil _ _
      · obtain ⟨m', -, rfl⟩ := Option.map_eq_some_iff.mp h
        exact List.cons_ne_nil _ _
      · obtain ⟨m', -, rfl⟩ := Option.map_eq_some_iff.mp h
        exact List.cons_ne_nil _ _

theorem mem_of_meet (h : meet star p q = some m) : ∀ s ∈ m, s ∈ p ∨ s ∈ q := by
  induction p generalizing q m with
  | nil =>
    cases q with
    | nil =>
      cases h
      nofun
    | cons b q => cases h
  | cons a p ih =>
    cases q with
    | nil => cases h
    | cons b q =>
      have htail : ∀ {m'}, meet star p q = some m' → ∀ s ∈ m', s ∈ a :: p ∨ s ∈ b :: q := fun hm s hs =>
        (ih hm s hs).imp (List.mem_cons_of_mem a) (List.mem_cons_of_mem b)
      rw [meet] at h
      split_ifs at h
      · cases h
        exact fun s => Or.inr
      · cases h
        exact fun s => Or.inl
      · obtain ⟨m', hm', rfl⟩ := Option.map_eq_some_iff.mp h
        exact List.forall_mem_cons.mpr ⟨Or.inr List.mem_cons_self, htail hm'⟩
      · obtain ⟨m', hm', rfl⟩ := Option.map_eq_some_iff.mp h
        exact List.forall_mem_cons.mpr ⟨Or.inl List.mem_cons_self, htail hm'⟩

/-- The meet accepts what both patterns accept. -/
theorem covers_meet : (∃ m, meet star p q = some m ∧ Covers star m r) ↔
    Covers star p r ∧ Covers star q r := by
  induction p generalizing q r with
  | nil =>
    cases q with
    | nil => simp [meet]
    | cons b q =>
      rw [meet, covers_nil_left]
      refine iff_of_false (by simp) ?_
      rintro ⟨rfl, h⟩
      cases h
  | cons a p ih =>
    cases q with
    | nil =>
      rw [meet, covers_nil_left]
      refine iff_of_false (by simp) ?_
      rintro ⟨h, rfl⟩
      cases h
    | cons b q =>
      rw [meet]
      have hnil : ∀ s : σ, ¬ ∃ m, (meet star p q).map (s :: ·) = some m ∧ Covers star m [] := by
        rintro s ⟨m, hm, hcovers⟩
        obtain ⟨m', -, rfl⟩ := Option.map_eq_some_iff.mp hm
        cases hcovers
      split_ifs with hrest hrest' ha hb
      · obtain ⟨rfl, rfl⟩ := hrest
        rw [covers_star]
        simp only [Option.some.injEq, exists_eq_left', iff_and_self]
        rintro h rfl
        cases h
      · obtain ⟨rfl, rfl⟩ := hrest'
        rw [covers_star]
        simp only [Option.some.injEq, exists_eq_left', iff_self_and]
        rintro h rfl
        cases h
      · have hp : p ≠ [] := fun hp => hrest ⟨ha, hp⟩
        cases r with
        | nil => exact iff_of_false (hnil b) fun h => covers_cons_nil h.1
        | cons c r =>
          rw [covers_map_meet fun m hm => Or.inr (meet_ne_nil hm hp), ih, covers_cons (Or.inr hp),
            covers_cons (not_and_or.mp hrest')]
          tauto
      · cases r with
        | nil => exact iff_of_false (hnil a) fun h => covers_cons_nil h.1
        | cons c r =>
          rw [covers_map_meet fun m hm => Or.inl ha, ih, covers_cons (Or.inl ha),
            covers_cons (not_and_or.mp hrest')]
          constructor
          · rintro ⟨hac, hp, hq⟩
            refine ⟨⟨hac, hp⟩, ?_, hq⟩
            rcases hb with hb | rfl
            · exact Or.inl hb
            · exact hac
          · rintro ⟨⟨hac, hp⟩, -, hq⟩
            exact ⟨hac, hp, hq⟩
      · refine iff_of_false (by simp) ?_
        rintro ⟨hp, hq⟩
        cases r with
        | nil => cases hp
        | cons c r =>
          obtain ⟨hac, -⟩ := (covers_cons (Or.inl ha)).mp hp
          obtain ⟨hbc, -⟩ := (covers_cons (not_and_or.mp hrest')).mp hq
          obtain rfl := hac.resolve_left ha
          exact hb hbc

end Meet

section Instance
variable [DecidableEq σ] {u m : List σ} {f : σ}

/-- A name of a pattern, with the segment `f` where it has wildcards. -/
def fresh (star f : σ) (m : List σ) : List σ := m.map fun s => if s = star then f else s

theorem covers_fresh : Covers star m (fresh star f m) := by
  induction m with
  | nil => exact .nil
  | cons s m ih =>
    by_cases hs : s = star
    · rw [hs, fresh, List.map_cons, if_pos rfl]
      exact .any f ih
    · rw [fresh, List.map_cons, if_neg hs]
      exact .seg s ih

theorem star_notMem_fresh (hf : f ≠ star) : star ∉ fresh star f m := by
  rw [fresh, List.mem_map]
  rintro ⟨s, -, hs⟩
  split_ifs at hs with h
  · exact hf hs
  · exact h hs

/-- A pattern that accepts a name made with a segment it does not hold accepts the whole pattern. -/
theorem covers_of_fresh (hf : f ∉ u) (h : Covers star u (fresh star f m)) : Covers star u m := by
  generalize hr : fresh star f m = r at h
  induction h generalizing m with
  | nil =>
    rw [fresh, List.map_eq_nil_iff] at hr
    rw [hr]
    exact .nil
  | rest a q =>
    obtain ⟨s, m', rfl, -, -⟩ := List.map_eq_cons_iff.mp hr
    exact .rest s m'
  | any a _ ih =>
    obtain ⟨s, m', rfl, -, hm'⟩ := List.map_eq_cons_iff.mp hr
    exact .any s (ih (fun h => hf (List.mem_cons_of_mem _ h)) hm')
  | seg a _ ih =>
    obtain ⟨s, m', rfl, hs, hm'⟩ := List.map_eq_cons_iff.mp hr
    have hrest := ih (fun h => hf (List.mem_cons_of_mem _ h)) hm'
    split_ifs at hs with hstar
    · rw [hs] at hf
      exact absurd List.mem_cons_self hf
    · rw [hs]
      exact .seg a hrest

end Instance

end Wildcard
