import Mathlib.Computability.Language

/-! Regular expressions over classes of characters, and their derivatives. An expression accepts the
texts of its language. -/

open Computability

inductive Regex (α : Type*)
  | none
  | eps
  | one (p : α → Bool)
  | seq (r r' : Regex α)
  | alt (r r' : Regex α)
  | star (r : Regex α)

namespace Regex
variable {α : Type*} {r r' : Regex α} {p : α → Bool} {a : α} {s : List α}

/-- The texts that match. -/
def language : Regex α → Language α
  | none => 0
  | eps => 1
  | one p => {s | ∃ a, p a = true ∧ s = [a]}
  | seq r r' => r.language * r'.language
  | alt r r' => r.language + r'.language
  | star r => KStar.kstar r.language

section Derivative

def nullable : Regex α → Bool
  | none => false
  | eps => true
  | one _ => false
  | seq r r' => r.nullable && r'.nullable
  | alt r r' => r.nullable || r'.nullable
  | star _ => true

/-- `seq`, leaving out what cannot match. -/
def then_ : Regex α → Regex α → Regex α
  | none, _ => none
  | r, r' => seq r r'

/-- `alt`, leaving out what cannot match. -/
def or_ : Regex α → Regex α → Regex α
  | none, r' => r'
  | r, none => r
  | r, r' => alt r r'

/-- What has to match behind `a`. -/
def deriv (a : α) : Regex α → Regex α
  | none => none
  | eps => none
  | one p => if p a then eps else none
  | seq r r' =>
    if r.nullable then or_ (then_ (r.deriv a) r') (r'.deriv a) else then_ (r.deriv a) r'
  | alt r r' => or_ (r.deriv a) (r'.deriv a)
  | star r => then_ (r.deriv a) (star r)

/-- Whether a text matches as a whole. -/
def accepts : Regex α → List α → Bool
  | r, [] => r.nullable
  | r, a :: s => (r.deriv a).accepts s

theorem nullable_iff : r.nullable = true ↔ [] ∈ r.language := by
  induction r with
  | none => exact iff_of_false Bool.false_ne_true (Language.notMem_zero _)
  | eps => exact iff_of_true rfl Language.nil_mem_one
  | one p =>
    refine iff_of_false Bool.false_ne_true ?_
    rintro ⟨a, -, h⟩
    exact nomatch h
  | seq r r' ih ih' =>
    rw [nullable, Bool.and_eq_true, ih, ih', language, Language.mem_mul]
    constructor
    · exact fun h => ⟨[], h.1, [], h.2, rfl⟩
    · rintro ⟨u, hu, v, hv, huv⟩
      obtain ⟨rfl, rfl⟩ := List.append_eq_nil_iff.mp huv
      exact ⟨hu, hv⟩
  | alt r r' ih ih' => rw [nullable, Bool.or_eq_true, ih, ih', language, Language.mem_add]
  | star r => exact iff_of_true rfl (Language.nil_mem_kstar _)

theorem language_then : (then_ r r').language = (seq r r').language := by
  cases r <;> simp [then_, language]

theorem language_or : (or_ r r').language = (alt r r').language := by
  by_cases h : r = none
  · rw [h]
    exact (zero_add _).symm
  by_cases h' : r' = none
  · rw [h']
    refine Eq.trans ?_ (add_zero _).symm
    cases r <;> rfl
  · cases r <;> cases r' <;> first | rfl | exact absurd rfl h | exact absurd rfl h'

/-- A text that begins with `a` is split behind what the first part takes of it. -/
theorem cons_mem_mul {l m : Language α} : a :: s ∈ l * m ↔
    ([] ∈ l ∧ a :: s ∈ m) ∨ ∃ u v, u ++ v = s ∧ a :: u ∈ l ∧ v ∈ m := by
  rw [Language.mem_mul]
  constructor
  · rintro ⟨u, hu, v, hv, huv⟩
    cases u with
    | nil => exact Or.inl ⟨hu, huv ▸ hv⟩
    | cons b u =>
      obtain ⟨rfl, rfl⟩ := List.cons.inj huv
      exact Or.inr ⟨u, v, rfl, hu, hv⟩
  · rintro (⟨hnil, hs⟩ | ⟨u, v, rfl, hu, hv⟩)
    · exact ⟨[], hnil, a :: s, hs, rfl⟩
    · exact ⟨a :: u, hu, v, hv, rfl⟩

theorem cons_mem_kstar {l : Language α} : a :: s ∈ KStar.kstar l ↔
    ∃ u v, u ++ v = s ∧ a :: u ∈ l ∧ v ∈ KStar.kstar l := by
  constructor
  · intro h
    obtain ⟨parts, hs, hparts⟩ := Language.mem_kstar_iff_exists_nonempty.mp h
    cases parts with
    | nil => exact nomatch hs
    | cons part parts =>
      obtain ⟨hpart, hne⟩ := hparts part List.mem_cons_self
      obtain ⟨b, u, rfl⟩ := List.exists_cons_of_ne_nil hne
      obtain ⟨rfl, rfl⟩ := List.cons.inj hs
      refine ⟨u, parts.flatten, rfl, hpart, Language.mem_kstar.mpr ⟨parts, rfl, fun y hy => ?_⟩⟩
      exact (hparts y (List.mem_cons_of_mem _ hy)).1
  · rintro ⟨u, v, rfl, hu, hv⟩
    obtain ⟨parts, rfl, hparts⟩ := Language.mem_kstar.mp hv
    refine Language.mem_kstar.mpr ⟨(a :: u) :: parts, rfl, fun y hy => ?_⟩
    rcases List.mem_cons.mp hy with rfl | hy
    · exact hu
    · exact hparts y hy

theorem mem_deriv : s ∈ (r.deriv a).language ↔ a :: s ∈ r.language := by
  induction r generalizing s with
  | none => exact iff_of_false (Language.notMem_zero _) (Language.notMem_zero _)
  | eps =>
    refine iff_of_false (Language.notMem_zero _) ?_
    rw [language, Language.mem_one]
    exact List.cons_ne_nil a s
  | one p =>
    rw [deriv]
    by_cases hp : p a = true
    · rw [if_pos hp, language, Language.mem_one]
      constructor
      · rintro rfl
        exact ⟨a, hp, rfl⟩
      · rintro ⟨b, -, h⟩
        exact (List.cons.inj h).2
    · rw [if_neg hp]
      refine iff_of_false (Language.notMem_zero _) ?_
      rintro ⟨b, hb, h⟩
      obtain ⟨rfl, -⟩ := List.cons.inj h
      exact hp hb
  | seq r r' ih ih' =>
    have hthen : s ∈ (then_ (r.deriv a) r').language ↔
        ∃ u v, u ++ v = s ∧ a :: u ∈ r.language ∧ v ∈ r'.language := by
      rw [language_then, language, Language.mem_mul]
      constructor
      · rintro ⟨u, hu, v, hv, huv⟩
        exact ⟨u, v, huv, ih.mp hu, hv⟩
      · rintro ⟨u, v, huv, hu, hv⟩
        exact ⟨u, ih.mpr hu, v, hv, huv⟩
    rw [deriv, language, cons_mem_mul, ← hthen, ← nullable_iff]
    split
    · next hnull =>
      rw [language_or, language, Language.mem_add, ih', or_comm, and_iff_right hnull]
    · next hnull => rw [or_iff_right fun h => hnull h.1]
  | alt r r' ih ih' =>
    rw [deriv, language_or, language, Language.mem_add, ih, ih', language, Language.mem_add]
  | star r ih =>
    rw [deriv, language_then, language, Language.mem_mul, language, cons_mem_kstar]
    constructor
    · rintro ⟨u, hu, v, hv, huv⟩
      exact ⟨u, v, huv, ih.mp hu, hv⟩
    · rintro ⟨u, v, huv, hu, hv⟩
      exact ⟨u, ih.mpr hu, v, hv, huv⟩

/-- An expression accepts exactly the texts of its language. -/
theorem accepts_iff : r.accepts s = true ↔ s ∈ r.language := by
  induction s generalizing r with
  | nil => exact nullable_iff
  | cons a s ih => rw [accepts, ih, mem_deriv]

instance : DecidablePred (· ∈ r.language) := fun _ => decidable_of_iff _ accepts_iff

end Derivative

section Forms

/-- One or more. -/
def plus (r : Regex α) : Regex α := seq r (star r)

/-- At most one. -/
def opt (r : Regex α) : Regex α := alt eps r

def times : ℕ → Regex α → Regex α
  | 0, _ => eps
  | n + 1, r => seq r (times n r)

/-- At most `n`. -/
def upTo : ℕ → Regex α → Regex α
  | 0, _ => eps
  | n + 1, r => opt (seq r (upTo n r))

def char [BEq α] (a : α) : Regex α := one (· == a)

def text [BEq α] : List α → Regex α
  | [] => eps
  | a :: s => seq (char a) (text s)

@[simp] theorem mem_eps : s ∈ (eps : Regex α).language ↔ s = [] := Language.mem_one s

@[simp] theorem mem_one : s ∈ (one p).language ↔ ∃ a, p a = true ∧ s = [a] := Iff.rfl

theorem mem_seq : s ∈ (seq r r').language ↔ ∃ u ∈ r.language, ∃ v ∈ r'.language, u ++ v = s :=
  Language.mem_mul

theorem mem_alt : s ∈ (alt r r').language ↔ s ∈ r.language ∨ s ∈ r'.language :=
  Language.mem_add _ _ s

theorem mem_star : s ∈ (star r).language ↔ ∃ parts : List (List α), s = parts.flatten ∧
    ∀ part ∈ parts, part ∈ r.language := Language.mem_kstar

theorem mem_opt : s ∈ (opt r).language ↔ s = [] ∨ s ∈ r.language := by
  rw [opt, mem_alt, mem_eps]

/-- A class, as often as one likes. -/
theorem mem_star_one : s ∈ (star (one p)).language ↔ ∀ a ∈ s, p a = true := by
  rw [mem_star]
  constructor
  · rintro ⟨parts, rfl, hparts⟩ a ha
    obtain ⟨part, hpart, ha⟩ := List.mem_flatten.mp ha
    obtain ⟨b, hb, rfl⟩ := hparts part hpart
    obtain rfl := List.mem_singleton.mp ha
    exact hb
  · intro h
    refine ⟨s.map fun a => [a], (List.flatMap_singleton' s).symm, fun part hpart => ?_⟩
    obtain ⟨a, ha, rfl⟩ := List.mem_map.mp hpart
    exact ⟨a, h a ha, rfl⟩

theorem cons_mem_seq_one : a :: s ∈ (seq (one p) r).language ↔ p a = true ∧ s ∈ r.language := by
  rw [mem_seq]
  constructor
  · rintro ⟨u, ⟨b, hb, rfl⟩, v, hv, h⟩
    obtain ⟨rfl, rfl⟩ := List.cons.inj h
    exact ⟨hb, hv⟩
  · rintro ⟨ha, hs⟩
    exact ⟨[a], ⟨a, ha, rfl⟩, s, hs, rfl⟩

theorem nil_notMem_seq_one : [] ∉ (seq (one p) r).language := by
  rw [mem_seq]
  rintro ⟨u, ⟨a, -, rfl⟩, v, -, h⟩
  exact nomatch h

theorem mem_times_one {n : ℕ} : s ∈ (times n (one p)).language ↔ s.length = n ∧ ∀ a ∈ s, p a = true := by
  induction n generalizing s with
  | zero =>
    rw [times, mem_eps, List.length_eq_zero_iff]
    refine ⟨fun h => ⟨h, fun a ha => ?_⟩, fun h => h.1⟩
    rw [h] at ha
    exact nomatch ha
  | succ n ih =>
    cases s with
    | nil => exact iff_of_false nil_notMem_seq_one (by simp)
    | cons a s =>
      rw [times, cons_mem_seq_one, ih, List.length_cons, List.forall_mem_cons, Nat.add_right_cancel_iff]
      exact and_left_comm

theorem mem_text [BEq α] [LawfulBEq α] {t : List α} : s ∈ (text t).language ↔ s = t := by
  induction t generalizing s with
  | nil => exact mem_eps
  | cons a t ih =>
    cases s with
    | nil => exact iff_of_false nil_notMem_seq_one (by simp)
    | cons b s => rw [text, char, cons_mem_seq_one, ih, beq_iff_eq, List.cons_eq_cons]

theorem mem_plus_one : s ∈ (plus (one p)).language ↔ s ≠ [] ∧ ∀ a ∈ s, p a = true := by
  cases s with
  | nil => exact iff_of_false nil_notMem_seq_one fun h => h.1 rfl
  | cons a s =>
    rw [plus, cons_mem_seq_one, mem_star_one, List.forall_mem_cons]
    exact (and_iff_right (List.cons_ne_nil _ _)).symm

end Forms
end Regex
