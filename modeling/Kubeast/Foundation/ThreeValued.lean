import Mathlib.Data.List.Basic

/-! Three-valued answers to questions about a world that is known in part: an answer that is not
`unknown` holds in every world. -/
namespace ThreeValued

inductive Answer
  | yes
  | no
  | unknown
deriving DecidableEq

/-- One `yes` settles it, and one `unknown` leaves it open. -/
def Answer.or : Answer → Answer → Answer
  | .yes, _ => .yes
  | .no, b => b
  | .unknown, .yes => .yes
  | .unknown, _ => .unknown

def Answer.and : Answer → Answer → Answer
  | .no, _ => .no
  | .yes, b => b
  | .unknown, .no => .no
  | .unknown, _ => .unknown

def anyOf (as : List Answer) : Answer := as.foldr Answer.or .no

/-- A definite answer is right in every world. -/
structure Decides {W : Type*} (a : Answer) (P : W → Prop) : Prop where
  yes : a = .yes → ∀ w, P w
  no : a = .no → ∀ w, ¬ P w

variable {W α : Type*} {a b c : Answer} {P Q : W → Prop} {as : List Answer} {l : List α}

section Algebra

@[simp] theorem anyOf_nil : anyOf [] = .no := rfl

@[simp] theorem anyOf_cons : anyOf (a :: as) = a.or (anyOf as) := rfl

@[simp] theorem no_or : Answer.or .no a = a := rfl

@[simp] theorem yes_or : Answer.or .yes a = .yes := rfl

@[simp] theorem yes_and : Answer.and .yes a = a := rfl

@[simp] theorem no_and : Answer.and .no a = .no := rfl

@[simp] theorem or_no : a.or .no = a := by cases a <;> rfl

@[simp] theorem and_yes : a.and .yes = a := by cases a <;> rfl

theorem Answer.or_assoc : (a.or b).or c = a.or (b.or c) := by cases a <;> cases b <;> cases c <;> rfl

theorem Answer.and_assoc : (a.and b).and c = a.and (b.and c) := by
  cases a <;> cases b <;> cases c <;> rfl

theorem or_ne_unknown (ha : a ≠ .unknown) (hb : b ≠ .unknown) : a.or b ≠ .unknown := by
  cases a <;> cases b <;> simp_all [Answer.or]

theorem and_ne_unknown (ha : a ≠ .unknown) (hb : b ≠ .unknown) : a.and b ≠ .unknown := by
  cases a <;> cases b <;> simp_all [Answer.and]

theorem anyOf_ne_unknown (h : ∀ a ∈ as, a ≠ .unknown) : anyOf as ≠ .unknown := by
  induction as with
  | nil => simp
  | cons a as ih =>
    rw [List.forall_mem_cons] at h
    exact or_ne_unknown h.1 (ih h.2)

/-- An answer from more that is known: what was definite before stays. -/
def Sharper (a b : Answer) : Prop := b ≠ .unknown → a = b

theorem Sharper.refl (a : Answer) : Sharper a a := fun _ => rfl

theorem sharper_unknown (a : Answer) : Sharper a .unknown := fun h => absurd rfl h

theorem Sharper.or {a' b' : Answer} (h : Sharper a b) (h' : Sharper a' b') :
    Sharper (a.or a') (b.or b') := by
  intro hne
  cases b with
  | yes =>
    rw [h nofun]
    rfl
  | no =>
    rw [h nofun, h' hne]
  | unknown =>
    cases b' with
    | yes =>
      rw [h' nofun]
      cases a <;> rfl
    | _ => exact absurd rfl hne

theorem Sharper.and {a' b' : Answer} (h : Sharper a b) (h' : Sharper a' b') :
    Sharper (a.and a') (b.and b') := by
  intro hne
  cases b with
  | yes =>
    rw [h nofun, h' hne]
  | no =>
    rw [h nofun]
    rfl
  | unknown =>
    cases b' with
    | no =>
      rw [h' nofun]
      cases a <;> rfl
    | _ => exact absurd rfl hne

theorem sharper_anyOf {f g : α → Answer} (h : ∀ x ∈ l, Sharper (f x) (g x)) :
    Sharper (anyOf (l.map f)) (anyOf (l.map g)) := by
  induction l with
  | nil => exact Sharper.refl _
  | cons x l ih =>
    rw [List.forall_mem_cons] at h
    exact h.1.or (ih h.2)

end Algebra

section Worlds

theorem Decides.congr (h : Decides a P) (hiff : ∀ w, P w ↔ Q w) : Decides a Q where
  yes ha w := (hiff w).mp (h.yes ha w)
  no ha w hQ := h.no ha w ((hiff w).mpr hQ)

theorem decides_yes (h : ∀ w, P w) : Decides .yes P := ⟨fun _ => h, fun ha => nomatch ha⟩

theorem decides_no (h : ∀ w, ¬ P w) : Decides .no P := ⟨fun ha => (nomatch ha), fun _ => h⟩

theorem decides_unknown : Decides .unknown P := ⟨fun ha => (nomatch ha), fun ha => (nomatch ha)⟩

theorem Decides.or (ha : Decides a P) (hb : Decides b Q) :
    Decides (a.or b) fun w => P w ∨ Q w := by
  cases a with
  | yes => exact decides_yes fun w => Or.inl (ha.yes rfl w)
  | no => exact hb.congr fun w => (or_iff_right (ha.no rfl w)).symm
  | unknown =>
    cases b with
    | yes => exact decides_yes fun w => Or.inr (hb.yes rfl w)
    | no => exact decides_unknown
    | unknown => exact decides_unknown

theorem Decides.and (ha : Decides a P) (hb : Decides b Q) :
    Decides (a.and b) fun w => P w ∧ Q w := by
  cases a with
  | yes => exact hb.congr fun w => (and_iff_right (ha.yes rfl w)).symm
  | no => exact decides_no fun w h => ha.no rfl w h.1
  | unknown =>
    cases b with
    | yes => exact decides_unknown
    | no => exact decides_no fun w h => hb.no rfl w h.2
    | unknown => exact decides_unknown

theorem decides_anyOf {f : α → Answer} {P : α → W → Prop} (h : ∀ x ∈ l, Decides (f x) (P x)) :
    Decides (anyOf (l.map f)) fun w => ∃ x ∈ l, P x w := by
  induction l with
  | nil => exact decides_no fun w => by simp
  | cons x l ih =>
    rw [List.forall_mem_cons] at h
    apply (h.1.or (ih h.2)).congr
    intro w
    rw [List.exists_mem_cons_iff]

end Worlds
end ThreeValued
