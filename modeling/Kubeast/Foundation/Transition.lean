import Mathlib.Data.List.Basic

/-! Runs of a deterministic step function, with a guard read in the state before
each step. An operation that fails leaves the state as it is, so a step function
is total and a run is a fold. -/
namespace Transition

section Attempt
universe u
variable {S T : Type u} {ε : Type*} {s : S} {r : Except ε S}

/-- The state after an operation that may fail as a whole. -/
def attempt (s : S) : Except ε S → S
  | .ok t => t
  | .error _ => s

theorem attempt_cases (s : S) (r : Except ε S) :
    attempt s r = s ∨ r = .ok (attempt s r) := by
  cases r with
  | ok t => exact Or.inr rfl
  | error e => exact Or.inl rfl

theorem eq_ok_of_isOk (h : r.isOk = true) : r = .ok (attempt s r) := by
  cases r with
  | ok t => rfl
  | error e => cases h

theorem bind_eq_ok {f : S → Except ε T} {t : T} :
    (r >>= f) = .ok t ↔ ∃ a, r = .ok a ∧ f a = .ok t := by
  cases r with
  | ok a => simp [bind, Except.bind]
  | error e => simp [bind, Except.bind]

/-- An early return. -/
def failIf (c : Prop) [Decidable c] (e : ε) : Except ε PUnit.{u + 1} :=
  if c then .error e else .ok ⟨⟩

/-- The value that was found, or an early return. -/
def orFail (o : Option S) (e : ε) : Except ε S := o.elim (.error e) .ok

theorem ok_of_map_fst {r : Except ε (S × T)} (h : r.map Prod.fst = .ok s) : ∃ t, r = .ok (s, t) := by
  cases r with
  | error e => cases h
  | ok p =>
    obtain rfl := Except.ok.inj h
    exact ⟨p.2, rfl⟩

theorem mapError_eq_ok {δ : Type*} {f : ε → δ} : r.mapError f = .ok s ↔ r = .ok s := by
  cases r <;> simp [Except.mapError]

theorem failIf_eq_ok {c : Prop} [Decidable c] {e : ε} {x : PUnit.{u + 1}} :
    failIf c e = .ok x ↔ ¬ c := by
  unfold failIf
  split <;> simp_all

theorem orFail_eq_ok {o : Option S} {e : ε} : orFail o e = .ok s ↔ o = some s := by
  cases o <;> simp [orFail]

end Attempt

variable {S A X : Type*} {step : S → A → S} {G H : S → A → Prop} {s : S} {as bs : List A} {a : A}

/-- The state after the steps `as`. -/
def exec (step : S → A → S) (s : S) (as : List A) : S := as.foldl step s

/-- Every step of the run meets the guard in the state it is taken in. -/
def Along (step : S → A → S) (G : S → A → Prop) : S → List A → Prop
  | _, [] => True
  | s, a :: as => G s a ∧ Along step G (step s a) as

@[simp] theorem exec_nil : exec step s [] = s := rfl

@[simp] theorem exec_cons : exec step s (a :: as) = exec step (step s a) as := rfl

@[simp] theorem exec_append : exec step s (as ++ bs) = exec step (exec step s as) bs := by
  simp [exec]

@[simp] theorem along_nil : Along step G s [] := trivial

@[simp] theorem along_cons :
    Along step G s (a :: as) ↔ G s a ∧ Along step G (step s a) as := Iff.rfl

theorem along_append :
    Along step G s (as ++ bs) ↔ Along step G s as ∧ Along step G (exec step s as) bs := by
  induction as generalizing s with
  | nil => simp
  | cons a as ih => simp [ih, and_assoc]

instance Along.instDecidable [∀ s a, Decidable (G s a)] :
    (s : S) → (as : List A) → Decidable (Along step G s as)
  | _, [] => isTrue trivial
  | s, a :: as =>
      have := Along.instDecidable (step s a) as
      inferInstanceAs (Decidable (G s a ∧ Along step G (step s a) as))

theorem Along.mono (hGH : ∀ s a, G s a → H s a) (h : Along step G s as) :
    Along step H s as := by
  induction as generalizing s with
  | nil => trivial
  | cons a as ih => exact ⟨hGH _ _ h.1, ih h.2⟩

theorem Along.of_forall (h : ∀ s a, G s a) : Along step G s as := by
  induction as generalizing s with
  | nil => trivial
  | cons a as ih => exact ⟨h s a, ih⟩

theorem Along.and (hG : Along step G s as) (hH : Along step H s as) :
    Along step (fun s a => G s a ∧ H s a) s as := by
  induction as generalizing s with
  | nil => trivial
  | cons a as ih => exact ⟨⟨hG.1, hH.1⟩, ih hG.2 hH.2⟩

/-- An invariant kept by every guarded step holds after every guarded run. -/
theorem exec_invariant {I : S → Prop} (hstep : ∀ s a, I s → G s a → I (step s a))
    (hs : I s) (h : Along step G s as) : I (exec step s as) := by
  induction as generalizing s with
  | nil => exact hs
  | cons a as ih => exact ih (hstep s a hs h.1) h.2

/-- What the steps of a run amount to for an observer who keeps `x` and is told, for each
step, the state it was taken in. -/
def replay (step : S → A → S) (effect : S → A → X → X) : S → X → List A → X
  | _, x, [] => x
  | s, x, a :: as => replay step effect (step s a) (effect s a x) as

/-- A run refines the observer's run when each guarded step does. -/
theorem exec_refines {I : S → Prop} {abs : S → X} {effect : S → A → X → X}
    (hinv : ∀ s a, I s → G s a → I (step s a))
    (hstep : ∀ s a, I s → G s a → abs (step s a) = effect s a (abs s))
    (hs : I s) (h : Along step G s as) :
    abs (exec step s as) = replay step effect s (abs s) as := by
  induction as generalizing s with
  | nil => rfl
  | cons a as ih =>
    rw [exec_cons, ih (hinv s a hs h.1) h.2, hstep s a hs h.1, replay]

/-- What stands in a list of processes after one of them moved. -/
theorem eq_or_of_getElem?_set {l : List A} {i j : ℕ} {b : A} (h : (l.set i a)[j]? = some b) :
    (i = j ∧ b = a) ∨ (i ≠ j ∧ l[j]? = some b) := by
  rw [List.getElem?_set] at h
  split at h
  · next hij =>
    split at h
    · exact Or.inl ⟨hij, (Option.some.inj h).symm⟩
    · cases h
  · next hij => exact Or.inr ⟨hij, h⟩

end Transition
