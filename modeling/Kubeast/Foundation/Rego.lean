import Kubeast.Foundation.Value

/-! The part of Rego that policies over documents use. An expression is undefined where it has no
value; a built-in is undefined where an argument is, or is not of its type. -/
namespace Rego

abbrev Term := Option Value

/-- `t.k`. -/
def Term.dot (t : Term) (k : String) : Term := t.bind fun v => v.get k

/-- `object.get(t, k, default)`. -/
def objectGet (t : Term) (k : String) (default : Term) : Term :=
  match t, default with
  | some (.map ms), some d => some (((Value.map ms).get k).getD d)
  | _, _ => none

/-- `object.get(t, path, default)`. -/
def objectGetPath (t : Term) (path : List String) (default : Term) : Term :=
  match t, default with
  | some (.map ms), some d => some (((Value.map ms).find path).getD d)
  | _, _ => none

/-- `array.concat(t, u)`. -/
def concat (t u : Term) : Term :=
  match t, u with
  | some (.list vs), some (.list ws) => some (.list (vs ++ ws))
  | _, _ => none

/-- What `some x in t` runs over: the items of a list, the values of a map. -/
def items : Term → List Value
  | some (.list vs) => vs
  | some (.map ms) => ms.map Prod.snd
  | _ => []

/-- `t == v`, as a statement of a rule's body. -/
def eq (t : Term) (v : Value) : Bool := decide (t = some v)

/-- `t != v`. -/
def ne (t : Term) (v : Value) : Bool := t.any fun w => decide (w ≠ v)

/-- `v in t`. -/
def mem (v : Value) (t : Term) : Bool := decide (v ∈ items t)

/-- A term that stands as a statement. -/
def truthy (t : Term) : Bool := ne t (.bool false)

section Terms
variable {t u d : Term} {v w : Value} {k : String} {path : List String}

theorem ne_eq_false_iff : ne t v = false ↔ ∀ w, t = some w → w = v := by
  cases t <;> simp [ne]

theorem eq_iff : eq t v = true ↔ t = some v := decide_eq_true_iff

theorem mem_iff : mem v t = true ↔ v ∈ items t := decide_eq_true_iff

theorem objectGet_map {ms : List (String × Value)} :
    objectGet (some (.map ms)) k (some v) = some (((Value.map ms).get k).getD v) := rfl

theorem objectGetPath_map {ms : List (String × Value)} :
    objectGetPath (some (.map ms)) path (some v) = some (((Value.map ms).find path).getD v) := rfl

/-- The items of a defined concatenation. -/
theorem items_concat (h : (concat t u).isSome = true) :
    items (concat t u) = items t ++ items u ∧ (∃ vs, t = some (.list vs)) ∧ ∃ ws, u = some (.list ws) := by
  unfold concat at h ⊢
  split
  · next vs ws => exact ⟨rfl, ⟨vs, rfl⟩, ⟨ws, rfl⟩⟩
  · next hne =>
    split at h
    · next vs ws => exact absurd rfl (hne vs ws rfl)
    · cases h

end Terms
end Rego
