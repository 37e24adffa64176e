import Mathlib.Data.List.Basic

/-! Texts whose symbols may carry more than a character. A function that reads only the
characters of a text moves the rest along, which shows where its output comes from. -/
namespace Symbols

/-- A symbol has a character, and every character is a symbol. -/
class Symbol (α : Type*) where
  char : α → Char
  lit : Char → α
  char_lit : ∀ c, char (lit c) = c

export Symbol (char lit char_lit)

attribute [simp] Symbol.char_lit

instance : Symbol Char := ⟨fun c => c, fun c => c, fun _ => rfl⟩

@[simp] theorem char_self (c : Char) : char c = c := rfl

@[simp] theorem lit_self (c : Char) : (lit c : Char) = c := rfl

@[simp] theorem map_char_self (s : List Char) : s.map char = s := List.map_id'' (fun _ => rfl) s

/-- A character with a mark; what a function writes itself has none. -/
structure Marked where
  char : Char
  mark : Bool
deriving DecidableEq

instance : Symbol Marked := ⟨Marked.char, fun c => ⟨c, false⟩, fun _ => rfl⟩

variable {α : Type*} [Symbol α]

def lits (s : String) : List α := s.toList.map lit

@[simp] theorem map_char_lits (s : String) : (lits s : List α).map char = s.toList := by
  simp [lits, Function.comp_def]

/-- No symbol of the text is marked. -/
def Clean (s : List Marked) : Prop := ∀ a ∈ s, a.mark = false

instance : DecidablePred Clean := fun s => inferInstanceAs (Decidable (∀ a ∈ s, a.mark = false))

theorem clean_nil : Clean [] := fun _ h => by cases h

theorem clean_cons {a : Marked} {s : List Marked} :
    Clean (a :: s) ↔ a.mark = false ∧ Clean s := List.forall_mem_cons

theorem clean_append {s t : List Marked} : Clean (s ++ t) ↔ Clean s ∧ Clean t :=
  List.forall_mem_append

theorem Clean.subset {s t : List Marked} (ht : Clean t) (h : s ⊆ t) : Clean s :=
  fun a ha => ht a (h ha)

theorem clean_map_lit (s : List Char) : Clean (s.map lit) := by
  intro a ha
  obtain ⟨c, -, rfl⟩ := List.mem_map.mp ha
  rfl

end Symbols
