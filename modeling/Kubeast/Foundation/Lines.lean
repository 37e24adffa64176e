import Kubeast.Foundation.Symbols
import Kubeast.Foundation.Text

/-! Lines and pieces of texts whose symbols carry more than a character. -/
namespace Symbols

variable {α : Type*} [Symbol α]

section Pieces

def trimLeft (p : Char → Bool) (s : List α) : List α := s.dropWhile fun a => p (char a)

def trimRight (p : Char → Bool) (s : List α) : List α := s.rdropWhile fun a => p (char a)

def trim (p : Char → Bool) (s : List α) : List α := trimRight p (trimLeft p s)

def trimSpace (s : List α) : List α := trim Text.isSpace s

def hasPrefix (s : List α) (t : List Char) : Bool := t.isPrefixOf (s.map char)

def contains (s : List α) (t : List Char) : Bool := (s.map char).tails.any t.isPrefixOf

/-- What stands before the first `c` and after it. -/
def cut (c : Char) : List α → Option (List α × List α)
  | [] => none
  | a :: s => if char a = c then some ([], s) else (cut c s).map fun p => (a :: p.1, p.2)

/-- Where the text occurs first. -/
def indexOf (t : List Char) : List α → ℕ
  | [] => 0
  | a :: s => if hasPrefix (a :: s) t then 0 else indexOf t s + 1

theorem trim_subset (p : Char → Bool) (s : List α) : trim p s ⊆ s :=
  fun _ h => (List.dropWhile_sublist _).mem ((List.rdropWhile_prefix _ _).mem h)

theorem map_char_trimLeft (p : Char → Bool) (s : List α) :
    (trimLeft p s).map char = trimLeft p (s.map char) := by
  unfold trimLeft
  rw [List.dropWhile_map]
  rfl

theorem map_char_trimRight (p : Char → Bool) (s : List α) :
    (trimRight p s).map char = trimRight p (s.map char) := by
  unfold trimRight List.rdropWhile
  rw [List.map_reverse, ← List.map_reverse (l := s), List.dropWhile_map]
  rfl

theorem map_char_trim (p : Char → Bool) (s : List α) :
    (trim p s).map char = trim p (s.map char) := by
  rw [trim, map_char_trimRight, map_char_trimLeft, trim]

theorem map_char_trimSpace (s : List α) : (trimSpace s).map char = trimSpace (s.map char) :=
  map_char_trim _ s

theorem hasPrefix_map_char (s : List α) (t : List Char) :
    hasPrefix (s.map char) t = hasPrefix s t := by
  rw [hasPrefix, map_char_self, hasPrefix]

theorem hasPrefix_cons_of_ne {a : α} {c : Char} (h : char a ≠ c) (s : List α) (t : List Char) :
    hasPrefix (a :: s) (c :: t) = false := by
  simp [hasPrefix, List.isPrefixOf, Ne.symm h]

theorem contains_map_char (s : List α) (t : List Char) :
    contains (s.map char) t = contains s t := by
  rw [contains, map_char_self, contains]

theorem cut_map_char (c : Char) (s : List α) :
    cut c (s.map char) = (cut c s).map fun p => (p.1.map char, p.2.map char) := by
  induction s with
  | nil => rfl
  | cons a s ih =>
    by_cases h : char a = c
    · simp [cut, h]
    · simp [cut, h, ih, Function.comp_def]

theorem indexOf_map_char (t : List Char) (s : List α) :
    indexOf t (s.map char) = indexOf t s := by
  induction s with
  | nil => rfl
  | cons a s ih =>
    rw [List.map_cons, indexOf, indexOf, ih, ← List.map_cons, hasPrefix_map_char]

theorem cut_eq_some {c : Char} {s l r : List α} (h : cut c s = some (l, r)) :
    ∃ a, char a = c ∧ s = l ++ a :: r ∧ ∀ b ∈ l, char b ≠ c := by
  induction s generalizing l with
  | nil => cases h
  | cons a s ih =>
    rw [cut] at h
    split_ifs at h with ha
    · cases h
      exact ⟨a, ha, rfl, by simp⟩
    · obtain ⟨⟨l', r'⟩, hcut, hp⟩ := Option.map_eq_some_iff.mp h
      cases hp
      obtain ⟨b, hb, rfl, hl⟩ := ih hcut
      exact ⟨b, hb, rfl, List.forall_mem_cons.mpr ⟨ha, hl⟩⟩

theorem cut_append {c : Char} {l r : List α} (hl : ∀ b ∈ l, char b ≠ c) {a : α}
    (ha : char a = c) : cut c (l ++ a :: r) = some (l, r) := by
  induction l with
  | nil => simp [cut, ha]
  | cons b l ih =>
    rw [List.forall_mem_cons] at hl
    simp [cut, hl.1, ih hl.2]

/-- A text occurs no later than where it stands. -/
theorem indexOf_le {t : List Char} {u : List α} (h : hasPrefix u t = true) (s : List α) :
    indexOf t (s ++ u) ≤ s.length := by
  induction s with
  | nil =>
    cases u with
    | nil => exact le_rfl
    | cons a u =>
      rw [List.nil_append, indexOf, if_pos h]
      exact le_rfl
  | cons a s ih =>
    rw [List.cons_append, indexOf]
    split_ifs
    · exact Nat.zero_le _
    · exact Nat.succ_le_succ ih

theorem trimRight_isPrefix (p : Char → Bool) (s : List α) : trimRight p s <+: s :=
  List.rdropWhile_prefix _ _

/-- Nothing before a symbol that stays is trimmed on the right. -/
theorem trimRight_append_cons {p : Char → Bool} {a : α} (ha : p (char a) = false) (l r : List α) :
    trimRight p (l ++ a :: r) = l ++ a :: trimRight p r := by
  unfold trimRight List.rdropWhile
  rw [List.reverse_append, List.reverse_cons, List.append_assoc, List.singleton_append,
    List.dropWhile_append]
  cases h : r.reverse.dropWhile fun a => p (char a) with
  | nil => simp [ha]
  | cons b t => simp

theorem trimRight_of_forall {p : Char → Bool} {r : List α} (h : ∀ a ∈ r, p (char a) = true) :
    trimRight p r = [] := List.rdropWhile_eq_nil_iff.mpr h

theorem trimLeft_append_cons {p : Char → Bool} {a : α} (ha : p (char a) = false) {l : List α}
    (hl : ∀ b ∈ l, p (char b) = true) (r : List α) : trimLeft p (l ++ a :: r) = a :: r := by
  unfold trimLeft
  rw [List.dropWhile_append_of_pos hl, List.dropWhile_cons_of_neg (by simp [ha])]

theorem trimLeft_trimRight (p : Char → Bool) (s : List α) :
    trimLeft p (trimRight p s) = trimRight p (trimLeft p s) := by
  induction s with
  | nil => rfl
  | cons a s ih =>
    by_cases ha : p (char a) = true
    · have hleft : trimLeft p (a :: s) = trimLeft p s := List.dropWhile_cons_of_pos ha
      rw [hleft, ← ih]
      by_cases hall : ∀ b ∈ s, p (char b) = true
      · rw [trimRight_of_forall hall, trimRight_of_forall (List.forall_mem_cons.mpr ⟨ha, hall⟩)]
      · push Not at hall
        obtain ⟨b, hb, hpb⟩ := hall
        obtain ⟨l, r, rfl⟩ := List.append_of_mem hb
        have hpb' : p (char b) = false := Bool.eq_false_iff.mpr hpb
        rw [← List.cons_append, trimRight_append_cons hpb', trimRight_append_cons hpb']
        exact List.dropWhile_cons_of_pos ha
    · rw [Bool.not_eq_true] at ha
      have hleft : trimLeft p (a :: s) = a :: s := trimLeft_append_cons ha (l := []) (by simp) s
      have hright := trimRight_append_cons ha [] s
      rw [List.nil_append, List.nil_append] at hright
      rw [hleft, hright]
      exact trimLeft_append_cons ha (l := []) (by simp) _

theorem trim_trimRight (p : Char → Bool) (s : List α) : trim p (trimRight p s) = trim p s := by
  rw [trim, trimLeft_trimRight, trim]
  exact List.rdropWhile_idempotent _ _

end Pieces

section Lines

def splitLines (s : List α) : List (List α) := s.splitOnP fun a => char a = '\n'

def joinLines (ls : List (List α)) : List α := [lit '\n'].intercalate ls

def IsLine (l : List α) : Prop := ∀ a ∈ l, char a ≠ '\n'

theorem joinLines_cons_cons (l l' : List α) (ls : List (List α)) :
    joinLines (l :: l' :: ls) = l ++ lit '\n' :: joinLines (l' :: ls) := by
  simp [joinLines, List.intercalate]

@[simp] theorem joinLines_singleton (l : List α) : joinLines [l] = l := by
  simp [joinLines, List.intercalate]

theorem splitLines_joinLines {ls : List (List α)} (hne : ls ≠ []) (h : ∀ l ∈ ls, IsLine l) :
    splitLines (joinLines ls) = ls := by
  induction ls with
  | nil => exact absurd rfl hne
  | cons l ls ih =>
    rw [List.forall_mem_cons] at h
    have hl : ∀ a ∈ l, decide (char a = '\n') = false := fun a ha => decide_eq_false (h.1 a ha)
    cases ls with
    | nil =>
      rw [joinLines_singleton]
      exact List.splitOnP_eq_singleton hl
    | cons l' ls =>
      have hrest : splitLines (joinLines (l' :: ls)) = l' :: ls := ih (by simp) h.2
      rw [joinLines_cons_cons, splitLines,
        List.splitOnP_append_cons_of_forall_mem hl (lit '\n') (by simp)]
      exact congrArg (l :: ·) hrest

theorem map_intercalate {β γ : Type*} (f : β → γ) (sep : List β) (ls : List (List β)) :
    (sep.intercalate ls).map f = (sep.map f).intercalate (ls.map (List.map f)) := by
  induction ls with
  | nil => rfl
  | cons l ls ih =>
    cases ls with
    | nil => simp [List.intercalate]
    | cons l' ls =>
      simp only [List.intercalate, List.map_cons, List.intersperse_cons_cons, List.flatten_cons,
        List.map_append] at ih ⊢
      rw [ih]

theorem map_char_joinLines (ls : List (List α)) :
    (joinLines ls).map char = joinLines (ls.map (List.map char)) := by
  rw [joinLines, map_intercalate, List.map_singleton, char_lit]
  rfl

theorem splitLines_map_char (s : List α) :
    splitLines (s.map char) = (splitLines s).map (List.map char) := by
  induction s with
  | nil => rfl
  | cons a s ih =>
    unfold splitLines at ih ⊢
    rw [List.map_cons, List.splitOnP_cons_eq_if_modifyHead, List.splitOnP_cons_eq_if_modifyHead, ih]
    by_cases h : char a = '\n'
    · simp [h]
    · cases hs : s.splitOnP fun a => char a = '\n' with
      | nil => exact absurd hs (List.splitOnP_ne_nil _ _)
      | cons l ls => simp [h]

theorem splitLines_ne_nil (s : List α) : splitLines s ≠ [] := List.splitOnP_ne_nil _ _

theorem splitLines_cons (a : α) (s : List α) : splitLines (a :: s) =
    if char a = '\n' then [] :: splitLines s else (splitLines s).modifyHead (a :: ·) := by
  unfold splitLines
  rw [List.splitOnP_cons_eq_if_modifyHead]
  simp

theorem splitLines_subset (s : List α) : ∀ l ∈ splitLines s, l ⊆ s := by
  induction s with
  | nil =>
    intro l hl
    rw [show splitLines ([] : List α) = [[]] from rfl, List.mem_singleton] at hl
    rw [hl]
    exact List.Subset.refl _
  | cons a s ih =>
    intro l hl
    rw [splitLines_cons] at hl
    split_ifs at hl
    · rcases List.mem_cons.mp hl with rfl | hl
      · exact List.nil_subset _
      · exact List.Subset.trans (ih l hl) (List.subset_cons_self _ _)
    · cases hs : splitLines s with
      | nil => exact absurd hs (splitLines_ne_nil s)
      | cons l' ls =>
        rw [hs, List.modifyHead_cons] at hl
        rw [hs, List.forall_mem_cons] at ih
        rcases List.mem_cons.mp hl with rfl | hl
        · exact List.cons_subset_cons a ih.1
        · exact List.Subset.trans (ih.2 l hl) (List.subset_cons_self _ _)

end Lines

end Symbols
