import Mathlib.Data.List.DropRight
import Mathlib.Data.List.Pairwise
import Kubeast.Promote.Apply

/-! Edits of lines as edits of the text: what a column in bytes cuts, and that the order of edits on
different lines does not matter. -/
namespace Kubeast.Promote

section Cut
variable {a b : List Char} {c : Char}

@[simp] theorem bytes_nil : bytes [] = 0 := rfl

@[simp] theorem bytes_cons : bytes (c :: a) = c.utf8Size + bytes a := by simp [bytes]

@[simp] theorem bytes_append : bytes (a ++ b) = bytes a + bytes b := by simp [bytes]

theorem cut_zero : cut 0 a = ([], a) := by cases a <;> rfl

theorem cut_bytes : cut (bytes a) (a ++ b) = (a, b) := by
  induction a with
  | nil => exact cut_zero
  | cons c a ih =>
    have hpos := c.utf8Size_pos
    rw [bytes_cons, List.cons_append, cut, if_pos (Nat.le_add_right _ _), Nat.add_sub_cancel_left, ih]
    omega

theorem byteColumn_append : byteColumn (a ++ b) a.length = bytes a := by
  induction a with
  | nil => cases b <;> rfl
  | cons c a ih => rw [List.cons_append, List.length_cons, byteColumn, ih, bytes_cons]

end Cut

section Lines
variable {s before rest token new line : List Char} {c : Char}

/-- The line that a text ends in. -/
def lastLine (s : List Char) : List Char := s.rtakeWhile (· ≠ '\n')

/-- The line that a text begins with, and its line break. -/
def firstLine (s : List Char) : List Char := (splitAfter s).headD []

/-- The lines that a text ends. -/
def lineOf (s : List Char) : ℕ := s.count '\n'

theorem splitAfter_ne_nil : splitAfter s ≠ [] := by
  cases s with
  | nil => exact List.cons_ne_nil _ _
  | cons c s =>
    rw [splitAfter]
    split_ifs
    · exact List.cons_ne_nil _ _
    · split <;> exact List.cons_ne_nil _ _

theorem splitAfter_eq : splitAfter s = firstLine s :: (splitAfter s).tail := by
  obtain ⟨line, lines, h⟩ := List.exists_cons_of_ne_nil (splitAfter_ne_nil (s := s))
  rw [firstLine, h]
  rfl

theorem splitAfter_cons (h : c ≠ '\n') :
    splitAfter (c :: s) = (c :: firstLine s) :: (splitAfter s).tail := by
  rw [splitAfter, if_neg h, splitAfter_eq]
  rfl

theorem splitAfter_break : splitAfter ('\n' :: s) = ['\n'] :: splitAfter s := by
  rw [splitAfter, if_pos rfl]

@[simp] theorem flatten_splitAfter : (splitAfter s).flatten = s := by
  induction s with
  | nil => rfl
  | cons c s ih =>
    by_cases h : c = '\n'
    · rw [h, splitAfter_break, List.flatten_cons, ih]
      rfl
    · rw [splitAfter_eq, List.flatten_cons] at ih
      rw [splitAfter_cons h, List.flatten_cons, List.cons_append, ih]

/-- What has no line break belongs to the line behind it. -/
theorem splitAfter_append_line (h : '\n' ∉ line) :
    splitAfter (line ++ rest) = (line ++ firstLine rest) :: (splitAfter rest).tail := by
  induction line with
  | nil => exact splitAfter_eq
  | cons c line ih =>
    rw [List.mem_cons, not_or] at h
    rw [List.cons_append, splitAfter_cons (Ne.symm h.1), firstLine, ih h.2]
    rfl

theorem firstLine_append (h : '\n' ∉ line) : firstLine (line ++ rest) = line ++ firstLine rest := by
  rw [firstLine, splitAfter_append_line h]
  rfl

/-- A text with a line break begins with what stands before it. -/
theorem firstLine_of_mem (h : '\n' ∈ s) : ∃ t u, s = t ++ '\n' :: u ∧ ∀ rest, firstLine (s ++ rest) = t ++ ['\n'] := by
  obtain ⟨t, u, rfl, ht⟩ := List.eq_append_cons_of_mem h
  refine ⟨t, u, rfl, fun rest => ?_⟩
  rw [List.append_assoc, firstLine_append ht, List.cons_append, firstLine, splitAfter_break]
  rfl

theorem notMem_lastLine : '\n' ∉ lastLine s := fun h => by
  simpa using List.mem_rtakeWhile_imp h

theorem lastLine_append (h : '\n' ∉ line) : lastLine (before ++ line) = lastLine before ++ line := by
  have hline : ∀ c ∈ line.reverse, decide (c ≠ '\n') = true := fun c hc =>
    decide_eq_true fun heq => h (heq ▸ List.mem_reverse.mp hc)
  rw [lastLine, lastLine, List.rtakeWhile, List.rtakeWhile, List.reverse_append,
    List.takeWhile_append_of_pos hline, List.reverse_append, List.reverse_reverse]

theorem lastLine_break (h : '\n' ∈ s) : lastLine (before ++ s) = lastLine s := by
  have hlength : (s.reverse.takeWhile fun c => decide (c ≠ '\n')).length ≠ s.reverse.length := fun heq => by
    have hall : (s.reverse.takeWhile fun c => decide (c ≠ '\n')) = s.reverse :=
      (List.takeWhile_prefix _).eq_of_length heq
    rw [List.takeWhile_eq_self_iff] at hall
    exact of_decide_eq_true (hall '\n' (List.mem_reverse.mpr h)) rfl
  rw [lastLine, lastLine, List.rtakeWhile, List.rtakeWhile, List.reverse_append, List.takeWhile_append,
    if_neg hlength]

theorem lineOf_append : lineOf (before ++ s) = lineOf before + lineOf s := List.count_append

theorem lineOf_eq_zero : lineOf s = 0 ↔ '\n' ∉ s := List.count_eq_zero

/-- A text ends the same lines whatever follows it. -/
theorem splitAfter_append (before : List Char) : ∃ lines : List (List Char), lines.length = lineOf before ∧
    ∀ rest, splitAfter (before ++ rest) = lines ++ splitAfter (lastLine before ++ rest) := by
  induction before using List.reverseRecOn with
  | nil => exact ⟨[], rfl, fun _ => rfl⟩
  | append_singleton before c ih =>
    obtain ⟨lines, hlength, hlines⟩ := ih
    rw [lastLine, List.rtakeWhile_concat, lineOf, List.count_append]
    by_cases hc : c = '\n'
    · subst hc
      refine ⟨lines ++ [lastLine before ++ ['\n']], by simp [hlength, lineOf], fun rest => ?_⟩
      have hline : splitAfter (lastLine before ++ '\n' :: rest) =
          (lastLine before ++ ['\n']) :: splitAfter rest := by
        rw [splitAfter_append_line notMem_lastLine, firstLine, splitAfter_break]
        rfl
      rw [List.append_assoc, List.singleton_append, hlines, hline, if_neg (by simp)]
      simp
    · refine ⟨lines, by simp [hlength, lineOf, hc], fun rest => ?_⟩
      rw [List.append_assoc, hlines, if_pos (by simpa using hc), List.append_assoc]
      rfl

/-- The line of a place. -/
theorem getElem?_lineOf : (splitAfter (before ++ rest))[lineOf before]? =
    some (lastLine before ++ firstLine rest) := by
  obtain ⟨lines, hlength, hlines⟩ := splitAfter_append before
  rw [hlines, ← hlength, List.getElem?_append_right le_rfl, Nat.sub_self,
    splitAfter_append_line notMem_lastLine]
  rfl

theorem modify_length {α : Type} {before after : List α} {x : α} {f : α → α} :
    (before ++ x :: after).modify before.length f = before ++ f x :: after := by
  induction before with
  | nil => rfl
  | cons y before ih => rw [List.cons_append, List.length_cons, List.modify_succ_cons, ih]; rfl

/-- A token that is replaced on its line is replaced in the text. -/
theorem applyEdit_token (htoken : '\n' ∉ token) (hnew : '\n' ∉ new) :
    applyEdit (splitAfter (before ++ token ++ rest))
        ⟨lineOf before, bytes (lastLine before), bytes (lastLine before) + bytes token, new⟩ =
      splitAfter (before ++ new ++ rest) := by
  obtain ⟨lines, hlength, hlines⟩ := splitAfter_append before
  have hline (middle : List Char) (hmiddle : '\n' ∉ middle) :
      splitAfter (before ++ middle ++ rest) =
        lines ++ (lastLine before ++ middle ++ firstLine rest) :: (splitAfter rest).tail := by
    rw [List.append_assoc, hlines, ← List.append_assoc, splitAfter_append_line]
    exact fun hmem => (List.mem_append.mp hmem).elim notMem_lastLine hmiddle
  have hedit : editLine (lastLine before ++ token ++ firstLine rest)
      ⟨lineOf before, bytes (lastLine before), bytes (lastLine before) + bytes token, new⟩ =
        lastLine before ++ new ++ firstLine rest := by
    have hstart : cut (bytes (lastLine before)) (lastLine before ++ token ++ firstLine rest) =
        (lastLine before, token ++ firstLine rest) := by rw [List.append_assoc, cut_bytes]
    have hstop : cut (bytes (lastLine before) + bytes token) (lastLine before ++ token ++ firstLine rest) =
        (lastLine before ++ token, firstLine rest) := by rw [← bytes_append, cut_bytes]
    rw [editLine]
    dsimp only
    rw [hstart, hstop]
  rw [hline token htoken, hline new hnew, applyEdit, ← hlength, modify_length, hlength, hedit]

end Lines

section Order
variable {lines : List (List Char)} {edits edits' : List Edit} {k : ℕ}

/-- A line takes the edits that are on it. -/
theorem getElem?_foldl_applyEdit : (edits.foldl applyEdit lines)[k]? =
    lines[k]?.map fun line => (edits.filter fun e => e.line = k).foldl editLine line := by
  induction edits generalizing lines with
  | nil => simp
  | cons e edits ih =>
    rw [List.foldl_cons, ih, applyEdit, List.getElem?_modify, List.filter_cons]
    by_cases h : e.line = k <;> cases lines[k]? <;> simp [h]

/-- Edits that come in the same order on every line do the same. -/
theorem foldl_applyEdit_congr
    (h : ∀ k, (edits.filter fun e => e.line = k) = edits'.filter fun e => e.line = k) :
    edits.foldl applyEdit lines = edits'.foldl applyEdit lines := by
  refine List.ext_getElem? fun k => ?_
  rw [getElem?_foldl_applyEdit, getElem?_foldl_applyEdit, h k]

theorem pairwise_sorted : (edits.insertionSort Edit.before).Pairwise Edit.before := by
  have : Std.Total Edit.before := ⟨fun a b => by unfold Edit.before; omega⟩
  have : IsTrans Edit Edit.before := ⟨fun a b c => by unfold Edit.before; omega⟩
  exact List.pairwise_insertionSort _ edits

/-- The sorted edits do what the same edits do from the end of the text on. -/
theorem applyEdits_eq (hperm : edits.Perm edits')
    (horder : edits'.Pairwise fun a b => a.line = b.line → b.col < a.col) :
    applyEdits lines edits = edits'.foldl applyEdit lines := by
  refine foldl_applyEdit_congr fun k => ?_
  have hfilter : ((edits.insertionSort Edit.before).filter fun e => e.line = k).Perm
      (edits'.filter fun e => e.line = k) :=
    ((List.perm_insertionSort _ edits).trans hperm).filter _
  have hline {l : List Edit} {e : Edit} (he : e ∈ l.filter fun e => e.line = k) : e.line = k :=
    of_decide_eq_true (List.mem_filter.mp he).2
  have hdistinct : edits'.Pairwise fun a b => a.line = b.line → a.col ≠ b.col :=
    horder.imp fun hab heq => (hab heq).ne'
  have hanti (a b : Edit) (ha : a ∈ (edits.insertionSort Edit.before).filter fun e => e.line = k)
      (hb : b ∈ edits'.filter fun e => e.line = k) (hba : b.col ≤ a.col) (hab : a.col ≤ b.col) : a = b := by
    by_contra hne
    have hmem := List.mem_of_mem_filter (hfilter.mem_iff.mp ha)
    have : Std.Symm fun a b : Edit => a.line = b.line → a.col ≠ b.col :=
      ⟨fun a b h heq => (h heq.symm).symm⟩
    exact hdistinct.forall hmem (List.mem_of_mem_filter hb) hne ((hline ha).trans (hline hb).symm)
      (le_antisymm hab hba)
  refine List.Perm.eq_of_pairwise hanti ?_ ?_ hfilter
  · refine (pairwise_sorted.filter _).imp_of_mem fun ha hb hab => ?_
    have := hline ha
    have := hline hb
    unfold Edit.before at hab
    omega
  · refine (horder.filter _).imp_of_mem fun ha hb hab => ?_
    exact (hab ((hline ha).trans (hline hb).symm)).le

end Order
end Kubeast.Promote
