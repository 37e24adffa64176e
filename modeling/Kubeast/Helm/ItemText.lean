import Kubeast.Helm.Walk
import Mathlib.Data.Bool.AllAny

/-! The text of an item shows whether it holds a placeholder. -/
namespace Kubeast.Helm

/-- What `%#v` does to floats and to the mark: the tables print the mark as it is, and no float has
its first character. -/
structure Printing (tables : Text.CharTables) (floats : FloatFormats) : Prop where
  mark : ∀ c ∈ maskMark.toList, tables.isPrint c = true
  float : ∀ q, '<' ∉ floats.goSyntax q

theorem mark_plain : ∀ c ∈ maskMark.toList, c ≠ '"' ∧ c ≠ '\\' ∧ c ≠ ',' ∧ c ≠ ' ' ∧ c ≠ '\x7b' ∧
    c ≠ '\x7d' := List.all_iff_forall_prop.mp (by decide)

theorem escapes_mark : ∀ d ∈ Text.escapes, d ≠ '<' := List.all_iff_forall_prop.mp (by decide)

theorem hexDigits_mark : ∀ d ∈ Text.hexDigits, d ≠ '<' := List.all_iff_forall_prop.mp (by decide)

/-- The mark stands in a text. -/
structure MarkIn (s : List Char) : Prop where
  stands : maskMark.toList <:+: s

theorem hasMark_iff {s : String} : hasMark s = true ↔ MarkIn s.toList := by
  rw [hasMark, decide_eq_true_eq]
  exact ⟨fun h => ⟨h⟩, fun h => h.stands⟩

/-- The mark does not start where its first character is missing. -/
theorem MarkIn.after {a b : List Char} (ha : '<' ∉ a) (h : MarkIn (a ++ b)) : MarkIn b := by
  induction a with
  | nil => exact h
  | cons c a ih =>
    rcases List.infix_cons_iff.mp h.stands with hpre | hin
    · have hhead : c = '<' := (List.cons_prefix_cons.mp hpre).1.symm
      simp [hhead] at ha
    · exact ih (List.not_mem_of_not_mem_cons ha) ⟨hin⟩

theorem markIn_append {a b : List Char} (ha : '<' ∉ a) : MarkIn (a ++ b) ↔ MarkIn b :=
  ⟨MarkIn.after ha, fun h => ⟨h.stands.trans (List.suffix_append a b).isInfix⟩⟩

theorem not_markIn {a : List Char} (ha : '<' ∉ a) : ¬MarkIn a := fun h =>
  ha (h.stands.subset List.mem_cons_self)

theorem markIn_lacking {d : Char} {a b : List Char} (hd : d ∉ maskMark.toList) :
    MarkIn (a ++ d :: b) ↔ MarkIn a ∨ MarkIn b := by
  constructor
  · intro h
    rcases (Text.infix_of_lacking hd).mp h.stands with ha | hb
    · exact .inl ⟨ha⟩
    · exact .inr ⟨hb⟩
  · rintro (h | h)
    · exact ⟨(Text.infix_of_lacking hd).mpr (.inl h.stands)⟩
    · exact ⟨(Text.infix_of_lacking hd).mpr (.inr h.stands)⟩

variable {tables : Text.CharTables} {floats : FloatFormats} (hprinting : Printing tables floats)

section Quoted

variable (tables) in
def quotedRunes (s : List Char) : List Char := s.flatMap fun c => (Text.quoteRune tables c).toList

/-- What has no backslash was quoted as it is. -/
theorem prefix_of_quotedRunes {m s : List Char} (hm : ∀ c ∈ m, c ≠ '\\')
    (h : m <+: quotedRunes tables s) : m <+: s := by
  induction m generalizing s with
  | nil => exact List.nil_prefix
  | cons x m ih =>
    cases s with
    | nil => exact h
    | cons c s =>
      rw [quotedRunes, List.flatMap_cons] at h
      rcases Text.quoteRune_quoted tables c with ⟨htext, -⟩ | ⟨d, w, htext, -⟩
      · rw [htext] at h
        obtain ⟨rfl, hrest⟩ := List.cons_prefix_cons.mp h
        exact List.cons_prefix_cons.mpr ⟨rfl, ih (fun y hy => hm y (List.mem_cons_of_mem x hy)) hrest⟩
      · rw [htext] at h
        exact absurd (List.cons_prefix_cons.mp h).1 (hm x List.mem_cons_self)

theorem markIn_of_quotedRunes {s : List Char} (h : MarkIn (quotedRunes tables s)) : MarkIn s := by
  induction s with
  | nil => exact h
  | cons c s ih =>
    have hcons : quotedRunes tables (c :: s) =
        (Text.quoteRune tables c).toList ++ quotedRunes tables s := List.flatMap_cons
    have hlater : MarkIn s → MarkIn (c :: s) :=
      fun hs => ⟨hs.stands.trans (List.suffix_cons c s).isInfix⟩
    rcases Text.quoteRune_quoted tables c with ⟨htext, -⟩ | ⟨d, w, htext, hd, hw⟩
    · rw [hcons, htext] at h
      rcases List.infix_cons_iff.mp h.stands with hpre | hin
      · have hslash : ∀ c ∈ maskMark.toList, c ≠ '\\' := fun c hc => (mark_plain c hc).2.1
        have hprefix : maskMark.toList <+: quotedRunes tables (c :: s) := by
          rw [hcons, htext]
          exact hpre
        exact ⟨(prefix_of_quotedRunes hslash hprefix).isInfix⟩
      · exact hlater (ih ⟨hin⟩)
    · have hlacks : '<' ∉ '\\' :: d :: w := by
        intro hmem
        simp only [List.mem_cons] at hmem
        rcases hmem with hslash | hesc | hdigit
        · cases hslash
        · exact escapes_mark d hd hesc.symm
        · exact hexDigits_mark '<' (hw '<' hdigit) rfl
      rw [hcons, htext] at h
      exact hlater (ih (h.after hlacks))

include hprinting in
/-- Quoting keeps the mark, and makes none. -/
theorem markIn_quotedRunes (s : List Char) : MarkIn (quotedRunes tables s) ↔ MarkIn s := by
  refine ⟨markIn_of_quotedRunes, ?_⟩
  rintro ⟨a, b, rfl⟩
  have hmark : quotedRunes tables maskMark.toList = maskMark.toList := by
    have hone : ∀ c ∈ maskMark.toList, (Text.quoteRune tables c).toList = [c] := by
      intro c hc
      obtain ⟨hquote, hslash, -⟩ := mark_plain c hc
      rw [Text.quoteRune, if_neg hquote, if_neg hslash, if_pos (hprinting.mark c hc)]
      simp [Char.toString]
    rw [quotedRunes, List.flatMap_congr hone, List.flatMap_singleton']
  refine ⟨quotedRunes tables a, quotedRunes tables b, ?_⟩
  simp only [quotedRunes, List.flatMap_append] at hmark ⊢
  rw [hmark]

include hprinting in
theorem markIn_quotedText (s : String) (rest : List Char) :
    MarkIn (quotedText tables s ++ rest) ↔ hasMark s = true ∨ MarkIn rest := by
  have hquote : '"' ∉ maskMark.toList := fun h => (mark_plain _ h).1 rfl
  have hsplit : quotedText tables s ++ rest =
      [] ++ '"' :: (quotedRunes tables s.toList ++ '"' :: rest) := by
    simp [quotedText, quotedRunes]
  rw [hsplit, markIn_lacking hquote, markIn_lacking hquote, markIn_quotedRunes hprinting,
    hasMark_iff]
  exact or_iff_right (not_markIn (by decide))

end Quoted

section Values

theorem markIn_items {vs : List Value}
    (h : ∀ v ∈ vs, MarkIn (innerText tables floats v) ↔ holdsMask v = true) :
    MarkIn (itemsText tables floats vs) ↔ holdsMaskItems vs = true := by
  have hcomma : ',' ∉ maskMark.toList := fun hmem => (mark_plain _ hmem).2.2.1 rfl
  induction vs with
  | nil => exact iff_of_false (not_markIn (List.not_mem_nil)) (by simp [holdsMaskItems])
  | cons v vs ih =>
    obtain ⟨hv, hvs⟩ := List.forall_mem_cons.mp h
    rw [holdsMaskItems, Bool.or_eq_true]
    refine Iff.trans ?_ (or_congr hv (ih hvs))
    cases vs with
    | nil =>
      rw [itemsText, itemsText]
      exact (or_iff_left (not_markIn List.not_mem_nil)).symm
    | cons w ws =>
      have hsplit : itemsText tables floats (v :: w :: ws) =
          innerText tables floats v ++ ',' :: ([' '] ++ itemsText tables floats (w :: ws)) := by
        simp [itemsText]
      rw [hsplit, markIn_lacking hcomma, markIn_append (by decide)]

include hprinting in
theorem markIn_members {ms : List (String × Value)}
    (h : ∀ m ∈ ms, MarkIn (innerText tables floats m.2) ↔ holdsMask m.2 = true) :
    MarkIn (membersText tables floats ms) ↔ holdsMaskMembers ms = true := by
  have hcomma : ',' ∉ maskMark.toList := fun hmem => (mark_plain _ hmem).2.2.1 rfl
  induction ms with
  | nil => exact iff_of_false (not_markIn (List.not_mem_nil)) (by simp [holdsMaskMembers])
  | cons m ms ih =>
    obtain ⟨key, v⟩ := m
    obtain ⟨hv, hms⟩ := List.forall_mem_cons.mp h
    rw [holdsMaskMembers, Bool.or_eq_true, Bool.or_eq_true, or_assoc]
    refine Iff.trans ?_ (or_congr_right (or_congr hv (ih hms)))
    cases ms with
    | nil =>
      have hsplit : membersText tables floats [(key, v)] =
          quotedText tables key ++ ([':'] ++ innerText tables floats v) := by
        simp [membersText]
      rw [hsplit, markIn_quotedText hprinting, markIn_append (by decide), membersText]
      exact or_congr_right (or_iff_left (not_markIn List.not_mem_nil)).symm
    | cons m' ms =>
      have hsplit : membersText tables floats ((key, v) :: m' :: ms) =
          quotedText tables key ++ ([':'] ++ (innerText tables floats v ++
            ',' :: ([' '] ++ membersText tables floats (m' :: ms)))) := by
        simp [membersText]
      rw [hsplit, markIn_quotedText hprinting, markIn_append (by decide), markIn_lacking hcomma,
        markIn_append (by decide)]

/-- Between what opens a list or map and what closes it. -/
theorem markIn_inside {front body : List Char} (hfront : '<' ∉ front) :
    MarkIn (front ++ body ++ ['\x7d']) ↔ MarkIn body := by
  have hbrace : '\x7d' ∉ maskMark.toList := fun hmem => (mark_plain _ hmem).2.2.2.2.2 rfl
  rw [List.append_assoc, markIn_append hfront, markIn_lacking hbrace]
  exact or_iff_left (not_markIn List.not_mem_nil)

include hprinting in
theorem markIn_innerText (v : Value) :
    MarkIn (innerText tables floats v) ↔ holdsMask v = true := by
  induction v using Value.nested with
  | null =>
    rw [innerText]
    exact iff_of_false (not_markIn (by decide)) (by simp [holdsMask])
  | bool b =>
    rw [innerText]
    exact iff_of_false (not_markIn (by cases b <;> decide)) (by simp [holdsMask])
  | num q => exact iff_of_false (not_markIn (hprinting.float q)) (by simp [holdsMask])
  | str s =>
    have hquoted := markIn_quotedText hprinting s []
    rw [List.append_nil] at hquoted
    rw [innerText, holdsMask, hquoted]
    exact or_iff_left (not_markIn List.not_mem_nil)
  | list items ih =>
    rw [innerText, holdsMask, markIn_inside (by decide), markIn_items ih]
  | map ms ih =>
    rw [innerText, holdsMask, markIn_inside (by decide), markIn_members hprinting ih]

include hprinting in
theorem markIn_itemText (v : Value) : MarkIn (itemText tables floats v) ↔ holdsMask v = true := by
  have hnil : ¬MarkIn "<nil>".toList := fun h => absurd h.stands (by decide)
  cases v with
  | null => exact iff_of_false hnil (by simp [holdsMask])
  | _ => exact markIn_innerText hprinting _

include hprinting in
/-- Items of one text hold placeholders, or none does. -/
theorem holdsMask_of_text {v w : Value} (h : itemText tables floats v = itemText tables floats w) :
    holdsMask v = holdsMask w := by
  rw [Bool.eq_iff_iff, ← markIn_itemText hprinting v, h, markIn_itemText hprinting w]

end Values

end Kubeast.Helm
