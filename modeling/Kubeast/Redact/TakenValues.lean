import Kubeast.Redact.BlockValues
import Kubeast.Redact.CutValues

/-! What the two scans take of a document, each as a reading of its own: the sections of its lines, by their
indentation, and the values of its fields, by their strings and braces. -/
namespace Kubeast.Redact
open Symbols Json

section Sections

/-- The column of the values below a line with the key `data` or `stringData`, if it opens them. -/
def valuesAt (line : List Marked) : Option ℕ := if isSkipped line then none else (scanKey .start line).1.block

def annotationsAt (line : List Marked) : Option ℕ := if isSkipped line then none else (scanKey .start line).1.anno

/-- A line with a value behind its key is left with a placeholder, any other one as it is. -/
def lineLeft (line : List Marked) : List Marked := if isSkipped line then line else (scanKey .start line).2

/-- Lines that are blank, comments or deeper than a column. -/
def Deeper (c : ℕ) (rows : List (List Marked)) : Prop := ∀ l ∈ rows, isSkipped l = false → c < indentOf l

/-- Lines that begin with one that is not deeper than the column. -/
def Beside (c : ℕ) (ls : List (List Marked)) : Prop := ∀ l ∈ ls.head?, isSkipped l = false ∧ indentOf l ≤ c

/-- The entries of a block of values stand in the column of the first of them. -/
def entryColumn (rows : List (List Marked)) : Option ℕ := (rows.find? fun l => !isSkipped l).map indentOf

/-- An entry is left with its key; of the lines below it nothing is left, comments and blank lines apart. -/
def entryLeft (e : Option ℕ) (line : List Marked) : List Marked :=
  if isSkipped line then line
  else if some (indentOf line) = e ∧ contains (trimSpace line) [':'] then maskEntry line else []

/-- The entry with the last-applied configuration is left with its name; of the deeper lines below it nothing
is left. The column is that of such an entry above. -/
def annotationsLeft : Option ℕ → List (List Marked) → List (List Marked)
  | _, [] => []
  | last, l :: rows =>
    if isSkipped l then l :: annotationsLeft last rows
    else if hasPrefix (trimLeft (fun c => c = '"' || c = '\'') (trimSpace l)) lastAppliedName then
      maskLastApplied l :: annotationsLeft (some (indentOf l)) rows
    else if inside last (indentOf l) then [] :: annotationsLeft last rows
    else l :: annotationsLeft none rows

/-- The lines of a document as a YAML reader sees them by their indentation, and what is left of them: blocks
of values, annotations, and other lines. -/
inductive Sections : List (List Marked) → List (List Marked) → Prop
  | nil : Sections [] []
  | line {l ls out} (hvalues : valuesAt l = none) (hanno : annotationsAt l = none) (h : Sections ls out) :
      Sections (l :: ls) (lineLeft l :: out)
  | values {l c rows ls out} (hl : valuesAt l = some c) (hrows : Deeper c rows) (hls : Beside c ls)
      (h : Sections ls out) :
      Sections (l :: (rows ++ ls)) (lineLeft l :: (rows.map (entryLeft (entryColumn rows)) ++ out))
  | annotations {l c rows ls out} (hl : annotationsAt l = some c) (hrows : Deeper c rows) (hls : Beside c ls)
      (h : Sections ls out) : Sections (l :: (rows ++ ls)) (lineLeft l :: (annotationsLeft none rows ++ out))

variable {ls rows out : List (List Marked)} {l : List Marked} {r : Registers} {c e : ℕ} {last : Option ℕ}

/-- A line that nothing reaches is scanned as the first of a document. -/
theorem scanLines_beside (hr : r.Settled) (h : ∀ l ∈ ls.head?, isSkipped l = false ∧
    inside r.block (indentOf l) = false ∧ inside r.anno (indentOf l) = false) :
    scanLines r ls = scanLines .start ls := by
  cases ls with
  | nil => rfl
  | cons l ls =>
    obtain ⟨hskip, hblock, hanno⟩ := h l rfl
    have hline : scanLine r l = scanLine .start l := by
      have hstart : scanLine .start l = scanKey .start l := by
        simp [scanLine, hskip, Registers.start, inside, Registers.closeBlock, Registers.closeAnno]
      rw [hstart]
      simp [scanLine, hskip, hblock, hanno, hr.closed]
    rw [scanLines, scanLines, hline]

theorem scanLine_start (l : List Marked) : (scanLine .start l).1 = ⟨valuesAt l, none, annotationsAt l, none⟩ ∧
    (scanLine .start l).2 = lineLeft l := by
  unfold valuesAt annotationsAt lineLeft
  cases hskip : isSkipped l with
  | true => simp [scanLine_skipped hskip, Registers.start]
  | false =>
    have hstart : scanLine .start l = scanKey .start l := by
      simp [scanLine, hskip, Registers.start, inside, Registers.closeBlock, Registers.closeAnno]
    rw [hstart]
    refine ⟨?_, rfl⟩
    rcases scanKey_registers .start l with h | ⟨-, h | h⟩ <;> rw [h] <;> rfl

theorem scanLines_values (hrows : Deeper c rows) : scanLines ⟨some c, some e, none, none⟩ rows =
    rows.map (entryLeft (some e)) ∧ runLines ⟨some c, some e, none, none⟩ rows = ⟨some c, some e, none, none⟩ := by
  induction rows with
  | nil => exact ⟨rfl, rfl⟩
  | cons l rows ih =>
    obtain ⟨hl, hrows⟩ := List.forall_mem_cons.mp hrows
    obtain ⟨hscan, hrun⟩ := ih hrows
    have hline : scanLine ⟨some c, some e, none, none⟩ l = (⟨some c, some e, none, none⟩, entryLeft (some e) l) := by
      cases hskip : isSkipped l with
      | true => rw [scanLine_skipped hskip, entryLeft, if_pos hskip]
      | false =>
        rw [scanLine_inside hskip (by simpa only [inside_some, decide_eq_true_eq] using hl hskip)]
        simp [scanEntry, entryLeft, hskip]
    rw [scanLines, runLines_cons, hline, hscan, hrun]
    exact ⟨rfl, rfl⟩

/-- The scan of a block of values. -/
theorem scanLines_block (hrows : Deeper c rows) : scanLines ⟨some c, none, none, none⟩ rows =
    rows.map (entryLeft (entryColumn rows)) ∧
      ∃ v, runLines ⟨some c, none, none, none⟩ rows = ⟨some c, v, none, none⟩ := by
  induction rows with
  | nil => exact ⟨rfl, none, rfl⟩
  | cons l rows ih =>
    obtain ⟨hl, hrows⟩ := List.forall_mem_cons.mp hrows
    cases hskip : isSkipped l with
    | true =>
      obtain ⟨hscan, v, hrun⟩ := ih hrows
      have hcolumn : entryColumn (l :: rows) = entryColumn rows := by simp [entryColumn, hskip]
      rw [scanLines, runLines_cons, scanLine_skipped hskip, hscan, hrun, List.map_cons, hcolumn, entryLeft,
        if_pos hskip]
      exact ⟨rfl, v, rfl⟩
    | false =>
      have hcolumn : entryColumn (l :: rows) = some (indentOf l) := by simp [entryColumn, hskip]
      have hline : scanLine ⟨some c, none, none, none⟩ l =
          (⟨some c, some (indentOf l), none, none⟩, entryLeft (some (indentOf l)) l) := by
        rw [scanLine_inside hskip (by simpa only [inside_some, decide_eq_true_eq] using hl hskip)]
        simp [scanEntry, entryLeft, hskip]
      obtain ⟨hscan, hrun⟩ : scanLines ⟨some c, some (indentOf l), none, none⟩ rows = _ ∧ _ :=
        scanLines_values hrows
      rw [scanLines, runLines_cons, hline, hscan, hrun, List.map_cons, hcolumn]
      exact ⟨rfl, _, rfl⟩

theorem scanLines_annotations (hrows : Deeper c rows) : scanLines ⟨none, none, some c, last⟩ rows =
    annotationsLeft last rows ∧ ∃ last', runLines ⟨none, none, some c, last⟩ rows = ⟨none, none, some c, last'⟩ := by
  induction rows generalizing last with
  | nil => exact ⟨rfl, last, rfl⟩
  | cons l rows ih =>
    obtain ⟨hl, hrows⟩ := List.forall_mem_cons.mp hrows
    rw [scanLines, runLines_cons, annotationsLeft]
    cases hskip : isSkipped l with
    | true =>
      rw [scanLine_skipped hskip]
      exact ⟨congrArg _ (ih hrows).1, (ih hrows).2⟩
    | false =>
      have hline : scanLine ⟨none, none, some c, last⟩ l = scanAnno ⟨none, none, some c, last⟩ l := by
        have hdeep := hl hskip
        simp [scanLine, hskip, inside, Registers.closeBlock, hdeep]
      rw [hline, scanAnno, if_neg Bool.false_ne_true]
      split_ifs with hname hinside
      · exact ⟨congrArg _ (ih hrows).1, (ih hrows).2⟩
      · exact ⟨congrArg _ (ih hrows).1, (ih hrows).2⟩
      · exact ⟨congrArg _ (ih hrows).1, (ih hrows).2⟩

theorem opened_cases (l : List Marked) : annotationsAt l = none ∧ (valuesAt l = none ∨ ∃ c, valuesAt l = some c) ∨
    valuesAt l = none ∧ ∃ c, annotationsAt l = some c := by
  unfold valuesAt annotationsAt
  cases isSkipped l with
  | true => exact Or.inl ⟨rfl, Or.inl rfl⟩
  | false =>
    rcases scanKey_registers .start l with h | ⟨-, h | h⟩ <;> rw [h]
    · exact Or.inl ⟨rfl, Or.inl rfl⟩
    · exact Or.inl ⟨rfl, Or.inr ⟨_, rfl⟩⟩
    · exact Or.inr ⟨rfl, _, rfl⟩

/-- A key line with the lines that it reaches, and lines that it does not reach. -/
theorem scanLines_section {r' : Registers} (hl : (scanLine .start l).1 = r) (hrun : runLines r rows = r')
    (hr : r'.Settled) (hreach : ∀ n ≤ c, inside r'.block n = false ∧ inside r'.anno n = false) (hls : Beside c ls) :
    scanLines .start (l :: (rows ++ ls)) = lineLeft l :: (scanLines r rows ++ scanLines .start ls) := by
  have hbeside := scanLines_beside hr fun m hm => ⟨(hls m hm).1, hreach _ (hls m hm).2⟩
  rw [scanLines, hl, (scanLine_start l).2, scanLines_append, hrun, hbeside]

/-- The sections are what the scan makes of the lines. -/
theorem Sections.scan (h : Sections ls out) : scanLines .start ls = out := by
  induction h with
  | nil => rfl
  | @line l ls out hvalues hanno _ ih =>
    obtain ⟨hrun, hleft⟩ := scanLine_start l
    rw [hvalues, hanno] at hrun
    rw [scanLines, hleft, hrun]
    exact congrArg _ ih
  | @values l c rows ls out hl hrows hls _ ih =>
    have hanno : annotationsAt l = none := by
      rcases opened_cases l with h | h
      · exact h.1
      · rw [h.1] at hl
        cases hl
    have hopen := (scanLine_start l).1
    rw [hl, hanno] at hopen
    obtain ⟨hscan, v, hrun⟩ := scanLines_block hrows
    have hsettled : Registers.Settled ⟨some c, v, none, none⟩ :=
      ⟨fun h => absurd h (Option.some_ne_none c), fun _ => rfl⟩
    rw [scanLines_section hopen hrun hsettled (fun n hn => ⟨decide_eq_false (not_lt.mpr hn), rfl⟩) hls, hscan, ih]
  | @annotations l c rows ls out hl hrows hls _ ih =>
    have hvalues : valuesAt l = none := by
      rcases opened_cases l with h | h
      · rw [h.1] at hl
        cases hl
      · exact h.1
    have hopen := (scanLine_start l).1
    rw [hl, hvalues] at hopen
    obtain ⟨hscan, last, hrun⟩ : scanLines ⟨none, none, some c, none⟩ rows = _ ∧ _ := scanLines_annotations hrows
    have hsettled : Registers.Settled ⟨none, none, some c, last⟩ :=
      ⟨fun _ => rfl, fun h => absurd h (Option.some_ne_none c)⟩
    rw [scanLines_section hopen hrun hsettled (fun n hn => ⟨rfl, decide_eq_false (not_lt.mpr hn)⟩) hls, hscan, ih]

/-- The lines that a column reaches come first. -/
theorem exists_deeper (c : ℕ) (ls : List (List Marked)) :
    ∃ rows rest, ls = rows ++ rest ∧ Deeper c rows ∧ Beside c rest := by
  induction ls with
  | nil => exact ⟨[], [], rfl, List.forall_mem_nil _, by simp [Beside]⟩
  | cons l ls ih =>
    by_cases hl : isSkipped l = false → c < indentOf l
    · obtain ⟨rows, rest, rfl, hrows, hrest⟩ := ih
      exact ⟨l :: rows, rest, rfl, List.forall_mem_cons.mpr ⟨hl, hrows⟩, hrest⟩
    · rw [Classical.not_imp, not_lt] at hl
      refine ⟨[], l :: ls, rfl, List.forall_mem_nil _, ?_⟩
      rintro m ⟨⟩
      exact hl

theorem exists_sections (ls : List (List Marked)) : ∃ out, Sections ls out := by
  induction hlength : ls.length using Nat.strong_induction_on generalizing ls with
  | _ n ih =>
    cases ls with
    | nil => exact ⟨[], .nil⟩
    | cons l ls =>
      rw [List.length_cons] at hlength
      rcases opened_cases l with ⟨hanno, hvalues | ⟨c, hl⟩⟩ | ⟨hvalues, c, hl⟩
      · obtain ⟨out, hout⟩ := ih ls.length (by omega) ls rfl
        exact ⟨_, .line hvalues hanno hout⟩
      · obtain ⟨rows, rest, rfl, hrows, hrest⟩ := exists_deeper c ls
        rw [List.length_append] at hlength
        obtain ⟨out, hout⟩ := ih rest.length (by omega) rest rfl
        exact ⟨_, .values hl hrows hrest hout⟩
      · obtain ⟨rows, rest, rfl, hrows, hrest⟩ := exists_deeper c ls
        rw [List.length_append] at hlength
        obtain ⟨out, hout⟩ := ih rest.length (by omega) rest rfl
        exact ⟨_, .annotations hl hrows hrest hout⟩

theorem sections_iff : Sections ls out ↔ scanLines .start ls = out := by
  refine ⟨Sections.scan, fun h => ?_⟩
  obtain ⟨out', hout⟩ := exists_sections ls
  rwa [← h, hout.scan]

end Sections

section Taken

/-- The value that a text begins with is taken, and what is behind it is left; a value that does not end
leaves nothing. -/
inductive TakesValue : List Marked → Option (List Marked) → Prop
  | whole {v r} (h : valueLen (v ++ r) = some v.length) (hv : stays v = true → Clean v) : TakesValue (v ++ r) (some r)
  | endless {s} (h : valueLen s = none) : TakesValue s none

/-- Spaces, a colon and spaces that stand before the text. -/
def Colon (gap s : List Marked) : Prop :=
  NotFirst isSpaceChar (s.map char) ∧
    ∃ before c after, gap = before ++ c :: after ∧ char c = ':' ∧ AllSpace before ∧ AllSpace after

/-- Of what stands behind an opening brace the values are taken; the keys and the punctuation have no
marks. -/
inductive TakesMembers : List Marked → Option (List Marked) → Prop
  | ends : TakesMembers [] none
  | close {a s} (ha : char a = '}') (hclean : a.mark = false) : TakesMembers (a :: s) (some s)
  | other {a s o} (hbrace : char a ≠ '}') (hquote : char a ≠ '"') (ha : isPunctuation a = true → a.mark = false)
      (h : TakesMembers s o) : TakesMembers (a :: s) o
  | endless {a s} (ha : char a = '"') (h : stringLen s = none) : TakesMembers (a :: s) none
  | value {b s o} (hb : IsString b) (hs : NoColon s) (hv : stays b = true → Clean b) (h : TakesMembers s o) :
      TakesMembers (b ++ s) o
  | entry {key gap s t o} (hkey : IsString key) (hgap : Colon gap s) (hclean : Clean (key ++ gap))
      (hv : TakesValue s (some t)) (h : TakesMembers t o) : TakesMembers (key ++ (gap ++ s)) o
  | last {key gap s} (hkey : IsString key) (hgap : Colon gap s) (hclean : Clean (key ++ gap))
      (hv : TakesValue s none) : TakesMembers (key ++ (gap ++ s)) none

/-- The value of a field is taken. -/
inductive TakesField (name : List Char) : List Marked → Option (List Marked) → Prop
  | object {a s o} (hname : name ≠ lastAppliedName) (ha : char a = '{') (hclean : a.mark = false)
      (h : TakesMembers s o) : TakesField name (a :: s) o
  | value {s o} (hobject : ¬ (name ≠ lastAppliedName ∧ hasPrefix s ['{'] = true)) (h : TakesValue s o) :
      TakesField name s o

/-- The first field of a text: what stands before it, the field up to its value, and the rest. -/
structure FirstField (t f s : List Marked) (name : List Char) : Prop where
  passed : Passed t (f ++ s)
  known : name ∈ jsonFieldNames
  isField : IsField name (f.map char)
  next : NotFirst isSpaceClass (s.map char)

/-- The values of the fields of a text are taken, one after the other, and nothing else has a mark. -/
inductive TakesFields : List Marked → Prop
  | none {t} (ht : Passed t []) (hclean : Clean t) : TakesFields t
  | field {name t f s r} (hf : FirstField t f s name) (hclean : Clean (t ++ f)) (hv : TakesField name s (some r))
      (h : TakesFields r) : TakesFields (t ++ (f ++ s))
  | last {name t f s} (hf : FirstField t f s name) (hclean : Clean (t ++ f)) (hv : TakesField name s none) :
      TakesFields (t ++ (f ++ s))

end Taken

section Takes
variable {s t b gap key w : List Marked} {a : Marked} {o : Option (List Marked)} {name : List Char} {n fuel : ℕ}

theorem valueLen_le (h : valueLen s = some n) : n ≤ s.length := by
  cases s with
  | nil => cases h
  | cons a s =>
    rw [valueLen] at h
    split_ifs at h
    · obtain ⟨m, hm, rfl⟩ := Option.map_eq_some_iff.mp h
      exact Nat.succ_le_succ (stringLen_le hm)
    · exact containerLen_le h
    · cases h
      exact (List.takeWhile_sublist _).length_le

theorem maskJSONValue_whole {v r : List Marked} (h : valueLen (v ++ r) = some v.length) :
    maskJSONValue (v ++ r) = (masked v, some r) := by
  unfold maskJSONValue masked stays
  rw [h]
  dsimp only
  rw [List.take_left, List.drop_left]
  split_ifs <;> rfl

theorem TakesValue.mask (h : TakesValue s o) : ∃ w, maskJSONValue s = (w, o) ∧ Clean w := by
  cases h with
  | whole h hv => exact ⟨_, maskJSONValue_whole h, clean_masked.mpr hv⟩
  | endless h =>
    refine ⟨write quotedPlaceholder, ?_, clean_write _⟩
    rw [maskJSONValue, h]

theorem takesValue_of_clean (h : maskJSONValue s = (w, o)) (hw : Clean w) : TakesValue s o := by
  cases hlen : valueLen s with
  | none =>
    rw [maskJSONValue, hlen] at h
    obtain ⟨-, rfl⟩ := Prod.mk.inj h
    exact .endless hlen
  | some n =>
    have hn : (s.take n).length = n := List.length_take_of_le (valueLen_le hlen)
    have hsplit : valueLen (s.take n ++ s.drop n) = some (s.take n).length := by
      rw [List.take_append_drop, hlen, hn]
    have hmask := maskJSONValue_whole hsplit
    rw [List.take_append_drop, h] at hmask
    obtain ⟨rfl, rfl⟩ := Prod.mk.inj hmask
    have hvalue := TakesValue.whole hsplit (clean_masked.mp hw)
    rwa [List.take_append_drop] at hvalue

theorem stringLen_take (h : stringLen s = some n) : stringLen (s.take n) = some n := by
  induction s using stringLen.induct generalizing n with
  | case1 => cases h
  | case2 a s hquote =>
    rw [stringLen_quote hquote] at h
    cases h
    exact stringLen_quote hquote
  | case3 a hquote hslash =>
    rw [stringLen.eq_def] at h
    simp [hslash] at h
  | case4 a hquote hslash b s ih =>
    rw [stringLen_slash hslash] at h
    obtain ⟨m, hm, rfl⟩ := Option.map_eq_some_iff.mp h
    rw [List.take_succ_cons, List.take_succ_cons, stringLen_slash hslash, ih hm]
    rfl
  | case5 a s hquote hslash ih =>
    rw [stringLen_plain hquote hslash] at h
    obtain ⟨m, hm, rfl⟩ := Option.map_eq_some_iff.mp h
    rw [List.take_succ_cons, stringLen_plain hquote hslash, ih hm]
    rfl

/-- The string that a text begins with. -/
theorem exists_string (ha : char a = '"') (h : stringLen s = some n) : ∃ b r, a :: s = b ++ r ∧ IsString b := by
  refine ⟨a :: s.take n, s.drop n, by rw [List.cons_append, List.take_append_drop], a, s.take n, rfl, ha, ?_⟩
  rw [stringLen_take h, List.length_take_of_le (stringLen_le h)]

theorem noColon_iff : NoColon s ↔ ∀ c t, (s.dropWhile fun a => isSpaceChar (char a)) = c :: t → char c ≠ ':' := by
  unfold NoColon NotFirst
  cases s.dropWhile fun a => isSpaceChar (char a) with
  | nil => simp
  | cons c t => simp

/-- A string is a key when a colon comes behind it. -/
theorem noColon_or_colon (s : List Marked) : NoColon s ∨ ∃ gap t, s = gap ++ t ∧ Colon gap t := by
  rw [noColon_iff]
  by_contra hneither
  rw [not_or, not_forall] at hneither
  obtain ⟨⟨c, hc⟩, hnot⟩ := hneither
  rw [not_forall] at hc
  obtain ⟨u, hu⟩ := hc
  rw [Classical.not_imp, not_not] at hu
  refine hnot ⟨(s.takeWhile fun a => isSpaceChar (char a)) ++ c :: u.takeWhile fun a => isSpaceChar (char a),
    u.dropWhile fun a => isSpaceChar (char a), ?_, ?_, _, c, _, rfl, hu.2, ?_, ?_⟩
  · rw [List.append_assoc, List.cons_append, List.takeWhile_append_dropWhile, ← hu.1,
      List.takeWhile_append_dropWhile]
  · have hnext := notFirst_dropWhile (p := isSpaceChar) (u.map char)
    rwa [List.dropWhile_map] at hnext
  · intro a ha
    simpa using List.mem_takeWhile_imp ha
  · intro a ha
    simpa using List.mem_takeWhile_imp ha

theorem Colon.maskJSONMember (key : List Marked) (h : Colon gap s) :
    Redact.maskJSONMember (key ++ (gap ++ s)) key.length =
      (key ++ (gap ++ (maskJSONValue s).1), (maskJSONValue s).2) := by
  obtain ⟨hs, before, c, after, rfl, hc, hbefore, hafter⟩ := h
  have hcolon := dropWhile_space hbefore (after ++ s) (show isSpaceChar (char c) = false by rw [hc]; decide)
  have hvalue : (after ++ s).takeWhile (fun a => isSpaceChar (char a)) = after ∧
      (after ++ s).dropWhile (fun a => isSpaceChar (char a)) = s := by
    cases s with
    | nil => simpa [AllSpace] using hafter
    | cons a s => exact dropWhile_space hafter s (hs (char a) rfl)
  unfold Redact.maskJSONMember
  rw [List.append_assoc, List.cons_append, List.drop_left, hcolon.2]
  dsimp only
  rw [if_pos hc, hcolon.1, List.take_left, hvalue.1, hvalue.2]
  simp

theorem maskJSONMembers_last {b r : List Marked} (hb : IsString b)
    (h : maskJSONMember (b ++ r) b.length = (w, none)) (fuel : ℕ) :
    maskJSONMembers (fuel + 1) (b ++ r) = (w, none) := by
  have hlen := (hb.filled []).valueLen r
  rw [List.nil_append] at hlen
  obtain ⟨a, u, rfl, ha, -⟩ := hb
  rw [List.cons_append] at hlen h ⊢
  rw [maskJSONMembers, if_neg (by rw [ha]; decide), if_pos ha, hlen]
  dsimp only
  rw [h]

theorem TakesMembers.mask (h : TakesMembers s o) : ∀ fuel, s.length ≤ fuel →
    ∃ w, maskJSONMembers (fuel + 1) s = (w, o) ∧ Clean w := by
  induction h with
  | ends => exact fun fuel _ => ⟨[], rfl, clean_nil⟩
  | @close a s ha hclean =>
    exact fun fuel _ => ⟨[a], by rw [maskJSONMembers, if_pos ha], clean_cons.mpr ⟨hclean, clean_nil⟩⟩
  | @other a s o hbrace hquote ha _ ih =>
    intro fuel hfuel
    obtain ⟨n, rfl⟩ := Nat.exists_eq_add_of_le' (Nat.le_trans (Nat.le_add_left 1 _) hfuel)
    obtain ⟨w, hmask, hw⟩ := ih n (Nat.le_of_succ_le_succ hfuel)
    refine ⟨(if isPunctuation a then [a] else []) ++ w, ?_, clean_append.mpr ⟨?_, hw⟩⟩
    · rw [maskJSONMembers, if_neg hbrace, if_neg hquote, hmask]
      rfl
    · split_ifs with hkept
      · exact clean_cons.mpr ⟨ha hkept, clean_nil⟩
      · exact clean_nil
  | @endless a s ha h =>
    intro fuel _
    have hlen : valueLen (a :: s) = none := by rw [valueLen, if_pos ha, h]; rfl
    exact ⟨[], by rw [maskJSONMembers, if_neg (by rw [ha]; decide), if_pos ha, hlen], clean_nil⟩
  | @value b s o hb hs hv _ ih =>
    intro fuel hfuel
    have hpos := hb.length_pos
    rw [List.length_append] at hfuel
    obtain ⟨n, rfl⟩ := Nat.exists_eq_add_of_le' (show 1 ≤ fuel by omega)
    obtain ⟨w, hmask, hw⟩ := ih n (by omega)
    refine ⟨masked b ++ w, ?_, clean_append.mpr ⟨clean_masked.mpr hv, hw⟩⟩
    rw [maskJSONMembers_string hb (maskJSONMember_noColon hb (noColon_iff.mp hs)), hmask]
  | @entry key gap s t o hkey hgap hclean hv _ ih =>
    intro fuel hfuel
    have hpos := hkey.length_pos
    obtain ⟨v, hvalue, hclean'⟩ := hv.mask
    have htlen := maskJSONValue_length (congrArg Prod.snd hvalue)
    have hmember := hgap.maskJSONMember key
    rw [List.length_append, List.length_append] at hfuel
    obtain ⟨n, rfl⟩ := Nat.exists_eq_add_of_le' (show 1 ≤ fuel by omega)
    obtain ⟨w, hmask, hw⟩ := ih n (by omega)
    rw [hvalue] at hmember
    refine ⟨key ++ (gap ++ v) ++ w, ?_, ?_⟩
    · rw [maskJSONMembers_string hkey hmember, hmask]
    · rw [clean_append, ← List.append_assoc, clean_append]
      exact ⟨⟨hclean, hclean'⟩, hw⟩
  | @last key gap s hkey hgap hclean hv =>
    intro fuel _
    obtain ⟨v, hvalue, hclean'⟩ := hv.mask
    have hmember := hgap.maskJSONMember key
    rw [hvalue] at hmember
    refine ⟨key ++ (gap ++ v), maskJSONMembers_last hkey hmember fuel, ?_⟩
    rw [← List.append_assoc, clean_append]
    exact ⟨hclean, hclean'⟩

/-- The scan at a string, if it takes what comes behind. -/
theorem takesMembers_string {r : List Marked} (hb : IsString b)
    (hrest : ∀ {t w o}, t.length ≤ r.length → maskJSONMembers fuel t = (w, o) → Clean w → TakesMembers t o)
    (h : maskJSONMembers (fuel + 1) (b ++ r) = (w, o)) (hw : Clean w) : TakesMembers (b ++ r) o := by
  rcases noColon_or_colon r with hr | ⟨gap, u, rfl, hgap⟩
  · have hmember := maskJSONMember_noColon hb (noColon_iff.mp hr)
    rw [maskJSONMembers_string hb hmember] at h
    obtain ⟨rfl, rfl⟩ := Prod.mk.inj h
    obtain ⟨hvalue, hw⟩ := clean_append.mp hw
    exact .value hb hr (clean_masked.mp hvalue) (hrest le_rfl rfl hw)
  · have hmember := hgap.maskJSONMember b
    cases hvalue : maskJSONValue u with
    | mk v next =>
      rw [hvalue] at hmember
      cases next with
      | none =>
        rw [maskJSONMembers_last hb hmember] at h
        obtain ⟨rfl, rfl⟩ := Prod.mk.inj h
        rw [← List.append_assoc, clean_append] at hw
        exact .last hb hgap hw.1 (takesValue_of_clean hvalue hw.2)
      | some t =>
        have htlen := maskJSONValue_length (congrArg Prod.snd hvalue)
        rw [maskJSONMembers_string hb hmember] at h
        obtain ⟨rfl, rfl⟩ := Prod.mk.inj h
        rw [clean_append, ← List.append_assoc, clean_append] at hw
        rw [List.length_append] at hrest
        exact .entry hb hgap hw.1.1 (takesValue_of_clean hvalue hw.1.2) (hrest (by omega) rfl hw.2)

theorem takesMembers_of_clean (hfuel : s.length < fuel) (h : maskJSONMembers fuel s = (w, o)) (hw : Clean w) :
    TakesMembers s o := by
  induction fuel generalizing s w o with
  | zero => exact absurd hfuel (Nat.not_lt_zero _)
  | succ fuel ih =>
    cases s with
    | nil =>
      obtain ⟨-, rfl⟩ := Prod.mk.inj h
      exact .ends
    | cons a s =>
      by_cases hclose : char a = '}'
      · rw [maskJSONMembers, if_pos hclose] at h
        obtain ⟨rfl, rfl⟩ := Prod.mk.inj h
        exact .close hclose (clean_cons.mp hw).1
      by_cases hquote : char a = '"'
      · cases hlen : stringLen s with
        | none =>
          have hnone : valueLen (a :: s) = none := by rw [valueLen, if_pos hquote, hlen]; rfl
          rw [maskJSONMembers, if_neg hclose, if_pos hquote, hnone] at h
          obtain ⟨-, rfl⟩ := Prod.mk.inj h
          exact .endless hquote hlen
        | some n =>
          obtain ⟨b, r, hsplit, hb⟩ := exists_string hquote hlen
          have hpos := hb.length_pos
          rw [hsplit] at hfuel h ⊢
          rw [List.length_append] at hfuel
          exact takesMembers_string hb (fun ht => ih (by omega)) h hw
      · rw [maskJSONMembers, if_neg hclose, if_neg hquote] at h
        obtain ⟨rfl, rfl⟩ := Prod.mk.inj h
        obtain ⟨hkept, hrest⟩ := clean_append.mp hw
        refine .other hclose hquote (fun ha => ?_) (ih (Nat.succ_lt_succ_iff.mp hfuel) rfl hrest)
        rw [show ([',', '+', '-'].contains (char a) || isSpaceChar (char a)) = true from ha] at hkept
        exact (clean_cons.mp hkept).1

theorem TakesField.mask (h : TakesField name s o) : ∃ w, maskField name s = (w, o) ∧ Clean w := by
  unfold maskField
  cases h with
  | @object a s o hname ha hclean h =>
    obtain ⟨w, hmask, hw⟩ := h.mask _ le_rfl
    refine ⟨a :: w, ?_, clean_cons.mpr ⟨hclean, hw⟩⟩
    rw [if_pos ⟨hname, by simp [hasPrefix, ha]⟩, maskJSONObject, hmask]
  | value hobject h =>
    rw [if_neg hobject]
    exact h.mask

theorem takesField_of_clean (h : maskField name s = (w, o)) (hw : Clean w) : TakesField name s o := by
  unfold maskField at h
  split_ifs at h with hobject
  · obtain ⟨hname, hbrace⟩ := hobject
    cases s with
    | nil => cases hbrace
    | cons a s =>
      have ha : char a = '{' := by
        rw [hasPrefix, List.isPrefixOf_iff_prefix, List.map_cons, List.cons_prefix_cons] at hbrace
        exact hbrace.1.symm
      rw [maskJSONObject] at h
      obtain ⟨rfl, rfl⟩ := Prod.mk.inj h
      obtain ⟨hclean, hrest⟩ := clean_cons.mp hw
      exact .object hname ha hclean (takesMembers_of_clean (Nat.lt_succ_self _) rfl hrest)
  · exact .value hobject (takesValue_of_clean h hw)

theorem passed_nil (u : List Marked) : Passed [] u := fun _ hv hne => absurd (List.suffix_nil.mp hv) hne

theorem passed_cons {a : Marked} {u : List Marked} :
    Passed (a :: t) u ↔ ¬ Starts ((a :: t ++ u).map char) ∧ Passed t u := by
  constructor
  · intro h
    exact ⟨h _ (List.suffix_refl _) (List.cons_ne_nil _ _), fun v hv => h v (hv.trans (List.suffix_cons a t))⟩
  · rintro ⟨hstarts, h⟩ v hv hne
    rcases List.suffix_cons_iff.mp hv with rfl | hv
    · exact hstarts
    · exact h v hv hne

theorem passed_of_none (h : findField s = none) : Passed s [] := by
  induction s with
  | nil => exact passed_nil []
  | cons a s ih =>
    rw [findField] at h
    cases hmatch : matchField ((a :: s).map char) with
    | some p =>
      rw [hmatch] at h
      cases h
    | none =>
      rw [hmatch] at h
      refine passed_cons.mpr ⟨?_, ih (Option.map_eq_none_iff.mp h)⟩
      rw [List.append_nil]
      exact matchField_eq_none.mp hmatch

theorem matchField_next {s name : List Char} (h : matchField s = some (name, n)) :
    NotFirst isSpaceClass (s.drop n) := by
  obtain ⟨name', -, hp⟩ := List.exists_of_findSome?_eq_some h
  obtain ⟨m, hm, hpair⟩ := Option.map_eq_some_iff.mp hp
  cases hpair
  unfold matchName at hm
  cases hquoted : after ('"' :: (name ++ ['"'])) s with
  | none =>
    rw [hquoted] at hm
    cases hm
  | some t =>
    rw [hquoted] at hm
    dsimp only at hm
    cases hcolon : after [':'] (t.dropWhile isSpaceClass) with
    | none =>
      rw [hcolon] at hm
      cases hm
    | some u =>
      rw [hcolon] at hm
      cases hm
      rw [after_eq_some] at hquoted hcolon
      have hsuffix : u.dropWhile isSpaceClass <:+ s := by
        refine (List.dropWhile_suffix _).trans (List.IsSuffix.trans ?_ ⟨_, hquoted.symm⟩)
        exact List.IsSuffix.trans ⟨_, hcolon.symm⟩ (List.dropWhile_suffix _)
      rw [← List.suffix_iff_eq_drop.mp hsuffix]
      exact notFirst_dropWhile u

/-- The field that the search finds is the first one. -/
theorem findField_first {copied rest : List Marked} (h : findField s = some (copied, name, rest)) :
    ∃ t f, s = t ++ (f ++ rest) ∧ copied = t ++ f ∧ FirstField t f rest name := by
  induction s generalizing copied with
  | nil => cases h
  | cons a s ih =>
    rw [findField] at h
    cases hmatch : matchField ((a :: s).map char) with
    | some p =>
      obtain ⟨known, n⟩ := p
      obtain ⟨hknown, f, u, hsplit, hf, rfl⟩ := matchField_eq_some hmatch
      have hnext := matchField_next hmatch
      rw [hmatch] at h
      cases h
      refine ⟨[], (a :: s).take f.length, ?_, rfl, passed_nil _, hknown, ?_, ?_⟩
      · rw [List.nil_append, List.take_append_drop]
      · rwa [List.map_take, hsplit, List.take_left]
      · rwa [List.map_drop]
    | none =>
      rw [hmatch] at h
      obtain ⟨⟨copied', p⟩, hfind, h⟩ := Option.map_eq_some_iff.mp h
      cases h
      obtain ⟨t, f, rfl, rfl, hfirst⟩ := ih hfind
      refine ⟨a :: t, f, rfl, rfl, ?_, hfirst.known, hfirst.isField, hfirst.next⟩
      refine passed_cons.mpr ⟨?_, hfirst.passed⟩
      exact matchField_eq_none.mp hmatch

theorem FirstField.strip {f r : List Marked} (h : FirstField t f r name) (hmask : maskField name r = (w, o)) :
    stripSecretJSON (t ++ (f ++ r)) = t ++ f ++ (w ++ o.elim [] stripSecretJSON) := by
  rw [stripSecretJSON_some (findField_at h.passed h.known h.isField h.next), hmask]

theorem TakesFields.clean (h : TakesFields s) : Clean (stripSecretJSON s) := by
  induction h with
  | none ht hclean =>
    have hstrip := stripSecretJSON_passed ht
    rw [List.append_nil] at hstrip
    rw [hstrip]
    exact clean_append.mpr ⟨hclean, clean_nil⟩
  | field hf hclean hv _ ih =>
    obtain ⟨w, hmask, hw⟩ := hv.mask
    rw [hf.strip hmask]
    exact clean_append.mpr ⟨hclean, clean_append.mpr ⟨hw, ih⟩⟩
  | last hf hclean hv =>
    obtain ⟨w, hmask, hw⟩ := hv.mask
    rw [hf.strip hmask]
    exact clean_append.mpr ⟨hclean, clean_append.mpr ⟨hw, clean_nil⟩⟩

/-- The scan by strings leaves no mark exactly when the values that it takes have them all. -/
theorem clean_stripSecretJSON_iff (s : List Marked) : Clean (stripSecretJSON s) ↔ TakesFields s := by
  refine ⟨fun h => ?_, TakesFields.clean⟩
  induction hlength : s.length using Nat.strong_induction_on generalizing s with
  | _ n ih =>
    cases hfind : findField s with
    | none =>
      rw [stripSecretJSON_none hfind] at h
      exact .none (passed_of_none hfind) h
    | some p =>
      obtain ⟨copied, name, rest⟩ := p
      have hrest := findField_length hfind
      obtain ⟨t, f, rfl, rfl, hfirst⟩ := findField_first hfind
      cases hmask : maskField name rest with
      | mk w next =>
        rw [hfirst.strip hmask] at h
        obtain ⟨hcopied, h⟩ := clean_append.mp h
        obtain ⟨hw, h⟩ := clean_append.mp h
        have hvalue := takesField_of_clean hmask hw
        cases next with
        | none => exact .last hfirst hcopied hvalue
        | some r =>
          have hr := maskField_length (congrArg Prod.snd hmask)
          rw [List.length_append, List.length_append] at hrest hlength
          exact .field hfirst hcopied hvalue (ih r.length (by omega) r h rfl)

end Takes

end Kubeast.Redact
