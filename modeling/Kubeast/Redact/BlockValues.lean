import Kubeast.Redact.IndentScan
import Mathlib.Data.List.Infix

/-! A text in block style with entries under `data:` or `stringData:`, and when the scan by
indentation leaves each key with a placeholder behind it and nothing of any value. -/
namespace Kubeast.Redact
open Symbols

section Scan
variable {α : Type*} [Symbol α]

theorem length_scanLines (r : Registers) (ls : List (List α)) : (scanLines r ls).length = ls.length := by
  induction ls generalizing r with
  | nil => rfl
  | cons l ls ih => rw [scanLines, List.length_cons, ih, List.length_cons]

theorem newline_not_mem_inserted : '\n' ∉ inserted := by decide

theorem isLine_scanLine (r : Registers) {line : List α} (h : IsLine line) : IsLine (scanLine r line).2 := by
  intro a ha
  rcases List.mem_append.mp (scanLine_subset r line ha) with ha | ha
  · exact h a ha
  · obtain ⟨c, hc, rfl⟩ := List.mem_map.mp ha
    rw [char_lit]
    exact fun hbreak => newline_not_mem_inserted (hbreak ▸ hc)

theorem isLine_scanLines (r : Registers) {ls : List (List α)} (h : ∀ l ∈ ls, IsLine l) :
    ∀ l ∈ scanLines r ls, IsLine l := by
  induction ls generalizing r with
  | nil => exact h
  | cons l ls ih =>
    rw [List.forall_mem_cons] at h
    rw [scanLines, List.forall_mem_cons]
    exact ⟨isLine_scanLine r h.1, ih _ h.2⟩

/-- The lines of what the scan returns are the scanned lines. -/
theorem splitLines_stripSecretYAML {ls : List (List α)} (hne : ls ≠ []) (h : ∀ l ∈ ls, IsLine l) :
    splitLines (stripSecretYAML (joinLines ls)) = scanLines .start ls := by
  have hscanned : scanLines .start ls ≠ [] := by
    rw [← List.length_pos_iff, length_scanLines]
    exact List.length_pos_iff.mpr hne
  rw [stripSecretYAML, splitLines_joinLines hne h, splitLines_joinLines hscanned (isLine_scanLines _ h)]

/-- Outside of a block the scan keeps no column of one. -/
structure Registers.Settled (r : Registers) : Prop where
  value : r.block = none → r.value = none
  last : r.anno = none → r.last = none

theorem Registers.Settled.closed {r : Registers} (h : r.Settled) : r.closeBlock.closeAnno = .start := by
  obtain ⟨block, value, anno, last⟩ := r
  obtain ⟨hvalue, hlast⟩ := h
  cases block with
  | none =>
    obtain rfl : value = none := hvalue rfl
    cases anno with
    | none =>
      obtain rfl : last = none := hlast rfl
      rfl
    | some a => rfl
  | some b =>
    cases anno with
    | none =>
      obtain rfl : last = none := hlast rfl
      rfl
    | some a => rfl

theorem settled_scanLine {r : Registers} (h : r.Settled) (line : List α) : (scanLine r line).1.Settled := by
  unfold scanLine
  split_ifs with hskip hblock hanno
  · exact h
  · obtain ⟨b, hb, -⟩ := inside_eq_true.mp hblock
    exact ⟨fun hnone => absurd (hb.symm.trans hnone) (by simp), h.last⟩
  · obtain ⟨a, ha, -⟩ := inside_eq_true.mp hanno
    have hvalue : r.closeBlock.value = none := by
      cases hb : r.block with
      | none => simp [Registers.closeBlock, hb, h.value hb]
      | some b => simp [Registers.closeBlock, hb]
    have hsome : (scanAnno r.closeBlock line).1.anno = some a := by
      rw [(scanAnno_registers _ line).2, closeBlock_anno, ha]
    refine ⟨fun _ => ?_, fun hnone => absurd (hsome.symm.trans hnone) (by simp)⟩
    unfold scanAnno
    split_ifs <;> exact hvalue
  · rw [h.closed]
    rcases scanKey_registers .start line with hkey | ⟨-, hkey | hkey⟩ <;> rw [hkey] <;>
      exact ⟨by simp [Registers.start], by simp [Registers.start]⟩

theorem settled_runLines (ls : List (List α)) : (runLines .start ls).Settled := by
  induction ls using List.reverseRecOn with
  | nil => exact ⟨fun _ => rfl, fun _ => rfl⟩
  | append_singleton ls l ih =>
    rw [runLines_concat]
    exact settled_scanLine ih l

/-- Below what it closes a line is scanned as the first of a text. -/
theorem scanLine_first {ls : List (List α)} {line : List α} (hskip : isSkipped line = false)
    (h : Closed ls (indentOf line)) : scanLine (runLines .start ls) line = scanKey .start line := by
  obtain ⟨hblock, hanno⟩ := h.not_inside
  simp [scanLine, hskip, hblock, hanno, (settled_runLines ls).closed]

end Scan

section Texts
variable (e : ℕ)

/-- An entry: its key, what follows the colon, and the lines of its value below. -/
structure Entry where
  key : List Char
  value : List Marked
  below : List (List Marked)

namespace Entry
variable (x : Entry)

def line : List Marked := List.replicate e (lit ' ') ++ (write x.key ++ lit ':' :: x.value)

def lines : List (List Marked) := x.line e :: x.below

def stripped : List Marked :=
  List.replicate e (lit ' ') ++ write (x.key ++ (": ".toList ++ secretPlaceholder))

/-- The entry stands in the column, and its value in deeper ones. -/
structure At : Prop where
  key : ∃ c s, x.key = c :: s ∧ Text.isSpace c = false ∧ c ≠ '#'
  below : ∀ l ∈ x.below, isSkipped l = false → e < indentOf l

end Entry

/-- Where the key stands; `KeyLine.column` is where the scan takes it to stand. -/
def KeyLine.place (k : KeyLine) : ℕ := k.item.elim k.indent fun n => k.indent + 2 + n

structure BlockText where
  above : List (List Marked)
  key : KeyLine
  gaps : List (List Marked)
  column : ℕ
  entries : List Entry
  rest : List (List Marked)

def BlockText.lines (t : BlockText) : List (List Marked) :=
  t.above ++ t.key.text :: (t.gaps ++ (t.entries.flatMap (Entry.lines t.column) ++ t.rest))

/-- Only the values have marks. The rest begins with the first line that is not deeper than the key. -/
structure SecretBlock extends BlockText where
  entries_ne : entries ≠ []
  entries_at : ∀ x ∈ entries, x.At column
  deeper : key.place < column
  own : onItsOwn key.rest = true
  closed : Closed above key.indent
  gaps_skipped : ∀ l ∈ gaps, isSkipped l = true
  rest_first : ∀ l ∈ rest.head?, isSkipped l = false ∧ indentOf l ≤ key.place
  clean : (∀ l ∈ above, Clean l) ∧ Clean key.rest ∧ (∀ l ∈ gaps, Clean l) ∧ ∀ l ∈ rest, Clean l
  isLine : ∀ l ∈ toBlockText.lines, IsLine l

def SecretBlock.text (b : SecretBlock) : List Marked := joinLines b.lines

/-- Each entry has become its key with the placeholder, and the lines below it have no mark. -/
inductive Stripped : List Entry → List (List Marked) → Prop
  | nil : Stripped [] []
  | cons {x xs values rows} (hlength : values.length = x.below.length) (hclean : ∀ l ∈ values, Clean l)
      (h : Stripped xs rows) : Stripped (x :: xs) (x.stripped e :: (values ++ rows))

/-- The lines are what the scan makes of them as a text of its own; one that is no key of a Secret's
values or of annotations and stands in no block of such a key stays. -/
def Left (rest out : List (List Marked)) : Prop :=
  out = scanLines .start rest ∧ ∀ (i : ℕ) (l : List Marked), rest[i]? = some l → isInert l = true →
    Closed (rest.take i) (indentOf l) → out[i]? = some l

/-- What is to be left of the text. -/
def SecretBlock.Strips (b : SecretBlock) (out : List Marked) : Prop :=
  Clean out ∧ ∃ top rows rest, splitLines out = top ++ b.key.text :: (b.gaps ++ (rows ++ rest)) ∧
    top.length = b.above.length ∧ Stripped b.column b.entries rows ∧ Left b.rest rest

/-- No key of an entry has a colon, no line of a value looks like a comment, and the line that ends
the block is not deeper than the scan takes the key to be. -/
structure SecretBlock.Readable (b : SecretBlock) : Prop where
  keys : ∀ x ∈ b.entries, ':' ∉ x.key
  values : ∀ x ∈ b.entries, ∀ l ∈ x.below, isSkipped l = true → Clean l
  ends : ∀ l ∈ b.rest.head?, indentOf l ≤ b.key.column

end Texts

section Entries
variable {e c : ℕ} {x : Entry} {value : Option ℕ}

theorem Entry.At.trimSpace_line (h : x.At e) :
    trimSpace (x.line e) = write x.key ++ lit ':' :: trimRight Text.isSpace x.value := by
  obtain ⟨a, s, hkey, hspace, -⟩ := h.key
  have hspaces : ∀ b ∈ List.replicate e (lit ' ' : Marked), Text.isSpace (char b) = true := by
    intro b hb
    rw [List.eq_of_mem_replicate hb]
    rfl
  have hleft : trimLeft Text.isSpace (x.line e) = write x.key ++ lit ':' :: x.value := by
    rw [Entry.line, hkey, write, List.map_cons, List.cons_append]
    exact trimLeft_append_cons (by rwa [char_lit]) hspaces _
  rw [trimSpace, trim, hleft, trimRight_append_cons (by decide)]

theorem Entry.At.indentOf_line (h : x.At e) : indentOf (x.line e) = e := by
  obtain ⟨a, s, hkey, hspace, -⟩ := h.key
  have hne : a ≠ ' ' := by
    rintro rfl
    exact absurd hspace (by decide)
  rw [indentOf, Entry.line, hkey, List.takeWhile_append_of_pos]
  · simp [write, hne]
  · intro b hb
    rw [List.eq_of_mem_replicate hb]
    rfl

theorem Entry.At.isSkipped_line (h : x.At e) : isSkipped (x.line e) = false := by
  obtain ⟨a, s, hkey, -, hcomment⟩ := h.key
  rw [isSkipped, h.trimSpace_line, hkey, write, List.map_cons, List.cons_append,
    hasPrefix_cons_of_ne (by rwa [char_lit])]
  rfl

/-- What the scan makes of the lines of an entry. -/
def Entry.scanned (e : ℕ) (x : Entry) : List (List Marked) :=
  (List.replicate e (lit ' ') ++
      (write (x.key.takeWhile (· ≠ ':')) ++ write (": ".toList ++ secretPlaceholder))) ::
    x.below.map fun l => if isSkipped l then l else []

theorem Entry.At.maskEntry_line (h : x.At e) : maskEntry (x.line e) = List.replicate e (lit ' ') ++
    (write (x.key.takeWhile (· ≠ ':')) ++ write (": ".toList ++ secretPlaceholder)) := by
  have hkey : (write x.key ++ lit ':' :: trimRight Text.isSpace x.value).takeWhile
      (fun a => char a ≠ ':') = (write (x.key.takeWhile (· ≠ ':')) : List Marked) := by
    induction x.key with
    | nil => simp [write]
    | cons a s ih =>
      by_cases ha : a = ':'
      · simp [write, ha]
      · simpa [write, ha] using ih
  rw [maskEntry, h.indentOf_line, h.trimSpace_line, hkey]

theorem inside_some {b n : ℕ} : inside (some b) n = decide (b < n) := rfl

/-- The scan inside a block whose entries it takes to stand in the column. -/
theorem scanLine_line (h : x.At e) (hc : c < e) (hvalue : value.getD e = e) :
    scanLine ⟨some c, value, none, none⟩ (x.line e) =
      (⟨some c, some e, none, none⟩, maskEntry (x.line e)) := by
  have hcolon : contains (trimSpace (x.line e)) [':'] = true := by
    rw [h.trimSpace_line, contains, List.any_eq_true]
    refine ⟨':' :: (trimRight Text.isSpace x.value).map char, ?_, by simp⟩
    rw [List.mem_tails]
    exact ⟨x.key, by rw [List.map_append, map_char_write]; rfl⟩
  rw [scanLine_inside h.isSkipped_line (by simpa [inside, h.indentOf_line] using hc)]
  simp [scanEntry, h.indentOf_line, hvalue, hcolon]

theorem scanLines_below {ls : List (List Marked)} (hc : c < e)
    (h : ∀ l ∈ ls, isSkipped l = false → e < indentOf l) :
    scanLines ⟨some c, some e, none, none⟩ ls = ls.map (fun l => if isSkipped l then l else []) ∧
      runLines ⟨some c, some e, none, none⟩ ls = ⟨some c, some e, none, none⟩ := by
  induction ls with
  | nil => exact ⟨rfl, rfl⟩
  | cons l ls ih =>
    rw [List.forall_mem_cons] at h
    obtain ⟨hscan, hrun⟩ := ih h.2
    have hline : scanLine ⟨some c, some e, none, none⟩ l =
        (⟨some c, some e, none, none⟩, if isSkipped l then l else []) := by
      cases hskip : isSkipped l with
      | true => exact scanLine_skipped hskip _
      | false =>
        have hdeep := h.1 hskip
        have hne : indentOf l ≠ e := by omega
        rw [scanLine_inside hskip (by simp only [inside_some, decide_eq_true_eq]; omega)]
        simp [scanEntry, hne]
    rw [scanLines, hline, hscan, runLines, List.foldl_cons, hline]
    exact ⟨rfl, hrun⟩

theorem runLines_cons {α : Type*} [Symbol α] (r : Registers) (l : List α) (ls : List (List α)) :
    runLines r (l :: ls) = runLines (scanLine r l).1 ls := rfl

theorem runLines_append {α : Type*} [Symbol α] (r : Registers) (ls ls' : List (List α)) :
    runLines r (ls ++ ls') = runLines (runLines r ls) ls' := List.foldl_append

theorem scanLines_entry (h : x.At e) (hc : c < e) (hvalue : value.getD e = e) :
    scanLines ⟨some c, value, none, none⟩ (x.lines e) = x.scanned e ∧
      runLines ⟨some c, value, none, none⟩ (x.lines e) = ⟨some c, some e, none, none⟩ := by
  obtain ⟨hscan, hrun⟩ := scanLines_below hc h.below
  rw [Entry.lines, scanLines, runLines_cons, scanLine_line h hc hvalue, h.maskEntry_line, hscan]
  exact ⟨rfl, hrun⟩

theorem scanLines_entries {xs : List Entry} (hxs : xs ≠ []) (h : ∀ x ∈ xs, x.At e) (hc : c < e)
    (hvalue : value.getD e = e) :
    scanLines ⟨some c, value, none, none⟩ (xs.flatMap (Entry.lines e)) = xs.flatMap (Entry.scanned e) ∧
      runLines ⟨some c, value, none, none⟩ (xs.flatMap (Entry.lines e)) = ⟨some c, some e, none, none⟩ := by
  induction xs generalizing value with
  | nil => exact absurd rfl hxs
  | cons x xs ih =>
    rw [List.forall_mem_cons] at h
    obtain ⟨hscan, hrun⟩ := scanLines_entry h.1 hc hvalue
    rw [List.flatMap_cons, List.flatMap_cons, scanLines_append, runLines_append, hscan, hrun]
    by_cases hnil : xs = []
    · rw [hnil]
      exact ⟨rfl, rfl⟩
    · have hvalue' : (some e).getD e = e := rfl
      obtain ⟨hscan', hrun'⟩ := ih hnil h.2 hvalue'
      rw [hscan', hrun']
      exact ⟨rfl, rfl⟩

theorem scanLines_gaps {ls : List (List Marked)} (h : ∀ l ∈ ls, isSkipped l = true) (r : Registers) :
    scanLines r ls = ls ∧ runLines r ls = r := by
  induction ls with
  | nil => exact ⟨rfl, rfl⟩
  | cons l ls ih =>
    rw [List.forall_mem_cons] at h
    obtain ⟨hscan, hrun⟩ := ih h.2
    rw [scanLines, runLines_cons, scanLine_skipped h.1]
    exact ⟨congrArg _ hscan, hrun⟩

theorem Entry.stripped_eq_iff :
    x.stripped e :: x.below.map (fun l => if isSkipped l then l else []) = x.scanned e ↔ ':' ∉ x.key := by
  have hprefix := List.takeWhile_prefix (l := x.key) (· ≠ ':')
  constructor
  · intro h hmem
    have hlength := congrArg List.length (List.cons.inj h).1
    simp only [Entry.stripped, List.length_append, write, List.length_map] at hlength
    have hkey := hprefix.eq_of_length (by omega)
    have hne := List.mem_takeWhile_imp (hkey ▸ hmem)
    exact absurd hne (by decide)
  · intro h
    have hkey : x.key.takeWhile (· ≠ ':') = x.key := by
      rw [List.takeWhile_eq_self_iff]
      intro c hc
      exact decide_eq_true fun hcolon => h (hcolon ▸ hc)
    rw [Entry.scanned, hkey, Entry.stripped, write, List.map_append]
    rfl

theorem stripped_cons {xs : List Entry} {rows : List (List Marked)} : Stripped e (x :: xs) rows ↔
    ∃ values rows', rows = x.stripped e :: (values ++ rows') ∧ values.length = x.below.length ∧
      (∀ l ∈ values, Clean l) ∧ Stripped e xs rows' := by
  constructor
  · rintro ⟨⟩
    exact ⟨_, _, rfl, by assumption, by assumption, by assumption⟩
  · rintro ⟨values, rows', rfl, hlength, hclean, h⟩
    exact .cons hlength hclean h

theorem clean_scanned {ls : List (List Marked)} :
    (∀ l ∈ ls.map (fun l => if isSkipped l then l else []), Clean l) ↔
      ∀ l ∈ ls, isSkipped l = true → Clean l := by
  rw [List.forall_mem_map]
  refine forall₂_congr fun l _ => ?_
  cases isSkipped l with
  | true => simp
  | false => simpa using clean_nil

theorem stripped_scanned {xs : List Entry} : Stripped e xs (xs.flatMap (Entry.scanned e)) ↔
    ∀ x ∈ xs, ':' ∉ x.key ∧ ∀ l ∈ x.below, isSkipped l = true → Clean l := by
  induction xs with
  | nil => exact iff_of_true .nil (by simp)
  | cons x xs ih =>
    rw [List.forall_mem_cons, ← ih, List.flatMap_cons, stripped_cons, ← clean_scanned,
      ← Entry.stripped_eq_iff (e := e)]
    constructor
    · rintro ⟨values, rows, hrows, hlength, hclean, h⟩
      rw [Entry.scanned, List.cons_append, List.cons.injEq] at hrows
      obtain ⟨hvalues, hrest⟩ := List.append_inj hrows.2 (by rw [List.length_map, hlength])
      rw [Entry.scanned, ← hrows.1, hvalues, hrest]
      exact ⟨⟨rfl, hclean⟩, h⟩
    · rintro ⟨⟨hkey, hclean⟩, h⟩
      refine ⟨_, _, ?_, List.length_map _, hclean, h⟩
      rw [← hkey]
      rfl

theorem Stripped.clean {xs : List Entry} {rows : List (List Marked)} (h : Stripped e xs rows) :
    ∀ l ∈ rows, Clean l := by
  induction h with
  | nil => simp
  | cons hlength hclean _ ih =>
    rw [List.forall_mem_cons, List.forall_mem_append]
    exact ⟨clean_append.mpr ⟨clean_spaces _, clean_write _⟩, hclean, ih⟩

theorem Stripped.length {xs : List Entry} {rows : List (List Marked)} (h : Stripped e xs rows) :
    rows.length = (xs.flatMap (Entry.scanned e)).length := by
  induction h with
  | nil => rfl
  | cons hlength hclean _ ih => simp [Entry.scanned, hlength, ih]

end Entries

section Rest
variable {c e : ℕ} {l : List Marked} {ls : List (List Marked)}

theorem scanKey_ne_nil (r : Registers) (h : l ≠ []) : (scanKey r l).2 ≠ [] := by
  have hwrite : (write (": ".toList ++ secretPlaceholder) : List Marked) ≠ [] := by
    rw [write, ne_eq, List.map_eq_nil_iff]
    exact List.append_ne_nil_of_left_ne_nil (by decide) _
  have hmask (key field : List Marked) : maskKeyLine l key field ≠ [] :=
    List.append_ne_nil_of_right_ne_nil _ (List.append_ne_nil_of_right_ne_nil _ hwrite)
  unfold scanKey
  dsimp only
  cases cut ':' (keyOf l).1 with
  | none => exact h
  | some p =>
    dsimp only
    split_ifs <;> first | exact h | exact hmask _ _

/-- The first line that is not deeper than the key ends the block if the scan takes it not to be. -/
theorem scanLines_rest (hskip : isSkipped l = false) (hl : indentOf l < e) :
    scanLines ⟨some c, some e, none, none⟩ (l :: ls) = scanLines .start (l :: ls) ↔ indentOf l ≤ c := by
  have hstart : scanLine .start l = scanKey .start l := by
    simp [scanLine, hskip, Registers.start, inside, Registers.closeBlock, Registers.closeAnno]
  rw [scanLines, scanLines, hstart]
  constructor
  · intro h
    by_contra hdeep
    have hne : indentOf l ≠ e := by omega
    have hline : (scanLine ⟨some c, some e, none, none⟩ l).2 = [] := by
      rw [scanLine_inside hskip (by simp only [inside_some, decide_eq_true_eq]; omega)]
      simp [scanEntry, hne]
    have hnil : l ≠ [] := by
      rintro rfl
      exact absurd hskip (by decide)
    exact scanKey_ne_nil .start hnil ((List.cons.inj h).1.symm.trans hline)
  · intro h
    have hout : ¬ c < indentOf l := by omega
    have hline : scanLine ⟨some c, some e, none, none⟩ l = scanKey .start l := by
      simp [scanLine, hskip, inside, hout, Registers.start, Registers.closeBlock, Registers.closeAnno]
    rw [hline]

/-- A line stays that opens nothing and stands in nothing. -/
theorem left_scanLines (rest : List (List Marked)) : Left rest (scanLines .start rest) := by
  refine ⟨rfl, ?_⟩
  intro i l hl hinert hclosed
  obtain ⟨hi, rfl⟩ := List.getElem?_eq_some_iff.mp hl
  have hline : (scanLine (runLines .start (rest.take i)) rest[i]).2 = rest[i] := by
    cases hskip : isSkipped rest[i] with
    | true => rw [scanLine_skipped hskip]
    | false => rw [scanLine_first hskip hclosed, scanKey_inert hinert hskip]
  have hsplit : rest = rest.take i ++ rest[i] :: rest.drop (i + 1) := by simp
  have hlength : (scanLines .start (rest.take i)).length = i := by
    rw [length_scanLines, List.length_take]
    omega
  have hscan : scanLines .start rest = scanLines .start (rest.take i) ++
      rest[i] :: scanLines (scanLine (runLines .start (rest.take i)) rest[i]).1 (rest.drop (i + 1)) := by
    conv_lhs => rw [hsplit, scanLines_append, scanLines, hline]
  rw [hscan, List.getElem?_append_right (by omega), hlength, Nat.sub_self]
  rfl

end Rest

section Blocks
variable {b : SecretBlock}

/-- The lines of the text after the scan. -/
theorem SecretBlock.scanLines_lines (b : SecretBlock) : scanLines .start b.lines =
    scanLines .start b.above ++ b.key.text :: (b.gaps ++ (b.entries.flatMap (Entry.scanned b.column) ++
      scanLines ⟨some b.key.column, some b.column, none, none⟩ b.rest)) := by
  have hkey : scanLine (runLines .start b.above) b.key.text =
      (⟨some b.key.column, none, none, none⟩, b.key.text) := by
    rw [scanLine_first b.key.isSkipped_text (by rw [b.key.indentOf_text]; exact b.closed),
      b.key.scanKey_text, if_pos b.own]
    rfl
  have hcolumn : b.key.column < b.column := by
    have hplace : b.key.column ≤ b.key.place := by
      unfold KeyLine.column KeyLine.place
      cases b.key.item with
      | none => exact le_rfl
      | some n => exact Nat.le_add_right _ _
    exact hplace.trans_lt b.deeper
  obtain ⟨hgaps, hgapsrun⟩ := scanLines_gaps b.gaps_skipped ⟨some b.key.column, none, none, none⟩
  have hnone : (none : Option ℕ).getD b.column = b.column := rfl
  obtain ⟨hentries, hentriesrun⟩ := scanLines_entries b.entries_ne b.entries_at hcolumn hnone
  rw [BlockText.lines, scanLines_append, scanLines, hkey, scanLines_append, hgaps, hgapsrun,
    scanLines_append, hentries, hentriesrun]

theorem SecretBlock.lines_ne (b : SecretBlock) : b.lines ≠ [] := by
  simp [BlockText.lines]

/-- The rest is scanned as a text of its own exactly if its first line ends the block for the scan. -/
theorem SecretBlock.scanLines_rest_iff (b : SecretBlock) :
    scanLines ⟨some b.key.column, some b.column, none, none⟩ b.rest = scanLines .start b.rest ↔
      ∀ l ∈ b.rest.head?, indentOf l ≤ b.key.column := by
  have hfirst := b.rest_first
  cases hrest : b.rest with
  | nil => simp [scanLines]
  | cons l ls =>
    rw [hrest, List.head?_cons] at hfirst
    obtain ⟨hskip, hplace⟩ := hfirst l rfl
    rw [scanLines_rest hskip (hplace.trans_lt b.deeper)]
    simp

theorem SecretBlock.strips_of_readable (h : b.Readable) : b.Strips (stripSecretYAML b.text) := by
  have hlines := b.scanLines_lines
  rw [b.scanLines_rest_iff.mpr h.ends] at hlines
  have hstripped : Stripped b.column b.entries (b.entries.flatMap (Entry.scanned b.column)) :=
    stripped_scanned.mpr fun x hx => ⟨h.keys x hx, h.values x hx⟩
  obtain ⟨habove, hkey, hgaps, hrest⟩ := b.clean
  have hclean : ∀ l ∈ scanLines .start b.lines, Clean l := by
    rw [hlines, List.forall_mem_append, List.forall_mem_cons, List.forall_mem_append,
      List.forall_mem_append]
    exact ⟨clean_scanLines _ habove, b.key.clean_text hkey, hgaps, hstripped.clean,
      clean_scanLines _ hrest⟩
  constructor
  · rw [SecretBlock.text, stripSecretYAML, splitLines_joinLines b.lines_ne b.isLine]
    exact clean_joinLines.mpr hclean
  · rw [SecretBlock.text, splitLines_stripSecretYAML b.lines_ne b.isLine, hlines]
    exact ⟨_, _, _, rfl, length_scanLines _ _, hstripped, left_scanLines _⟩

theorem SecretBlock.readable_of_strips (h : b.Strips (stripSecretYAML b.text)) : b.Readable := by
  obtain ⟨-, top, rows, rest, hsplit, htop, hrows, hrest, -⟩ := h
  rw [SecretBlock.text, splitLines_stripSecretYAML b.lines_ne b.isLine, b.scanLines_lines] at hsplit
  obtain ⟨-, htail⟩ := List.append_inj hsplit (by rw [length_scanLines, htop])
  obtain ⟨hrows', hrest'⟩ := List.append_inj (List.append_cancel_left (List.cons.inj htail).2)
    hrows.length.symm
  rw [← hrows'] at hrows
  have hentries := stripped_scanned.mp hrows
  exact ⟨fun x hx => (hentries x hx).1, fun x hx => (hentries x hx).2,
    b.scanLines_rest_iff.mp (hrest'.trans hrest)⟩

/-- The scan reads characters only, and strips the block exactly if it is readable. -/
theorem stripSecretYAML_iff (b : SecretBlock) :
    stripSecretYAML (b.text.map char) = (stripSecretYAML b.text).map char ∧
      (b.Strips (stripSecretYAML b.text) ↔ b.Readable) :=
  ⟨stripSecretYAML_map_char _, SecretBlock.readable_of_strips, SecretBlock.strips_of_readable⟩

/-- A script as the value: its first line looks like a comment. -/
def script : SecretBlock where
  above := [write "kind: Secret".toList]
  key := ⟨0, none, .bare, "data".toList, by decide, 0, []⟩
  gaps := []
  column := 2
  entries := [⟨"run".toList, write " |".toList, [write "    ".toList ++ "#pw hunter2".toList.map (⟨·, true⟩)]⟩]
  rest := [write "type: Opaque".toList]
  entries_ne := by simp
  entries_at := by
    intro x hx
    obtain rfl := List.mem_singleton.mp hx
    exact ⟨⟨'r', "un".toList, by decide, by decide, by decide⟩, by decide⟩
  deeper := by decide
  own := by decide
  closed := fun b _ => Nat.zero_le b
  gaps_skipped := by simp
  rest_first := by decide
  clean := by decide
  isLine := by
    unfold IsLine
    decide

theorem script_survives : ¬ script.Strips (stripSecretYAML script.text) ∧
    stripSecretYAML "kind: Secret\ndata:\n  run: |\n    #pw hunter2\ntype: Opaque".toList =
      "kind: Secret\ndata:\n  run: <REDACTED:secret>\n    #pw hunter2\ntype: Opaque".toList := by
  refine ⟨fun h => ?_, by decide⟩
  have hclean : ¬ Clean (stripSecretYAML script.text) := by decide
  exact hclean h.1

end Blocks
end Kubeast.Redact
