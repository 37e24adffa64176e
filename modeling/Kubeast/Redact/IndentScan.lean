import Kubeast.Redact.Provenance

/-! The scan by indentation: where it stands after some lines, and what it leaves of a block or a
flow mapping. -/
namespace Kubeast.Redact
open Symbols Json

section Run
variable {α : Type*} [Symbol α]

/-- Where the scan stands after the lines. -/
def runLines (r : Registers) (ls : List (List α)) : Registers :=
  ls.foldl (fun r l => (scanLine r l).1) r

theorem scanLines_append (r : Registers) (ls ls' : List (List α)) :
    scanLines r (ls ++ ls') = scanLines r ls ++ scanLines (runLines r ls) ls' := by
  induction ls generalizing r with
  | nil => rfl
  | cons l ls ih => rw [List.cons_append, scanLines, ih, scanLines, List.cons_append]; rfl

theorem runLines_concat (r : Registers) (ls : List (List α)) (l : List α) :
    runLines r (ls ++ [l]) = (scanLine (runLines r ls) l).1 := by
  simp [runLines]

/-- The name of the key that a line starts with. -/
def keyName (line : List α) : Option (List Char) :=
  (cut ':' (keyOf line).1).map fun p => (trim isQuoteOrSpace p.1).map char

/-- A line whose key may open `data:`, `stringData:` or `annotations:`. -/
def isOpener (line : List α) : Bool :=
  (keyName line).any fun name => isSecretKey name || name = "annotations".toList

/-- The scan is inside one of the two only. -/
def Registers.Proper (r : Registers) : Prop := r.block.isSome → r.anno = none

/-- What a line outside of everything does to the registers. -/
theorem scanKey_registers (r : Registers) (line : List α) :
    (scanKey r line).1 = r ∨ isOpener line = true ∧
      ((scanKey r line).1 = { r with block := some (keyOf line).2, value := none } ∨
        (scanKey r line).1 = { r with anno := some (keyOf line).2, last := none }) := by
  unfold scanKey isOpener keyName
  dsimp only
  cases cut ':' (keyOf line).1 with
  | none => exact Or.inl rfl
  | some p =>
    dsimp only [Option.map_some, Option.any_some]
    split_ifs with hsecret hown hempty hquote hanno hlast
    · exact Or.inr ⟨by simp [hsecret], Or.inl rfl⟩
    · exact Or.inl rfl
    · exact Or.inr ⟨by simp [hsecret], Or.inl rfl⟩
    · exact Or.inl rfl
    · exact Or.inr ⟨by simp [hanno.1], Or.inr rfl⟩
    · exact Or.inl rfl
    · exact Or.inl rfl

/-- A register that is set was set before, and the line is deeper, or the line has set it. -/
def Kept (line : List α) (before after : Option ℕ) : Prop :=
  ∀ b, after = some b → before = some b ∧ (isSkipped line = false → b < indentOf line) ∨
    isOpener line = true ∧ b = (keyOf line).2

theorem kept_none (line : List α) (before : Option ℕ) : Kept line before none :=
  fun _ h => by cases h

theorem inside_eq_true {register : Option ℕ} {indent : ℕ} :
    inside register indent = true ↔ ∃ b, register = some b ∧ b < indent := by
  simp [inside, Option.any_eq_true]

theorem kept_inside {line : List α} {register : Option ℕ}
    (h : inside register (indentOf line) = true) : Kept line register register := by
  intro b hb
  obtain ⟨b', hb', hlt⟩ := inside_eq_true.mp h
  rw [hb'] at hb
  cases hb
  exact Or.inl ⟨hb', fun _ => hlt⟩

@[simp] theorem closeBlock_block (r : Registers) : r.closeBlock.block = none := by
  cases h : r.block <;> simp [Registers.closeBlock, h]

@[simp] theorem closeBlock_anno (r : Registers) : r.closeBlock.anno = r.anno := by
  unfold Registers.closeBlock
  split_ifs <;> rfl

@[simp] theorem closeAnno_anno (r : Registers) : r.closeAnno.anno = none := by
  cases h : r.anno <;> simp [Registers.closeAnno, h]

@[simp] theorem closeAnno_block (r : Registers) : r.closeAnno.block = r.block := by
  unfold Registers.closeAnno
  split_ifs <;> rfl

theorem scanAnno_registers (r : Registers) (line : List α) :
    (scanAnno r line).1.block = r.block ∧ (scanAnno r line).1.anno = r.anno := by
  unfold scanAnno
  split_ifs <;> exact ⟨rfl, rfl⟩

/-- What one line does to the registers. -/
theorem scanLine_registers {r : Registers} (hr : r.Proper) (line : List α) :
    (scanLine r line).1.Proper ∧ Kept line r.block (scanLine r line).1.block ∧
      Kept line r.anno (scanLine r line).1.anno := by
  unfold scanLine
  split_ifs with hskip hblock hanno
  · have hkept : ∀ register, Kept line register register := by
      intro register b hb
      exact Or.inl ⟨hb, fun h => by rw [hskip] at h; cases h⟩
    exact ⟨hr, hkept _, hkept _⟩
  · have hnone : r.anno = none := by
      obtain ⟨b, hb, -⟩ := inside_eq_true.mp hblock
      exact hr (by rw [hb]; rfl)
    have hanno : (scanEntry r line).1.anno = none := hnone
    rw [hanno]
    exact ⟨fun _ => hanno, kept_inside hblock, kept_none _ _⟩
  · obtain ⟨hb, ha⟩ := scanAnno_registers r.closeBlock line
    rw [closeBlock_block] at hb
    rw [closeBlock_anno] at ha
    rw [hb, ha]
    refine ⟨?_, kept_none _ _, kept_inside hanno⟩
    intro h
    rw [hb] at h
    cases h
  · have hblock' : r.closeBlock.closeAnno.block = none := by simp
    have hanno' : r.closeBlock.closeAnno.anno = none := by simp
    generalize r.closeBlock.closeAnno = q at hblock' hanno' ⊢
    have hset : ∀ before, isOpener line = true → Kept line before (some (keyOf line).2) := by
      rintro before hopener b ⟨⟩
      exact Or.inr ⟨hopener, rfl⟩
    rcases scanKey_registers q line with h | ⟨hopener, h | h⟩
    · rw [h, hblock', hanno']
      exact ⟨fun _ => hanno', kept_none _ _, kept_none _ _⟩
    · rw [h]
      dsimp only
      rw [hanno']
      exact ⟨fun _ => rfl, hset _ hopener, kept_none _ _⟩
    · rw [h]
      dsimp only
      rw [hblock']
      refine ⟨?_, kept_none _ _, hset _ hopener⟩
      intro hsome
      cases hsome

/-- The lines end inside what an opener above has opened: every line below it is deeper. -/
def Encloses (ls : List (List α)) (b : ℕ) : Prop :=
  ∃ pre l mid, ls = pre ++ l :: mid ∧ isOpener l = true ∧ b = (keyOf l).2 ∧
    ∀ m ∈ mid, isSkipped m = false → b < indentOf m

theorem Kept.encloses {ls : List (List α)} {l : List α} {before after : Option ℕ}
    (hls : ∀ b, before = some b → Encloses ls b) (h : Kept l before after) :
    ∀ b, after = some b → Encloses (ls ++ [l]) b := by
  intro b hb
  rcases h b hb with ⟨hbefore, hdeep⟩ | ⟨hopener, rfl⟩
  · obtain ⟨pre, l', mid, rfl, hopener, hcolumn, hmid⟩ := hls b hbefore
    refine ⟨pre, l', mid ++ [l], by simp, hopener, hcolumn, ?_⟩
    intro m hm
    rw [List.mem_append, List.mem_singleton] at hm
    rcases hm with hm | rfl
    · exact hmid m hm
    · exact hdeep
  · exact ⟨ls, l, [], rfl, hopener, rfl, fun m hm => by cases hm⟩

/-- A register that is set after some lines comes from an opener among them. -/
theorem runLines_encloses (ls : List (List α)) :
    (runLines .start ls).Proper ∧ (∀ b, (runLines .start ls).block = some b → Encloses ls b) ∧
      ∀ b, (runLines .start ls).anno = some b → Encloses ls b := by
  induction ls using List.reverseRecOn with
  | nil =>
    refine ⟨fun _ => rfl, ?_, ?_⟩
    · rintro b ⟨⟩
    · rintro b ⟨⟩
  | append_singleton ls l ih =>
    obtain ⟨hproper, hblock, hanno⟩ := ih
    obtain ⟨hproper', hblock', hanno'⟩ := scanLine_registers hproper l
    rw [runLines_concat]
    exact ⟨hproper', hblock'.encloses hblock, hanno'.encloses hanno⟩

/-- What stands in column `n` below the lines is no part of what they open. -/
def Closed (ls : List (List α)) (n : ℕ) : Prop := ∀ b, Encloses ls b → n ≤ b

theorem Closed.not_inside {ls : List (List α)} {n : ℕ} (h : Closed ls n) :
    inside (runLines .start ls).block n = false ∧ inside (runLines .start ls).anno n = false := by
  obtain ⟨-, hblock, hanno⟩ := runLines_encloses ls
  constructor
  · rw [Bool.eq_false_iff]
    intro hin
    obtain ⟨b, hb, hlt⟩ := inside_eq_true.mp hin
    have hle := h b (hblock b hb)
    omega
  · rw [Bool.eq_false_iff]
    intro hin
    obtain ⟨b, hb, hlt⟩ := inside_eq_true.mp hin
    have hle := h b (hanno b hb)
    omega

/-- A key line below what it closes. -/
theorem scanLine_closed {ls : List (List α)} {line : List α} (hskip : isSkipped line = false)
    (h : Closed ls (indentOf line)) : ∃ q : Registers, q.block = none ∧ q.anno = none ∧
      scanLine (runLines .start ls) line = scanKey q line := by
  obtain ⟨hblock, hanno⟩ := h.not_inside
  refine ⟨(runLines .start ls).closeBlock.closeAnno, by simp, by simp, ?_⟩
  simp [scanLine, hskip, hblock, hanno]

end Run

section KeyLines

inductive Quote
  | bare
  | single
  | double
deriving DecidableEq

def Quote.text : Quote → List Char
  | .bare => []
  | .single => ['\'']
  | .double => ['"']

/-- A line with the key `data` or `stringData`: where the key stands, maybe as an item of a list,
how it is quoted, the spaces before its colon and what comes after it. -/
structure KeyLine where
  indent : ℕ
  item : Option ℕ
  quote : Quote
  name : List Char
  secret : isSecretKey name = true
  gap : ℕ
  rest : List Marked

namespace KeyLine

def field (k : KeyLine) : List Marked :=
  write (k.quote.text ++ (k.name ++ (k.quote.text ++ List.replicate k.gap ' ')))

def dash (k : KeyLine) : List Marked :=
  match k.item with
  | none => []
  | some n => write ('-' :: ' ' :: List.replicate n ' ')

def text (k : KeyLine) : List Marked :=
  List.replicate k.indent (lit ' ') ++ (k.dash ++ (k.field ++ lit ':' :: k.rest))

/-- The column of the key. -/
def column (k : KeyLine) : ℕ := if k.item.isSome then k.indent + 2 else k.indent

theorem name_cases (k : KeyLine) : k.name = "data".toList ∨ k.name = "stringData".toList := by
  have h := k.secret
  rwa [isSecretKey, Bool.or_eq_true, decide_eq_true_eq, decide_eq_true_eq] at h

theorem clean_field (k : KeyLine) : Clean k.field := clean_write _

/-- The field begins with a quote or a letter. -/
theorem field_head (k : KeyLine) : ∃ a s, k.field = a :: s ∧ Text.isSpace (char a) = false ∧
    char a ≠ ' ' ∧ char a ≠ '#' ∧ char a ≠ '-' := by
  unfold field
  cases k.quote with
  | bare =>
    rcases k.name_cases with h | h <;> rw [h] <;> exact ⟨_, _, rfl, by decide, by decide, by decide,
      by decide⟩
  | single => exact ⟨_, _, rfl, by decide, by decide, by decide, by decide⟩
  | double => exact ⟨_, _, rfl, by decide, by decide, by decide, by decide⟩

theorem trimSpace_text (k : KeyLine) :
    trimSpace k.text = k.dash ++ (k.field ++ lit ':' :: trimRight Text.isSpace k.rest) := by
  have hspaces : ∀ b ∈ List.replicate k.indent (lit ' ' : Marked), Text.isSpace (char b) = true := by
    intro b hb
    rw [List.eq_of_mem_replicate hb]
    rfl
  have hright : trimRight Text.isSpace (k.dash ++ (k.field ++ lit ':' :: k.rest)) =
      k.dash ++ (k.field ++ lit ':' :: trimRight Text.isSpace k.rest) := by
    rw [← List.append_assoc, trimRight_append_cons (by decide), List.append_assoc]
  have hhead : ∃ a s, k.dash ++ (k.field ++ lit ':' :: k.rest) = a :: s ∧
      Text.isSpace (char a) = false := by
    unfold dash
    cases k.item with
    | none =>
      obtain ⟨a, s, hs, ha, -⟩ := k.field_head
      exact ⟨a, s ++ lit ':' :: k.rest, by rw [hs]; rfl, ha⟩
    | some n => exact ⟨_, _, rfl, by decide⟩
  obtain ⟨a, s, hs, ha⟩ := hhead
  rw [trimSpace, trim, text, hs, trimLeft_append_cons ha hspaces, ← hs, hright]

theorem indentOf_text (k : KeyLine) : indentOf k.text = k.indent := by
  have hhead : ∃ a s, k.dash ++ (k.field ++ lit ':' :: k.rest) = a :: s ∧ char a ≠ ' ' := by
    unfold dash
    cases k.item with
    | none =>
      obtain ⟨a, s, hs, -, ha, -⟩ := k.field_head
      exact ⟨a, s ++ lit ':' :: k.rest, by rw [hs]; rfl, ha⟩
    | some n => exact ⟨_, _, rfl, by decide⟩
  obtain ⟨a, s, hs, ha⟩ := hhead
  rw [indentOf, text, hs, List.takeWhile_append_of_pos, List.takeWhile_cons_of_neg]
  · simp
  · simpa using ha
  · intro b hb
    rw [List.eq_of_mem_replicate hb]
    rfl

theorem keyOf_text (k : KeyLine) :
    keyOf k.text = (k.field ++ lit ':' :: trimRight Text.isSpace k.rest, k.column) := by
  obtain ⟨a, s, hs, -, hspace, -, hdash⟩ := k.field_head
  unfold keyOf column
  rw [trimSpace_text, indentOf_text]
  unfold dash
  cases k.item with
  | none =>
    have hhead : hasPrefix (k.field ++ lit ':' :: trimRight Text.isSpace k.rest) ['-', ' ']
        = false := by
      rw [hs]
      exact hasPrefix_cons_of_ne hdash _ _
    dsimp only
    rw [List.nil_append, hhead]
    rfl
  | some n =>
    have hspaces : ∀ b ∈ (write (List.replicate n ' ') : List Marked), decide (char b = ' ') = true := by
      intro b hb
      obtain ⟨c, hc, rfl⟩ := List.mem_map.mp hb
      rw [List.eq_of_mem_replicate hc]
      rfl
    have hhead : hasPrefix (write ('-' :: ' ' :: List.replicate n ' ') ++
        (k.field ++ lit ':' :: trimRight Text.isSpace k.rest)) ['-', ' '] = true := by
      simp [hasPrefix, write]
    have hdrop : (write ('-' :: ' ' :: List.replicate n ' ') ++
        (k.field ++ lit ':' :: trimRight Text.isSpace k.rest)).drop 2 =
        write (List.replicate n ' ') ++ (k.field ++ lit ':' :: trimRight Text.isSpace k.rest) := rfl
    dsimp only
    rw [hhead, if_pos rfl, hdrop, hs, List.cons_append,
      trimLeft_append_cons (by simpa using hspace) hspaces]
    rfl

theorem isSkipped_text (k : KeyLine) : isSkipped k.text = false := by
  unfold isSkipped
  rw [trimSpace_text]
  have hhead : ∃ a s, k.dash ++ (k.field ++ lit ':' :: trimRight Text.isSpace k.rest) = a :: s ∧
      char a ≠ '#' := by
    unfold dash
    cases k.item with
    | none =>
      obtain ⟨a, s, hs, -, -, ha, -⟩ := k.field_head
      exact ⟨a, s ++ lit ':' :: trimRight Text.isSpace k.rest, by rw [hs]; rfl, ha⟩
    | some n => exact ⟨_, _, rfl, by decide⟩
  obtain ⟨a, s, hs, ha⟩ := hhead
  rw [hs, hasPrefix_cons_of_ne ha]
  rfl

theorem mem_field {k : KeyLine} {b : Marked} (hb : b ∈ k.field) :
    char b ∈ '\'' :: '"' :: ' ' :: k.name := by
  obtain ⟨c, hc, rfl⟩ := List.mem_map.mp hb
  have hquote : ∀ c ∈ k.quote.text, c = '\'' ∨ c = '"' := by
    cases k.quote <;> simp [Quote.text]
  rw [char_lit]
  simp only [List.mem_append] at hc
  simp only [List.mem_cons]
  rcases hc with hc | hc | hc | hc
  · rcases hquote c hc with h | h <;> simp [h]
  · simp [hc]
  · rcases hquote c hc with h | h <;> simp [h]
  · simp [List.eq_of_mem_replicate hc]

theorem cut_key (k : KeyLine) (r : List Marked) :
    cut ':' (k.field ++ lit ':' :: r) = some (k.field, r) := by
  apply cut_append _ (char_lit _)
  intro b hb h
  have hmem := mem_field hb
  rw [h] at hmem
  rcases k.name_cases with hname | hname <;> rw [hname] at hmem <;> exact absurd hmem (by decide)

theorem field_name (k : KeyLine) : (trim isQuoteOrSpace k.field).map char = k.name := by
  have hquote : ∀ c ∈ k.quote.text, isQuoteOrSpace (char c) = true := by
    cases k.quote <;> exact List.all_eq_true.mp (by decide)
  have htail : ∀ c ∈ k.quote.text ++ List.replicate k.gap ' ', isQuoteOrSpace (char c) = true := by
    intro c hc
    rcases List.mem_append.mp hc with hc | hc
    · exact hquote c hc
    · rw [List.eq_of_mem_replicate hc]
      rfl
  have hname : ∀ (c d : Char) (s : List Char), isQuoteOrSpace c = false → isQuoteOrSpace d = false →
      trim isQuoteOrSpace (k.quote.text ++ (c :: (s ++ [d]) ++
        (k.quote.text ++ List.replicate k.gap ' '))) = c :: (s ++ [d]) := by
    intro c d s hc hd
    rw [trim, List.cons_append, trimLeft_append_cons hc hquote, List.append_assoc,
      List.singleton_append, ← List.cons_append, trimRight_append_cons hd, trimRight_of_forall htail]
    simp
  rw [map_char_trim, field, map_char_write]
  rcases k.name_cases with h | h
  · rw [h]
    exact hname 'd' 'a' "at".toList (by decide) (by decide)
  · rw [h]
    exact hname 's' 'a' "tringDat".toList (by decide) (by decide)

theorem hasPrefix_field (k : KeyLine) : hasPrefix k.field ['"'] = decide (k.quote = .double) := by
  unfold field
  cases k.quote with
  | bare =>
    rcases k.name_cases with h | h <;> rw [h] <;> rfl
  | single => rfl
  | double => rfl

/-- The scan at a key line that it is not inside of anything at. -/
theorem scanKey_text (r : Registers) (k : KeyLine) : scanKey r k.text =
    if onItsOwn k.rest then ({ r with block := some k.column, value := none }, k.text)
    else if emptyValues.contains ((trimSpace k.rest).map char) then (r, k.text)
    else if k.quote = .double then (r, k.text)
    else ({ r with block := some k.column, value := none },
      maskKeyLine k.text (k.field ++ lit ':' :: trimRight Text.isSpace k.rest) k.field) := by
  have hown : onItsOwn (trimRight Text.isSpace k.rest) = onItsOwn k.rest := by
    rw [onItsOwn, onItsOwn, trimSpace, trim_trimRight, trimSpace]
  unfold scanKey
  rw [keyOf_text]
  dsimp only
  rw [cut_key]
  dsimp only
  rw [field_name, k.secret, hown, hasPrefix_field, trimSpace, trim_trimRight, ← trimSpace]
  by_cases hdouble : k.quote = .double <;> simp [hdouble]

theorem clean_dash (k : KeyLine) : Clean k.dash := by
  unfold dash
  cases k.item with
  | none => exact clean_nil
  | some n => exact clean_write _

theorem clean_text (k : KeyLine) (h : Clean k.rest) : Clean k.text := by
  unfold text
  rw [clean_append, clean_append, clean_append, clean_cons]
  exact ⟨clean_spaces _, k.clean_dash, k.clean_field, rfl, h⟩

theorem clean_mask (k : KeyLine) :
    Clean (maskKeyLine k.text (k.field ++ lit ':' :: trimRight Text.isSpace k.rest) k.field) := by
  unfold maskKeyLine
  rw [clean_append, clean_append]
  refine ⟨?_, k.clean_field, clean_write _⟩
  have hlead : Clean (List.replicate k.indent (lit ' ') ++ k.dash) :=
    clean_append.mpr ⟨clean_spaces _, k.clean_dash⟩
  have hhead : hasPrefix (k.field ++ lit ':' :: k.rest)
      ((k.field ++ lit ':' :: trimRight Text.isSpace k.rest).map char) = true := by
    obtain ⟨t, ht⟩ := trimRight_isPrefix Text.isSpace k.rest
    rw [hasPrefix, List.isPrefixOf_iff_prefix]
    refine ⟨t.map char, ?_⟩
    rw [← List.map_append, List.append_assoc, List.cons_append, ht]
  have hle := indexOf_le hhead (List.replicate k.indent (lit ' ') ++ k.dash)
  rw [text, ← List.append_assoc, List.take_append_of_le_length hle]
  exact hlead.subset (List.take_subset _ _)

end KeyLine

end KeyLines

section Blocks

/-- The lines of a block mapping whose entries stand in column `e`: entries with clean keys, the
lines of their values below them, which are deeper, and blank lines and comments. The flag says
whether there has been an entry. -/
inductive Rows (e : ℕ) : Bool → List (List Marked) → Prop
  | nil {started} : Rows e started []
  | gap {started l ls} (hskip : isSkipped l = true) (hl : Clean l) (h : Rows e started ls) :
      Rows e started (l :: ls)
  | entry {started l ls} (hskip : isSkipped l = false) (hindent : indentOf l = e)
      (hcolon : contains (trimSpace l) [':'] = true)
      (hkey : Clean ((trimSpace l).takeWhile fun a => char a ≠ ':')) (h : Rows e true ls) :
      Rows e started (l :: ls)
  | value {l ls} (hdeep : isSkipped l = false → e < indentOf l) (h : Rows e true ls) :
      Rows e true (l :: ls)

/-- No line of a value is blank or looks like a comment. -/
def NoneSkipped (rows : List (List Marked)) : Prop := ∀ l ∈ rows, isSkipped l = true → Clean l

theorem scanLine_skipped {α : Type*} [Symbol α] {line : List α} (h : isSkipped line = true)
    (r : Registers) : scanLine r line = (r, line) := by
  simp [scanLine, h]

theorem scanLine_inside {α : Type*} [Symbol α] {r : Registers} {line : List α}
    (hskip : isSkipped line = false) (h : inside r.block (indentOf line) = true) :
    scanLine r line = scanEntry r line := by
  simp [scanLine, hskip, h]

/-- A block is clean after the scan if the lines that the scan skips are clean before it. -/
theorem rows_clean {column e : ℕ} (hcolumn : column < e) {started : Bool}
    {rows : List (List Marked)} (h : Rows e started rows) :
    ∀ r : Registers, r.block = some column → r.value = (if started then some e else none) →
      ((∀ l ∈ scanLines r rows, Clean l) ↔ NoneSkipped rows) := by
  unfold NoneSkipped
  induction h with
  | nil => simp [scanLines]
  | @gap started l ls hskip hl _ ih =>
    intro r hblock hvalue
    rw [scanLines, scanLine_skipped hskip, List.forall_mem_cons, List.forall_mem_cons,
      ih r hblock hvalue]
    exact ⟨fun h => ⟨fun _ => hl, h.2⟩, fun h => ⟨hl, h.2⟩⟩
  | @entry started l ls hskip hindent hcolon hkey _ ih =>
    intro r hblock hvalue
    have hin : inside r.block (indentOf l) = true := by
      rw [hblock, hindent]
      simpa [inside] using hcolumn
    have hentry : scanEntry r l = ({ r with value := some e }, maskEntry l) := by
      cases started <;> simp [scanEntry, hvalue, hindent, hcolon]
    rw [scanLines, scanLine_inside hskip hin, hentry, List.forall_mem_cons, List.forall_mem_cons,
      ih { r with value := some e } hblock rfl]
    refine ⟨fun h => ⟨fun h' => ?_, h.2⟩, fun h => ⟨clean_maskEntry hkey, h.2⟩⟩
    rw [hskip] at h'
    cases h'
  | @value l ls hdeep _ ih =>
    intro r hblock hvalue
    cases hskip : isSkipped l with
    | true =>
      rw [scanLines, scanLine_skipped hskip, List.forall_mem_cons, List.forall_mem_cons,
        ih r hblock hvalue]
      exact ⟨fun h => ⟨fun _ => h.1, h.2⟩, fun h => ⟨h.1 hskip, h.2⟩⟩
    | false =>
      have hdeep := hdeep hskip
      have hin : inside r.block (indentOf l) = true := by
        rw [hblock]
        simp only [inside, Option.any_some, decide_eq_true_eq]
        omega
      have hentry : scanEntry r l = ({ r with value := some e }, []) := by
        have hne : indentOf l ≠ e := by omega
        simp [scanEntry, hvalue, hne]
      rw [scanLines, scanLine_inside hskip hin, hentry, List.forall_mem_cons, List.forall_mem_cons,
        ih { r with value := some e } hblock rfl]
      refine ⟨fun h => ⟨fun h' => ?_, h.2⟩, fun h => ⟨clean_nil, h.2⟩⟩
      rw [hskip] at h'
      cases h'

theorem forall_scanLines_append {r : Registers} {ls ls' : List (List Marked)} :
    (∀ l ∈ scanLines r (ls ++ ls'), Clean l) ↔
      (∀ l ∈ scanLines r ls, Clean l) ∧ ∀ l ∈ scanLines (runLines r ls) ls', Clean l := by
  rw [scanLines_append, List.forall_mem_append]

variable {before rest : List (List Marked)} (hbefore : ∀ l ∈ before, Clean l)
  (hrest : ∀ l ∈ rest, Clean l)

include hbefore hrest

/-- The lines of a document with a block mapping. -/
theorem block_clean {k : KeyLine} {rows : List (List Marked)} {e : ℕ}
    (hclosed : Closed before k.indent) (hown : onItsOwn k.rest = true) (hk : Clean k.rest)
    (hcolumn : k.column < e) (hrows : Rows e false rows) :
    (∀ l ∈ scanLines .start (before ++ k.text :: (rows ++ rest)), Clean l) ↔ NoneSkipped rows := by
  obtain ⟨q, -, -, hscan⟩ := scanLine_closed k.isSkipped_text (by rwa [k.indentOf_text])
  have hkey : scanKey q k.text = ({ q with block := some k.column, value := none }, k.text) := by
    rw [k.scanKey_text, if_pos hown]
  rw [forall_scanLines_append, scanLines, hscan, hkey, List.forall_mem_cons,
    forall_scanLines_append, rows_clean hcolumn hrows _ rfl rfl]
  exact ⟨fun h => h.2.2.1, fun h => ⟨clean_scanLines _ hbefore, k.clean_text hk, h, clean_scanLines _ hrest⟩⟩

/-- The lines of a document with a flow mapping on the line of its key. -/
theorem flow_clean {k : KeyLine} (hclosed : Closed before k.indent) (hquote : k.quote ≠ .double)
    (hown : onItsOwn k.rest = false) (hvalue : (trimSpace k.rest).map char ∉ emptyValues) :
    ∀ l ∈ scanLines .start (before ++ k.text :: rest), Clean l := by
  obtain ⟨q, -, -, hscan⟩ := scanLine_closed k.isSkipped_text (by rwa [k.indentOf_text])
  have hempty : emptyValues.contains ((trimSpace k.rest).map char) = false := by
    rw [Bool.eq_false_iff, ne_eq, List.contains_iff_mem]
    exact hvalue
  have hkey := k.scanKey_text q
  rw [hown, hempty, if_neg (by simp), if_neg (by simp), if_neg hquote] at hkey
  rw [forall_scanLines_append, scanLines, hscan, hkey, List.forall_mem_cons]
  exact ⟨clean_scanLines _ hbefore, k.clean_mask, clean_scanLines _ hrest⟩

end Blocks

section Inert

/-- A line that the scan by indentation leaves as it is, and that opens nothing. -/
def isInert (line : List Marked) : Bool :=
  isSkipped line || match cut ':' (keyOf line).1 with
    | none => true
    | some (field, rest) => !isOpener line || (hasPrefix field ['"'] && !onItsOwn rest)

theorem scanKey_inert {line : List Marked} (h : isInert line = true)
    (hskip : isSkipped line = false) (r : Registers) : scanKey r line = (r, line) := by
  rw [isInert, hskip, Bool.false_or, isOpener, keyName] at h
  unfold scanKey
  dsimp only
  cases hcut : cut ':' (keyOf line).1 with
  | none => rfl
  | some p =>
    rw [hcut, Bool.or_eq_true, Bool.not_eq_true', Bool.and_eq_true, Bool.not_eq_true'] at h
    dsimp only [Option.map_some, Option.any_some] at h ⊢
    generalize (trim isQuoteOrSpace p.1).map char = name at h ⊢
    rcases h with hopen | ⟨hquote, hown⟩
    · rw [Bool.or_eq_false_iff, decide_eq_false_iff_not] at hopen
      rw [hopen.1, if_neg Bool.false_ne_true, if_neg (fun h => hopen.2 h.1),
        if_neg (fun h => hopen.2 h.1)]
    · rw [hquote, hown]
      by_cases hsecret : isSecretKey name = true
      · rw [if_pos hsecret, if_neg Bool.false_ne_true, Bool.not_true, if_neg Bool.false_ne_true,
          ite_self]
      · rw [if_neg hsecret, if_neg (fun h => Bool.false_ne_true h.2),
          if_neg (fun h => Bool.false_ne_true h.2.2.symm)]

end Inert

end Kubeast.Redact
