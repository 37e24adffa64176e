import Kubeast.Redact.TakenValues

/-! In which of the ways in which a document gives the values of a Secret no value is left in what `Text`
returns. -/
namespace Kubeast.Redact
open Symbols Json

section Forms

/-- How a document gives the values: as a block mapping below a key line, as a flow mapping on a
key line without double quotes, or in braces after a key in double quotes. -/
inductive Form
  | block (above : List (List Marked)) (key : KeyLine) (rows : List (List Marked)) (column : ℕ)
      (below : List (List Marked))
  | flow (above : List (List Marked)) (key : KeyLine) (below : List (List Marked))
  | quoted (before field : List Marked) (name : List Char) (content after : List Marked)

/-- The document is of the form, and no symbol outside of its values has a mark. -/
def Form.Writes (doc : List Marked) : Form → Prop
  | .block above key rows column below =>
      splitLines doc = above ++ key.text :: (rows ++ below) ∧
      (∀ l ∈ above, Clean l) ∧ (∀ l ∈ below, Clean l) ∧ Closed above key.indent ∧
      onItsOwn key.rest = true ∧ Clean key.rest ∧ key.column < column ∧ Rows column false rows
  | .flow above key below =>
      splitLines doc = above ++ key.text :: below ∧
      (∀ l ∈ above, Clean l) ∧ (∀ l ∈ below, Clean l) ∧ Closed above key.indent ∧
      key.quote ≠ .double ∧ hasPrefix (trimSpace key.rest) ['{'] = true ∧
      (trimSpace key.rest).map char ≠ ['{', '}']
  | .quoted before field name content after =>
      doc = before ++ (field ++ (braces content ++ after)) ∧ Clean before ∧ Clean field ∧ Clean after ∧
      isSecretKey name = true ∧ IsField name (field.map char)

/-- What the sections of a document leave of it, where it names its kind in YAML. -/
def Leaves (doc left : List Marked) : Prop :=
  if namesSecretYAML (doc.map char) = true then ∃ out, Sections (splitLines doc) out ∧ left = joinLines out
  else left = doc

/-- Each value stands in a section, and in no line of it that looks like a comment. -/
def BySections (doc : List Marked) : Prop :=
  namesSecretYAML (doc.map char) = true ∧ ∃ out, Sections (splitLines doc) out ∧ ∀ l ∈ out, Clean l

/-- Each value that the sections leave stands in a quoted field, and is none that stays. -/
def ByFields (doc : List Marked) : Prop :=
  ∃ left, Leaves doc left ∧ secretJSONKind (left.map char) = true ∧ TakesFields left

/-- One of the two scans runs and sees each value for what it is. -/
def Form.Taken (doc : List Marked) : Form → Prop
  | .block _ _ rows _ _ => namesSecretYAML (doc.map char) = true ∧ NoneSkipped rows ∨ ByFields doc
  | .flow _ _ _ => namesSecretYAML (doc.map char) = true ∨ ByFields doc
  | .quoted _ _ _ _ _ => BySections doc ∨ ByFields doc

end Forms

section Documents
variable {doc : List Marked} {docs : List (List Marked)}

/-- What the scan by indentation leaves of a document, where it runs. -/
def leftOf (doc : List Marked) : List Marked :=
  if namesSecretYAML (doc.map char) then stripSecretYAML doc else doc

theorem clean_leftOf (h : Clean doc) : Clean (leftOf doc) := by
  unfold leftOf
  split_ifs
  · exact clean_joinLines.mpr (clean_scanLines _ fun l hl => h.subset (splitLines_subset doc l hl))
  · exact h

theorem stripSecretDocument_eq (doc : List Marked) : stripSecretDocument doc =
    if secretJSONKind ((leftOf doc).map char) then stripSecretJSON (leftOf doc) else leftOf doc := rfl

theorem clean_of_leftOf (h : Clean (leftOf doc)) : Clean (stripSecretDocument doc) := by
  rw [stripSecretDocument_eq]
  split_ifs
  · exact clean_stripSecretJSON h
  · exact h

theorem leaves_iff {left : List Marked} : Leaves doc left ↔ left = leftOf doc := by
  unfold Leaves leftOf
  split_ifs
  · constructor
    · rintro ⟨out, hout, rfl⟩
      rw [stripSecretYAML, hout.scan]
    · intro h
      exact ⟨_, sections_iff.mpr rfl, h⟩
  · exact Iff.rfl

theorem bySections_iff : BySections doc ↔
    namesSecretYAML (doc.map char) = true ∧ ∀ l ∈ scanLines .start (splitLines doc), Clean l := by
  simp only [BySections, sections_iff, exists_eq_left']

/-- The braces on the line below a quoted key stand in the block that it opens. -/
example : BySections (write "kind: Secret\n\"data\":\n  \x7b\"k\": \"".toList ++
    ⟨'v', true⟩ :: write "\"\x7d".toList) :=
  bySections_iff.mpr (by decide +kernel)

theorem byFields_iff : ByFields doc ↔
    secretJSONKind ((leftOf doc).map char) = true ∧ Clean (stripSecretJSON (leftOf doc)) := by
  simp only [ByFields, leaves_iff, exists_eq_left, clean_stripSecretJSON_iff]

/-- The marks of a document go by its sections alone, or by the fields of what these leave. -/
theorem clean_stripSecretDocument_iff (hmarked : ¬ Clean doc) :
    Clean (stripSecretDocument doc) ↔ BySections doc ∨ ByFields doc := by
  rw [bySections_iff, byFields_iff]
  constructor
  · intro h
    rw [stripSecretDocument_eq] at h
    split_ifs at h with hkind
    · exact Or.inr ⟨hkind, h⟩
    · unfold leftOf at h
      split_ifs at h with hyaml
      · exact Or.inl ⟨hyaml, clean_joinLines.mp h⟩
      · exact absurd h hmarked
  · rintro (⟨hyaml, hlines⟩ | ⟨hkind, hfields⟩)
    · refine clean_of_leftOf ?_
      rw [leftOf, if_pos hyaml]
      exact clean_joinLines.mpr hlines
    · rwa [stripSecretDocument_eq, if_pos hkind]

theorem clean_joinDocs {docs : List (List Marked)} : Clean (joinDocs docs) ↔ ∀ d ∈ docs, Clean d := by
  induction docs with
  | nil => exact ⟨fun _ _ hd => (List.not_mem_nil hd).elim, fun _ => clean_nil⟩
  | cons d ds ih =>
    cases ds with
    | nil => simp [joinDocs, List.intercalate]
    | cons d' ds =>
      have hjoin : joinDocs (d :: d' :: ds) = d ++ (write docSeparator ++ joinDocs (d' :: ds)) := by
        simp [joinDocs, List.intercalate]
      rw [hjoin, clean_append, clean_append, ih, List.forall_mem_cons (a := d)]
      exact ⟨fun h => ⟨h.1, h.2.2⟩, fun h => ⟨h.1, clean_write _, h.2⟩⟩

end Documents

section Stripped
variable {doc : List Marked} {form : Form}

theorem emptyValues_of_brace {rest : List Marked} (hbrace : hasPrefix (trimSpace rest) ['{'] = true)
    (hne : (trimSpace rest).map char ≠ ['{', '}']) :
    onItsOwn rest = false ∧ (trimSpace rest).map char ∉ emptyValues := by
  rw [hasPrefix, List.isPrefixOf_iff_prefix] at hbrace
  obtain ⟨t, ht⟩ := hbrace
  constructor
  · have hcons : (trimSpace rest).isEmpty = false := by
      cases h : trimSpace rest with
      | nil =>
        rw [h] at ht
        cases ht
      | cons a s => rfl
    rw [onItsOwn, hcons, hasPrefix, ← ht]
    rfl
  · intro hmem
    simp only [emptyValues, List.mem_cons, List.not_mem_nil, or_false] at hmem
    rcases hmem with h | h | h
    · exact hne h
    · rw [h] at ht
      cases ht
    · rw [h] at ht
      cases ht

/-- A document that gives the values in a form is left without them exactly when they are taken. -/
theorem clean_iff_taken (hform : form.Writes doc) (hmarked : ¬ Clean doc) :
    Clean (stripSecretDocument doc) ↔ form.Taken doc := by
  rw [clean_stripSecretDocument_iff hmarked]
  cases form with
  | block above key rows column below =>
    obtain ⟨hsplit, habove, hbelow, hclosed, hown, hrest, hcolumn, hrows⟩ := hform
    have hscan := block_clean habove hbelow hclosed hown hrest hcolumn hrows
    rw [Form.Taken, bySections_iff, hsplit, hscan]
  | flow above key below =>
    obtain ⟨hsplit, habove, hbelow, hclosed, hquote, hbrace, hne⟩ := hform
    obtain ⟨hown, hvalue⟩ := emptyValues_of_brace hbrace hne
    have hscan := flow_clean habove hbelow hclosed hquote hown hvalue
    rw [Form.Taken, bySections_iff, hsplit, and_iff_left hscan]
  | quoted before field name content after => exact Iff.rfl

/-- A Secret with one value, which has the mark. -/
def oneValue : List Marked := write "kind: Secret\ndata:\n  k: ".toList ++ [⟨'v', true⟩]

def oneValueForm : Form := .block [write "kind: Secret".toList]
  ⟨0, none, .bare, "data".toList, rfl, 0, []⟩ [write "  k: ".toList ++ [⟨'v', true⟩]] 2 []

end Stripped

end Kubeast.Redact
