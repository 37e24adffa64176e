import Kubeast.Redact.SecretText

/-! The scans read only characters: marks on the symbols of a text move with them, and what a scan
writes itself has none. -/
namespace Kubeast.Redact
open Symbols Json

section Characters
variable {α : Type*} [Symbol α]

theorem map_char_write (s : List Char) : (write s : List α).map char = s := by
  simp [write, Function.comp_def]

theorem write_char (s : List Char) : (write s : List Char) = s := List.map_id'' (fun _ => rfl) s

theorem isSkipped_map_char (line : List α) : isSkipped (line.map char) = isSkipped line := by
  unfold isSkipped
  rw [← map_char_trimSpace, hasPrefix_map_char]
  simp

theorem indentOf_map_char (line : List α) : indentOf (line.map char) = indentOf line := by
  unfold indentOf
  rw [List.takeWhile_map, List.length_map]
  rfl

theorem keyOf_map_char (line : List α) :
    keyOf (line.map char) = ((keyOf line).1.map char, (keyOf line).2) := by
  unfold keyOf
  rw [← map_char_trimSpace, hasPrefix_map_char, indentOf_map_char]
  split_ifs
  · rw [← List.map_drop, ← map_char_trimLeft]
  · rfl

theorem onItsOwn_map_char (rest : List α) : onItsOwn (rest.map char) = onItsOwn rest := by
  unfold onItsOwn
  rw [← map_char_trimSpace, hasPrefix_map_char]
  simp

theorem maskKeyLine_map_char (line key field : List α) :
    maskKeyLine (line.map char) (key.map char) (field.map char) =
      (maskKeyLine line key field).map char := by
  unfold maskKeyLine
  rw [map_char_self, indexOf_map_char, List.map_append, List.map_append, List.map_take,
    map_char_write, write_char]

/-- The characters of a result of the scan. -/
def charsOf (p : Registers × List α) : Registers × List Char := (p.1, p.2.map char)

theorem scanKey_map_char (r : Registers) (line : List α) :
    scanKey r (line.map char) = charsOf (scanKey r line) := by
  unfold scanKey
  rw [keyOf_map_char]
  dsimp only
  rw [cut_map_char]
  cases cut ':' (keyOf line).1 with
  | none => rfl
  | some p =>
    obtain ⟨field, rest⟩ := p
    simp only [Option.map_some, ← map_char_trim, ← map_char_trimSpace, map_char_self,
      onItsOwn_map_char, hasPrefix_map_char, contains_map_char, maskKeyLine_map_char]
    split_ifs <;> rfl

theorem maskEntry_map_char (line : List α) :
    maskEntry (line.map char) = (maskEntry line).map char := by
  unfold maskEntry
  rw [indentOf_map_char, ← map_char_trimSpace, List.takeWhile_map, List.map_append, List.map_append,
    List.map_replicate, char_lit, map_char_write, write_char]
  rfl

theorem scanEntry_map_char (r : Registers) (line : List α) :
    scanEntry r (line.map char) = charsOf (scanEntry r line) := by
  unfold scanEntry
  rw [indentOf_map_char, ← map_char_trimSpace, contains_map_char, maskEntry_map_char]
  dsimp only [charsOf]
  split_ifs <;> rfl

theorem maskLastApplied_map_char (line : List α) :
    maskLastApplied (line.map char) = (maskLastApplied line).map char := by
  unfold maskLastApplied
  rw [indentOf_map_char, List.map_append, List.map_replicate, char_lit, map_char_write, write_char]
  rfl

theorem scanAnno_map_char (r : Registers) (line : List α) :
    scanAnno r (line.map char) = charsOf (scanAnno r line) := by
  unfold scanAnno
  rw [indentOf_map_char, ← map_char_trimSpace, ← map_char_trimLeft, hasPrefix_map_char,
    maskLastApplied_map_char]
  split_ifs <;> rfl

theorem scanLine_map_char (r : Registers) (line : List α) :
    scanLine r (line.map char) = charsOf (scanLine r line) := by
  unfold scanLine
  rw [isSkipped_map_char, indentOf_map_char, scanEntry_map_char, scanAnno_map_char,
    scanKey_map_char]
  split_ifs <;> rfl

theorem scanLines_map_char (r : Registers) (ls : List (List α)) :
    scanLines r (ls.map (List.map char)) = (scanLines r ls).map (List.map char) := by
  induction ls generalizing r with
  | nil => rfl
  | cons l ls ih =>
    rw [List.map_cons, scanLines, scanLine_map_char, scanLines, List.map_cons]
    exact congrArg (_ :: ·) (ih _)

theorem stripSecretYAML_map_char (doc : List α) :
    stripSecretYAML (doc.map char) = (stripSecretYAML doc).map char := by
  unfold stripSecretYAML
  rw [splitLines_map_char, scanLines_map_char, map_char_joinLines]

theorem stringLen_map_char : ∀ s : List α, stringLen (s.map char) = stringLen s
  | [] => rfl
  | [a] => by simp [stringLen]
  | a :: b :: s => by
    have ih := stringLen_map_char s
    have ih' := stringLen_map_char (b :: s)
    rw [List.map_cons, List.map_cons, stringLen.eq_def, stringLen.eq_def (a :: b :: s)]
    simp only [char_self, ih, ← List.map_cons, ih']

theorem containerLen_map_char (s : List α) (depth : ℕ) (m : Mode) :
    containerLen depth m (s.map char) = containerLen depth m s := by
  induction s generalizing depth m with
  | nil => cases m <;> rfl
  | cons a s ih => cases m <;> simp [containerLen, ih]

theorem valueLen_map_char (s : List α) : valueLen (s.map char) = valueLen s := by
  cases s with
  | nil => rfl
  | cons a s =>
    rw [List.map_cons, valueLen, valueLen, stringLen_map_char, ← List.map_cons,
      containerLen_map_char, List.takeWhile_map, List.length_map]
    rfl

theorem findField_map_char (s : List α) : findField (s.map char) =
    (findField s).map fun p => (p.1.map char, p.2.1, p.2.2.map char) := by
  induction s with
  | nil => rfl
  | cons a s ih =>
    rw [List.map_cons, findField, findField, ih, ← List.map_cons, map_char_self]
    cases matchField ((a :: s).map char) with
    | none =>
      simp [Function.comp_def]
    | some p => simp

/-- The characters of what is written for a value and of the text after it. -/
def charsAfter (p : List α × Option (List α)) : List Char × Option (List Char) :=
  (p.1.map char, p.2.map (List.map char))

theorem maskJSONValue_map_char (s : List α) :
    maskJSONValue (s.map char) = charsAfter (maskJSONValue s) := by
  unfold maskJSONValue
  rw [valueLen_map_char]
  cases valueLen s with
  | none =>
    simp only [charsAfter, map_char_write, write_char]
    rfl
  | some n =>
    dsimp only
    rw [← List.map_take, map_char_self, hasPrefix_map_char, ← List.map_drop]
    split_ifs
    · rfl
    · simp only [charsAfter, map_char_write, write_char]
      rfl

theorem maskJSONMember_map_char (s : List α) (n : ℕ) :
    maskJSONMember (s.map char) n = charsAfter (maskJSONMember s n) := by
  unfold maskJSONMember
  rw [maskJSONValue_map_char, ← List.map_drop, List.dropWhile_map]
  cases h : (s.drop n).dropWhile fun a => isSpaceChar (char a) with
  | nil =>
    simp only [Function.comp_def, char_self, h, List.map_nil]
  | cons colon t =>
    simp only [Function.comp_def, char_self, h, List.map_cons, List.dropWhile_map,
      maskJSONValue_map_char, ← List.map_take, List.takeWhile_map]
    split_ifs
    · simp only [charsAfter, List.map_append, List.map_cons]
    · rfl

theorem maskJSONMembers_map_char (fuel : ℕ) (s : List α) :
    maskJSONMembers fuel (s.map char) = charsAfter (maskJSONMembers fuel s) := by
  induction fuel generalizing s with
  | zero => rfl
  | succ fuel ih =>
    cases s with
    | nil => rfl
    | cons a s =>
      rw [List.map_cons, maskJSONMembers, maskJSONMembers, ← List.map_cons, valueLen_map_char,
        char_self]
      by_cases hclose : char a = '}'
      · rw [if_pos hclose, if_pos hclose]
        rfl
      rw [if_neg hclose, if_neg hclose]
      by_cases hquote : char a = '"'
      · rw [if_pos hquote, if_pos hquote]
        cases valueLen (a :: s) with
        | none => rfl
        | some n =>
          dsimp only
          rw [maskJSONMember_map_char]
          obtain ⟨written, next⟩ := maskJSONMember (a :: s) n
          cases next with
          | none => rfl
          | some t => simp [charsAfter, ih]
      · rw [if_neg hquote, if_neg hquote, ih]
        simp only [charsAfter]
        split_ifs <;> simp

theorem maskField_map_char (name : List Char) (s : List α) :
    maskField name (s.map char) = charsAfter (maskField name s) := by
  unfold maskField
  rw [hasPrefix_map_char, maskJSONValue_map_char]
  split_ifs
  · cases s with
    | nil => rfl
    | cons a s =>
      rw [List.map_cons, maskJSONObject, maskJSONObject, maskJSONMembers_map_char, List.length_map]
      rfl
  · rfl

theorem stripSecretJSONFrom_map_char (fuel : ℕ) (s : List α) :
    stripSecretJSONFrom fuel (s.map char) = (stripSecretJSONFrom fuel s).map char := by
  induction fuel generalizing s with
  | zero => rfl
  | succ fuel ih =>
    rw [stripSecretJSONFrom, stripSecretJSONFrom, findField_map_char]
    cases findField s with
    | none => rfl
    | some p =>
      obtain ⟨copied, name, rest⟩ := p
      simp only [Option.map_some, maskField_map_char, charsAfter, List.map_append]
      cases (maskField name rest).2 with
      | none => simp
      | some t => simp [ih]

theorem stripSecretJSON_map_char (s : List α) :
    stripSecretJSON (s.map char) = (stripSecretJSON s).map char := by
  unfold stripSecretJSON
  rw [List.length_map, stripSecretJSONFrom_map_char]

theorem splitDocs_map_char (n : ℕ) (s : List α) :
    splitDocs n (s.map char) = (splitDocs n s).map (List.map char) := by
  induction s generalizing n with
  | nil => cases n <;> rfl
  | cons a s ih =>
    cases n with
    | succ n => exact ih n
    | zero =>
      rw [List.map_cons, splitDocs, splitDocs, ← List.map_cons, hasPrefix_map_char, ih, ih]
      split_ifs
      · rfl
      · cases splitDocs 0 s with
        | nil => rfl
        | cons d ds => rfl

theorem joinDocs_map_char (docs : List (List α)) :
    joinDocs (docs.map (List.map char)) = (joinDocs docs).map char := by
  unfold joinDocs
  rw [write_char, map_intercalate, map_char_write]

theorem stripSecretDocument_map_char (doc : List α) :
    stripSecretDocument (doc.map char) = (stripSecretDocument doc).map char := by
  have hdoc : (if namesSecretYAML ((doc.map char).map char) then stripSecretYAML (doc.map char)
      else doc.map char) =
      (if namesSecretYAML (doc.map char) then stripSecretYAML doc else doc).map char := by
    rw [map_char_self, stripSecretYAML_map_char]
    split_ifs <;> rfl
  unfold stripSecretDocument
  dsimp only
  rw [hdoc, map_char_self, stripSecretJSON_map_char]
  split_ifs <;> rfl

/-- The documents of a text are stripped by their characters alone. -/
theorem stripSecretDocuments_map_char (s : List α) :
    stripSecretDocuments (s.map char) = (stripSecretDocuments s).map char := by
  unfold stripSecretDocuments
  rw [splitDocs_map_char, ← joinDocs_map_char, List.map_map, List.map_map]
  congr 1
  apply List.map_congr_left
  intro doc _
  exact stripSecretDocument_map_char doc

end Characters

section Origins
variable {α : Type*} [Symbol α] {line : List α}

/-- What the scan by indentation writes itself. -/
def inserted : List Char := lastAppliedName ++ (": ".toList ++ secretPlaceholder)

theorem placeholder_subset : (write (": ".toList ++ secretPlaceholder) : List α) ⊆ line ++ write inserted :=
  List.Subset.trans (List.map_subset _ (List.subset_append_right _ _)) (List.subset_append_right _ _)

theorem spaces_subset (n : ℕ) : List.replicate n (lit ' ' : α) ⊆ line ++ write inserted := by
  intro a ha
  rw [List.eq_of_mem_replicate ha]
  exact List.mem_append_right _ (List.mem_map_of_mem (by decide))

theorem keyOf_subset (line : List α) : (keyOf line).1 ⊆ line := by
  unfold keyOf
  split_ifs
  · intro a ha
    have hdrop := (List.dropWhile_sublist _).mem ha
    exact trim_subset _ _ (List.mem_of_mem_drop hdrop)
  · exact trim_subset _ _

theorem maskKeyLine_subset {key field : List α} (h : field ⊆ line) :
    maskKeyLine line key field ⊆ line ++ write inserted :=
  List.append_subset.mpr ⟨List.Subset.trans (List.take_subset _ _) (List.subset_append_left _ _),
    List.append_subset.mpr ⟨List.Subset.trans h (List.subset_append_left _ _), placeholder_subset⟩⟩

theorem scanKey_subset (r : Registers) : (scanKey r line).2 ⊆ line ++ write inserted := by
  have hline : line ⊆ line ++ write inserted := List.subset_append_left _ _
  unfold scanKey
  dsimp only
  cases hcut : cut ':' (keyOf line).1 with
  | none => exact hline
  | some p =>
    obtain ⟨field, rest⟩ := p
    obtain ⟨a, -, hkey, -⟩ := cut_eq_some hcut
    have hfield : field ⊆ line := by
      refine List.Subset.trans ?_ (keyOf_subset line)
      rw [hkey]
      exact List.subset_append_left _ _
    have hmask : maskKeyLine line (keyOf line).1 field ⊆ line ++ write inserted := maskKeyLine_subset hfield
    dsimp only
    split_ifs <;> first | exact hline | exact hmask

theorem scanEntry_subset (r : Registers) : (scanEntry r line).2 ⊆ line ++ write inserted := by
  unfold scanEntry
  dsimp only
  split_ifs
  · have hkey : (trimSpace line).takeWhile (fun a => char a ≠ ':') ⊆ line :=
      List.Subset.trans (List.takeWhile_subset _) (trim_subset _ _)
    exact List.append_subset.mpr ⟨spaces_subset _, List.append_subset.mpr
      ⟨List.Subset.trans hkey (List.subset_append_left _ _), placeholder_subset⟩⟩
  · exact List.nil_subset _

theorem scanAnno_subset (r : Registers) : (scanAnno r line).2 ⊆ line ++ write inserted := by
  unfold scanAnno
  split_ifs
  · refine List.append_subset.mpr ⟨spaces_subset _, ?_⟩
    rw [List.append_assoc]
    exact List.subset_append_right _ _
  · exact List.nil_subset _
  · exact List.subset_append_left _ _

/-- A symbol of a scanned line comes from the line or is written by the scan. -/
theorem scanLine_subset (r : Registers) (line : List α) : (scanLine r line).2 ⊆ line ++ write inserted := by
  unfold scanLine
  split_ifs
  · exact List.subset_append_left _ _
  · exact scanEntry_subset r
  · exact scanAnno_subset _
  · exact scanKey_subset _

end Origins

section Marks

theorem clean_write (s : List Char) : Clean (write s) := clean_map_lit s

theorem clean_spaces (n : ℕ) : Clean (List.replicate n (lit ' ')) := by
  intro a ha
  rw [List.eq_of_mem_replicate ha]
  rfl

theorem clean_maskEntry {line : List Marked}
    (h : Clean ((trimSpace line).takeWhile fun a => char a ≠ ':')) : Clean (maskEntry line) := by
  unfold maskEntry
  rw [clean_append, clean_append]
  exact ⟨clean_spaces _, h, clean_write _⟩

theorem clean_scanLine (r : Registers) {line : List Marked} (h : Clean line) :
    Clean (scanLine r line).2 :=
  (clean_append.mpr ⟨h, clean_write _⟩).subset (scanLine_subset r line)

theorem clean_scanLines (r : Registers) {ls : List (List Marked)} (h : ∀ l ∈ ls, Clean l) :
    ∀ l ∈ scanLines r ls, Clean l := by
  induction ls generalizing r with
  | nil => exact h
  | cons l ls ih =>
    rw [List.forall_mem_cons] at h
    rw [scanLines, List.forall_mem_cons]
    exact ⟨clean_scanLine r h.1, ih _ h.2⟩

theorem clean_joinLines {ls : List (List Marked)} : Clean (joinLines ls) ↔ ∀ l ∈ ls, Clean l := by
  induction ls with
  | nil => exact ⟨fun _ _ hl => (List.not_mem_nil hl).elim, fun _ => clean_nil⟩
  | cons l ls ih =>
    cases ls with
    | nil => simp
    | cons l' ls =>
      rw [joinLines_cons_cons, clean_append, clean_cons, ih, List.forall_mem_cons (a := l)]
      exact ⟨fun h => ⟨h.1, h.2.2⟩, fun h => ⟨h.1, rfl, h.2⟩⟩

/-- What is written and the text after it have no marks. -/
def CleanAfter (p : List Marked × Option (List Marked)) : Prop :=
  Clean p.1 ∧ ∀ t, p.2 = some t → Clean t

theorem clean_maskJSONValue {s : List Marked} (h : Clean s) : CleanAfter (maskJSONValue s) := by
  unfold maskJSONValue
  cases valueLen s with
  | none => exact ⟨clean_write _, fun t ht => by cases ht⟩
  | some n =>
    have hdrop : ∀ t, some (s.drop n) = some t → Clean t := by
      rintro t ⟨⟩
      exact h.subset (List.drop_subset _ _)
    dsimp only
    split_ifs
    · exact ⟨h.subset (List.take_subset _ _), hdrop⟩
    · exact ⟨clean_write _, hdrop⟩

theorem clean_maskJSONMember {s : List Marked} (h : Clean s) (n : ℕ) :
    CleanAfter (maskJSONMember s n) := by
  unfold maskJSONMember
  have hdrop : Clean (s.drop n) := h.subset (List.drop_subset _ _)
  have hrest : Clean ((s.drop n).dropWhile fun a => isSpaceChar (char a)) :=
    hdrop.subset (List.dropWhile_sublist _).subset
  cases hs : (s.drop n).dropWhile fun a => isSpaceChar (char a) with
  | nil => exact clean_maskJSONValue h
  | cons colon t =>
    rw [hs, clean_cons] at hrest
    dsimp only
    split_ifs
    · have hvalue : Clean (t.dropWhile fun a => isSpaceChar (char a)) :=
        hrest.2.subset (List.dropWhile_sublist _).subset
      have hmasked := clean_maskJSONValue hvalue
      refine ⟨?_, hmasked.2⟩
      rw [clean_append, clean_append, clean_cons, clean_append]
      exact ⟨h.subset (List.take_subset _ _), hdrop.subset (List.takeWhile_sublist _).subset,
        hrest.1, hrest.2.subset (List.takeWhile_sublist _).subset, hmasked.1⟩
    · exact clean_maskJSONValue h

theorem clean_maskJSONMembers (fuel : ℕ) {s : List Marked} (h : Clean s) :
    CleanAfter (maskJSONMembers fuel s) := by
  induction fuel generalizing s with
  | zero => exact ⟨clean_nil, fun t ht => by cases ht⟩
  | succ fuel ih =>
    cases s with
    | nil => exact ⟨clean_nil, fun t ht => by cases ht⟩
    | cons a s =>
      have hs := clean_cons.mp h
      rw [maskJSONMembers]
      split_ifs with hclose hquote
      · refine ⟨clean_cons.mpr ⟨hs.1, clean_nil⟩, ?_⟩
        rintro t ⟨⟩
        exact hs.2
      · cases valueLen (a :: s) with
        | none => exact ⟨clean_nil, fun t ht => by cases ht⟩
        | some n =>
          have hmember := clean_maskJSONMember h n
          dsimp only
          generalize maskJSONMember (a :: s) n = member at hmember
          obtain ⟨written, next⟩ := member
          cases next with
          | none => exact hmember
          | some t =>
            have hrest := ih (hmember.2 t rfl)
            exact ⟨clean_append.mpr ⟨hmember.1, hrest.1⟩, hrest.2⟩
      · have hrest := ih hs.2
        refine ⟨clean_append.mpr ⟨?_, hrest.1⟩, hrest.2⟩
        split_ifs
        · exact clean_cons.mpr ⟨hs.1, clean_nil⟩
        · exact clean_nil

theorem clean_maskField (name : List Char) {s : List Marked} (h : Clean s) :
    CleanAfter (maskField name s) := by
  unfold maskField
  split_ifs
  · cases s with
    | nil => exact ⟨clean_nil, fun t ht => by cases ht⟩
    | cons a s =>
      have hs := clean_cons.mp h
      have hmasked := clean_maskJSONMembers (s.length + 1) hs.2
      exact ⟨clean_cons.mpr ⟨hs.1, hmasked.1⟩, hmasked.2⟩
  · exact clean_maskJSONValue h

theorem findField_eq_some {s copied rest : List Marked} {name : List Char}
    (h : findField s = some (copied, name, rest)) : s = copied ++ rest := by
  induction s generalizing copied with
  | nil => cases h
  | cons a s ih =>
    rw [findField] at h
    cases hmatch : matchField ((a :: s).map char) with
    | some p =>
      rw [hmatch] at h
      cases h
      exact (List.take_append_drop _ _).symm
    | none =>
      rw [hmatch] at h
      obtain ⟨⟨copied', p⟩, hfind, h⟩ := Option.map_eq_some_iff.mp h
      cases h
      rw [List.cons_append, ← ih hfind]

theorem clean_stripSecretJSONFrom (fuel : ℕ) {s : List Marked} (h : Clean s) :
    Clean (stripSecretJSONFrom fuel s) := by
  induction fuel generalizing s with
  | zero => exact h
  | succ fuel ih =>
    rw [stripSecretJSONFrom]
    cases hfind : findField s with
    | none => exact h
    | some p =>
      obtain ⟨copied, name, rest⟩ := p
      rw [findField_eq_some hfind, clean_append] at h
      have hmasked := clean_maskField name h.2
      dsimp only
      rw [clean_append, clean_append]
      refine ⟨h.1, hmasked.1, ?_⟩
      cases hnext : (maskField name rest).2 with
      | none => exact clean_nil
      | some t => exact ih (hmasked.2 t hnext)

theorem clean_stripSecretJSON {s : List Marked} (h : Clean s) : Clean (stripSecretJSON s) :=
  clean_stripSecretJSONFrom _ h

end Marks

end Kubeast.Redact
