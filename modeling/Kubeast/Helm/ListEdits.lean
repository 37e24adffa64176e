import Kubeast.Foundation.Sorted
import Kubeast.Helm.ItemText

/-! Lists whose items with placeholders are kept as they were shown. -/
namespace Kubeast.Helm

variable {tables : Text.CharTables} {floats : FloatFormats}

section Edit

/-- Items of different texts, each in one place at most. -/
def Reordered (tables : Text.CharTables) (floats : FloatFormats) (shown : List Value)
    (source : ℕ → Option ℕ) : Prop :=
  (shown.map (itemText tables floats)).Nodup ∧
    ∀ i i' j, source i = some j → source i' = some j → i = i'

/-- All items with placeholders, in the order they were shown. -/
def InOrder (shown : List Value) (source : ℕ → Option ℕ) : Prop :=
  (∀ i i' j j', i < i' → source i = some j → source i' = some j' → j < j') ∧
    ∀ j item, shown[j]? = some item → holdsMask item = true → ∃ i, source i = some j

/-- Every sent item with a placeholder was shown; `source` says where. -/
structure ListEdit (tables : Text.CharTables) (floats : FloatFormats) (shown sent : List Value)
    (source : ℕ → Option ℕ) : Prop where
  same : ∀ i j, source i = some j →
    ∃ item, sent[i]? = some item ∧ shown[j]? = some item ∧ holdsMask item = true
  kept : ∀ i item, sent[i]? = some item → holdsMask item = true → ∃ j, source i = some j
  kind : Reordered tables floats shown source ∨ InOrder shown source

end Edit

variable {shown sent : List Value} {source : ℕ → Option ℕ}

theorem mem_sentAt {text : List Char} {i : ℕ} : i ∈ sentAt tables floats sent text ↔
    ∃ item, sent[i]? = some item ∧ holdsMask item = true ∧ itemText tables floats item = text :=
  mem_indicesOf

theorem mem_shownAt {text : List Char} {j : ℕ} : j ∈ shownAt tables floats shown text ↔
    ∃ item, shown[j]? = some item ∧ itemText tables floats item = text := by
  simp [shownAt, mem_indicesOf]

theorem indicesOf_increasing {p : Value → Bool} {items : List Value} {text : List Char} :
    Sorted.Increasing id (indicesOf tables floats p items text) :=
  List.pairwise_lt_range.filter _

/-- Items of different texts are in one place each. -/
theorem index_of_text (h : (shown.map (itemText tables floats)).Nodup) {j j' : ℕ} {item item' : Value}
    (hitem : shown[j]? = some item) (hitem' : shown[j']? = some item')
    (htext : itemText tables floats item = itemText tables floats item') : j = j' := by
  have hlt : j < (shown.map (itemText tables floats)).length := by
    rw [List.length_map]
    exact (List.getElem?_eq_some_iff.mp hitem).1
  apply (List.getElem?_inj hlt h).mp
  rw [List.getElem?_map, List.getElem?_map, hitem, hitem', Option.map_some, Option.map_some, htext]

/-- Where the items of a text were shown. -/
theorem ListEdit.mem_shownAt_iff (hprinting : Printing tables floats)
    (h : ListEdit tables floats shown sent source) {item : Value} {i : ℕ}
    (hitem : sent[i]? = some item) (hmask : holdsMask item = true) (j : ℕ) :
    j ∈ shownAt tables floats shown (itemText tables floats item) ↔
      ∃ i' ∈ sentAt tables floats sent (itemText tables floats item), source i' = some j := by
  constructor
  · intro hj
    obtain ⟨item', hshown, htext⟩ := mem_shownAt.mp hj
    rcases h.kind with ⟨hdistinct, -⟩ | ⟨-, honto⟩
    · obtain ⟨j', hj'⟩ := h.kept i item hitem hmask
      obtain ⟨w, hw, hshown', -⟩ := h.same i j' hj'
      obtain rfl : item = w := Option.some.inj (hitem.symm.trans hw)
      obtain rfl := index_of_text hdistinct hshown hshown' htext
      exact ⟨i, mem_sentAt.mpr ⟨item, hitem, hmask, rfl⟩, hj'⟩
    · have hmask' : holdsMask item' = true := by rw [holdsMask_of_text hprinting htext, hmask]
      obtain ⟨i', hi'⟩ := honto j item' hshown hmask'
      obtain ⟨w, hw, hshown', -⟩ := h.same i' j hi'
      obtain rfl : item' = w := Option.some.inj (hshown.symm.trans hshown')
      exact ⟨i', mem_sentAt.mpr ⟨item', hw, hmask', htext⟩, hi'⟩
  · rintro ⟨i', hi', hj⟩
    obtain ⟨item', hitem', -, htext⟩ := mem_sentAt.mp hi'
    obtain ⟨w, hw, hshown, -⟩ := h.same i' j hj
    obtain rfl : item' = w := Option.some.inj (hitem'.symm.trans hw)
    exact mem_shownAt.mpr ⟨item', hshown, htext⟩

/-- Items of one text keep their order. -/
theorem ListEdit.mono (h : ListEdit tables floats shown sent source) {text : List Char}
    {i i' j j' : ℕ} (hi : i ∈ sentAt tables floats sent text)
    (hi' : i' ∈ sentAt tables floats sent text) (hlt : i < i') (hj : source i = some j)
    (hj' : source i' = some j') : j < j' := by
  rcases h.kind with ⟨hdistinct, hinj⟩ | ⟨hmono, -⟩
  · obtain ⟨item, hitem, -, htext⟩ := mem_sentAt.mp hi
    obtain ⟨item', hitem', -, htext'⟩ := mem_sentAt.mp hi'
    obtain ⟨w, hw, hshown, -⟩ := h.same i j hj
    obtain ⟨w', hw', hshown', -⟩ := h.same i' j' hj'
    obtain rfl : item = w := Option.some.inj (hitem.symm.trans hw)
    obtain rfl : item' = w' := Option.some.inj (hitem'.symm.trans hw')
    obtain rfl := index_of_text hdistinct hshown hshown' (htext.trans htext'.symm)
    exact absurd hlt (hinj i i' j hj hj' ▸ lt_irrefl i)
  · exact hmono i i' j j' hlt hj hj'

/-- The sources of the sent items of a text are where it was shown. -/
theorem ListEdit.sources (hprinting : Printing tables floats)
    (h : ListEdit tables floats shown sent source) {item : Value} {i : ℕ}
    (hitem : sent[i]? = some item) (hmask : holdsMask item = true) :
    (sentAt tables floats sent (itemText tables floats item)).map source =
      (shownAt tables floats shown (itemText tables floats item)).map some := by
  have hshown : shownAt tables floats shown (itemText tables floats item) =
      (sentAt tables floats sent (itemText tables floats item)).filterMap source := by
    apply Sorted.Increasing.ext indicesOf_increasing
    · have hsent : Sorted.Increasing id (sentAt tables floats sent (itemText tables floats item)) :=
        indicesOf_increasing
      apply List.pairwise_filterMap.mpr
      refine hsent.imp_of_mem ?_
      intro i i' hi hi' hlt j hj j' hj'
      exact h.mono hi hi' hlt hj hj'
    · intro j
      rw [List.mem_filterMap]
      exact h.mem_shownAt_iff hprinting hitem hmask j
  rw [hshown]
  have hall : ∀ i' ∈ sentAt tables floats sent (itemText tables floats item), (source i').isSome := by
    intro i' hi'
    obtain ⟨item', hitem', hmask', -⟩ := mem_sentAt.mp hi'
    obtain ⟨j, hj⟩ := h.kept i' item' hitem' hmask'
    simp [hj]
  generalize sentAt tables floats sent (itemText tables floats item) = l at hall
  induction l with
  | nil => rfl
  | cons a l ih =>
    obtain ⟨ha, hl⟩ := List.forall_mem_cons.mp hall
    obtain ⟨j, hj⟩ := Option.isSome_iff_exists.mp ha
    rw [List.map_cons, List.filterMap_cons_some hj, List.map_cons, ih hl, hj]

/-- The matching finds where the items were shown. -/
theorem ListEdit.matchItems (hprinting : Printing tables floats)
    (h : ListEdit tables floats shown sent source) (i : ℕ) :
    matchItems tables floats sent shown i = source i := by
  have hgroup : groupMatch tables floats sent shown i = source i := by
    cases hsource : source i with
    | none =>
      rw [Option.eq_none_iff_forall_ne_some]
      intro j hj
      obtain ⟨item, hitem, hmask, -⟩ := groupMatch_eq_some.mp hj
      obtain ⟨j', hj'⟩ := h.kept i item hitem hmask
      rw [hsource] at hj'
      cases hj'
    | some j =>
      obtain ⟨item, hitem, -, hmask⟩ := h.same i j hsource
      have hmap := h.sources hprinting hitem hmask
      have hlen : (sentAt tables floats sent (itemText tables floats item)).length =
          (shownAt tables floats shown (itemText tables floats item)).length := by
        simpa using congrArg List.length hmap
      refine groupMatch_eq_some.mpr ⟨item, hitem, hmask, hlen.symm, ?_⟩
      have hmem : i ∈ sentAt tables floats sent (itemText tables floats item) :=
        mem_sentAt.mpr ⟨item, hitem, hmask, rfl⟩
      have hindex := congrArg
        (·[(sentAt tables floats sent (itemText tables floats item)).idxOf i]?) hmap
      simp only [List.getElem?_map, List.getElem?_idxOf hmem, Option.map_some, hsource] at hindex
      simpa using hindex.symm
  have hleft : leftOver tables floats sent shown = [] := by
    rw [leftOver, List.filter_eq_nil_iff]
    intro i' _ hany
    cases hitem : sent[i']? with
    | none => simp [hitem] at hany
    | some item =>
      rw [hitem, Option.any_some, Bool.and_eq_true] at hany
      obtain ⟨j, hj⟩ := h.kept i' item hitem hany.1
      obtain ⟨item', hitem', hshown, -⟩ := h.same i' j hj
      obtain rfl : item = item' := Option.some.inj (hitem.symm.trans hitem')
      have hmem : j ∈ shownAt tables floats shown (itemText tables floats item) :=
        mem_shownAt.mpr ⟨item, hshown, rfl⟩
      rw [List.isEmpty_iff.mp hany.2] at hmem
      cases hmem
  rw [Helm.matchItems, hleft, if_neg (by simp), hgroup]

end Kubeast.Helm
