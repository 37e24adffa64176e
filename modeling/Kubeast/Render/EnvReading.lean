import Kubeast.Render.Subst
import Mathlib.Data.List.Chain
import Mathlib.Data.Bool.AllAny

/-! How Kubernetes reads a container's variables, and when each of them reads as the text the Score
file gives. -/
namespace Kubeast.Render
open Words

section Kubernetes

/-- `$(NAME)` is what the name stands for, or itself where it stands for nothing; `$$` is one
dollar. The first `skip` characters have been read. -/
def expand (env : List Char → Option (Word Char Ref)) : ℕ → List Char → Word Char Ref
  | _, [] => []
  | skip + 1, _ :: s => expand env skip s
  | 0, c :: s =>
    if c = '$' then
      match s with
      | '$' :: _ => .inl '$' :: expand env 1 s
      | '(' :: t =>
        let name := t.takeWhile (· ≠ ')')
        if name.length < t.length then
          (env name).getD (letters ('$' :: '(' :: name ++ [')'])) ++ expand env (name.length + 2) s
        else .inl '$' :: .inl '(' :: expand env 1 s
      | _ => .inl '$' :: expand env 0 s
    else .inl c :: expand env 0 s

/-- The value of a name: the last one given to it. -/
def valueOf (env : List (String × Word Char Ref)) (name : List Char) : Option (Word Char Ref) :=
  (env.reverse.find? fun e => decide (e.1.toList = name)).map Prod.snd

def readEntry (env : List (String × Word Char Ref)) : EnvEntry → String × Word Char Ref
  | .value name v => (name, expand (valueOf env) 0 v.toList)
  | .secret name ref => (name, [.inr ref])

/-- The entries in order, each read with the values of those before it. -/
def readEnv (entries : List EnvEntry) : List (String × Word Char Ref) :=
  entries.foldl (fun env e => env ++ [readEntry env e]) []

end Kubernetes

section Expansion
variable {env : List Char → Option (Word Char Ref)} {w : Word Char Ref} {c : Char} {s t : List Char}
  {ref : Ref} {win : Ref → Ref}

theorem expand_skip (env : List Char → Option (Word Char Ref)) (s t : List Char) :
    expand env s.length (s ++ t) = expand env 0 t := by
  induction s with
  | nil => rfl
  | cons c s ih => exact ih

theorem expand_letter (h : c ≠ '$') : expand env 0 (c :: s) = .inl c :: expand env 0 s := by
  rw [expand.eq_def]
  simp [h]

theorem expand_letters (h : '$' ∉ s) : expand env 0 (s ++ t) = letters s ++ expand env 0 t := by
  induction s with
  | nil => rfl
  | cons c s ih =>
    rw [List.mem_cons, not_or] at h
    rw [List.cons_append, expand_letter (Ne.symm h.1), ih h.2]
    rfl

theorem expand_dollars : expand env 0 ('$' :: '$' :: s) = .inl '$' :: expand env 0 s := rfl

theorem expand_dollar (h : c ≠ '$') (h' : c ≠ '(') :
    expand env 0 ('$' :: c :: s) = .inl '$' :: .inl c :: expand env 0 s := by
  rw [← expand_letter h, expand.eq_def]
  simp only [if_pos]
  split
  · next heq => exact absurd (List.cons.inj heq).1 h
  · next heq => exact absurd (List.cons.inj heq).1 h'
  · rfl

theorem expand_name (h : ')' ∉ s) {v : Word Char Ref} (hv : env s = some v) :
    expand env 0 ('$' :: '(' :: s ++ ')' :: t) = v ++ expand env 0 t := by
  have htake : (s ++ ')' :: t).takeWhile (· ≠ ')') = s := by
    rw [List.takeWhile_append_of_pos]
    · simp
    · intro c hc
      simpa using fun hparen : c = ')' => h (hparen ▸ hc)
  rw [List.cons_append, List.cons_append, expand.eq_def]
  simp only [if_pos]
  rw [htake, if_pos (by simp), hv, Option.getD_some]
  have hskip := expand_skip env ('(' :: s ++ [')']) t
  rw [List.length_append, List.length_cons, List.length_singleton, List.append_assoc] at hskip
  exact congrArg _ hskip

theorem cleanChar_spec (c : Char) : (cleanChar c).isUpper = true ∨ (cleanChar c).isDigit = true ∨
    cleanChar c = '_' := by
  unfold cleanChar
  split
  · next h =>
    left
    have hrange : 97 ≤ c.toNat ∧ c.toNat ≤ 122 := by
      have h : (decide (97 ≤ c.val) && decide (c.val ≤ 122)) = true := h
      simpa [UInt32.le_iff_toNat_le] using h
    have hnat : (Char.ofNat (c.toNat - 'a'.toNat + 'A'.toNat)).toNat = c.toNat - 97 + 65 := by
      have hvalid : (c.toNat - 'a'.toNat + 'A'.toNat).isValidChar :=
        Or.inl (show c.toNat - 97 + 65 < 0xd800 by omega)
      rw [Char.ofNat, dif_pos hvalid]
      rfl
    generalize Char.ofNat (c.toNat - 'a'.toNat + 'A'.toNat) = d at hnat
    have hupper : 65 ≤ d.toNat ∧ d.toNat ≤ 90 := by omega
    show decide (65 ≤ d.val ∧ d.val ≤ 90) = true
    simpa [UInt32.le_iff_toNat_le] using hupper
  · split
    · next h => exact Or.imp_right Or.inl (Bool.or_eq_true_iff.mp h)
    · exact Or.inr (Or.inr rfl)

/-- A generated name is a name. -/
theorem mem_hiddenName (h : c ∈ (hiddenName ref).toList) :
    c.isUpper = true ∨ c.isDigit = true ∨ c = '_' := by
  rw [hiddenName, String.toList_ofList] at h
  rcases List.mem_append.mp h with h | h
  · rcases List.mem_append.mp h with h | h
    · have hall : ∀ c ∈ hiddenPrefix.toList, c.isUpper = true ∨ c.isDigit = true ∨ c = '_' :=
        List.all_iff_forall_prop.mp (by decide)
      exact hall c h
    · obtain ⟨d, -, rfl⟩ := List.mem_map.mp h
      exact cleanChar_spec d
  · rcases List.mem_cons.mp h with rfl | h
    · exact Or.inr (Or.inr rfl)
    · obtain ⟨d, -, rfl⟩ := List.mem_map.mp h
      exact cleanChar_spec d

theorem notMem_hiddenName (h : c ∈ ['$', '(', ')']) : c ∉ (hiddenName ref).toList := by
  intro hmem
  have hname := mem_hiddenName hmem
  simp only [List.mem_cons, List.not_mem_nil, or_false] at h
  rcases h with rfl | rfl | rfl <;> revert hname <;> decide

end Expansion
section Written

/-- No dollar stands before an opening parenthesis. -/
def Plain (w : Word Char Ref) : Prop := w.IsChain fun x y => ¬ (x = .inl '$' ∧ y = .inl '(')

instance (w : Word Char Ref) : Decidable (Plain w) :=
  inferInstanceAs (Decidable (w.IsChain fun x y => ¬ (x = .inl '$' ∧ y = .inl '(')))

/-- No dollar stands before another dollar or before a reference. -/
def Undoubled (w : Word Char Ref) : Prop :=
  w.IsChain fun x y => x = .inl '$' → ∃ c, y = .inl c ∧ c ≠ '$'

/-- What a written word reads as. -/
def shown (win : Ref → Ref) : Word Char Ref → Word Char Ref
  | .inl '$' :: .inl '$' :: w => .inl '$' :: shown win w
  | .inl '$' :: .inr ref :: w =>
    .inl '$' :: letters ('(' :: (hiddenName ref).toList ++ [')']) ++ shown win w
  | .inl c :: w => .inl c :: shown win w
  | .inr ref :: w => .inr (win ref) :: shown win w
  | [] => []

variable {env : List Char → Option (Word Char Ref)} {w : Word Char Ref} {ref : Ref} {win : Ref → Ref}

theorem mem_atoms : ref ∈ atoms w ↔ Sum.inr ref ∈ w := by
  simp [atoms]

/-- A word written with generated names reads as itself, but for doubled dollars. -/
theorem expand_written (hplain : Plain w)
    (henv : ∀ ref ∈ atoms w, env (hiddenName ref).toList = some [.inr (win ref)]) :
    expand env 0 (fill dollarRef w) = shown win w := by
  have tail : ∀ {x : Char ⊕ Ref} {w : Word Char Ref}, (∀ ref ∈ atoms (x :: w),
      env (hiddenName ref).toList = some [.inr (win ref)]) →
      ∀ ref ∈ atoms w, env (hiddenName ref).toList = some [.inr (win ref)] :=
    fun h ref hr => h ref (mem_atoms.mpr (List.mem_cons_of_mem _ (mem_atoms.mp hr)))
  induction w using shown.induct with
  | case1 w ih => exact congrArg _ (ih hplain.tail.tail (tail (tail henv)))
  | case2 ref w ih =>
    rw [fill_letter, fill_atom, dollarRef, shown, List.cons_append, List.cons_append, expand_dollars]
    have hskip : '$' ∉ '(' :: (hiddenName ref).toList ++ [')'] := by
      have hdollar : '$' ∉ (hiddenName ref).toList := notMem_hiddenName (by decide)
      simpa using hdollar
    rw [expand_letters hskip, ih hplain.tail.tail (tail (tail henv))]
    rfl
  | case3 c w hdollars hatom ih =>
    have ih := ih hplain.tail (tail henv)
    rw [shown.eq_3 _ _ _ hdollars hatom, ← ih, fill_letter]
    by_cases hc : c = '$'
    · subst hc
      cases w with
      | nil => rfl
      | cons x w =>
        cases x with
        | inr ref => exact absurd rfl (hatom ref w rfl)
        | inl d =>
          have hd : d ≠ '$' := by
            rintro rfl
            exact hdollars w rfl rfl
          have hparen : d ≠ '(' := fun h =>
            (List.isChain_cons_cons.mp hplain).1 ⟨rfl, congrArg Sum.inl h⟩
          rw [fill_letter, expand_dollar hd hparen, expand_letter hd]
    · exact expand_letter hc
  | case4 ref w ih =>
    have hname : ')' ∉ (hiddenName ref).toList := notMem_hiddenName (by decide)
    rw [fill_atom, dollarRef, shown, List.append_assoc]
    have hvalue := henv ref (mem_atoms.mpr (List.mem_cons_self ..))
    have hexpand : expand env 0 ('$' :: '(' :: (hiddenName ref).toList ++ ')' :: fill dollarRef w) = _ :=
      expand_name hname hvalue
    rw [ih hplain.tail (tail henv)] at hexpand
    exact hexpand
  | case5 => rfl

/-- A word without doubled dollars reads as itself. -/
theorem shown_eq (h : Undoubled w) : shown win w = w.map (Sum.map id win) := by
  induction w using shown.induct with
  | case1 w ih =>
    obtain ⟨c, hc, hne⟩ := (List.isChain_cons_cons.mp h).1 rfl
    exact absurd (Sum.inl.inj hc).symm hne
  | case2 ref w ih =>
    obtain ⟨c, hc, -⟩ := (List.isChain_cons_cons.mp h).1 rfl
    cases hc
  | case3 c w hdollars hatom ih =>
    rw [shown.eq_3 _ _ _ hdollars hatom, ih h.tail]
    rfl
  | case4 ref w ih =>
    rw [shown, ih h.tail]
    rfl
  | case5 => rfl

end Written

section Marked

def marker (ref : Ref) : List Char := (secretMarker ref.id ref.key).toList

/-- What stands in a marker is told apart by the zeros. -/
structure Clean (ref : Ref) : Prop where
  id : ref.id ≠ "" ∧ '\x00' ∉ ref.id.toList
  key : ref.key ≠ "" ∧ '\x00' ∉ ref.key.toList

variable {w : Word Char Ref} {ref ref' : Ref} {win : Ref → Ref} {s t p : List Char} {n : ℕ} {c : Char}

theorem marker_eq (ref : Ref) : marker ref = secretMark.toList ++ (ref.id.toList ++
    ('\x00' :: (ref.key.toList ++ secretMark.toList))) := by
  simp [marker, secretMarker, String.toList_append]

theorem length_marker (ref : Ref) :
    (marker ref).length = 33 + ref.id.toList.length + ref.key.toList.length := by
  rw [marker_eq]
  simp only [List.length_append, List.length_cons]
  have hmark : secretMark.toList.length = 16 := by decide
  omega

theorem length_hiddenName (ref : Ref) :
    (hiddenName ref).toList.length = 16 + ref.id.toList.length + ref.key.toList.length := by
  rw [hiddenName, String.toList_ofList]
  simp only [List.length_append, List.length_cons, clean, List.length_map]
  have hpre : hiddenPrefix.toList.length = 15 := by decide
  omega

theorem length_marker_of_hiddenName (h : hiddenName ref = hiddenName ref') :
    (marker ref).length = (marker ref').length := by
  have hlength := congrArg (fun s => s.toList.length) h
  rw [length_hiddenName, length_hiddenName] at hlength
  rw [length_marker, length_marker]
  omega

theorem part_append (hp : p ≠ []) (hzero : '\x00' ∉ p) (t : List Char) :
    part (p ++ '\x00' :: t) = some (p, '\x00' :: t) := by
  have hpos : ∀ c ∈ p, decide (c ≠ '\x00') = true := by
    intro c hc
    simpa using fun h : c = '\x00' => hzero (h ▸ hc)
  rw [part, List.takeWhile_append_of_pos hpos, List.dropWhile_append_of_pos hpos]
  simp [hp]

theorem part_eq_some (h : part s = some (p, t)) : s = p ++ t ∧ p ≠ [] ∧ '\x00' ∉ p := by
  unfold part at h
  dsimp only at h
  split at h
  · cases h
  · next hp =>
    obtain ⟨rfl, rfl⟩ := Prod.mk.inj (Option.some.inj h)
    refine ⟨List.takeWhile_append_dropWhile.symm, hp, fun hzero => ?_⟩
    simpa using List.mem_takeWhile_imp hzero

theorem strip_append (pre t : List Char) : strip pre (pre ++ t) = some t := by
  rw [strip, if_pos (List.isPrefixOf_iff_prefix.mpr (List.prefix_append pre t)), List.drop_left]

theorem strip_eq_some {pre : List Char} (h : strip pre s = some t) : s = pre ++ t := by
  unfold strip at h
  split at h
  · next hpre =>
    obtain ⟨u, rfl⟩ := List.isPrefixOf_iff_prefix.mp hpre
    rw [List.drop_left] at h
    rw [Option.some.inj h]
  · cases h

theorem matchRef_letter (h : c ≠ '\x00') (t : List Char) : matchRef (c :: t) = none := by
  have hstrip : strip secretMark.toList (c :: t) = none := by
    rw [strip, if_neg]
    intro hpre
    obtain ⟨u, hu⟩ := List.isPrefixOf_iff_prefix.mp hpre
    exact h (List.cons.inj hu).1.symm
  rw [matchRef, hstrip]
  rfl

theorem secretMark_cons : ∃ m, secretMark.toList = '\x00' :: m := ⟨_, rfl⟩

theorem matchRef_marker (h : Clean ref) (t : List Char) :
    matchRef (marker ref ++ t) = some (ref, (marker ref).length) := by
  obtain ⟨m, hm⟩ := secretMark_cons
  have hid : ref.id.toList ≠ [] := by simpa using h.id.1
  have hkey : ref.key.toList ≠ [] := by simpa using h.key.1
  have hkeyPart := part_append hkey h.key.2 (m ++ t)
  rw [← List.cons_append, ← hm] at hkeyPart
  generalize hn : (marker ref).length = n
  rw [matchRef, marker_eq]
  simp only [List.append_assoc, List.cons_append]
  rw [strip_append]
  dsimp only [Option.bind_eq_bind, Option.bind_some]
  rw [part_append hid h.id.2]
  dsimp only [Option.bind_some]
  rw [show '\x00' :: (ref.key.toList ++ (secretMark.toList ++ t)) =
    ['\x00'] ++ (ref.key.toList ++ (secretMark.toList ++ t)) from rfl, strip_append]
  dsimp only [Option.bind_some]
  rw [hkeyPart]
  dsimp only [Option.bind_some]
  rw [strip_append]
  simp only [Option.bind_some, Option.pure_def, String.ofList_toList]
  exact congrArg (fun n => some (ref, n)) hn

/-- What is found is a marker with its output. -/
theorem matchRef_eq_some (h : matchRef s = some (ref, n)) :
    (∃ t, s = marker ref ++ t) ∧ n = (marker ref).length ∧ Clean ref := by
  obtain ⟨s₁, h₁, h⟩ := Option.bind_eq_some_iff.mp h
  obtain ⟨⟨id, s₂⟩, h₂, h⟩ := Option.bind_eq_some_iff.mp h
  obtain ⟨s₃, h₃, h⟩ := Option.bind_eq_some_iff.mp h
  obtain ⟨⟨key, s₄⟩, h₄, h⟩ := Option.bind_eq_some_iff.mp h
  obtain ⟨t, h₅, h⟩ := Option.bind_eq_some_iff.mp h
  obtain ⟨rfl, rfl⟩ := Prod.mk.inj (Option.some.inj h)
  obtain ⟨hid, hidne, hidzero⟩ := part_eq_some h₂
  obtain ⟨hkey, hkeyne, hkeyzero⟩ := part_eq_some h₄
  refine ⟨⟨t, ?_⟩, rfl, ⟨?_, ?_⟩, ⟨?_, ?_⟩⟩
  · rw [marker_eq, strip_eq_some h₁, hid, strip_eq_some h₃, hkey, strip_eq_some h₅]
    simp
  · simpa using hidne
  · simpa using hidzero
  · simpa using hkeyne
  · simpa using hkeyzero

theorem finds_marker : Finds matchRef marker := by
  intro s ref n h
  obtain ⟨⟨t, ht⟩, hn, -⟩ := matchRef_eq_some h
  exact ⟨t, ht, hn, by rw [hn, length_marker]; omega⟩

theorem clean_of_mem_splitRefs {v : String} (h : ref ∈ atoms (splitRefs v)) : Clean ref := by
  have hscan : ∀ (s : List Char) (skip : ℕ), Sum.inr ref ∈ scan matchRef skip s → Clean ref := by
    intro s
    induction s with
    | nil => intro skip hmem; cases skip <;> cases hmem
    | cons c s ih =>
      intro skip hmem
      cases skip with
      | succ skip => exact ih skip hmem
      | zero =>
        rw [scan] at hmem
        split at hmem
        · next r n hfind =>
          rcases List.mem_cons.mp hmem with heq | hmem
          · rw [Sum.inr.inj heq]
            exact (matchRef_eq_some hfind).2.2
          · exact ih _ hmem
        · rcases List.mem_cons.mp hmem with heq | hmem
          · cases heq
          · exact ih _ hmem
  exact hscan v.toList 0 (mem_atoms.mp h)

/-- Nothing is lost when a text is split at its markers. -/
theorem fill_splitRefs (v : String) : fill marker (splitRefs v) = v.toList := fill_scan finds_marker _

/-- Text without a zero is never taken for a marker. -/
theorem splitRefs_written (hletters : ∀ c, Sum.inl c ∈ w → c ≠ '\x00')
    (hclean : ∀ ref ∈ atoms w, Clean ref) : splitRefs (String.ofList (fill marker w)) = w := by
  rw [splitRefs, String.toList_ofList]
  apply scan_fill
  · exact fun ref hr t => matchRef_marker (hclean ref (mem_atoms.mpr hr)) t
  · intro ref _ hnil
    have hlength := length_marker ref
    rw [hnil, List.length_nil] at hlength
    omega
  · exact fun c hc t => matchRef_letter (hletters c hc) t

theorem marker_inj (h : Clean ref) (h' : Clean ref') (heq : marker ref = marker ref') : ref = ref' := by
  have hmatch := matchRef_marker h []
  rw [heq, matchRef_marker h' []] at hmatch
  exact (congrArg Prod.fst (Option.some.inj hmatch)).symm

/-- Reading shortens a word that has a doubled dollar. -/
theorem length_shown (hwin : ∀ ref ∈ atoms w, (marker (win ref)).length = (marker ref).length) :
    (fill marker (shown win w)).length ≤ (fill marker w).length ∧
      ((fill marker (shown win w)).length = (fill marker w).length → Undoubled w) := by
  have tail : ∀ {x : Char ⊕ Ref} {w : Word Char Ref},
      (∀ ref ∈ atoms (x :: w), (marker (win ref)).length = (marker ref).length) →
      ∀ ref ∈ atoms w, (marker (win ref)).length = (marker ref).length :=
    fun h ref hr => h ref (mem_atoms.mpr (List.mem_cons_of_mem _ (mem_atoms.mp hr)))
  induction w using shown.induct with
  | case1 w ih =>
    obtain ⟨hle, -⟩ := ih (tail (tail hwin))
    simp only [shown, fill_letter, List.length_cons]
    exact ⟨by omega, by omega⟩
  | case2 ref w ih =>
    obtain ⟨hle, -⟩ := ih (tail (tail hwin))
    have hname := length_hiddenName ref
    have hmarker := length_marker ref
    simp only [shown, fill_letter, fill_append, fill_letters, fill_atom, List.cons_append,
      List.length_cons, List.length_append, List.length_nil]
    exact ⟨by omega, by omega⟩
  | case3 c w hdollars hatom ih =>
    obtain ⟨hle, heq⟩ := ih (tail hwin)
    rw [shown.eq_3 _ _ _ hdollars hatom]
    simp only [fill_letter, List.length_cons]
    refine ⟨by omega, fun h => List.isChain_cons.mpr ⟨?_, heq (by omega)⟩⟩
    rintro y hy hc
    cases w with
    | nil => cases hy
    | cons x w =>
      obtain rfl : x = y := Option.some.inj hy
      obtain rfl := Sum.inl.inj hc
      cases x with
      | inr ref => exact absurd rfl (hatom ref w rfl)
      | inl d =>
        refine ⟨d, rfl, ?_⟩
        rintro rfl
        exact hdollars w rfl rfl
  | case4 ref w ih =>
    obtain ⟨hle, heq⟩ := ih (tail hwin)
    have hlength := hwin ref (mem_atoms.mpr (List.mem_cons_self ..))
    simp only [shown, fill_atom, List.length_append]
    refine ⟨by omega, fun h => List.isChain_cons.mpr ⟨?_, heq (by omega)⟩⟩
    intro y _ hc
    cases hc
  | case5 => exact ⟨le_rfl, fun _ => List.isChain_nil⟩

/-- Atoms replaced by others with markers as long leave the text as it is only if they are the
same. -/
theorem win_eq_of_fill (hwin : ∀ ref ∈ atoms w, (marker (win ref)).length = (marker ref).length)
    (hclean : ∀ ref ∈ atoms w, Clean ref ∧ Clean (win ref))
    (h : fill marker (w.map (Sum.map id win)) = fill marker w) : ∀ ref ∈ atoms w, win ref = ref := by
  induction w with
  | nil => exact fun ref hr => nomatch hr
  | cons x w ih =>
    have hcons : ∀ {ref}, ref ∈ atoms w → ref ∈ atoms (x :: w) :=
      fun hr => mem_atoms.mpr (List.mem_cons_of_mem _ (mem_atoms.mp hr))
    have ih := ih (fun ref hr => hwin ref (hcons hr)) (fun ref hr => hclean ref (hcons hr))
    cases x with
    | inl c =>
      intro ref hr
      refine ih (List.cons.inj h).2 ref (mem_atoms.mpr ?_)
      simpa using mem_atoms.mp hr
    | inr r =>
      have hr : r ∈ atoms (Sum.inr r :: w) := mem_atoms.mpr (List.mem_cons_self ..)
      obtain ⟨hfirst, hrest⟩ := List.append_inj h (hwin r hr)
      obtain ⟨hr₁, hr₂⟩ := hclean r hr
      intro ref href
      rcases List.mem_cons.mp (mem_atoms.mp href) with heq | hmem
      · rw [Sum.inr.inj heq]
        exact marker_inj hr₂ hr₁ hfirst
      · exact ih hrest ref (mem_atoms.mpr hmem)

end Marked
end Kubeast.Render
