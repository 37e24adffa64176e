import Kubeast.Redact.CutValues

/-! A JSON object that holds a Secret, in other text and cut anywhere: when the scan by strings leaves
none of the strings that it gives as values. -/
namespace Kubeast.Redact
open Symbols Json

section Fields
/-- What the scan takes for the value of a field, and the text behind it. -/
inductive GuardedField (name : List Char) : List Marked → List Marked → Prop
  | object {vs s p} (hname : name ≠ lastAppliedName) (hs : Content vs s) (hguarded : ∀ v ∈ vs, Guarded v) :
      GuardedField name (braces s) p
  | value {v p} (hobject : ¬ (name ≠ lastAppliedName ∧ hasPrefix v ['{'] = true)) (h : Filled v p)
      (hguarded : Guarded v) : GuardedField name v p

variable {name : List Char} {v p q x : List Marked}

theorem guarded_stays {vs : List (List Marked)} (h : ∀ v ∈ vs, Guarded v) : NoneStays vs :=
  fun v hv => (h v hv).stays

theorem GuardedField.head (h : GuardedField name v p) : ∃ a w, v = a :: w ∧ isSpaceClass (char a) = false := by
  cases h with
  | object => exact ⟨_, _, rfl, by decide⟩
  | value hobject h hguarded => exact h.head

theorem GuardedField.before (h : GuardedField name v p) (hx : x <+: p) (hne : x ≠ []) : GuardedField name v x := by
  cases h with
  | object hname hs hguarded => exact .object hname hs hguarded
  | value hobject h hguarded => exact .value hobject (h.before hx hne) hguarded

theorem GuardedField.maskField (h : GuardedField name v p) (r : List Marked) :
    ∃ w, maskField name (v ++ (p ++ r)) = (w, some (p ++ r)) ∧ Clean w := by
  cases h with
  | object hname hs hguarded =>
    obtain ⟨w, hmask, hw⟩ := maskField_braces hname hs (p ++ r)
    exact ⟨w, hmask, hw.mpr (guarded_stays hguarded)⟩
  | value hobject h hguarded =>
    have hobject' : ¬ (name ≠ lastAppliedName ∧ hasPrefix (v ++ (p ++ r)) ['{'] = true) := by
      obtain ⟨a, w, rfl, -⟩ := h.head
      simpa [hasPrefix] using hobject
    refine ⟨masked v, ?_, clean_masked.mpr hguarded.stays⟩
    unfold Redact.maskField
    rw [if_neg hobject']
    exact h.maskJSONValue r

/-- What is written for the first part of a field's value has no mark. -/
theorem GuardedField.cut (h : GuardedField name v p) (hq : q <+: v) : CleanAfter (Redact.maskField name q) := by
  unfold Redact.maskField
  cases h with
  | @object vs s p hname hs hguarded =>
    cases q with
    | nil =>
      rw [if_neg (by simp [hasPrefix])]
      exact clean_maskJSONValue clean_nil
    | cons a q =>
      obtain ⟨rfl, hq'⟩ := List.cons_prefix_cons.mp hq
      rw [if_pos ⟨hname, by simp [hasPrefix]⟩, maskJSONObject]
      have hmasked := hs.cut hguarded q (q.length + 1) hq'
      exact ⟨clean_cons.mpr ⟨rfl, hmasked.1⟩, hmasked.2⟩
  | value hobject h hguarded =>
    have hobject' : ¬ (name ≠ lastAppliedName ∧ hasPrefix q ['{'] = true) := by
      obtain ⟨u, rfl⟩ := hq
      cases q with
      | nil => simp [hasPrefix]
      | cons a q => simpa [hasPrefix] using hobject
    rw [if_neg hobject']
    exact maskJSONValue_cut h hguarded hq

end Fields

section Trees

/-- The key says one of the names. -/
def isFieldKey (key : Body Marked) : Bool := jsonFieldNames.contains (unescape (key.text.map char))

/-- A string that is a placeholder already. -/
def isPlaceholderBody (b : Body Marked) : Bool := hasPrefix b.text "<REDACTED".toList

mutual

/-- Marks are on the strings given as values under a field only, and not on placeholders. The flag
says whether the value is under a field. -/
def Gives : Bool → Node Marked → Prop
  | _, .scalar t => Clean t.text
  | under, .str b => under = false ∨ isPlaceholderBody b = true → Clean b.text
  | _, .emptyArr ws => Clean ws.text
  | under, .arr es => GivesElems under es
  | _, .emptyObj ws => Clean ws.text
  | under, .obj ms => GivesMembers under ms

def GivesElems : Bool → Elems Marked → Prop
  | under, .one pre v post => Clean pre.text ∧ Clean post.text ∧ Gives under v
  | under, .cons pre v post rest =>
      (Clean pre.text ∧ Clean post.text ∧ Gives under v) ∧ GivesElems under rest

def GivesMembers : Bool → Members Marked → Prop
  | under, .one pre key mid mid' v post =>
      (Clean pre.text ∧ Clean key.text ∧ Clean mid.text ∧ Clean mid'.text ∧ Clean post.text) ∧
        Gives (under || isFieldKey key) v
  | under, .cons pre key mid mid' v post rest =>
      ((Clean pre.text ∧ Clean key.text ∧ Clean mid.text ∧ Clean mid'.text ∧ Clean post.text) ∧
        Gives (under || isFieldKey key) v) ∧ GivesMembers under rest

end

/-- The key, with its quotes, ends with one of the quoted names as the scan looks for them. -/
def isSeen (key : Body Marked) : Bool :=
  jsonFieldNames.any fun name => (quotedName name).isSuffixOf (key.quoted.map char)

mutual

/-- Every string with a mark is under a key that the scan sees. -/
def Hidden : Node Marked → Prop
  | .scalar _ | .emptyArr _ | .emptyObj _ => True
  | .str b => Clean b.text
  | .arr es => HiddenElems es
  | .obj ms => HiddenMembers ms

def HiddenElems : Elems Marked → Prop
  | .one _ v _ => Hidden v
  | .cons _ v _ rest => Hidden v ∧ HiddenElems rest

def HiddenMembers : Members Marked → Prop
  | .one _ key _ _ v _ => isSeen key = true ∨ Hidden v
  | .cons _ key _ _ v _ rest => (isSeen key = true ∨ Hidden v) ∧ HiddenMembers rest

end

variable {under : Bool} {v : Node Marked} {ms : Members Marked}

theorem guarded_of_clean {w : List Marked} (h : Clean w) : Guarded w := ⟨fun _ => h, fun _ _ _ => h⟩

/-- An array or an object with something in it is not one of the values that stay. -/
theorem stays_bracket {c d : Char} {t : List Marked} (hc : c = '{' ∨ c = '[') (ht : t ≠ []) :
    stays (lit c :: (t ++ [lit d])) = false := by
  have hlength : 2 < (lit c :: (t ++ [lit d]) : List Marked).length := by
    have hpos := List.length_pos_iff.mpr ht
    simp only [List.length_cons, List.length_append]
    omega
  have hkept : keptValues.contains ((lit c :: (t ++ [lit d]) : List Marked).map char) = false := by
    rw [Bool.eq_false_iff, ne_eq, List.contains_iff_mem]
    intro hmem
    have hnull : (lit c :: (t ++ [lit d]) : List Marked).map char ≠ "null".toList := by
      intro hnull
      have hhead := (List.cons.inj hnull).1
      rw [char_lit] at hhead
      rcases hc with rfl | rfl <;> exact absurd hhead (by decide)
    rw [← List.length_map char] at hlength
    simp only [keptValues, List.mem_cons, List.not_mem_nil, or_false] at hmem
    rcases hmem with h | h | h | h
    · rw [h] at hlength
      exact absurd hlength (by decide)
    · exact hnull h
    · rw [h] at hlength
      exact absurd hlength (by decide)
    · rw [h] at hlength
      exact absurd hlength (by decide)
  have hquote : hasPrefix (lit c :: (t ++ [lit d]) : List Marked) "\"<REDACTED".toList = false := by
    refine hasPrefix_cons_of_ne ?_ _ _
    rw [char_lit]
    rcases hc with rfl | rfl <;> decide
  rw [stays, hkept, hquote]
  rfl

theorem node_text_ne (v : Node Marked) : v.text ≠ [] := by
  cases v with
  | scalar t =>
    obtain ⟨a, s, hs⟩ := t.exists_cons
    rw [Node.text, hs]
    exact List.cons_ne_nil _ _
  | _ => exact List.cons_ne_nil _ _

theorem elems_text_ne (es : Elems Marked) : es.text ≠ [] := by
  cases es <;> simp [Elems.text, node_text_ne]

theorem members_text_ne (ms : Members Marked) : ms.text ≠ [] := by
  cases ms <;> simp [Members.text, Body.quoted]

/-- What the scan takes for a value may be cut. -/
theorem guarded_of_gives {w : List Marked} (h : Gives under v) (hw : TakenFor v w) : Guarded w := by
  obtain ⟨blanks, rfl, hblanks, hscalar⟩ := hw
  cases v with
  | scalar t => exact guarded_of_clean (clean_append.mpr ⟨h, hblanks⟩)
  | emptyArr ws =>
    obtain rfl := hscalar rfl
    rw [List.append_nil]
    exact guarded_of_clean (clean_cons.mpr ⟨rfl, clean_append.mpr ⟨h, clean_cons.mpr ⟨rfl, clean_nil⟩⟩⟩)
  | emptyObj ws =>
    obtain rfl := hscalar rfl
    rw [List.append_nil]
    exact guarded_of_clean (clean_cons.mpr ⟨rfl, clean_append.mpr ⟨h, clean_cons.mpr ⟨rfl, clean_nil⟩⟩⟩)
  | arr es =>
    obtain rfl := hscalar rfl
    rw [List.append_nil, Node.text]
    refine ⟨fun hstays => ?_, fun a ha hopen => ?_⟩
    · rw [stays_bracket (Or.inr rfl) (elems_text_ne es)] at hstays
      cases hstays
    · cases ha
      exact absurd hopen (by decide)
  | obj ms =>
    obtain rfl := hscalar rfl
    rw [List.append_nil, Node.text]
    refine ⟨fun hstays => ?_, fun a ha hopen => ?_⟩
    · rw [stays_bracket (Or.inl rfl) (members_text_ne ms)] at hstays
      cases hstays
    · cases ha
      exact absurd hopen (by decide)
  | str b =>
    obtain rfl := hscalar rfl
    rw [List.append_nil, Node.text]
    refine ⟨fun hstays => clean_quoted.mpr ?_, fun a ha hopen => ?_⟩
    · rw [stays, Bool.or_eq_true, List.contains_iff_mem] at hstays
      rcases hstays with hkept | hprefix
      · have hnil : b.text = [] := by
          rw [Body.quoted, List.map_cons, List.map_append, char_lit] at hkept
          simp only [keptValues, List.mem_cons, List.not_mem_nil, or_false] at hkept
          rcases hkept with h | h | h | h
          · exact absurd (List.cons.inj h).1 (by decide)
          · exact absurd (List.cons.inj h).1 (by decide)
          · have hlength := congrArg List.length h
            simp only [List.length_cons, List.length_append, List.length_map, List.length_nil] at hlength
            exact List.length_eq_zero_iff.mp (by omega)
          · exact absurd (List.cons.inj h).1 (by decide)
        rw [hnil]
        exact clean_nil
      · have hplaceholder : isPlaceholderBody b = true := by
          rw [hasPrefix, Body.quoted, List.isPrefixOf_iff_prefix, List.map_cons, List.map_append] at hprefix
          have hinside := (List.cons_prefix_cons.mp hprefix).2
          rw [isPlaceholderBody, hasPrefix, List.isPrefixOf_iff_prefix]
          rcases prefix_append_cases hinside with hinside | ⟨q, hq, hquote, hne⟩
          · exact hinside
          · obtain ⟨c, q, rfl⟩ := List.exists_cons_of_ne_nil hne
            obtain ⟨rfl, -⟩ := List.cons_prefix_cons.mp hquote
            have hmem : '"' ∈ b.text.map char ++ char (lit '"' : Marked) :: q := by simp
            rw [← hq] at hmem
            exact absurd hmem (by decide)
        exact h (Or.inr hplaceholder)
    · cases ha
      exact absurd hopen (by decide)

theorem tidy_of_gives : ∀ ms : Members Marked, GivesMembers under ms → Tidy ms
  | .one _ _ _ _ _ _, ⟨⟨hpre, hkey, hmid, hmid', hpost⟩, _⟩ => ⟨hpre, hkey, hmid, hmid', hpost⟩
  | .cons _ _ _ _ _ _ rest, ⟨⟨⟨hpre, hkey, hmid, hmid', hpost⟩, _⟩, hrest⟩ =>
      ⟨⟨hpre, hkey, hmid, hmid', hpost⟩, tidy_of_gives rest hrest⟩

theorem gives_memberValues : ∀ ms : Members Marked, GivesMembers under ms →
    ∀ v ∈ memberValues ms, ∃ under', Gives under' v
  | .one _ key _ _ v _, h, w, hw => by
    obtain rfl := List.mem_singleton.mp hw
    exact ⟨_, h.2⟩
  | .cons _ key _ _ v _ rest, h, w, hw => by
    rcases List.mem_cons.mp hw with rfl | hw
    · exact ⟨_, h.1.2⟩
    · exact gives_memberValues rest h.2 w hw

/-- The values of an object, as the scan takes them. -/
theorem content_gives (h : GivesMembers under ms) :
    ∃ vs, Content vs ms.text ∧ ∀ v ∈ vs, Guarded v := by
  obtain ⟨vs, hcontent, htaken⟩ := content_members ms (tidy_of_gives ms h)
  refine ⟨vs, hcontent, ?_⟩
  intro w hw
  obtain ⟨v, hv, hvw⟩ := htaken w hw
  obtain ⟨under', hgives⟩ := gives_memberValues ms h v hv
  exact guarded_of_gives hgives hvw

/-- What comes behind a value. -/
def closing : List Char := [',', ']', '}']

/-- What the scan takes for the value of a field that a tree gives. -/
theorem field_node (name : List Char) (post : Space Marked) (h : Gives under v) (hpost : Clean post.text)
    {c : Char} (hc : c ∈ closing) (u : List Marked) :
    ∃ w post', v.text ++ post.text = w ++ post' ∧ (AllSpace post' ∧ Clean post') ∧
      GuardedField name w (post' ++ lit c :: u) := by
  have hvalue (hobject : ¬ (name ≠ lastAppliedName ∧ hasPrefix v.text ['{'] = true)) :
      ∃ w post', v.text ++ post.text = w ++ post' ∧ (AllSpace post' ∧ Clean post') ∧
        GuardedField name w (post' ++ lit c :: u) := by
    have hend : inScalar (lit c : Marked) = false := by
      simp only [closing, List.mem_cons, List.not_mem_nil, or_false] at hc
      rcases hc with rfl | rfl | rfl <;> rfl
    obtain ⟨blanks, post', htext, hscalar, hfilled⟩ := filled_node v post hend u
    have hsplit := hpost
    rw [htext, clean_append] at hsplit
    refine ⟨v.text ++ blanks, post', by rw [htext, List.append_assoc],
      ⟨fun a ha => Space.allSpace post a (htext ▸ List.mem_append_right _ ha), hsplit.2⟩, ?_⟩
    have hfilled := hfilled []
    rw [List.append_nil] at hfilled
    refine .value ?_ hfilled (guarded_of_gives h ⟨blanks, rfl, hsplit.1, hscalar⟩)
    obtain ⟨a, t, ht⟩ := List.exists_cons_of_ne_nil (node_text_ne v)
    rw [ht] at hobject ⊢
    simpa [hasPrefix] using hobject
  have hspace : AllSpace post.text ∧ Clean post.text := ⟨Space.allSpace post, hpost⟩
  by_cases hname : name = lastAppliedName
  · exact hvalue fun hobject => hobject.1 hname
  cases v with
  | obj ms =>
    obtain ⟨vs, hcontent, hguarded⟩ := content_gives h
    exact ⟨_, _, rfl, hspace, .object hname hcontent hguarded⟩
  | emptyObj ws =>
    have hcontent : Content [] ws.text := by
      simpa using Content.nil.spaces ⟨Space.allSpace ws, h⟩
    exact ⟨_, _, rfl, hspace, .object hname hcontent (by simp)⟩
  | scalar t =>
    refine hvalue fun hobject => ?_
    obtain ⟨a, w, ht⟩ := t.exists_cons
    have ha := t.isScalarChar a (by simp [ht])
    have hbrace : '{' = char a := by simpa [Node.text, ht, hasPrefix] using hobject.2
    rw [← hbrace] at ha
    exact absurd ha (by decide)
  | str b => exact hvalue fun hobject => absurd hobject.2 (by simp [Node.text, Body.quoted, hasPrefix])
  | emptyArr ws => exact hvalue fun hobject => absurd hobject.2 (by simp [Node.text, hasPrefix])
  | arr es => exact hvalue fun hobject => absurd hobject.2 (by simp [Node.text, hasPrefix])

end Trees

section Segments
variable {t t' : List Marked} {H H' : Prop}

/-- A part of a text that the scan leaves behind itself: what becomes of it has no mark exactly if `H`,
and then neither has what becomes of a text that ends in it. -/
structure Scans (t : List Marked) (H : Prop) : Prop where
  whole : ∀ u, ∃ w, stripSecretJSON (t ++ u) = w ++ stripSecretJSON u ∧ (Clean w ↔ H)
  cut : H → ∀ p, p <+: t → Clean (stripSecretJSON p)

/-- The same for a part that has to have something behind it that ends a value. -/
structure ScansValue (t : List Marked) (H : Prop) : Prop where
  whole : ∀ c ∈ closing, ∀ u, ∃ w,
    stripSecretJSON (t ++ lit c :: u) = w ++ stripSecretJSON (lit c :: u) ∧ (Clean w ↔ H)
  cut : H → ∀ p, p <+: t → Clean (stripSecretJSON p)

theorem Scans.value (h : Scans t H) : ScansValue t H := ⟨fun _ _ _ => h.whole _, h.cut⟩

theorem stripSecretJSON_nil : stripSecretJSON ([] : List Marked) = [] := rfl

theorem Passed.strip {p : List Marked} (h : Passed p []) : stripSecretJSON p = p := by
  have hstrip := stripSecretJSON_passed h
  rwa [List.append_nil, stripSecretJSON_nil, List.append_nil] at hstrip

theorem Scans.of_passed (h : ∀ u, Passed t u) : Scans t (Clean t) where
  whole u := ⟨t, stripSecretJSON_passed (h u), Iff.rfl⟩
  cut hclean p hp := by
    rw [((h []).before hp).strip]
    exact hclean.subset hp.subset

/-- No field begins where there is no quote. -/
theorem passed_of_noQuote (h : '"' ∉ t.map char) (u : List Marked) : Passed t u := by
  intro v hv hne hstarts
  obtain ⟨s', hs⟩ := hstarts.quote
  obtain ⟨a, v, rfl⟩ := List.exists_cons_of_ne_nil hne
  have ha : char a = '"' := (List.cons.inj hs).1
  exact h (List.mem_map.mpr ⟨a, hv.subset List.mem_cons_self, ha⟩)

theorem Scans.plain (h : '"' ∉ t.map char) : Scans t (Clean t) := .of_passed (passed_of_noQuote h)

theorem Scans.append (h : Scans t H) (h' : Scans t' H') : Scans (t ++ t') (H ∧ H') where
  whole u := by
    obtain ⟨w, hw, hclean⟩ := h.whole (t' ++ u)
    obtain ⟨w', hw', hclean'⟩ := h'.whole u
    refine ⟨w ++ w', ?_, ?_⟩
    · rw [List.append_assoc, hw, hw', List.append_assoc]
    · rw [clean_append, hclean, hclean']
  cut hboth p hp := by
    rcases prefix_append_cases hp with hp | ⟨q, rfl, hq, -⟩
    · exact h.cut hboth.1 p hp
    · obtain ⟨w, hw, hclean⟩ := h.whole q
      rw [hw, clean_append]
      exact ⟨hclean.mpr hboth.1, h'.cut hboth.2 q hq⟩

theorem Scans.append_value (h : Scans t H) (h' : ScansValue t' H') : ScansValue (t ++ t') (H ∧ H') where
  whole c hc u := by
    obtain ⟨w, hw, hclean⟩ := h.whole (t' ++ lit c :: u)
    obtain ⟨w', hw', hclean'⟩ := h'.whole c hc u
    refine ⟨w ++ w', ?_, ?_⟩
    · rw [List.append_assoc, hw, hw', List.append_assoc]
    · rw [clean_append, hclean, hclean']
  cut hboth p hp := by
    rcases prefix_append_cases hp with hp | ⟨q, rfl, hq, -⟩
    · exact h.cut hboth.1 p hp
    · obtain ⟨w, hw, hclean⟩ := h.whole q
      rw [hw, clean_append]
      exact ⟨hclean.mpr hboth.1, h'.cut hboth.2 q hq⟩

theorem ScansValue.close (h : ScansValue t H) {c : Char} (hc : c ∈ closing) : Scans (t ++ [lit c]) H := by
  have hplain : Scans [lit c] (Clean [(lit c : Marked)]) := by
    refine .plain ?_
    simp only [closing, List.mem_cons, List.not_mem_nil, or_false] at hc
    rcases hc with rfl | rfl | rfl <;> decide
  have hlit : Clean [(lit c : Marked)] := clean_cons.mpr ⟨rfl, clean_nil⟩
  constructor
  · intro u
    obtain ⟨w, hw, hclean⟩ := h.whole c hc u
    obtain ⟨w', hw', hclean'⟩ := hplain.whole u
    rw [List.singleton_append] at hw'
    refine ⟨w ++ w', ?_, ?_⟩
    · rw [List.append_assoc, List.singleton_append, hw, hw', List.append_assoc]
    · rw [clean_append, hclean, hclean']
      exact and_iff_left hlit
  · intro hH p hp
    rcases prefix_append_cases hp with hp | ⟨q, rfl, hq, hne⟩
    · exact h.cut hH p hp
    · obtain ⟨a, q, rfl⟩ := List.exists_cons_of_ne_nil hne
      obtain ⟨rfl, hq'⟩ := List.cons_prefix_cons.mp hq
      rw [List.prefix_nil.mp hq']
      obtain ⟨w, hw, hclean⟩ := h.whole c hc []
      rw [hw, clean_append]
      exact ⟨hclean.mpr hH, clean_stripSecretJSON hlit⟩

/-- Clean text without quotes in front. -/
theorem Scans.skip (h : Scans t' H) (hquote : '"' ∉ t.map char) (hclean : Clean t) : Scans (t ++ t') H := by
  have hboth := (Scans.plain hquote).append h
  rwa [and_iff_right hclean] at hboth

theorem ScansValue.skip (h : ScansValue t' H) (hquote : '"' ∉ t.map char) (hclean : Clean t) :
    ScansValue (t ++ t') H := by
  have hboth := (Scans.plain hquote).append_value h
  rwa [and_iff_right hclean] at hboth

end Segments

section Keys
variable {key : Body Marked} {name : List Char}

theorem suffix_append_cases {α : Type*} {v s t : List α} (h : v <:+ s ++ t) :
    v <:+ t ∨ ∃ q, v = q ++ t ∧ q <:+ s ∧ q ≠ [] := by
  obtain ⟨w, hw⟩ := h
  rcases List.append_eq_append_iff.mp hw with ⟨q, rfl, rfl⟩ | ⟨q, rfl, rfl⟩
  · by_cases hq : q = []
    · rw [hq]
      exact Or.inl (List.suffix_refl _)
    · exact Or.inr ⟨q, rfl, ⟨w, rfl⟩, hq⟩
  · exact Or.inl ⟨q, rfl⟩

theorem space_char {ws : Space Marked} {c : Char} (hc : c ∈ ws.text.map char) : isSpaceChar c = true :=
  List.all_eq_true.mp ws.valid c hc

theorem isSpaceClass_of_char {c : Char} (h : isSpaceChar c = true) : isSpaceClass c = true := by
  simp only [isSpaceChar, Bool.or_eq_true, decide_eq_true_eq] at h
  rcases h with ((rfl | rfl) | rfl) | rfl <;> rfl

theorem noQuote_space (ws : Space Marked) : '"' ∉ ws.text.map char := fun h =>
  absurd (space_char h) (by decide)

theorem noQuote_colon (mid mid' : Space Marked) : '"' ∉ (mid.text ++ lit ':' :: mid'.text).map char := by
  rw [List.map_append, List.map_cons, char_lit, List.mem_append, List.mem_cons]
  rintro (h | h | h)
  · exact noQuote_space mid h
  · exact absurd h (by decide)
  · exact noQuote_space mid' h

/-- No name begins behind a string in JSON. -/
theorem no_letter {ws : Space Marked} {c : Char} {u : List Marked} (hc : c ∉ ['d', 's', 'k']) :
    ¬ ∃ d ∈ ['d', 's', 'k'], ∃ w, (ws.text ++ lit c :: u).map char = d :: w := by
  rintro ⟨d, hd, w, h⟩
  cases hws : ws.text with
  | nil =>
    rw [hws, List.nil_append, List.map_cons, char_lit] at h
    exact hc ((List.cons.inj h).1 ▸ hd)
  | cons a s =>
    rw [hws, List.cons_append, List.map_cons] at h
    have hspace : isSpaceChar (char a) = true := space_char (by rw [hws]; exact List.mem_cons_self)
    rw [(List.cons.inj h).1] at hspace
    simp only [List.mem_cons, List.not_mem_nil, or_false] at hd
    rcases hd with rfl | rfl | rfl <;> exact absurd hspace (by decide)

theorem passed_string (b : Body Marked) (ws : Space Marked) {c : Char} (hc : c ∈ closing) (u : List Marked) :
    Passed (b.quoted ++ ws.text) (lit c :: u) := by
  have hcases : c = ',' ∨ c = ']' ∨ c = '}' := by simpa [closing] using hc
  intro v hv hne hstarts
  rcases suffix_append_cases hv with hv | ⟨s, rfl, hs, hne'⟩
  · exact passed_of_noQuote (noQuote_space ws) _ v hv hne hstarts
  rw [List.append_assoc, List.map_append] at hstarts
  have hsuffix : s.map char <:+ '"' :: (b.text.map char ++ ['"']) := by
    have hmap := hs.map char
    rwa [Body.quoted, List.map_cons, List.map_append, char_lit] at hmap
  rcases starts_quoted b.valid hsuffix (by simpa using hne') hstarts with h | ⟨name, -, -, gap, hgap, hcolon⟩
  · refine no_letter ?_ h
    rcases hcases with rfl | rfl | rfl <;> decide
  · -- the spaces end at what closes the value, not at a colon
    obtain ⟨r, hr⟩ := hcolon
    rw [List.map_append, List.map_cons, char_lit, List.append_assoc, List.singleton_append] at hr
    have hdrop := takeWhile_class hgap (NotFirst.cons (s := r) (by decide : isSpaceClass ':' = false))
    have hspaces : ∀ d ∈ ws.text.map char, isSpaceClass d = true := fun d hd => isSpaceClass_of_char (space_char hd)
    have hclosing : isSpaceClass c = false := by rcases hcases with rfl | rfl | rfl <;> rfl
    rw [hr, takeWhile_class hspaces (NotFirst.cons hclosing)] at hdrop
    have hhead := (List.cons.inj hdrop).1
    rcases hcases with rfl | rfl | rfl <;> exact absurd hhead (by decide)

theorem passed_key (mid mid' : Space Marked) (h : isSeen key = false) (u : List Marked) :
    Passed (key.quoted ++ (mid.text ++ lit ':' :: mid'.text)) u := by
  intro v hv hne hstarts
  rcases suffix_append_cases hv with hv | ⟨s, rfl, hs, hne'⟩
  · exact passed_of_noQuote (noQuote_colon mid mid') _ v hv hne hstarts
  have hsuffix : s.map char <:+ '"' :: (key.text.map char ++ ['"']) := by
    have hmap := hs.map char
    rwa [Body.quoted, List.map_cons, List.map_append, char_lit] at hmap
  rw [List.append_assoc, List.append_assoc, List.map_append, List.cons_append] at hstarts
  rcases starts_quoted key.valid hsuffix (by simpa using hne') hstarts with h' | ⟨name, hname, hquoted, -⟩
  · exact no_letter (by decide) h'
  · have hseen : isSeen key = true := by
      rw [isSeen, List.any_eq_true]
      refine ⟨name, hname, ?_⟩
      rw [List.isSuffixOf_iff_suffix, ← hquoted]
      exact hs.map char
    rw [h] at hseen
    cases hseen

/-- The scan finds a field at a key that it sees, and nowhere before it in the key. -/
theorem findField_seen (mid mid' : Space Marked) (h : isSeen key = true) : ∃ name, ∀ rest : List Marked,
    NotFirst isSpaceClass (rest.map char) →
      findField (key.quoted ++ (mid.text ++ lit ':' :: mid'.text) ++ rest) =
        some (key.quoted ++ (mid.text ++ lit ':' :: mid'.text), name, rest) := by
  rw [isSeen, List.any_eq_true] at h
  obtain ⟨name, hname, hsuffix⟩ := h
  rw [List.isSuffixOf_iff_suffix] at hsuffix
  obtain ⟨w, hw⟩ := hsuffix
  obtain ⟨q, r, hquoted, rfl, hr⟩ := List.append_eq_map_iff.mp hw
  refine ⟨name, ?_⟩
  intro rest hrest
  have hfield : IsField name ((r ++ (mid.text ++ lit ':' :: mid'.text)).map char) := by
    refine ⟨mid.text.map char, mid'.text.map char, ?_, fun c hc => isSpaceClass_of_char (space_char hc),
      fun c hc => isSpaceClass_of_char (space_char hc)⟩
    simp [hr, quotedName]
  have hpassed : Passed q (r ++ (mid.text ++ lit ':' :: mid'.text) ++ rest) := by
    intro v hv hne hstarts
    have hinside : v.map char ++ r.map char <:+ '"' :: (key.text.map char ++ ['"']) := by
      obtain ⟨x, rfl⟩ := hv
      have hmap : (v ++ r).map char <:+ key.quoted.map char := by
        rw [hquoted]
        exact List.IsSuffix.map char ⟨x, by simp⟩
      rwa [List.map_append, Body.quoted, List.map_cons, List.map_append, char_lit] at hmap
    have hparts : Starts (v.map char ++ r.map char ++
        (mid.text ++ lit ':' :: (mid'.text ++ rest)).map char) := by
      simpa using hstarts
    rcases starts_quoted key.valid hinside (by simp [hne]) hparts with h' | ⟨name', hname', hlonger, -⟩
    · exact no_letter (by decide) h'
    · -- one quoted name would end in another
      rw [hr] at hlonger
      obtain ⟨a, v, rfl⟩ := List.exists_cons_of_ne_nil hne
      have htail := (List.cons.inj hlonger).2
      have hinit : v.map char ++ ('"' :: name) = name' := by
        have happend : v.map char ++ ('"' :: name) ++ ['"'] = name' ++ ['"'] := by
          rw [← htail]
          simp [quotedName]
        exact List.append_cancel_right happend
      exact quote_not_mem_name hname' (hinit ▸ by simp)
  have hfind := findField_at hpassed hname hfield hrest
  rw [hquoted]
  simpa using hfind

end Keys

section Run
variable {under : Bool} {v : Node Marked}

/-- A member under a key that the scan sees. -/
theorem scans_seen {key : Body Marked} {mid mid' post : Space Marked} (hseen : isSeen key = true)
    (hkey : Clean key.text) (hmid : Clean mid.text) (hmid' : Clean mid'.text) (hpost : Clean post.text)
    (h : Gives under v) :
    ScansValue (key.quoted ++ (mid.text ++ lit ':' :: mid'.text) ++ (v.text ++ post.text)) True := by
  obtain ⟨name, hfind⟩ := findField_seen mid mid' hseen
  have hhead : Clean (key.quoted ++ (mid.text ++ lit ':' :: mid'.text)) := by
    rw [clean_append, clean_append, clean_cons]
    exact ⟨clean_quoted.mpr hkey, hmid, rfl, hmid'⟩
  constructor
  · intro c hc u
    obtain ⟨w, post', htext, ⟨hspace, hclean⟩, hfield⟩ := field_node name post h hpost hc u
    obtain ⟨a, t, rfl, ha⟩ := hfield.head
    obtain ⟨w', hmask, hw'⟩ := hfield.maskField []
    rw [List.append_nil] at hmask
    have hrest : NotFirst isSpaceClass ((a :: t ++ (post' ++ lit c :: u)).map char) := NotFirst.cons ha
    have hquote : '"' ∉ post'.map char := by
      intro hmem
      obtain ⟨b, hb, hchar⟩ := List.mem_map.mp hmem
      have hb := hspace b hb
      rw [hchar] at hb
      exact absurd hb (by decide)
    have hstrip := stripSecretJSON_some (hfind _ hrest)
    rw [hmask] at hstrip
    refine ⟨key.quoted ++ (mid.text ++ lit ':' :: mid'.text) ++ (w' ++ post'), ?_, ?_⟩
    · rw [htext, List.append_assoc, List.append_assoc (a :: t), hstrip]
      dsimp only [Option.elim]
      rw [stripSecretJSON_passed (passed_of_noQuote hquote _)]
      simp only [List.append_assoc]
    · exact iff_true_intro (clean_append.mpr ⟨hhead, clean_append.mpr ⟨hw', hclean⟩⟩)
  · intro _ p hp
    rcases prefix_append_cases hp with hp | ⟨q, rfl, hq, hne⟩
    · exact clean_stripSecretJSON (hhead.subset hp.subset)
    obtain ⟨w, post', htext, ⟨-, hclean⟩, hfield⟩ :=
      field_node name post h hpost (by decide : ',' ∈ closing) []
    rw [htext] at hq
    have hafter : CleanAfter (maskField name q) := by
      rcases prefix_append_cases hq with hq | ⟨x, rfl, hx, hne'⟩
      · exact hfield.cut hq
      · obtain ⟨w', hmask, hw'⟩ := (hfield.before (hx.trans (List.prefix_append _ _)) hne').maskField []
        rw [List.append_nil] at hmask
        rw [hmask]
        refine ⟨hw', ?_⟩
        rintro t ⟨⟩
        exact hclean.subset hx.subset
    have hrest : NotFirst isSpaceClass (q.map char) := by
      obtain ⟨a, t, rfl, ha⟩ := hfield.head
      obtain ⟨b, q, rfl⟩ := List.exists_cons_of_ne_nil hne
      obtain ⟨rfl, -⟩ := List.cons_prefix_cons.mp hq
      exact NotFirst.cons ha
    rw [stripSecretJSON_some (hfind q hrest)]
    refine clean_append.mpr ⟨hhead, clean_append.mpr ⟨hafter.1, ?_⟩⟩
    cases hnext : (maskField name q).2 with
    | none => exact clean_nil
    | some t => exact clean_stripSecretJSON (hafter.2 t hnext)

/-- A member under any key. -/
theorem scans_member {key : Body Marked} {mid mid' post : Space Marked} (hkey : Clean key.text)
    (hmid : Clean mid.text) (hmid' : Clean mid'.text) (hpost : Clean post.text) (h : Gives under v)
    (hv : ScansValue (v.text ++ post.text) (Hidden v)) :
    ScansValue (key.quoted ++ (mid.text ++ lit ':' :: mid'.text) ++ (v.text ++ post.text))
      (isSeen key = true ∨ Hidden v) := by
  cases hseen : isSeen key with
  | true =>
    have hscans := scans_seen hseen hkey hmid hmid' hpost h
    simpa using hscans
  | false =>
    have hscans := (Scans.of_passed (passed_key mid mid' hseen)).append_value hv
    have hhead : Clean (key.quoted ++ (mid.text ++ lit ':' :: mid'.text)) := by
      rw [clean_append, clean_append, clean_cons]
      exact ⟨clean_quoted.mpr hkey, hmid, rfl, hmid'⟩
    rw [and_iff_right hhead] at hscans
    simpa using hscans

theorem Scans.clean {t : List Marked} (hquote : '"' ∉ t.map char) (hclean : Clean t) : Scans t True := by
  have hscans := Scans.plain hquote
  rwa [iff_true_intro hclean] at hscans

/-- Between two brackets without quotes. -/
theorem scans_brackets {o c : Char} {ws post : Space Marked} (ho : o ≠ '"') (hc : c ≠ '"')
    (hws : Clean ws.text) (hpost : Clean post.text) :
    Scans (lit o :: (ws.text ++ [lit c]) ++ post.text) True := by
  refine Scans.clean ?_ ?_
  · rw [List.map_append, List.map_cons, List.map_append, List.map_singleton, char_lit, char_lit]
    simp [noQuote_space ws, noQuote_space post, ho.symm, hc.symm]
  · rw [clean_append, clean_cons, clean_append]
    exact ⟨⟨rfl, hws, clean_cons.mpr ⟨rfl, clean_nil⟩⟩, hpost⟩

theorem scans_string (b : Body Marked) {post : Space Marked} (hpost : Clean post.text) :
    ScansValue (b.quoted ++ post.text) (Clean b.text) where
  whole c hc u := by
    refine ⟨_, stripSecretJSON_passed (passed_string b post hc u), ?_⟩
    rw [clean_append, clean_quoted]
    exact and_iff_left hpost
  cut hclean p hp := by
    have hpassed := passed_string b post (by decide : ',' ∈ closing) []
    rw [(hpassed.before hp).strip]
    exact (clean_append.mpr ⟨clean_quoted.mpr hclean, hpost⟩).subset hp.subset

theorem noQuote_scalar (t : Scalar Marked) : '"' ∉ t.text.map char := by
  intro hmem
  obtain ⟨a, ha, hchar⟩ := List.mem_map.mp hmem
  have hscalar := t.isScalarChar a ha
  rw [hchar] at hscalar
  exact absurd hscalar (by decide)

/-- What stands between brackets that are not empty. -/
theorem scans_inside {t : List Marked} {H : Prop} {o c : Char} {post : Space Marked} (ho : o ≠ '"')
    (h : Scans (t ++ [lit c]) H) (hpost : Clean post.text) :
    ScansValue (lit o :: (t ++ [lit c]) ++ post.text) H := by
  have hopen : '"' ∉ [(lit o : Marked)].map char := by
    rw [List.map_singleton, char_lit, List.mem_singleton]
    exact ho.symm
  have hboth := (h.append (Scans.clean (noQuote_space post) hpost)).skip hopen (clean_cons.mpr ⟨rfl, clean_nil⟩)
  rw [and_true] at hboth
  exact hboth.value

mutual

/-- What the scan leaves of a value. -/
theorem scans_node : ∀ (under : Bool) (v : Node Marked) (post : Space Marked), Gives under v →
    Clean post.text → ScansValue (v.text ++ post.text) (Hidden v)
  | _, .scalar t, post, h, hpost => by
    have hscans := (Scans.clean (noQuote_scalar t) h).append (Scans.clean (noQuote_space post) hpost)
    rw [and_true] at hscans
    exact hscans.value
  | _, .str b, post, _, hpost => scans_string b hpost
  | _, .emptyArr ws, post, h, hpost => (scans_brackets (by decide) (by decide) h hpost).value
  | under, .arr es, post, h, hpost => scans_inside (by decide) (scans_elems under es h) hpost
  | _, .emptyObj ws, post, h, hpost => (scans_brackets (by decide) (by decide) h hpost).value
  | under, .obj ms, post, h, hpost => scans_inside (by decide) (scans_members under ms h) hpost

theorem scans_elems : ∀ (under : Bool) (es : Elems Marked), GivesElems under es →
    Scans (es.text ++ [lit ']']) (HiddenElems es)
  | under, .one pre v post, ⟨hpre, hpost, hv⟩ => by
    have hvalue := (scans_node under v post hv hpost).close (by decide : ']' ∈ closing)
    have hscans := hvalue.skip (noQuote_space pre) hpre
    rwa [← List.append_assoc] at hscans
  | under, .cons pre v post rest, ⟨⟨hpre, hpost, hv⟩, hrest⟩ => by
    have hvalue := (scans_node under v post hv hpost).close (by decide : ',' ∈ closing)
    have hscans := (hvalue.append (scans_elems under rest hrest)).skip (noQuote_space pre) hpre
    simpa [Elems.text, HiddenElems] using hscans

theorem scans_members : ∀ (under : Bool) (ms : Members Marked), GivesMembers under ms →
    Scans (ms.text ++ [lit '}']) (HiddenMembers ms)
  | under, .one pre key mid mid' v post, ⟨⟨hpre, hkey, hmid, hmid', hpost⟩, hv⟩ => by
    have hnode := scans_node _ v post hv hpost
    have hmember := (scans_member hkey hmid hmid' hpost hv hnode).close (by decide : '}' ∈ closing)
    have hscans := hmember.skip (noQuote_space pre) hpre
    simpa [Members.text, HiddenMembers] using hscans
  | under, .cons pre key mid mid' v post rest, ⟨⟨⟨hpre, hkey, hmid, hmid', hpost⟩, hv⟩, hrest⟩ => by
    have hnode := scans_node _ v post hv hpost
    have hmember := (scans_member hkey hmid hmid' hpost hv hnode).close (by decide : ',' ∈ closing)
    have hscans := (hmember.append (scans_members under rest hrest)).skip (noQuote_space pre) hpre
    simpa [Members.text, HiddenMembers] using hscans

end

/-- A name that is written as it is read is seen. -/
theorem isSeen_of_mem {key : Body Marked} (h : key.text.map char ∈ jsonFieldNames) : isSeen key = true := by
  rw [isSeen, List.any_eq_true]
  refine ⟨_, h, ?_⟩
  rw [List.isSuffixOf_iff_suffix, Body.quoted, List.map_cons, List.map_append, char_lit]
  exact List.suffix_refl _

theorem brace_not_mem_quotedName {name : List Char} (h : name ∈ jsonFieldNames) : '{' ∉ quotedName name := by
  simp only [jsonFieldNames, List.mem_cons, List.not_mem_nil, or_false] at h
  rcases h with rfl | rfl | rfl | rfl <;> decide +kernel

/-- No field begins in a quiet text before an object. -/
theorem passed_of_quiet {t : List Marked} (h : Quiet t) (u : List Marked) : Passed t (lit '{' :: u) := by
  rintro v hv hne ⟨name, hname, f, hf, hprefix⟩
  obtain ⟨g, rfl⟩ := hf.eq_append
  have hquoted := (List.prefix_append (quotedName name) g).trans hprefix
  rw [List.map_append, List.map_cons, char_lit] at hquoted
  rcases prefix_append_cases hquoted with hquoted | ⟨q, hq, hbrace, hne'⟩
  · exact h name hname (hquoted.isInfix.trans (hv.isInfix.map char))
  · obtain ⟨c, q, rfl⟩ := List.exists_cons_of_ne_nil hne'
    obtain ⟨rfl, -⟩ := List.cons_prefix_cons.mp hbrace
    exact brace_not_mem_quotedName hname (hq ▸ by simp)

theorem scans_object {ms : Members Marked} (h : GivesMembers under ms) :
    Scans (Node.obj ms).text (HiddenMembers ms) :=
  (scans_members under ms h).skip (t := [lit '{']) (by decide) (clean_cons.mpr ⟨rfl, clean_nil⟩)

variable {before after : List Marked} {ms : Members Marked}

theorem clean_cut (hbefore : Quiet before ∧ Clean before) (hafter : Quiet after ∧ Clean after)
    (hms : GivesMembers under ms) (h : HiddenMembers ms) {p : List Marked}
    (hp : p <+: before ++ ((Node.obj ms).text ++ after)) : Clean (stripSecretJSON p) := by
  have hscans := scans_object hms
  rcases prefix_append_cases hp with hp | ⟨q, rfl, hq, hne⟩
  · exact clean_stripSecretJSON (hbefore.2.subset hp.subset)
  have hpassed : Passed before q := by
    obtain ⟨a, q, rfl⟩ := List.exists_cons_of_ne_nil hne
    obtain ⟨rfl, -⟩ := List.cons_prefix_cons.mp hq
    exact passed_of_quiet hbefore.1 q
  rw [stripSecretJSON_passed hpassed, clean_append]
  refine ⟨hbefore.2, ?_⟩
  rcases prefix_append_cases hq with hq | ⟨x, rfl, hx, -⟩
  · exact hscans.cut h q hq
  · obtain ⟨w, hw, hclean⟩ := hscans.whole x
    rw [hw, clean_append]
    exact ⟨hclean.mpr h, clean_stripSecretJSON (hafter.2.subset hx.subset)⟩

theorem hidden_of_clean (hbefore : Quiet before ∧ Clean before) (hms : GivesMembers under ms)
    (h : Clean (stripSecretJSON (before ++ ((Node.obj ms).text ++ after)))) : HiddenMembers ms := by
  obtain ⟨w, hw, hclean⟩ := (scans_object hms).whole after
  have hpassed : Passed before ((Node.obj ms).text ++ after) := passed_of_quiet hbefore.1 _
  rw [stripSecretJSON_passed hpassed, hw, clean_append, clean_append] at h
  exact hclean.mp h.2.1

/-- The scan ends on every text and reads characters only. Of an object in quiet text, cut anywhere, it
leaves no string given as a value exactly if each is under a key that the scan sees. -/
theorem stripSecretJSON_cut_iff (hbefore : Quiet before ∧ Clean before) (hafter : Quiet after ∧ Clean after)
    (hms : GivesMembers false ms) :
    ((∀ (s : List Char) (fuel : ℕ), s.length ≤ fuel → stripSecretJSONFrom fuel s = stripSecretJSON s) ∧
      ∀ (s : List Char) (fuel : ℕ), s.length < fuel →
        maskJSONMembers fuel s = maskJSONMembers (s.length + 1) s) ∧
    (∀ s : List Marked, stripSecretJSON (s.map char) = (stripSecretJSON s).map char) ∧
    ((∀ k, Clean (stripSecretJSON ((before ++ ((Node.obj ms).text ++ after)).take k))) ↔
      HiddenMembers ms) := by
  refine ⟨⟨?_, ?_⟩, stripSecretJSON_map_char, ?_, ?_⟩
  · exact fun s fuel hfuel => stripSecretJSONFrom_fuel hfuel le_rfl
  · exact fun s fuel hfuel => maskJSONMembers_fuel hfuel (Nat.lt_succ_self _)
  · intro h
    have hwhole := h (before ++ ((Node.obj ms).text ++ after)).length
    rw [List.take_length] at hwhole
    exact hidden_of_clean hbefore hms hwhole
  · exact fun h k => clean_cut hbefore hafter hms h (List.take_prefix _ _)

def noSpace : Space Marked := ⟨[], rfl⟩

/-- `"data"` with one value, or with another text for its key. -/
def oneField (key : Body Marked) : Members Marked :=
  .cons noSpace ⟨write "kind".toList, by decide⟩ noSpace noSpace (.str ⟨write "Secret".toList, by decide⟩) noSpace
    (.one noSpace key noSpace noSpace
      (.obj (.one noSpace ⟨write "k".toList, by decide⟩ noSpace noSpace
        (.str ⟨"hunter2".toList.map (⟨·, true⟩), by decide⟩) noSpace)) noSpace)

theorem gives_oneField {key : Body Marked} (h : Clean key.text) (hkey : isFieldKey key = true) :
    GivesMembers false (oneField key) := by
  have hspace : Clean noSpace.text := clean_nil
  refine ⟨⟨⟨hspace, clean_write _, hspace, hspace, hspace⟩, fun _ => clean_write _⟩,
    ⟨hspace, h, hspace, hspace, hspace⟩, ⟨hspace, clean_write _, hspace, hspace, hspace⟩, ?_⟩
  rw [hkey]
  rintro (h | h) <;> exact absurd h (by decide)

def dataKey : Body Marked := ⟨write "data".toList, by decide⟩

theorem stripSecretJSON_oneField : HiddenMembers (oneField dataKey) ∧ ∀ k, Clean (stripSecretJSON
    ((write "output: ".toList ++ ((Node.obj (oneField dataKey)).text ++ write "\n".toList)).take k)) := by
  have hquiet : Quiet (write "output: ".toList) ∧ Quiet (write "\n".toList) := by
    unfold Quiet
    decide +kernel
  have hhidden : HiddenMembers (oneField dataKey) := ⟨Or.inr (clean_write _), Or.inl (by decide +kernel)⟩
  exact ⟨hhidden, (stripSecretJSON_cut_iff ⟨hquiet.1, clean_write _⟩ ⟨hquiet.2, clean_write _⟩
    (gives_oneField (clean_write _) (by decide +kernel))).2.2.mpr hhidden⟩

def escapedKey : Body Marked := ⟨write "\\u0064ata".toList, by decide⟩

/-- `"\u0064ata"` says `data`, but the scan does not see it. -/
theorem escapedKey_survives : GivesMembers false (oneField escapedKey) ∧
    (Node.obj (oneField escapedKey)).text.map char =
      "\x7b\"kind\":\"Secret\",\"\\u0064ata\":\x7b\"k\":\"hunter2\"\x7d\x7d".toList ∧
    stripSecretJSON (Node.obj (oneField escapedKey)).text = (Node.obj (oneField escapedKey)).text ∧
    ¬ Clean (Node.obj (oneField escapedKey)).text := by
  refine ⟨gives_oneField (clean_write _) (by decide +kernel), ?_, ?_, ?_⟩ <;> decide +kernel

end Run
end Kubeast.Redact
