import Kubeast.Redact.Provenance

/-! The scan by strings and braces: where it finds a field, and what it leaves of the field's
value. -/
namespace Kubeast.Redact
open Symbols Json

section Fields

theorem after_eq_some {word s t : List Char} : after word s = some t ↔ s = word ++ t := by
  unfold after
  split_ifs with h
  · rw [List.isPrefixOf_iff_prefix] at h
    obtain ⟨u, rfl⟩ := h
    simp [eq_comm]
  · constructor
    · intro h'
      cases h'
    · rintro rfl
      exact absurd (List.isPrefixOf_iff_prefix.mpr (List.prefix_append _ _)) h

/-- A quoted name with its colon, up to the value. -/
def IsField (name s : List Char) : Prop := ∃ gap gap', s = '"' :: (name ++ '"' :: (gap ++ ':' :: gap')) ∧
  (∀ c ∈ gap, isSpaceClass c = true) ∧ ∀ c ∈ gap', isSpaceClass c = true

theorem matchName_eq_some {name s : List Char} {n : ℕ} (h : matchName name s = some n) :
    ∃ f rest, s = f ++ rest ∧ IsField name f ∧ n = f.length := by
  unfold matchName at h
  cases hquoted : after ('"' :: (name ++ ['"'])) s with
  | none =>
    rw [hquoted] at h
    cases h
  | some t =>
    rw [hquoted] at h
    dsimp only at h
    cases hcolon : after [':'] (t.dropWhile isSpaceClass) with
    | none =>
      rw [hcolon] at h
      cases h
    | some u =>
      rw [hcolon] at h
      rw [after_eq_some] at hquoted hcolon
      cases h
      refine ⟨'"' :: (name ++ '"' :: (t.takeWhile isSpaceClass ++ ':' :: u.takeWhile isSpaceClass)),
        u.dropWhile isSpaceClass, ?_, ⟨_, _, rfl, fun c hc => List.mem_takeWhile_imp hc,
        fun c hc => List.mem_takeWhile_imp hc⟩, ?_⟩
      · rw [hquoted]
        conv_lhs => rw [← List.takeWhile_append_dropWhile (p := isSpaceClass) (l := t), hcolon,
          ← List.takeWhile_append_dropWhile (p := isSpaceClass) (l := u)]
        simp
      · have hlen := congrArg List.length hquoted
        have htake := congrArg List.length
          (List.takeWhile_append_dropWhile (p := isSpaceClass) (l := t))
        have htake' := congrArg List.length
          (List.takeWhile_append_dropWhile (p := isSpaceClass) (l := u))
        have hcolon' := congrArg List.length hcolon
        simp only [List.length_append, List.length_cons, List.length_nil] at *
        omega

theorem takeWhile_class {gap s : List Char} (hgap : ∀ c ∈ gap, isSpaceClass c = true)
    (hs : NotFirst isSpaceClass s) : (gap ++ s).dropWhile isSpaceClass = s :=
  (takeWhile_of_notFirst hgap hs).2

theorem matchName_field {name f rest : List Char} (hf : IsField name f)
    (hrest : NotFirst isSpaceClass rest) : matchName name (f ++ rest) = some f.length := by
  obtain ⟨gap, gap', rfl, hgap, hgap'⟩ := hf
  have hquoted : after ('"' :: (name ++ ['"']))
      ('"' :: (name ++ '"' :: (gap ++ ':' :: gap')) ++ rest) = some (gap ++ ':' :: (gap' ++ rest)) := by
    rw [after_eq_some]
    simp
  have hcolon : after [':'] ((gap ++ ':' :: (gap' ++ rest)).dropWhile isSpaceClass) =
      some (gap' ++ rest) := by
    rw [takeWhile_class hgap (NotFirst.cons (by decide)), after_eq_some]
    rfl
  unfold matchName
  rw [hquoted]
  dsimp only
  rw [hcolon]
  dsimp only
  rw [takeWhile_class hgap' hrest]
  simp only [List.length_append, Option.some.injEq]
  omega

theorem quote_not_mem_name {name : List Char} (h : name ∈ jsonFieldNames) : '"' ∉ name := by
  simp only [jsonFieldNames, List.mem_cons, List.not_mem_nil, or_false] at h
  rcases h with rfl | rfl | rfl | rfl <;> decide

/-- Two names that end at the same quote are one. -/
theorem name_unique {a b s t : List Char} (ha : '"' ∉ a) (hb : '"' ∉ b)
    (h : a ++ '"' :: s = b ++ '"' :: t) : a = b ∧ s = t := by
  have hcut : ∀ (a s : List Char), '"' ∉ a → cut '"' (a ++ '"' :: s) = some (a, s) := by
    intro a s ha
    apply cut_append _ rfl
    rintro c hc rfl
    exact ha hc
  have hsome := hcut a s ha
  rw [h, hcut b t hb, Option.some.injEq, Prod.mk.injEq] at hsome
  exact ⟨hsome.1.symm, hsome.2.symm⟩

theorem matchField_field {name f rest : List Char} (hname : name ∈ jsonFieldNames)
    (hf : IsField name f) (hrest : NotFirst isSpaceClass rest) :
    matchField (f ++ rest) = some (name, f.length) := by
  have hmatch := matchName_field hf hrest
  unfold matchField
  cases hfind : jsonFieldNames.findSome? fun name =>
      (matchName name (f ++ rest)).map fun n => (name, n) with
  | none =>
    have hnone := List.findSome?_eq_none_iff.mp hfind name hname
    rw [hmatch] at hnone
    cases hnone
  | some p =>
    obtain ⟨name', hname', hp⟩ := List.exists_of_findSome?_eq_some hfind
    obtain ⟨n, hn, rfl⟩ := Option.map_eq_some_iff.mp hp
    obtain ⟨f', rest', hs, ⟨gap', gap'', rfl, -⟩, -⟩ := matchName_eq_some hn
    obtain ⟨gap, gap₂, rfl, -⟩ := hf
    simp only [List.cons_append, List.append_assoc, List.cons.injEq, true_and] at hs
    obtain ⟨rfl, -⟩ := name_unique (quote_not_mem_name hname) (quote_not_mem_name hname') hs
    rw [hmatch] at hn
    cases hn
    rfl

theorem matchField_eq_some {s name : List Char} {n : ℕ} (h : matchField s = some (name, n)) :
    name ∈ jsonFieldNames ∧ ∃ f rest, s = f ++ rest ∧ IsField name f ∧ n = f.length := by
  obtain ⟨name', hname', hp⟩ := List.exists_of_findSome?_eq_some h
  obtain ⟨m, hm, hpair⟩ := Option.map_eq_some_iff.mp hp
  cases hpair
  exact ⟨hname', matchName_eq_some hm⟩

end Fields

section Values

theorem stringLen_append {s : List Marked} {n : ℕ} (h : stringLen s = some n) (r : List Marked) :
    stringLen (s ++ r) = some n := by
  induction s using stringLen.induct generalizing n with
  | case1 => cases h
  | case2 a s hquote =>
    rw [stringLen_quote hquote] at h
    rw [List.cons_append, stringLen_quote hquote, h]
  | case3 a hquote hslash =>
    rw [stringLen.eq_def] at h
    simp [hslash] at h
  | case4 a hquote hslash b s ih =>
    rw [stringLen_slash hslash] at h
    obtain ⟨m, hm, rfl⟩ := Option.map_eq_some_iff.mp h
    rw [List.cons_append, List.cons_append, stringLen_slash hslash, ih hm]
    rfl
  | case5 a s hquote hslash ih =>
    rw [stringLen_plain hquote hslash] at h
    obtain ⟨m, hm, rfl⟩ := Option.map_eq_some_iff.mp h
    rw [List.cons_append, stringLen_plain hquote hslash, ih hm]
    rfl

theorem containerLen_append {s : List Marked} {depth n : ℕ} {m : Mode}
    (h : containerLen depth m s = some n) (r : List Marked) :
    containerLen depth m (s ++ r) = some n := by
  induction s generalizing depth m n with
  | nil => cases m <;> cases h
  | cons a s ih =>
    have hstep : ∀ {depth : ℕ} {m : Mode} {n : ℕ}, (containerLen depth m s).map (· + 1) = some n →
        (containerLen depth m (s ++ r)).map (· + 1) = some n := by
      intro depth m n h
      obtain ⟨k, hk, rfl⟩ := Option.map_eq_some_iff.mp h
      rw [ih hk]
      rfl
    cases m with
    | escape => exact hstep h
    | string => exact hstep h
    | plain =>
      rw [containerLen] at h
      rw [List.cons_append, containerLen]
      split_ifs at h ⊢ <;> first | exact hstep h | exact h

def opening : List Char := ['"', '{', '[']

/-- A value, and the text after it: a string, array or object that ends where the text ends, or a
word up to what must end it. -/
inductive Filled : List Marked → List Marked → Prop
  | whole {a w p} (ha : char a ∈ opening) (h : valueLen (a :: w) = some (a :: w).length) :
      Filled (a :: w) p
  | word {a w b p} (ha : char a ∉ opening) (hspace : isSpaceClass (char a) = false)
      (hw : ∀ c ∈ a :: w, inScalar c = true) (hb : inScalar b = false) :
      Filled (a :: w) (b :: p)

theorem Filled.valueLen {v p : List Marked} (h : Filled v p) (r : List Marked) :
    valueLen (v ++ (p ++ r)) = some v.length := by
  cases h with
  | @whole a w p ha h =>
    rw [Json.valueLen] at h
    rw [List.cons_append, Json.valueLen]
    split_ifs at h ⊢ with hquote hbracket
    · obtain ⟨n, hn, hlen⟩ := Option.map_eq_some_iff.mp h
      rw [stringLen_append hn]
      exact congrArg some hlen
    · exact containerLen_append h _
    · simp only [opening, List.mem_cons, List.not_mem_nil, or_false] at ha
      tauto
  | @word a w b p ha hspace hw hb =>
    simp only [opening, List.mem_cons, List.not_mem_nil, or_false, not_or] at ha
    have htake : (a :: w ++ b :: (p ++ r)).takeWhile inScalar = a :: w := by
      rw [List.takeWhile_append_of_pos hw, List.takeWhile_cons_of_neg (by simp [hb]),
        List.append_nil]
    rw [List.cons_append, List.cons_append, Json.valueLen]
    simp only [ha, false_or, if_false]
    rw [← List.cons_append, htake]

theorem Filled.head {v p : List Marked} (h : Filled v p) :
    ∃ a w, v = a :: w ∧ isSpaceClass (char a) = false := by
  cases h with
  | @whole a w p ha h =>
    simp only [opening, List.mem_cons, List.not_mem_nil, or_false] at ha
    exact ⟨a, w, rfl, by rcases ha with h | h | h <;> rw [h] <;> rfl⟩
  | @word a w b p ha hspace => exact ⟨a, w, rfl, hspace⟩

theorem isSpaceChar_of_class {c : Char} (h : isSpaceClass c = false) : isSpaceChar c = false := by
  rw [Bool.eq_false_iff]
  intro hspace
  simp only [isSpaceChar, Bool.or_eq_true, decide_eq_true_eq] at hspace
  rcases hspace with ((hc | hc) | hc) | hc <;> rw [hc] at h <;> exact absurd h (by decide)

/-- A value with nothing to hide stays, and so does what is already a placeholder. -/
def stays (v : List Marked) : Bool :=
  keptValues.contains (v.map char) || hasPrefix v "\"<REDACTED".toList

def masked (v : List Marked) : List Marked := if stays v then v else write quotedPlaceholder

/-- What the scan writes for a value, and where it goes on. -/
theorem Filled.maskJSONValue {v p : List Marked} (h : Filled v p) (r : List Marked) :
    maskJSONValue (v ++ (p ++ r)) = (masked v, some (p ++ r)) := by
  unfold Redact.maskJSONValue masked stays
  rw [h.valueLen]
  dsimp only
  rw [List.take_left, List.drop_left]
  split_ifs <;> rfl

theorem clean_masked {v : List Marked} : Clean (masked v) ↔ (stays v = true → Clean v) := by
  unfold masked
  split_ifs with hstays
  · exact ⟨fun h _ => h, fun h => h hstays⟩
  · exact ⟨fun _ h => absurd h hstays, fun _ => clean_write _⟩

end Values

section Contents

def isPunctuation (a : Marked) : Bool := [',', '+', '-'].contains (char a) || isSpaceChar (char a)

def IsString (b : List Marked) : Prop :=
  ∃ a t, b = a :: t ∧ char a = '"' ∧ stringLen t = some t.length

/-- No colon makes a key of the string before the text. -/
def NoColon (s : List Marked) : Prop :=
  NotFirst (fun c => c = ':') ((s.dropWhile fun a => isSpaceChar (char a)).map char)

def AllSpace (s : List Marked) : Prop := ∀ a ∈ s, isSpaceChar (char a) = true

/-- What stands between two braces, and the values in it: strings with a colon and a value, strings
without, and other symbols, whose punctuation has no marks. A brace stands in a value only. -/
inductive Content : List (List Marked) → List Marked → Prop
  | nil : Content [] []
  | skip {a vs s} (hquote : char a ≠ '"') (hbrace : char a ≠ '}')
      (ha : isPunctuation a = true → a.mark = false) (h : Content vs s) : Content vs (a :: s)
  | text {b vs s} (hb : IsString b) (hs : NoColon s) (h : Content vs s) :
      Content (b :: vs) (b ++ s)
  | entry {key mid mid' v vs s} (hkey : IsString key) (hclean : Clean key)
      (hmid : AllSpace mid ∧ Clean mid) (hmid' : AllSpace mid' ∧ Clean mid')
      (hv : Filled v (s ++ [lit '}'])) (h : Content vs s) :
      Content (v :: vs) (key ++ (mid ++ lit ':' :: (mid' ++ (v ++ s))))

theorem IsString.filled {b : List Marked} (h : IsString b) (p : List Marked) : Filled b p := by
  obtain ⟨a, t, rfl, ha, ht⟩ := h
  refine Filled.whole (by simp [opening, ha]) ?_
  rw [valueLen, if_pos ha, ht]
  rfl

theorem IsString.length_pos {b : List Marked} (h : IsString b) : 0 < b.length := by
  obtain ⟨a, t, rfl, -⟩ := h
  exact Nat.succ_pos _

/-- The scan at a string. -/
theorem maskJSONMembers_string {b r w t : List Marked} (hb : IsString b)
    (h : maskJSONMember (b ++ r) b.length = (w, some t)) (fuel : ℕ) :
    maskJSONMembers (fuel + 1) (b ++ r) =
      (w ++ (maskJSONMembers fuel t).1, (maskJSONMembers fuel t).2) := by
  have hlen := (hb.filled []).valueLen r
  rw [List.nil_append] at hlen
  obtain ⟨a, u, rfl, ha, -⟩ := hb
  rw [List.cons_append] at hlen h ⊢
  rw [maskJSONMembers, if_neg (by rw [ha]; decide), if_pos ha, hlen]
  dsimp only
  rw [h]

theorem maskJSONMember_text {b s : List Marked} (hb : IsString b) (hs : NoColon s)
    (r : List Marked) : maskJSONMember (b ++ (s ++ lit '}' :: r)) b.length =
      (masked b, some (s ++ lit '}' :: r)) := by
  have hmask := (hb.filled (s ++ [lit '}'])).maskJSONValue r
  rw [List.append_assoc, List.singleton_append] at hmask
  unfold maskJSONMember
  rw [List.drop_left, List.dropWhile_append]
  cases hdrop : s.dropWhile fun a => isSpaceChar (char a) with
  | nil =>
    rw [List.isEmpty_nil, if_pos rfl, List.dropWhile_cons_of_neg (by rw [char_lit]; decide)]
    dsimp only
    rw [if_neg (by rw [char_lit]; decide), hmask]
  | cons c t =>
    have hc : char c ≠ ':' := by
      intro h
      unfold NoColon at hs
      rw [hdrop] at hs
      simpa [h] using hs (char c) rfl
    rw [List.isEmpty_cons, if_neg Bool.false_ne_true, List.cons_append]
    dsimp only
    rw [if_neg hc, hmask]

theorem dropWhile_space {ws : List Marked} (hws : AllSpace ws) {a : Marked} (s : List Marked)
    (ha : isSpaceChar (char a) = false) :
    (ws ++ a :: s).takeWhile (fun a => isSpaceChar (char a)) = ws ∧
      (ws ++ a :: s).dropWhile (fun a => isSpaceChar (char a)) = a :: s := by
  rw [List.takeWhile_append_of_pos hws, List.dropWhile_append_of_pos hws]
  simp [ha]

/-- A key stays, and the scan goes on with what begins behind its colon. -/
theorem maskJSONMember_key (key : List Marked) {mid mid' w : List Marked} {a : Marked} (hmid : AllSpace mid)
    (hmid' : AllSpace mid') (ha : isSpaceChar (char a) = false) :
    maskJSONMember (key ++ (mid ++ lit ':' :: (mid' ++ a :: w))) key.length =
      (key ++ (mid ++ lit ':' :: (mid' ++ (maskJSONValue (a :: w)).1)), (maskJSONValue (a :: w)).2) := by
  have hcolon := dropWhile_space hmid (mid' ++ a :: w)
    (show isSpaceChar (char (lit ':' : Marked)) = false by decide)
  have hvalue := dropWhile_space hmid' w ha
  unfold maskJSONMember
  rw [List.drop_left, hcolon.2]
  dsimp only
  rw [if_pos (char_lit _), hcolon.1, List.take_left, hvalue.1, hvalue.2]

theorem maskJSONMember_entry (key : List Marked) {mid mid' v p : List Marked} (hmid : AllSpace mid)
    (hmid' : AllSpace mid') (hv : Filled v p) (r : List Marked) :
    maskJSONMember (key ++ (mid ++ lit ':' :: (mid' ++ (v ++ (p ++ r))))) key.length =
      (key ++ (mid ++ lit ':' :: (mid' ++ masked v)), some (p ++ r)) := by
  have hmask := hv.maskJSONValue r
  obtain ⟨a, w, rfl, ha⟩ := hv.head
  rw [List.cons_append] at hmask ⊢
  rw [maskJSONMember_key key hmid hmid' (isSpaceChar_of_class ha), hmask]

/-- No marked value is one that stays. -/
def NoneStays (vs : List (List Marked)) : Prop := ∀ v ∈ vs, stays v = true → Clean v

/-- What the scan writes for what stands between two braces. -/
theorem Content.maskJSONMembers {vs : List (List Marked)} {s : List Marked} (h : Content vs s) :
    ∀ (fuel : ℕ) (r : List Marked), s.length < fuel →
      ∃ w, maskJSONMembers fuel (s ++ lit '}' :: r) = (w, some r) ∧ (Clean w ↔ NoneStays vs) := by
  unfold NoneStays
  induction h with
  | nil =>
    intro fuel r hfuel
    obtain ⟨k, rfl⟩ := Nat.exists_eq_add_of_lt hfuel
    refine ⟨[lit '}'], ?_, by simp [Clean, lit]⟩
    rw [List.nil_append, Redact.maskJSONMembers, if_pos (char_lit _)]
  | @skip a vs s hquote hbrace ha _ ih =>
    intro fuel r hfuel
    obtain ⟨k, rfl⟩ := Nat.exists_eq_add_of_lt hfuel
    obtain ⟨w, hmask, hw⟩ := ih ((a :: s).length + k) r (by simp only [List.length_cons]; omega)
    refine ⟨(if isPunctuation a then [a] else []) ++ w, ?_, ?_⟩
    · rw [List.cons_append, Redact.maskJSONMembers, if_neg hbrace, if_neg hquote, hmask]
      rfl
    · rw [clean_append, hw]
      refine ⟨fun h => h.2, fun h => ⟨?_, h⟩⟩
      split_ifs with hpunctuation
      · exact clean_cons.mpr ⟨ha hpunctuation, clean_nil⟩
      · exact clean_nil
  | @text b vs s hb hs _ ih =>
    intro fuel r hfuel
    have hpos := hb.length_pos
    obtain ⟨k, rfl⟩ := Nat.exists_eq_add_of_lt hfuel
    obtain ⟨w, hmask, hw⟩ := ih ((b ++ s).length + k) r
      (by simp only [List.length_append]; omega)
    refine ⟨masked b ++ w, ?_, ?_⟩
    · rw [List.append_assoc, maskJSONMembers_string hb (maskJSONMember_text hb hs r), hmask]
    · rw [clean_append, clean_masked, hw, List.forall_mem_cons]
  | @entry key mid mid' v vs s hkey hclean hmid hmid' hv _ ih =>
    intro fuel r hfuel
    have hpos := hkey.length_pos
    obtain ⟨k, rfl⟩ := Nat.exists_eq_add_of_lt hfuel
    obtain ⟨w, hmask, hw⟩ := ih ((key ++ (mid ++ lit ':' :: (mid' ++ (v ++ s)))).length + k) r
      (by simp only [List.length_append, List.length_cons]; omega)
    refine ⟨key ++ (mid ++ lit ':' :: (mid' ++ masked v)) ++ w, ?_, ?_⟩
    · have hmember := maskJSONMember_entry key hmid.1 hmid'.1 hv r
      simp only [List.append_assoc, List.nil_append, List.cons_append] at hmember ⊢
      rw [maskJSONMembers_string hkey hmember, hmask]
      simp only [List.append_assoc, List.cons_append]
    · simp only [clean_append, clean_cons, hclean, hmid.2, hmid'.2, clean_masked, hw,
        List.forall_mem_cons, true_and]
      exact ⟨fun h => ⟨h.1.2, h.2⟩, fun h => ⟨⟨rfl, h.1⟩, h.2⟩⟩

end Contents

section Objects

theorem Content.spaces {vs : List (List Marked)} {s ws : List Marked} (h : Content vs s)
    (hws : AllSpace ws ∧ Clean ws) : Content vs (ws ++ s) := by
  induction ws with
  | nil => exact h
  | cons a ws ih =>
    obtain ⟨hspace, hclean⟩ := hws
    rw [AllSpace, List.forall_mem_cons] at hspace
    rw [clean_cons] at hclean
    refine Content.skip ?_ ?_ (fun _ => hclean.1) (ih ⟨hspace.2, hclean.2⟩) <;>
      intro h <;> rw [h] at hspace <;> exact absurd hspace.1 (by decide)

theorem Space.allSpace (ws : Space Marked) : AllSpace ws.text := by
  intro a ha
  exact List.all_eq_true.mp ws.valid _ (List.mem_map_of_mem ha)

theorem isString_quoted (b : Body Marked) : IsString b.quoted := by
  refine ⟨lit '"', b.text ++ [lit '"'], rfl, char_lit _, ?_⟩
  rw [stringLen_body b.text [] b.valid]
  simp

theorem clean_quoted {key : Body Marked} : Clean key.quoted ↔ Clean key.text := by
  rw [Body.quoted, clean_cons, clean_append, clean_cons]
  exact ⟨fun h => h.2.1, fun h => ⟨rfl, h, rfl, clean_nil⟩⟩

/-- A word takes blanks that follow it along. -/
theorem filled_node (v : Node Marked) (post : Space Marked) {b : Marked} (hb : inScalar b = false)
    (u : List Marked) : ∃ blanks post', post.text = blanks ++ post' ∧ (v.isScalar = false → blanks = []) ∧
      ∀ p, Filled (v.text ++ blanks) (post' ++ b :: (u ++ p)) := by
  cases hv : v.isScalar with
  | false =>
    refine ⟨[], post.text, rfl, fun _ => rfl, ?_⟩
    intro p
    have hlen := valueLen_node hv []
    rw [List.append_nil] at hlen ⊢
    cases v with
    | scalar t => cases hv
    | str _ => exact Filled.whole (by rw [char_lit]; decide) hlen
    | emptyArr _ => exact Filled.whole (by rw [char_lit]; decide) hlen
    | arr _ => exact Filled.whole (by rw [char_lit]; decide) hlen
    | emptyObj _ => exact Filled.whole (by rw [char_lit]; decide) hlen
    | obj _ => exact Filled.whole (by rw [char_lit]; decide) hlen
  | true =>
    cases v with
    | scalar t =>
      obtain ⟨a, w, hw⟩ := t.exists_cons
      have ha : isScalarChar (char a) = true := t.isScalarChar a (by simp [hw])
      have hopen : char a ∉ opening ∧ isSpaceClass (char a) = false := by
        constructor
        · intro h
          simp only [opening, List.mem_cons, List.not_mem_nil, or_false] at h
          rcases h with h | h | h <;> rw [h] at ha <;> exact absurd ha (by decide)
        · rw [Bool.eq_false_iff]
          intro h
          simp only [isSpaceClass, List.contains_iff_mem, List.mem_cons, List.not_mem_nil,
            or_false] at h
          rcases h with h | h | h | h | h <;> rw [h] at ha <;> exact absurd ha (by decide)
      have hall : ∀ c ∈ a :: (w ++ post.text.takeWhile inScalar), inScalar c = true := by
        intro c hc
        rw [← List.cons_append, ← hw] at hc
        rcases List.mem_append.mp hc with hc | hc
        · exact inScalar_of_isScalarChar (t.isScalarChar c hc)
        · exact List.mem_takeWhile_imp hc
      refine ⟨post.text.takeWhile inScalar, post.text.dropWhile inScalar,
        List.takeWhile_append_dropWhile.symm, fun h => absurd h (by decide), ?_⟩
      intro p
      rw [Node.text, hw, List.cons_append]
      cases hdrop : post.text.dropWhile inScalar with
      | nil => exact Filled.word hopen.1 hopen.2 hall hb
      | cons c s =>
        have hc : inScalar c = false := by
          have hhead := List.head_dropWhile_not inScalar (by rw [hdrop]; simp)
          simpa [hdrop] using hhead
        exact Filled.word hopen.1 hopen.2 hall hc
    | str _ => cases hv
    | emptyArr _ => cases hv
    | arr _ => cases hv
    | emptyObj _ => cases hv
    | obj _ => cases hv

/-- Marks are in the values only. -/
def Tidy : Members Marked → Prop
  | .one pre key mid mid' _ post => Clean pre.text ∧ Clean key.text ∧ Clean mid.text ∧
      Clean mid'.text ∧ Clean post.text
  | .cons pre key mid mid' _ post rest => (Clean pre.text ∧ Clean key.text ∧ Clean mid.text ∧
      Clean mid'.text ∧ Clean post.text) ∧ Tidy rest

def memberValues : Members Marked → List (Node Marked)
  | .one _ _ _ _ v _ => [v]
  | .cons _ _ _ _ v _ rest => v :: memberValues rest

/-- The text that the scan takes for a value: a word's goes on over the blanks behind it. -/
def TakenFor (v : Node Marked) (w : List Marked) : Prop :=
  ∃ blanks, w = v.text ++ blanks ∧ Clean blanks ∧ (v.isScalar = false → blanks = [])

/-- A JSON object with marked values. -/
theorem content_members : ∀ ms : Members Marked, Tidy ms →
    ∃ vs, Content vs ms.text ∧ ∀ w ∈ vs, ∃ v ∈ memberValues ms, TakenFor v w
  | .one pre key mid mid' v post, h => by
    obtain ⟨hpre, hkey, hmid, hmid', hpost⟩ := h
    obtain ⟨blanks, post', htext, hscalar, hv⟩ := filled_node v post (b := lit '}') rfl []
    have hsplit := hpost
    rw [htext, clean_append] at hsplit
    have hspace : AllSpace post' ∧ Clean post' :=
      ⟨fun a ha => Space.allSpace post a (htext ▸ List.mem_append_right _ ha), hsplit.2⟩
    have hrest : Content [] post' := by simpa using Content.nil.spaces hspace
    have hentry := Content.entry (isString_quoted key) (clean_quoted.mpr hkey)
      ⟨Space.allSpace mid, hmid⟩ ⟨Space.allSpace mid', hmid'⟩ (hv []) hrest
    refine ⟨[v.text ++ blanks], ?_, ?_⟩
    · rw [Members.text, htext, ← List.append_assoc v.text]
      exact hentry.spaces ⟨Space.allSpace pre, hpre⟩
    · rw [List.forall_mem_singleton]
      exact ⟨v, List.mem_singleton_self v, blanks, rfl, hsplit.1, hscalar⟩
  | .cons pre key mid mid' v post rest, h => by
    obtain ⟨⟨hpre, hkey, hmid, hmid', hpost⟩, hrest⟩ := h
    obtain ⟨vs, hvs, htaken⟩ := content_members rest hrest
    obtain ⟨blanks, post', htext, hscalar, hv⟩ := filled_node v post (b := lit ',') rfl rest.text
    have hsplit := hpost
    rw [htext, clean_append] at hsplit
    have hspace : AllSpace post' ∧ Clean post' :=
      ⟨fun a ha => Space.allSpace post a (htext ▸ List.mem_append_right _ ha), hsplit.2⟩
    have hcomma : Content vs (post' ++ lit ',' :: rest.text) :=
      (Content.skip (by rw [char_lit]; decide) (by rw [char_lit]; decide) (fun _ => rfl) hvs).spaces
        hspace
    have hfilled : Filled (v.text ++ blanks) (post' ++ lit ',' :: rest.text ++ [lit '}']) := by
      rw [List.append_assoc]
      exact hv [lit '}']
    have hentry := Content.entry (isString_quoted key) (clean_quoted.mpr hkey)
      ⟨Space.allSpace mid, hmid⟩ ⟨Space.allSpace mid', hmid'⟩ hfilled hcomma
    have htext' : v.text ++ (post.text ++ lit ',' :: rest.text) =
        v.text ++ blanks ++ (post' ++ lit ',' :: rest.text) := by
      rw [htext, List.append_assoc, List.append_assoc]
    refine ⟨(v.text ++ blanks) :: vs, ?_, ?_⟩
    · rw [Members.text, htext']
      exact hentry.spaces ⟨Space.allSpace pre, hpre⟩
    · rw [List.forall_mem_cons]
      refine ⟨⟨v, List.mem_cons_self, blanks, rfl, hsplit.1, hscalar⟩, ?_⟩
      intro w hw
      obtain ⟨v', hv', htaken'⟩ := htaken w hw
      exact ⟨v', List.mem_cons_of_mem _ hv', htaken'⟩

end Objects

section Surroundings

def quotedName (name : List Char) : List Char := '"' :: (name ++ ['"'])

/-- No quoted name that the scan looks for stands in the text. -/
def Quiet (t : List Marked) : Prop := ∀ name ∈ jsonFieldNames, ¬ quotedName name <:+: t.map char

theorem IsField.eq_append {name f : List Char} (h : IsField name f) :
    ∃ g, f = quotedName name ++ g := by
  obtain ⟨gap, gap', rfl, -⟩ := h
  exact ⟨gap ++ ':' :: gap', by simp [quotedName]⟩

end Surroundings

section Run

def braces (s : List Marked) : List Marked := lit '{' :: (s ++ [lit '}'])

theorem hasPrefix_braces (s r : List Marked) : hasPrefix (braces s ++ r) ['{'] = true := by
  simp [hasPrefix, braces]

/-- An object under a field of values. -/
theorem maskField_braces {name : List Char} (hname : name ≠ lastAppliedName)
    {vs : List (List Marked)} {s : List Marked} (hs : Content vs s) (r : List Marked) :
    ∃ w, maskField name (braces s ++ r) = (w, some r) ∧ (Clean w ↔ NoneStays vs) := by
  have hlen : s.length < (s ++ ([lit '}'] ++ r)).length + 1 := by
    simp only [List.length_append]
    omega
  obtain ⟨w, hmask, hw⟩ := hs.maskJSONMembers _ r hlen
  refine ⟨lit '{' :: w, ?_, ?_⟩
  · unfold maskField
    rw [if_pos ⟨hname, hasPrefix_braces s r⟩, braces, List.cons_append, List.append_assoc,
      maskJSONObject]
    rw [List.singleton_append] at hmask ⊢
    rw [hmask]
  · rw [clean_cons, hw]
    exact ⟨fun h => h.2, fun h => ⟨rfl, h⟩⟩

end Run

end Kubeast.Redact
