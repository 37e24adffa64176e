import Kubeast.Redact.FieldSearch

/-! A text that ends anywhere: the values of an object of which only the first part is there, and the strings in
which a field may begin. -/
namespace Kubeast.Redact
open Symbols Json

section Tokens
variable {name t s z : List Char}

theorem name_letter (h : name ∈ jsonFieldNames) : ∃ c s, name = c :: s ∧ c ∈ ['d', 's', 'k'] := by
  simp only [jsonFieldNames, List.mem_cons, List.not_mem_nil, or_false] at h
  rcases h with rfl | rfl | rfl | rfl <;> exact ⟨_, _, rfl, by decide⟩

theorem slash_not_mem_name (h : name ∈ jsonFieldNames) : '\\' ∉ name := by
  simp only [jsonFieldNames, List.mem_cons, List.not_mem_nil, or_false] at h
  rcases h with rfl | rfl | rfl | rfl <;> decide

/-- The first quote behind what may stand in a string closes it, unless a backslash comes before. -/
theorem body_eq_name (hbody : isBody t = true) (hquote : '"' ∉ name) (hslash : '\\' ∉ name)
    (h : name ++ ['"'] <+: t ++ '"' :: z) : t = name := by
  induction name generalizing t with
  | nil =>
    rcases isBody_cases hbody with rfl | ⟨c, u, rfl, hc, -, -⟩ | ⟨c, u, rfl, -⟩
    · rfl
    · exact absurd (List.cons_prefix_cons.mp h).1.symm hc
    · exact absurd (List.cons_prefix_cons.mp h).1 (by decide)
  | cons d name ih =>
    rw [List.mem_cons, not_or] at hquote hslash
    rcases isBody_cases hbody with rfl | ⟨c, u, rfl, -, -, hu⟩ | ⟨c, u, rfl, -⟩
    · exact absurd (List.cons_prefix_cons.mp h).1.symm hquote.1
    · obtain ⟨rfl, hrest⟩ := List.cons_prefix_cons.mp h
      rw [ih hu hquote.2 hslash.2 hrest]
    · exact absurd (List.cons_prefix_cons.mp h).1.symm hslash.1

/-- From a quote in a string on, a name and a quote can only be the rest of the string. -/
theorem suffix_body {t s : List Char} (hbody : isBody t = true) (hs : '"' :: s <:+ t ++ ['"']) (hquote : '"' ∉ name)
    (hslash : '\\' ∉ name) (h : name ++ ['"'] <+: s ++ z) : s = [] ∨ s = name ++ ['"'] := by
  rcases isBody_cases hbody with rfl | ⟨c, u, rfl, hc, -, hu⟩ | ⟨c, u, rfl, hu⟩
  · rw [List.nil_append, List.suffix_cons_iff] at hs
    rcases hs with hs | hs
    · exact Or.inl (List.cons.inj hs).2
    · exact absurd (List.suffix_nil.mp hs) (by simp)
  · rw [List.cons_append, List.suffix_cons_iff] at hs
    rcases hs with hs | hs
    · exact absurd (List.cons.inj hs).1.symm hc
    · exact suffix_body hu hs hquote hslash h
  · rw [List.cons_append, List.cons_append, List.suffix_cons_iff, List.suffix_cons_iff] at hs
    rcases hs with hs | hs | hs
    · exact absurd (List.cons.inj hs).1 (by decide)
    · have hrest := (List.cons.inj hs).2
      rw [hrest, List.append_assoc, List.singleton_append] at h
      rw [hrest, body_eq_name hu hquote hslash h]
      exact Or.inr rfl
    · exact suffix_body hu hs hquote hslash h
termination_by t.length

/-- A field that begins in a string begins at its last quote, or is the rest of the string and has its
colon behind it. -/
theorem starts_quoted (hbody : isBody t = true) (hs : s <:+ '"' :: (t ++ ['"'])) (hne : s ≠ [])
    (h : Starts (s ++ z)) : (∃ c ∈ ['d', 's', 'k'], ∃ u, z = c :: u) ∨
      ∃ name ∈ jsonFieldNames, s = quotedName name ∧
        ∃ gap, (∀ c ∈ gap, isSpaceClass c = true) ∧ gap ++ [':'] <+: z := by
  obtain ⟨name, hname, f, ⟨gap, gap', rfl, hgap, -⟩, hfield⟩ := h
  obtain ⟨c, s, rfl⟩ := List.exists_cons_of_ne_nil hne
  obtain ⟨rfl, hprefix⟩ := List.cons_prefix_cons.mp hfield
  have hquote := quote_not_mem_name hname
  have hslash := slash_not_mem_name hname
  have hclosed : name ++ ['"'] <+: s ++ z := by
    refine List.IsPrefix.trans ?_ hprefix
    exact ⟨gap ++ ':' :: gap', by simp⟩
  have hrest : s = [] ∨ s = name ++ ['"'] := by
    rw [List.suffix_cons_iff] at hs
    rcases hs with hs | hs
    · have hs := (List.cons.inj hs).2
      rw [hs, List.append_assoc, List.singleton_append] at hclosed
      rw [hs, body_eq_name hbody hquote hslash hclosed]
      exact Or.inr rfl
    · exact suffix_body hbody hs hquote hslash hclosed
  rcases hrest with rfl | rfl
  · obtain ⟨d, u, rfl, hd⟩ := name_letter hname
    obtain ⟨v, rfl⟩ := hprefix
    exact Or.inl ⟨d, hd, _, rfl⟩
  · refine Or.inr ⟨name, hname, rfl, gap, hgap, ?_⟩
    have hrest : '"' :: (gap ++ ':' :: gap') <+: '"' :: z := by
      rwa [List.append_eq, List.append_assoc, List.prefix_append_right_inj] at hprefix
    exact List.IsPrefix.trans ⟨gap', by simp⟩ (List.cons_prefix_cons.mp hrest).2

end Tokens

section Lengths
variable {s : List Marked} {n : ℕ}

theorem stringLen_le (h : stringLen s = some n) : n ≤ s.length := by
  induction s using stringLen.induct generalizing n with
  | case1 => cases h
  | case2 a s hquote =>
    rw [stringLen_quote hquote] at h
    cases h
    simp
  | case3 a hquote hslash =>
    rw [stringLen.eq_def] at h
    simp [hslash] at h
  | case4 a hquote hslash b s ih =>
    rw [stringLen_slash hslash] at h
    obtain ⟨m, hm, rfl⟩ := Option.map_eq_some_iff.mp h
    have hle := ih hm
    simp only [List.length_cons]
    omega
  | case5 a s hquote hslash ih =>
    rw [stringLen_plain hquote hslash] at h
    obtain ⟨m, hm, rfl⟩ := Option.map_eq_some_iff.mp h
    have hle := ih hm
    simp only [List.length_cons]
    omega

theorem containerLen_le {depth : ℕ} {m : Mode} (h : containerLen depth m s = some n) : n ≤ s.length := by
  induction s generalizing depth m n with
  | nil => cases m <;> cases h
  | cons a s ih =>
    have hstep {depth : ℕ} {m : Mode} {n : ℕ} (h : (containerLen depth m s).map (· + 1) = some n) :
        n ≤ (a :: s).length := by
      obtain ⟨k, hk, rfl⟩ := Option.map_eq_some_iff.mp h
      have hle := ih hk
      simp only [List.length_cons]
      omega
    cases m with
    | escape => exact hstep h
    | string => exact hstep h
    | plain =>
      rw [containerLen] at h
      split_ifs at h
      · exact hstep h
      · exact hstep h
      · cases h
        simp
      · exact hstep h
      · exact hstep h

/-- Of a string, an array or an object the scan needs every symbol. -/
theorem valueLen_cut {a : Marked} {w q : List Marked} (ha : char a ∈ opening)
    (h : valueLen (a :: w) = some (a :: w).length) (hq : q <+: w) (hne : q ≠ w) :
    valueLen (a :: q) = none := by
  obtain ⟨r, rfl⟩ := hq
  have hr : r ≠ [] := by
    rintro rfl
    exact hne (List.append_nil q).symm
  have hpos := List.length_pos_iff.mpr hr
  cases hlen : valueLen (a :: q) with
  | none => rfl
  | some n =>
    exfalso
    rw [valueLen] at h hlen
    split_ifs at h hlen with hquote hbracket
    · obtain ⟨m, hm, rfl⟩ := Option.map_eq_some_iff.mp hlen
      have hle := stringLen_le hm
      rw [stringLen_append hm] at h
      simp only [Option.map_some, Option.some.injEq, List.length_cons, List.length_append] at h
      omega
    · have hle := containerLen_le hlen
      have hlonger := containerLen_append hlen r
      rw [List.cons_append, h] at hlonger
      simp only [Option.some.injEq, List.length_cons, List.length_append] at hlonger hle
      omega
    · simp only [opening, List.mem_cons, List.not_mem_nil, or_false] at ha
      tauto

end Lengths

section Values

/-- A value that may be cut: one that stays has no mark, nor has a word. -/
structure Guarded (v : List Marked) : Prop where
  stays : stays v = true → Clean v
  word : ∀ a ∈ v.head?, char a ∉ opening → Clean v

theorem cleanAfter_none {w : List Marked} (h : Clean w) : CleanAfter (w, none) :=
  ⟨h, fun t ht => by cases ht⟩

theorem maskJSONValue_cut {v p q : List Marked} (hv : Filled v p) (hguarded : Guarded v) (hq : q <+: v) :
    CleanAfter (maskJSONValue q) := by
  cases hv with
  | @word a w b p ha hspace hw hb =>
    exact clean_maskJSONValue ((hguarded.word a rfl ha).subset hq.subset)
  | @whole a w p ha h =>
    cases q with
    | nil => exact clean_maskJSONValue clean_nil
    | cons c q =>
      obtain ⟨rfl, hq'⟩ := List.cons_prefix_cons.mp hq
      by_cases hne : q = w
      · have hmask := (Filled.whole (p := []) ha h).maskJSONValue []
        rw [List.append_nil, List.append_nil] at hmask
        rw [hne, hmask]
        refine ⟨clean_masked.mpr hguarded.stays, ?_⟩
        rintro t ⟨⟩
        exact clean_nil
      · rw [maskJSONValue, valueLen_cut ha h hq' hne]
        exact cleanAfter_none (clean_write _)

theorem Filled.before {v p x : List Marked} (h : Filled v p) (hx : x <+: p) (hne : x ≠ []) : Filled v x := by
  cases h with
  | whole ha h => exact Filled.whole ha h
  | word ha hspace hw hb =>
    obtain ⟨c, x, rfl⟩ := List.exists_cons_of_ne_nil hne
    obtain ⟨rfl, -⟩ := List.cons_prefix_cons.mp hx
    exact Filled.word ha hspace hw hb

/-- The scan at a string of an object, whatever follows. -/
theorem cleanAfter_string {b r : List Marked} (hb : IsString b)
    (h : CleanAfter (maskJSONMember (b ++ r) b.length)) (fuel : ℕ)
    (hrest : ∀ t, (maskJSONMember (b ++ r) b.length).2 = some t → CleanAfter (maskJSONMembers fuel t)) :
    CleanAfter (maskJSONMembers (fuel + 1) (b ++ r)) := by
  cases hmember : maskJSONMember (b ++ r) b.length with
  | mk w next =>
    rw [hmember] at h hrest
    cases next with
    | some t =>
      rw [maskJSONMembers_string hb hmember]
      have ht := hrest t rfl
      exact ⟨clean_append.mpr ⟨h.1, ht.1⟩, ht.2⟩
    | none =>
      have hlen := (hb.filled []).valueLen r
      rw [List.nil_append] at hlen
      obtain ⟨a, u, rfl, ha, -⟩ := hb
      rw [List.cons_append] at hlen hmember ⊢
      rw [maskJSONMembers, if_neg (by rw [ha]; decide), if_pos ha, hlen]
      dsimp only
      rw [hmember]
      exact cleanAfter_none h.1

theorem NoColon.cut {s x t : List Marked} {c : Marked} (h : NoColon s) (hx : x <+: s ++ [lit '}'])
    (hc : (x.dropWhile fun a => isSpaceChar (char a)) = c :: t) : char c ≠ ':' := by
  obtain ⟨r, hr⟩ := hx
  have hdrop : ((s ++ [lit '}']).dropWhile fun a => isSpaceChar (char a)) = c :: (t ++ r) := by
    rw [← hr, List.dropWhile_append, hc]
    rfl
  rw [List.dropWhile_append] at hdrop
  unfold NoColon at h
  cases hs : s.dropWhile fun a => isSpaceChar (char a) with
  | nil =>
    rw [hs, List.isEmpty_nil, if_pos rfl, List.dropWhile_cons_of_neg (by rw [char_lit]; decide)] at hdrop
    rw [← (List.cons.inj hdrop).1, char_lit]
    decide
  | cons d u =>
    rw [hs, List.isEmpty_cons, if_neg Bool.false_ne_true] at hdrop
    rw [hs] at h
    rw [← (List.cons.inj hdrop).1]
    simpa using h (char d) rfl

theorem maskJSONMember_noColon {b r : List Marked} (hb : IsString b)
    (h : ∀ c t, (r.dropWhile fun a => isSpaceChar (char a)) = c :: t → char c ≠ ':') :
    maskJSONMember (b ++ r) b.length = (masked b, some r) := by
  have hmask := (hb.filled r).maskJSONValue []
  rw [List.append_nil] at hmask
  unfold maskJSONMember
  rw [List.drop_left]
  cases hdrop : r.dropWhile fun a => isSpaceChar (char a) with
  | nil => exact hmask
  | cons c t =>
    dsimp only
    rw [if_neg (h c t hdrop), hmask]

theorem prefix_append_cases {α : Type*} {p s t : List α} (h : p <+: s ++ t) :
    p <+: s ∨ ∃ q, p = s ++ q ∧ q <+: t ∧ q ≠ [] := by
  rcases List.prefix_or_prefix_of_prefix h (List.prefix_append s t) with hs | ⟨q, rfl⟩
  · exact Or.inl hs
  · by_cases hq : q = []
    · rw [hq, List.append_nil]
      exact Or.inl (List.prefix_refl s)
    · exact Or.inr ⟨q, rfl, (List.prefix_append_right_inj s).mp h, hq⟩

/-- A string that is cut takes the rest of the text with it. -/
theorem cleanAfter_cutString {b p : List Marked} (hb : IsString b) (hp : p <+: b) (hne : p ≠ b) (fuel : ℕ) :
    CleanAfter (maskJSONMembers fuel p) := by
  have hlen := (hb.filled []).valueLen []
  rw [List.append_nil, List.append_nil] at hlen
  obtain ⟨a, u, rfl, ha, -⟩ := hb
  cases fuel with
  | zero => exact cleanAfter_none clean_nil
  | succ fuel =>
    cases p with
    | nil => exact cleanAfter_none clean_nil
    | cons c p =>
      obtain ⟨rfl, hp'⟩ := List.cons_prefix_cons.mp hp
      have hcut : valueLen (c :: p) = none :=
        valueLen_cut (by simp [opening, ha]) hlen hp' fun h => hne (by rw [h])
      rw [maskJSONMembers, if_neg (by rw [ha]; decide), if_pos ha, hcut]
      exact cleanAfter_none clean_nil

/-- What is written for the first part of an object has no mark. -/
theorem Content.cut {vs : List (List Marked)} {s : List Marked} (h : Content vs s)
    (hguarded : ∀ v ∈ vs, Guarded v) : ∀ (p : List Marked) (fuel : ℕ), p <+: s ++ [lit '}'] →
      CleanAfter (Redact.maskJSONMembers fuel p) := by
  induction h with
  | nil =>
    intro p fuel hp
    refine clean_maskJSONMembers fuel (Clean.subset ?_ hp.subset)
    exact clean_cons.mpr ⟨rfl, clean_nil⟩
  | @skip a vs s hquote hbrace ha _ ih =>
    intro p fuel hp
    cases fuel with
    | zero => exact cleanAfter_none clean_nil
    | succ fuel =>
      cases p with
      | nil => exact cleanAfter_none clean_nil
      | cons b p =>
        obtain ⟨rfl, hp'⟩ := List.cons_prefix_cons.mp hp
        have hrest := ih hguarded p fuel hp'
        rw [Redact.maskJSONMembers.eq_def]
        simp only [hbrace, hquote, if_false]
        refine ⟨clean_append.mpr ⟨?_, hrest.1⟩, hrest.2⟩
        split_ifs with hkept
        · exact clean_cons.mpr ⟨ha hkept, clean_nil⟩
        · exact clean_nil
  | @text b vs s hb hs _ ih =>
    intro p fuel hp
    rw [List.forall_mem_cons] at hguarded
    rw [List.append_assoc] at hp
    have hwhole (x : List Marked) (hx : x <+: s ++ [lit '}']) :
        CleanAfter (Redact.maskJSONMembers fuel (b ++ x)) := by
      cases fuel with
      | zero => exact cleanAfter_none clean_nil
      | succ fuel =>
        have hmember := maskJSONMember_noColon hb fun c t hc => hs.cut hx hc
        have hrest := ih hguarded.2 x fuel hx
        rw [maskJSONMembers_string hb hmember]
        exact ⟨clean_append.mpr ⟨clean_masked.mpr hguarded.1.stays, hrest.1⟩, hrest.2⟩
    rcases prefix_append_cases hp with hp | ⟨x, rfl, hx, -⟩
    · by_cases hne : p = b
      · have hx := hwhole [] List.nil_prefix
        rwa [List.append_nil, ← hne] at hx
      · exact cleanAfter_cutString hb hp hne fuel
    · exact hwhole x hx
  | @entry key mid mid' v vs s hkey hclean hmid hmid' hv _ ih =>
    intro p fuel hp
    rw [List.forall_mem_cons] at hguarded
    have htext : key ++ (mid ++ lit ':' :: (mid' ++ (v ++ s))) ++ [lit '}'] =
        key ++ (mid ++ lit ':' :: mid') ++ (v ++ (s ++ [lit '}'])) := by simp
    have hhead : Clean (key ++ (mid ++ lit ':' :: mid')) := by
      rw [clean_append, clean_append, clean_cons]
      exact ⟨hclean, hmid.2, rfl, hmid'.2⟩
    have hafter {w : List Marked} (hw : Clean w) : Clean (key ++ (mid ++ lit ':' :: (mid' ++ w))) := by
      rw [clean_append, clean_append, clean_cons, clean_append]
      exact ⟨hclean, hmid.2, rfl, hmid'.2, hw⟩
    obtain ⟨a, w, rfl, ha⟩ := hv.head
    rw [htext] at hp
    rcases prefix_append_cases hp with hp | ⟨q, rfl, hq, hne⟩
    · exact clean_maskJSONMembers fuel (hhead.subset hp.subset)
    have hassoc : key ++ (mid ++ lit ':' :: mid') ++ q = key ++ (mid ++ lit ':' :: (mid' ++ q)) := by simp
    rw [hassoc]
    cases fuel with
    | zero => exact cleanAfter_none clean_nil
    | succ fuel =>
      rcases prefix_append_cases hq with hq | ⟨x, rfl, hx, hne'⟩
      · -- the text ends in the value
        obtain ⟨c, q, rfl⟩ := List.exists_cons_of_ne_nil hne
        obtain ⟨rfl, -⟩ := List.cons_prefix_cons.mp hq
        have hvalue := maskJSONValue_cut hv hguarded.1 hq
        have hmember := maskJSONMember_key key hmid.1 hmid'.1 (w := q) (isSpaceChar_of_class ha)
        refine cleanAfter_string hkey ?_ fuel ?_ <;> rw [hmember]
        · exact ⟨hafter hvalue.1, hvalue.2⟩
        · exact fun t ht => clean_maskJSONMembers fuel (hvalue.2 t ht)
      · have hmember := maskJSONMember_entry key hmid.1 hmid'.1 (hv.before hx hne') []
        rw [List.append_nil] at hmember
        have hrest := ih hguarded.2 x fuel hx
        rw [maskJSONMembers_string hkey hmember]
        exact ⟨clean_append.mpr ⟨hafter (clean_masked.mpr hguarded.1.stays), hrest.1⟩, hrest.2⟩

end Values

end Kubeast.Redact
