import Kubeast.LogSearch.LogQL

/-! What the scan reads, token by token, and what it writes. -/
namespace Kubeast.LogSearch

open Token

section Reading

theorem injectFrom_skip (added : List Char) (n : ℕ) (s : List Char) (st : State) :
    injectFrom added n s st = injectFrom added 0 (s.drop n) st := by
  induction s generalizing n with
  | nil => cases n <;> simp [injectFrom]
  | cons c s ih =>
    cases n with
    | zero => rfl
    | succ n => simpa [injectFrom] using ih n

/-- A literal that ends is its body, then the quote it started with. -/
theorem literalLenFrom_spec {quote : Char} {escaped : Bool} {i n : ℕ} {s : List Char}
    (hraw : escaped = true → quote ≠ '`') (h : literalLenFrom quote escaped i s = .ok n) :
    ∃ body r, s = body ++ quote :: r ∧ n = i + body.length + 1 ∧
      Body quote ((if escaped then ['\\'] else []) ++ body) := by
  induction s generalizing escaped i with
  | nil => cases escaped <;> simp [literalLenFrom] at h
  | cons c s ih =>
    cases escaped with
    | true =>
      have hq := hraw rfl
      rw [literalLenFrom] at h
      obtain ⟨body, r, rfl, rfl, hbody⟩ := ih (by simp) h
      rw [Body, if_neg hq] at hbody
      refine ⟨c :: body, r, rfl, by simp only [List.length_cons]; omega, ?_⟩
      rw [Body, if_neg hq]
      exact hbody.escape
    | false =>
      rw [literalLenFrom] at h
      split_ifs at h with hquote hslash hline
      · cases h
        refine ⟨[], s, by simp [hquote], rfl, ?_⟩
        by_cases hq : quote = '`'
        · simp [Body, hq]
        · simpa [Body, hq] using Escaped.nil
      · obtain ⟨body, r, rfl, rfl, hbody⟩ := ih (fun _ => hslash.2) h
        refine ⟨c :: body, r, rfl, by simp only [List.length_cons]; omega, ?_⟩
        simpa [hslash.1] using hbody
      · obtain ⟨body, r, rfl, rfl, hbody⟩ := ih (by simp) h
        refine ⟨c :: body, r, rfl, by simp only [List.length_cons]; omega, ?_⟩
        by_cases hq : quote = '`'
        · subst hq
          simpa [Body, Ne.symm hquote] using hbody
        · simp only [Body, hq, if_false, Bool.false_eq_true, List.nil_append] at hbody ⊢
          exact hbody.plain hquote (fun hc => hslash ⟨hc, hq⟩) (fun hc => hline ⟨hc, hq⟩)

/-- The first place a block comment can end. -/
theorem indexOf_spec {s : List Char} {n : ℕ} (h : indexOf ['*', '/'] s = some n) :
    ∃ body r, s = body ++ '*' :: '/' :: r ∧ n = body.length ∧ ¬['*', '/'] <:+: body ++ ['*'] := by
  induction s generalizing n with
  | nil => simp [indexOf] at h
  | cons c s ih =>
    rw [indexOf] at h
    split_ifs at h with hpre
    · cases h
      obtain ⟨r, hr⟩ := List.isPrefixOf_iff_prefix.mp hpre
      exact ⟨[], r, by simp [← hr], rfl, by decide⟩
    · obtain ⟨m, hm, rfl⟩ := Option.map_eq_some_iff.mp h
      obtain ⟨body, r, rfl, rfl, hbody⟩ := ih hm
      refine ⟨c :: body, r, rfl, rfl, ?_⟩
      rw [List.cons_append, List.infix_cons_iff]
      rintro (hstart | hlater)
      · apply hpre
        rw [List.isPrefixOf_iff_prefix]
        exact hstart.trans ⟨'/' :: r, by simp⟩
      · exact hbody hlater

/-- A line comment ends before the newline, or with the text. -/
theorem lineLen_spec (s : List Char) :
    ∃ line r, s = line ++ r ∧ lineLen s = line.length ∧ '\n' ∉ line ∧
      (r.head? = none ∨ r.head? = some '\n') := by
  induction s with
  | nil => exact ⟨[], [], rfl, rfl, List.not_mem_nil, .inl rfl⟩
  | cons c s ih =>
    by_cases hc : c = '\n'
    · exact ⟨[], c :: s, rfl, by simp [lineLen, hc], List.not_mem_nil, .inr (by simp [hc])⟩
    · obtain ⟨line, r, rfl, hlen, hline, hr⟩ := ih
      refine ⟨c :: line, r, rfl, ?_, ?_, hr⟩
      · simpa [lineLen, hc] using hlen
      · simpa [Ne.symm hc] using hline

/-- The rest of what is copied at once is skipped. -/
theorem injectFrom_past {c : Char} {s a r : List Char} (added : List Char) (st : State)
    (h : c :: s = a ++ r) (ha : a ≠ []) :
    injectFrom added (a.length - 1) s (st.copy ((c :: s).take a.length)) =
      injectFrom added 0 r (st.copy a) := by
  cases a with
  | nil => exact absurd rfl ha
  | cons d a =>
    obtain ⟨rfl, rfl⟩ := List.cons.inj h
    rw [injectFrom_skip]
    simp

/-- What one token does to the state. -/
def State.read (added : List Char) (st : State) : Token → Option State
  | .opening => if st.inSelector then none else some (st.enter added)
  | .closing => if st.inSelector then some (st.leave added) else none
  | t => some (st.copy t.text)

/-- The scan reads one token, then the rest. -/
theorem injectFrom_cons {added : List Char} {c : Char} {s : List Char} {st st' : State}
    (h : injectFrom added 0 (c :: s) st = .ok st') :
    ∃ t s' next, c :: s = t.text ++ s' ∧ t.WellFormed ∧ t.Ends s'.head? ∧
      st.read added t = some next ∧ injectFrom added 0 s' next = .ok st' := by
  rw [injectFrom] at h
  split_ifs at h with hline hblock hliteral hopen hin hclose hin
  · obtain ⟨line, r, hsplit, hlen, hnewline, hr⟩ := lineLen_spec (c :: s)
    have hstart : ['#'] <+: line ∨ ['/', '/'] <+: line := by
      rcases hline with rfl | ⟨rfl, hnext⟩
      · exact .inl (Text.prefix_of_lacking (by simp) hr (hsplit ▸ ⟨s, rfl⟩))
      · obtain ⟨s, rfl⟩ : ∃ s', s = '/' :: s' := by
          cases s with
          | nil => simp at hnext
          | cons d s => exact ⟨s, by simpa using hnext⟩
        exact .inr (Text.prefix_of_lacking (by simp) hr (hsplit ▸ ⟨s, rfl⟩))
    have hne : line ≠ [] := by
      rintro rfl
      simp at hstart
    rw [hlen, injectFrom_past added st hsplit hne] at h
    exact ⟨.line line, r, _, hsplit, ⟨hnewline, hstart⟩, hr, rfl, h⟩
  · obtain ⟨s, rfl⟩ : ∃ s', s = '*' :: s' := by
      cases s with
      | nil => simp at hblock
      | cons d s => exact ⟨s, by simpa using hblock.2⟩
    split at h
    · cases h
    · rename_i n hn
      obtain ⟨body, r, rfl, rfl, hbody⟩ := indexOf_spec hn
      have hsplit : c :: '*' :: (body ++ '*' :: '/' :: r) = ('/' :: '*' :: body ++ ['*', '/']) ++ r := by
        simp [hblock.1]
      have hpast := injectFrom_past added st hsplit (by simp)
      simp only [List.length_append, List.length_cons, List.length_nil] at hpast
      exact ⟨.block ('/' :: '*' :: body ++ ['*', '/']), r, _, hsplit, ⟨body, hbody, rfl⟩, trivial,
        rfl, hpast ▸ h⟩
  · split at h
    · cases h
    · rename_i n hn
      obtain ⟨body, r, rfl, rfl, hbody⟩ := literalLenFrom_spec (by simp) hn
      have hsplit : c :: (body ++ c :: r) = (c :: body ++ [c]) ++ r := by simp
      have hpast := injectFrom_past added st hsplit (by simp)
      have hlen : (c :: body ++ [c]).length = 1 + body.length + 1 := by
        simp only [List.length_append, List.length_cons, List.length_nil]
        omega
      rw [hlen] at hpast
      refine ⟨.literal (c :: body ++ [c]), r, _, hsplit, ⟨c, by simpa using hliteral, body, ?_, rfl⟩,
        trivial, rfl, hpast ▸ h⟩
      simpa using hbody
  · subst hopen
    exact ⟨.opening, s, _, rfl, trivial, trivial, by simp [State.read, hin], h⟩
  · subst hclose
    exact ⟨.closing, s, _, rfl, trivial, trivial, by simp [State.read, hin], h⟩
  · refine ⟨.char c, s, _, rfl, ?_, ?_, rfl, h⟩
    · simp only [not_or] at hline hliteral
      simp [WellFormed, special, hline.1, hliteral, hopen, hclose]
    · intro hc
      exact ⟨fun hs => hline (.inr ⟨hc, hs⟩), fun hs => hblock ⟨hc, hs⟩⟩

/-- Two states that differ in what is written only. -/
def Agree (st u : State) : Prop := u.inSelector = st.inSelector ∧ u.selectors = st.selectors

/-- Whether a query is rewritten, and how many selectors it has, does not depend on what is added. -/
theorem injectFrom_agree {added added' : List Char} {skip : ℕ} {s : List Char} {st st' u : State}
    (hagree : Agree st u) (h : injectFrom added skip s st = .ok st') :
    ∃ u', injectFrom added' skip s u = .ok u' ∧ Agree st' u' := by
  fun_induction injectFrom added skip s st generalizing u with
  | case1 =>
    cases h
    exact ⟨u, by simp [injectFrom], hagree⟩
  | case2 skip c s st ih => exact ih hagree h
  | case3 c s st hline ih =>
    rw [injectFrom, if_pos hline]
    exact ih hagree h
  | case4 | case6 | case8 | case11 => cases h
  | case5 c s st hline hblock n hn ih =>
    rw [injectFrom, if_neg hline, if_pos hblock, hn]
    exact ih hagree h
  | case7 c s st hline hblock hliteral n hn ih =>
    rw [injectFrom, if_neg hline, if_neg hblock, if_pos hliteral, hn]
    exact ih hagree h
  | case9 s st hin _ _ _ ih =>
    obtain ⟨hagree, hselectors⟩ := hagree
    have hnext : Agree (st.enter added) (u.enter added') := ⟨rfl, hselectors⟩
    obtain ⟨u', hu', hagree'⟩ := ih hnext h
    refine ⟨u', ?_, hagree'⟩
    rw [← hu', injectFrom]
    simp [hagree, hin]
  | case10 s st hin _ _ _ _ ih =>
    obtain ⟨hagree, hselectors⟩ := hagree
    have hnext : Agree (st.leave added) (u.leave added') := ⟨rfl, congrArg (· + 1) hselectors⟩
    obtain ⟨u', hu', hagree'⟩ := ih hnext h
    refine ⟨u', ?_, hagree'⟩
    rw [← hu', injectFrom]
    simp [hagree, hin]
  | case12 c s st hline hblock hliteral hopen hclose ih =>
    rw [injectFrom, if_neg hline, if_neg hblock, if_neg hliteral, if_neg hopen, if_neg hclose]
    exact ih hagree h

end Reading

/-- A stream selector, and what stands before it. -/
structure Selector where
  before : List Token
  body : List Token
  plain_before : ∀ t ∈ before, ¬t.IsBrace
  plain_body : ∀ t ∈ body, ¬t.IsBrace

def Selector.written (p : Selector) : List Token := p.before ++ .opening :: p.body ++ [.closing]

def matcherTokens (tables : Text.CharTables) (m : Matcher) : List Token :=
  m.name.toList.map .char ++ (if m.not_ then [.char '!'] else []) ++
    [.char '=', .literal (quote tables m.value)]

def addedTokens (tables : Text.CharTables) (matchers : List Matcher) : List Token :=
  [.char ',', .char ' '].intercalate (matchers.map (matcherTokens tables))

/-- A selector's body, when it holds anything but blanks, and the comma before it. -/
def keptBody (matchers : List Matcher) (body : List Token) : List Token :=
  if (textOf body).all Text.isSpace then []
  else (if matchers = [] then [] else [.char ',', .char ' ']) ++ body

def Selector.scoped (tables : Text.CharTables) (matchers : List Matcher) (p : Selector) : List Token :=
  p.before ++ .opening :: (addedTokens tables matchers ++ keptBody matchers p.body) ++ [.closing]

section Run

variable (tables : Text.CharTables) (matchers : List Matcher)

theorem textOf_matcherTokens (m : Matcher) :
    textOf (matcherTokens tables m) = matcherText tables m := by
  have hchars : ∀ s : List Char, textOf (s.map .char) = s := by
    intro s
    induction s with
    | nil => rfl
    | cons c s ih => rw [List.map_cons, textOf_cons, ih, text, List.singleton_append]
  unfold matcherTokens matcherText
  cases m.not_ <;> simp [hchars, text]

theorem textOf_addedTokens :
    textOf (addedTokens tables matchers) = addedText tables matchers := by
  unfold addedTokens addedText
  induction matchers with
  | nil => rfl
  | cons m ms ih =>
    cases ms with
    | nil => simp [textOf_matcherTokens]
    | cons m' ms =>
      simp only [List.map_cons, List.intercalate_cons_cons, textOf_append,
        textOf_matcherTokens] at ih ⊢
      rw [ih]
      rfl

theorem addedText_eq_nil : addedText tables matchers = [] ↔ matchers = [] := by
  constructor
  · intro h
    match matchers, h with
    | [], _ => rfl
    | [m], h => simp [addedText, matcherText] at h
    | m :: m' :: ms, h => simp [addedText, List.intercalate_cons_cons] at h
  · rintro rfl
    rfl

theorem textOf_keptBody (body : List Token) :
    textOf (keptBody matchers body) = State.separated (addedText tables matchers) (textOf body) := by
  unfold keptBody State.separated
  by_cases hm : matchers = [] <;> split <;> simp [addedText_eq_nil, hm, text]

/-- The state after some tokens of the query have been read. -/
inductive Scanned : State → List Token → Prop
  | outside (parts : List Selector) {tail : List Token} (start : ℕ)
      (plain : ∀ t ∈ tail, ¬t.IsBrace) :
      Scanned ⟨textOf (parts.flatMap (Selector.scoped tables matchers) ++ tail), parts.length, false,
          start⟩
        (parts.flatMap Selector.written ++ tail)
  | inside (parts : List Selector) {before body : List Token} (out : List Char)
      (plain_before : ∀ t ∈ before, ¬t.IsBrace) (plain_body : ∀ t ∈ body, ¬t.IsBrace)
      (written : out = textOf (parts.flatMap (Selector.scoped tables matchers) ++ before ++
        .opening :: addedTokens tables matchers)) :
      Scanned ⟨out ++ textOf body, parts.length, true, out.length⟩
        (parts.flatMap Selector.written ++ before ++ .opening :: body)

theorem read_plain {added : List Char} {st : State} {t : Token} (h : ¬t.IsBrace) :
    st.read added t = some (st.copy t.text) := by
  cases t with
  | opening => exact absurd trivial h
  | closing => exact absurd trivial h
  | _ => rfl

theorem plain_snoc {ts : List Token} {t : Token} (hts : ∀ u ∈ ts, ¬u.IsBrace) (ht : ¬t.IsBrace) :
    ∀ u ∈ ts ++ [t], ¬u.IsBrace := by
  intro u hu
  rcases List.mem_append.mp hu with hu | hu
  · exact hts u hu
  · rwa [List.mem_singleton.mp hu]

variable {tables matchers} in
/-- One more token, outside a selector: text, or a selector's start. -/
theorem Scanned.read_outside {parts : List Selector} {tail : List Token} {start : ℕ} {next : State}
    {t : Token} (plain : ∀ t ∈ tail, ¬t.IsBrace)
    (h : State.read (addedText tables matchers)
      ⟨textOf (parts.flatMap (Selector.scoped tables matchers) ++ tail), parts.length, false, start⟩
      t = some next) :
    Scanned tables matchers next (parts.flatMap Selector.written ++ tail ++ [t]) := by
  by_cases ht : t.IsBrace
  · cases t with
    | opening =>
      simp only [State.read, Bool.false_eq_true, if_false, Option.some.injEq] at h
      subst h
      have hbody : ∀ t ∈ ([] : List Token), ¬t.IsBrace := by simp
      have hin : Scanned tables matchers _ _ := .inside parts _ plain hbody rfl
      simpa [State.enter, text, textOf_addedTokens] using hin
    | closing => simp [State.read] at h
    | _ => exact absurd ht id
  · rw [read_plain ht, Option.some.injEq] at h
    subst h
    have hout : Scanned tables matchers _ _ := .outside parts start (plain_snoc plain ht)
    simpa [State.copy] using hout

variable {tables matchers} in
/-- One more token, inside a selector: text, or the selector's end. -/
theorem Scanned.read_inside {parts : List Selector} {before body : List Token} {out : List Char}
    {next : State} {t : Token} (plain_before : ∀ t ∈ before, ¬t.IsBrace)
    (plain_body : ∀ t ∈ body, ¬t.IsBrace)
    (written : out = textOf (parts.flatMap (Selector.scoped tables matchers) ++ before ++
      .opening :: addedTokens tables matchers))
    (h : State.read (addedText tables matchers)
      ⟨out ++ textOf body, parts.length, true, out.length⟩ t = some next) :
    Scanned tables matchers next
      (parts.flatMap Selector.written ++ before ++ .opening :: body ++ [t]) := by
  by_cases ht : t.IsBrace
  · cases t with
    | opening => simp [State.read] at h
    | closing =>
      simp only [State.read, if_true, Option.some.injEq] at h
      subst h
      have htail : ∀ t ∈ ([] : List Token), ¬t.IsBrace := by simp
      have hout : Scanned tables matchers _ _ :=
        .outside (parts ++ [⟨before, body, plain_before, plain_body⟩]) out.length htail
      simp only [State.leave, State.body, List.take_left, List.drop_left]
      simpa [Selector.written, Selector.scoped, written, text,
        textOf_keptBody tables] using hout
    | _ => exact absurd ht id
  · rw [read_plain ht, Option.some.injEq] at h
    subst h
    have hin : Scanned tables matchers _ _ :=
      .inside parts out plain_before (plain_snoc plain_body ht) written
    simpa [State.copy] using hin

variable {tables matchers} in
theorem Scanned.read {st next : State} {ts : List Token} {t : Token}
    (hst : Scanned tables matchers st ts)
    (h : st.read (addedText tables matchers) t = some next) :
    Scanned tables matchers next (ts ++ [t]) := by
  cases hst with
  | outside parts start plain => exact Scanned.read_outside plain h
  | inside parts out plain_before plain_body written =>
    exact Scanned.read_inside plain_before plain_body written h

variable {tables matchers} in
/-- A whole scan reads the rest of the query. -/
theorem Scanned.run {s : List Char} {st st' : State} {ts : List Token}
    (hst : Scanned tables matchers st ts)
    (h : injectFrom (addedText tables matchers) 0 s st = .ok st') :
    ∃ us, Reads s us ∧ Scanned tables matchers st' (ts ++ us) := by
  induction hlen : s.length using Nat.strong_induction_on generalizing s st ts with
  | _ n ih =>
    cases s with
    | nil =>
      rw [injectFrom] at h
      cases h
      exact ⟨[], ⟨rfl, trivial⟩, by simpa using hst⟩
    | cons c s =>
      obtain ⟨t, s', next, hs, ht, hends, hread, hrest⟩ := injectFrom_cons h
      have hshort : s'.length < n := by
        have htext := List.length_pos_of_ne_nil (text_ne_nil ht)
        rw [← hlen, hs, List.length_append]
        omega
      obtain ⟨us, hus, hst'⟩ := ih _ hshort (hst.read hread) hrest rfl
      refine ⟨t :: us, ⟨?_, ht, ?_, hus.2⟩, by simpa using hst'⟩
      · rw [textOf_cons, hus.1, hs]
      · rwa [hus.1, Option.or_none]

end Run

end Kubeast.LogSearch
