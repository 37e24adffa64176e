import Kubeast.LogSearch.Scoped
import Mathlib.Data.Bool.AllAny

/-! What the rules read the rewritten query as. -/
namespace Kubeast.LogSearch

open Token

section Quote

theorem Escaped.append {quote : Char} {a b : List Char} (ha : Escaped quote a)
    (hb : Escaped quote b) : Escaped quote (a ++ b) := by
  induction ha with
  | nil => exact hb
  | plain hquote hslash hline _ ih => exact ih.plain hquote hslash hline
  | escape _ ih => exact ih.escape

/-- A literal's body on one line. -/
def OneLine (s : List Char) : Prop := Escaped '"' s ∧ '\n' ∉ s

theorem OneLine.append {a b : List Char} (ha : OneLine a) (hb : OneLine b) : OneLine (a ++ b) :=
  ⟨ha.1.append hb.1, by simp [ha.2, hb.2]⟩

theorem OneLine.escape {c : Char} {s : List Char} (hc : c ≠ '\n') (hs : OneLine s) :
    OneLine ('\\' :: c :: s) :=
  ⟨hs.1.escape, by simp [hs.2, Ne.symm hc]⟩

theorem oneLine_nil : OneLine [] := ⟨.nil, List.not_mem_nil⟩

theorem oneLine_plain {s : List Char} (h : ∀ c ∈ s, c ≠ '"' ∧ c ≠ '\\' ∧ c ≠ '\n') :
    OneLine s := by
  induction s with
  | nil => exact oneLine_nil
  | cons c s ih =>
    obtain ⟨hquote, hslash, hline⟩ := h c List.mem_cons_self
    obtain ⟨hs, hmem⟩ := ih fun d hd => h d (List.mem_cons_of_mem c hd)
    exact ⟨hs.plain hquote hslash hline, by simp [hmem, Ne.symm hline]⟩

theorem escapes_line : ∀ d ∈ Text.escapes, d ≠ '\n' := List.all_iff_forall_prop.mp (by decide)

theorem hexDigits_plain : ∀ d ∈ Text.hexDigits, d ≠ '"' ∧ d ≠ '\\' ∧ d ≠ '\n' :=
  List.all_iff_forall_prop.mp (by decide)

theorem oneLine_hex {w : List Char} (h : ∀ x ∈ w, x ∈ Text.hexDigits) : OneLine w :=
  oneLine_plain fun x hx => hexDigits_plain x (h x hx)

variable {tables : Text.CharTables} (hline : tables.isPrint '\n' = false)
include hline

/-- A quoted rune is on one line, whatever the rune is. -/
theorem oneLine_quoteRune (c : Rune) : OneLine (quoteRune tables c) := by
  cases c with
  | inr b => exact (oneLine_hex (Text.hex_digits 2 b.toNat)).escape (by decide)
  | inl c =>
    rw [quoteRune]
    rcases Text.quoteRune_quoted tables c with ⟨htext, hquote, hslash, hprint⟩ | ⟨d, w, htext, hd, hw⟩
    · have hc : c ≠ '\n' := by
        rintro rfl
        simp [hline] at hprint
      rw [htext]
      apply oneLine_plain
      simp [hquote, hslash, hc]
    · rw [htext]
      exact (oneLine_hex hw).escape (escapes_line d hd)

theorem oneLine_quoted (v : List Rune) : OneLine (v.flatMap (quoteRune tables)) := by
  induction v with
  | nil => exact oneLine_nil
  | cons c v ih => exact (oneLine_quoteRune hline c).append ih

theorem literal_quote (v : List Rune) : (literal (quote tables v)).WellFormed := by
  refine ⟨'"', by simp, v.flatMap (quoteRune tables), ?_, rfl⟩
  exact (oneLine_quoted hline v).1

end Quote

section Output

/-- A label name without a character of another token. -/
def PlainName (name : String) : Prop := ∀ c ∈ name.toList, c ∉ special ∧ c ≠ '/'

theorem chain_plain {s : List Char} (h : ∀ c ∈ s, c ∉ special ∧ c ≠ '/') (next : Option Char) :
    Chain (s.map .char) next := by
  induction s with
  | nil => trivial
  | cons c s ih =>
    obtain ⟨hc, hslash⟩ := h c List.mem_cons_self
    exact ⟨hc, fun heq => absurd heq hslash, ih fun d hd => h d (List.mem_cons_of_mem c hd)⟩

theorem chain_comma (next : Option Char) : Chain [Token.char ',', Token.char ' '] next :=
  chain_plain (List.all_iff_forall_prop.mp (by decide) : ∀ c ∈ [',', ' '], c ∉ special ∧ c ≠ '/') next

variable {tables : Text.CharTables} {matchers : List Matcher}

section Added

variable (hline : tables.isPrint '\n' = false)
include hline

theorem chain_matcherTokens {m : Matcher} (hname : PlainName m.name) (next : Option Char) :
    Chain (matcherTokens tables m) next := by
  have hnot : ∀ next, Chain (if m.not_ then [.char '!'] else []) next := by
    intro next
    split
    · exact chain_plain (List.all_iff_forall_prop.mp (by decide) : ∀ c ∈ ['!'], c ∉ special ∧ c ≠ '/') next
    · trivial
  have hequals : ∀ next, Chain [.char '='] next :=
    chain_plain (List.all_iff_forall_prop.mp (by decide) : ∀ c ∈ ['='], c ∉ special ∧ c ≠ '/')
  have hvalue : Chain [.literal (quote tables m.value)] next :=
    ⟨literal_quote hline m.value, trivial, trivial⟩
  rw [matcherTokens, chain_append, chain_append]
  exact ⟨⟨chain_plain hname _, hnot _⟩, chain_append.mpr ⟨hequals _, hvalue⟩⟩

/-- The added matchers end with a literal, or are none: what follows does not change them. -/
theorem chain_addedTokens (hnames : ∀ m ∈ matchers, PlainName m.name) (next : Option Char) :
    Chain (addedTokens tables matchers) next := by
  induction matchers with
  | nil => trivial
  | cons m ms ih =>
    have hm := hnames m List.mem_cons_self
    have hms := ih fun m' hm' => hnames m' (List.mem_cons_of_mem m hm')
    cases ms with
    | nil =>
      rw [addedTokens, List.map_singleton, List.intercalate_singleton]
      exact chain_matcherTokens hline hm next
    | cons m' ms =>
      rw [addedTokens, List.map_cons, List.map_cons, List.intercalate_cons_cons, chain_append,
        chain_append]
      exact ⟨⟨chain_matcherTokens hline hm _, chain_comma _⟩, hms⟩

end Added

theorem chain_keptBody {body : List Token} {next : Option Char} (h : Chain body next) :
    Chain (keptBody matchers body) next := by
  unfold keptBody
  split
  · trivial
  · split
    · exact h
    · rw [chain_append]
      exact ⟨chain_comma _, h⟩

theorem chain_written {p : Selector} {ts : List Token} {next : Option Char} :
    Chain (p.written ++ ts) next ↔
      Chain p.before (some '{') ∧ Chain p.body (some '}') ∧ Chain ts next := by
  rw [Selector.written, chain_append, chain_append]
  simp only [Chain, chain_append]
  simp [text, WellFormed, Ends, and_assoc]

theorem chain_scoped {p : Selector} {ts : List Token} {next : Option Char}
    (hadded : ∀ next, Chain (addedTokens tables matchers) next)
    (hbefore : Chain p.before (some '{')) (hbody : Chain p.body (some '}')) (hts : Chain ts next) :
    Chain (p.scoped tables matchers ++ ts) next := by
  have hkept : Chain (keptBody matchers p.body) (some '}') := chain_keptBody hbody
  rw [Selector.scoped, chain_append, chain_append]
  simp only [Chain, chain_append]
  simpa [text, WellFormed, Ends, hbefore, hkept, hts] using hadded _

/-- The rewritten query is read as it was meant. -/
theorem chain_output (hadded : ∀ next, Chain (addedTokens tables matchers) next)
    {parts : List Selector} {tail : List Token} {next : Option Char}
    (h : Chain (parts.flatMap Selector.written ++ tail) next) :
    Chain (parts.flatMap (Selector.scoped tables matchers) ++ tail) next := by
  induction parts with
  | nil => exact h
  | cons p parts ih =>
    rw [List.flatMap_cons, List.append_assoc] at h ⊢
    obtain ⟨hbefore, hbody, hrest⟩ := chain_written.mp h
    exact chain_scoped hadded hbefore hbody (ih hrest)

end Output

section Count

variable {sub : List Char}

theorem count_skip (skip : ℕ) (s : List Char) : count sub skip s = count sub 0 (s.drop skip) := by
  induction s generalizing skip with
  | nil => cases skip <;> simp [count]
  | cons c s ih =>
    cases skip with
    | zero => rfl
    | succ skip => simpa [count] using ih skip

theorem count_hit {c : Char} {s : List Char} (h : sub <+: c :: s) :
    count sub 0 (c :: s) = 1 + count sub 0 (s.drop (sub.length - 1)) := by
  rw [count, if_pos (List.isPrefixOf_iff_prefix.mpr h), count_skip]

theorem count_miss {c : Char} {s : List Char} (h : ¬sub <+: c :: s) :
    count sub 0 (c :: s) = count sub 0 s := by
  rw [count, if_neg fun hpre => h (List.isPrefixOf_iff_prefix.mp hpre)]

theorem count_eq_zero {s : List Char} (h : ¬sub <:+: s) : count sub 0 s = 0 := by
  induction s with
  | nil => rfl
  | cons c s ih =>
    rw [List.infix_cons_iff, not_or] at h
    rw [count_miss h.1, ih h.2]

/-- Nothing counted reaches over a character that the counted text lacks. -/
theorem count_append {d : Char} (hne : sub ≠ []) (hd : d ∉ sub) (s r : List Char) :
    count sub 0 (s ++ d :: r) = count sub 0 s + count sub 0 r := by
  have hcut : ∀ {s}, sub <+: s ++ d :: r → sub <+: s := Text.prefix_of_lacking hd (.inr rfl)
  induction hlen : s.length using Nat.strong_induction_on generalizing s with
  | _ n ih =>
    cases s with
    | nil =>
      have hmiss : ¬sub <+: d :: r := fun h => hne (List.prefix_nil.mp (hcut h))
      rw [List.nil_append, count_miss hmiss, count, Nat.zero_add]
    | cons c s =>
      rw [List.length_cons] at hlen
      rw [List.cons_append]
      by_cases hstart : sub <+: c :: s
      · have hshort : sub.length - 1 ≤ s.length := by
          have hsub := hstart.length_le
          rw [List.length_cons] at hsub
          omega
        have hrest := ih _ (by rw [List.length_drop]; omega) (s.drop (sub.length - 1)) rfl
        have hstart' : sub <+: c :: (s ++ d :: r) := hstart.trans ⟨d :: r, rfl⟩
        rw [count_hit hstart, count_hit hstart',
          List.drop_append_of_le_length hshort, hrest]
        omega
      · have hstart' : ¬sub <+: c :: (s ++ d :: r) := fun h => hstart (hcut h)
        rw [count_miss hstart, count_miss hstart', ih _ (by omega) _ rfl]

variable {tables : Text.CharTables}

theorem addedText_countMatcher (hone : tables.isPrint '1' = true) :
    addedText tables [countMatcher] = countText := by
  have hdigit : Text.quoteRune tables '1' = "1" := by
    rw [Text.quoteRune, if_neg (by decide), if_neg (by decide), if_pos hone]
    rfl
  have hvalue : quote tables [.inl '1'] = ['"', '1', '"'] := by
    simp [quote, quoteRune, hdigit]
  rw [addedText, List.map_singleton, List.intercalate_singleton, matcherText]
  unfold countMatcher
  dsimp only
  rw [hvalue]
  decide

/-- The counted text stands once in every selector, and nowhere else. -/
theorem count_scoped (hone : tables.isPrint '1' = true) {parts : List Selector} {tail : List Token}
    (h : ¬countText <:+: textOf (parts.flatMap Selector.written ++ tail)) :
    count countText 0 (textOf (parts.flatMap (Selector.scoped tables [countMatcher]) ++ tail)) =
      parts.length := by
  have hcut : ∀ d, d ∉ countText → ∀ s r : List Char,
      count countText 0 (s ++ d :: r) = count countText 0 s + count countText 0 r :=
    fun d hd => count_append (by decide) hd
  induction parts with
  | nil => exact count_eq_zero h
  | cons p parts ih =>
    rw [List.flatMap_cons, List.append_assoc, textOf_append] at h
    have hrest := ih fun hin => h (hin.trans (List.suffix_append _ _).isInfix)
    have hbefore : count countText 0 (textOf p.before) = 0 := by
      apply count_eq_zero
      intro hin
      apply h
      have hwritten : textOf p.before <:+: textOf p.written := by
        rw [Selector.written, List.append_assoc, textOf_append]
        exact (List.prefix_append _ _).isInfix
      exact (hin.trans hwritten).trans (List.prefix_append _ _).isInfix
    have hbody : count countText 0 (textOf p.body) = 0 := by
      apply count_eq_zero
      intro hin
      apply h
      have hwritten : textOf p.body <:+: textOf p.written :=
        ⟨textOf p.before ++ ['{'], ['}'], by simp [Selector.written, text]⟩
      exact (hin.trans hwritten).trans (List.prefix_append _ _).isInfix
    have hkept : count countText 0 (countText ++ textOf (keptBody [countMatcher] p.body)) = 1 := by
      unfold keptBody
      split
      · decide
      · have hcomma : textOf ((if [countMatcher] = [] then [] else [Token.char ',', Token.char ' ']) ++ p.body) =
            ',' :: ([] ++ ' ' :: textOf p.body) := by
          simp [text]
        rw [hcomma, hcut ',' (by decide), hcut ' ' (by decide), hbody]
        decide
    have hscoped : textOf (p.scoped tables [countMatcher]) =
        textOf p.before ++ '{' :: (countText ++ textOf (keptBody [countMatcher] p.body) ++ ['}']) := by
      simp [Selector.scoped, text, textOf_addedTokens, addedText_countMatcher hone]
    rw [List.flatMap_cons, List.append_assoc, textOf_append, hscoped]
    simp only [List.append_assoc, List.cons_append, List.nil_append]
    rw [hcut '{' (by decide), ← List.append_assoc, hcut '}' (by decide), hbefore, hkept, hrest,
      List.length_cons]
    omega

/-- Selectors are counted by their opening braces. -/
theorem count_opening {parts : List Selector} {tail : List Token} (plain : ∀ t ∈ tail, ¬t.IsBrace) :
    (parts.flatMap Selector.written ++ tail).count .opening = parts.length := by
  have hzero : ∀ {ts : List Token}, (∀ t ∈ ts, ¬t.IsBrace) → ts.count .opening = 0 := by
    intro ts hts
    exact List.count_eq_zero.mpr fun hmem => hts _ hmem trivial
  induction parts with
  | nil => exact hzero plain
  | cons p parts ih =>
    have hwritten : p.written.count .opening = 1 := by
      simp [Selector.written, hzero p.plain_before, hzero p.plain_body]
    rw [List.flatMap_cons, List.append_assoc, List.count_append, ih, hwritten, List.length_cons,
      Nat.add_comm]

end Count

section Kept

variable {tables : Text.CharTables} {matchers : List Matcher}

theorem chain_wellFormed {ts : List Token} {next : Option Char} (h : Chain ts next) :
    ∀ t ∈ ts, t.WellFormed := by
  induction ts generalizing next with
  | nil => simp
  | cons t ts ih =>
    obtain ⟨ht, -, hts⟩ := h
    exact List.forall_mem_cons.mpr ⟨ht, ih hts⟩

/-- No literal or comment is blank. -/
theorem not_blank {t : Token} (h : t.WellFormed) (hverbatim : t.IsVerbatim) :
    t.text.all Text.isSpace = false := by
  have hhead : ∀ c s, Text.isSpace c = false → (c :: s).all Text.isSpace = false := by
    intro c s hc
    simp [hc]
  cases t with
  | literal s =>
    obtain ⟨quote, hquote, body, -, rfl⟩ := h
    simp only [List.mem_cons, List.not_mem_nil, or_false] at hquote
    rcases hquote with rfl | rfl | rfl <;> exact hhead _ _ (by decide)
  | line s =>
    obtain ⟨-, ⟨r, rfl⟩ | ⟨r, rfl⟩⟩ := h
    · exact hhead '#' r (by decide)
    · exact hhead '/' ('/' :: r) (by decide)
  | block s =>
    obtain ⟨body, -, rfl⟩ := h
    exact hhead '/' _ (by decide)
  | _ => exact absurd hverbatim id

theorem mem_keptBody {body : List Token} {t : Token} (ht : t.WellFormed) (hverbatim : t.IsVerbatim)
    (hmem : t ∈ body) : t ∈ keptBody matchers body := by
  rw [keptBody, if_neg]
  · exact List.mem_append_right _ hmem
  · intro hblank
    have hall : t.text.all Text.isSpace = true := by
      rw [textOf, List.all_flatMap, List.all_eq_true] at hblank
      exact hblank t hmem
    rw [not_blank ht hverbatim] at hall
    cases hall

/-- Literals and comments are kept. -/
theorem mem_output {parts : List Selector} {tail : List Token} {t : Token} (ht : t.WellFormed)
    (hverbatim : t.IsVerbatim) (hmem : t ∈ parts.flatMap Selector.written ++ tail) :
    t ∈ parts.flatMap (Selector.scoped tables matchers) ++ tail := by
  rcases List.mem_append.mp hmem with hmem | hmem
  · obtain ⟨p, hp, hmem⟩ := List.mem_flatMap.mp hmem
    apply List.mem_append_left
    apply List.mem_flatMap.mpr
    use p, hp
    simp only [Selector.written, List.mem_append, List.mem_cons, List.not_mem_nil,
      or_false] at hmem
    simp only [Selector.scoped, List.mem_append, List.mem_cons, List.not_mem_nil, or_false]
    rcases hmem with (hbefore | rfl | hbody) | rfl
    · exact .inl (.inl hbefore)
    · exact absurd hverbatim id
    · exact .inl (.inr (.inr (.inr (mem_keptBody ht hverbatim hbody))))
    · exact absurd hverbatim id
  · exact List.mem_append_right _ hmem

end Kept

section Straight

/-- A literal with no newline, unless it is raw. -/
def Token.Straight : Token → Prop
  | literal s => ['`'] <+: s ∨ '\n' ∉ s
  | _ => True

theorem escaped_newline {quote : Char} {s : List Char} (h : Escaped quote s) (hmem : '\n' ∈ s) :
    ['\\', '\n'] <:+: s := by
  induction h with
  | nil => cases hmem
  | @plain c s _ _ hline _ ih =>
    have hs : '\n' ∈ s := by simpa [Ne.symm hline] using hmem
    exact (ih hs).trans (List.suffix_cons c s).isInfix
  | @escape c s _ ih =>
    by_cases hc : c = '\n'
    · exact ⟨[], s, by simp [hc]⟩
    · have hs : '\n' ∈ s := by simpa [Ne.symm hc] using hmem
      exact (ih hs).trans (List.suffix_append ['\\', c] s).isInfix

theorem straight_of_text {t : Token} (h : t.WellFormed) (htext : ¬['\\', '\n'] <:+: t.text) :
    t.Straight := by
  cases t with
  | literal s =>
    obtain ⟨quote, hquote, body, hbody, rfl⟩ := h
    by_cases hraw : quote = '`'
    · exact .inl ⟨body ++ ['`'], by simp [hraw]⟩
    · rw [Body, if_neg hraw] at hbody
      right
      intro hmem
      have hne : '\n' ≠ quote := by
        rintro rfl
        simp at hquote
      have hin : '\n' ∈ body := by simpa [hne] using hmem
      exact htext ((escaped_newline hbody hin).trans (List.infix_append [quote] body [quote]))
  | _ => trivial

variable {tables : Text.CharTables} {matchers : List Matcher}

theorem straight_added (hline : tables.isPrint '\n' = false) :
    ∀ t ∈ addedTokens tables matchers, t.Straight := by
  have hmatcher : ∀ m, ∀ t ∈ matcherTokens tables m, t.Straight := by
    intro m t ht
    simp only [matcherTokens, List.mem_append, List.mem_map, List.mem_cons, List.not_mem_nil,
      or_false] at ht
    rcases ht with (⟨c, -, rfl⟩ | hnot) | rfl | rfl
    · trivial
    · split at hnot
      · rw [List.mem_singleton.mp hnot]
        trivial
      · cases hnot
    · trivial
    · right
      simp [quote, (oneLine_quoted hline m.value).2]
  induction matchers with
  | nil => simp [addedTokens]
  | cons m ms ih =>
    intro t ht
    cases ms with
    | nil =>
      rw [addedTokens, List.map_singleton, List.intercalate_singleton] at ht
      exact hmatcher m t ht
    | cons m' ms =>
      rw [addedTokens, List.map_cons, List.map_cons, List.intercalate_cons_cons, List.mem_append,
        List.mem_append] at ht
      rcases ht with (ht | ht) | ht
      · exact hmatcher m t ht
      · simp only [List.mem_cons, List.not_mem_nil, or_false] at ht
        rcases ht with rfl | rfl <;> trivial
      · exact ih t ht

/-- Every token of the output is of the query, or is added. -/
theorem straight_output (hline : tables.isPrint '\n' = false) {parts : List Selector}
    {tail : List Token} (h : ∀ t ∈ parts.flatMap Selector.written ++ tail, t.Straight) :
    ∀ t ∈ parts.flatMap (Selector.scoped tables matchers) ++ tail, t.Straight := by
  intro t ht
  rcases List.mem_append.mp ht with hmem | hmem
  · obtain ⟨p, hp, hmem⟩ := List.mem_flatMap.mp hmem
    have hof : ∀ u ∈ p.written, u.Straight := fun u hu =>
      h u (List.mem_append_left _ (List.mem_flatMap.mpr ⟨p, hp, hu⟩))
    simp only [Selector.scoped, List.mem_append, List.mem_cons, List.not_mem_nil, or_false] at hmem
    rcases hmem with (hbefore | rfl | hadded | hkept) | rfl
    · exact hof t (by simp [Selector.written, hbefore])
    · trivial
    · exact straight_added hline t hadded
    · rw [keptBody] at hkept
      split at hkept
      · cases hkept
      · rcases List.mem_append.mp hkept with hcomma | hbody
        · split at hcomma
          · cases hcomma
          · simp only [List.mem_cons, List.not_mem_nil, or_false] at hcomma
            rcases hcomma with rfl | rfl <;> trivial
        · exact hof t (by simp [Selector.written, hbody])
    · trivial
  · exact h t (List.mem_append_right _ hmem)

end Straight

end Kubeast.LogSearch

/-! Every stream selector of a rewritten query carries the matchers. -/
namespace Kubeast.LogSearch

open Token

variable {tables : Text.CharTables} {matchers : List Matcher} {query out : String}

/-- A query that is rewritten was scanned to its end, outside a selector. -/
theorem scan_of_inject (h : injectMatchers tables query matchers = .ok out) :
    ∃ st, injectFrom (addedText tables matchers) 0 query.toList start = .ok st ∧
      st.inSelector = false ∧ st.selectors ≠ 0 ∧ out = String.ofList st.out := by
  rw [injectMatchers] at h
  split_ifs at h with hlen hzero hblank
  cases hst : injectFrom (addedText tables matchers) 0 query.toList start with
  | error e => simp [hst] at h
  | ok st =>
    simp only [hst] at h
    split_ifs at h with hin hnone
    cases h
    exact ⟨st, rfl, by simpa using hin, hnone, rfl⟩

/-- The checks before the scan do not depend on the matchers. -/
theorem inject_of_scan {matchers' : List Matcher} {st : State}
    (h : injectMatchers tables query matchers = .ok out)
    (hst : injectFrom (addedText tables matchers') 0 query.toList start = .ok st)
    (hin : st.inSelector = false) (hselectors : st.selectors ≠ 0) :
    injectMatchers tables query matchers' = .ok (String.ofList st.out) := by
  rw [injectMatchers] at h ⊢
  split_ifs at h with hlen hzero hblank
  rw [if_neg hlen, if_neg hzero, if_neg hblank, hst]
  simp [hin, hselectors]

theorem scanned_start : Scanned tables matchers start [] := by
  have hnone : ∀ t ∈ ([] : List Token), ¬t.IsBrace := by simp
  exact .outside [] 0 hnone

/-- What the query is read as, and what is written for it. -/
theorem parts_of_inject (h : injectMatchers tables query matchers = .ok out) :
    ∃ (parts : List Selector) (tail : List Token), (∀ t ∈ tail, ¬t.IsBrace) ∧
      Reads query.toList (parts.flatMap Selector.written ++ tail) ∧
      out.toList = textOf (parts.flatMap (Selector.scoped tables matchers) ++ tail) := by
  obtain ⟨st, hst, hin, -, rfl⟩ := scan_of_inject h
  obtain ⟨us, hus, hscanned⟩ := scanned_start.run hst
  rw [List.nil_append] at hscanned
  cases hscanned with
  | outside parts start plain => exact ⟨parts, _, plain, hus, String.toList_ofList⟩
  | inside => cases hin

theorem reads_iff {s : List Char} {ts : List Token} (h : Reads s ts) (us : List Token) :
    Reads s us ↔ us = ts :=
  ⟨fun hus => hus.unique h, fun heq => heq ▸ h⟩

/-- The selectors that are counted are those of the query. -/
theorem countSelectors_eq (hone : tables.isPrint '1' = true)
    (h : injectMatchers tables query matchers = .ok out) {ts : List Token}
    (hts : Reads query.toList ts) (htext : ¬countText <:+: query.toList) :
    countSelectors tables query = ts.count .opening := by
  obtain ⟨st, hst, hin, hselectors, rfl⟩ := scan_of_inject h
  have hagree : Agree start start := ⟨rfl, rfl⟩
  obtain ⟨st', hst', hin', hselectors'⟩ :
      ∃ st', injectFrom (addedText tables [countMatcher]) 0 query.toList start = .ok st' ∧
        Agree st st' := injectFrom_agree hagree hst
  have hcounted := inject_of_scan h hst' (hin'.trans hin) (by rw [hselectors']; exact hselectors)
  obtain ⟨parts, tail, plain, hreads, htoList⟩ := parts_of_inject hcounted
  obtain rfl := hts.unique hreads
  rw [countSelectors, hcounted]
  dsimp only
  rw [htoList, count_scoped hone (by rwa [hreads.1]), count_opening plain]

/-- The rules read the rewritten query as the query with the matchers after every opening brace. -/
theorem injectMatchers_reads (hline : tables.isPrint '\n' = false)
    (hone : tables.isPrint '1' = true) (hnames : ∀ m ∈ matchers, PlainName m.name)
    (h : injectMatchers tables query matchers = .ok out) :
    ∃ (parts : List Selector) (tail : List Token), (∀ t ∈ tail, ¬t.IsBrace) ∧
      (∀ ts, Reads query.toList ts ↔ ts = parts.flatMap Selector.written ++ tail) ∧
      (∀ ts, Reads out.toList ts ↔ ts = parts.flatMap (Selector.scoped tables matchers) ++ tail) ∧
      (∀ t ∈ parts.flatMap Selector.written ++ tail, t.IsVerbatim →
        t ∈ parts.flatMap (Selector.scoped tables matchers) ++ tail) ∧
      (¬['\\', '\n'] <:+: query.toList →
        (∀ t ∈ parts.flatMap Selector.written ++ tail, t.Straight) ∧
        ∀ t ∈ parts.flatMap (Selector.scoped tables matchers) ++ tail, t.Straight) ∧
      (¬countText <:+: query.toList → countSelectors tables query =
        (parts.flatMap Selector.written ++ tail).count .opening) := by
  obtain ⟨parts, tail, plain, hreads, htoList⟩ := parts_of_inject h
  have hwell := chain_wellFormed hreads.2
  have hout : Reads out.toList (parts.flatMap (Selector.scoped tables matchers) ++ tail) :=
    ⟨htoList.symm, chain_output (chain_addedTokens hline hnames) hreads.2⟩
  refine ⟨parts, tail, plain, reads_iff hreads, reads_iff hout, ?_, ?_, ?_⟩
  · intro t ht hverbatim
    exact mem_output (hwell t ht) hverbatim ht
  · intro hslash
    have hstraight : ∀ t ∈ parts.flatMap Selector.written ++ tail, t.Straight := by
      intro t ht
      apply straight_of_text (hwell t ht)
      intro hin
      apply hslash
      rw [← hreads.1]
      exact hin.trans (List.infix_of_mem_flatten (List.mem_map.mpr ⟨t, ht, rfl⟩))
    exact ⟨hstraight, straight_output hline hstraight⟩
  · exact countSelectors_eq hone h hreads

/-- A comment in the body and a literal behind it, both of which hold a brace. -/
def braced : String := "\x7ba=\"1\" # \x7d\n\x7d|=`\x7b`"

theorem injectMatchers_reads_brace :
    Text.CharTables.ascii.isPrint '\n' = false ∧ Text.CharTables.ascii.isPrint '1' = true ∧
      (∀ m ∈ [(⟨"ns", [.inl 'a'], true⟩ : Matcher)], PlainName m.name) ∧
      injectMatchers .ascii braced [⟨"ns", [.inl 'a'], true⟩] =
        .ok "\x7bns!=\"a\", a=\"1\" # \x7d\n\x7d|=`\x7b`" ∧
      ∃ (parts : List Selector) (tail : List Token),
        Reads braced.toList (parts.flatMap Selector.written ++ tail) := by
  have hnames : ∀ m ∈ [(⟨"ns", [.inl 'a'], true⟩ : Matcher)], PlainName m.name := by
    simp only [List.mem_singleton, forall_eq]
    unfold PlainName
    exact List.all_iff_forall_prop.mp (by decide)
  have hok : injectMatchers .ascii braced [⟨"ns", [.inl 'a'], true⟩] =
      .ok "\x7bns!=\"a\", a=\"1\" # \x7d\n\x7d|=`\x7b`" := by
    decide
  obtain ⟨parts, tail, -, hreads, -⟩ := injectMatchers_reads (by decide) (by decide) hnames hok
  exact ⟨by decide, by decide, hnames, hok, parts, tail, (hreads _).mpr rfl⟩

/-- With no matcher to add there is no comma before the body either. -/
theorem no_comma_without_matchers :
    injectMatchers .ascii "\x7ba\x7d" [] = .ok "\x7ba\x7d" ∧
      Reads "\x7ba\x7d".toList [.opening, .char 'a', .closing] ∧
      ∀ rest, ¬Reads "\x7ba\x7d".toList (.opening :: addedTokens .ascii [] ++ Token.char ',' :: rest) := by
  have hok : injectMatchers .ascii "\x7ba\x7d" [] = .ok "\x7ba\x7d" := by decide
  have hreads : Reads "\x7ba\x7d".toList [.opening, .char 'a', .closing] := by
    have hplain : Chain (['a'].map .char) (some '}') :=
      chain_plain (List.all_iff_forall_prop.mp (by decide) : ∀ c ∈ ['a'], c ∉ special ∧ c ≠ '/') _
    exact ⟨rfl, trivial, trivial, hplain.1, hplain.2.1, trivial, trivial, trivial⟩
  refine ⟨hok, hreads, ?_⟩
  intro rest hcomma
  have htokens := hreads.unique hcomma
  simp [addedTokens] at htokens

end Kubeast.LogSearch
