import Kubeast.Foundation.Text
import Mathlib.Data.List.Infix

/-! The matchers added to a LogQL query written by hand (`internal/logsearch/logql.go`). -/
namespace Kubeast.LogSearch

section Strings

/-- A rune of a Go string, or a byte that is of none. -/
abbrev Rune := Char ⊕ UInt8

def quoteRune (tables : Text.CharTables) : Rune → List Char
  | .inl c => (Text.quoteRune tables c).toList
  | .inr b => ['\\', 'x'] ++ (Text.hex 2 b.toNat).toList

/-- `strconv.AppendQuote`. -/
def quote (tables : Text.CharTables) (v : List Rune) : List Char :=
  '"' :: v.flatMap (quoteRune tables) ++ ['"']

/-- `strings.Index`. -/
def indexOf (sub : List Char) : List Char → Option ℕ
  | [] => if sub = [] then some 0 else none
  | c :: s => if sub.isPrefixOf (c :: s) then some 0 else (indexOf sub s).map (· + 1)

/-- `strings.Count`. The first `skip` characters are of a text that has been counted. -/
def count (sub : List Char) : ℕ → List Char → ℕ
  | _, [] => 0
  | skip + 1, _ :: s => count sub skip s
  | 0, c :: s =>
    if sub.isPrefixOf (c :: s) then 1 + count sub (sub.length - 1) s else count sub 0 s

end Strings

section Inject

def maxLogQLLength : ℕ := 4096

structure Matcher where
  name : String
  value : List Rune
  not_ : Bool

/-- `ErrInvalidLogQL`. -/
def invalid (msg : String) : String := "invalid LogQL: " ++ msg

def matcherText (tables : Text.CharTables) (m : Matcher) : List Char :=
  m.name.toList ++ (if m.not_ then ['!'] else []) ++ '=' :: quote tables m.value

/-- What is added to every selector. -/
def addedText (tables : Text.CharTables) (matchers : List Matcher) : List Char :=
  [',', ' '].intercalate (matchers.map (matcherText tables))

/-- `literalLen`, after the first `i` characters. A backslash in a literal that is not raw escapes
what follows it. -/
def literalLenFrom (quote : Char) : Bool → ℕ → List Char → Except String ℕ
  | _, _, [] => .error (invalid ("unterminated " ++ quote.toString ++ " literal"))
  | true, i, _ :: s => literalLenFrom quote false (i + 1) s
  | false, i, c :: s =>
    if c = quote then .ok (i + 1)
    else if c = '\\' ∧ quote ≠ '`' then literalLenFrom quote true (i + 1) s
    else if c = '\n' ∧ quote ≠ '`' then .error (invalid ("newline in a " ++ quote.toString ++ " literal"))
    else literalLenFrom quote false (i + 1) s

structure State where
  out : List Char
  selectors : ℕ
  inSelector : Bool
  /-- Where the current selector's body starts in `out`. -/
  bodyStart : ℕ

namespace State

def copy (st : State) (text : List Char) : State := { st with out := st.out ++ text }

def enter (st : State) (added : List Char) : State :=
  { st with
    inSelector := true
    out := st.out ++ '{' :: added
    bodyStart := (st.out ++ '{' :: added).length }

def body (st : State) : List Char := st.out.drop st.bodyStart

/-- The body as it is written back, after a separator. -/
def separated (added body : List Char) : List Char :=
  if body.all Text.isSpace then [] else (if added = [] then [] else [',', ' ']) ++ body

def leave (st : State) (added : List Char) : State :=
  { st with
    inSelector := false
    out := st.out.take st.bodyStart ++ separated added st.body ++ ['}']
    selectors := st.selectors + 1 }

end State

/-- The characters up to the end of the line. -/
def lineLen (s : List Char) : ℕ := (s.takeWhile (· ≠ '\n')).length

/-- The scan. The first `skip` characters have been copied. -/
def injectFrom (added : List Char) : ℕ → List Char → State → Except String State
  | _, [], st => .ok st
  | skip + 1, _ :: s, st => injectFrom added skip s st
  | 0, c :: s, st =>
    if c = '#' ∨ c = '/' ∧ s.head? = some '/' then
      injectFrom added (lineLen (c :: s) - 1) s (st.copy ((c :: s).take (lineLen (c :: s))))
    else if c = '/' ∧ s.head? = some '*' then
      match indexOf ['*', '/'] s.tail with
      | none => .error (invalid "unterminated comment")
      | some n => injectFrom added (n + 3) s (st.copy ((c :: s).take (n + 4)))
    else if c = '"' ∨ c = '\'' ∨ c = '`' then
      match literalLenFrom c false 1 s with
      | .error e => .error e
      | .ok n => injectFrom added (n - 1) s (st.copy ((c :: s).take n))
    else if c = '{' then
      if st.inSelector then .error (invalid "a selector inside a selector")
      else injectFrom added 0 s (st.enter added)
    else if c = '}' then
      if st.inSelector then injectFrom added 0 s (st.leave added)
      else .error (invalid "unexpected \x7d")
    else injectFrom added 0 s (st.copy [c])

def start : State := ⟨[], 0, false, 0⟩

/-- `InjectMatchers`. -/
def injectMatchers (tables : Text.CharTables) (query : String) (matchers : List Matcher) :
    Except String String :=
  if query.utf8ByteSize > maxLogQLLength then
    .error (invalid ("longer than " ++ toString maxLogQLLength ++ " bytes"))
  else if '\x00' ∈ query.toList then .error (invalid "not valid UTF-8")
  else if query.toList.all Text.isSpace then .error (invalid "empty query")
  else match injectFrom (addedText tables matchers) 0 query.toList start with
    | .error e => .error e
    | .ok st =>
      if st.inSelector then .error (invalid "unterminated stream selector")
      else if st.selectors = 0 then .error (invalid "no stream selector")
      else .ok (String.ofList st.out)

/-- The matcher that is counted, and its text. -/
def countMatcher : Matcher := ⟨"__kubeast_count__", [.inl '1'], false⟩

def countText : List Char := "__kubeast_count__=\"1\"".toList

/-- `CountSelectors`. -/
def countSelectors (tables : Text.CharTables) (query : String) : ℤ :=
  match injectMatchers tables query [countMatcher] with
  | .error _ => -1
  | .ok out => count countText 0 out.toList

end Inject
end Kubeast.LogSearch

/-! The lexical rules of LogQL, as far as they decide what is a brace: literals, comments, braces
and everything else character by character. -/
namespace Kubeast.LogSearch

inductive Token
  | opening
  | closing
  | literal (text : List Char)
  | line (text : List Char)
  | block (text : List Char)
  | char (c : Char)
  deriving DecidableEq

/-- What stands between the quotes: a backslash escapes what follows it. -/
inductive Escaped (quote : Char) : List Char → Prop
  | nil : Escaped quote []
  | plain {c s} : c ≠ quote → c ≠ '\\' → c ≠ '\n' → Escaped quote s → Escaped quote (c :: s)
  | escape {c s} : Escaped quote s → Escaped quote ('\\' :: c :: s)

/-- The body of a literal: nothing is escaped in a raw string. -/
def Body (quote : Char) (s : List Char) : Prop :=
  if quote = '`' then '`' ∉ s else Escaped quote s

/-- The characters another kind of token can start with. -/
def special : List Char := ['#', '"', '\'', '`', '{', '}']

namespace Token

def text : Token → List Char
  | opening => ['{']
  | closing => ['}']
  | literal s | line s | block s => s
  | char c => [c]

def WellFormed : Token → Prop
  | opening | closing => True
  | literal s => ∃ quote ∈ ['"', '\'', '`'], ∃ body, Body quote body ∧ s = quote :: body ++ [quote]
  | line s => '\n' ∉ s ∧ (['#'] <+: s ∨ ['/', '/'] <+: s)
  | block s => ∃ body, ¬['*', '/'] <:+: body ++ ['*'] ∧ s = '/' :: '*' :: body ++ ['*', '/']
  | char c => c ∉ special

/-- Whether a token ends where it does, from the character after it. -/
def Ends : Token → Option Char → Prop
  | line _, next => next = none ∨ next = some '\n'
  | char c, next => c = '/' → next ≠ some '/' ∧ next ≠ some '*'
  | _, _ => True

def IsBrace : Token → Prop
  | opening | closing => True
  | _ => False

instance : DecidablePred IsBrace := fun t => by cases t <;> unfold IsBrace <;> infer_instance

/-- Literals and comments. -/
def IsVerbatim : Token → Prop
  | literal _ | line _ | block _ => True
  | _ => False

end Token

open Token

def textOf (ts : List Token) : List Char := ts.flatMap text

@[simp] theorem textOf_nil : textOf [] = [] := rfl

@[simp] theorem textOf_cons (t : Token) (ts : List Token) : textOf (t :: ts) = t.text ++ textOf ts :=
  rfl

@[simp] theorem textOf_append (ts us : List Token) : textOf (ts ++ us) = textOf ts ++ textOf us :=
  List.flatMap_append

/-- The tokens stand one after another, `next` being the character after the last. -/
def Chain : List Token → Option Char → Prop
  | [], _ => True
  | t :: ts, next => t.WellFormed ∧ t.Ends ((textOf ts).head?.or next) ∧ Chain ts next

/-- What the rules read a text as. -/
def Reads (s : List Char) (ts : List Token) : Prop := textOf ts = s ∧ Chain ts none

theorem chain_append {ts us : List Token} {next : Option Char} :
    Chain (ts ++ us) next ↔ Chain ts ((textOf us).head?.or next) ∧ Chain us next := by
  induction ts with
  | nil => simp [Chain]
  | cons t ts ih =>
    simp only [List.cons_append, Chain, ih, textOf_append, List.head?_append, Option.or_assoc]
    tauto

theorem text_ne_nil {t : Token} (h : t.WellFormed) : t.text ≠ [] := by
  cases t with
  | literal s =>
    obtain ⟨quote, -, body, -, rfl⟩ := h
    simp [text]
  | line s =>
    obtain ⟨-, ⟨r, rfl⟩ | ⟨r, rfl⟩⟩ := h <;> simp [text]
  | block s =>
    obtain ⟨body, -, rfl⟩ := h
    simp [text]
  | opening => simp [text]
  | closing => simp [text]
  | char c => simp [text]

section Unique

theorem escaped_unique {quote : Char} (hq : quote ≠ '\\') {a b r r' : List Char}
    (ha : Escaped quote a) (hb : Escaped quote b) (h : a ++ quote :: r = b ++ quote :: r') :
    a = b := by
  induction ha generalizing b with
  | nil =>
    cases hb with
    | nil => rfl
    | plain hne =>
      simp only [List.nil_append, List.cons_append, List.cons.injEq] at h
      exact absurd h.1.symm hne
    | escape =>
      simp only [List.nil_append, List.cons_append, List.cons.injEq] at h
      exact absurd h.1 hq
  | plain hne hslash hline ha ih =>
    cases hb with
    | nil =>
      simp only [List.nil_append, List.cons_append, List.cons.injEq] at h
      exact absurd h.1 hne
    | plain _ _ _ hb =>
      simp only [List.cons_append, List.cons.injEq] at h
      rw [h.1, ih hb h.2]
    | escape =>
      simp only [List.cons_append, List.cons.injEq] at h
      exact absurd h.1 hslash
  | escape ha ih =>
    cases hb with
    | nil =>
      simp only [List.nil_append, List.cons_append, List.cons.injEq] at h
      exact absurd h.1.symm hq
    | plain _ hslash =>
      simp only [List.cons_append, List.cons.injEq] at h
      exact absurd h.1.symm hslash
    | escape hb =>
      simp only [List.cons_append, List.cons.injEq, true_and] at h
      rw [h.1, ih hb h.2]

/-- What stands before the first `d` of a text. -/
theorem before_unique {d : Char} {a b r r' : List Char} (ha : d ∉ a) (hb : d ∉ b)
    (h : a ++ d :: r = b ++ d :: r') : a = b := by
  induction a generalizing b with
  | nil =>
    cases b with
    | nil => rfl
    | cons c b =>
      simp only [List.nil_append, List.cons_append, List.cons.injEq] at h
      simp [← h.1] at hb
  | cons c a ih =>
    cases b with
    | nil =>
      simp only [List.nil_append, List.cons_append, List.cons.injEq] at h
      simp [h.1] at ha
    | cons c' b =>
      simp only [List.cons_append, List.cons.injEq] at h
      rw [h.1, ih (List.not_mem_of_not_mem_cons ha) (List.not_mem_of_not_mem_cons hb) h.2]

theorem body_unique {quote : Char} (hq : quote ∈ ['"', '\'', '`']) {a b r r' : List Char}
    (ha : Body quote a) (hb : Body quote b) (h : a ++ quote :: r = b ++ quote :: r') : a = b := by
  by_cases hraw : quote = '`'
  · subst hraw
    exact before_unique (by simpa [Body] using ha) (by simpa [Body] using hb) h
  · rw [Body, if_neg hraw] at ha hb
    refine escaped_unique ?_ ha hb h
    rintro rfl
    simp at hq

theorem block_unique {a b r r' : List Char} (ha : ¬['*', '/'] <:+: a ++ ['*'])
    (hb : ¬['*', '/'] <:+: b ++ ['*']) (h : a ++ '*' :: '/' :: r = b ++ '*' :: '/' :: r') :
    a = b := by
  have key : ∀ {a b r r' : List Char}, ¬['*', '/'] <:+: b ++ ['*'] → a.length < b.length →
      a ++ '*' :: '/' :: r = b ++ '*' :: '/' :: r' → False := by
    intro a b r r' hb hlt h
    apply hb
    have hcommon : b ++ ['*'] <+: a ++ '*' :: '/' :: r := by
      rw [h]
      exact ⟨'/' :: r', by simp⟩
    have hlen : (a ++ ['*', '/']).length ≤ (b ++ ['*']).length := by
      simp only [List.length_append, List.length_cons, List.length_nil]
      omega
    have hpre := List.prefix_of_prefix_length_le ⟨r, by simp⟩ hcommon hlen
    exact (List.suffix_append a _).isInfix.trans hpre.isInfix
  rcases Nat.lt_trichotomy a.length b.length with hlt | heq | hlt
  · exact (key hb hlt h).elim
  · exact (List.append_inj h heq).1
  · exact (key ha hlt h.symm).elim

theorem line_unique {a b r r' : List Char} (ha : '\n' ∉ a) (hb : '\n' ∉ b)
    (hr : r.head? = none ∨ r.head? = some '\n') (hr' : r'.head? = none ∨ r'.head? = some '\n')
    (h : a ++ r = b ++ r') : a = b := by
  have hspan : ∀ {a r : List Char}, '\n' ∉ a → (r.head? = none ∨ r.head? = some '\n') →
      (a ++ r).takeWhile (· ≠ '\n') = a := by
    intro a r ha hr
    rw [List.takeWhile_append_of_pos fun c hc => by simpa using ne_of_mem_of_not_mem hc ha]
    cases r with
    | nil => simp
    | cons c r =>
      have hc : c = '\n' := by simpa using hr
      simp [hc]
  rw [← hspan ha hr, h, hspan hb hr']

inductive Kind
  | opening
  | closing
  | literal
  | line
  | block
  | char

def Token.kind : Token → Kind
  | opening => .opening
  | closing => .closing
  | literal _ => .literal
  | line _ => .line
  | block _ => .block
  | char _ => .char

/-- The kind of the first token of a text. -/
def kindOf : List Char → Kind
  | '{' :: _ => .opening
  | '}' :: _ => .closing
  | '#' :: _ | '/' :: '/' :: _ => .line
  | '/' :: '*' :: _ => .block
  | '"' :: _ | '\'' :: _ | '`' :: _ => .literal
  | _ => .char

theorem kindOf_text {t : Token} {r : List Char} (h : t.WellFormed) (hends : t.Ends r.head?) :
    kindOf (t.text ++ r) = t.kind := by
  cases t with
  | opening => rfl
  | closing => rfl
  | literal s =>
    obtain ⟨quote, hq, body, -, rfl⟩ := h
    simp only [List.mem_cons, List.not_mem_nil, or_false] at hq
    rcases hq with rfl | rfl | rfl <;> rfl
  | line s =>
    obtain ⟨-, ⟨s, rfl⟩ | ⟨s, rfl⟩⟩ := h <;> rfl
  | block s =>
    obtain ⟨body, -, rfl⟩ := h
    rfl
  | char c =>
    simp only [WellFormed, special, List.mem_cons, List.not_mem_nil, or_false, not_or] at h
    simp only [Ends] at hends
    simp only [text, List.cons_append, List.nil_append, kind]
    unfold kindOf
    split <;> simp_all

theorem token_unique {t u : Token} {r r' : List Char} (ht : t.WellFormed) (hu : u.WellFormed)
    (htr : t.Ends r.head?) (hur : u.Ends r'.head?) (h : t.text ++ r = u.text ++ r') : t = u := by
  have hkind : t.kind = u.kind := by rw [← kindOf_text ht htr, h, kindOf_text hu hur]
  cases t <;> cases u <;> simp only [kind, reduceCtorEq] at hkind
  case opening.opening => rfl
  case closing.closing => rfl
  case literal.literal =>
    obtain ⟨q, hq, a, ha, rfl⟩ := ht
    obtain ⟨q', -, b, hb, rfl⟩ := hu
    simp only [text, List.cons_append, List.append_assoc, List.nil_append, List.cons.injEq] at h
    obtain ⟨rfl, h⟩ := h
    rw [body_unique hq ha hb h]
  case line.line => rw [line_unique ht.1 hu.1 htr hur h]
  case block.block =>
    obtain ⟨a, ha, rfl⟩ := ht
    obtain ⟨b, hb, rfl⟩ := hu
    simp only [text, List.cons_append, List.append_assoc, List.nil_append, List.cons.injEq,
      true_and] at h
    rw [block_unique ha hb h]
  case char.char =>
    simp only [text, List.cons_append, List.nil_append, List.cons.injEq] at h
    rw [h.1]

/-- A text is read in one way at most. -/
theorem chain_unique {ts us : List Token} (hts : Chain ts none) (hus : Chain us none)
    (h : textOf ts = textOf us) : ts = us := by
  induction ts generalizing us with
  | nil =>
    cases us with
    | nil => rfl
    | cons u us => simp [text_ne_nil hus.1] at h
  | cons t ts ih =>
    cases us with
    | nil => simp [text_ne_nil hts.1] at h
    | cons u us =>
      obtain ⟨ht, htr, hts⟩ := hts
      obtain ⟨hu, hur, hus⟩ := hus
      rw [Option.or_none] at htr hur
      rw [textOf_cons, textOf_cons] at h
      obtain rfl := token_unique ht hu htr hur h
      rw [ih hts hus (List.append_cancel_left h)]

theorem Reads.unique {s : List Char} {ts us : List Token} (hts : Reads s ts) (hus : Reads s us) :
    ts = us :=
  chain_unique hts.2 hus.2 (hts.1.trans hus.1.symm)

end Unique

end Kubeast.LogSearch
