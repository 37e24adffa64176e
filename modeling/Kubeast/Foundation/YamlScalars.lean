import Mathlib.Data.List.Basic
import Mathlib.Tactic.Common

/-! The scalars of YAML 1.2 that stand on one line (§7.3), and which texts read as themselves in each
style. -/
namespace Yaml

section Characters

inductive Style
  | plain
  | single
  | double
  | literal
  | folded
deriving DecidableEq

/-- `c-printable`. -/
def printable (c : Char) : Bool :=
  ['\t', '\n', '\r'].contains c || (0x20 ≤ c.toNat && c.toNat ≤ 0x7E) || c.toNat == 0x85 ||
    (0xA0 ≤ c.toNat && c.toNat ≤ 0xD7FF) || (0xE000 ≤ c.toNat && c.toNat ≤ 0xFFFD) || 0x10000 ≤ c.toNat

/-- `nb-json`. -/
def nbJson (c : Char) : Bool := c == '\t' || 0x20 ≤ c.toNat

/-- `s-white`. -/
def white (c : Char) : Bool := c == ' ' || c == '\t'

/-- `ns-char`: neither white space nor a line break nor a byte order mark. -/
def nsChar (c : Char) : Bool :=
  printable c && !([' ', '\t', '\n', '\r'].contains c) && c.toNat != 0xFEFF

/-- `c-indicator`. -/
def indicator (c : Char) : Bool := "-?:,[]{}#&*!|>'\"%@`".toList.contains c

/-- `ns-plain-safe`: in a flow collection its indicators end a scalar. -/
def safe (flow : Bool) (c : Char) : Bool := nsChar c && !(flow && [',', '[', ']', '{', '}'].contains c)

end Characters

section Quoted

/-- `ns-esc-char` of one character. -/
def escapes : List (Char × Char) :=
  [('0', '\x00'), ('a', '\x07'), ('b', '\x08'), ('t', '\t'), ('\t', '\t'), ('n', '\n'), ('v', '\x0b'),
    ('f', '\x0c'), ('r', '\r'), ('e', '\x1b'), (' ', ' '), ('"', '"'), ('/', '/'), ('\\', '\\'),
    ('N', '\u0085'), ('_', '\u00a0'), ('L', '\u2028'), ('P', '\u2029')]

def hexValue (c : Char) : Option ℕ :=
  if c.isDigit then some (c.toNat - 48)
  else if 'a' ≤ c && c ≤ 'f' then some (c.toNat - 87)
  else if 'A' ≤ c && c ≤ 'F' then some (c.toNat - 55)
  else none

/-- The character of `n` hexadecimal digits. -/
def hexChar (n : ℕ) (s : List Char) : Option Char :=
  if s.length < n then none
  else ((s.take n).foldlM (fun v c => (hexValue c).map (v * 16 + ·)) 0).map Char.ofNat

/-- What an escape stands for, and how much of the text behind the backslash it takes. -/
def escaped : List Char → Option (Char × ℕ)
  | [] => none
  | 'x' :: s => (hexChar 2 s).map (·, 3)
  | 'u' :: s => (hexChar 4 s).map (·, 5)
  | 'U' :: s => (hexChar 8 s).map (·, 9)
  | c :: _ => (escapes.lookup c).map (·, 1)

/-- The value between double quotes; `skip` characters belong to an escape. -/
def unescape : ℕ → List Char → Option (List Char)
  | _, [] => some []
  | skip + 1, _ :: s => unescape skip s
  | 0, '\\' :: s => (escaped s).bind fun e => (unescape e.2 s).map (e.1 :: ·)
  | 0, c :: s => if c = '"' ∨ nbJson c = false then none else (unescape 0 s).map (c :: ·)

/-- The value between single quotes, where a quote is written twice. -/
def undouble : List Char → Option (List Char)
  | [] => some []
  | '\'' :: '\'' :: s => (undouble s).map ('\'' :: ·)
  | '\'' :: _ => none
  | c :: s => if nbJson c then (undouble s).map (c :: ·) else none

end Quoted

section Plain

/-- `ns-plain-first`. -/
def plainFirst (flow : Bool) (c : Char) (next : Option Char) : Bool :=
  if indicator c then ['-', '?', ':'].contains c && next.any (safe flow) else nsChar c

/-- `nb-ns-plain-in-line`, a character of it behind another. -/
def plainChar (flow : Bool) (prev c : Char) (next : Option Char) : Bool :=
  if c = ':' then next.any (safe flow) else if c = '#' then !white prev else white c || safe flow c

def plainTail (flow : Bool) (after : Option Char) : Char → List Char → Bool
  | prev, [] => !white prev
  | prev, c :: s => plainChar flow prev c (s.head?.or after) && plainTail flow after c s

/-- What follows does not go on with a plain scalar. -/
def plainStops (flow : Bool) (after : List Char) : Bool :=
  let rest := after.dropWhile white
  let prev := if rest.length = after.length then 'x' else ' '
  rest.head?.all fun c => !plainChar flow prev c rest.tail.head?

/-- `ns-plain-one-line`; at the start of a line it is no marker of a document. -/
def plainLine (flow start : Bool) (after : List Char) : List Char → Bool
  | [] => false
  | c :: s => plainFirst flow c (s.head?.or after.head?) && plainTail flow after.head? c s &&
      plainStops flow after && !(start && ["---".toList, "...".toList].contains (c :: s))

/-- Every double quote is escaped. -/
def closed : List Char → Bool
  | [] => true
  | '\\' :: _ :: s => closed s
  | '\\' :: [] => false
  | '"' :: _ => false
  | _ :: s => closed s

/-- Every single quote is doubled. -/
def paired : List Char → Bool
  | [] => true
  | '\'' :: '\'' :: s => paired s
  | '\'' :: _ => false
  | _ :: s => paired s

/-- The value of a scalar on one line, with what follows it. -/
def read (style : Style) (flow start : Bool) (token after : List Char) : Option (List Char) :=
  match style with
  | .double =>
    if token.head? = some '"' ∧ token.tail.getLast? = some '"' then unescape 0 token.tail.dropLast else none
  | .single =>
    if token.head? = some '\'' ∧ token.tail.getLast? = some '\'' ∧ after.head? ≠ some '\'' then
      undouble token.tail.dropLast
    else none
  | .plain => if plainLine flow start after token then some token else none
  -- a block scalar stands on the lines below
  | .literal | .folded => none

/-- A value as it stands, between the quotes of a style. -/
def quoted (style : Style) (value : List Char) : List Char :=
  match style with
  | .double => '"' :: value ++ ['"']
  | .single => '\'' :: value ++ ['\'']
  | _ => value

/-- A value that reads as itself when it is not escaped. -/
def Raw (style : Style) (flow start : Bool) (value after : List Char) : Prop :=
  match style with
  | .double => ∀ c ∈ value, nbJson c = true ∧ c ≠ '"' ∧ c ≠ '\\'
  | .single => ∀ c ∈ value, nbJson c = true ∧ c ≠ '\''
  | .plain => (∀ c ∈ value, safe flow c = true) ∧
      (∀ c ∈ value.head?, plainFirst flow c (value.tail.head?.or after.head?) = true) ∧
      ¬(start = true ∧ (value = "---".toList ∨ value = "...".toList))
  | .literal | .folded => False

instance {style : Style} {flow start : Bool} {value after : List Char} :
    Decidable (Raw style flow start value after) :=
  match style with
  | .double =>
    decidable_of_iff ((value.all fun c => nbJson c && c != '"' && c != '\\') = true) (by simp [Raw, and_assoc])
  | .single => decidable_of_iff ((value.all fun c => nbJson c && c != '\'') = true) (by simp [Raw])
  | .plain => decidable_of_iff (value.all (safe flow) = true ∧
      (value.head?.all fun c => plainFirst flow c (value.tail.head?.or after.head?)) = true ∧
      ¬(start = true ∧ (value = "---".toList ∨ value = "...".toList))) (by cases value <;> simp [Raw])
  | .literal => inferInstanceAs (Decidable False)
  | .folded => inferInstanceAs (Decidable False)

end Plain

section Quoted
variable {s t : List Char} {n : ℕ}

attribute [local simp] unescape undouble closed paired

theorem escaped_pos {e : Char × ℕ} (h : escaped s = some e) : 0 < e.2 := by
  unfold escaped at h
  split at h
  · contradiction
  all_goals
    obtain ⟨c, -, rfl⟩ := Option.map_eq_some_iff.mp h
    exact Nat.succ_pos _

theorem unescape_cons {c : Char} (h : c ≠ '\\') : unescape 0 (c :: s) =
    if c = '"' ∨ nbJson c = false then none else (unescape 0 s).map (c :: ·) := by
  rw [unescape]
  exact h

theorem unescape_backslash : unescape 0 ('\\' :: s) = some t ↔
    ∃ e rest, escaped s = some e ∧ unescape e.2 s = some rest ∧ e.1 :: rest = t := by
  rw [unescape, Option.bind_eq_some_iff]
  simp only [Option.map_eq_some_iff, exists_and_left]

/-- No text gets longer by reading its escapes. -/
theorem length_unescape (h : unescape n s = some t) : t.length + min n s.length ≤ s.length := by
  induction s generalizing n t with
  | nil =>
    obtain rfl : [] = t := by cases n <;> exact Option.some.inj h
    simp
  | cons c s ih =>
    cases n with
    | succ n =>
      have := ih (n := n) (t := t) h
      simp only [List.length_cons]
      omega
    | zero =>
      by_cases hc : c = '\\'
      · subst hc
        obtain ⟨e, rest, he, hrest, rfl⟩ := unescape_backslash.mp h
        have := ih hrest
        have hpos := escaped_pos he
        cases s with
        | nil => exact nomatch he
        | cons d s =>
          simp only [List.length_cons] at this ⊢
          omega
      · rw [unescape_cons hc] at h
        split_ifs at h
        obtain ⟨rest, hrest, rfl⟩ := Option.map_eq_some_iff.mp h
        have := ih hrest
        simp only [List.length_cons]
        omega

/-- A text reads as itself between double quotes when it needs no escapes. -/
theorem unescape_eq_self : unescape 0 s = some s ↔ ∀ c ∈ s, nbJson c = true ∧ c ≠ '"' ∧ c ≠ '\\' := by
  induction s with
  | nil => exact iff_of_true rfl nofun
  | cons c s ih =>
    rw [List.forall_mem_cons]
    by_cases hc : c = '\\'
    · subst hc
      refine iff_of_false (fun h => ?_) fun h => h.1.2.2 rfl
      obtain ⟨e, rest, he, hrest, heq⟩ := unescape_backslash.mp h
      obtain rfl := (List.cons.inj heq).2
      have hlength := length_unescape hrest
      have hpos := escaped_pos he
      cases rest with
      | nil => exact nomatch he
      | cons d rest =>
        simp only [List.length_cons] at hlength
        omega
    · rw [unescape_cons hc, ← ih]
      split_ifs with hbad
      · refine iff_of_false (fun h => nomatch h) fun h => ?_
        rcases hbad with hquote | hjson
        · exact h.1.2.1 hquote
        · rw [hjson] at h
          exact Bool.false_ne_true h.1.1
      · rw [not_or, Bool.not_eq_false] at hbad
        simp [hbad, hc]

theorem undouble_cons {c : Char} (h : c ≠ '\'') : undouble (c :: s) =
    if nbJson c then (undouble s).map (c :: ·) else none := by
  rw [undouble]
  · exact fun _ hc => absurd hc h
  · exact h

theorem undouble_quotes : undouble ('\'' :: '\'' :: s) = (undouble s).map ('\'' :: ·) := rfl

theorem undouble_quote (h : s.head? ≠ some '\'') : undouble ('\'' :: s) = none := by
  cases s with
  | nil => rfl
  | cons c s =>
    rw [undouble]
    rintro s' ⟨⟩
    exact h rfl

/-- No text gets longer by reading its quotes. -/
theorem length_undouble (h : undouble s = some t) : t.length ≤ s.length := by
  induction s using undouble.induct generalizing t with
  | case1 =>
    obtain rfl := Option.some.inj h
    exact Nat.le_refl _
  | case2 s ih =>
    obtain ⟨rest, hrest, rfl⟩ := Option.map_eq_some_iff.mp (undouble_quotes ▸ h)
    have := ih hrest
    simp only [List.length_cons]
    omega
  | case3 s hquote =>
    rw [undouble_quote] at h
    · contradiction
    · cases s with
      | nil => exact nofun
      | cons c s => exact fun hc => hquote s (by rw [Option.some.inj hc])
  | case4 c s _ hc hjson ih =>
    rw [undouble_cons hc, if_pos hjson] at h
    obtain ⟨rest, hrest, rfl⟩ := Option.map_eq_some_iff.mp h
    have := ih hrest
    simp only [List.length_cons]
    omega
  | case5 c s _ hc hjson =>
    rw [undouble_cons hc, if_neg hjson] at h
    contradiction

/-- A text reads as itself between single quotes when it holds none. -/
theorem undouble_eq_self : undouble s = some s ↔ ∀ c ∈ s, nbJson c = true ∧ c ≠ '\'' := by
  induction s with
  | nil => exact iff_of_true rfl nofun
  | cons c s ih =>
    rw [List.forall_mem_cons]
    by_cases hc : c = '\''
    · subst hc
      refine iff_of_false (fun h => ?_) fun h => h.1.2 rfl
      by_cases hs : s.head? = some '\''
      · cases s with
        | nil => exact nomatch hs
        | cons d s =>
          obtain rfl := Option.some.inj hs
          obtain ⟨rest, hrest, heq⟩ := Option.map_eq_some_iff.mp (undouble_quotes ▸ h)
          obtain rfl := (List.cons.inj heq).2
          have := length_undouble hrest
          simp only [List.length_cons] at this
          omega
      · rw [undouble_quote hs] at h
        contradiction
    · rw [undouble_cons hc, ← ih]
      split_ifs with hjson
      · simp [hjson, hc]
      · exact iff_of_false (fun h => nomatch h) fun h => hjson h.1.1

theorem hexValue_plain {c : Char} (h : (hexValue c).isSome = true) : c ≠ '"' ∧ c ≠ '\\' := by
  constructor <;> rintro rfl <;> exact absurd h (by decide)

theorem hexValue_of_foldlM {v w : ℕ} (h : s.foldlM (fun v c => (hexValue c).map (v * 16 + ·)) v = some w) :
    ∀ c ∈ s, (hexValue c).isSome = true := by
  induction s generalizing v with
  | nil => nofun
  | cons c s ih =>
    rw [List.foldlM_cons] at h
    obtain ⟨u, hu, hrest⟩ := Option.bind_eq_some_iff.mp h
    obtain ⟨d, hd, -⟩ := Option.map_eq_some_iff.mp hu
    rw [List.forall_mem_cons, hd]
    exact ⟨rfl, ih hrest⟩

theorem hexChar_plain {c : Char} (h : hexChar n s = some c) : ∀ d ∈ s.take n, d ≠ '"' ∧ d ≠ '\\' := by
  rw [hexChar] at h
  split_ifs at h
  obtain ⟨w, hw, -⟩ := Option.map_eq_some_iff.mp h
  exact fun d hd => hexValue_plain (hexValue_of_foldlM hw d hd)

/-- Behind its first character an escape takes digits only. -/
theorem escaped_plain {c : Char} {e : Char × ℕ} (h : escaped (c :: s) = some e) :
    ∃ k, e.2 = k + 1 ∧ ∀ d ∈ s.take k, d ≠ '"' ∧ d ≠ '\\' := by
  unfold escaped at h
  split at h
  · contradiction
  all_goals
    rename_i heq
    obtain ⟨-, rfl⟩ := List.cons.inj heq
    obtain ⟨d, hd, rfl⟩ := Option.map_eq_some_iff.mp h
  · exact ⟨2, rfl, hexChar_plain hd⟩
  · exact ⟨4, rfl, hexChar_plain hd⟩
  · exact ⟨8, rfl, hexChar_plain hd⟩
  · exact ⟨0, rfl, nofun⟩

theorem closed_cons {c : Char} (hquote : c ≠ '"') (hback : c ≠ '\\') : closed (c :: s) = closed s := by
  rw [closed]
  · exact fun _ _ hc => absurd hc hback
  · exact fun hc => absurd hc hback
  · exact hquote

theorem closed_append (h : ∀ c ∈ s, c ≠ '"' ∧ c ≠ '\\') : closed (s ++ t) = closed t := by
  induction s with
  | nil => rfl
  | cons c s ih =>
    obtain ⟨⟨hquote, hback⟩, hs⟩ := List.forall_mem_cons.mp h
    rw [List.cons_append, closed_cons hquote hback, ih hs]

/-- What has a value between double quotes has no quote of its own. -/
theorem closed_of_unescape (h : unescape n s = some t) : closed (s.drop n) = true := by
  induction s generalizing n t with
  | nil => rw [List.drop_nil, closed]
  | cons c s ih =>
    cases n with
    | succ n => exact ih h
    | zero =>
      by_cases hc : c = '\\'
      · subst hc
        obtain ⟨e, rest, he, hrest, -⟩ := unescape_backslash.mp h
        cases s with
        | nil => exact nomatch he
        | cons d s =>
          obtain ⟨k, hk, hdigits⟩ := escaped_plain he
          have hclosed := ih hrest
          rw [hk, List.drop_succ_cons] at hclosed
          rw [List.drop_zero, closed, ← List.take_append_drop k s, closed_append hdigits, hclosed]
      · rw [unescape_cons hc] at h
        split_ifs at h with hbad
        obtain ⟨rest, hrest, -⟩ := Option.map_eq_some_iff.mp h
        rw [List.drop_zero, closed_cons (fun hquote => hbad (Or.inl hquote)) hc]
        exact ih hrest

theorem paired_cons {c : Char} (h : c ≠ '\'') : paired (c :: s) = paired s := by
  rw [paired]
  · exact fun _ hc => absurd hc h
  · exact h

theorem paired_quote (h : ∀ t, s = '\'' :: t → False) : paired ('\'' :: s) = false := by
  rw [paired]
  exact h

theorem paired_of_undouble (h : undouble s = some t) : paired s = true := by
  induction s using undouble.induct generalizing t with
  | case1 => rfl
  | case2 s ih =>
    obtain ⟨rest, hrest, -⟩ := Option.map_eq_some_iff.mp (undouble_quotes ▸ h)
    rw [paired, ih hrest]
  | case3 s hquote =>
    rw [undouble_quote] at h
    · contradiction
    · cases s with
      | nil => exact nofun
      | cons c s => exact fun hc => hquote s (by rw [Option.some.inj hc])
  | case4 c s _ hc hjson ih =>
    rw [undouble_cons hc, if_pos hjson] at h
    obtain ⟨rest, hrest, -⟩ := Option.map_eq_some_iff.mp h
    rw [paired_cons hc, ih hrest]
  | case5 c s _ hc hjson =>
    rw [undouble_cons hc, if_neg hjson] at h
    contradiction

end Quoted

section Plain
variable {flow start : Bool} {s after token value : List Char} {c prev : Char} {next : Option Char}

theorem safe_colon : safe flow ':' = true := by cases flow <;> decide

theorem safe_hash : safe flow '#' = true := by cases flow <;> decide

/-- Behind a character without white space the safe ones go on with a plain scalar. -/
theorem plainTail_iff (hwhite : ∀ c ∈ prev :: s, white c = false) (hcolon : s.getLast? ≠ some ':') :
    plainTail flow next prev s = true ↔ ∀ c ∈ s, safe flow c = true := by
  induction s generalizing prev with
  | nil =>
    refine iff_of_true ?_ nofun
    rw [plainTail, hwhite prev List.mem_cons_self]
    rfl
  | cons c s ih =>
    have hlast : s.getLast? ≠ some ':' := by
      cases s with
      | nil => exact nofun
      | cons d s => rwa [List.getLast?_cons_cons] at hcolon
    rw [List.forall_mem_cons] at hwhite
    rw [plainTail, Bool.and_eq_true, ih hwhite.2 hlast, List.forall_mem_cons]
    refine and_congr_left fun hsafe => ?_
    rw [plainChar]
    split_ifs with hc hc'
    · subst hc
      cases s with
      | nil => exact absurd rfl hcolon
      | cons d s =>
        exact iff_of_true (hsafe d List.mem_cons_self) safe_colon
    · subst hc'
      rw [hwhite.1]
      exact iff_of_true rfl safe_hash
    · rw [hwhite.2 c List.mem_cons_self, Bool.false_or]

theorem safe_of_plainFirst (h : plainFirst flow c next = true) : safe flow c = true := by
  rw [plainFirst] at h
  split_ifs at h with hind
  · rw [Bool.and_eq_true, List.contains_iff_mem] at h
    simp only [List.mem_cons, List.not_mem_nil, or_false] at h
    rcases h.1 with rfl | rfl | rfl <;> cases flow <;> decide
  · have hplain : [',', '[', ']', '{', '}'].contains c = false := by
      rw [← Bool.not_eq_true, List.contains_iff_mem]
      intro hmem
      refine hind ?_
      simp only [List.mem_cons, List.not_mem_nil, or_false] at hmem
      rcases hmem with rfl | rfl | rfl | rfl | rfl <;> decide
    rw [safe, h, hplain, Bool.and_false]
    rfl

/-- Where a plain scalar stood, a value without white space reads as itself when it is `Raw`. -/
theorem read_plain_iff (hplace : plainStops flow after = true) (hne : value ≠ [])
    (hwhite : ∀ c ∈ value, white c = false) (hcolon : value.getLast? ≠ some ':') :
    read .plain flow start value after = some value ↔ Raw .plain flow start value after := by
  obtain ⟨c, s, rfl⟩ := List.exists_cons_of_ne_nil hne
  have hlast : s.getLast? ≠ some ':' := by
    cases s with
    | nil => exact nofun
    | cons d s => rwa [List.getLast?_cons_cons] at hcolon
  have htail : plainTail flow after.head? c s = true ↔ ∀ d ∈ s, safe flow d = true :=
    plainTail_iff hwhite hlast
  have hread : read .plain flow start (c :: s) after = some (c :: s) ↔
      plainLine flow start after (c :: s) = true := by
    rw [read]
    split_ifs with hline <;> simp [hline]
  have hmarker : (!(start && ["---".toList, "...".toList].contains (c :: s))) = true ↔
      ¬(start = true ∧ (c :: s = "---".toList ∨ c :: s = "...".toList)) := by
    rw [Bool.not_eq_true', ← Bool.not_eq_true, Bool.and_eq_true, List.contains_iff_mem, List.mem_cons,
      List.mem_singleton]
  rw [hread, plainLine, Bool.and_eq_true, Bool.and_eq_true, Bool.and_eq_true, htail, hplace, hmarker, Raw]
  simp only [List.head?_cons, Option.mem_some_iff, forall_eq', List.tail_cons, List.forall_mem_cons]
  constructor
  · rintro ⟨⟨⟨hfirst, hsafe⟩, -⟩, hnone⟩
    exact ⟨⟨safe_of_plainFirst hfirst, hsafe⟩, hfirst, hnone⟩
  · rintro ⟨⟨-, hsafe⟩, hfirst, hnone⟩
    exact ⟨⟨⟨hfirst, hsafe⟩, trivial⟩, hnone⟩

end Plain

section Read
variable {style : Style} {flow start : Bool} {token after value : List Char}

theorem eq_between {q : Char} (hhead : token.head? = some q) (hlast : token.tail.getLast? = some q) :
    token = q :: token.tail.dropLast ++ [q] := by
  cases token with
  | nil => exact nomatch hhead
  | cons c s =>
    obtain rfl := Option.some.inj hhead
    rw [List.tail_cons] at hlast ⊢
    rw [List.cons_append, List.dropLast_append_getLast? c hlast]

theorem read_double_some (h : read .double flow start token after = some value) :
    ∃ body, token = '"' :: body ++ ['"'] ∧ unescape 0 body = some value := by
  rw [read] at h
  split_ifs at h with hquotes
  exact ⟨_, eq_between hquotes.1 hquotes.2, h⟩

theorem read_single_some (h : read .single flow start token after = some value) :
    ∃ body, token = '\'' :: body ++ ['\''] ∧ undouble body = some value ∧ after.head? ≠ some '\'' := by
  rw [read] at h
  split_ifs at h with hquotes
  exact ⟨_, eq_between hquotes.1 hquotes.2.1, h, hquotes.2.2⟩

/-- A plain scalar is its text. -/
theorem read_plain_some (h : read .plain flow start token after = some value) :
    token = value ∧ plainStops flow after = true := by
  rw [read] at h
  split_ifs at h with hline
  refine ⟨Option.some.inj h, ?_⟩
  cases token with
  | nil => exact nomatch hline
  | cons c s =>
    rw [plainLine, Bool.and_eq_true, Bool.and_eq_true] at hline
    exact hline.1.2

/-- A value without white space, written between the quotes of a scalar that stood in its place, reads as
itself exactly when it is `Raw`. -/
theorem read_quoted_iff {old : List Char} (hplace : read style flow start token after = some old)
    (hne : value ≠ []) (hwhite : ∀ c ∈ value, white c = false) (hcolon : value.getLast? ≠ some ':') :
    read style flow start (quoted style value) after = some value ↔ Raw style flow start value after := by
  cases style with
  | double =>
    have hread : read .double flow start (quoted .double value) after = unescape 0 value := by
      simp [read, quoted]
    rw [hread]
    exact unescape_eq_self
  | single =>
    obtain ⟨body, -, -, hafter⟩ := read_single_some hplace
    have hread : read .single flow start (quoted .single value) after = undouble value := by
      simp [read, quoted, hafter]
    rw [hread]
    exact undouble_eq_self
  | plain => exact read_plain_iff (read_plain_some hplace).2 hne hwhite hcolon
  | literal => exact nomatch hplace
  | folded => exact nomatch hplace

end Read
end Yaml
