import Mathlib.Data.List.Basic
import Mathlib.Data.List.DropRight
import Mathlib.Data.List.Sort
import Mathlib.Algebra.Order.Ring.Int

/-! The string functions of Go's standard library the services call. What depends on
the large Unicode tables is read from `CharTables`. -/
namespace Text

/-- The case tables: `unicode.ToLower`, whether two runes lie on one `SimpleFold`
orbit, and `unicode.IsPrint`. -/
structure CharTables where
  toLower : Char → Char
  sameFold : Char → Char → Bool
  isPrint : Char → Bool

/-- The tables restricted to ASCII. -/
def CharTables.ascii : CharTables where
  toLower := Char.toLower
  sameFold a b := a.toLower == b.toLower
  isPrint c := ' ' ≤ c && c ≤ '~'

/-- `unicode.IsSpace`: the runes with the property White_Space. -/
def isSpace (c : Char) : Bool :=
  (9 ≤ c.toNat && c.toNat ≤ 13) || (0x2000 ≤ c.toNat && c.toNat ≤ 0x200a) ||
    [0x20, 0x85, 0xa0, 0x1680, 0x2028, 0x2029, 0x202f, 0x205f, 0x3000].contains c.toNat

def trimSpace (s : String) : String :=
  String.ofList ((s.toList.dropWhile isSpace).reverse.dropWhile isSpace).reverse

def toLower (tables : CharTables) (s : String) : String :=
  String.ofList (s.toList.map tables.toLower)

def hasPrefix (s pre : String) : Bool := pre.toList.isPrefixOf s.toList

def equalFold (tables : CharTables) (s t : String) : Bool :=
  s.toList.length == t.toList.length &&
    (s.toList.zip t.toList).all fun p => p.1 == p.2 || tables.sameFold p.1 p.2

/-- `strconv.Atoi`, an `int` having 64 bits. -/
def atoi (s : String) : Option ℤ :=
  let (negative, digits) := match s.toList with
    | '-' :: digits => (true, digits)
    | '+' :: digits => (false, digits)
    | digits => (false, digits)
  if digits = [] ∨ digits.all Char.isDigit = false then none
  else
    let n : ℤ := digits.foldl (fun n c => 10 * n + (c.toNat - '0'.toNat : ℕ)) 0
    let n := if negative then -n else n
    if -2 ^ 63 ≤ n ∧ n < 2 ^ 63 then some n else none

/-- `strings.NewReplacer(…).Replace`: where an old text starts, the first of those that do is
replaced. The first `skip` characters are of one that has been. -/
def replace (pairs : List (List Char × List Char)) : ℕ → List Char → List Char
  | _, [] => []
  | skip + 1, _ :: s => replace pairs skip s
  | 0, c :: s =>
    match pairs.find? fun p => p.1.isPrefixOf (c :: s) with
    | some p => p.2 ++ replace pairs (p.1.length - 1) s
    | none => c :: replace pairs 0 s

/-- `path.Base`. -/
def base (s : String) : String :=
  if s = "" then "."
  else match s.toList.rdropWhile (· == '/') with
    | [] => "/"
    | t => String.ofList (t.rtakeWhile (· ≠ '/'))

/-- What an element of a path does to the elements before it, the last first. -/
def cleanStep (rooted : Bool) (done : List (List Char)) (element : List Char) : List (List Char) :=
  if element = [] ∨ element = ['.'] then done
  else if element = ['.', '.'] then
    match done with
    | [] => if rooted then [] else [element]
    | last :: before => if last = ['.', '.'] then element :: done else before
  else element :: done

/-- `path.Clean`. -/
def cleanPath (s : String) : String :=
  let rooted := s.toList.head? == some '/'
  let elements := ((s.toList.splitOn '/').foldl (cleanStep rooted) []).reverse
  let joined := ['/'].intercalate elements
  if rooted then String.ofList ('/' :: joined)
  else if joined = [] then "."
  else String.ofList joined

/-- `sort.Strings`: the byte order of UTF-8 is the order of code points. -/
def sortStrings (l : List String) : List String := l.insertionSort (· ≤ ·)

/-- `strings.Join`, with one character between the texts. -/
def joined (sep : Char) (l : List String) : List Char := [sep].intercalate (l.map String.toList)

/-- `n` hexadecimal digits of a code point. -/
def hex (n c : ℕ) : String :=
  String.ofList ((List.range n).reverse.map fun i => Nat.digitChar (c / 16 ^ i % 16))

/-- One rune inside `%q`. -/
def quoteRune (tables : CharTables) (c : Char) : String :=
  if c = '"' then "\\\"" else if c = '\\' then "\\\\"
  else if tables.isPrint c then c.toString
  else if c.toNat = 7 then "\\a" else if c.toNat = 8 then "\\b" else if c.toNat = 12 then "\\f"
  else if c = '\n' then "\\n" else if c = '\r' then "\\r" else if c = '\t' then "\\t"
  else if c.toNat = 11 then "\\v"
  else if c.toNat < 0x20 ∨ c.toNat = 0x7f then "\\x" ++ hex 2 c.toNat
  else if c.toNat < 0x10000 then "\\u" ++ hex 4 c.toNat else "\\U" ++ hex 8 c.toNat

def quote (tables : CharTables) (s : String) : String :=
  "\"" ++ String.join (s.toList.map (quoteRune tables)) ++ "\""

/-- No part of a split text holds the separator. -/
theorem notMem_of_mem_splitOn {c : Char} {s part : List Char} (h : part ∈ s.splitOn c) : c ∉ part := by
  induction s generalizing part with
  | nil =>
    obtain rfl := List.mem_singleton.mp h
    exact List.not_mem_nil
  | cons d s ih =>
    rw [List.splitOn_cons_eq_if_modifyHead] at h
    split at h
    · rcases List.mem_cons.mp h with rfl | h
      · exact List.not_mem_nil
      · exact ih h
    · next hd =>
      obtain ⟨first, rest, hsplit⟩ := List.exists_cons_of_ne_nil (List.splitOn_ne_nil c s)
      rw [hsplit] at h ih
      rcases List.mem_cons.mp h with rfl | h
      · rw [List.mem_cons, not_or]
        exact ⟨fun hc => hd (beq_iff_eq.mpr hc.symm), ih List.mem_cons_self⟩
      · exact ih (List.mem_cons_of_mem first h)

/-- The number a list of digits stands for. -/
def digitsValue (digits : List Char) : ℤ :=
  digits.foldl (fun n c => 10 * n + (c.toNat - '0'.toNat : ℕ)) 0

theorem digitsValue_toDigits (n : ℕ) : digitsValue (Nat.toDigits 10 n) = n := by
  have hcast (l : List Char) (k : ℕ) :
      l.foldl (fun (n : ℤ) c => 10 * n + (c.toNat - '0'.toNat : ℕ)) k = Nat.ofDigitChars 10 l k := by
    induction l generalizing k with
    | nil => rfl
    | cons c l ih =>
      rw [List.foldl_cons, Nat.ofDigitChars_cons, ← ih]
      push_cast
      rfl
  have hvalue := hcast (Nat.toDigits 10 n) 0
  rw [Nat.ofDigitChars_ten_toDigits] at hvalue
  exact hvalue

theorem isDigit_toDigits {n : ℕ} {c : Char} (h : c ∈ Nat.toDigits 10 n) : c.isDigit = true :=
  Nat.isDigit_of_mem_toDigits (by decide) (by decide) h

theorem notMem_toString {c : Char} (hc : c.isDigit = false) (n : ℕ) : c ∉ (toString n).toList := by
  have htoString : (toString n).toList = Nat.toDigits 10 n := Nat.toList_repr
  rw [htoString]
  intro hmem
  rw [isDigit_toDigits hmem] at hc
  cases hc

theorem toString_inj {n n' : ℕ} (h : (toString n).toList = (toString n').toList) : n = n' := by
  have hrepr : Nat.toDigits 10 n = Nat.toDigits 10 n' := by
    rwa [← Nat.toList_repr, ← Nat.toList_repr]
  have hvalue := congrArg digitsValue hrepr
  rw [digitsValue_toDigits, digitsValue_toDigits] at hvalue
  exact_mod_cast hvalue

/-- A number that is written is read back. -/
theorem atoi_toString {z : ℤ} (h : -2 ^ 63 ≤ z ∧ z < 2 ^ 63) : atoi (toString z) = some z := by
  have hall (n : ℕ) : (Nat.toDigits 10 n).all Char.isDigit = true :=
    List.all_eq_true.mpr fun c hc => isDigit_toDigits hc
  cases z with
  | ofNat n =>
    have htext : (toString (Int.ofNat n)).toList = Nat.toDigits 10 n := Nat.toList_repr
    obtain ⟨c, cs, hcs⟩ := List.exists_cons_of_ne_nil (Nat.toDigits_ne_nil (b := 10) (n := n))
    have hc : c.isDigit = true := isDigit_toDigits (hcs ▸ List.mem_cons_self)
    have hminus : c ≠ '-' := by
      rintro rfl
      exact absurd hc (by decide)
    have hplus : c ≠ '+' := by
      rintro rfl
      exact absurd hc (by decide)
    have hdigits := hall n
    have hvalue := digitsValue_toDigits n
    rw [hcs] at htext hdigits hvalue
    unfold digitsValue at hvalue
    unfold atoi
    rw [htext]
    split
    next negative digits hsplit =>
      have hread : negative = false ∧ digits = c :: cs := by
        split at hsplit <;> simp_all
      rw [hread.1, hread.2]
      simp only [hdigits, hvalue, reduceCtorEq, Bool.true_eq_false, Bool.false_eq_true, or_self,
        if_false]
      exact if_pos h
  | negSucc n =>
    have htext : (toString (Int.negSucc n)).toList = '-' :: Nat.toDigits 10 (n + 1) := by
      show ("-" ++ (n + 1).repr).toList = _
      rw [String.toList_append, Nat.toList_repr]
      rfl
    have hvalue := digitsValue_toDigits (n + 1)
    unfold digitsValue at hvalue
    unfold atoi
    rw [htext]
    simp only [Nat.toDigits_ne_nil, hall (n + 1), Bool.true_eq_false, or_self, if_false, if_true, hvalue]
    exact if_pos h

@[simp] theorem mem_sortStrings {s : String} {l : List String} : s ∈ sortStrings l ↔ s ∈ l :=
  List.mem_insertionSort _

/-- A text is cut in one way at the first of a character. -/
theorem append_cons_inj {α : Type*} {c : α} {a a' b b' : List α} (ha : c ∉ a) (ha' : c ∉ a')
    (h : a ++ c :: b = a' ++ c :: b') : a = a' ∧ b = b' := by
  induction a generalizing a' with
  | nil =>
    cases a' with
    | nil => exact ⟨rfl, (List.cons.inj h).2⟩
    | cons d a' => exact absurd ((List.cons.inj h).1 ▸ List.mem_cons_self) ha'
  | cons d a ih =>
    rw [List.mem_cons, not_or] at ha
    cases a' with
    | nil => exact absurd (List.cons.inj h).1.symm ha.1
    | cons e a' =>
      rw [List.mem_cons, not_or] at ha'
      obtain ⟨rfl, hrest⟩ := List.cons.inj h
      obtain ⟨rfl, hb⟩ := ih ha.2 ha'.2 hrest
      exact ⟨rfl, hb⟩

theorem perm_sortStrings (l : List String) : (sortStrings l).Perm l := List.perm_insertionSort _ l

theorem sortStrings_congr {l l' : List String} (h : l.Perm l') : sortStrings l = sortStrings l' :=
  ((perm_sortStrings l).trans (h.trans (perm_sortStrings l').symm)).eq_of_pairwise' (r := (· ≤ ·))
    (List.pairwise_insertionSort _ l) (List.pairwise_insertionSort _ l')

section Joined
variable {sep : Char} {l l' : List String}

theorem joined_ne_nil (hne : l ≠ []) (h : ∀ s ∈ l, s ≠ "") : joined sep l ≠ [] := by
  intro hnil
  cases l with
  | nil => exact hne rfl
  | cons a l =>
    have ha := h a List.mem_cons_self
    rw [Ne, ← String.toList_eq_nil_iff] at ha
    cases l with
    | nil => exact ha (by simpa [joined] using hnil)
    | cons b l =>
      rw [joined, List.map_cons, List.intercalate_cons_of_ne_nil (by simp), List.append_assoc,
        List.append_eq_nil_iff] at hnil
      exact ha hnil.1

/-- Texts without the separator, none of them empty, can be read back from the joined text. -/
theorem joined_inj (h : ∀ s ∈ l, s ≠ "" ∧ sep ∉ s.toList) (h' : ∀ s ∈ l', s ≠ "" ∧ sep ∉ s.toList)
    (heq : joined sep l = joined sep l') : l = l' := by
  have hparts : ∀ {l : List String}, (∀ s ∈ l, s ≠ "" ∧ sep ∉ s.toList) →
      ∀ part ∈ l.map String.toList, sep ∉ part := by
    intro l h part hpart
    obtain ⟨s, hs, rfl⟩ := List.mem_map.mp hpart
    exact (h s hs).2
  by_cases hnil : l = []
  · by_cases hnil' : l' = []
    · rw [hnil, hnil']
    · rw [hnil] at heq
      exact absurd heq.symm (joined_ne_nil hnil' fun s hs => (h' s hs).1)
  · by_cases hnil' : l' = []
    · rw [hnil'] at heq
      exact absurd heq (joined_ne_nil hnil fun s hs => (h s hs).1)
    · have hmap : l.map String.toList ≠ [] := by simpa using hnil
      have hmap' : l'.map String.toList ≠ [] := by simpa using hnil'
      rw [joined, joined] at heq
      have hlists : l.map String.toList = l'.map String.toList := by
        rw [← List.splitOn_intercalate sep (hparts h) hmap, heq,
          List.splitOn_intercalate sep (hparts h') hmap']
      exact List.map_injective_iff.mpr (fun _ _ => String.toList_inj.mp) hlists

/-- Sorted texts that are joined alike are the same ones. -/
theorem perm_of_joined (h : ∀ s ∈ l, s ≠ "" ∧ sep ∉ s.toList) (h' : ∀ s ∈ l', s ≠ "" ∧ sep ∉ s.toList)
    (heq : joined sep (sortStrings l) = joined sep (sortStrings l')) : l.Perm l' := by
  have hsorted := joined_inj (fun s hs => h s (mem_sortStrings.mp hs))
    (fun s hs => h' s (mem_sortStrings.mp hs)) heq
  have hperm := perm_sortStrings l
  rw [hsorted] at hperm
  exact hperm.symm.trans (perm_sortStrings l')

end Joined

@[simp] theorem sortStrings_eq_nil {l : List String} : sortStrings l = [] ↔ l = [] := by
  constructor
  · intro h
    apply List.eq_nil_iff_forall_not_mem.mpr
    intro s hs
    rw [← mem_sortStrings, h] at hs
    exact List.not_mem_nil hs
  · rintro rfl
    rfl

theorem trimSpace_toList (s : String) :
    (trimSpace s).toList = (s.toList.dropWhile isSpace).rdropWhile isSpace := by
  rw [trimSpace, String.toList_ofList, List.rdropWhile]

/-- What is left by trimming starts and ends without a space. -/
@[simp] theorem trimSpace_trimSpace (s : String) : trimSpace (trimSpace s) = trimSpace s := by
  have hfront : (trimSpace s).toList.dropWhile isSpace = (trimSpace s).toList := by
    rw [List.dropWhile_eq_self_iff]
    intro hpos hspace
    have hprefix : (trimSpace s).toList <+: s.toList.dropWhile isSpace := by
      rw [trimSpace_toList]
      exact List.rdropWhile_prefix isSpace _
    have hlen := hprefix.length_le
    have hhead := List.head_dropWhile_not isSpace (l := s.toList)
      (List.ne_nil_of_length_pos (by omega))
    rw [List.head_eq_getElem, ← hprefix.getElem hpos] at hhead
    rw [hhead] at hspace
    cases hspace
  rw [← String.toList_inj, trimSpace_toList, hfront, trimSpace_toList, List.rdropWhile_idempotent]

theorem hasPrefix_iff {s pre : String} :
    hasPrefix s pre = true ↔ ∃ t, s.toList = pre.toList ++ t := by
  rw [hasPrefix, List.isPrefixOf_iff_prefix]
  exact ⟨fun ⟨t, h⟩ => ⟨t, h.symm⟩, fun ⟨t, h⟩ => ⟨t, h.symm⟩⟩

/-- What starts a text and lacks a character ends before it. -/
theorem prefix_of_lacking {d : Char} {p s r : List Char} (hd : d ∉ p)
    (hr : r.head? = none ∨ r.head? = some d) (h : p <+: s ++ r) : p <+: s := by
  rcases List.prefix_or_prefix_of_prefix h (List.prefix_append s r) with hpre | ⟨x, rfl⟩
  · exact hpre
  · rw [List.prefix_append_right_inj] at h
    cases x with
    | nil => simp
    | cons c x =>
      obtain ⟨y, rfl⟩ := h
      obtain rfl : c = d := by simpa using hr
      simp at hd

/-- What stands in a text and lacks a character stands on one side of it. -/
theorem infix_of_lacking {d : Char} {p a b : List Char} (hd : d ∉ p) :
    p <:+: a ++ d :: b ↔ p <:+: a ∨ p <:+: b := by
  constructor
  · intro h
    induction a with
    | nil =>
      rcases List.infix_cons_iff.mp h with hpre | hin
      · exact .inl (prefix_of_lacking hd (.inr rfl) hpre).isInfix
      · exact .inr hin
    | cons c a ih =>
      rcases List.infix_cons_iff.mp h with hpre | hin
      · have hcut : p <+: c :: a := prefix_of_lacking hd (.inr rfl) hpre
        exact .inl hcut.isInfix
      · exact (ih hin).imp_left fun hin => hin.trans (List.suffix_cons c a).isInfix
  · rintro (h | h)
    · exact h.trans (List.prefix_append a (d :: b)).isInfix
    · exact h.trans ((List.suffix_cons d b).trans (List.suffix_append a (d :: b))).isInfix

section Quote

def escapes : List Char := ['"', '\\', 'a', 'b', 'f', 'n', 'r', 't', 'v', 'x', 'u', 'U']

def hexDigits : List Char := (List.range 16).map Nat.digitChar

theorem hex_digits (n c : ℕ) : ∀ d ∈ (hex n c).toList, d ∈ hexDigits := by
  intro d hd
  simp only [hex, String.toList_ofList, List.mem_map] at hd
  obtain ⟨i, -, rfl⟩ := hd
  exact List.mem_map_of_mem (List.mem_range.mpr (Nat.mod_lt _ (by decide)))

/-- A rune is written as it is, or as a backslash with an escape and digits. -/
def Quoted (tables : CharTables) (c : Char) (s : String) : Prop :=
  s.toList = [c] ∧ c ≠ '"' ∧ c ≠ '\\' ∧ tables.isPrint c = true ∨
    ∃ d w, s.toList = '\\' :: d :: w ∧ d ∈ escapes ∧ ∀ x ∈ w, x ∈ hexDigits

theorem quoted_ite {tables : CharTables} {c : Char} {p : Prop} [Decidable p] {s t : String}
    (hs : p → Quoted tables c s) (ht : ¬p → Quoted tables c t) :
    Quoted tables c (if p then s else t) := by
  split
  · exact hs ‹_›
  · exact ht ‹_›

theorem quoteRune_quoted (tables : CharTables) (c : Char) : Quoted tables c (quoteRune tables c) := by
  have hescape : ∀ d, d ∈ escapes → Quoted tables c (String.ofList ['\\', d]) := by
    intro d hd
    exact .inr ⟨d, [], String.toList_ofList, hd, by simp⟩
  have hhex : ∀ d n, d ∈ escapes → Quoted tables c (String.ofList ['\\', d] ++ hex n c.toNat) := by
    intro d n hd
    refine .inr ⟨d, (hex n c.toNat).toList, ?_, hd, hex_digits n c.toNat⟩
    rw [String.toList_append, String.toList_ofList]
    rfl
  apply quoted_ite (fun _ => hescape '"' (by decide))
  intro hquote
  apply quoted_ite (fun _ => hescape '\\' (by decide))
  intro hslash
  apply quoted_ite
  · intro hprint
    exact .inl ⟨by simp [Char.toString], hquote, hslash, hprint⟩
  · intro _
    apply quoted_ite (fun _ => hescape 'a' (by decide)) fun _ => ?_
    apply quoted_ite (fun _ => hescape 'b' (by decide)) fun _ => ?_
    apply quoted_ite (fun _ => hescape 'f' (by decide)) fun _ => ?_
    apply quoted_ite (fun _ => hescape 'n' (by decide)) fun _ => ?_
    apply quoted_ite (fun _ => hescape 'r' (by decide)) fun _ => ?_
    apply quoted_ite (fun _ => hescape 't' (by decide)) fun _ => ?_
    apply quoted_ite (fun _ => hescape 'v' (by decide)) fun _ => ?_
    apply quoted_ite (fun _ => hhex 'x' 2 (by decide)) fun _ => ?_
    exact quoted_ite (fun _ => hhex 'u' 4 (by decide)) fun _ => hhex 'U' 8 (by decide)

end Quote

end Text
