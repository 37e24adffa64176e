import Kubeast.Foundation.Json

/-! What a string of a JSON text says, and how a string is written. -/
namespace Json
open Symbols

section Unescape

def hexVal (c : Char) : ℕ :=
  if isDigitChar c then c.toNat - 48 else if 'a' ≤ c then c.toNat - 87 else c.toNat - 55

def simpleEscape (c : Char) : Char :=
  if c = 'b' then '\x08' else if c = 'f' then '\x0c' else if c = 'n' then '\n'
  else if c = 'r' then '\r' else if c = 't' then '\t' else c

/-- The characters of a body; an escaped one may be half of a surrogate pair. -/
def codeUnits : List Char → List ℕ
  | [] => []
  | '\\' :: 'u' :: a :: b :: c :: d :: s =>
      (((hexVal a * 16 + hexVal b) * 16 + hexVal c) * 16 + hexVal d) :: codeUnits s
  | '\\' :: c :: s => (simpleEscape c).toNat :: codeUnits s
  | c :: s => c.toNat :: codeUnits s

def isSurrogate (u : ℕ) : Bool := 0xD800 ≤ u && u ≤ 0xDFFF

/-- A surrogate without its other half is the replacement character. -/
def ofCodeUnit (u : ℕ) : Char := if isSurrogate u then '\uFFFD' else Char.ofNat u

def ofCodeUnits : List ℕ → List Char
  | [] => []
  | [u] => [ofCodeUnit u]
  | u :: u' :: s =>
      if 0xD800 ≤ u ∧ u < 0xDC00 ∧ 0xDC00 ≤ u' ∧ u' ≤ 0xDFFF then
        Char.ofNat (0x10000 + (u - 0xD800) * 0x400 + (u' - 0xDC00)) :: ofCodeUnits s
      else ofCodeUnit u :: ofCodeUnits (u' :: s)

def unescape (s : List Char) : List Char := ofCodeUnits (codeUnits s)

theorem codeUnits_plain {c : Char} (h : c ≠ '\\') (s : List Char) :
    codeUnits (c :: s) = c.toNat :: codeUnits s := by
  rw [codeUnits]
  · rintro - - - - - rfl
    exact absurd rfl h
  · rintro - - rfl
    exact absurd rfl h

theorem codeUnits_of_no_slash {s : List Char} (h : '\\' ∉ s) : codeUnits s = s.map Char.toNat := by
  induction s with
  | nil => rfl
  | cons c s ih =>
    rw [List.mem_cons, not_or] at h
    rw [codeUnits_plain (Ne.symm h.1), ih h.2, List.map_cons]

theorem isSurrogate_toNat (c : Char) : isSurrogate c.toNat = false := by
  have h : c.toNat < 0xD800 ∨ 0xDFFF < c.toNat ∧ c.toNat < 0x110000 := c.valid
  simp only [isSurrogate, Bool.and_eq_false_iff, decide_eq_false_iff_not]
  omega

theorem ofCodeUnit_toNat (c : Char) : ofCodeUnit c.toNat = c := by
  rw [ofCodeUnit, isSurrogate_toNat]
  exact Char.ofNat_toNat c

theorem ofCodeUnits_toNat (s : List Char) : ofCodeUnits (s.map Char.toNat) = s := by
  induction s with
  | nil => rfl
  | cons c s ih =>
    cases s with
    | nil => simp [ofCodeUnits, ofCodeUnit_toNat]
    | cons d s =>
      have h := isSurrogate_toNat c
      simp only [isSurrogate, Bool.and_eq_false_iff, decide_eq_false_iff_not] at h
      rw [List.map_cons, List.map_cons, ofCodeUnits, if_neg (by omega), ofCodeUnit_toNat,
        ← List.map_cons, ih]

/-- A body without a backslash says itself. -/
theorem unescape_of_no_slash {s : List Char} (h : '\\' ∉ s) : unescape s = s := by
  rw [unescape, codeUnits_of_no_slash h, ofCodeUnits_toNat]

end Unescape

section Escape

def hexDigit (n : ℕ) : Char := if n < 10 then Char.ofNat (48 + n) else Char.ofNat (87 + n)

def escapeChar (c : Char) : List Char :=
  if c = '"' then ['\\', '"']
  else if c = '\\' then ['\\', '\\']
  else if c = '\x08' then ['\\', 'b']
  else if c = '\x0c' then ['\\', 'f']
  else if c = '\n' then ['\\', 'n']
  else if c = '\r' then ['\\', 'r']
  else if c = '\t' then ['\\', 't']
  else if c.toNat < 0x20 then
    ['\\', 'u', '0', '0', hexDigit (c.toNat / 16), hexDigit (c.toNat % 16)]
  else if c.toNat = 0x2028 ∨ c.toNat = 0x2029 then
    ['\\', 'u', '2', '0', '2', hexDigit (c.toNat % 16)]
  else [c]

def escape (s : List Char) : List Char := s.flatMap escapeChar

theorem hexDigit_spec : ∀ n < 16, isHexChar (hexDigit n) = true ∧ hexVal (hexDigit n) = n := by
  decide

theorem isBody_unicode {a b c d : Char} (ha : isHexChar a = true) (hb : isHexChar b = true)
    (hc : isHexChar c = true) (hd : isHexChar d = true) (s : List Char) :
    isBody ('\\' :: 'u' :: a :: b :: c :: d :: s) = isBody s := by
  rw [isBody, ha, hb, hc, hd]
  rfl

/-- What is written for one character is a piece of a body that says this character. -/
theorem escapeChar_spec (c : Char) (s : List Char) :
    isBody (escapeChar c ++ s) = isBody s ∧
      codeUnits (escapeChar c ++ s) = c.toNat :: codeUnits s := by
  by_cases h₁ : c = '"'
  · subst h₁
    exact ⟨rfl, rfl⟩
  by_cases h₂ : c = '\\'
  · subst h₂
    exact ⟨rfl, rfl⟩
  by_cases h₃ : c = '\x08'
  · subst h₃
    exact ⟨rfl, rfl⟩
  by_cases h₄ : c = '\x0c'
  · subst h₄
    exact ⟨rfl, rfl⟩
  by_cases h₅ : c = '\n'
  · subst h₅
    exact ⟨rfl, rfl⟩
  by_cases h₆ : c = '\r'
  · subst h₆
    exact ⟨rfl, rfl⟩
  by_cases h₇ : c = '\t'
  · subst h₇
    exact ⟨rfl, rfl⟩
  rw [escapeChar, if_neg h₁, if_neg h₂, if_neg h₃, if_neg h₄, if_neg h₅, if_neg h₆, if_neg h₇]
  split_ifs with hlow hsep
  · obtain ⟨hhigh, hhigh'⟩ := hexDigit_spec (c.toNat / 16) (by omega)
    obtain ⟨hlow', hlow''⟩ := hexDigit_spec (c.toNat % 16) (by omega)
    refine ⟨isBody_unicode (by decide) (by decide) hhigh hlow' s, ?_⟩
    have hzero : hexVal '0' = 0 := by decide
    simp only [List.cons_append, List.nil_append, codeUnits, hzero, hhigh', hlow'',
      List.cons.injEq, and_true]
    omega
  · obtain ⟨hlow', hlow''⟩ := hexDigit_spec (c.toNat % 16) (by omega)
    refine ⟨isBody_unicode (by decide) (by decide) (by decide) hlow' s, ?_⟩
    have hzero : hexVal '0' = 0 := by decide
    have htwo : hexVal '2' = 2 := by decide
    simp only [List.cons_append, List.nil_append, codeUnits, hzero, htwo, hlow'',
      List.cons.injEq, and_true]
    omega
  · refine ⟨?_, codeUnits_plain h₂ s⟩
    rw [List.singleton_append, isBody_plain h₁ h₂]
    simp only [Bool.and_eq_right_iff_imp, decide_eq_true_eq]
    intro _
    omega

theorem isBody_escape (s : List Char) : isBody (escape s) = true := by
  induction s with
  | nil => rfl
  | cons c s ih =>
    rw [escape, List.flatMap_cons, (escapeChar_spec c _).1]
    exact ih

theorem codeUnits_escape (s : List Char) : codeUnits (escape s) = s.map Char.toNat := by
  induction s with
  | nil => rfl
  | cons c s ih =>
    rw [escape, List.flatMap_cons, (escapeChar_spec c _).2, List.map_cons, ← ih]
    rfl

theorem unescape_escape (s : List Char) : unescape (escape s) = s := by
  rw [unescape, codeUnits_escape, ofCodeUnits_toNat]

/-- What the string says. -/
def Body.decoded (b : Body Char) : List Char := unescape b.text

def Body.ofString (s : List Char) : Body Char := ⟨escape s, by
  rw [map_char_self]
  exact isBody_escape s⟩

@[simp] theorem Body.decoded_ofString (s : List Char) : (Body.ofString s).decoded = s :=
  unescape_escape s

end Escape

end Json
