import Kubeast.Foundation.Symbols

/-! JSON texts: a tree that keeps every symbol of its text, and a scanner that finds where a value
ends. -/
namespace Json
open Symbols

variable {α : Type*} [Symbol α]

section Lexemes

def isSpaceChar (c : Char) : Bool := c = ' ' || c = '\t' || c = '\n' || c = '\r'

def isDigitChar (c : Char) : Bool := '0' ≤ c && c ≤ '9'

def isHexChar (c : Char) : Bool :=
  isDigitChar c || ('a' ≤ c && c ≤ 'f') || ('A' ≤ c && c ≤ 'F')

/-- What may stand between the quotes of a string. -/
def isBody : List Char → Bool
  | [] => true
  | '\\' :: 'u' :: a :: b :: c :: d :: s =>
      isHexChar a && isHexChar b && isHexChar c && isHexChar d && isBody s
  | '\\' :: c :: s => ['"', '\\', '/', 'b', 'f', 'n', 'r', 't'].contains c && isBody s
  | c :: s => c ≠ '"' && c ≠ '\\' && 0x20 ≤ c.toNat && isBody s

def isDigits (s : List Char) : Bool := s ≠ [] && s.all isDigitChar

/-- The part of a number after its integer part. -/
def isExponent : List Char → Bool
  | [] => true
  | e :: s => (e = 'e' || e = 'E') && match s with
      | [] => false
      | c :: t => if c = '+' ∨ c = '-' then isDigits t else isDigits s

def isFraction : List Char → Bool
  | '.' :: s => isDigits (s.takeWhile isDigitChar) && isExponent (s.dropWhile isDigitChar)
  | s => isExponent s

def isNumber (s : List Char) : Bool :=
  let s := if s.head? = some '-' then s.tail else s
  let int := s.takeWhile isDigitChar
  int ≠ [] && (int.head? ≠ some '0' || int.length = 1) && isFraction (s.dropWhile isDigitChar)

/-- The characters of numbers and of `true`, `false` and `null`. -/
def isScalarChar (c : Char) : Bool :=
  isDigitChar c || ('a' ≤ c && c ≤ 'z') || c = 'E' || c = '+' || c = '-' || c = '.'

def isScalar (s : List Char) : Bool :=
  s.all isScalarChar && (isNumber s || s = "true".toList || s = "false".toList || s = "null".toList)

end Lexemes

variable (α)

structure Space where
  text : List α
  valid : (text.map char).all isSpaceChar = true

structure Body where
  text : List α
  valid : isBody (text.map char) = true

structure Scalar where
  text : List α
  valid : isScalar (text.map char) = true

mutual

/-- A value with all the symbols of its text. -/
inductive Node
  | scalar (t : Scalar α)
  | str (b : Body α)
  | emptyArr (ws : Space α)
  | arr (es : Elems)
  | emptyObj (ws : Space α)
  | obj (ms : Members)

inductive Elems
  | one (pre : Space α) (v : Node) (post : Space α)
  | cons (pre : Space α) (v : Node) (post : Space α) (rest : Elems)

inductive Members
  | one (pre : Space α) (key : Body α) (mid mid' : Space α) (v : Node) (post : Space α)
  | cons (pre : Space α) (key : Body α) (mid mid' : Space α) (v : Node) (post : Space α)
      (rest : Members)

end

variable {α}

def Body.quoted (b : Body α) : List α := lit '"' :: (b.text ++ [lit '"'])

mutual

def Node.text : Node α → List α
  | .scalar t => t.text
  | .str b => b.quoted
  | .emptyArr ws => lit '[' :: (ws.text ++ [lit ']'])
  | .arr es => lit '[' :: (es.text ++ [lit ']'])
  | .emptyObj ws => lit '{' :: (ws.text ++ [lit '}'])
  | .obj ms => lit '{' :: (ms.text ++ [lit '}'])

def Elems.text : Elems α → List α
  | .one pre v post => pre.text ++ (v.text ++ post.text)
  | .cons pre v post rest => pre.text ++ (v.text ++ (post.text ++ lit ',' :: rest.text))

def Members.text : Members α → List α
  | .one pre key mid mid' v post =>
      pre.text ++ (key.quoted ++ (mid.text ++ lit ':' :: (mid'.text ++ (v.text ++ post.text))))
  | .cons pre key mid mid' v post rest =>
      pre.text ++ (key.quoted ++ (mid.text ++ lit ':' :: (mid'.text ++ (v.text ++
        (post.text ++ lit ',' :: rest.text)))))

end

section Scan

/-- The length of a string after its opening quote, up to the closing one. -/
def stringLen : List α → Option ℕ
  | [] => none
  | a :: s =>
      if char a = '"' then some 1
      else if char a = '\\' then match s with
        | [] => none
        | _ :: s => (stringLen s).map (· + 2)
      else (stringLen s).map (· + 1)

/-- Where the scan of an object or an array stands. -/
inductive Mode
  | plain
  | string
  | escape
deriving DecidableEq

/-- The length of an object or an array from here on, `depth` of them being open. -/
def containerLen : ℕ → Mode → List α → Option ℕ
  | _, _, [] => none
  | depth, .escape, _ :: s => (containerLen depth .string s).map (· + 1)
  | depth, .string, a :: s =>
      (containerLen depth (if char a = '\\' then .escape else if char a = '"' then .plain
        else .string) s).map (· + 1)
  | depth, .plain, a :: s =>
      if char a = '"' then (containerLen depth .string s).map (· + 1)
      else if char a = '{' ∨ char a = '[' then (containerLen (depth + 1) .plain s).map (· + 1)
      else if char a = '}' ∨ char a = ']' then
        if depth - 1 = 0 then some 1 else (containerLen (depth - 1) .plain s).map (· + 1)
      else (containerLen depth .plain s).map (· + 1)

/-- A symbol that does not end the scan of a number or a word. -/
def inScalar (a : α) : Bool := !([',', '}', ']', '\r', '\n'].contains (char a))

/-- The length of the value that the text begins with, unless the text ends first. A number or a
word goes on up to what must end it, with the spaces before that. -/
def valueLen : List α → Option ℕ
  | [] => none
  | a :: s =>
      if char a = '"' then (stringLen s).map (· + 1)
      else if char a = '{' ∨ char a = '[' then containerLen 0 .plain (a :: s)
      else some ((a :: s).takeWhile inScalar).length

/-- The scan of an object or an array runs over `t` and stands where it stood. -/
def Passes (t : List α) : Prop := ∀ depth rest, 1 ≤ depth →
  containerLen depth .plain (t ++ rest) = (containerLen depth .plain rest).map (t.length + ·)

theorem Passes.nil : Passes ([] : List α) := by
  intro depth rest _
  simp

theorem Passes.append {t t' : List α} (h : Passes t) (h' : Passes t') : Passes (t ++ t') := by
  intro depth rest hdepth
  rw [List.append_assoc, h depth _ hdepth, h' depth _ hdepth, Option.map_map]
  congr 1
  funext n
  simp [Nat.add_assoc]

theorem Passes.cons {a : α} {t : List α} (ha : char a ∉ ['"', '{', '[', '}', ']']) (h : Passes t) :
    Passes (a :: t) := by
  intro depth rest hdepth
  simp only [List.mem_cons, List.not_mem_nil, or_false, not_or] at ha
  rw [List.cons_append, containerLen]
  simp only [ha, false_or, if_false]
  rw [h depth rest hdepth, Option.map_map]
  congr 1
  funext n
  simp only [Function.comp_apply, List.length_cons]
  omega

theorem Passes.of_forall {t : List α} (h : ∀ a ∈ t, char a ∉ ['"', '{', '[', '}', ']']) :
    Passes t := by
  induction t with
  | nil => exact Passes.nil
  | cons a t ih =>
    rw [List.forall_mem_cons] at h
    exact Passes.cons h.1 (ih h.2)

theorem isBody_plain {c : Char} {s : List Char} (hquote : c ≠ '"') (hslash : c ≠ '\\') :
    isBody (c :: s) = (decide (0x20 ≤ c.toNat) && isBody s) := by
  rw [isBody]
  · simp [hquote, hslash]
  · rintro - - - - - rfl
    exact absurd rfl hslash
  · rintro - - rfl
    exact absurd rfl hslash

theorem hexChar_plain {c : Char} (h : isHexChar c = true) :
    c ≠ '"' ∧ c ≠ '\\' ∧ 0x20 ≤ c.toNat := by
  refine ⟨?_, ?_, ?_⟩
  · rintro rfl
    exact absurd h (by decide)
  · rintro rfl
    exact absurd h (by decide)
  · simp only [isHexChar, isDigitChar, Bool.or_eq_true, Bool.and_eq_true, decide_eq_true_eq,
      Char.le_def, UInt32.le_iff_toNat_le] at h
    show 0x20 ≤ c.val.toNat
    have hzero : ('0'.val.toNat, 'a'.val.toNat, 'A'.val.toNat) = (48, 97, 65) := by decide
    simp only [Prod.mk.injEq] at hzero
    omega

/-- The body of a string begins with a plain character or with an escape of two. -/
theorem isBody_cases {s : List Char} (h : isBody s = true) : s = [] ∨
    (∃ c t, s = c :: t ∧ c ≠ '"' ∧ c ≠ '\\' ∧ isBody t = true) ∨
    ∃ c t, s = '\\' :: c :: t ∧ isBody t = true := by
  unfold isBody at h
  split at h
  · exact Or.inl rfl
  · next a b c d t =>
    right; right
    simp only [Bool.and_eq_true] at h
    obtain ⟨⟨⟨⟨ha, hb⟩, hc⟩, hd⟩, ht⟩ := h
    refine ⟨'u', _, rfl, ?_⟩
    obtain ⟨ha₁, ha₂, ha₃⟩ := hexChar_plain ha
    obtain ⟨hb₁, hb₂, hb₃⟩ := hexChar_plain hb
    obtain ⟨hc₁, hc₂, hc₃⟩ := hexChar_plain hc
    obtain ⟨hd₁, hd₂, hd₃⟩ := hexChar_plain hd
    rw [isBody_plain ha₁ ha₂, isBody_plain hb₁ hb₂, isBody_plain hc₁ hc₂, isBody_plain hd₁ hd₂]
    simp [ha₃, hb₃, hc₃, hd₃, ht]
  · next c t _ =>
    rw [Bool.and_eq_true] at h
    exact Or.inr (Or.inr ⟨c, t, rfl, h.2⟩)
  · next c t _ _ =>
    simp only [Bool.and_eq_true, decide_eq_true_eq] at h
    exact Or.inr (Or.inl ⟨c, t, rfl, h.1.1.1, h.1.1.2, h.2⟩)

theorem stringLen_quote {a : α} {s : List α} (h : char a = '"') : stringLen (a :: s) = some 1 := by
  unfold stringLen
  rw [if_pos h]

theorem stringLen_slash {a b : α} {s : List α} (h : char a = '\\') :
    stringLen (a :: b :: s) = (stringLen s).map (· + 2) := by
  rw [stringLen.eq_def]
  simp [h]

theorem stringLen_plain {a : α} {s : List α} (hquote : char a ≠ '"') (hslash : char a ≠ '\\') :
    stringLen (a :: s) = (stringLen s).map (· + 1) := by
  rw [stringLen.eq_def]
  simp [hquote, hslash]

theorem stringLen_body (t rest : List α) (h : isBody (t.map char) = true) :
    stringLen (t ++ lit '"' :: rest) = some (t.length + 1) := by
  rcases isBody_cases h with hnil | ⟨c, s, hs, hquote, hslash, hbody⟩ | ⟨c, s, hs, hbody⟩
  · rw [List.map_eq_nil_iff.mp hnil]
    exact stringLen_quote (char_lit _)
  · obtain ⟨a, t, rfl, rfl, rfl⟩ := List.map_eq_cons_iff.mp hs
    have hrest := stringLen_body t rest hbody
    rw [List.cons_append, stringLen_plain hquote hslash, hrest]
    rfl
  · obtain ⟨a, u, rfl, ha, hs⟩ := List.map_eq_cons_iff.mp hs
    obtain ⟨b, t, rfl, rfl, rfl⟩ := List.map_eq_cons_iff.mp hs
    have hrest := stringLen_body t rest hbody
    rw [List.cons_append, List.cons_append, stringLen_slash ha, hrest]
    rfl
termination_by t.length

theorem containerLen_body (t rest : List α) (h : isBody (t.map char) = true) (depth : ℕ) :
    containerLen depth .string (t ++ lit '"' :: rest) =
      (containerLen depth .plain rest).map (t.length + 1 + ·) := by
  rcases isBody_cases h with hnil | ⟨c, s, hs, hquote, hslash, hbody⟩ | ⟨c, s, hs, hbody⟩
  · rw [List.map_eq_nil_iff.mp hnil]
    simp [containerLen, Nat.add_comm]
  · obtain ⟨a, t, rfl, rfl, rfl⟩ := List.map_eq_cons_iff.mp hs
    have hrest := containerLen_body t rest hbody depth
    simp only [List.cons_append, containerLen, hquote, hslash, if_false, hrest, Option.map_map]
    congr 1
    funext n
    simp only [Function.comp_apply, List.length_cons]
    omega
  · obtain ⟨a, u, rfl, ha, hs⟩ := List.map_eq_cons_iff.mp hs
    obtain ⟨b, t, rfl, rfl, rfl⟩ := List.map_eq_cons_iff.mp hs
    have hrest := containerLen_body t rest hbody depth
    simp only [List.cons_append, containerLen, ha, if_true, hrest, Option.map_map]
    congr 1
    funext n
    simp only [Function.comp_apply, List.length_cons]
    omega
termination_by t.length

theorem Body.passes (b : Body α) : Passes b.quoted := by
  intro depth rest _
  rw [Body.quoted, List.cons_append, List.append_assoc, containerLen]
  simp only [char_lit, if_true, List.singleton_append]
  rw [containerLen_body b.text rest b.valid depth, Option.map_map]
  congr 1
  funext n
  simp only [Function.comp_apply, List.length_cons, List.length_append, List.length_nil]
  omega

theorem Space.passes (ws : Space α) : Passes ws.text := by
  apply Passes.of_forall
  intro a ha
  have hspace := List.all_eq_true.mp ws.valid _ (List.mem_map_of_mem ha)
  intro hmem
  simp only [List.mem_cons, List.not_mem_nil, or_false] at hmem
  rcases hmem with h | h | h | h | h <;> rw [h] at hspace <;> exact absurd hspace (by decide)

theorem Scalar.isScalarChar (t : Scalar α) : ∀ a ∈ t.text, isScalarChar (char a) = true := by
  intro a ha
  exact List.all_eq_true.mp (Bool.and_eq_true_iff.mp t.valid).1 _ (List.mem_map_of_mem ha)

theorem Scalar.passes (t : Scalar α) : Passes t.text := by
  apply Passes.of_forall
  intro a ha
  have hscalar := t.isScalarChar a ha
  intro hmem
  simp only [List.mem_cons, List.not_mem_nil, or_false] at hmem
  rcases hmem with h | h | h | h | h <;> rw [h] at hscalar <;> exact absurd hscalar (by decide)

/-- What stands between two brackets passes, so the brackets do too. -/
theorem Passes.bracket {t : List α} {o c : Char} (ho : o = '{' ∨ o = '[') (hc : c = '}' ∨ c = ']')
    (h : Passes t) : Passes (lit o :: (t ++ [lit c])) := by
  intro depth rest hdepth
  have hquote : o ≠ '"' ∧ c ≠ '"' ∧ c ≠ '{' ∧ c ≠ '[' := by
    rcases ho with rfl | rfl <;> rcases hc with rfl | rfl <;> decide
  rw [List.cons_append, containerLen]
  simp only [char_lit, hquote.1, if_false, ho, if_true]
  rw [List.append_assoc, h (depth + 1) _ (by omega), List.singleton_append, containerLen]
  simp only [char_lit, hquote, false_or, if_false, hc, if_true]
  rw [if_neg (by omega), Nat.add_sub_cancel, Option.map_map, Option.map_map]
  congr 1
  funext n
  simp only [Function.comp_apply, List.length_cons, List.length_append, List.length_nil]
  omega

theorem Passes.punctuation {c : Char} (hc : c = ',' ∨ c = ':') {t : List α} (h : Passes t) :
    Passes (lit c :: t) := by
  apply Passes.cons _ h
  rcases hc with rfl | rfl <;> simp

mutual

theorem Node.passes : ∀ v : Node α, Passes v.text
  | .scalar t => t.passes
  | .str b => b.passes
  | .emptyArr ws => ws.passes.bracket (Or.inr rfl) (Or.inr rfl)
  | .arr es => es.passes.bracket (Or.inr rfl) (Or.inr rfl)
  | .emptyObj ws => ws.passes.bracket (Or.inl rfl) (Or.inl rfl)
  | .obj ms => ms.passes.bracket (Or.inl rfl) (Or.inl rfl)

theorem Elems.passes : ∀ es : Elems α, Passes es.text
  | .one pre v post => pre.passes.append (v.passes.append post.passes)
  | .cons pre v post rest =>
      pre.passes.append (v.passes.append (post.passes.append (rest.passes.punctuation (Or.inl rfl))))

theorem Members.passes : ∀ ms : Members α, Passes ms.text
  | .one pre key mid mid' v post =>
      pre.passes.append (key.passes.append (mid.passes.append (Passes.punctuation (Or.inr rfl)
        (mid'.passes.append (v.passes.append post.passes)))))
  | .cons pre key mid mid' v post rest =>
      pre.passes.append (key.passes.append (mid.passes.append (Passes.punctuation (Or.inr rfl)
        (mid'.passes.append (v.passes.append (post.passes.append
          (rest.passes.punctuation (Or.inl rfl))))))))

end

def Node.isScalar : Node α → Bool
  | .scalar _ => true
  | _ => false

theorem valueLen_body (b : Body α) (rest : List α) :
    valueLen (b.quoted ++ rest) = some b.quoted.length := by
  rw [Body.quoted, List.cons_append, List.append_assoc, valueLen]
  simp only [char_lit, if_true, List.singleton_append]
  rw [stringLen_body b.text rest b.valid]
  simp

theorem valueLen_bracket {t rest : List α} {o c : Char} (ho : o = '{' ∨ o = '[')
    (hc : c = '}' ∨ c = ']') (h : Passes t) :
    valueLen (lit o :: (t ++ [lit c]) ++ rest) = some (lit o :: (t ++ [lit c])).length := by
  have hquote : o ≠ '"' ∧ c ≠ '"' ∧ c ≠ '{' ∧ c ≠ '[' := by
    rcases ho with rfl | rfl <;> rcases hc with rfl | rfl <;> decide
  rw [List.cons_append, List.append_assoc, valueLen]
  simp only [char_lit, hquote.1, if_false, ho, if_true]
  rw [containerLen]
  simp only [char_lit, hquote.1, if_false, ho, if_true]
  rw [h 1 _ (by omega), List.singleton_append, containerLen]
  simp only [char_lit, hquote, false_or, if_false, hc, if_true]
  simp

/-- A string, an object and an array end where their text ends, whatever follows. -/
theorem valueLen_node {v : Node α} (hv : v.isScalar = false) (rest : List α) :
    valueLen (v.text ++ rest) = some v.text.length := by
  cases v with
  | scalar t => cases hv
  | str b => exact valueLen_body b rest
  | emptyArr ws => exact valueLen_bracket (Or.inr rfl) (Or.inr rfl) ws.passes
  | arr es => exact valueLen_bracket (Or.inr rfl) (Or.inr rfl) es.passes
  | emptyObj ws => exact valueLen_bracket (Or.inl rfl) (Or.inl rfl) ws.passes
  | obj ms => exact valueLen_bracket (Or.inl rfl) (Or.inl rfl) ms.passes

theorem Scalar.exists_cons (t : Scalar α) : ∃ a s, t.text = a :: s := by
  cases h : t.text with
  | nil =>
    have hvalid := t.valid
    rw [h, List.map_nil] at hvalid
    exact absurd hvalid (by decide)
  | cons a s => exact ⟨a, s, rfl⟩

theorem inScalar_of_isScalarChar {a : α} (h : isScalarChar (char a) = true) :
    inScalar a = true := by
  unfold inScalar
  rw [Bool.not_eq_true', Bool.eq_false_iff]
  intro hmem
  simp only [List.contains_iff_mem, List.mem_cons, List.not_mem_nil, or_false] at hmem
  rcases hmem with h' | h' | h' | h' | h' <;> rw [h'] at h <;> exact absurd h (by decide)

theorem valueLen_scalar (t : Scalar α) (rest : List α) :
    valueLen (t.text ++ rest) = some (t.text.length + (rest.takeWhile inScalar).length) := by
  have hall : ∀ a ∈ t.text, inScalar a = true := fun a ha =>
    inScalar_of_isScalarChar (t.isScalarChar a ha)
  obtain ⟨a, s, hs⟩ := t.exists_cons
  have ha : isScalarChar (char a) = true := t.isScalarChar a (by simp [hs])
  have hopen : char a ≠ '"' ∧ char a ≠ '{' ∧ char a ≠ '[' := by
    refine ⟨?_, ?_, ?_⟩ <;> intro h <;> rw [h] at ha <;> exact absurd ha (by decide)
  have htake : (t.text ++ rest).takeWhile inScalar = t.text ++ rest.takeWhile inScalar :=
    List.takeWhile_append_of_pos hall
  rw [hs, List.cons_append] at htake ⊢
  rw [valueLen]
  simp only [hopen, false_or, if_false]
  rw [htake, List.length_append]

end Scan

end Json
