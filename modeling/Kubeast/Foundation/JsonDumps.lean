import Kubeast.Foundation.JsonData

/-! `json.dumps`, and that the text it writes is decoded to the value it was written for. -/
namespace Json
open Symbols Sorted

/-- `sort_keys`, `separators=(",", ":")` instead of the usual ones, and `ensure_ascii`. -/
structure DumpsOptions where
  sortKeys : Bool
  compact : Bool
  ensureAscii : Bool

section Strings

/-- `\uXXXX`. -/
def unicodeEscape (u : ℕ) : List Char :=
  ['\\', 'u', hexDigit (u / 0x1000), hexDigit (u / 0x100 % 16), hexDigit (u / 16 % 16),
    hexDigit (u % 16)]

def highSurrogate (c : ℕ) : ℕ := 0xD800 + (c - 0x10000) / 0x400

def lowSurrogate (c : ℕ) : ℕ := 0xDC00 + (c - 0x10000) % 0x400

def dumpsChar (ensureAscii : Bool) (c : Char) : List Char :=
  if c = '"' then ['\\', '"']
  else if c = '\\' then ['\\', '\\']
  else if c = '\n' then ['\\', 'n']
  else if c = '\r' then ['\\', 'r']
  else if c = '\t' then ['\\', 't']
  else if c = '\x0c' then ['\\', 'f']
  else if c = '\x08' then ['\\', 'b']
  else if c.toNat < 0x20 then unicodeEscape c.toNat
  else if ensureAscii ∧ 0x7e < c.toNat then
    if c.toNat < 0x10000 then unicodeEscape c.toNat
    else unicodeEscape (highSurrogate c.toNat) ++ unicodeEscape (lowSurrogate c.toNat)
  else [c]

def dumpsBody (ensureAscii : Bool) (s : String) : List Char := s.toList.flatMap (dumpsChar ensureAscii)

def dumpsString (ensureAscii : Bool) (s : String) : List Char := '"' :: (dumpsBody ensureAscii s ++ ['"'])

/-- The code units an escape says. -/
def unitsOf (c : Char) : List ℕ :=
  if c.toNat < 0x10000 then [c.toNat] else [highSurrogate c.toNat, lowSurrogate c.toNat]

theorem unicodeEscape_spec {u : ℕ} (hu : u < 0x10000) (s : List Char) :
    isBody (unicodeEscape u ++ s) = isBody s ∧
      codeUnits (unicodeEscape u ++ s) = u :: codeUnits s := by
  obtain ⟨hex₁, val₁⟩ := hexDigit_spec (u / 0x1000) (by omega)
  obtain ⟨hex₂, val₂⟩ := hexDigit_spec (u / 0x100 % 16) (by omega)
  obtain ⟨hex₃, val₃⟩ := hexDigit_spec (u / 16 % 16) (by omega)
  obtain ⟨hex₄, val₄⟩ := hexDigit_spec (u % 16) (by omega)
  refine ⟨isBody_unicode hex₁ hex₂ hex₃ hex₄ s, ?_⟩
  simp only [unicodeEscape, List.cons_append, List.nil_append, codeUnits, val₁, val₂, val₃, val₄,
    List.cons.injEq, and_true]
  omega

theorem toNat_lt (c : Char) : c.toNat < 0x110000 := by
  have h : c.toNat < 0xD800 ∨ 0xDFFF < c.toNat ∧ c.toNat < 0x110000 := c.valid
  omega

/-- Either what is written is a piece of a body that says the code units of the character, or it
is the character, and says it. -/
theorem dumpsChar_spec (ensureAscii : Bool) (c : Char) (s : List Char) :
    isBody (dumpsChar ensureAscii c ++ s) = isBody s ∧
      (codeUnits (dumpsChar ensureAscii c ++ s) = unitsOf c ++ codeUnits s ∨
        codeUnits (dumpsChar ensureAscii c ++ s) = c.toNat :: codeUnits s) := by
  by_cases h₁ : c = '"'
  · subst h₁
    exact ⟨rfl, Or.inr rfl⟩
  by_cases h₂ : c = '\\'
  · subst h₂
    exact ⟨rfl, Or.inr rfl⟩
  by_cases h₃ : c = '\n'
  · subst h₃
    exact ⟨rfl, Or.inr rfl⟩
  by_cases h₄ : c = '\r'
  · subst h₄
    exact ⟨rfl, Or.inr rfl⟩
  by_cases h₅ : c = '\t'
  · subst h₅
    exact ⟨rfl, Or.inr rfl⟩
  by_cases h₆ : c = '\x0c'
  · subst h₆
    exact ⟨rfl, Or.inr rfl⟩
  by_cases h₇ : c = '\x08'
  · subst h₇
    exact ⟨rfl, Or.inr rfl⟩
  rw [dumpsChar, if_neg h₁, if_neg h₂, if_neg h₃, if_neg h₄, if_neg h₅, if_neg h₆, if_neg h₇]
  split_ifs with hlow hascii hwide
  · obtain ⟨hbody, hunits⟩ := unicodeEscape_spec (u := c.toNat) (by omega) s
    exact ⟨hbody, Or.inr hunits⟩
  · obtain ⟨hbody, hunits⟩ := unicodeEscape_spec hwide s
    exact ⟨hbody, Or.inr hunits⟩
  · have hlt := toNat_lt c
    have hhigh : highSurrogate c.toNat < 0x10000 := by
      unfold highSurrogate
      omega
    have hlow : lowSurrogate c.toNat < 0x10000 := by
      unfold lowSurrogate
      omega
    obtain ⟨hbody, hunits⟩ := unicodeEscape_spec hlow s
    obtain ⟨hbody', hunits'⟩ :=
      unicodeEscape_spec hhigh (unicodeEscape (lowSurrogate c.toNat) ++ s)
    rw [List.append_assoc]
    refine ⟨hbody'.trans hbody, Or.inl ?_⟩
    rw [hunits', hunits, unitsOf, if_neg hwide]
    rfl
  · refine ⟨?_, Or.inr (codeUnits_plain h₂ s)⟩
    rw [List.singleton_append, isBody_plain h₁ h₂]
    simp only [Bool.and_eq_right_iff_imp, decide_eq_true_eq]
    intro _
    omega

theorem isBody_dumpsBody (ensureAscii : Bool) (s : List Char) :
    isBody (s.flatMap (dumpsChar ensureAscii)) = true := by
  induction s with
  | nil => rfl
  | cons c s ih =>
    rw [List.flatMap_cons, (dumpsChar_spec ensureAscii c _).1]
    exact ih

/-- One character is read back from its code unit or from its two. -/
theorem ofCodeUnits_toNat_cons (c : Char) (us : List ℕ) :
    ofCodeUnits (c.toNat :: us) = c :: ofCodeUnits us := by
  cases us with
  | nil => simp [ofCodeUnits, ofCodeUnit_toNat]
  | cons u us =>
    have h := isSurrogate_toNat c
    simp only [isSurrogate, Bool.and_eq_false_iff, decide_eq_false_iff_not] at h
    rw [ofCodeUnits, if_neg (by omega), ofCodeUnit_toNat]

theorem ofCodeUnits_unitsOf (c : Char) (us : List ℕ) :
    ofCodeUnits (unitsOf c ++ us) = c :: ofCodeUnits us := by
  unfold unitsOf
  split
  · exact ofCodeUnits_toNat_cons c us
  · next hwide =>
    have hlt := toNat_lt c
    have hpair : 0xD800 ≤ highSurrogate c.toNat ∧ highSurrogate c.toNat < 0xDC00 ∧
        0xDC00 ≤ lowSurrogate c.toNat ∧ lowSurrogate c.toNat ≤ 0xDFFF := by
      unfold highSurrogate lowSurrogate
      omega
    have hsum : 0x10000 + (highSurrogate c.toNat - 0xD800) * 0x400 +
        (lowSurrogate c.toNat - 0xDC00) = c.toNat := by
      unfold highSurrogate lowSurrogate
      omega
    rw [List.cons_append, List.singleton_append, ofCodeUnits, if_pos hpair, hsum, Char.ofNat_toNat]

theorem unescape_dumpsBody (ensureAscii : Bool) (s : List Char) :
    unescape (s.flatMap (dumpsChar ensureAscii)) = s := by
  unfold unescape
  induction s with
  | nil => rfl
  | cons c s ih =>
    rw [List.flatMap_cons]
    rcases (dumpsChar_spec ensureAscii c (s.flatMap (dumpsChar ensureAscii))).2 with h | h
    · rw [h, ofCodeUnits_unitsOf, ih]
    · rw [h, ofCodeUnits_toNat_cons, ih]

def Body.ofDumps (ensureAscii : Bool) (s : String) : Body Char := ⟨dumpsBody ensureAscii s, by
  rw [map_char_self]
  exact isBody_dumpsBody ensureAscii s.toList⟩

theorem Body.decoded_ofDumps (ensureAscii : Bool) (s : String) :
    String.ofList (Body.ofDumps ensureAscii s).decoded = s := by
  show String.ofList (unescape (s.toList.flatMap (dumpsChar ensureAscii))) = s
  rw [unescape_dumpsBody, String.ofList_toList]

end Strings

section Dumps

/-- Between two items, after the comma, and between a key and its value, after the colon. -/
def DumpsOptions.gap (o : DumpsOptions) : List Char := if o.compact then [] else [' ']

def DumpsOptions.ordered {α : Type*} (o : DumpsOptions) (ms : List (String × α)) :
    List (String × α) :=
  if o.sortKeys then sortBy Prod.fst ms else ms

def DumpsOptions.join (o : DumpsOptions) (parts : List (List Char)) : List Char :=
  (',' :: o.gap).intercalate parts

def DumpsOptions.member (o : DumpsOptions) (m : String × List Char) : List Char :=
  dumpsString o.ensureAscii m.1 ++ ':' :: (o.gap ++ m.2)

mutual

/-- The members of an object are written and then put in order. -/
def Data.dumps (o : DumpsOptions) : Data → List Char
  | .null => nullText
  | .bool b => boolText b
  | .num n => n.text
  | .str s => dumpsString o.ensureAscii s
  | .arr items => '[' :: (o.join (dumpsItems o items) ++ [']'])
  | .obj ms => '{' :: (o.join ((o.ordered (dumpsMembers o ms)).map o.member) ++ ['}'])

def dumpsItems (o : DumpsOptions) : List Data → List (List Char)
  | [] => []
  | d :: ds => d.dumps o :: dumpsItems o ds

def dumpsMembers (o : DumpsOptions) : List (String × Data) → List (String × List Char)
  | [] => []
  | (k, d) :: ms => (k, d.dumps o) :: dumpsMembers o ms

end

variable {o : DumpsOptions}

theorem dumpsItems_eq (ds : List Data) : dumpsItems o ds = ds.map (Data.dumps o) := by
  induction ds with
  | nil => rfl
  | cons d ds ih => rw [dumpsItems, ih, List.map_cons]

theorem dumpsMembers_eq (ms : List (String × Data)) :
    dumpsMembers o ms = ms.map fun m => (m.1, m.2.dumps o) := by
  induction ms with
  | nil => rfl
  | cons m ms ih => rw [dumpsMembers, ih, List.map_cons]

/-- With `sort_keys` the text is that of the value with its members in order. -/
theorem dumps_sortKeys (d : Data) : d.dumps { o with sortKeys := true } =
    d.sorted.dumps { o with sortKeys := false } := by
  induction d using Data.nested with
  | null | bool _ | num _ | str _ => rfl
  | arr items ih =>
    have hitems : items.map (Data.dumps { o with sortKeys := true }) =
        items.map fun d => d.sorted.dumps { o with sortKeys := false } := List.map_congr_left ih
    rw [Data.sorted, Data.dumps, Data.dumps, dumpsItems_eq, dumpsItems_eq, Data.sortedItems_eq,
      List.map_map, hitems]
    rfl
  | obj ms ih =>
    rw [Data.sorted, Data.dumps, Data.dumps, dumpsMembers_eq, dumpsMembers_eq,
      Data.sortedMembers_eq, Data.sortBy_map, List.map_map]
    have hsort : sortBy Prod.fst (ms.map fun m => (m.1, m.2.dumps { o with sortKeys := true })) =
        (sortBy Prod.fst ms).map fun m => (m.1, m.2.dumps { o with sortKeys := true }) :=
      Data.sortBy_map _ ms
    have hms : (sortBy Prod.fst ms).map (fun m => (m.1, m.2.dumps { o with sortKeys := true })) =
        (sortBy Prod.fst ms).map fun m => (m.1, m.2.sorted.dumps { o with sortKeys := false }) :=
      List.map_congr_left fun m hm => by rw [ih m (mem_sortBy.mp hm)]
    simp only [DumpsOptions.ordered, if_true, hsort, hms]
    rfl

end Dumps

section Trees

def Space.none : Space Char := ⟨[], rfl⟩

def DumpsOptions.space (o : DumpsOptions) : Space Char := ⟨o.gap, by
  rw [map_char_self]
  unfold DumpsOptions.gap
  split <;> rfl⟩

/-- The items of an array, with a gap after each comma. -/
def Elems.spaced (gap : Space Char) : Space Char → Node Char → List (Node Char) → Elems Char
  | pre, v, [] => .one pre v Space.none
  | pre, v, w :: vs => .cons pre v Space.none (Elems.spaced gap gap w vs)

def Node.ofItems (gap : Space Char) : List (Node Char) → Node Char
  | [] => .emptyArr Space.none
  | v :: vs => .arr (Elems.spaced gap Space.none v vs)

/-- The members of an object, with a gap after each comma and each colon. -/
def Members.spaced (gap : Space Char) :
    Space Char → Body Char × Node Char → List (Body Char × Node Char) → Members Char
  | pre, m, [] => .one pre m.1 Space.none gap m.2 Space.none
  | pre, m, n :: ms => .cons pre m.1 Space.none gap m.2 Space.none (Members.spaced gap gap n ms)

def Node.ofMembers (gap : Space Char) : List (Body Char × Node Char) → Node Char
  | [] => .emptyObj Space.none
  | m :: ms => .obj (Members.spaced gap Space.none m ms)

variable {gap pre : Space Char} {v : Node Char} {vs : List (Node Char)} {m : Body Char × Node Char}
  {ms : List (Body Char × Node Char)}

theorem Elems.text_spaced : (Elems.spaced gap pre v vs).text =
    pre.text ++ (',' :: gap.text).intercalate (v.text :: vs.map Node.text) := by
  induction vs generalizing pre v with
  | nil => simp [Elems.spaced, Elems.text, Space.none]
  | cons w vs ih => simp [Elems.spaced, Elems.text, Space.none, ih, List.intercalate]

theorem Node.text_ofItems : (Node.ofItems gap vs).text =
    '[' :: ((',' :: gap.text).intercalate (vs.map Node.text) ++ [']']) := by
  cases vs with
  | nil => rfl
  | cons v vs => simp [Node.ofItems, Node.text, Elems.text_spaced, Space.none]

theorem Elems.data_spaced : (Elems.spaced gap pre v vs).data = v.data :: vs.map Node.data := by
  induction vs generalizing pre v with
  | nil => rfl
  | cons w vs ih => rw [Elems.spaced, Elems.data, ih, List.map_cons]

theorem Node.data_ofItems : (Node.ofItems gap vs).data = .arr (vs.map Node.data) := by
  cases vs with
  | nil => rfl
  | cons v vs => rw [Node.ofItems, Node.data, Elems.data_spaced, List.map_cons]

def memberText (gap : Space Char) (m : Body Char × Node Char) : List Char :=
  m.1.quoted ++ ':' :: (gap.text ++ m.2.text)

theorem Members.text_spaced : (Members.spaced gap pre m ms).text =
    pre.text ++ (',' :: gap.text).intercalate (memberText gap m :: ms.map (memberText gap)) := by
  induction ms generalizing pre m with
  | nil => simp [Members.spaced, Members.text, Space.none, memberText]
  | cons n ms ih => simp [Members.spaced, Members.text, Space.none, memberText, ih, List.intercalate]

theorem Node.text_ofMembers : (Node.ofMembers gap ms).text =
    '{' :: ((',' :: gap.text).intercalate (ms.map (memberText gap)) ++ ['}']) := by
  cases ms with
  | nil => rfl
  | cons m ms => simp [Node.ofMembers, Node.text, Members.text_spaced, Space.none]

def memberData (m : Body Char × Node Char) : String × Data := (String.ofList m.1.decoded, m.2.data)

theorem Members.data_spaced :
    (Members.spaced gap pre m ms).data = memberData m :: ms.map memberData := by
  induction ms generalizing pre m with
  | nil => rfl
  | cons n ms ih =>
    rw [Members.spaced, Members.data, ih, List.map_cons]
    rfl

theorem Node.data_ofMembers :
    (Node.ofMembers gap ms).data = .obj (lastOfEach (ms.map memberData)) := by
  cases ms with
  | nil => rfl
  | cons m ms => rw [Node.ofMembers, Node.data, Members.data_spaced, List.map_cons]

theorem Elems.depth_spaced : (Elems.spaced gap pre v vs).depth =
    (v.depth :: vs.map Node.depth).foldr max 0 := by
  induction vs generalizing pre v with
  | nil => simp [Elems.spaced, Elems.depth]
  | cons w vs ih =>
    rw [Elems.spaced, Elems.depth, ih]
    rfl

theorem Node.depth_ofItems : (Node.ofItems gap vs).depth = (vs.map Node.depth).foldr max 0 + 1 := by
  cases vs with
  | nil => rfl
  | cons v vs => rw [Node.ofItems, Node.depth, Elems.depth_spaced, List.map_cons]

theorem Members.depth_spaced : (Members.spaced gap pre m ms).depth =
    (m.2.depth :: ms.map fun m => m.2.depth).foldr max 0 := by
  induction ms generalizing pre m with
  | nil => simp [Members.spaced, Members.depth]
  | cons n ms ih =>
    rw [Members.spaced, Members.depth, ih]
    rfl

theorem Node.depth_ofMembers :
    (Node.ofMembers gap ms).depth = (ms.map fun m => m.2.depth).foldr max 0 + 1 := by
  cases ms with
  | nil => rfl
  | cons m ms => rw [Node.ofMembers, Node.depth, Members.depth_spaced, List.map_cons]

theorem Data.depthItems_eq (ds : List Data) :
    Data.depthItems ds = (ds.map Data.depth).foldr max 0 := by
  induction ds with
  | nil => rfl
  | cons d ds ih => rw [depthItems, ih, List.map_cons, List.foldr_cons]

theorem Data.depthMembers_eq (ms : List (String × Data)) :
    Data.depthMembers ms = (ms.map fun m => m.2.depth).foldr max 0 := by
  induction ms with
  | nil => rfl
  | cons m ms ih => rw [depthMembers, ih, List.map_cons, List.foldr_cons]

end Trees

section RoundTrip
variable {o : DumpsOptions} {d d' : Data}

def nullScalar : Scalar Char := ⟨nullText, by decide⟩

def boolScalar (b : Bool) : Scalar Char := ⟨boolText b, by cases b <;> decide⟩

mutual

/-- The tree of the text that is written for a value, its members in the order they have. -/
def Data.node (o : DumpsOptions) : Data → Node Char
  | .null => .scalar nullScalar
  | .bool b => .scalar (boolScalar b)
  | .num n => .scalar n.scalar
  | .str s => .str (Body.ofDumps o.ensureAscii s)
  | .arr items => Node.ofItems o.space (itemNodes o items)
  | .obj ms => Node.ofMembers o.space (memberNodes o ms)

def itemNodes (o : DumpsOptions) : List Data → List (Node Char)
  | [] => []
  | d :: ds => d.node o :: itemNodes o ds

def memberNodes (o : DumpsOptions) : List (String × Data) → List (Body Char × Node Char)
  | [] => []
  | (k, d) :: ms => (Body.ofDumps o.ensureAscii k, d.node o) :: memberNodes o ms

end

theorem itemNodes_eq (ds : List Data) : itemNodes o ds = ds.map (Data.node o) := by
  induction ds with
  | nil => rfl
  | cons d ds ih => rw [itemNodes, ih, List.map_cons]

theorem memberNodes_eq (ms : List (String × Data)) :
    memberNodes o ms = ms.map fun m => (Body.ofDumps o.ensureAscii m.1, m.2.node o) := by
  induction ms with
  | nil => rfl
  | cons m ms ih => rw [memberNodes, ih, List.map_cons]

theorem Data.text_node (ho : o.sortKeys = false) (d : Data) : (d.node o).text = d.dumps o := by
  induction d using Data.nested with
  | null | bool _ | num _ | str _ => rfl
  | arr items ih =>
    have hitems : items.map (Node.text ∘ Data.node o) = items.map (Data.dumps o) :=
      List.map_congr_left ih
    rw [Data.node, Data.dumps, Node.text_ofItems, itemNodes_eq, dumpsItems_eq, List.map_map, hitems]
    rfl
  | obj ms ih =>
    rw [Data.node, Data.dumps, Node.text_ofMembers, memberNodes_eq, dumpsMembers_eq, List.map_map,
      DumpsOptions.ordered, ho, if_neg Bool.false_ne_true, List.map_map]
    have hms : ms.map (memberText o.space ∘ fun m =>
        (Body.ofDumps o.ensureAscii m.1, m.2.node o)) =
        ms.map (o.member ∘ fun m => (m.1, m.2.dumps o)) := by
      apply List.map_congr_left
      intro m hm
      show _ ++ ':' :: (_ ++ (m.2.node o).text) = _
      rw [ih m hm]
      rfl
    rw [hms]
    rfl

theorem data_num (n : Number) : n.scalar.data = .num n := by
  have hvalid : isNumber n.scalar.text = true := n.valid
  rw [Scalar.data, dif_pos hvalid]
  rfl

theorem Data.data_node (hd : d.Distinct) : (d.node o).data = d := by
  induction d using Data.nested with
  | null => rfl
  | bool b => cases b <;> rfl
  | num n => exact data_num n
  | str s =>
    rw [Data.node, Node.data, Body.decoded_ofDumps]
  | arr items ih =>
    have hitems := Data.distinctItems_iff.mp hd
    rw [Data.node, Node.data_ofItems, itemNodes_eq, List.map_map]
    have hsame : items.map (Node.data ∘ Data.node o) = items := by
      conv_rhs => rw [← List.map_id' items]
      exact List.map_congr_left fun d h => ih d h (hitems d h)
    rw [hsame]
  | obj ms ih =>
    obtain ⟨hkeys, hms⟩ := hd
    rw [Data.distinctMembers_iff] at hms
    rw [Data.node, Node.data_ofMembers, memberNodes_eq, List.map_map]
    have hsame : ms.map (memberData ∘ fun m => (Body.ofDumps o.ensureAscii m.1, m.2.node o)) = ms := by
      conv_rhs => rw [← List.map_id' ms]
      apply List.map_congr_left
      intro m hm
      show (_, (m.2.node o).data) = m
      rw [ih m hm (hms m hm), Body.decoded_ofDumps]
    rw [hsame, lastOfEach_of_nodup hkeys]

theorem Data.depth_node (d : Data) : (d.node o).depth = d.depth := by
  induction d using Data.nested with
  | null | bool _ | num _ | str _ => rfl
  | arr items ih =>
    rw [Data.node, Node.depth_ofItems, itemNodes_eq, List.map_map, Data.depth, Data.depthItems_eq,
      ← List.map_congr_left ih]
    rfl
  | obj ms ih =>
    rw [Data.node, Node.depth_ofMembers, memberNodes_eq, List.map_map, Data.depth,
      Data.depthMembers_eq, ← List.map_congr_left ih]
    rfl

/-- The text is that of one document. -/
theorem parse_dumps (ho : o.sortKeys = false) (d : Data) :
    parse (d.dumps o) = some ⟨Space.none, d.node o, Space.none⟩ := by
  rw [parse_eq_some, Document.text, Data.text_node ho]
  simp [Space.none]

/-- What `json.dumps` writes in the order of the members is decoded to the same value. -/
theorem decode_dumps (ho : o.sortKeys = false) (hd : d.Distinct) :
    decode (d.dumps o) = if d.depth ≤ maxNestingDepth then some d else none := by
  rw [decode, parse_dumps ho, Option.bind_some, Data.depth_node, Data.data_node hd]

/-- A text is written for one value only. -/
theorem dumps_injective (ho : o.sortKeys = false) (hd : d.Distinct) (hd' : d'.Distinct)
    (h : d.dumps o = d'.dumps o) : d = d' := by
  have hparse := parse_dumps ho d
  rw [h, parse_dumps ho d'] at hparse
  have hnode : d'.node o = d.node o := congrArg Document.value (Option.some.inj hparse)
  rw [← Data.data_node hd (o := o), ← hnode, Data.data_node hd']

end RoundTrip

end Json
