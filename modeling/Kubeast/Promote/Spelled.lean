import Kubeast.Promote.Lines

/-! What the YAML library has to be trusted with: it reports each image scalar where it stands and as it
reads there, and a scalar that is written over by another of its style is read as that one. -/
namespace Kubeast.Promote
open Yaml (Style quoted read closed paired closed_cons paired_cons)

section Reports

/-- What is reported of a container's image besides its place. -/
inductive View
  | absent
  | scalar (flow : Bool) (style : Style) (value : String)
  | other

/-- The context that the scalars of a container stand in. -/
def isFlow : Node → Bool
  | .mapping flow _ => flow
  | _ => false

def viewOf (c : Node) : View :=
  match lookup "image" (some c) with
  | none => .absent
  | some (.scalar style value _ _) => .scalar (isFlow c) style value
  | some _ => .other

/-- A container with the token of its image and the text up to the next one. -/
structure Piece where
  name : String
  view : View
  token : List Char
  after : List Char

def spell (pieces : List Piece) : List Char := pieces.flatMap fun p => p.token ++ p.after

/-- Whether a place is at the start of a line. -/
def atStart (before : List Char) : Bool := (lastLine before).isEmpty

/-- A token that a scalar is truthfully reported of. -/
def Spelt (style : Style) (flow start : Bool) (token after : List Char) (value : String) : Prop :=
  match style with
  | .literal | .folded => True
  | .double => if '\n' ∈ token then ∃ body, token = '"' :: body ++ ['"'] ∧ closed body = true
    else read .double flow start token after = some value.toList
  | .single => if '\n' ∈ token then ∃ body, token = '\'' :: body ++ ['\''] ∧ paired body = true
    else read .single flow start token after = some value.toList
  -- lines are folded, so that the value is not what stands on the first one
  | .plain => if '\n' ∈ token then ¬value.toList <+: firstLine token
    else read .plain flow start token after = some value.toList

/-- A container as it is reported: its image where it stands. -/
structure Placed (before : List Char) (c : String × Node) (p : Piece) : Prop where
  name : p.name = c.1
  view : p.view = viewOf c.2
  place : ∀ style value line column, lookup "image" (some c.2) = some (.scalar style value line column) →
    line = lineOf before + 1 ∧ column = (lastLine before).length + 1 ∧
      Spelt style (isFlow c.2) (atStart before) p.token p.after value

def Spells : List Char → List (String × Node) → List Piece → Prop
  | _, [], [] => True
  | before, c :: containers, p :: pieces =>
    Placed before c p ∧ (p.after = [] → pieces = []) ∧ Spells (before ++ p.token ++ p.after) containers pieces
  | _, _, _ => False

/-- A file that is reported truthfully. -/
structure Codec.Spelled (y : Codec) (file : List Char) (top : Node) (first : List Char)
    (pieces : List Piece) : Prop where
  written : Text.trimSpace (String.ofList file) ≠ ""
  parsed : y.parse file = .ok (some top)
  text : file = first ++ spell pieces
  places : ∃ flow containers, lookup "containers" (some top) = some (.mapping flow containers) ∧
    Spells first containers pieces

/-- A one-line scalar written over by one of its style. -/
structure Rewords (before : List Char) (p p' : Piece) : Prop where
  name : p'.name = p.name
  after : p'.after = p.after
  line : '\n' ∉ p.token ∧ '\n' ∉ p'.token
  reads : ∃ flow style value value', p.view = .scalar flow style value ∧ p'.view = .scalar flow style value' ∧
    read style flow (atStart before) p'.token p.after = some value'.toList

def Reworded : List Char → List Piece → List Piece → Prop
  | _, [], [] => True
  | before, p :: pieces, p' :: pieces' =>
    (p' = p ∨ Rewords before p p') ∧ Reworded (before ++ p.token ++ p.after) pieces pieces'
  | _, _, _ => False

/-- What is written over is reported as it then reads, and the rest as before. -/
def Codec.Local (y : Codec) : Prop :=
  ∀ file top first pieces pieces', y.Spelled file top first pieces → Reworded first pieces pieces' →
    ∃ top', y.Spelled (first ++ spell pieces') top' first pieces'

end Reports

section TokenEnd
variable {s t body token after rest before : List Char} {i col stop : ℕ} {style : Style}
  {flow start : Bool} {value : String}

attribute [local simp] doubleEnd singleEnd closed paired

theorem ne_backslash {c : Char} (hpair : ∀ d t, c = '\\' → s = d :: t → False)
    (hlast : c = '\\' → s = [] → False) : c ≠ '\\' := by
  rintro rfl
  cases s with
  | nil => exact hlast rfl rfl
  | cons d s => exact hpair d s rfl rfl

theorem doubleEnd_cons {c : Char} (hquote : c ≠ '"') (hback : c ≠ '\\') :
    doubleEnd i (c :: s) = doubleEnd (i + c.utf8Size) s := by
  rw [doubleEnd]
  · exact fun _ _ hc => absurd hc hback
  · exact fun hc => absurd hc hback
  · exact hquote

theorem doubleEnd_closed (h : closed body = true) :
    doubleEnd i (body ++ '"' :: rest) = some (i + bytes body + 1) := by
  induction body using Yaml.closed.induct generalizing i with
  | case1 => rfl
  | case2 c s ih =>
    have hback : ('\\').utf8Size = 1 := rfl
    rw [List.cons_append, List.cons_append, doubleEnd, ih h, bytes_cons, bytes_cons, hback]
    exact congrArg some (by omega)
  | case3 => contradiction
  | case4 => contradiction
  | case5 c s hpair hback hquote ih =>
    have hback := ne_backslash hpair hback
    rw [closed_cons hquote hback] at h
    rw [List.cons_append, doubleEnd_cons hquote hback, ih h, bytes_cons]
    exact congrArg some (by omega)

theorem doubleEnd_none (h : closed (s ++ t) = true) : doubleEnd i s = none := by
  induction s using Yaml.closed.induct generalizing i with
  | case1 => rfl
  | case2 c s ih =>
    rw [doubleEnd]
    exact ih h
  | case3 => rfl
  | case4 => contradiction
  | case5 c s hpair hback hquote ih =>
    have hback := ne_backslash hpair hback
    rw [List.cons_append, closed_cons hquote hback] at h
    rw [doubleEnd_cons hquote hback]
    exact ih h

theorem singleEnd_cons {c : Char} (h : c ≠ '\'') : singleEnd i (c :: s) = singleEnd (i + c.utf8Size) s := by
  rw [singleEnd]
  · exact fun _ hc => absurd hc h
  · exact h

theorem singleEnd_quote (h : rest.head? ≠ some '\'') : singleEnd i ('\'' :: rest) = some (i + 1) := by
  cases rest with
  | nil => rfl
  | cons c rest =>
    rw [singleEnd]
    rintro s ⟨⟩
    exact h rfl

theorem singleEnd_paired (h : paired body = true) (hrest : rest.head? ≠ some '\'') :
    singleEnd i (body ++ '\'' :: rest) = some (i + bytes body + 1) := by
  induction body using Yaml.paired.induct generalizing i with
  | case1 => exact singleEnd_quote hrest
  | case2 s ih =>
    have hquote : ('\'').utf8Size = 1 := rfl
    rw [List.cons_append, List.cons_append, singleEnd, ih h, bytes_cons, bytes_cons, hquote]
    exact congrArg some (by omega)
  | case3 s hquote =>
    rw [Yaml.paired_quote] at h
    · contradiction
    · exact hquote
  | case4 c s _ hc ih =>
    rw [paired_cons hc] at h
    rw [List.cons_append, singleEnd_cons hc, ih h, bytes_cons]
    exact congrArg some (by omega)

/-- On a line that its scalar goes beyond there is no end. -/
theorem singleEnd_line (h : paired (s ++ '\n' :: t) = true) : singleEnd i (s ++ ['\n']) = none := by
  induction s using Yaml.paired.induct generalizing i with
  | case1 => rfl
  | case2 s ih =>
    rw [List.cons_append, List.cons_append, singleEnd]
    exact ih h
  | case3 s hquote =>
    rw [List.cons_append, Yaml.paired_quote] at h
    · contradiction
    · cases s with
      | nil => exact nofun
      | cons c s =>
        rintro u ⟨⟩
        exact hquote s rfl
  | case4 c s _ hc ih =>
    rw [List.cons_append, paired_cons hc] at h
    rw [List.cons_append, singleEnd_cons hc]
    exact ih h

theorem exists_body {q : Char} (hq : q ≠ '\n') (h : q :: body ++ [q] = s ++ '\n' :: t) :
    ∃ u v, s = q :: u ∧ body = u ++ '\n' :: v := by
  cases s with
  | nil => exact absurd (List.cons.inj h).1 hq
  | cons c u =>
    obtain ⟨rfl, hrest⟩ := List.cons.inj h
    rcases List.eq_nil_or_concat' t with rfl | ⟨v, d, rfl⟩
    · exact absurd (List.append_inj' hrest rfl).2 (by simpa using hq)
    · have hsplit : body ++ [q] = (u ++ '\n' :: v) ++ [d] := by
        rw [List.append_assoc]
        exact hrest
      exact ⟨u, v, rfl, (List.append_inj' hsplit rfl).1⟩

/-- What `tokenEnd` makes of the end that it found. -/
def ended (stop : Option ℕ) : Except String ℕ :=
  match stop with
  | some stop => .ok stop
  | none => .error "image must be a one-line value"

theorem tokenEnd_plain : tokenEnd (before ++ s) (bytes before) .plain value =
    ended (if value.toList.isPrefixOf s then some (bytes before + bytes value.toList) else none) := by
  unfold tokenEnd
  rw [cut_bytes]
  rfl

theorem tokenEnd_double : tokenEnd (before ++ '"' :: s) (bytes before) .double value =
    ended (doubleEnd (bytes before + 1) s) := by
  unfold tokenEnd
  rw [cut_bytes]
  rfl

theorem tokenEnd_single : tokenEnd (before ++ '\'' :: s) (bytes before) .single value =
    ended (singleEnd (bytes before + 1) s) := by
  unfold tokenEnd
  rw [cut_bytes]
  rfl

/-- No scalar of several lines ends on its first one. -/
theorem tokenEnd_lines (hstyle : style ≠ .literal ∧ style ≠ .folded) (hmem : '\n' ∈ token)
    (hspelt : Spelt style flow start token after value) :
    tokenEnd (before ++ firstLine (token ++ rest)) (bytes before) style value = ended none := by
  obtain ⟨s, t, hsplit, hfirst⟩ := firstLine_of_mem hmem
  rw [hfirst]
  cases style with
  | plain =>
    rw [Spelt, if_pos hmem, ← List.append_nil token, hfirst, ← List.isPrefixOf_iff_prefix] at hspelt
    rw [tokenEnd_plain, if_neg hspelt]
  | double =>
    rw [Spelt, if_pos hmem] at hspelt
    obtain ⟨body, htoken, hclosed⟩ := hspelt
    obtain ⟨u, v, rfl, rfl⟩ := exists_body (by decide) (htoken ▸ hsplit)
    have hline : closed (u ++ ['\n'] ++ v) = true := by rwa [List.append_assoc]
    rw [List.cons_append, tokenEnd_double, doubleEnd_none hline]
  | single =>
    rw [Spelt, if_pos hmem] at hspelt
    obtain ⟨body, htoken, hpaired⟩ := hspelt
    obtain ⟨u, v, rfl, rfl⟩ := exists_body (by decide) (htoken ▸ hsplit)
    rw [List.cons_append, tokenEnd_single, singleEnd_line hpaired]
  | literal => exact absurd rfl hstyle.1
  | folded => exact absurd rfl hstyle.2

theorem bytes_quotes {q : Char} (hq : q.utf8Size = 1) : bytes (q :: body ++ [q]) = 1 + bytes body + 1 := by
  rw [bytes_append, bytes_cons, bytes_cons, bytes_nil, hq]

/-- A line begins as the text does that it stands in. -/
theorem head?_firstLine {q : Char} (hafter : after = [] → rest = []) (hq : after.head? ≠ some q) :
    (firstLine (after ++ rest)).head? ≠ some q := by
  cases after with
  | nil =>
    rw [hafter rfl]
    exact nofun
  | cons c s =>
    rw [List.cons_append]
    by_cases hc : c = '\n'
    · rw [hc, firstLine, splitAfter_break]
      exact hc ▸ hq
    · rw [firstLine, splitAfter_cons hc]
      exact hq

/-- A scalar on one line ends where its token does. -/
theorem tokenEnd_read (hread : read style flow start token after = some value.toList)
    (hrest : after.head? ≠ some '\'' → rest.head? ≠ some '\'') :
    tokenEnd (before ++ (token ++ rest)) (bytes before) style value = .ok (bytes before + bytes token) := by
  cases style with
  | plain =>
    obtain ⟨rfl, -⟩ := Yaml.read_plain_some hread
    rw [tokenEnd_plain, if_pos (List.isPrefixOf_iff_prefix.mpr (List.prefix_append _ _))]
    rfl
  | double =>
    obtain ⟨body, rfl, hvalue⟩ := Yaml.read_double_some hread
    have hclosed : closed body = true := Yaml.closed_of_unescape hvalue
    rw [List.append_assoc, List.cons_append, tokenEnd_double, List.singleton_append, doubleEnd_closed hclosed,
      bytes_quotes (by decide)]
    exact congrArg Except.ok (by omega)
  | single =>
    obtain ⟨body, rfl, hvalue, hquote⟩ := Yaml.read_single_some hread
    rw [List.append_assoc, List.cons_append, tokenEnd_single, List.singleton_append,
      singleEnd_paired (Yaml.paired_of_undouble hvalue) (hrest hquote), bytes_quotes (by decide)]
    exact congrArg Except.ok (by omega)
  | literal => exact nomatch hread
  | folded => exact nomatch hread

/-- The edit of a scalar that is written over. -/
def editOver (before : List Char) (style : Style) (token : List Char) (img : String) : Edit :=
  ⟨lineOf before, bytes (lastLine before), bytes (lastLine before) + bytes token, quoted style img.toList⟩

/-- An edit that is made takes a scalar on one line. -/
theorem editAt_ok {img : String} {e : Edit} (hstyle : style ≠ .literal ∧ style ≠ .folded)
    (hspelt : Spelt style flow (atStart before) token after value)
    (hafter : after = [] → rest = [])
    (h : editAt (splitAfter (before ++ (token ++ (after ++ rest)))) style value (lineOf before + 1)
      ((lastLine before).length + 1) img = .ok e) :
    '\n' ∉ token ∧ read style flow (atStart before) token after = some value.toList ∧
      e = editOver before style token img := by
  unfold editAt at h
  rw [Nat.add_sub_cancel, Nat.add_sub_cancel, getElem?_lineOf] at h
  dsimp only at h
  rw [byteColumn_append] at h
  by_cases hmem : '\n' ∈ token
  · rw [tokenEnd_lines hstyle hmem hspelt] at h
    exact nomatch h
  have hread : read style flow (atStart before) token after = some value.toList := by
    cases style with
    | plain => rwa [Spelt, if_neg hmem] at hspelt
    | double => rwa [Spelt, if_neg hmem] at hspelt
    | single => rwa [Spelt, if_neg hmem] at hspelt
    | literal => exact absurd rfl hstyle.1
    | folded => exact absurd rfl hstyle.2
  refine ⟨hmem, hread, ?_⟩
  rw [firstLine_append hmem, tokenEnd_read hread (head?_firstLine hafter)] at h
  exact (Except.ok.inj h).symm

end TokenEnd
end Kubeast.Promote
