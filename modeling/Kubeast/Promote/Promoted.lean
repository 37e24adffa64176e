import Kubeast.Promote.Written
import Kubeast.Promote.Applied

/-! Files of double-quoted images, as the YAML library reads them. -/
namespace Kubeast.Promote.QuotedImages
open Yaml (Style quoted read closed)

section Cells

/-- A container of a file: its name with the text behind its image, and the image as it stands and as it reads. -/
structure Cell where
  slot : String × List Char
  token : List Char
  value : List Char

namespace Cell

def Reads (c : Cell) : Prop := read .double true false c.token c.slot.2 = some c.value

def text (c : Cell) : List Char := c.token ++ c.slot.2

def piece (c : Cell) : Piece := ⟨c.slot.1, .scalar true .double (String.ofList c.value), c.token, c.slot.2⟩

def container (before : List Char) (c : Cell) : Node :=
  .mapping true [("image", .scalar .double (String.ofList c.value) (lineOf before + 1) ((lastLine before).length + 1))]

end Cell

def containers : List Char → List Cell → List (String × Node)
  | _, [] => []
  | before, c :: cells => (c.slot.1, c.container before) :: containers (before ++ c.token ++ c.slot.2) cells

def front : List Char := "containers: \x7bapp: \x7bimage: ".toList

def topOf (cells : List Cell) : Node := .mapping false [("containers", .mapping true (containers front cells))]

/-- The double-quoted scalar that a text begins with, and what follows it. -/
def nextToken : List Char → Option (List Char × List Char)
  | '"' :: s => (doubleEnd 1 s).map fun stop => cut stop ('"' :: s)
  | _ => none

/-- The images of a text that has a scalar before each of these texts. -/
def cellsOf : List (String × List Char) → List Char → Option (List Cell)
  | [], s => if s = [] then some [] else none
  | slot :: slots, s =>
    match nextToken s with
    | none => none
    | some (token, rest) =>
      match rest.dropPrefix? slot.2, read .double true false token slot.2 with
      | some rest, some value => (cellsOf slots rest).map (⟨slot, token, value⟩ :: ·)
      | _, _ => none

/-- A file with these containers; no other one is a document. -/
def codec (slots : List (String × List Char)) : Codec where
  parse file :=
    match (file.dropPrefix? front).bind (cellsOf slots) with
    | some cells => .ok (some (topOf cells))
    | none => .error "yaml: did not find expected node content"
  encode _ _ := .error "yaml: cannot encode"

end Cells

section Parse
variable {before before' first file s t rest b : List Char} {slots : List (String × List Char)}
  {cells : List Cell} {c : Cell} {top : Node} {p : Piece} {pieces pieces' : List Piece} {value : String}
  {flow start : Bool}

theorem cut_append (n : ℕ) (s : List Char) : (cut n s).1 ++ (cut n s).2 = s := by
  fun_induction cut n s with
  | case1 => rfl
  | case2 => rfl
  | case3 _ c s _ _ ih => exact congrArg (c :: ·) ih
  | case4 => rfl

theorem nextToken_closed (h : closed b = true) :
    nextToken ('"' :: b ++ ['"'] ++ rest) = some ('"' :: b ++ ['"'], rest) := by
  have hcut : cut (bytes ('"' :: b ++ ['"'])) ('"' :: b ++ ['"'] ++ rest) = _ := cut_bytes
  rw [bytes_quotes (by decide)] at hcut
  rw [← hcut, List.append_assoc, List.cons_append, List.singleton_append, nextToken, doubleEnd_closed h]
  rfl

theorem nextToken_append (h : nextToken s = some (t, rest)) : s = t ++ rest := by
  unfold nextToken at h
  split at h
  · obtain ⟨stop, -, hcut⟩ := Option.map_eq_some_iff.mp h
    obtain ⟨rfl, rfl⟩ := Prod.mk.inj hcut
    exact (cut_append _ _).symm
  · contradiction

theorem dropPrefix_append : (t ++ rest).dropPrefix? t = some rest := by
  rw [List.dropPrefix?_eq_some_iff]
  exact ⟨t, rfl, beq_self_eq_true t⟩

theorem eq_of_dropPrefix (h : s.dropPrefix? t = some rest) : s = t ++ rest := by
  obtain ⟨u, rfl, hu⟩ := List.dropPrefix?_eq_some_iff.mp h
  rw [eq_of_beq hu]

theorem Cell.Reads.closed (h : c.Reads) : ∃ b, c.token = '"' :: b ++ ['"'] ∧ Yaml.closed b = true := by
  obtain ⟨b, htoken, hvalue⟩ := Yaml.read_double_some h
  exact ⟨b, htoken, Yaml.closed_of_unescape hvalue⟩

theorem cellsOf_eq_some : cellsOf slots s = some cells ↔
    cells.map Cell.slot = slots ∧ (∀ c ∈ cells, c.Reads) ∧ s = cells.flatMap Cell.text := by
  induction slots generalizing s cells with
  | nil =>
    rw [cellsOf, List.map_eq_nil_iff]
    constructor
    · intro h
      split_ifs at h with hs
      obtain rfl := Option.some.inj h
      exact ⟨rfl, List.forall_mem_nil _, hs⟩
    · rintro ⟨rfl, -, rfl⟩
      rfl
  | cons slot slots ih =>
    rw [cellsOf]
    constructor
    · intro h
      split at h
      · contradiction
      · rename_i token rest hnext
        split at h
        · rename_i rest' value hrest hread
          obtain ⟨cells, hcells, rfl⟩ := Option.map_eq_some_iff.mp h
          obtain ⟨rfl, hreads, htext⟩ := ih.mp hcells
          refine ⟨rfl, List.forall_mem_cons.mpr ⟨hread, hreads⟩, ?_⟩
          rw [nextToken_append hnext, eq_of_dropPrefix hrest, htext, List.flatMap_cons, Cell.text, List.append_assoc]
        · contradiction
    · rintro ⟨hslots, hreads, rfl⟩
      obtain ⟨c, cells, rfl, rfl, rfl⟩ := List.map_eq_cons_iff.mp hslots
      obtain ⟨hread, hreads⟩ := List.forall_mem_cons.mp hreads
      obtain ⟨b, htoken, hclosed⟩ := hread.closed
      have hnext : nextToken ((c :: cells).flatMap Cell.text) =
          some (c.token, c.slot.2 ++ cells.flatMap Cell.text) := by
        rw [List.flatMap_cons, Cell.text, List.append_assoc, htoken, nextToken_closed hclosed]
      rw [hnext]
      dsimp only
      rw [dropPrefix_append, hread]
      exact congrArg (Option.map _) (ih.mpr ⟨rfl, hreads, rfl⟩)

theorem parse_ok : (codec slots).parse file = .ok (some top) ↔ ∃ cells, cells.map Cell.slot = slots ∧
    (∀ c ∈ cells, c.Reads) ∧ file = front ++ cells.flatMap Cell.text ∧ top = topOf cells := by
  unfold codec
  dsimp only
  constructor
  · intro h
    split at h
    · rename_i cells hcells
      obtain ⟨rest, hrest, hcells⟩ := Option.bind_eq_some_iff.mp hcells
      obtain ⟨hslots, hreads, rfl⟩ := cellsOf_eq_some.mp hcells
      exact ⟨cells, hslots, hreads, eq_of_dropPrefix hrest, (Option.some.inj (Except.ok.inj h)).symm⟩
    · contradiction
  · rintro ⟨cells, hslots, hreads, rfl, rfl⟩
    rw [dropPrefix_append, Option.bind_some, cellsOf_eq_some.mpr ⟨hslots, hreads, rfl⟩]

theorem trimSpace_front : Text.trimSpace (String.ofList (front ++ file)) ≠ "" := by
  intro h
  have hnil := congrArg String.toList h
  rw [Text.trimSpace_toList, String.toList_ofList] at hnil
  have hfront : (front ++ file).dropWhile Text.isSpace = front ++ file := rfl
  rw [hfront] at hnil
  have hspace := List.rdropWhile_eq_nil_iff.mp hnil 'c' (List.mem_append_left _ (by decide))
  exact absurd hspace (by decide)

theorem Cell.Reads.spelt {after : List Char} (h : c.Reads) :
    Spelt .double flow start c.token after (String.ofList c.value) := by
  obtain ⟨b, htoken, hclosed⟩ := h.closed
  rw [Spelt]
  split_ifs
  · exact ⟨b, htoken, hclosed⟩
  · rw [String.toList_ofList]
    exact h

theorem body_of_spelt (h : Spelt .double flow start t rest value) :
    ∃ b, t = '"' :: b ++ ['"'] ∧ closed b = true := by
  rw [Spelt] at h
  split_ifs at h
  · exact h
  · obtain ⟨b, htoken, hvalue⟩ := Yaml.read_double_some h
    exact ⟨b, htoken, Yaml.closed_of_unescape hvalue⟩

theorem spells (hreads : ∀ c ∈ cells, c.Reads) (hslots : ∀ c ∈ cells, c.slot.2 ≠ []) :
    Spells before (containers before cells) (cells.map Cell.piece) := by
  induction cells generalizing before with
  | nil => trivial
  | cons c cells ih =>
    obtain ⟨hread, hreads⟩ := List.forall_mem_cons.mp hreads
    obtain ⟨hslot, hslots⟩ := List.forall_mem_cons.mp hslots
    refine ⟨⟨rfl, rfl, ?_⟩, fun hnil => absurd hnil hslot, ih hreads hslots⟩
    rintro style value line column ⟨⟩
    exact ⟨rfl, rfl, hread.spelt⟩

theorem spell_pieces : spell (cells.map Cell.piece) = cells.flatMap Cell.text := by
  rw [spell, List.flatMap_map]
  rfl

theorem spelled (hreads : ∀ c ∈ cells, c.Reads) (hslots : ∀ c ∈ cells, c.slot.2 ≠ []) :
    (codec (cells.map Cell.slot)).Spelled (front ++ cells.flatMap Cell.text) (topOf cells) front
      (cells.map Cell.piece) where
  written := trimSpace_front
  parsed := parse_ok.mpr ⟨cells, rfl, hreads, rfl, rfl⟩
  text := by rw [spell_pieces]
  places := ⟨true, _, rfl, spells hreads hslots⟩

/-- A place in a text is told by its line and its column. -/
theorem eq_of_place (h : before ++ s = before' ++ t) (hline : lineOf before = lineOf before')
    (hcolumn : (lastLine before).length = (lastLine before').length) : before = before' ∧ s = t := by
  have hsame {u v w x : List Char} (h : u ++ w = v ++ x) (hle : u.length ≤ v.length) (hline : lineOf u = lineOf v)
      (hcolumn : (lastLine u).length = (lastLine v).length) : u = v := by
    obtain ⟨rest, rfl⟩ := List.prefix_of_prefix_length_le (List.prefix_append u w) (h ▸ List.prefix_append v x) hle
    rw [lineOf_append] at hline
    rw [lastLine_append (lineOf_eq_zero.mp (by omega)), List.length_append] at hcolumn
    rw [List.length_eq_zero_iff.mp (show rest.length = 0 by omega), List.append_nil]
  obtain rfl : before = before' := by
    rcases le_total before.length before'.length with hle | hle
    · exact hsame h hle hline hcolumn
    · exact (hsame h.symm hle hline.symm hcolumn.symm).symm
  exact ⟨rfl, List.append_cancel_left h⟩

/-- A quoted text ends at its first quote. -/
theorem token_inj {b' : List Char} (hb : closed b = true) (hb' : closed b' = true)
    (h : '"' :: b ++ ['"'] ++ s = '"' :: b' ++ ['"'] ++ t) : '"' :: b ++ ['"'] = '"' :: b' ++ ['"'] ∧ s = t := by
  have hnext : nextToken ('"' :: b ++ ['"'] ++ s) = _ := nextToken_closed hb
  rw [h, nextToken_closed hb'] at hnext
  obtain ⟨htoken, hrest⟩ := Prod.mk.inj (Option.some.inj hnext)
  exact ⟨htoken.symm, hrest.symm⟩

/-- The places of the images say where the text between them stands. -/
theorem pieces_eq (hreads : ∀ c ∈ cells, c.Reads) (h : Spells before' (containers before cells) pieces)
    (htext : before ++ cells.flatMap Cell.text = before' ++ spell pieces) :
    before' = before ∧ pieces = cells.map Cell.piece := by
  induction cells generalizing before before' pieces with
  | nil =>
    obtain _ | ⟨p, pieces⟩ := pieces
    · exact ⟨List.append_cancel_right htext.symm, rfl⟩
    · exact h.elim
  | cons c cells ih =>
    obtain ⟨hread, hreads⟩ := List.forall_mem_cons.mp hreads
    obtain _ | ⟨p, pieces⟩ := pieces
    · exact h.elim
    obtain ⟨hplaced, -, hspells⟩ := h
    obtain ⟨hline, hcolumn, hspelt⟩ := hplaced.place .double _ _ _ rfl
    obtain ⟨rfl, hrest⟩ := eq_of_place htext.symm (Nat.succ.inj hline).symm (Nat.succ.inj hcolumn).symm
    rw [spell, List.flatMap_cons, ← spell, List.flatMap_cons, Cell.text] at hrest
    obtain ⟨b, htoken, hclosed⟩ := body_of_spelt hspelt
    obtain ⟨b', htoken', hclosed'⟩ := hread.closed
    rw [List.append_assoc, List.append_assoc, htoken, htoken'] at hrest
    obtain ⟨heq, hafter⟩ := token_inj hclosed hclosed' hrest
    rw [← htoken, ← htoken'] at heq
    have htail : before' ++ c.token ++ c.slot.2 ++ cells.flatMap Cell.text =
        before' ++ p.token ++ p.after ++ spell pieces := by
      rw [heq, List.append_assoc _ _ (spell pieces), hafter, List.append_assoc]
    obtain ⟨hfront, rfl⟩ := ih hreads hspells htail
    rw [heq] at hfront
    refine ⟨rfl, ?_⟩
    obtain ⟨name, view, token, after⟩ := p
    obtain rfl : name = c.slot.1 := hplaced.name
    obtain rfl : view = _ := hplaced.view
    obtain rfl : token = c.token := heq
    obtain rfl : after = c.slot.2 := List.append_cancel_left hfront
    rfl

/-- What is written over an image is again one. -/
theorem reworded_cells (hreads : ∀ c ∈ cells, c.Reads) (h : Reworded before (cells.map Cell.piece) pieces) :
    ∃ cells' : List Cell, pieces = cells'.map Cell.piece ∧ cells'.map Cell.slot = cells.map Cell.slot ∧
      ∀ c ∈ cells', c.Reads := by
  induction cells generalizing before pieces with
  | nil =>
    obtain _ | ⟨p, pieces⟩ := pieces
    · exact ⟨[], rfl, rfl, List.forall_mem_nil _⟩
    · exact h.elim
  | cons c cells ih =>
    obtain ⟨hread, hreads⟩ := List.forall_mem_cons.mp hreads
    obtain _ | ⟨p, pieces⟩ := pieces
    · exact h.elim
    obtain ⟨hhead, htail⟩ := h
    obtain ⟨cells', rfl, hslots, hreads'⟩ := ih hreads htail
    rcases hhead with rfl | hrewords
    · exact ⟨c :: cells', rfl, congrArg (c.slot :: ·) hslots, List.forall_mem_cons.mpr ⟨hread, hreads'⟩⟩
    · obtain ⟨flow, style, old, new, hview, hview', hnew⟩ := hrewords.reads
      obtain ⟨rfl, rfl, -⟩ := View.scalar.inj hview
      refine ⟨⟨c.slot, p.token, new.toList⟩ :: cells', ?_, congrArg (c.slot :: ·) hslots,
        List.forall_mem_cons.mpr ⟨hnew, hreads'⟩⟩
      obtain ⟨name, view, token, after⟩ := p
      obtain rfl : name = c.slot.1 := hrewords.name
      obtain rfl : after = c.slot.2 := hrewords.after
      obtain rfl : view = _ := hview'
      rw [List.map_cons, Cell.piece, String.ofList_toList]

theorem codec_local (hslots : ∀ slot ∈ slots, slot.2 ≠ []) : (codec slots).Local := by
  intro file top first pieces pieces' h hreworded
  obtain ⟨cells, rfl, hreads, rfl, rfl⟩ := parse_ok.mp h.parsed
  obtain ⟨flow, containers, hlookup, hspells⟩ := h.places
  obtain ⟨rfl, rfl⟩ := Node.mapping.inj (Option.some.inj hlookup)
  obtain ⟨rfl, rfl⟩ := pieces_eq hreads hspells h.text
  obtain ⟨cells', rfl, hslots', hreads'⟩ := reworded_cells hreads hreworded
  have hspelled := spelled hreads' fun c hc => hslots _ (hslots' ▸ List.mem_map_of_mem hc)
  rw [hslots'] at hspelled
  rw [spell_pieces]
  exact ⟨_, hspelled⟩

end Parse

section Files

/-- A file of one container. -/
def one (image : String) : List Cell := [⟨("app", "\x7d\x7d\n".toList), quoted .double image.toList, image.toList⟩]

/-- A file of two containers on one line. -/
def two (image next : String) : List Cell :=
  [⟨("app", "\x7d, café: \x7bimage: ".toList), quoted .double image.toList, image.toList⟩,
    ⟨("café", "\x7d\x7d\n".toList), quoted .double next.toList, next.toList⟩]

def fileOf (cells : List Cell) : List Char := front ++ cells.flatMap Cell.text

end Files
end Kubeast.Promote.QuotedImages

/-! When a promotion does what it is for: the new images stand where the old ones stood and read as
themselves there. -/
namespace Kubeast.Promote
open Text (CharTables)
open Yaml (Style Raw quoted read)
open Regex (mem_seq mem_opt mem_text mem_plus_one mem_times_one accepts_iff cons_mem_seq_one)

section References
variable {s t : List Char} {img : String} {p : Char → Bool}

/-- A text without white space that does not end in a colon. -/
def Solid (s : List Char) : Prop := (∀ c ∈ s, Pipelines.space c = false) ∧ s.getLast? ≠ some ':'

theorem Solid.append (hs : Solid s) (ht : Solid t) : Solid (s ++ t) := by
  refine ⟨List.forall_mem_append.mpr ⟨hs.1, ht.1⟩, ?_⟩
  rw [List.getLast?_append]
  cases h : t.getLast? with
  | none => exact hs.2
  | some c => exact fun heq => ht.2 (h.trans heq)

theorem Solid.behind (hs : (s.all fun c => !Pipelines.space c) = true) (ht : Solid t) (hne : t ≠ []) :
    Solid (s ++ t) := by
  refine ⟨List.forall_mem_append.mpr ⟨by simpa using hs, ht.1⟩, ?_⟩
  rw [List.getLast?_append_of_ne_nil _ hne]
  exact ht.2

theorem solid_class (hp : ∀ c, p c = true → Pipelines.space c = false ∧ c ≠ ':') (h : ∀ c ∈ s, p c = true) :
    Solid s := by
  refine ⟨fun c hc => (hp c (h c hc)).1, fun hlast => ?_⟩
  exact (hp ':' (h ':' (List.mem_of_getLast? hlast))).2 rfl

theorem image_solid (h : isImage img = true) : img.toList ≠ [] ∧ Solid img.toList := by
  have hword : ∀ c : Char, (!Pipelines.space c && c != '@' && c != ':') = true →
      Pipelines.space c = false ∧ c ≠ ':' := by
    intro c hc
    simp only [Bool.and_eq_true, Bool.not_eq_true', bne_iff_ne, ne_eq] at hc
    exact ⟨hc.1.1, hc.2⟩
  have hdigit : ∀ c : Char, (c.isDigit || ('a' ≤ c && c ≤ 'f')) = true →
      Pipelines.space c = false ∧ c ≠ ':' := by
    intro c hc
    refine ⟨?_, fun hcolon => absurd (hcolon ▸ hc) (by decide)⟩
    rw [← Bool.not_eq_true, Pipelines.space, List.contains_iff_mem]
    intro hspace
    simp only [List.mem_cons, List.not_mem_nil, or_false] at hspace
    rcases hspace with rfl | rfl | rfl | rfl | rfl <;> exact absurd hc (by decide)
  have haccepts := (Bool.and_eq_true _ _ ▸ h : _ ∧ _).1
  obtain ⟨u, hu, v, hv, heq⟩ := mem_seq.mp (accepts_iff.mp haccepts)
  obtain ⟨tag, htag, digest, hdigest, rfl⟩ := mem_seq.mp hv
  obtain ⟨hne, hchars⟩ := mem_plus_one.mp hu
  rw [← heq]
  refine ⟨fun hnil => hne (List.append_eq_nil_iff.mp hnil).1, (solid_class hword hchars).append (Solid.append ?_ ?_)⟩
  · rcases mem_opt.mp htag with rfl | htag
    · exact ⟨nofun, nofun⟩
    · obtain ⟨colon, ⟨c, hc, rfl⟩, t, ht, rfl⟩ := mem_seq.mp htag
      obtain ⟨hne, hchars⟩ := mem_plus_one.mp ht
      obtain rfl := beq_iff_eq.mp hc
      exact Solid.behind (by decide) (solid_class hword hchars) hne
  · rcases mem_opt.mp hdigest with rfl | hdigest
    · exact ⟨nofun, nofun⟩
    · obtain ⟨algorithm, halgorithm, t, ht, rfl⟩ := mem_seq.mp hdigest
      obtain rfl := mem_text.mp halgorithm
      obtain ⟨hlength, hchars⟩ := mem_times_one.mp ht
      refine Solid.behind (by decide) (solid_class hdigit hchars) fun hnil => ?_
      rw [hnil, List.length_nil] at hlength
      omega

end References

section Promoted

/-- Every changed image reads as the new one. -/
def ReadsNew (first : List Char) (pieces : List Piece) (images : Dict String String) (changed : List String) : Prop :=
  ∀ name ∈ changed, ∃ b p later flow style value,
    firstOf name first (promoted images pieces) = some (b, p, later) ∧ p.view = .scalar flow style value ∧
      read style flow (atStart b) p.token p.after = some (images.index name).toList

/-- A promotion as it is meant: only the images are other, they read as the new ones, and there is nothing
left to promote. -/
structure Promoted (y : Codec) (tables : CharTables) (top : Node) (first : List Char) (pieces : List Piece)
    (images : Dict String String) (out : List Char) (changed : List String) : Prop where
  text : out = first ++ spell (promoted images pieces)
  lists : changed = (namesOf images).filter (differs images (lookup "containers" (some top)))
  reads : ReadsNew first pieces images changed
  agrees : ∃ found, Promote.images tables y out = .ok found ∧ ∀ r ∈ images.rows, found.get r.1 = some r
  again : apply y tables out images = .ok (out, [])

/-- Every image that differs can be written as it is in its place. -/
def AllRaw (first : List Char) (pieces : List Piece) (images : Dict String String) : Prop :=
  ∀ r ∈ images.rows, ∀ b p later flow style value, firstOf r.1 first pieces = some (b, p, later) →
    p.view = .scalar flow style value → value ≠ r.2 → Raw style flow (atStart b) r.2.toList p.after

/-- The images can be written as they are, no later container of the same name has another one, and what is
not written is readable. -/
structure Writable (first : List Char) (pieces : List Piece) (images : Dict String String) : Prop where
  raw : AllRaw first pieces images
  last : ∀ r ∈ images.rows, ∀ b p later, firstOf r.1 first pieces = some (b, p, later) →
    lastImage r.1 later = none ∨ lastImage r.1 later = some r.2
  others : ∀ p ∈ others images [] pieces, p.view.readable = true

variable {y : Codec} {tables : CharTables} {file first out b : List Char} {top : Node} {pieces later : List Piece}
  {p : Piece} {images : Dict String String} {changed : List String} {name : String} {r : String × String}
  {w : Style × String}

/-- The image of a container where it stands in a file. -/
structure Stands (file : List Char) (containers : Option Node) (name : String) (b : List Char) (p : Piece)
    (later : List Piece) (flow : Bool) (style : Style) (value : String) : Prop where
  image : lookup "image" (lookup name containers) =
    some (.scalar style value (lineOf b + 1) ((lastLine b).length + 1))
  name : p.name = name
  view : p.view = .scalar flow style value
  spelt : Spelt style flow (atStart b) p.token p.after value
  behind : p.after = [] → spell later = []
  text : file = b ++ (p.token ++ (p.after ++ spell later))

theorem stands_of_scalar {style : Style} {value : String} {line column : ℕ} (hfile : y.Spelled file top first pieces)
    (h : lookup "image" (lookup name (lookup "containers" (some top))) = some (.scalar style value line column)) :
    ∃ b p later flow, firstOf name first pieces = some (b, p, later) ∧
      Stands file (lookup "containers" (some top)) name b p later flow style value := by
  obtain ⟨flow, containers, hcontainers, hspells⟩ := hfile.places
  rw [hcontainers] at h ⊢
  obtain ⟨c, hc⟩ : ∃ c, lookup name (some (.mapping flow containers)) = some c := by
    cases hnone : lookup name (some (.mapping flow containers)) with
    | none =>
      rw [hnone] at h
      contradiction
    | some c => exact ⟨c, rfl⟩
  obtain ⟨b, p, later, hfirst, hplaced, hbehind, htext⟩ := firstOf_lookup hspells hc
  rw [hc] at h
  obtain ⟨rfl, rfl, hspelt⟩ := hplaced.place style value line column h
  refine ⟨b, p, later, isFlow c, hfirst, ?_, hplaced.name, ?_, hspelt, ?_, hfile.text.trans htext⟩
  · rw [hc, h]
  · rw [hplaced.view, viewOf, h]
  · intro hnil
    rw [hbehind hnil]
    rfl

theorem read_ne_nil {style : Style} {flow start : Bool} {token after value : List Char}
    (h : read style flow start token after = some value) : token ≠ [] := by
  rintro rfl
  cases style <;> exact nomatch h

/-- What `Apply` found out before it wrote anything. -/
structure Edited (file : List Char) (containers : Option Node) (images : Dict String String)
    (es : List (String × Edit)) : Prop where
  valid : ∀ r ∈ images.rows, isImage r.2 = true
  edits : editsOf (splitAfter file) images containers (namesOf images) = .ok (some es)

variable {es : List (String × Edit)} {containers : Option Node} {flow : Bool} {style : Style} {value : String}

theorem index_of_mem (hr : r ∈ images.rows) : images.index r.1 = r.2 :=
  Dict.index_of_get (Table.get_of_mem hr)

theorem Edited.mem_changed (he : Edited file containers images es) (hr : r ∈ images.rows)
    (hs : Stands file containers r.1 b p later flow style value) (hvalue : value ≠ r.2) :
    r.1 ∈ es.map Prod.fst := by
  rw [map_fst_editsOf he.edits, List.mem_filter, differs, imageOf_scalar hs.image, index_of_mem hr]
  exact ⟨mem_namesOf.mpr ⟨r.2, hr⟩, decide_eq_true fun heq => hvalue (Option.some.inj heq)⟩

/-- An image that is written over stands on one line, where it is read. -/
theorem Edited.over (he : Edited file containers images es) (hr : r ∈ images.rows)
    (hs : Stands file containers r.1 b p later flow style value) (hvalue : value ≠ r.2)
    (hstyle : style ≠ .literal ∧ style ≠ .folded) :
    '\n' ∉ p.token ∧ read style flow (atStart b) p.token p.after = some value.toList ∧
      (r.1, editOver b style p.token r.2) ∈ es := by
  obtain ⟨⟨name, e⟩, hmem, hname⟩ := List.mem_map.mp (he.mem_changed hr hs hvalue)
  obtain ⟨-, style', value', line, column, himage, -, hedit⟩ := (mem_editsOf he.edits).mp hmem
  dsimp only at hname
  rw [hname, hs.image] at himage
  obtain ⟨rfl, rfl, rfl, rfl⟩ := Node.scalar.inj (Option.some.inj himage)
  rw [hname, index_of_mem hr, hs.text] at hedit
  obtain ⟨hline, hread, rfl⟩ := editAt_ok hstyle hs.spelt hs.behind hedit
  exact ⟨hline, hread, hname ▸ hmem⟩

/-- No image that is to be written over stands in a block. -/
def Lined (first : List Char) (pieces : List Piece) (images : Dict String String) : Prop :=
  ∀ b p later w, firstOf p.name first pieces = some (b, p, later) → fresh images p = some w →
    w.1 ≠ .literal ∧ w.1 ≠ .folded

theorem Edited.place (hfile : y.Spelled file top first pieces)
    (he : Edited file (lookup "containers" (some top)) images es) (hr : r ∈ images.rows) :
    ∃ b p later flow style value, firstOf r.1 first pieces = some (b, p, later) ∧
      Stands file (lookup "containers" (some top)) r.1 b p later flow style value := by
  obtain ⟨style, value, line, column, himage⟩ := editsOf_scalar he.edits (mem_namesOf.mpr ⟨r.2, hr⟩)
  obtain ⟨b, p, later, flow, hs⟩ := stands_of_scalar hfile himage
  exact ⟨b, p, later, flow, style, value, hs⟩

/-- What is written over is what a name of the map stands at. -/
theorem Edited.stands (hfile : y.Spelled file top first pieces)
    (he : Edited file (lookup "containers" (some top)) images es)
    (hfirst : firstOf name first pieces = some (b, p, later)) (hfresh : fresh images p = some w) :
    (name, w.2) ∈ images.rows ∧ ∃ flow value, value ≠ w.2 ∧
      Stands file (lookup "containers" (some top)) name b p later flow w.1 value := by
  obtain ⟨flow, value, hview, hget, hvalue⟩ := fresh_eq_some.mp (show fresh images p = some (w.1, w.2) from hfresh)
  have hname := name_of_firstOf hfirst
  rw [hname] at hget
  have hr := Table.mem_of_get hget
  refine ⟨hr, ?_⟩
  obtain ⟨b', p', later', flow', style', value', hfirst', hs⟩ := he.place hfile hr
  obtain ⟨rfl, hp⟩ := Prod.mk.inj (Option.some.inj (hfirst.symm.trans hfirst'))
  obtain ⟨rfl, rfl⟩ := Prod.mk.inj hp
  obtain ⟨rfl, rfl, rfl⟩ := View.scalar.inj (hview.symm.trans hs.view)
  exact ⟨_, _, hvalue, hs⟩

theorem image_line {img : String} (h : isImage img = true) : '\n' ∉ quoted style img.toList ∧
    quoted style img.toList ≠ [] := by
  obtain ⟨hne, hsolid, -⟩ := image_solid h
  have hline : '\n' ∉ img.toList := fun hmem => absurd (hsolid _ hmem) (by decide)
  cases style <;> simp [quoted, hline, hne]

theorem Edited.oneLine (hfile : y.Spelled file top first pieces)
    (he : Edited file (lookup "containers" (some top)) images es) (hlined : Lined first pieces images) :
    ∀ m ∈ marked images [] pieces, m.OneLine := by
  rintro ⟨p, w'⟩ hm w rfl
  obtain ⟨-, b, later, hfirst, hfresh⟩ := mem_marked first hm
  obtain ⟨hr, flow, value, hvalue, hs⟩ := he.stands hfile hfirst hfresh
  obtain ⟨hline, hread, -⟩ := he.over hr hs hvalue (hlined b p later w hfirst hfresh)
  exact ⟨hline, read_ne_nil hread, image_line (he.valid _ hr)⟩

/-- The edits in the order of the names are those in the order of the text. -/
theorem Edited.perm (hfile : y.Spelled file top first pieces)
    (he : Edited file (lookup "containers" (some top)) images es) (hlined : Lined first pieces images) :
    es.Perm (editsIn first (marked images [] pieces)) := by
  have hnodup : (es.map Prod.fst).Nodup := by
    rw [map_fst_editsOf he.edits]
    exact nodup_namesOf.filter _
  refine (List.perm_ext_iff_of_nodup (hnodup.of_map Prod.fst) (nodup_editsIn.of_map Prod.fst)).mpr ?_
  rintro ⟨name, e⟩
  rw [mem_editsIn]
  constructor
  · intro hmem
    obtain ⟨hname, style, value, line, column, himage, hvalue, -⟩ := (mem_editsOf he.edits).mp hmem
    obtain ⟨img, hr⟩ := mem_namesOf.mp hname
    obtain ⟨b, p, later, flow, hfirst, hs⟩ := stands_of_scalar hfile himage
    rw [index_of_mem hr] at hvalue
    have hfresh : fresh images p = some (style, img) :=
      fresh_eq_some.mpr ⟨flow, value, hs.view, by rw [hs.name, Table.get_of_mem hr], hvalue⟩
    have hover := (he.over hr hs hvalue (hlined b p later _ (hs.name.symm ▸ hfirst) hfresh)).2.2
    have heq := List.inj_on_of_nodup_map hnodup hmem hover rfl
    exact ⟨nofun, b, p, later, (style, img), hfirst, hfresh, (Prod.mk.inj heq).2⟩
  · rintro ⟨-, b, p, later, w, hfirst, hfresh, rfl⟩
    obtain ⟨hr, flow, value, hvalue, hs⟩ := he.stands hfile hfirst hfresh
    have hname := name_of_firstOf hfirst
    exact (he.over hr hs hvalue (hlined b p later w (hname.symm ▸ hfirst) hfresh)).2.2

/-- The sorted edits write the images into the text. -/
theorem Edited.text (hfile : y.Spelled file top first pieces)
    (he : Edited file (lookup "containers" (some top)) images es) (hlined : Lined first pieces images) :
    (applyEdits (splitAfter file) (es.map Prod.snd)).flatten = first ++ spell (promoted images pieces) := by
  have hlines := he.oneLine hfile hlined
  have hperm : (es.map Prod.snd).Perm ((editsIn first (marked images [] pieces)).map Prod.snd).reverse :=
    ((he.perm hfile hlined).map _).trans (List.reverse_perm _).symm
  have horder : (((editsIn first (marked images [] pieces)).map Prod.snd).reverse).Pairwise
      fun a b => a.line = b.line → b.col < a.col :=
    List.pairwise_reverse.mpr ((pairwise_editsIn hlines).imp fun hcol heq => hcol heq.symm)
  have hfold : _ = splitAfter (first ++ _) := foldl_editsIn hlines
  rw [map_fst_marked] at hfold
  rw [applyEdits_eq hperm horder, hfile.text, hfold, flatten_splitAfter, promoted]

/-- An image reads as itself in the place of another one when it can be written as it is. -/
theorem Edited.read_iff (he : Edited file containers images es) (hr : r ∈ images.rows)
    (hs : Stands file containers r.1 b p later flow style value) (hvalue : value ≠ r.2)
    (hstyle : style ≠ .literal ∧ style ≠ .folded) :
    read style flow (atStart b) (quoted style r.2.toList) p.after = some r.2.toList ↔
      Raw style flow (atStart b) r.2.toList p.after := by
  obtain ⟨hne, hsolid, hcolon⟩ := image_solid (he.valid r hr)
  refine Yaml.read_quoted_iff (he.over hr hs hvalue hstyle).2.1 hne (fun c hc => ?_) hcolon
  have hspace := hsolid c hc
  rw [← Bool.not_eq_true, Yaml.white, Bool.or_eq_true, beq_iff_eq, beq_iff_eq]
  rintro (rfl | rfl) <;> contradiction

theorem firstOf_promoted (hfirst : firstOf name first pieces = some (b, p, later)) (hfresh : fresh images p = some w) :
    ∃ b' later', firstOf name first (promoted images pieces) = some (b', p.write w, later') ∧
      ((∀ m ∈ marked images [] pieces, m.OneLine) → atStart b' = atStart b) := by
  obtain ⟨b', later', hfirst', hstart⟩ := firstOf_marked images first List.not_mem_nil hfirst
  rw [hfresh] at hfirst'
  exact ⟨b', later', hfirst', fun hlines => hstart hlines rfl⟩

theorem Edited.lined (hfile : y.Spelled file top first pieces)
    (he : Edited file (lookup "containers" (some top)) images es) (h : AllRaw first pieces images) :
    Lined first pieces images := by
  intro b p later w hfirst hfresh
  obtain ⟨hr, flow, value, hvalue, hs⟩ := he.stands hfile hfirst hfresh
  have hraw := h _ hr b p later flow w.1 value hfirst hs.view hvalue
  constructor <;> intro hstyle <;> rw [hstyle] at hraw <;> exact hraw

/-- A file with images written as they are is one that is reported truthfully. -/
theorem Edited.spelled (hlocal : y.Local) (hfile : y.Spelled file top first pieces)
    (he : Edited file (lookup "containers" (some top)) images es) (h : AllRaw first pieces images) :
    ∃ top', y.Spelled (first ++ spell (promoted images pieces)) top' first (promoted images pieces) := by
  refine hlocal file top first pieces _ hfile (reworded_marked fun name b p later w _ hfirst hfresh => ?_)
  have hstyle := he.lined hfile h b p later w (name_of_firstOf hfirst ▸ hfirst) hfresh
  obtain ⟨hr, flow, value, hvalue, hs⟩ := he.stands hfile hfirst hfresh
  have hraw := h _ hr b p later flow w.1 value hfirst hs.view hvalue
  refine ⟨rfl, rfl, ⟨(he.over hr hs hvalue hstyle).1, (image_line (he.valid _ hr)).1⟩,
    flow, w.1, value, w.2, hs.view, congrArg (View.write w.2) hs.view, ?_⟩
  exact (he.read_iff hr hs hvalue hstyle).mpr hraw

theorem ReadsNew.at_place {changed : List String} (h : ReadsNew first pieces images changed) (hname : name ∈ changed)
    (hr : (name, w.2) ∈ images.rows) (hview : p.view = .scalar flow w.1 value)
    (hfirst : firstOf name first pieces = some (b, p, later)) (hfresh : fresh images p = some w) :
    ∃ b', read w.1 flow (atStart b') (quoted w.1 w.2.toList) p.after = some w.2.toList ∧
      ((∀ m ∈ marked images [] pieces, m.OneLine) → atStart b' = atStart b) := by
  obtain ⟨b', later', hfirst', hstart⟩ := firstOf_promoted hfirst hfresh
  obtain ⟨b₂, p₂, later₂, flow₂, style₂, value₂, hfirst₂, hview₂, hread⟩ := h name hname
  obtain ⟨rfl, hp⟩ := Prod.mk.inj (Option.some.inj (hfirst'.symm.trans hfirst₂))
  obtain ⟨rfl, rfl⟩ := Prod.mk.inj hp
  have hwrite : (p.write w).view = .scalar flow w.1 w.2 := congrArg (View.write w.2) hview
  obtain ⟨rfl, rfl, -⟩ := View.scalar.inj (hwrite.symm.trans hview₂)
  rw [index_of_mem hr] at hread
  exact ⟨b', hread, hstart⟩

/-- Where every changed image reads as the new one, each could be written as it is. -/
theorem Edited.allRaw (hfile : y.Spelled file top first pieces)
    (he : Edited file (lookup "containers" (some top)) images es)
    (h : ReadsNew first pieces images (es.map Prod.fst)) : AllRaw first pieces images := by
  have hlined : Lined first pieces images := by
    intro b p later w hfirst hfresh
    obtain ⟨hr, flow, value, hvalue, hs⟩ := he.stands hfile hfirst hfresh
    obtain ⟨b', hread, -⟩ := h.at_place (he.mem_changed hr hs hvalue) hr hs.view hfirst hfresh
    constructor <;> intro hstyle <;> rw [hstyle] at hread <;> exact nomatch hread
  intro r hr b p later flow style value hfirst hview hvalue
  have hname := name_of_firstOf hfirst
  have hfresh : Promote.fresh images p = some (style, r.2) :=
    fresh_eq_some.mpr ⟨flow, value, hview, hname ▸ Table.get_of_mem hr, hvalue⟩
  obtain ⟨-, flow', value', hvalue', hs⟩ := he.stands hfile hfirst hfresh
  obtain ⟨rfl, -, rfl⟩ := View.scalar.inj (hview.symm.trans hs.view)
  have hstyle := hlined b p later _ (hname.symm ▸ hfirst) hfresh
  obtain ⟨b', hread, hstart⟩ := h.at_place (he.mem_changed hr hs hvalue) hr hview hfirst hfresh
  rw [hstart (he.oneLine hfile hlined)] at hread
  exact (he.read_iff hr hs hvalue hstyle).mp hread

/-- Behind the written images `Images` agrees with them, unless a later container or another image keeps it
from doing so. -/
theorem Edited.agree_iff (hfile : y.Spelled file top first pieces)
    (he : Edited file (lookup "containers" (some top)) images es) :
    ((∀ p ∈ promoted images pieces, p.view.readable = true) ∧
      ∀ r ∈ images.rows, lastImage r.1 (promoted images pieces) = some r.2) ↔
    (∀ r ∈ images.rows, ∀ b p later, firstOf r.1 first pieces = some (b, p, later) →
      lastImage r.1 later = none ∨ lastImage r.1 later = some r.2) ∧
        ∀ p ∈ others images [] pieces, p.view.readable = true := by
  have hscalar : ∀ name b p later, name ∉ [] → (images.get name).isSome = true →
      firstOf name first pieces = some (b, p, later) → ∃ flow style value, p.view = .scalar flow style value := by
    intro name b p later _ hsome hfirst
    obtain ⟨r, hget⟩ := Option.isSome_iff_exists.mp hsome
    obtain ⟨hr, rfl⟩ := Table.get_eq_some.mp hget
    obtain ⟨b', p', later', flow, style, value, hfirst', hs⟩ := he.place hfile hr
    obtain ⟨-, hp⟩ := Prod.mk.inj (Option.some.inj (hfirst.symm.trans hfirst'))
    obtain ⟨rfl, -⟩ := Prod.mk.inj hp
    exact ⟨flow, style, value, hs.view⟩
  have hlast (r : String × String) (hr : r ∈ images.rows) {b p later}
      (hfirst : firstOf r.1 first pieces = some (b, p, later)) :
      lastImage r.1 (promoted images pieces) = some r.2 ↔
        lastImage r.1 later = none ∨ lastImage r.1 later = some r.2 := by
    obtain ⟨flow, style, value, hview⟩ := hscalar r.1 b p later nofun (by rw [Table.get_of_mem hr]; rfl) hfirst
    have hget : images.get p.name = some (p.name, r.2) := by
      rw [name_of_firstOf hfirst, Table.get_of_mem hr]
    rw [promoted, lastImage_marked List.not_mem_nil hfirst, view_piece hview hget]
    cases lastImage r.1 later <;> simp [View.image]
  rw [promoted, readable_marked he.valid hscalar, ← promoted, and_comm]
  refine and_congr_left fun _ => forall₂_congr fun r hr => ?_
  obtain ⟨b, p, later, flow, style, value, hfirst, hs⟩ := he.place hfile hr
  rw [hlast r hr hfirst]
  refine ⟨fun h b' p' later' hfirst' => ?_, fun h => h b p later hfirst⟩
  obtain ⟨-, hp⟩ := Prod.mk.inj (Option.some.inj (hfirst.symm.trans hfirst'))
  obtain ⟨-, rfl⟩ := Prod.mk.inj hp
  exact h

/-- The images that are written are there afterwards. -/
theorem Edited.imageOf_promoted {top' : Node} (hfile : y.Spelled file top first pieces)
    (he : Edited file (lookup "containers" (some top)) images es)
    (hfile' : y.Spelled out top' first (promoted images pieces)) (hr : r ∈ images.rows) :
    imageOf (lookup "containers" (some top')) r.1 = some r.2 := by
  obtain ⟨b, p, later, flow, style, value, hfirst, hs⟩ := he.place hfile hr
  obtain ⟨b', later', hfirst', -⟩ := firstOf_marked images first List.not_mem_nil hfirst
  have hget : images.get p.name = some (p.name, r.2) := by rw [hs.name, Table.get_of_mem hr]
  exact imageOf_spelled hfile' hfirst' (view_piece hs.view hget)

theorem Edited.reads (hfile : y.Spelled file top first pieces)
    (he : Edited file (lookup "containers" (some top)) images es) (h : AllRaw first pieces images) :
    ReadsNew first pieces images (es.map Prod.fst) := by
  have hlined := he.lined hfile h
  intro name hname
  rw [map_fst_editsOf he.edits, List.mem_filter] at hname
  obtain ⟨img, hr⟩ := mem_namesOf.mp hname.1
  obtain ⟨b, p, later, flow, style, value, hfirst, hs⟩ := he.place hfile hr
  have hvalue : value ≠ img := by
    rintro rfl
    have hdiffers := of_decide_eq_true hname.2
    rw [imageOf_scalar hs.image, index_of_mem hr] at hdiffers
    exact hdiffers rfl
  have hfresh : Promote.fresh images p = some (style, img) :=
    fresh_eq_some.mpr ⟨flow, value, hs.view, by rw [hs.name, Table.get_of_mem hr], hvalue⟩
  have hstyle := hlined b p later _ (hs.name.symm ▸ hfirst) hfresh
  obtain ⟨b', later', hfirst', hstart⟩ := firstOf_promoted hfirst hfresh
  refine ⟨b', _, later', flow, style, img, hfirst', congrArg (View.write img) hs.view, ?_⟩
  rw [hstart (he.oneLine hfile hlined), index_of_mem hr]
  exact (he.read_iff hr hs hvalue hstyle).mpr (h _ hr b p later flow style value hfirst hs.view hvalue)

/-- `Apply` gives the file with the images written exactly when they can be written as they are. -/
theorem apply_promoted (hlocal : y.Local) (hfile : y.Spelled file top first pieces)
    (hkeys : ∀ r ∈ images.rows, lookup "image" (lookup r.1 (lookup "containers" (some top))) ≠ none)
    (h : apply y tables file images = .ok (out, changed)) :
    Promoted y tables top first pieces images out changed ↔ Writable first pieces images := by
  obtain ⟨hne, hvalid⟩ := apply_checks h
  obtain ⟨es, hedits, hout, rfl⟩ := apply_ok hfile hkeys h
  have he : Edited file (lookup "containers" (some top)) images es := ⟨hvalid, hedits⟩
  constructor
  · intro hp
    have hraw := he.allRaw hfile hp.reads
    obtain ⟨top', hfile'⟩ := he.spelled hlocal hfile hraw
    have hagree := (images_agree hfile').mp (hp.text ▸ hp.agrees)
    obtain ⟨hlast, hothers⟩ := (he.agree_iff hfile).mp hagree
    exact ⟨hraw, hlast, hothers⟩
  · intro hw
    obtain ⟨top', hfile'⟩ := he.spelled hlocal hfile hw.raw
    obtain rfl := hout.trans (he.text hfile (he.lined hfile hw.raw))
    refine ⟨rfl, map_fst_editsOf hedits, he.reads hfile hw.raw, ?_, ?_⟩
    · exact (images_agree hfile').mpr ((he.agree_iff hfile).mpr ⟨hw.last, hw.others⟩)
    · refine apply_same hfile' hne hvalid fun name hname => ?_
      obtain ⟨img, hr⟩ := mem_namesOf.mp hname
      rw [index_of_mem hr]
      exact he.imageOf_promoted hfile hfile' hr

theorem apply_promoted_one_line :
    Promoted (QuotedImages.codec ((QuotedImages.two "old:1" "next:1").map QuotedImages.Cell.slot)) .ascii
      (QuotedImages.topOf (QuotedImages.two "old:1" "next:1")) QuotedImages.front
      ((QuotedImages.two "old:1" "next:1").map QuotedImages.Cell.piece)
      ⟨[("café", "next:2"), ("app", "old:10")], by decide⟩
      (QuotedImages.fileOf (QuotedImages.two "old:10" "next:2")) ["app", "café"] := by
  refine (apply_promoted (QuotedImages.codec_local (by decide)) (QuotedImages.spelled ?_ (by decide)) (by decide)
    (by decide)).mpr ⟨?_, ?_, by decide⟩
  · intro c hc
    rcases List.mem_pair.mp hc with rfl | rfl <;> exact rfl
  · intro r hr b p later flow style value hfirst hview _
    rcases List.mem_pair.mp hr with rfl | rfl <;> obtain ⟨rfl, hp⟩ := Prod.mk.inj (Option.some.inj hfirst) <;>
      obtain ⟨rfl, rfl⟩ := Prod.mk.inj hp <;> obtain ⟨rfl, rfl, rfl⟩ := View.scalar.inj hview <;> decide
  · intro r hr b p later hfirst
    rcases List.mem_pair.mp hr with rfl | rfl <;> obtain ⟨rfl, hp⟩ := Prod.mk.inj (Option.some.inj hfirst) <;>
      obtain ⟨rfl, rfl⟩ := Prod.mk.inj hp <;> exact Or.inl rfl

/-- A quote in an image ends the scalar that it is written into. -/
theorem not_promoted_quote : ¬∀ (y : Codec) (tables : CharTables) (file first out : List Char) (top : Node)
    (pieces : List Piece) (images : Dict String String) (changed : List String),
    y.Local → y.Spelled file top first pieces →
      (∀ r ∈ images.rows, lookup "image" (lookup r.1 (lookup "containers" (some top))) ≠ none) →
      apply y tables file images = .ok (out, changed) →
      Promoted y tables top first pieces images out changed := by
  intro h
  have hreads : ∀ c ∈ QuotedImages.one "old:1", c.Reads := by
    intro c hc
    obtain rfl := List.mem_singleton.mp hc
    rfl
  have hpromoted := h (QuotedImages.codec ((QuotedImages.one "old:1").map QuotedImages.Cell.slot)) .ascii _ _
    (QuotedImages.fileOf (QuotedImages.one "a\"b")) _ _ ⟨[("app", "a\"b")], by decide⟩ ["app"]
    (QuotedImages.codec_local (by decide)) (QuotedImages.spelled hreads (by decide)) (by decide) (by decide)
  obtain ⟨found, hfound, -⟩ := hpromoted.agrees
  have herror : Promote.images .ascii (QuotedImages.codec ((QuotedImages.one "old:1").map QuotedImages.Cell.slot))
      (QuotedImages.fileOf (QuotedImages.one "a\"b")) = .error "yaml: did not find expected node content" := by
    decide
  rw [herror] at hfound
  contradiction

end Promoted
end Kubeast.Promote
