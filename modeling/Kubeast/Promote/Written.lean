import Kubeast.Promote.Spelled

/-! The containers of a file with images written over the first of each name, and the edits that do so in
the order of the text. -/
namespace Kubeast.Promote
open Yaml (Style quoted read)

section Pieces

def View.image : View → Option String
  | .scalar _ _ value => some value
  | _ => none

/-- The first container of a name, with the text before its image and the containers behind it. -/
def firstOf (name : String) : List Char → List Piece → Option (List Char × Piece × List Piece)
  | _, [] => none
  | before, p :: pieces =>
    if p.name = name then some (before, p, pieces) else firstOf name (before ++ p.token ++ p.after) pieces

/-- The image that is written over a container's, with its style: one that differs. -/
def fresh (images : Dict String String) (p : Piece) : Option (Style × String) :=
  match p.view, images.get p.name with
  | .scalar _ style value, some (_, img) => if value = img then none else some (style, img)
  | _, _ => none

def View.write (img : String) : View → View
  | .scalar flow style _ => .scalar flow style img
  | view => view

def Piece.write (p : Piece) (w : Style × String) : Piece :=
  { p with view := p.view.write w.2, token := quoted w.1 w.2.toList }

/-- A container with what is written over its image. -/
abbrev Marked := Piece × Option (Style × String)

def Marked.piece (m : Marked) : Piece := (m.2.map m.1.write).getD m.1

/-- Of the containers of one name the first is written over. -/
def marked (images : Dict String String) : List String → List Piece → List Marked
  | _, [] => []
  | seen, p :: pieces =>
    (p, if p.name ∈ seen then none else fresh images p) :: marked images (p.name :: seen) pieces

def promoted (images : Dict String String) (pieces : List Piece) : List Piece :=
  (marked images [] pieces).map Marked.piece

/-- The edits of a text from its start on. -/
def editsIn : List Char → List Marked → List (String × Edit)
  | _, [] => []
  | before, (p, w) :: ms =>
    (w.map fun w => (p.name, editOver before w.1 p.token w.2)).toList ++
      editsIn (before ++ p.token ++ p.after) ms

/-- What is written over stands on one line, as does what is written. -/
def Marked.OneLine (m : Marked) : Prop :=
  ∀ w, m.2 = some w → '\n' ∉ m.1.token ∧ m.1.token ≠ [] ∧ '\n' ∉ quoted w.1 w.2.toList ∧
    quoted w.1 w.2.toList ≠ []

end Pieces

section Marks
variable {images : Dict String String} {seen : List String} {before b : List Char} {pieces later : List Piece}
  {p : Piece} {m : Marked} {ms : List Marked} {name img : String} {style : Style} {w : Style × String}
  {e : Edit}

theorem marked_cons : marked images seen (p :: pieces) =
    (p, if p.name ∈ seen then none else fresh images p) :: marked images (p.name :: seen) pieces := rfl

theorem editsIn_cons {w : Option (Style × String)} : editsIn before ((p, w) :: ms) =
    (w.map fun w => (p.name, editOver before w.1 p.token w.2)).toList ++ editsIn (before ++ p.token ++ p.after) ms :=
  rfl

theorem fresh_eq_some : fresh images p = some (style, img) ↔
    ∃ flow value, p.view = .scalar flow style value ∧ images.get p.name = some (p.name, img) ∧ value ≠ img := by
  unfold fresh
  constructor
  · intro h
    split at h
    · rename_i flow style' value name' img' hview hget
      split_ifs at h with hne
      obtain ⟨rfl, rfl⟩ := Prod.mk.inj (Option.some.inj h)
      obtain rfl : name' = p.name := Table.key_of_get hget
      exact ⟨flow, value, hview, hget, hne⟩
    · contradiction
  · rintro ⟨flow, value, hview, hget, hne⟩
    rw [hview, hget]
    exact if_neg hne

theorem firstOf_eq (h : p.name = name) : firstOf name before (p :: pieces) = some (before, p, pieces) := if_pos h

theorem firstOf_ne (h : p.name ≠ name) :
    firstOf name before (p :: pieces) = firstOf name (before ++ p.token ++ p.after) pieces := if_neg h

theorem name_of_firstOf (h : firstOf name before pieces = some (b, p, later)) : p.name = name := by
  induction pieces generalizing before with
  | nil => contradiction
  | cons q pieces ih =>
    rw [firstOf] at h
    split_ifs at h with hname
    · obtain ⟨-, hp⟩ := Prod.mk.inj (Option.some.inj h)
      rw [← (Prod.mk.inj hp).1, hname]
    · exact ih h

/-- What is marked is the first container of its name. -/
theorem mem_marked (before : List Char) (h : (p, some w) ∈ marked images seen pieces) : p.name ∉ seen ∧
    ∃ b later, firstOf p.name before pieces = some (b, p, later) ∧ fresh images p = some w := by
  induction pieces generalizing seen before with
  | nil => contradiction
  | cons q pieces ih =>
    rcases List.mem_cons.mp h with heq | hmem
    · obtain ⟨rfl, hw⟩ := Prod.mk.inj heq
      split_ifs at hw with hseen
      exact ⟨hseen, before, pieces, firstOf_eq rfl, hw.symm⟩
    · obtain ⟨hseen, b, later, hfirst, hfresh⟩ := ih (before ++ q.token ++ q.after) hmem
      rw [List.mem_cons, not_or] at hseen
      exact ⟨hseen.2, b, later, (firstOf_ne (Ne.symm hseen.1)).trans hfirst, hfresh⟩

theorem mem_editsIn : (name, e) ∈ editsIn before (marked images seen pieces) ↔ name ∉ seen ∧
    ∃ b p later w, firstOf name before pieces = some (b, p, later) ∧ fresh images p = some w ∧
      e = editOver b w.1 p.token w.2 := by
  induction pieces generalizing seen before with
  | nil => exact iff_of_false List.not_mem_nil fun ⟨_, _, _, _, _, h, _⟩ => nomatch h
  | cons q pieces ih =>
    rw [marked_cons, editsIn_cons, List.mem_append, ih, List.mem_cons, not_or]
    by_cases hname : q.name = name
    · subst hname
      rw [firstOf_eq rfl]
      constructor
      · rintro (hmem | ⟨⟨hne, -⟩, -⟩)
        · obtain ⟨w, hw, heq⟩ := Option.map_eq_some_iff.mp (Option.mem_toList.mp hmem)
          split_ifs at hw with hseen
          exact ⟨hseen, before, q, pieces, w, rfl, hw, (Prod.mk.inj heq).2.symm⟩
        · exact absurd rfl hne
      · rintro ⟨hseen, b, p, later, w, hfirst, hw, rfl⟩
        obtain ⟨rfl, hp⟩ := Prod.mk.inj (Option.some.inj hfirst)
        obtain ⟨rfl, rfl⟩ := Prod.mk.inj hp
        rw [if_neg hseen, hw]
        exact Or.inl (List.mem_singleton.mpr rfl)
    · have hhead : (name, e) ∉ (Option.map (fun w => (q.name, editOver before w.1 q.token w.2))
          (if q.name ∈ seen then none else fresh images q)).toList := by
        intro hmem
        obtain ⟨w, -, heq⟩ := Option.map_eq_some_iff.mp (Option.mem_toList.mp hmem)
        exact hname (Prod.mk.inj heq).1
      rw [firstOf_ne hname, or_iff_right hhead, and_iff_right (Ne.symm hname)]

theorem nodup_editsIn : ((editsIn before (marked images seen pieces)).map Prod.fst).Nodup := by
  induction pieces generalizing seen before with
  | nil => exact List.nodup_nil
  | cons q pieces ih =>
    rw [marked_cons, editsIn_cons, List.map_append, List.nodup_append]
    refine ⟨?_, ih, ?_⟩
    · split_ifs
      · exact List.nodup_nil
      · cases fresh images q <;> simp
    · rintro name hname other hother rfl
      obtain ⟨x, hx, rfl⟩ := List.mem_map.mp hname
      obtain ⟨w, -, rfl⟩ := Option.map_eq_some_iff.mp (Option.mem_toList.mp hx)
      obtain ⟨y, hy, heq⟩ := List.mem_map.mp hother
      have hseen := (mem_editsIn.mp (show (y.1, y.2) ∈ _ from hy)).1
      exact hseen (heq ▸ List.mem_cons_self)

/-- No edit is before the place that the text starts at. -/
theorem place_le (h : (name, e) ∈ editsIn before ms) :
    lineOf before ≤ e.line ∧ (e.line = lineOf before → bytes (lastLine before) ≤ e.col) := by
  induction ms generalizing before with
  | nil => contradiction
  | cons m ms ih =>
    rw [editsIn_cons, List.mem_append] at h
    rcases h with hhead | htail
    · obtain ⟨w, -, heq⟩ := Option.map_eq_some_iff.mp (Option.mem_toList.mp hhead)
      obtain ⟨-, rfl⟩ := Prod.mk.inj heq
      exact ⟨le_rfl, fun _ => le_rfl⟩
    · obtain ⟨hline, hcol⟩ := ih htail
      rw [List.append_assoc, lineOf_append] at hline hcol
      refine ⟨by omega, fun heq => ?_⟩
      have hnone := lineOf_eq_zero.mp (show lineOf (m.1.token ++ m.1.after) = 0 by omega)
      rw [lastLine_append hnone, bytes_append] at hcol
      exact le_trans (Nat.le_add_right _ _) (hcol (by omega))

theorem bytes_pos {s : List Char} (h : s ≠ []) : 0 < bytes s := by
  obtain ⟨c, s, rfl⟩ := List.exists_cons_of_ne_nil h
  have := c.utf8Size_pos
  rw [bytes_cons]
  omega

/-- The edits of one line come from left to right. -/
theorem pairwise_editsIn (h : ∀ m ∈ ms, m.OneLine) :
    ((editsIn before ms).map Prod.snd).Pairwise fun a b => a.line = b.line → a.col < b.col := by
  induction ms generalizing before with
  | nil => exact List.Pairwise.nil
  | cons m ms ih =>
    obtain ⟨hm, hms⟩ := List.forall_mem_cons.mp h
    rw [editsIn_cons, List.map_append, List.pairwise_append]
    refine ⟨?_, ih hms, ?_⟩
    · cases m.2 <;> simp
    · intro a ha b hb heq
      obtain ⟨x, hx, rfl⟩ := List.mem_map.mp ha
      obtain ⟨w, hw, rfl⟩ := Option.map_eq_some_iff.mp (Option.mem_toList.mp hx)
      obtain ⟨y, hy, rfl⟩ := List.mem_map.mp hb
      obtain ⟨hline, hcol⟩ := place_le (show (y.1, y.2) ∈ _ from hy)
      have heq' : lineOf before = y.2.line := heq
      rw [List.append_assoc, lineOf_append] at hline hcol
      have hnone := lineOf_eq_zero.mp (show lineOf (m.1.token ++ m.1.after) = 0 by omega)
      rw [lastLine_append hnone, bytes_append, bytes_append] at hcol
      have hpos := bytes_pos (hm w hw).2.1
      have := hcol (by omega)
      exact show bytes (lastLine before) < y.2.col by omega

/-- The edits from the end of the text on write the images. -/
theorem foldl_editsIn (h : ∀ m ∈ ms, m.OneLine) :
    ((editsIn before ms).map Prod.snd).reverse.foldl applyEdit (splitAfter (before ++ spell (ms.map Prod.fst))) =
      splitAfter (before ++ spell (ms.map Marked.piece)) := by
  induction ms generalizing before with
  | nil => rfl
  | cons m ms ih =>
    obtain ⟨hm, hms⟩ := List.forall_mem_cons.mp h
    obtain ⟨p, w⟩ := m
    have hspell (q : Piece) (pieces : List Piece) :
        before ++ spell (q :: pieces) = before ++ q.token ++ (q.after ++ spell pieces) := by
      rw [spell, List.flatMap_cons, ← spell, List.append_assoc, List.append_assoc]
    have htail := @ih (before ++ p.token ++ p.after) hms
    rw [List.append_assoc (before ++ p.token), List.append_assoc (before ++ p.token)] at htail
    rw [List.map_cons, List.map_cons, hspell, hspell, editsIn_cons, List.map_append, List.reverse_append,
      List.foldl_append, htail]
    cases w with
    | none => rfl
    | some w =>
      obtain ⟨htoken, -, hnew, -⟩ := hm w rfl
      exact applyEdit_token htoken hnew

theorem map_fst_marked : (marked images seen pieces).map Prod.fst = pieces := by
  induction pieces generalizing seen with
  | nil => rfl
  | cons p pieces ih => rw [marked_cons, List.map_cons, ih]

@[simp] theorem name_piece : m.piece.name = m.1.name := by
  obtain ⟨p, w⟩ := m
  cases w <;> rfl

@[simp] theorem after_piece : m.piece.after = m.1.after := by
  obtain ⟨p, w⟩ := m
  cases w <;> rfl

theorem isEmpty_append {s t : List Char} : (s ++ t).isEmpty = (s.isEmpty && t.isEmpty) := by
  cases s <;> rfl

theorem atStart_append {before' s : List Char} (h : atStart before' = atStart before) :
    atStart (before' ++ s) = atStart (before ++ s) := by
  unfold atStart at h ⊢
  by_cases hs : '\n' ∈ s
  · rw [lastLine_break hs, lastLine_break hs]
  · rw [lastLine_append hs, lastLine_append hs, isEmpty_append, isEmpty_append, h]

/-- What stands on one line is written over within it. -/
theorem atStart_piece {before' : List Char} (hm : m.OneLine) (h : atStart before' = atStart before) :
    atStart (before' ++ m.piece.token) = atStart (before ++ m.1.token) := by
  obtain ⟨p, w⟩ := m
  cases w with
  | none => exact atStart_append h
  | some w =>
    obtain ⟨htoken, hne, hnew, hne'⟩ := hm w rfl
    have hinside {before line : List Char} (hline : '\n' ∉ line) (hne : line ≠ []) :
        atStart (before ++ line) = false := by
      rw [atStart, lastLine_append hline, isEmpty_append, List.isEmpty_eq_false_iff.mpr hne, Bool.and_false]
    exact (hinside hnew hne').trans (hinside htoken hne).symm

/-- A container that is marked is found where it was, behind what is written before it. -/
theorem firstOf_marked (images : Dict String String) (before' : List Char) (hseen : name ∉ seen)
    (h : firstOf name before pieces = some (b, p, later)) : ∃ b' later',
      firstOf name before' ((marked images seen pieces).map Marked.piece) =
        some (b', Marked.piece (p, fresh images p), later') ∧
      ((∀ m ∈ marked images seen pieces, m.OneLine) → atStart before' = atStart before →
        atStart b' = atStart b) := by
  induction pieces generalizing seen before before' with
  | nil => contradiction
  | cons q pieces ih =>
    rw [marked_cons, List.map_cons]
    by_cases hname : q.name = name
    · subst hname
      rw [firstOf_eq rfl] at h
      obtain ⟨rfl, hp⟩ := Prod.mk.inj (Option.some.inj h)
      obtain ⟨rfl, rfl⟩ := Prod.mk.inj hp
      rw [if_neg hseen]
      refine ⟨before', _, firstOf_eq name_piece, fun _ heq => heq⟩
    · rw [firstOf_ne hname] at h
      have hseen' : name ∉ q.name :: seen := fun hmem =>
        (List.mem_cons.mp hmem).elim (fun heq => hname heq.symm) hseen
      obtain ⟨b', later', hfirst, hstart⟩ := ih _ hseen' h
      refine ⟨b', later', (firstOf_ne (fun heq => hname (name_piece.symm.trans heq))).trans hfirst, ?_⟩
      intro hlines heq
      obtain ⟨hm, hms⟩ := List.forall_mem_cons.mp hlines
      refine hstart hms ?_
      rw [after_piece]
      exact atStart_append (atStart_piece hm heq)

/-- What is written as it reads rewords the first containers of their names, and those only. -/
theorem reworded_marked (h : ∀ name b p later w, name ∉ seen → firstOf name before pieces = some (b, p, later) →
    fresh images p = some w → Rewords b p (p.write w)) :
    Reworded before pieces ((marked images seen pieces).map Marked.piece) := by
  induction pieces generalizing seen before with
  | nil => trivial
  | cons p pieces ih =>
    rw [marked_cons, List.map_cons]
    refine ⟨?_, ih fun name b q later w hseen hfirst => ?_⟩
    · by_cases hseen : p.name ∈ seen
      · exact Or.inl (congrArg (fun w => Marked.piece (p, w)) (if_pos hseen))
      · rw [if_neg hseen]
        cases hfresh : fresh images p with
        | none => exact Or.inl rfl
        | some w => exact Or.inr (h p.name before p pieces w hseen (firstOf_eq rfl) hfresh)
    · rw [List.mem_cons, not_or] at hseen
      exact h name b q later w hseen.2 ((firstOf_ne (Ne.symm hseen.1)).trans hfirst)

end Marks

section Images
variable {tables : Text.CharTables} {images : Dict String String} {seen : List String}
  {before b : List Char} {pieces later : List Piece} {p : Piece} {name img : String}
  {containers : List (String × Node)} {found : Dict String String}

/-- An image that `Images` reads, or none. -/
def View.readable : View → Bool
  | .absent => true
  | .scalar _ _ value => isImage value
  | .other => false

/-- The image that the last of the containers of a name has. -/
def lastImage (name : String) (pieces : List Piece) : Option String :=
  (pieces.filterMap fun p => if p.name = name then p.view.image else none).getLast?

/-- The containers that nothing is written over. -/
def others (images : Dict String String) : List String → List Piece → List Piece
  | _, [] => []
  | seen, p :: pieces =>
    if p.name ∉ seen ∧ (images.get p.name).isSome then others images (p.name :: seen) pieces
    else p :: others images (p.name :: seen) pieces

/-- A container that is to have an image has it afterwards. -/
theorem view_piece {flow : Bool} {style : Style} {value : String} (hview : p.view = .scalar flow style value)
    (hget : images.get p.name = some (p.name, img)) :
    (Marked.piece (p, fresh images p)).view = .scalar flow style img := by
  by_cases hvalue : value = img
  · have hnone : fresh images p = none := by
      unfold fresh
      rw [hview, hget]
      exact if_pos hvalue
    rw [hnone, ← hvalue]
    exact hview
  · have hsome : fresh images p = some (style, img) := fresh_eq_some.mpr ⟨flow, value, hview, hget, hvalue⟩
    rw [hsome]
    exact (congrArg (View.write img) hview : _)

theorem fresh_eq_none (h : images.get p.name = none) : fresh images p = none := by
  unfold fresh
  rw [h]
  split
  · contradiction
  · rfl

/-- Once the images are written, it is the other ones that can be unreadable. -/
theorem readable_marked (hvalid : ∀ r ∈ images.rows, isImage r.2 = true)
    (hscalar : ∀ name b p later, name ∉ seen → (images.get name).isSome = true →
      firstOf name before pieces = some (b, p, later) → ∃ flow style value, p.view = .scalar flow style value) :
    (∀ q ∈ (marked images seen pieces).map Marked.piece, q.view.readable = true) ↔
      ∀ q ∈ others images seen pieces, q.view.readable = true := by
  induction pieces generalizing seen before with
  | nil => exact Iff.rfl
  | cons p pieces ih =>
    have htail := @ih (p.name :: seen) (before ++ p.token ++ p.after) fun name b q later hseen hget hfirst => by
      rw [List.mem_cons, not_or] at hseen
      exact hscalar name b q later hseen.2 hget ((firstOf_ne (Ne.symm hseen.1)).trans hfirst)
    rw [marked_cons, List.map_cons, List.forall_mem_cons, htail, others]
    by_cases hseen : p.name ∈ seen
    · rw [if_pos hseen, if_neg fun h => h.1 hseen, List.forall_mem_cons]
      rfl
    rw [if_neg hseen]
    cases hget : images.get p.name with
    | none =>
      have hsome : ¬(p.name ∉ seen ∧ (none : Option (String × String)).isSome = true) := fun h =>
        Bool.false_ne_true h.2
      rw [if_neg hsome, fresh_eq_none hget, List.forall_mem_cons]
      rfl
    | some r =>
      obtain ⟨key, img⟩ := r
      obtain rfl : key = p.name := Table.key_of_get hget
      obtain ⟨flow, style, value, hview⟩ := hscalar _ _ _ _ hseen (by rw [hget]; rfl) (firstOf_eq rfl)
      rw [if_pos ⟨hseen, rfl⟩, view_piece hview hget]
      exact and_iff_right (hvalid _ (Table.mem_of_get hget))

theorem lastImage_cons : lastImage name (p :: pieces) =
    (lastImage name pieces).or (if p.name = name then p.view.image else none) := by
  rw [lastImage, List.filterMap_cons]
  cases hp : (if p.name = name then p.view.image else none) with
  | none => rw [Option.or_none, lastImage]
  | some img => rw [List.getLast?_cons, lastImage]; cases List.getLast? _ <;> rfl

theorem lastImage_seen (h : name ∈ seen) :
    lastImage name ((marked images seen pieces).map Marked.piece) = lastImage name pieces := by
  induction pieces generalizing seen with
  | nil => rfl
  | cons p pieces ih =>
    rw [marked_cons, List.map_cons, lastImage_cons, lastImage_cons, ih (List.mem_cons_of_mem _ h), name_piece]
    by_cases hname : p.name = name
    · have hseen : p.name ∈ seen := hname ▸ h
      rw [if_pos hseen]
      rfl
    · rw [if_neg hname, if_neg hname]

/-- The image of a name is the one written, unless a later container has it too. -/
theorem lastImage_marked (hseen : name ∉ seen) (h : firstOf name before pieces = some (b, p, later)) :
    lastImage name ((marked images seen pieces).map Marked.piece) =
      (lastImage name later).or (Marked.piece (p, fresh images p)).view.image := by
  induction pieces generalizing seen before with
  | nil => contradiction
  | cons q pieces ih =>
    rw [marked_cons, List.map_cons, lastImage_cons, name_piece]
    by_cases hname : q.name = name
    · subst hname
      rw [firstOf_eq rfl] at h
      obtain ⟨rfl, hp⟩ := Prod.mk.inj (Option.some.inj h)
      obtain ⟨rfl, rfl⟩ := Prod.mk.inj hp
      rw [if_neg hseen, if_pos rfl, lastImage_seen List.mem_cons_self]
    · rw [firstOf_ne hname] at h
      have hseen' : name ∉ q.name :: seen := fun hmem =>
        (List.mem_cons.mp hmem).elim (fun heq => hname heq.symm) hseen
      rw [ih hseen' h, if_neg hname, Option.or_none]

end Images
end Kubeast.Promote
