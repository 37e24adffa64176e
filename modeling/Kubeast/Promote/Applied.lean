import Kubeast.Promote.Written

/-! What `Images` finds in a file that is reported truthfully, and what `Apply` does to it. -/
namespace Kubeast.Promote
open Text (CharTables)
open Yaml (Style)

section Lookup
variable {y : Codec} {tables : CharTables} {flow : Bool} {before b : List Char} {e : String × Node} {c : Node}
  {content containers : List (String × Node)} {pieces later : List Piece} {p : Piece} {name key : String}
  {start found : Dict String String}

theorem lookup_cons : lookup key (some (.mapping flow (e :: content))) =
    if e.1 = key then some e.2 else lookup key (some (.mapping flow content)) := by
  rw [lookup, lookup, List.find?_cons]
  split_ifs with h
  · rw [beq_iff_eq.mpr h]
    rfl
  · rw [beq_eq_false_iff_ne.mpr h]

/-- A container that is found stands where its name is first. -/
theorem firstOf_lookup (h : Spells before containers pieces)
    (hlookup : lookup name (some (.mapping flow containers)) = some c) :
    ∃ b p later, firstOf name before pieces = some (b, p, later) ∧ Placed b (name, c) p ∧
      (p.after = [] → later = []) ∧ before ++ spell pieces = b ++ (p.token ++ (p.after ++ spell later)) := by
  induction containers generalizing before pieces with
  | nil => contradiction
  | cons e containers ih =>
    cases pieces with
    | nil => exact h.elim
    | cons p pieces =>
      obtain ⟨hplaced, hafter, hrest⟩ := h
      have htext : before ++ spell (p :: pieces) = before ++ (p.token ++ (p.after ++ spell pieces)) := by
        rw [spell, List.flatMap_cons, ← spell, List.append_assoc]
      rw [lookup_cons] at hlookup
      split_ifs at hlookup with hname
      · obtain rfl := Option.some.inj hlookup
        subst hname
        exact ⟨before, p, pieces, firstOf_eq hplaced.name, hplaced, hafter, htext⟩
      · obtain ⟨b, q, later, hfirst, hfound⟩ := ih hrest hlookup
        rw [htext, ← List.append_assoc, ← List.append_assoc]
        exact ⟨b, q, later, (firstOf_ne (hplaced.name ▸ hname)).trans hfirst, hfound⟩

theorem exists_lookup (h : Spells before containers pieces)
    (hfirst : firstOf name before pieces = some (b, p, later)) :
    ∃ c, lookup name (some (.mapping flow containers)) = some c := by
  induction containers generalizing before pieces with
  | nil =>
    cases pieces with
    | nil => contradiction
    | cons q pieces => exact h.elim
  | cons e containers ih =>
    cases pieces with
    | nil => contradiction
    | cons q pieces =>
      obtain ⟨hplaced, -, hrest⟩ := h
      rw [lookup_cons]
      split_ifs with hname
      · exact ⟨e.2, rfl⟩
      · exact ih hrest ((firstOf_ne (hplaced.name ▸ hname)).symm.trans hfirst)

/-- What `Images` keeps of a container that it reads. -/
def Piece.store (found : Dict String String) (p : Piece) : Dict String String :=
  match p.view.image with
  | some img => found.set p.name img
  | none => found

theorem ok_eq_ok {m m' : Dict String String} : (.ok m : Except String _) = .ok m' ↔ m' = m :=
  ⟨fun h => (Except.ok.inj h).symm, fun h => congrArg _ h.symm⟩

theorem addImage_ok (h : Placed before e p) :
    addImage tables start e = .ok found ↔ p.view.readable = true ∧ found = p.store start := by
  unfold addImage Piece.store
  rw [h.view, viewOf, h.name]
  cases lookup "image" (some e.2) with
  | none => exact ok_eq_ok.trans (and_iff_right rfl).symm
  | some image =>
    cases image with
    | scalar style value line column =>
      change (if isImage value then _ else _) = _ ↔ isImage value = true ∧ found = start.set e.1 value
      split_ifs with hvalue
      · exact ok_eq_ok.trans (and_iff_right hvalue).symm
      · exact iff_of_false nofun fun hboth => hvalue hboth.1
    | mapping flow content => exact iff_of_false nofun fun hboth => Bool.false_ne_true hboth.1
    | other value => exact iff_of_false nofun fun hboth => Bool.false_ne_true hboth.1

theorem foldlM_addImage (h : Spells before containers pieces) :
    containers.foldlM (addImage tables) start = .ok found ↔
      (∀ p ∈ pieces, p.view.readable = true) ∧ found = pieces.foldl Piece.store start := by
  induction containers generalizing before pieces start with
  | nil =>
    cases pieces with
    | nil => exact ok_eq_ok.trans (and_iff_right nofun).symm
    | cons p pieces => exact h.elim
  | cons e containers ih =>
    cases pieces with
    | nil => exact h.elim
    | cons p pieces =>
      obtain ⟨hplaced, -, hrest⟩ := h
      rw [List.foldlM_cons, List.forall_mem_cons, List.foldl_cons, and_assoc]
      constructor
      · intro hok
        cases hadd : addImage tables start e with
        | error err =>
          rw [hadd] at hok
          exact nomatch hok
        | ok m =>
          obtain ⟨hreadable, rfl⟩ := (addImage_ok hplaced).mp hadd
          rw [hadd] at hok
          exact ⟨hreadable, (ih hrest).mp hok⟩
      · rintro ⟨hreadable, hall⟩
        rw [(addImage_ok hplaced).mpr ⟨hreadable, rfl⟩]
        exact (ih hrest).mpr hall

theorem get_foldl_store : ((pieces.foldl Piece.store start).get name).map Prod.snd =
    (lastImage name pieces).or ((start.get name).map Prod.snd) := by
  induction pieces generalizing start with
  | nil => rfl
  | cons p pieces ih =>
    rw [List.foldl_cons, ih, lastImage_cons, Option.or_assoc]
    congr 1
    unfold Piece.store
    cases himage : p.view.image with
    | none => rw [ite_self, Option.none_or]
    | some img =>
      by_cases hname : p.name = name
      · subst hname
        rw [if_pos rfl]
        simp
      · rw [if_neg hname, Option.none_or]
        simp [Dict.get_set_ne hname]

/-- What `Images` says of the names of a map. -/
theorem images_agree {file first : List Char} {top : Node} {images : Dict String String}
    (h : y.Spelled file top first pieces) :
    (∃ found, Promote.images tables y file = .ok found ∧ ∀ r ∈ images.rows, found.get r.1 = some r) ↔
      (∀ p ∈ pieces, p.view.readable = true) ∧ ∀ r ∈ images.rows, lastImage r.1 pieces = some r.2 := by
  obtain ⟨flow, containers, hlookup, hspells⟩ := h.places
  have himages : Promote.images tables y file = containers.foldlM (addImage tables) Table.empty := by
    unfold Promote.images
    rw [h.parsed]
    dsimp only
    rw [hlookup]
  have hget (r : String × String) : (pieces.foldl Piece.store Table.empty).get r.1 = some r ↔
      lastImage r.1 pieces = some r.2 := by
    have hlast := @get_foldl_store pieces r.1 Table.empty
    rw [Table.get_empty, Option.map_none, Option.or_none] at hlast
    rw [← hlast, Option.map_eq_some_iff]
    constructor
    · exact fun heq => ⟨r, heq, rfl⟩
    · rintro ⟨r', heq, hsnd⟩
      obtain rfl : r' = r := Prod.ext (Table.key_of_get heq) hsnd
      exact heq
  rw [himages]
  constructor
  · rintro ⟨found, hfound, hrows⟩
    obtain ⟨hreadable, rfl⟩ := (foldlM_addImage hspells).mp hfound
    exact ⟨hreadable, fun r hr => (hget r).mp (hrows r hr)⟩
  · rintro ⟨hreadable, hlast⟩
    exact ⟨_, (foldlM_addImage hspells).mpr ⟨hreadable, rfl⟩, fun r hr => (hget r).mpr (hlast r hr)⟩

end Lookup

section Edits
variable {lines : List (List Char)} {images : Dict String String} {containers : Option Node} {name : String}
  {names : List String} {es : List (String × Edit)} {e : Edit}

/-- The image that a container has in a file. -/
def imageOf (containers : Option Node) (name : String) : Option String :=
  match lookup "image" (lookup name containers) with
  | some (.scalar _ value _ _) => some value
  | _ => none

def differs (images : Dict String String) (containers : Option Node) (name : String) : Bool :=
  decide (imageOf containers name ≠ some (images.index name))

theorem editsOf_cons (h : editsOf lines images containers (name :: names) = .ok (some es)) :
    ∃ style value line column es', lookup "image" (lookup name containers) = some (.scalar style value line column) ∧
      editsOf lines images containers names = .ok (some es') ∧
      (value = images.index name ∧ es = es' ∨ value ≠ images.index name ∧
        ∃ e, editAt lines style value line column (images.index name) = .ok e ∧ es = (name, e) :: es') := by
  rw [editsOf] at h
  split at h
  · exact nomatch Except.ok.inj h
  · rename_i style value line column hlookup
    refine ⟨style, value, line, column, ?_⟩
    split_ifs at h with hvalue
    · exact ⟨es, hlookup, h, Or.inl ⟨hvalue, rfl⟩⟩
    split at h
    · contradiction
    rename_i e he
    cases hrest : editsOf lines images containers names with
    | error err =>
      rw [hrest] at h
      exact nomatch h
    | ok found =>
      rw [hrest] at h
      obtain ⟨es', rfl, rfl⟩ := Option.map_eq_some_iff.mp (Except.ok.inj h)
      exact ⟨es', hlookup, rfl, Or.inr ⟨hvalue, e, he, rfl⟩⟩
  · contradiction

theorem editsOf_scalar (h : editsOf lines images containers names = .ok (some es)) (hname : name ∈ names) :
    ∃ style value line column, lookup "image" (lookup name containers) = some (.scalar style value line column) := by
  induction names generalizing es with
  | nil => contradiction
  | cons other names ih =>
    obtain ⟨style, value, line, column, es', hlookup, hrest, -⟩ := editsOf_cons h
    rcases List.mem_cons.mp hname with rfl | hmem
    · exact ⟨style, value, line, column, hlookup⟩
    · exact ih hrest hmem

theorem mem_editsOf (h : editsOf lines images containers names = .ok (some es)) :
    (name, e) ∈ es ↔ name ∈ names ∧ ∃ style value line column,
      lookup "image" (lookup name containers) = some (.scalar style value line column) ∧
      value ≠ images.index name ∧ editAt lines style value line column (images.index name) = .ok e := by
  induction names generalizing es with
  | nil =>
    obtain rfl := Option.some.inj (Except.ok.inj h)
    exact iff_of_false List.not_mem_nil fun hboth => List.not_mem_nil hboth.1
  | cons other names ih =>
    obtain ⟨style, value, line, column, es', hlookup, hrest, hcases⟩ := editsOf_cons h
    rw [List.mem_cons, or_and_right, ← ih hrest]
    rcases hcases with ⟨hvalue, rfl⟩ | ⟨hvalue, e', he', rfl⟩
    · refine (or_iff_right ?_).symm
      rintro ⟨rfl, style', value', line', column', hlookup', hne, -⟩
      obtain ⟨-, rfl, -⟩ := Node.scalar.inj (Option.some.inj (hlookup.symm.trans hlookup'))
      exact hne hvalue
    · rw [List.mem_cons]
      refine or_congr_left ?_
      constructor
      · rintro ⟨⟩
        exact ⟨rfl, style, value, line, column, hlookup, hvalue, he'⟩
      · rintro ⟨rfl, style', value', line', column', hlookup', -, he⟩
        obtain ⟨rfl, rfl, rfl, rfl⟩ := Node.scalar.inj (Option.some.inj (hlookup.symm.trans hlookup'))
        rw [Except.ok.inj (he.symm.trans he')]

theorem imageOf_scalar {style : Style} {value : String} {line column : ℕ}
    (h : lookup "image" (lookup name containers) = some (.scalar style value line column)) :
    imageOf containers name = some value := by
  rw [imageOf, h]

theorem map_fst_editsOf (h : editsOf lines images containers names = .ok (some es)) :
    es.map Prod.fst = names.filter (differs images containers) := by
  induction names generalizing es with
  | nil =>
    obtain rfl := Option.some.inj (Except.ok.inj h)
    rfl
  | cons name names ih =>
    obtain ⟨style, value, line, column, es', hlookup, hrest, hcases⟩ := editsOf_cons h
    rw [List.filter_cons, ← ih hrest, differs, imageOf_scalar hlookup]
    rcases hcases with ⟨hvalue, rfl⟩ | ⟨hvalue, e', he', rfl⟩
    · simp [hvalue]
    · simp [hvalue]

/-- Where nothing differs nothing is edited. -/
theorem editsOf_nil (h : ∀ name ∈ names, imageOf containers name = some (images.index name)) :
    editsOf lines images containers names = .ok (some []) := by
  induction names with
  | nil => rfl
  | cons name names ih =>
    obtain ⟨hname, hnames⟩ := List.forall_mem_cons.mp h
    rw [imageOf] at hname
    split at hname
    · rename_i style value line column hlookup
      rw [editsOf, hlookup]
      exact (if_pos (Option.some.inj hname)).trans (ih hnames)
    · contradiction

/-- No name is without an image, so there is nothing to be added. -/
theorem editsOf_ne_none (h : ∀ name ∈ names, lookup "image" (lookup name containers) ≠ none) :
    editsOf lines images containers names ≠ .ok none := by
  induction names with
  | nil => nofun
  | cons name names ih =>
    obtain ⟨hname, hnames⟩ := List.forall_mem_cons.mp h
    intro hnone
    rw [editsOf] at hnone
    split at hnone
    · contradiction
    · split_ifs at hnone
      · exact ih hnames hnone
      · split at hnone
        · contradiction
        · cases hrest : editsOf lines images containers names with
          | error err =>
            rw [hrest] at hnone
            exact nomatch hnone
          | ok found =>
            rw [hrest] at hnone
            cases found with
            | none => exact ih hnames hrest
            | some es => exact nomatch Except.ok.inj hnone
    · contradiction

end Edits

section Apply
variable {y : Codec} {tables : CharTables} {file first out : List Char} {top : Node} {pieces : List Piece}
  {images : Dict String String} {changed : List String}

/-- The names of a map in the order of the loops over them. -/
def namesOf (images : Dict String String) : List String := Text.sortStrings (images.rows.map Prod.fst)

theorem mem_namesOf {name : String} : name ∈ namesOf images ↔ ∃ img, (name, img) ∈ images.rows := by
  rw [namesOf, Text.mem_sortStrings, List.mem_map]
  exact ⟨fun ⟨⟨_, img⟩, hr, heq⟩ => ⟨img, heq ▸ hr⟩, fun ⟨img, hr⟩ => ⟨_, hr, rfl⟩⟩

theorem nodup_namesOf : (namesOf images).Nodup := (Text.perm_sortStrings _).nodup_iff.mpr images.nodup

theorem apply_checks {result : List Char × List String} (h : apply y tables file images = .ok result) :
    images.rows ≠ [] ∧ ∀ r ∈ images.rows, isImage r.2 = true := by
  unfold apply at h
  by_cases hne : images.rows = []
  · rw [if_pos hne] at h
    contradiction
  rw [if_neg hne] at h
  refine ⟨hne, fun r hr => ?_⟩
  split at h
  · contradiction
  · rename_i hnone
    simpa using List.find?_eq_none.mp hnone r hr

/-- A file with a map of containers is edited in place first. -/
theorem apply_spelled (tables : CharTables) (h : y.Spelled file top first pieces) (hne : images.rows ≠ [])
    (hvalid : ∀ r ∈ images.rows, isImage r.2 = true) : ∃ rest : Except String (List Char × List String),
      apply y tables file images = match inPlace file top (namesOf images) images with
        | .error e => .error e
        | .ok (some result) => .ok result
        | .ok none => rest := by
  obtain ⟨flow, containers, hlookup, -⟩ := h.places
  obtain ⟨flow', content, rfl⟩ : ∃ flow' content, top = .mapping flow' content := by
    cases top with
    | mapping flow' content => exact ⟨flow', content, rfl⟩
    | scalar => contradiction
    | other => contradiction
  have hfind : (images.rows.find? fun r => !isImage r.2) = none :=
    List.find?_eq_none.mpr fun r hr => by simp [hvalid r hr]
  have hensure : ensureMap content "containers" = some content := by
    have hfalse : lookup "containers" (some (.mapping false content)) = some (.mapping flow containers) := hlookup
    rw [ensureMap, hfalse]
  refine ⟨whole y file flow' content (namesOf images) images, ?_⟩
  unfold apply
  rw [if_neg hne, hfind, if_neg h.written, h.parsed]
  dsimp only [Option.getD_some]
  rw [hensure]
  rfl

theorem inPlace_ok {names : List String} (h : inPlace file top names images = .ok (some (out, changed))) :
    ∃ es, editsOf (splitAfter file) images (lookup "containers" (some top)) names = .ok (some es) ∧
      out = (applyEdits (splitAfter file) (es.map Prod.snd)).flatten ∧ changed = es.map Prod.fst := by
  unfold inPlace at h
  split at h
  · contradiction
  · exact nomatch Except.ok.inj h
  · rename_i hedits
    obtain ⟨rfl, rfl⟩ := Prod.mk.inj (Option.some.inj (Except.ok.inj h))
    exact ⟨[], hedits, flatten_splitAfter.symm, rfl⟩
  · rename_i es _ hedits
    obtain ⟨rfl, rfl⟩ := Prod.mk.inj (Option.some.inj (Except.ok.inj h))
    exact ⟨es, hedits, rfl, rfl⟩

theorem apply_ok (hfile : y.Spelled file top first pieces)
    (hkeys : ∀ r ∈ images.rows, lookup "image" (lookup r.1 (lookup "containers" (some top))) ≠ none)
    (h : apply y tables file images = .ok (out, changed)) :
    ∃ es, editsOf (splitAfter file) images (lookup "containers" (some top)) (namesOf images) = .ok (some es) ∧
      out = (applyEdits (splitAfter file) (es.map Prod.snd)).flatten ∧ changed = es.map Prod.fst := by
  obtain ⟨hne, hvalid⟩ := apply_checks h
  obtain ⟨rest, heq⟩ := apply_spelled tables hfile hne hvalid
  rw [heq] at h
  have hsome : editsOf (splitAfter file) images (lookup "containers" (some top)) (namesOf images) ≠ .ok none := by
    refine editsOf_ne_none fun name hname => ?_
    obtain ⟨img, hr⟩ := mem_namesOf.mp hname
    exact hkeys _ hr
  split at h
  · contradiction
  · rename_i result hplace
    obtain rfl := Except.ok.inj h
    exact inPlace_ok hplace
  · rename_i hplace
    unfold inPlace at hplace
    split at hplace
    · contradiction
    · rename_i hnone
      exact absurd hnone hsome
    · exact nomatch Except.ok.inj hplace
    · exact nomatch Except.ok.inj hplace

theorem imageOf_spelled {name : String} {b : List Char} {p : Piece} {later : List Piece} {flow : Bool} {style : Style}
    {value : String} (h : y.Spelled file top first pieces) (hfirst : firstOf name first pieces = some (b, p, later))
    (hview : p.view = .scalar flow style value) : imageOf (lookup "containers" (some top)) name = some value := by
  obtain ⟨flow', containers, hcontainers, hspells⟩ := h.places
  obtain ⟨c, hc⟩ := exists_lookup hspells hfirst
  obtain ⟨b', p', later', hfirst', hplaced, -⟩ := firstOf_lookup hspells hc
  obtain ⟨-, hp⟩ := Prod.mk.inj (Option.some.inj (hfirst.symm.trans hfirst'))
  obtain ⟨rfl, -⟩ := Prod.mk.inj hp
  have hviewOf := hplaced.view.symm.trans hview
  rw [imageOf, hcontainers, hc]
  unfold viewOf at hviewOf
  split at hviewOf
  · contradiction
  · rename_i himage
    obtain ⟨-, -, rfl⟩ := View.scalar.inj hviewOf
    rw [himage]
  · contradiction

/-- A file that has every image stays as it is. -/
theorem apply_same (hfile : y.Spelled file top first pieces) (hne : images.rows ≠ [])
    (hvalid : ∀ r ∈ images.rows, isImage r.2 = true)
    (h : ∀ name ∈ namesOf images, imageOf (lookup "containers" (some top)) name = some (images.index name)) :
    apply y tables file images = .ok (file, []) := by
  obtain ⟨rest, heq⟩ := apply_spelled tables hfile hne hvalid
  rw [heq, inPlace, editsOf_nil h]

end Apply
end Kubeast.Promote
