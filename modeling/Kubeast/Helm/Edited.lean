import Kubeast.Helm.Walk
import Kubeast.Helm.Unchanged
import Mathlib.Data.Bool.AllAny

/-! `keepMaskedValues`: no placeholder is stored, and no hidden value is copied. -/
namespace Kubeast.Helm

variable (tables : Text.CharTables) (floats : FloatFormats) (shownValues : Values → Values)

def membersOf : Value → List (String × Value)
  | .map ms => ms
  | _ => []

theorem ordered_membersOf {v : Value} (h : Ordered v) : Ordered (.map (membersOf v)) := by
  cases v with
  | map ms => exact h
  | _ => exact ordered_map.mpr ⟨.nil, by simp [membersOf]⟩

namespace Values

def value (values : Values) : Value := .map values.members

/-- A map of one text. -/
def single (key s : String) : Values :=
  ⟨[(key, .str s)], ordered_map.mpr ⟨by simp, by simp [Ordered]⟩⟩

end Values

def walkValues (sent current : Values) : Value × Notes :=
  walk tables floats [] [] sent.value (shownValues current).value current.value true

/-- `keepMaskedValues`. `shownValues` is what the caller read. -/
def keepMaskedValues (sent current : Values) : Values × KeptValues :=
  let walked := walkValues tables floats shownValues sent current
  let places := walked.2.kept.map fun e => placeText e.2
  (⟨membersOf walked.1,
    ordered_membersOf (walk_ordered [] [] _ _ true sent.ordered current.ordered)⟩,
    { places
      changed := notKept places ((maskPlaces [] (shownValues current).value).map placeText)
      refused := walked.2.refused.map placeText
      texts := walked.2.texts
      differs := valuesDiffer sent.members (shownValues current).members })

variable {tables floats shownValues}

theorem keepMaskedValues_value (sent current : Values) :
    (keepMaskedValues tables floats shownValues sent current).1.value =
      (walkValues tables floats shownValues sent current).1 := by
  simp [keepMaskedValues, walkValues, Values.value, walk, membersOf]

theorem keepMaskedValues_refused {sent current : Values} :
    (keepMaskedValues tables floats shownValues sent current).2.refused = [] ↔
      (walkValues tables floats shownValues sent current).2.refused = [] :=
  List.map_eq_nil_iff

/-- Where nothing is refused, no placeholder is left, what is sent stays, and every placeholder is
replaced by what one place hides, each place serving one placeholder at most. -/
theorem keepMaskedValues_safe {sent current : Values} (hcurrent : holdsMask current.value = false)
    (h : (keepMaskedValues tables floats shownValues sent current).2.refused = []) :
    holdsMask (keepMaskedValues tables floats shownValues sent current).1.value = false ∧
      (∀ p s, valueAt p sent.value = some (.str s) → hasMark s = false →
        valueAt p (keepMaskedValues tables floats shownValues sent current).1.value =
          some (.str s)) ∧
      ∃ kept : List (Place × Place),
        (keepMaskedValues tables floats shownValues sent current).2.places =
          kept.map (fun e => placeText e.2) ∧
        (kept.map Prod.snd).Nodup ∧
        (∀ p s, valueAt p sent.value = some (.str s) → hasMark s = true → ∃ q, (p, q) ∈ kept) ∧
        (∀ e ∈ kept, ∃ s v, hasMark s = true ∧ valueAt e.1 sent.value = some (.str s) ∧
          valueAt e.2 (shownValues current).value = some (.str s) ∧
          valueAt e.2 current.value = some v ∧
          valueAt e.1 (keepMaskedValues tables floats shownValues sent current).1.value = some v) ∧
        ∀ p v, valueAt p (keepMaskedValues tables floats shownValues sent current).1.value = some v →
          IsLeaf v → valueAt p sent.value = some v ∨ ∃ e ∈ kept, e.1 <+: p := by
  have hrestored := walk_restored sent.ordered (keepMaskedValues_refused.mp h)
  rw [keepMaskedValues_value]
  refine ⟨hrestored.unmasked hcurrent, ?_, _, rfl, hrestored.once, hrestored.noted, ?_, ?_⟩
  · intro p s hp hs
    exact hrestored.sent_plain p (.str s) hp hs
  · intro e he
    obtain ⟨p, q, s, v, rfl, hkept⟩ := hrestored.taken e he
    exact ⟨s, v, hkept⟩
  · intro p v hp hleaf
    rcases hrestored.leaf p v hp hleaf with hsent | ⟨p₀, q, r, hkept, rfl⟩
    · exact .inl hsent
    · exact .inr ⟨_, hkept, r, rfl⟩

/-- Whole floats as both write them. -/
def wholeFloats : FloatFormats := ⟨fun q => (toString q.num).toList, fun q => [toString q.num]⟩

/-- One password, sent back as it was shown. -/
theorem keepMaskedValues_safe_password :
    let current := Values.single "password" "fake"
    let shown := Values.single "password" "<REDACTED:password>"
    holdsMask current.value = false ∧
      (keepMaskedValues .ascii wholeFloats (fun _ => shown) shown current).2.refused = [] ∧
      holdsMask (keepMaskedValues .ascii wholeFloats (fun _ => shown) shown current).1.value =
        false := by
  have hcurrent : holdsMask (Values.single "password" "fake").value = false := by decide
  have hrefused : (keepMaskedValues .ascii wholeFloats
      (fun _ => Values.single "password" "<REDACTED:password>")
      (Values.single "password" "<REDACTED:password>")
      (Values.single "password" "fake")).2.refused = [] := by decide
  exact ⟨hcurrent, hrefused, (keepMaskedValues_safe hcurrent hrefused).1⟩

end Kubeast.Helm

/-! Values sent back as they were shown, or edited around their placeholders. -/
namespace Kubeast.Helm

variable {tables : Text.CharTables} {floats : FloatFormats}

section Edits

/-- The placeholders of an item that stays, and none of one that does not hold any. -/
def movedItem (place shownPlace : Place) (source : ℕ → Option ℕ) (x : Value × ℕ) :
    List (Place × Place) :=
  match source x.2 with
  | some j => moved (place ++ [.item (some x.2)]) (shownPlace ++ [.item (some j)]) x.1
  | none => []

/-- What is sent is what was shown, with parts changed, added or removed that hold no placeholder,
and the items of lists moved as `ListEdit` says. The last list says where the placeholders that are
still there stand, and where they were shown. -/
inductive Edited (tables : Text.CharTables) (floats : FloatFormats) :
    Place → Place → Value → Value → List (Place × Place) → Prop
  | plain {place shownPlace shown sent} : holdsMask sent = false →
      Edited tables floats place shownPlace shown sent []
  | placeholder {place shownPlace s} : hasMark s = true →
      Edited tables floats place shownPlace (.str s) (.str s) [(place, shownPlace)]
  | map {place shownPlace shown ms} (moves : String × Value → List (Place × Place)) :
      (∀ m ∈ ms, hasMark m.1 = false) →
      (∀ m ∈ ms, Edited tables floats (place ++ [.key m.1]) (shownPlace ++ [.key m.1])
        ((shown.get m.1).getD .null) m.2 (moves m)) →
      Edited tables floats place shownPlace shown (.map ms) (ms.flatMap moves)
  | list {place shownPlace shown items source} :
      ListEdit tables floats (itemsOf shown) items source →
      Edited tables floats place shownPlace shown (.list items)
        (items.zipIdx.flatMap (movedItem place shownPlace source))

/-- What was shown hides what is there, or nothing was shown. -/
def Backed (shown real : Value) (hasReal : Bool) : Prop :=
  holdsMask shown = false ∨ Masks shown real ∧ hasReal = true

theorem backed_get {shown real : Value} {hasReal : Bool} (h : Backed shown real hasReal)
    (k : String) :
    Backed ((shown.get k).getD .null) ((real.get k).getD .null) (real.get k).isSome := by
  cases hget : shown.get k with
  | none => exact .inl rfl
  | some w =>
    rcases h with hplain | ⟨hmasks, -⟩
    · exact .inl (holdsMask_get hplain hget)
    · obtain ⟨r, hr, hmask⟩ := masks_get hmasks hget
      right
      simpa [hr] using hmask

theorem plainKeys_get {v : Value} (hv : PlainKeys v) (k : String) :
    PlainKeys ((v.get k).getD .null) := by
  cases h : v.get k with
  | none => trivial
  | some w =>
    obtain ⟨ms, rfl⟩ := Value.isMap_of_get h
    obtain ⟨m, hm, rfl⟩ := Option.map_eq_some_iff.mp h
    exact (plainKeys_map.mp hv m (List.mem_of_find?_eq_some hm)).2

theorem plainKeys_itemsOf {v w : Value} {i : ℕ} (hv : PlainKeys v) (h : (itemsOf v)[i]? = some w) :
    PlainKeys w := by
  cases v with
  | list items => exact plainKeys_list.mp hv w (List.mem_of_getElem? h)
  | _ => simp [itemsOf] at h

theorem ordered_itemsOf {v w : Value} {i : ℕ} (hv : Ordered v) (h : (itemsOf v)[i]? = some w) :
    Ordered w := by
  have hitem := ordered_item hv (some i)
  simpa [h] using hitem

theorem Gives.self {walked : Value × Notes} {out : Value} {kept : List (Place × Place)}
    (h : Gives walked out kept) : Gives walked walked.1 kept := ⟨rfl, h.refused, h.kept⟩

/-- The walk keeps the placeholders that are still there, and refuses nothing. -/
theorem walk_edited (hprinting : Printing tables floats) {place shownPlace : Place}
    {shown sent real : Value} {hasReal : Bool} {moves : List (Place × Place)}
    (h : Edited tables floats place shownPlace shown sent moves) (hshown : Ordered shown)
    (hreal : Ordered real) (hkeys : PlainKeys shown) (hbacked : Backed shown real hasReal) :
    ∃ out, Gives (walk tables floats place shownPlace sent shown real hasReal) out moves := by
  induction h generalizing real hasReal with
  | plain hplain => exact ⟨_, walk_plain hplain⟩
  | placeholder hs =>
    rcases hbacked with hplain | ⟨-, rfl⟩
    · rw [holdsMask, hs] at hplain
      cases hplain
    · rw [walk, if_neg (by simp [hs]), if_pos ⟨rfl, rfl⟩]
      exact ⟨real, rfl, rfl, rfl⟩
  | @map place shownPlace shown ms moves hnames _ ih =>
    have hgives : ∀ m ∈ ms, Gives (memberWalk tables floats place shownPlace shown real m)
        (memberWalk tables floats place shownPlace shown real m).1 (moves m) := by
      intro m hm
      obtain ⟨out, hgives⟩ := ih m hm (ordered_get hshown m.1) (ordered_get hreal m.1)
        (plainKeys_get hkeys m.1) (backed_get hbacked m.1)
      exact hgives.self
    exact ⟨_, Gives.map hasReal hnames hgives⟩
  | @list place shownPlace shown items source hedit =>
    have hgives : ∀ x ∈ items.zipIdx, Gives
        (itemWalk tables floats place shownPlace (itemsOf shown) (itemsOf real)
          (matchItems tables floats items (itemsOf shown)) x)
        (itemWalk tables floats place shownPlace (itemsOf shown) (itemsOf real)
          (matchItems tables floats items (itemsOf shown)) x).1
        (movedItem place shownPlace source x) := by
      intro x hx
      have hitem : items[x.2]? = some x.1 := List.mem_zipIdx_iff_getElem?.mp hx
      have hsource := hedit.matchItems hprinting x.2
      rw [movedItem]
      cases hj : source x.2 with
      | none =>
        have hplain : holdsMask x.1 = false := by
          by_contra hmask
          obtain ⟨j, hj'⟩ := hedit.kept x.2 x.1 hitem (by simpa using hmask)
          rw [hj] at hj'
          cases hj'
        exact Gives.self (walk_plain hplain)
      | some j =>
        obtain ⟨w, hw, hshown', hmask⟩ := hedit.same x.2 j hj
        obtain rfl : x.1 = w := Option.some.inj (hitem.symm.trans hw)
        have hmasks : Masks shown real := by
          rcases hbacked with hplain | ⟨hmasks, -⟩
          · rw [holdsMask_item hplain hshown'] at hmask
            cases hmask
          · exact hmasks
        obtain ⟨r, hr, hmasked⟩ := masks_item hmasks hshown'
        rw [itemWalk_some (hsource.trans hj) hshown' hr]
        exact Gives.self (walk_self hprinting (ordered_itemsOf hshown hshown')
          (ordered_itemsOf hreal hr) (plainKeys_itemsOf hkeys hshown') hmasked)
    exact ⟨_, Gives.list hasReal hgives⟩

end Edits

section Changed

theorem mem_maskPlaces {v : Value} (hv : Ordered v) {p : Place} :
    p ∈ maskPlaces [] v ↔ ∃ s, valueAt p v = some (.str s) ∧ hasMark s = true := by
  induction v using Value.nested generalizing p with
  | null | bool _ | num _ =>
    refine iff_of_false List.not_mem_nil ?_
    rintro ⟨s, hp, -⟩
    cases (valueAt_leaf (by trivial) hp).2
  | str s =>
    rw [maskPlaces]
    constructor
    · intro hp
      split at hp
      · rename_i hs
        obtain rfl := List.mem_singleton.mp hp
        exact ⟨s, rfl, hs⟩
      · cases hp
    · rintro ⟨s', hp, hs⟩
      obtain ⟨rfl, heq⟩ := valueAt_leaf (v := .str s) trivial hp
      obtain rfl := Value.str.inj heq
      simp [hs]
  | list items ih =>
    rw [maskPlaces_list, List.mem_flatMap]
    constructor
    · rintro ⟨x, hx, hp⟩
      rw [maskPlaces_eq] at hp
      obtain ⟨q, hq, rfl⟩ := List.mem_map.mp hp
      have hmem := List.fst_mem_of_mem_zipIdx hx
      obtain ⟨s, hs⟩ := (ih x.1 hmem (ordered_list.mp hv x.1 hmem)).mp hq
      exact ⟨s, by simpa [valueAt, itemsOf, List.mem_zipIdx_iff_getElem?.mp hx] using hs⟩
    · rintro ⟨s, hp, hs⟩
      rcases p with _ | ⟨k | _ | i, p⟩
      · cases hp
      · cases hp
      · cases hp
      · obtain ⟨w, hw, hp⟩ := Option.bind_eq_some_iff.mp hp
        rw [itemsOf] at hw
        have hmem := List.mem_of_getElem? hw
        refine ⟨(w, i), List.mk_mem_zipIdx_iff_getElem?.mpr hw, ?_⟩
        rw [maskPlaces_eq]
        exact List.mem_map.mpr ⟨p, (ih w hmem (ordered_list.mp hv w hmem)).mpr ⟨s, hp, hs⟩, rfl⟩
  | map ms ih =>
    obtain ⟨hnames, hvalues⟩ := ordered_map.mp hv
    rw [maskPlaces_map, List.mem_flatMap]
    constructor
    · rintro ⟨m, hm, hp⟩
      rw [maskPlaces_eq] at hp
      obtain ⟨q, hq, rfl⟩ := List.mem_map.mp hp
      obtain ⟨s, hs⟩ := (ih m hm (hvalues m hm)).mp hq
      exact ⟨s, by simpa [valueAt, Value.get_of_mem (hnames.imp String.ne_of_lt) hm] using hs⟩
    · rintro ⟨s, hp, hs⟩
      rcases p with _ | ⟨k | _ | i, p⟩
      · cases hp
      · obtain ⟨w, hw, hp⟩ := Option.bind_eq_some_iff.mp hp
        obtain ⟨m, hm, rfl⟩ := Option.map_eq_some_iff.mp hw
        have hk : m.1 = k := by simpa using List.find?_some hm
        have hmem := List.mem_of_find?_eq_some hm
        refine ⟨m, hmem, ?_⟩
        rw [maskPlaces_eq, hk]
        exact List.mem_map.mpr ⟨p, (ih m hmem (hvalues m hmem)).mpr ⟨s, hp, hs⟩, rfl⟩
      · cases hp
      · cases hp

/-- No place is listed twice. -/
theorem maskPlaces_nodup {v : Value} (hv : Ordered v) : (maskPlaces [] v).Nodup := by
  have hprefix : ∀ (step : Step) (w : Value), (maskPlaces [] w).Nodup →
      (maskPlaces ([] ++ [step]) w).Nodup := by
    intro step w hw
    rw [maskPlaces_eq]
    exact hw.map fun a b hab => by simpa using hab
  have hapart : ∀ {step step' : Step} {w w' : Value}, step ≠ step' →
      List.Disjoint (maskPlaces ([] ++ [step]) w) (maskPlaces ([] ++ [step']) w') := by
    intro step step' w w' hne p hp hp'
    rw [maskPlaces_eq] at hp hp'
    obtain ⟨q, -, rfl⟩ := List.mem_map.mp hp
    obtain ⟨q', -, heq⟩ := List.mem_map.mp hp'
    exact hne (List.cons.inj heq).1.symm
  induction v using Value.nested with
  | null | bool _ | num _ => exact List.nodup_nil
  | str s =>
    rw [maskPlaces]
    split <;> simp
  | list items ih =>
    rw [maskPlaces_list, List.nodup_flatMap]
    refine ⟨fun x hx => ?_, ?_⟩
    · have hmem := List.fst_mem_of_mem_zipIdx hx
      exact hprefix _ _ (ih x.1 hmem (ordered_list.mp hv x.1 hmem))
    · have hindex : items.zipIdx.Pairwise fun x x' => x.2 ≠ x'.2 := by
        apply List.pairwise_map.mp
        rw [List.zipIdx_map_snd]
        exact List.nodup_range'
      exact hindex.imp fun hne => hapart (by simpa using hne)
  | map ms ih =>
    obtain ⟨hnames, hvalues⟩ := ordered_map.mp hv
    rw [maskPlaces_map, List.nodup_flatMap]
    refine ⟨fun m hm => hprefix _ _ (ih m hm (hvalues m hm)), ?_⟩
    have hkeys : ms.Pairwise fun m m' => m.1 ≠ m'.1 :=
      List.pairwise_map.mp (hnames.imp String.ne_of_lt)
    exact hkeys.imp fun hne => hapart (by simpa using hne)

/-- What is not kept is what was dropped, in some order where texts of places collide. -/
theorem notKept_perm {kept dropped places : List String} (h : places.Perm (kept ++ dropped)) :
    (notKept kept places).Perm dropped := by
  induction places generalizing kept dropped with
  | nil =>
    obtain ⟨-, rfl⟩ := List.append_eq_nil_iff.mp h.symm.eq_nil
    rfl
  | cons place places ih =>
    rw [notKept]
    split
    · rename_i hmem
      apply ih
      have hkept := (List.perm_cons_erase hmem).append_right dropped
      exact (h.trans hkept).cons_inv
    · rename_i hnot
      have hmem : place ∈ dropped := by
        rcases List.mem_append.mp (h.subset List.mem_cons_self) with hkept | hdropped
        · exact absurd hkept hnot
        · exact hdropped
      have hdropped := List.perm_cons_erase hmem
      refine (List.Perm.cons place (ih ?_)).trans hdropped.symm
      have hmiddle : (kept ++ dropped).Perm (place :: (kept ++ dropped.erase place)) :=
        (hdropped.append_left kept).trans List.perm_middle
      exact (h.trans hmiddle).cons_inv

/-- Where no two places have one text, they are listed in order. -/
theorem notKept_filter {kept places : List String} (h : places.Nodup) :
    notKept kept places = places.filter (· ∉ kept) := by
  induction places generalizing kept with
  | nil => rfl
  | cons place places ih =>
    obtain ⟨hnot, hplaces⟩ := List.nodup_cons.mp h
    rw [notKept]
    split
    · rename_i hmem
      rw [ih hplaces, List.filter_cons_of_neg (by simpa using hmem)]
      apply List.filter_congr
      intro q hq
      have hne : q ≠ place := fun heq => hnot (heq ▸ hq)
      simp [List.mem_erase_of_ne hne]
    · rename_i hmem
      rw [ih hplaces, List.filter_cons_of_pos (by simpa using hmem)]

end Changed

end Kubeast.Helm

/-! Values sent back as they were shown keep their hidden values. -/
namespace Kubeast.Helm

variable {tables : Text.CharTables} {floats : FloatFormats} {shownValues : Values → Values}

/-- The placeholders shown that are no more, as `changed` lists them. -/
def dropped (shown : Value) (moves : List (Place × Place)) : List String :=
  ((maskPlaces [] shown).filter (· ∉ moves.map Prod.snd)).map placeText

theorem changed_perm {shown : Value} (hshown : Ordered shown) {moves : List (Place × Place)}
    (honce : (moves.map Prod.snd).Nodup) (hmem : ∀ e ∈ moves, e.2 ∈ maskPlaces [] shown) :
    (notKept (moves.map fun e => placeText e.2) ((maskPlaces [] shown).map placeText)).Perm
      (dropped shown moves) := by
  apply notKept_perm
  have hkept : ((maskPlaces [] shown).filter (· ∈ moves.map Prod.snd)).Perm (moves.map Prod.snd) := by
    apply (List.perm_ext_iff_of_nodup ((maskPlaces_nodup hshown).filter _) honce).mpr
    intro p
    rw [List.mem_filter, decide_eq_true_eq]
    refine ⟨And.right, fun hp => ⟨?_, hp⟩⟩
    obtain ⟨e, he, rfl⟩ := List.mem_map.mp hp
    exact hmem e he
  have hsplit := List.filter_append_perm (fun p => decide (p ∈ moves.map Prod.snd)) (maskPlaces [] shown)
  have hall := (hkept.symm.append_right
    ((maskPlaces [] shown).filter fun p => !decide (p ∈ moves.map Prod.snd))).trans hsplit
  have htexts := (hall.map placeText).symm
  rw [List.map_append, List.map_map] at htexts
  simpa [dropped, Function.comp_def] using htexts

theorem changed_eq {shown : Value} {moves : List (Place × Place)}
    (hmem : ∀ e ∈ moves, e.2 ∈ maskPlaces [] shown)
    (htexts : ((maskPlaces [] shown).map placeText).Nodup) :
    notKept (moves.map fun e => placeText e.2) ((maskPlaces [] shown).map placeText) =
      dropped shown moves := by
  rw [notKept_filter htexts, List.filter_map, dropped]
  congr 1
  apply List.filter_congr
  intro p hp
  have hinj : placeText p ∈ moves.map (fun e => placeText e.2) ↔ p ∈ moves.map Prod.snd := by
    constructor
    · intro h
      obtain ⟨e, he, heq⟩ := List.mem_map.mp h
      exact List.mem_map.mpr ⟨e, he, List.inj_on_of_nodup_map htexts (hmem e he) hp heq⟩
    · intro h
      obtain ⟨e, he, rfl⟩ := List.mem_map.mp h
      exact List.mem_map.mpr ⟨e, he, rfl⟩
  simp only [Function.comp_apply, hinj]

/-- What an edit that keeps the placeholders gives. -/
theorem keepMaskedValues_of_gives {sent current : Values} {out : Value}
    {moves : List (Place × Place)}
    (h : Gives (walkValues tables floats shownValues sent current) out moves) :
    (keepMaskedValues tables floats shownValues sent current).2.refused = [] ∧
      (keepMaskedValues tables floats shownValues sent current).1.value = out ∧
      (keepMaskedValues tables floats shownValues sent current).2.changed =
        notKept (moves.map fun e => placeText e.2)
          ((maskPlaces [] (shownValues current).value).map placeText) := by
  refine ⟨keepMaskedValues_refused.mpr h.refused, ?_, ?_⟩
  · rw [keepMaskedValues_value, h.out]
  · rw [keepMaskedValues, h.kept]

/-- What is sent back as it was shown changes nothing; what is edited around its placeholders keeps
what they hide, wherever list items take them. -/
theorem keepMaskedValues_edited (hprinting : Printing tables floats) {current : Values}
    (hmasks : Masks (shownValues current).value current.value)
    (hkeys : PlainKeys (shownValues current).value) :
    ((keepMaskedValues tables floats shownValues (shownValues current) current).2.refused = [] ∧
      (keepMaskedValues tables floats shownValues (shownValues current) current).1.value =
        current.value ∧
      (keepMaskedValues tables floats shownValues (shownValues current) current).2.changed = []) ∧
    ∀ (sent : Values) (moves : List (Place × Place)),
      Edited tables floats [] [] (shownValues current).value sent.value moves →
      (keepMaskedValues tables floats shownValues sent current).2.refused = [] ∧
      (∀ p s, valueAt p sent.value = some (.str s) → hasMark s = true → ∃ q, (p, q) ∈ moves) ∧
      (∀ e ∈ moves, ∃ v, valueAt e.2 current.value = some v ∧
        valueAt e.1 (keepMaskedValues tables floats shownValues sent current).1.value = some v) ∧
      (∀ p v, valueAt p sent.value = some v → holdsMask v = false →
        valueAt p (keepMaskedValues tables floats shownValues sent current).1.value = some v) ∧
      ((keepMaskedValues tables floats shownValues sent current).2.changed.Perm
        (dropped (shownValues current).value moves)) ∧
      (((maskPlaces [] (shownValues current).value).map placeText).Nodup →
        (keepMaskedValues tables floats shownValues sent current).2.changed =
          dropped (shownValues current).value moves) := by
  have hshown := (shownValues current).ordered
  constructor
  · have hself : Gives (walkValues tables floats shownValues (shownValues current) current)
        current.value (moved [] [] (shownValues current).value) :=
      walk_self hprinting hshown current.ordered hkeys hmasks
    obtain ⟨hrefused, hvalue, hchanged⟩ := keepMaskedValues_of_gives hself
    refine ⟨hrefused, hvalue, ?_⟩
    have htexts : (moved [] [] (shownValues current).value).map (fun e => placeText e.2) =
        (maskPlaces [] (shownValues current).value).map placeText := by
      simp [moved]
    rw [hchanged, htexts]
    apply List.Perm.eq_nil
    apply notKept_perm
    rw [List.append_nil]
  · intro sent moves hedited
    obtain ⟨out, hgives⟩ : ∃ out, Gives (walkValues tables floats shownValues sent current) out moves :=
      walk_edited hprinting hedited hshown current.ordered hkeys (.inr ⟨hmasks, rfl⟩)
    obtain ⟨hrefused, hvalue, hchanged⟩ := keepMaskedValues_of_gives hgives
    have hrestored : Restored [] [] sent.value (shownValues current).value current.value true
        (walkValues tables floats shownValues sent current).1
        (walkValues tables floats shownValues sent current).2.kept :=
      walk_restored sent.ordered hgives.refused
    rw [hgives.out, hgives.kept] at hrestored
    have hmem : ∀ e ∈ moves, e.2 ∈ maskPlaces [] (shownValues current).value := by
      intro e he
      obtain ⟨p, q, s, v, rfl, hs, -, hq, -⟩ := hrestored.taken e he
      exact (mem_maskPlaces hshown).mpr ⟨s, hq, hs⟩
    have htaken : ∀ e ∈ moves, ∃ v, valueAt e.2 current.value = some v ∧ valueAt e.1 out = some v := by
      intro e he
      obtain ⟨p, q, s, v, rfl, -, -, -, hreal, hput⟩ := hrestored.taken e he
      exact ⟨v, hreal, hput⟩
    rw [hvalue, hchanged]
    exact ⟨hrefused, hrestored.noted, htaken, hrestored.sent_plain,
      changed_perm hshown hrestored.once hmem, changed_eq hmem⟩

theorem printing_ascii : Printing .ascii wholeFloats where
  mark := List.all_iff_forall_prop.mp (by decide)
  float q := by
    have hdigits : ∀ n : ℕ, '<' ∉ Nat.toDigits 10 n := by
      intro n hmem
      have hdigit := Nat.isDigit_of_mem_toDigits (by decide) (by decide) hmem
      cases hdigit
    have hnat : ∀ n : ℕ, '<' ∉ (Nat.repr n).toList := by
      intro n
      rw [Nat.repr, String.toList_ofList]
      exact hdigits n
    simp only [wholeFloats]
    cases q.num with
    | ofNat n => exact hnat n
    | negSucc n =>
      have htext : toString (Int.negSucc n) = "-" ++ Nat.repr (n + 1) := rfl
      rw [htext, String.toList_append, List.mem_append]
      rintro (hsign | hdigit)
      · revert hsign
        decide
      · exact hnat (n + 1) hdigit

theorem ordered_texts (items : List String) : Ordered (.map [("keys", .list (items.map .str))]) := by
  refine ordered_map.mpr ⟨List.pairwise_singleton _ _, fun m hm => ?_⟩
  rw [List.mem_singleton.mp hm]
  refine ordered_list.mpr fun v hv => ?_
  obtain ⟨s, -, rfl⟩ := List.mem_map.mp hv
  exact trivial

def keyList (items : List String) : Values := ⟨[("keys", .list (items.map .str))], ordered_texts items⟩

/-- Two passwords, whose placeholders are sent back in the other order with a new item between them. -/
def passwords : Values := keyList ["alpha", "beta"]

def shownPasswords : Values := keyList ["<REDACTED:a>", "<REDACTED:b>"]

def swappedPasswords : Values := keyList ["<REDACTED:b>", "gamma", "<REDACTED:a>"]

def swapped (i : ℕ) : Option ℕ := if i = 0 then some 1 else if i = 2 then some 0 else none

theorem listEdit_swapped : ListEdit .ascii wholeFloats (["<REDACTED:a>", "<REDACTED:b>"].map Value.str)
    (["<REDACTED:b>", "gamma", "<REDACTED:a>"].map Value.str) swapped := by
  have hsource : ∀ i j, swapped i = some j → i = 0 ∧ j = 1 ∨ i = 2 ∧ j = 0 := by
    intro i j h
    unfold swapped at h
    split_ifs at h with h0 h2
    · exact .inl ⟨h0, (Option.some.inj h).symm⟩
    · exact .inr ⟨h2, (Option.some.inj h).symm⟩
  refine ⟨fun i j h => ?_, fun i item hitem hmask => ?_, .inl ⟨by decide, fun i i' j h h' => ?_⟩⟩
  · rcases hsource i j h with ⟨rfl, rfl⟩ | ⟨rfl, rfl⟩ <;> exact ⟨_, rfl, rfl, by decide⟩
  · have hi : i < 3 := (List.getElem?_eq_some_iff.mp hitem).1
    obtain rfl | rfl | rfl : i = 0 ∨ i = 1 ∨ i = 2 := by omega
    · exact ⟨1, rfl⟩
    · obtain rfl := Option.some.inj hitem
      exact absurd hmask (by decide)
    · exact ⟨0, rfl⟩
  · have hi := hsource i j h
    have hi' := hsource i' j h'
    omega

theorem edited_swapped : Edited .ascii wholeFloats [] [] shownPasswords.value swappedPasswords.value
    [([.key "keys", .item (some 0)], [.key "keys", .item (some 1)]),
      ([.key "keys", .item (some 2)], [.key "keys", .item (some 0)])] := by
  refine Edited.map (fun _ => [([.key "keys", .item (some 0)], [.key "keys", .item (some 1)]),
    ([.key "keys", .item (some 2)], [.key "keys", .item (some 0)])]) (fun m hm => ?_) fun m hm => ?_
  · rw [List.mem_singleton.mp hm]
    decide
  · rw [List.mem_singleton.mp hm]
    have hlist : ListEdit .ascii wholeFloats (itemsOf ((shownPasswords.value.get "keys").getD .null))
        (["<REDACTED:b>", "gamma", "<REDACTED:a>"].map Value.str) swapped := listEdit_swapped
    exact Edited.list hlist

theorem keepMaskedValues_edited_swapped :
    Printing .ascii wholeFloats ∧ Masks shownPasswords.value passwords.value ∧ PlainKeys shownPasswords.value ∧
      (keepMaskedValues .ascii wholeFloats (fun _ => shownPasswords) shownPasswords passwords).1.value =
        passwords.value ∧
      (keepMaskedValues .ascii wholeFloats (fun _ => shownPasswords) swappedPasswords passwords).2.refused = [] ∧
      valueAt [.key "keys", .item (some 0)]
        (keepMaskedValues .ascii wholeFloats (fun _ => shownPasswords) swappedPasswords passwords).1.value =
          some (.str "beta") := by
  have hmasks : Masks shownPasswords.value passwords.value :=
    ⟨⟨rfl, .inl (by decide), .inl (by decide), trivial⟩, trivial⟩
  have hkeys : PlainKeys shownPasswords.value := ⟨by decide, ⟨trivial, trivial, trivial⟩, trivial⟩
  have hedited := @keepMaskedValues_edited .ascii wholeFloats (fun _ => shownPasswords) printing_ascii passwords
    hmasks hkeys
  obtain ⟨hrefused, -, hmoved, -⟩ := hedited.2 swappedPasswords _ edited_swapped
  obtain ⟨v, hv, hgiven⟩ := hmoved _ (List.mem_cons_self ..)
  obtain rfl : v = .str "beta" := (Option.some.inj hv).symm
  exact ⟨printing_ascii, hmasks, hkeys, hedited.1.2.1, hrefused, hgiven⟩

/-- A key with the mark is refused, also where it was shown. -/
theorem marked_key_refused :
    let values := Values.single "<REDACTED:key>" "plain"
    Masks values.value values.value ∧
      (keepMaskedValues .ascii wholeFloats id values values).2.refused ≠ [] := by
  refine ⟨⟨⟨rfl, .inr rfl⟩, trivial⟩, ?_⟩
  decide

end Kubeast.Helm
