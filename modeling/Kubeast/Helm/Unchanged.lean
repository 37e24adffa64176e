import Kubeast.Helm.ListEdits

/-! What was not changed: it goes back to what it hides. -/
namespace Kubeast.Helm

section Masks

mutual

/-- What is shown of values: the same, but for texts with the mark in place of some. -/
def Masks : Value → Value → Prop
  | .str s, real => hasMark s = true ∨ real = .str s
  | .list items, .list reals => MasksItems items reals
  | .map ms, .map reals => MasksMembers ms reals
  | shown, real => real = shown

def MasksItems : List Value → List Value → Prop
  | [], [] => True
  | v :: vs, real :: reals => Masks v real ∧ MasksItems vs reals
  | _, _ => False

def MasksMembers : List (String × Value) → List (String × Value) → Prop
  | [], [] => True
  | (key, v) :: ms, (key', real) :: reals => (key = key' ∧ Masks v real) ∧ MasksMembers ms reals
  | _, _ => False

end

mutual

/-- No key has the mark. -/
def PlainKeys : Value → Prop
  | .list items => PlainKeysItems items
  | .map ms => PlainKeysMembers ms
  | _ => True

def PlainKeysItems : List Value → Prop
  | [] => True
  | v :: vs => PlainKeys v ∧ PlainKeysItems vs

def PlainKeysMembers : List (String × Value) → Prop
  | [] => True
  | (key, v) :: ms => hasMark key = false ∧ PlainKeys v ∧ PlainKeysMembers ms

end

attribute [local simp] PlainKeysItems PlainKeysMembers MasksItems MasksMembers Masks

theorem plainKeys_list {items : List Value} :
    PlainKeys (.list items) ↔ ∀ v ∈ items, PlainKeys v := by
  rw [PlainKeys]
  induction items with
  | nil => simp
  | cons v vs ih => simp [ih]

theorem plainKeys_map {ms : List (String × Value)} :
    PlainKeys (.map ms) ↔ ∀ m ∈ ms, hasMark m.1 = false ∧ PlainKeys m.2 := by
  rw [PlainKeys]
  induction ms with
  | nil => simp
  | cons m ms ih => simp [ih, and_assoc]

theorem masks_list {items : List Value} {real : Value} :
    Masks (.list items) real ↔ ∃ reals, real = .list reals ∧ List.Forall₂ Masks items reals := by
  have hitems : ∀ reals, MasksItems items reals ↔ List.Forall₂ Masks items reals := by
    induction items with
    | nil => intro reals; cases reals <;> simp
    | cons v vs ih => intro reals; cases reals <;> simp [ih]
  cases real <;> simp [hitems]

theorem masks_map {ms : List (String × Value)} {real : Value} :
    Masks (.map ms) real ↔ ∃ reals, real = .map reals ∧
      List.Forall₂ (fun m r => m.1 = r.1 ∧ Masks m.2 r.2) ms reals := by
  have hmembers : ∀ reals, MasksMembers ms reals ↔
      List.Forall₂ (fun m r => m.1 = r.1 ∧ Masks m.2 r.2) ms reals := by
    induction ms with
    | nil => intro reals; cases reals <;> simp
    | cons m ms ih => intro reals; cases reals <;> simp [ih]
  cases real <;> simp [hmembers]

/-- A list is fixed by one it stands beside, where each item is. -/
theorem eq_map_of_forall₂ {α β : Type*} {R : α → β → Prop} {f : α → β} {l : List α} {l' : List β}
    (h : List.Forall₂ R l l') (hf : ∀ a ∈ l, ∀ b ∈ l', R a b → b = f a) : l' = l.map f := by
  induction h with
  | nil => rfl
  | @cons a b l l' hab _ ih =>
    have hrest := ih fun a ha b hb =>
      hf a (List.mem_cons_of_mem _ ha) b (List.mem_cons_of_mem _ hb)
    rw [List.map_cons, ← hrest, ← hf a List.mem_cons_self b List.mem_cons_self hab]

/-- What is shown without the mark is what is there. -/
theorem masks_plain {v real : Value} (hplain : holdsMask v = false) (h : Masks v real) : real = v := by
  induction v using Value.nested generalizing real with
  | null => cases real <;> exact h
  | bool b => cases real <;> exact h
  | num q => cases real <;> exact h
  | str s =>
    rw [holdsMask] at hplain
    simpa [Masks, hplain] using h
  | list items ih =>
    obtain ⟨reals, rfl, hitems⟩ := masks_list.mp h
    have hplains := holdsMask_list.mp hplain
    have hreals : reals = items.map id :=
      eq_map_of_forall₂ hitems fun v hv real _ hreal => ih v hv (hplains v hv) hreal
    rw [hreals, List.map_id]
  | map ms ih =>
    obtain ⟨reals, rfl, hmembers⟩ := masks_map.mp h
    have hplains := holdsMask_map.mp hplain
    have hreals : reals = ms.map id := by
      apply eq_map_of_forall₂ hmembers
      rintro m hm ⟨key, real⟩ - ⟨hkey, hreal⟩
      exact Prod.ext hkey.symm (ih m hm (hplains m hm).2 hreal)
    rw [hreals, List.map_id]

/-- What a key of shown values hides. -/
theorem masks_get {v real w : Value} {k : String} (h : Masks v real) (hget : v.get k = some w) :
    ∃ r, real.get k = some r ∧ Masks w r := by
  obtain ⟨ms, rfl⟩ := Value.isMap_of_get hget
  obtain ⟨reals, rfl, hmembers⟩ := masks_map.mp h
  clear h
  induction hmembers with
  | nil => cases hget
  | @cons m real ms reals hm _ ih =>
    obtain ⟨key, v⟩ := m
    obtain ⟨key', r⟩ := real
    obtain ⟨rfl, hmask⟩ := hm
    rw [Value.get_cons] at hget ⊢
    by_cases hk : key = k
    · rw [if_pos hk] at hget ⊢
      cases hget
      exact ⟨r, rfl, hmask⟩
    · rw [if_neg hk] at hget ⊢
      exact ih hget

/-- What an item of shown values hides. -/
theorem masks_item {v real w : Value} {i : ℕ} (h : Masks v real) (hitem : (itemsOf v)[i]? = some w) :
    ∃ r, (itemsOf real)[i]? = some r ∧ Masks w r := by
  cases v with
  | list items =>
    obtain ⟨reals, rfl, hitems⟩ := masks_list.mp h
    simp only [itemsOf] at hitem ⊢
    clear h
    induction hitems generalizing i with
    | nil => cases hitem
    | @cons v real items reals hmask _ ih =>
      cases i with
      | zero =>
        cases hitem
        exact ⟨real, rfl, hmask⟩
      | succ i => exact ih hitem
  | _ => simp [itemsOf] at hitem

end Masks

variable {tables : Text.CharTables} {floats : FloatFormats}

section Places

attribute [local simp] maskPlaces maskPlacesItems maskPlacesMembers

theorem maskPlaces_map (place : Place) (ms : List (String × Value)) :
    maskPlaces place (.map ms) = ms.flatMap fun m => maskPlaces (place ++ [Step.key m.1]) m.2 := by
  rw [maskPlaces]
  induction ms with
  | nil => rfl
  | cons m ms ih => simp [ih]

theorem maskPlaces_list (place : Place) (items : List Value) :
    maskPlaces place (.list items) =
      items.zipIdx.flatMap fun x => maskPlaces (place ++ [Step.item (some x.2)]) x.1 := by
  rw [maskPlaces]
  generalize 0 = i
  induction items generalizing i with
  | nil => rfl
  | cons v vs ih => simp [ih]

/-- Where placeholders stand does not depend on where the value stands. -/
theorem maskPlaces_eq (place : Place) (v : Value) :
    maskPlaces place v = (maskPlaces [] v).map (place ++ ·) := by
  induction v using Value.nested generalizing place with
  | null | bool _ | num _ => rfl
  | str s =>
    rw [maskPlaces, maskPlaces]
    split <;> simp
  | list items ih =>
    rw [maskPlaces_list, maskPlaces_list, List.map_flatMap]
    apply List.flatMap_congr
    intro x hx
    have hmem := List.fst_mem_of_mem_zipIdx hx
    rw [ih x.1 hmem, ih x.1 hmem ([] ++ _), List.map_map]
    simp
  | map ms ih =>
    rw [maskPlaces_map, maskPlaces_map, List.map_flatMap]
    apply List.flatMap_congr
    intro m hm
    rw [ih m hm, ih m hm ([] ++ _), List.map_map]
    simp

theorem maskPlaces_plain {v : Value} (h : holdsMask v = false) (place : Place) :
    maskPlaces place v = [] := by
  induction v using Value.nested generalizing place with
  | null | bool _ | num _ => rfl
  | str s =>
    rw [holdsMask] at h
    simp [maskPlaces, h]
  | list items ih =>
    rw [maskPlaces_list, List.flatMap_eq_nil_iff]
    intro x hx
    have hmem := List.fst_mem_of_mem_zipIdx hx
    exact ih x.1 hmem (holdsMask_list.mp h x.1 hmem) _
  | map ms ih =>
    rw [maskPlaces_map, List.flatMap_eq_nil_iff]
    intro m hm
    exact ih m hm (holdsMask_map.mp h m hm).2 _

/-- The placeholders of a value that moved whole. -/
def moved (place shownPlace : Place) (v : Value) : List (Place × Place) :=
  (maskPlaces [] v).map fun p => (place ++ p, shownPlace ++ p)

theorem moved_map (place shownPlace : Place) (ms : List (String × Value)) :
    moved place shownPlace (.map ms) =
      ms.flatMap fun m => moved (place ++ [Step.key m.1]) (shownPlace ++ [Step.key m.1]) m.2 := by
  rw [moved, maskPlaces_map, List.map_flatMap]
  apply List.flatMap_congr
  intro m _
  rw [maskPlaces_eq, List.map_map, moved]
  simp

theorem moved_list (place shownPlace : Place) (items : List Value) :
    moved place shownPlace (.list items) =
      items.zipIdx.flatMap fun x =>
        moved (place ++ [Step.item (some x.2)]) (shownPlace ++ [Step.item (some x.2)]) x.1 := by
  rw [moved, maskPlaces_list, List.map_flatMap]
  apply List.flatMap_congr
  intro x _
  rw [maskPlaces_eq, List.map_map, moved]
  simp

theorem moved_plain {v : Value} (h : holdsMask v = false) (place shownPlace : Place) :
    moved place shownPlace v = [] := by
  rw [moved, maskPlaces_plain h, List.map_nil]

end Places

section Gives

/-- A walk that refuses nothing, with what it puts back and what it keeps. -/
structure Gives (walked : Value × Notes) (out : Value) (kept : List (Place × Place)) : Prop where
  out : walked.1 = out
  refused : walked.2.refused = []
  kept : walked.2.kept = kept

variable {place shownPlace : Place} {shown real : Value} {hasReal : Bool}

attribute [local simp] walk

theorem Gives.map (hasReal : Bool) {ms : List (String × Value)} {f : String × Value → Value}
    {kept : String × Value → List (Place × Place)} (hkeys : ∀ m ∈ ms, hasMark m.1 = false)
    (h : ∀ m ∈ ms, Gives (memberWalk tables floats place shownPlace shown real m) (f m) (kept m)) :
    Gives (walk tables floats place shownPlace (.map ms) shown real hasReal)
      (.map (ms.map fun m => (m.1, f m))) (ms.flatMap kept) := by
  have hall : (ms.filter fun m => !hasMark m.1) = ms := by
    rw [List.filter_eq_self]
    intro m hm
    simp [hkeys m hm]
  rw [walk]
  constructor
  · simp only [walkMembers_out, hall, Value.map.injEq]
    apply List.map_congr_left
    intro m hm
    rw [(h m hm).out]
  · exact walkMembers_clean.mpr fun m hm => ⟨hkeys m hm, (h m hm).refused⟩
  · simp only [walkMembers_kept, hall]
    exact List.flatMap_congr fun m hm => (h m hm).kept

theorem Gives.list (hasReal : Bool) {items : List Value} {f : Value × ℕ → Value}
    {kept : Value × ℕ → List (Place × Place)}
    (h : ∀ x ∈ items.zipIdx, Gives (itemWalk tables floats place shownPlace (itemsOf shown)
      (itemsOf real) (matchItems tables floats items (itemsOf shown)) x) (f x) (kept x)) :
    Gives (walk tables floats place shownPlace (.list items) shown real hasReal)
      (.list (items.zipIdx.map f)) (items.zipIdx.flatMap kept) := by
  rw [walk]
  constructor
  · simp only [walkItems_out, Value.list.injEq]
    exact List.map_congr_left fun x hx => (h x hx).out
  · exact walkItems_clean.mpr fun x hx => (h x hx).refused
  · simp only [walkItems_kept]
    exact List.flatMap_congr fun x hx => (h x hx).kept

/-- What is sent without the mark is as sent. -/
theorem walk_plain {sent : Value} (h : holdsMask sent = false) :
    Gives (walk tables floats place shownPlace sent shown real hasReal) sent [] := by
  induction sent using Value.nested generalizing place shownPlace shown real hasReal with
  | null | bool _ | num _ => exact ⟨rfl, rfl, rfl⟩
  | str s =>
    rw [holdsMask] at h
    rw [walk, if_pos h]
    exact ⟨rfl, rfl, rfl⟩
  | list items ih =>
    have hgives : ∀ x ∈ items.zipIdx, Gives (itemWalk tables floats place shownPlace (itemsOf shown)
        (itemsOf real) (matchItems tables floats items (itemsOf shown)) x) x.1 [] := by
      intro x hx
      have hmem := List.fst_mem_of_mem_zipIdx hx
      exact ih x.1 hmem (holdsMask_list.mp h x.1 hmem)
    have hlist := Gives.list hasReal hgives
    rwa [List.zipIdx_map_fst, List.flatMap_eq_nil_iff.mpr fun _ _ => rfl] at hlist
  | map ms ih =>
    have hplain := holdsMask_map.mp h
    have hgives : ∀ m ∈ ms, Gives (memberWalk tables floats place shownPlace shown real m) m.2 [] :=
      fun m hm => ih m hm (hplain m hm).2
    have hmap := Gives.map hasReal (fun m hm => (hplain m hm).1) hgives
    rwa [map_snd_members, List.flatMap_eq_nil_iff.mpr fun _ _ => rfl] at hmap

/-- The walk into an item that was shown. -/
theorem itemWalk_some {shown real : List Value} {source : ℕ → Option ℕ} {x : Value × ℕ} {j : ℕ}
    {w r : Value} (hsource : source x.2 = some j) (hw : shown[j]? = some w) (hr : real[j]? = some r) :
    itemWalk tables floats place shownPlace shown real source x =
      walk tables floats (place ++ [Step.item (some x.2)]) (shownPlace ++ [Step.item (some j)]) x.1 w r
        true := by
  have hlt := (List.getElem?_eq_some_iff.mp hr).1
  have hhit : (source x.2).filter (· < real.length) = some j := by
    rw [hsource, Option.filter_some, if_pos (by simpa using hlt)]
  rw [itemWalk, hhit, hsource, Option.bind_some, Option.bind_some, hw, hr]
  rfl

/-- Nothing moves in a list that is sent as it was shown. -/
theorem listEdit_self (items : List Value) : ListEdit tables floats items items fun i =>
    if items[i]?.any holdsMask then some i else none where
  same i j h := by
    cases hitem : items[i]? with
    | none => simp [hitem] at h
    | some item =>
      by_cases hmask : holdsMask item = true
      · obtain rfl : i = j := by simpa [hitem, hmask] using h
        exact ⟨item, rfl, hitem, hmask⟩
      · simp [hitem, hmask] at h
  kept i item hitem hmask := ⟨i, by simp [hitem, hmask]⟩
  kind := by
    refine .inr ⟨?_, fun j item hitem hmask => ⟨j, by simp [hitem, hmask]⟩⟩
    intro i i' j j' hlt hj hj'
    obtain ⟨-, rfl⟩ := Option.ite_some_none_eq_some.mp hj
    obtain ⟨-, rfl⟩ := Option.ite_some_none_eq_some.mp hj'
    exact hlt

/-- What is sent as it was shown goes back to what it hides. -/
theorem walk_self (hprinting : Printing tables floats) {v : Value} (hv : Ordered v)
    (hreal : Ordered real) (hkeys : PlainKeys v) (hmasks : Masks v real) :
    Gives (walk tables floats place shownPlace v v real true) real (moved place shownPlace v) := by
  induction v using Value.nested generalizing place shownPlace real with
  | null => exact ⟨(masks_plain rfl hmasks).symm, rfl, rfl⟩
  | bool b => exact ⟨(masks_plain rfl hmasks).symm, rfl, rfl⟩
  | num q => exact ⟨(masks_plain rfl hmasks).symm, rfl, rfl⟩
  | str s =>
    by_cases hs : hasMark s = false
    · have hplain : holdsMask (.str s) = false := by rw [holdsMask, hs]
      rw [moved_plain hplain, masks_plain hplain hmasks]
      exact walk_plain hplain
    · rw [walk, if_neg hs, if_pos ⟨rfl, rfl⟩]
      refine ⟨rfl, rfl, ?_⟩
      simp [moved, maskPlaces, hs]
  | list items ih =>
    obtain ⟨reals, rfl, hitems⟩ := masks_list.mp hmasks
    have hgives : ∀ x ∈ items.zipIdx, Gives (itemWalk tables floats place shownPlace
        (itemsOf (.list items)) (itemsOf (.list reals))
        (matchItems tables floats items (itemsOf (.list items))) x) (reals[x.2]?.getD .null)
        (moved (place ++ [Step.item (some x.2)]) (shownPlace ++ [Step.item (some x.2)]) x.1) := by
      intro x hx
      have hmem := List.fst_mem_of_mem_zipIdx hx
      have hitem : items[x.2]? = some x.1 := List.mem_zipIdx_iff_getElem?.mp hx
      obtain ⟨r, hr, hmask⟩ := masks_item hmasks hitem
      rw [itemsOf] at hr
      rw [hr, Option.getD_some]
      by_cases hholds : holdsMask x.1 = true
      · have hsource : matchItems tables floats items items x.2 = some x.2 := by
          rw [(listEdit_self items).matchItems hprinting]
          simp [hitem, hholds]
        have hr' : Ordered r := ordered_list.mp hreal r (List.mem_of_getElem? hr)
        rw [itemsOf, itemsOf, itemWalk_some hsource hitem hr]
        exact ih x.1 hmem (ordered_list.mp hv x.1 hmem) hr' (plainKeys_list.mp hkeys x.1 hmem) hmask
      · have hplain : holdsMask x.1 = false := by simpa using hholds
        rw [moved_plain hplain, masks_plain hplain hmask]
        exact walk_plain hplain
    have hlist := Gives.list true hgives
    rw [← moved_list] at hlist
    have hout : items.zipIdx.map (fun x => reals[x.2]?.getD .null) = reals := by
      have hlen := hitems.length_eq
      apply List.ext_getElem?
      intro i
      rw [List.getElem?_map, List.getElem?_zipIdx]
      by_cases hlt : i < reals.length
      · simp [List.getElem?_eq_getElem hlt, List.getElem?_eq_getElem (hlen ▸ hlt)]
      · rw [List.getElem?_eq_none (by omega), List.getElem?_eq_none (by omega)]
        rfl
    rwa [hout] at hlist
  | map ms ih =>
    obtain ⟨reals, rfl, hmembers⟩ := masks_map.mp hmasks
    obtain ⟨hnames, hvalues⟩ := ordered_map.mp hv
    have hplain := plainKeys_map.mp hkeys
    have hgives : ∀ m ∈ ms, Gives
        (memberWalk tables floats place shownPlace (.map ms) (.map reals) m)
        (((Value.map reals).get m.1).getD .null)
        (moved (place ++ [Step.key m.1]) (shownPlace ++ [Step.key m.1]) m.2) := by
      intro m hm
      have hget := Value.get_of_mem (hnames.imp String.ne_of_lt) hm
      obtain ⟨r, hr, hmask⟩ := masks_get hmasks hget
      have hr' := ordered_get hreal m.1
      simp only [memberWalk, hget, hr, Option.getD_some, Option.isSome_some] at hr' ⊢
      exact ih m hm (hvalues m hm) hr' (hplain m hm).2 hmask
    have hmap := Gives.map true (fun m hm => (hplain m hm).1) hgives
    rw [← moved_map] at hmap
    have hout : reals = ms.map fun m => (m.1, ((Value.map reals).get m.1).getD .null) := by
      apply eq_map_of_forall₂ hmembers
      rintro m - r hr ⟨hkey, -⟩
      have hget := Value.get_of_mem ((ordered_map.mp hreal).1.imp String.ne_of_lt) hr
      rw [hkey, hget]
      rfl
    rwa [← hout] at hmap

end Gives

end Kubeast.Helm
