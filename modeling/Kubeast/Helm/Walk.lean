import Kubeast.Helm.MaskedValues

/-! A walk that refuses nothing: what it keeps, and where it takes it from. -/
namespace Kubeast.Helm

variable {tables : Text.CharTables} {floats : FloatFormats}

section Places

/-- The value at a place. -/
def valueAt : Place → Value → Option Value
  | [], v => some v
  | .key k :: place, v => (v.get k).bind (valueAt place)
  | .item (some i) :: place, v => (itemsOf v)[i]?.bind (valueAt place)
  | .item none :: _, _ => none

attribute [local simp] valueAt

/-- Nothing stands below what is not there. -/
theorem valueAt_null {p : Place} {s : String} : valueAt p .null ≠ some (.str s) := by
  match p with
  | [] => simp
  | .key k :: p => simp
  | .item (some i) :: p => simp [itemsOf]
  | .item none :: p => simp

attribute [local simp] holdsMaskItems holdsMaskMembers

theorem holdsMask_map {ms : List (String × Value)} :
    holdsMask (.map ms) = false ↔ ∀ m ∈ ms, hasMark m.1 = false ∧ holdsMask m.2 = false := by
  rw [holdsMask]
  induction ms with
  | nil => simp
  | cons m ms ih => simp [ih, and_assoc]

theorem holdsMask_list {items : List Value} :
    holdsMask (.list items) = false ↔ ∀ v ∈ items, holdsMask v = false := by
  rw [holdsMask]
  induction items with
  | nil => simp
  | cons v vs ih => simp [ih]

theorem holdsMask_get {v w : Value} {k : String} (hv : holdsMask v = false) (h : v.get k = some w) :
    holdsMask w = false := by
  obtain ⟨ms, rfl⟩ := Value.isMap_of_get h
  obtain ⟨m, hm, rfl⟩ := Option.map_eq_some_iff.mp h
  exact (holdsMask_map.mp hv m (List.mem_of_find?_eq_some hm)).2

theorem holdsMask_item {v w : Value} {i : ℕ} (hv : holdsMask v = false)
    (h : (itemsOf v)[i]? = some w) : holdsMask w = false := by
  cases v with
  | list items => exact holdsMask_list.mp hv w (List.mem_of_getElem? h)
  | _ => simp [itemsOf] at h

/-- A member of a map whose members are written anew. -/
theorem get_map (ms : List (String × Value)) (f : String × Value → Value) (k : String) :
    (Value.map (ms.map fun m => (m.1, f m))).get k = (ms.find? fun m => decide (m.1 = k)).map f := by
  rw [Value.get, List.find?_map, Option.map_map]
  rfl

end Places

section Ordered

theorem ordered_list {items : List Value} : Ordered (.list items) ↔ ∀ v ∈ items, Ordered v := by
  rw [Ordered]
  induction items with
  | nil => simp [OrderedItems]
  | cons v vs ih => rw [OrderedItems, ih, List.forall_mem_cons]

theorem ordered_map {ms : List (String × Value)} :
    Ordered (.map ms) ↔ (ms.map Prod.fst).Pairwise (· < ·) ∧ ∀ m ∈ ms, Ordered m.2 := by
  have hmembers : OrderedMembers ms ↔ ∀ m ∈ ms, Ordered m.2 := by
    induction ms with
    | nil => simp [OrderedMembers]
    | cons m ms ih => rw [OrderedMembers, ih, List.forall_mem_cons]
  rw [Ordered, hmembers]

theorem ordered_get {v : Value} (hv : Ordered v) (k : String) : Ordered ((v.get k).getD .null) := by
  cases h : v.get k with
  | none => trivial
  | some w =>
    obtain ⟨ms, rfl⟩ := Value.isMap_of_get h
    obtain ⟨m, hm, rfl⟩ := Option.map_eq_some_iff.mp h
    exact (ordered_map.mp hv).2 m (List.mem_of_find?_eq_some hm)

theorem ordered_item {v : Value} (hv : Ordered v) (i : Option ℕ) :
    Ordered ((i.bind ((itemsOf v)[·]?)).getD .null) := by
  cases h : i.bind ((itemsOf v)[·]?) with
  | none => trivial
  | some w =>
    obtain ⟨j, -, hj⟩ := Option.bind_eq_some_iff.mp h
    cases v with
    | list items => exact ordered_list.mp hv w (List.mem_of_getElem? hj)
    | _ => simp [itemsOf] at hj

end Ordered

section Clean

variable (tables floats) (place shownPlace : Place)

/-- The walk into a member of a map. -/
def memberWalk (shown real : Value) (m : String × Value) : Value × Notes :=
  walk tables floats (place ++ [Step.key m.1]) (shownPlace ++ [Step.key m.1]) m.2
    ((shown.get m.1).getD .null) ((real.get m.1).getD .null) (real.get m.1).isSome

/-- The walk into an item of a list. -/
def itemWalk (shown real : List Value) (source : ℕ → Option ℕ) (x : Value × ℕ) : Value × Notes :=
  let hit := (source x.2).filter (· < real.length)
  walk tables floats (place ++ [Step.item (some x.2)]) (shownPlace ++ [Step.item (source x.2)]) x.1
    ((hit.bind (shown[·]?)).getD .null) ((hit.bind (real[·]?)).getD .null) hit.isSome

variable {tables floats place shownPlace}

section Members

variable {shown real : Value} {ms : List (String × Value)}

attribute [local simp] walkMembers Notes.none Notes.append memberWalk

theorem walkMembers_out :
    (walkMembers tables floats place shownPlace shown real ms).1 =
      (ms.filter fun m => !hasMark m.1).map fun m =>
        (m.1, (memberWalk tables floats place shownPlace shown real m).1) := by
  induction ms with
  | nil => simp
  | cons m ms ih =>
    obtain ⟨key, v⟩ := m
    by_cases hkey : hasMark key = true
    · simp [hkey, ih]
    · simp [hkey, ih]

theorem walkMembers_kept :
    (walkMembers tables floats place shownPlace shown real ms).2.kept =
      (ms.filter fun m => !hasMark m.1).flatMap fun m =>
        (memberWalk tables floats place shownPlace shown real m).2.kept := by
  induction ms with
  | nil => simp
  | cons m ms ih =>
    obtain ⟨key, v⟩ := m
    by_cases hkey : hasMark key = true
    · simp [hkey, ih]
    · simp [hkey, ih]

theorem walkMembers_clean :
    (walkMembers tables floats place shownPlace shown real ms).2.refused = [] ↔
      ∀ m ∈ ms, hasMark m.1 = false ∧
        (memberWalk tables floats place shownPlace shown real m).2.refused = [] := by
  induction ms with
  | nil => simp
  | cons m ms ih =>
    obtain ⟨key, v⟩ := m
    rw [List.forall_mem_cons, ← ih]
    by_cases hkey : hasMark key = true
    · simp [hkey]
    · simp [hkey]

end Members

section Items

variable {shown real : List Value} {source : ℕ → Option ℕ} {i : ℕ} {items : List Value}

attribute [local simp] walkItems Notes.none Notes.append itemWalk

theorem walkItems_out :
    (walkItems tables floats place shownPlace shown real source i items).1 =
      (items.zipIdx i).map fun x =>
        (itemWalk tables floats place shownPlace shown real source x).1 := by
  induction items generalizing i with
  | nil => simp
  | cons item items ih => simp [ih]

theorem walkItems_kept :
    (walkItems tables floats place shownPlace shown real source i items).2.kept =
      (items.zipIdx i).flatMap fun x =>
        (itemWalk tables floats place shownPlace shown real source x).2.kept := by
  induction items generalizing i with
  | nil => simp
  | cons item items ih => simp [ih]

theorem walkItems_clean :
    (walkItems tables floats place shownPlace shown real source i items).2.refused = [] ↔
      ∀ x ∈ items.zipIdx i,
        (itemWalk tables floats place shownPlace shown real source x).2.refused = [] := by
  induction items generalizing i with
  | nil => simp
  | cons item items ih =>
    rw [List.zipIdx_cons, List.forall_mem_cons, ← ih]
    simp

end Items

end Clean

section Restored

def IsLeaf : Value → Prop
  | .list _ | .map _ => False
  | _ => True

/-- What is put back below a place, and where it comes from. -/
structure Restored (place shownPlace : Place) (sent shown real : Value) (hasReal : Bool) (out : Value)
    (kept : List (Place × Place)) : Prop where
  absent : real = .null → hasReal = false → kept = []
  unmasked : holdsMask real = false → holdsMask out = false
  taken : ∀ e ∈ kept, ∃ p q s v, e = (place ++ p, shownPlace ++ q) ∧ hasMark s = true ∧
    valueAt p sent = some (.str s) ∧ valueAt q shown = some (.str s) ∧
    valueAt q real = some v ∧ valueAt p out = some v
  noted : ∀ p s, valueAt p sent = some (.str s) → hasMark s = true →
    ∃ q, (place ++ p, shownPlace ++ q) ∈ kept
  sent_plain : ∀ p v, valueAt p sent = some v → holdsMask v = false → valueAt p out = some v
  leaf : ∀ p v, valueAt p out = some v → IsLeaf v →
    valueAt p sent = some v ∨ ∃ p₀ q r, (place ++ p₀, shownPlace ++ q) ∈ kept ∧ p = p₀ ++ r
  once : (kept.map Prod.snd).Nodup

variable {place shownPlace : Place} {shown real : Value} {hasReal : Bool}

theorem valueAt_leaf {p : Place} {v w : Value} (hleaf : IsLeaf v) (h : valueAt p v = some w) :
    p = [] ∧ w = v := by
  match p with
  | [] => exact ⟨rfl, (Option.some.inj h).symm⟩
  | .key k :: p => cases v <;> first | exact absurd hleaf id | cases h
  | .item (some i) :: p => cases v <;> first | exact absurd hleaf id | cases h
  | .item none :: p => cases h

/-- What is no placeholder, no map and no list is as sent. -/
theorem Restored.scalar {sent : Value} (hleaf : IsLeaf sent) (hmask : holdsMask sent = false) :
    Restored place shownPlace sent shown real hasReal sent [] where
  absent _ _ := rfl
  unmasked _ := hmask
  taken e he := absurd he List.not_mem_nil
  noted p s hp hs := by
    obtain ⟨-, rfl⟩ := valueAt_leaf hleaf hp
    rw [holdsMask, hs] at hmask
    cases hmask
  sent_plain p v hp _ := hp
  leaf p v hp _ := .inl hp
  once := List.nodup_nil

/-- A placeholder where it was shown. -/
theorem Restored.placeholder {s : String} (hs : hasMark s = true) :
    Restored place shownPlace (.str s) (.str s) real true real [(place, shownPlace)] where
  absent _ h := by cases h
  unmasked h := h
  taken e he := by
    obtain rfl := List.mem_singleton.mp he
    exact ⟨[], [], s, real, by simp, hs, rfl, rfl, rfl, rfl⟩
  noted p s' hp _ := by
    obtain ⟨rfl, -⟩ := valueAt_leaf (v := .str s) trivial hp
    exact ⟨[], by simp⟩
  sent_plain p v hp hv := by
    obtain ⟨-, rfl⟩ := valueAt_leaf (v := .str s) trivial hp
    rw [holdsMask, hs] at hv
    cases hv
  leaf p v _ _ := .inr ⟨[], [], p, by simp, rfl⟩
  once := by simp

section Members

variable {ms : List (String × Value)} {walked : String × Value → Value × Notes}

/-- What stands in a member of a map stands there when the members are written anew. -/
theorem valueAt_map {k : String} {p : Place} {v : Value} {f : String × Value → Value}
    (h : valueAt (Step.key k :: p) (.map (ms.map fun m => (m.1, f m))) = some v) :
    ∃ m ∈ ms, m.1 = k ∧ valueAt p (f m) = some v ∧ ∀ g : String × Value → Value,
      valueAt (Step.key k :: p) (.map (ms.map fun m => (m.1, g m))) = valueAt p (g m) := by
  simp only [valueAt, get_map] at h ⊢
  cases hfind : ms.find? fun m => decide (m.1 = k) with
  | none => simp [hfind] at h
  | some m =>
    have hk : m.1 = k := by simpa using List.find?_some hfind
    exact ⟨m, List.mem_of_find?_eq_some hfind, hk, by simpa [hfind] using h, by simp⟩

theorem map_snd_members (ms : List (String × Value)) : ms.map (fun m => (m.1, m.2)) = ms :=
  List.map_id' ms

theorem valueAt_member (hkeys : (ms.map Prod.fst).Nodup) {m : String × Value} (hm : m ∈ ms)
    (f : String × Value → Value) (p : Place) :
    valueAt (Step.key m.1 :: p) (.map (ms.map fun m => (m.1, f m))) = valueAt p (f m) := by
  have hmap : ((ms.map fun m => (m.1, f m)).map Prod.fst).Nodup := by
    rw [List.map_map]
    exact hkeys
  have hget := Value.get_of_mem hmap (List.mem_map_of_mem hm)
  simp only at hget
  rw [valueAt, hget, Option.bind_some]

/-- A map whose members are all put back. -/
theorem Restored.map (hkeys : (ms.map Prod.fst).Nodup)
    (hmarks : ∀ m ∈ ms, hasMark m.1 = false)
    (h : ∀ m ∈ ms, Restored (place ++ [Step.key m.1]) (shownPlace ++ [Step.key m.1]) m.2
      ((shown.get m.1).getD .null) ((real.get m.1).getD .null) (real.get m.1).isSome
      (walked m).1 (walked m).2.kept) :
    Restored place shownPlace (.map ms) shown real hasReal (.map (ms.map fun m => (m.1, (walked m).1)))
      (ms.flatMap fun m => (walked m).2.kept) where
  absent hreal _ := by
    apply List.flatMap_eq_nil_iff.mpr
    intro m hm
    exact (h m hm).absent (by simp [hreal]) (by simp [hreal])
  unmasked hreal := by
    rw [holdsMask_map]
    intro m' hm'
    obtain ⟨m, hm, rfl⟩ := List.mem_map.mp hm'
    refine ⟨hmarks m hm, (h m hm).unmasked ?_⟩
    cases hget : real.get m.1 with
    | none => rfl
    | some w => exact holdsMask_get hreal hget
  taken e he := by
    obtain ⟨m, hm, he⟩ := List.mem_flatMap.mp he
    obtain ⟨p, q, s, v, rfl, hs, hsent, hshown, hreal, hout⟩ := (h m hm).taken e he
    have hms := valueAt_member hkeys hm Prod.snd p
    rw [map_snd_members] at hms
    refine ⟨.key m.1 :: p, .key m.1 :: q, s, v, by simp, hs, hms.trans hsent, ?_, ?_,
      (valueAt_member hkeys hm _ p).trans hout⟩
    · cases hget : shown.get m.1 with
      | none => exact absurd (by simpa [hget] using hshown) valueAt_null
      | some w => simpa [valueAt, hget] using hshown
    · cases hget : real.get m.1 with
      | none => simp [(h m hm).absent (by simp [hget]) (by simp [hget])] at he
      | some w => simpa [valueAt, hget] using hreal
  noted p s hp hs := by
    match p with
    | [] => cases hp
    | .item (some i) :: p => cases hp
    | .item none :: p => cases hp
    | .key k :: p =>
      rw [← map_snd_members ms] at hp
      obtain ⟨m, hm, rfl, hsent, -⟩ := valueAt_map hp
      obtain ⟨q, hq⟩ := (h m hm).noted p s hsent hs
      exact ⟨.key m.1 :: q, List.mem_flatMap.mpr ⟨m, hm, by simpa using hq⟩⟩
  sent_plain p v hp hv := by
    match p with
    | [] =>
      obtain rfl := Option.some.inj hp
      have hout : ms.map (fun m => (m.1, (walked m).1)) = ms.map fun m => (m.1, m.2) := by
        apply List.map_congr_left
        intro m hm
        rw [Option.some.inj ((h m hm).sent_plain [] m.2 rfl (holdsMask_map.mp hv m hm).2)]
      rw [hout, map_snd_members, valueAt]
    | .item (some i) :: p => cases hp
    | .item none :: p => cases hp
    | .key k :: p =>
      rw [← map_snd_members ms] at hp
      obtain ⟨m, hm, rfl, hsent, hwritten⟩ := valueAt_map hp
      rw [hwritten]
      exact (h m hm).sent_plain p v hsent hv
  leaf p v hp hleaf := by
    match p with
    | [] =>
      obtain rfl := Option.some.inj hp
      exact absurd hleaf id
    | .item (some i) :: p => cases hp
    | .item none :: p => cases hp
    | .key k :: p =>
      obtain ⟨m, hm, rfl, hout, hwritten⟩ := valueAt_map hp
      rcases (h m hm).leaf p v hout hleaf with hsent | ⟨p₀, q, r, hkept, rfl⟩
      · left
        have hms := hwritten Prod.snd
        rw [map_snd_members] at hms
        exact hms.trans hsent
      · right
        exact ⟨.key m.1 :: p₀, .key m.1 :: q, r, List.mem_flatMap.mpr ⟨m, hm, by simpa using hkept⟩,
          rfl⟩
  once := by
    rw [List.map_flatMap, List.nodup_flatMap]
    refine ⟨fun m hm => (h m hm).once, ?_⟩
    have hpair : ms.Pairwise fun m m' => m.1 ≠ m'.1 := List.pairwise_map.mp hkeys
    refine hpair.imp_of_mem ?_
    intro m m' hm hm' hne place' hin hin'
    obtain ⟨e, he, rfl⟩ := List.mem_map.mp hin
    obtain ⟨e', he', heq⟩ := List.mem_map.mp hin'
    obtain ⟨p, q, s, v, rfl, -⟩ := (h m hm).taken e he
    obtain ⟨p', q', s', v', rfl, -⟩ := (h m' hm').taken e' he'
    simp only [List.append_assoc, List.append_cancel_left_eq, List.singleton_append,
      List.cons.injEq, Step.key.injEq] at heq
    exact hne heq.1.symm

end Members

section Items

variable {items : List Value} {walked : Value × ℕ → Value × Notes} {source : ℕ → Option ℕ}

/-- What stands in an item of a list stands there when the items are written anew. -/
theorem valueAt_zipIdx {i : ℕ} {p : Place} {v : Value} {f : Value × ℕ → Value}
    (h : valueAt (Step.item (some i) :: p) (.list (items.zipIdx.map f)) = some v) :
    ∃ x ∈ items.zipIdx, x.2 = i ∧ valueAt p (f x) = some v ∧ ∀ g : Value × ℕ → Value,
      valueAt (Step.item (some i) :: p) (.list (items.zipIdx.map g)) = valueAt p (g x) := by
  simp only [valueAt, itemsOf, List.getElem?_map] at h ⊢
  cases hitem : items.zipIdx[i]? with
  | none => simp [hitem] at h
  | some x =>
    have hindex : x.2 = i := by
      rw [List.getElem?_zipIdx, Option.map_eq_some_iff] at hitem
      obtain ⟨w, -, rfl⟩ := hitem
      simp
    exact ⟨x, List.mem_of_getElem? hitem, hindex, by simpa [hitem] using h, by simp⟩

theorem valueAt_item {x : Value × ℕ} (hx : x ∈ items.zipIdx) (f : Value × ℕ → Value) (p : Place) :
    valueAt (Step.item (some x.2) :: p) (.list (items.zipIdx.map f)) = valueAt p (f x) := by
  have hitem : items.zipIdx[x.2]? = some x := by
    rw [List.getElem?_zipIdx, List.mem_zipIdx_iff_getElem?.mp hx]
    simp
  simp [valueAt, itemsOf, hitem]

/-- The index a sent item takes its values from. -/
def hitOf (source : ℕ → Option ℕ) (real : Value) (i : ℕ) : Option ℕ :=
  (source i).filter (· < (itemsOf real).length)

/-- An item of the list that was shown, or null. -/
def itemAt (v : Value) (i : Option ℕ) : Value := (i.bind ((itemsOf v)[·]?)).getD .null

/-- A list whose items are all put back. -/
theorem Restored.list (hinj : ∀ i i' j, source i = some j → source i' = some j → i = i')
    (h : ∀ x ∈ items.zipIdx, Restored (place ++ [Step.item (some x.2)])
      (shownPlace ++ [Step.item (source x.2)]) x.1 (itemAt shown (hitOf source real x.2))
      (itemAt real (hitOf source real x.2)) (hitOf source real x.2).isSome
      (walked x).1 (walked x).2.kept) :
    Restored place shownPlace (.list items) shown real hasReal
      (.list (items.zipIdx.map fun x => (walked x).1))
      (items.zipIdx.flatMap fun x => (walked x).2.kept) := by
  have hsource : ∀ x ∈ items.zipIdx, ∀ e ∈ (walked x).2.kept,
      ∃ j, source x.2 = some j ∧ hitOf source real x.2 = some j := by
    intro x hx e he
    cases hhit : hitOf source real x.2 with
    | none =>
      have hnone := (h x hx).absent (by simp [itemAt, hhit]) (by simp [hhit])
      rw [hnone] at he
      cases he
    | some j => exact ⟨j, (Option.filter_eq_some_iff.mp hhit).1, rfl⟩
  have hfst : items = items.zipIdx.map Prod.fst := (List.zipIdx_map_fst 0 items).symm
  constructor
  case absent =>
    rintro rfl -
    apply List.flatMap_eq_nil_iff.mpr
    intro x hx
    have hnone : hitOf source .null x.2 = none := by
      simp [hitOf, itemsOf]
    exact (h x hx).absent (by simp [itemAt, hnone]) (by simp [hnone])
  case unmasked =>
    intro hreal
    rw [holdsMask_list]
    intro v hv
    obtain ⟨x, hx, rfl⟩ := List.mem_map.mp hv
    apply (h x hx).unmasked
    cases hitem : (hitOf source real x.2).bind ((itemsOf real)[·]?) with
    | none => simp [itemAt, hitem, holdsMask]
    | some w =>
      obtain ⟨j, -, hj⟩ := Option.bind_eq_some_iff.mp hitem
      simpa [itemAt, hitem] using holdsMask_item hreal hj
  case taken =>
    intro e he
    obtain ⟨x, hx, he⟩ := List.mem_flatMap.mp he
    obtain ⟨j, hj, hhit⟩ := hsource x hx e he
    obtain ⟨p, q, s, v, rfl, hs, hsent, hshown, hreal, hout⟩ := (h x hx).taken e he
    have hitems := valueAt_item hx Prod.fst p
    rw [← hfst] at hitems
    rw [itemAt, hhit, Option.bind_some] at hshown hreal
    refine ⟨.item (some x.2) :: p, .item (some j) :: q, s, v, by simp [hj], hs, hitems.trans hsent,
      ?_, ?_, (valueAt_item hx _ p).trans hout⟩
    · cases hitem : (itemsOf shown)[j]? with
      | none => exact absurd (by simpa [hitem] using hshown) valueAt_null
      | some w => simpa [valueAt, hitem] using hshown
    · have hlt : j < (itemsOf real).length := by
        simpa using (Option.filter_eq_some_iff.mp hhit).2
      simpa [valueAt, List.getElem?_eq_getElem hlt] using hreal
  case noted =>
    intro p s hp hs
    match p with
    | [] => cases hp
    | .key k :: p => cases hp
    | .item none :: p => cases hp
    | .item (some i) :: p =>
      rw [hfst] at hp
      obtain ⟨x, hx, rfl, hsent, -⟩ := valueAt_zipIdx hp
      obtain ⟨q, hq⟩ := (h x hx).noted p s hsent hs
      exact ⟨.item (source x.2) :: q, List.mem_flatMap.mpr ⟨x, hx, by simpa using hq⟩⟩
  case sent_plain =>
    intro p v hp hv
    match p with
    | [] =>
      obtain rfl := Option.some.inj hp
      have hout : items.zipIdx.map (fun x => (walked x).1) = items.zipIdx.map Prod.fst := by
        apply List.map_congr_left
        intro x hx
        have hplain := holdsMask_list.mp hv x.1 (List.fst_mem_of_mem_zipIdx hx)
        exact Option.some.inj ((h x hx).sent_plain [] x.1 rfl hplain)
      rw [hout, ← hfst, valueAt]
    | .key k :: p => cases hp
    | .item none :: p => cases hp
    | .item (some i) :: p =>
      rw [hfst] at hp
      obtain ⟨x, hx, rfl, hsent, hwritten⟩ := valueAt_zipIdx hp
      rw [hwritten]
      exact (h x hx).sent_plain p v hsent hv
  case leaf =>
    intro p v hp hleaf
    match p with
    | [] =>
      obtain rfl := Option.some.inj hp
      exact absurd hleaf id
    | .key k :: p => cases hp
    | .item none :: p => cases hp
    | .item (some i) :: p =>
      obtain ⟨x, hx, rfl, hout, hwritten⟩ := valueAt_zipIdx hp
      rcases (h x hx).leaf p v hout hleaf with hsent | ⟨p₀, q, r, hkept, rfl⟩
      · left
        have hitems := hwritten Prod.fst
        rw [← hfst] at hitems
        exact hitems.trans hsent
      · right
        exact ⟨.item (some x.2) :: p₀, .item (source x.2) :: q, r,
          List.mem_flatMap.mpr ⟨x, hx, by simpa using hkept⟩, rfl⟩
  case once =>
    rw [List.map_flatMap, List.nodup_flatMap]
    refine ⟨fun x hx => (h x hx).once, ?_⟩
    have hindex : items.zipIdx.Pairwise fun x x' => x.2 ≠ x'.2 := by
      apply List.pairwise_map.mp
      rw [List.zipIdx_map_snd]
      exact List.nodup_range'
    refine hindex.imp_of_mem ?_
    intro x x' hx hx' hne place' hin hin'
    obtain ⟨e, he, rfl⟩ := List.mem_map.mp hin
    obtain ⟨e', he', heq⟩ := List.mem_map.mp hin'
    obtain ⟨j, hj, -⟩ := hsource x hx e he
    obtain ⟨j', hj', -⟩ := hsource x' hx' e' he'
    obtain ⟨p, q, s, v, rfl, -⟩ := (h x hx).taken e he
    obtain ⟨p', q', s', v', rfl, -⟩ := (h x' hx').taken e' he'
    simp only [hj, hj', List.append_assoc, List.append_cancel_left_eq, List.singleton_append,
      List.cons.injEq, Step.item.injEq, Option.some.injEq] at heq
    exact hne (hinj _ _ j hj (heq.1 ▸ hj'))

end Items

/-- A walk that refuses nothing puts back what it keeps. -/
theorem walk_restored {sent : Value} (hordered : Ordered sent)
    (h : (walk tables floats place shownPlace sent shown real hasReal).2.refused = []) :
    Restored place shownPlace sent shown real hasReal
      (walk tables floats place shownPlace sent shown real hasReal).1
      (walk tables floats place shownPlace sent shown real hasReal).2.kept := by
  induction sent using Value.nested generalizing place shownPlace shown real hasReal with
  | null => exact .scalar trivial rfl
  | bool b => exact .scalar trivial rfl
  | num q => exact .scalar trivial rfl
  | str s =>
    rw [walk] at h ⊢
    split_ifs at h ⊢ with hs hshown
    · exact .scalar trivial (by rw [holdsMask, hs])
    · obtain ⟨rfl, rfl⟩ := hshown
      exact .placeholder (by simpa using hs)
  | list items ih =>
    rw [walk] at h ⊢
    simp only [walkItems_out, walkItems_kept]
    apply Restored.list fun i i' j => matchItems_injective
    intro x hx
    have hmem := List.fst_mem_of_mem_zipIdx hx
    exact ih x.1 hmem (ordered_list.mp hordered x.1 hmem) (walkItems_clean.mp h x hx)
  | map ms ih =>
    rw [walk] at h ⊢
    have hclean := walkMembers_clean.mp h
    have hall : (ms.filter fun m => !hasMark m.1) = ms := by
      rw [List.filter_eq_self]
      intro m hm
      simp [(hclean m hm).1]
    simp only [walkMembers_out, walkMembers_kept, hall]
    obtain ⟨hkeys, hvalues⟩ := ordered_map.mp hordered
    apply Restored.map (hkeys.imp String.ne_of_lt) fun m hm => (hclean m hm).1
    intro m hm
    exact ih m hm (hvalues m hm) (hclean m hm).2

end Restored

/-- The result of a walk is a Go map where what is sent and what is hidden are. -/
theorem walk_ordered {sent : Value} (place shownPlace : Place) (shown real : Value) (hasReal : Bool)
    (hsent : Ordered sent) (hreal : Ordered real) :
    Ordered (walk tables floats place shownPlace sent shown real hasReal).1 := by
  induction sent using Value.nested generalizing place shownPlace shown real hasReal with
  | null | bool _ | num _ => trivial
  | str s =>
    rw [walk]
    split_ifs
    · trivial
    · exact hreal
    · trivial
  | list items ih =>
    rw [walk]
    simp only [walkItems_out]
    rw [ordered_list]
    intro v hv
    obtain ⟨x, hx, rfl⟩ := List.mem_map.mp hv
    have hmem := List.fst_mem_of_mem_zipIdx hx
    exact ih x.1 hmem _ _ _ _ _ (ordered_list.mp hsent x.1 hmem) (ordered_item hreal _)
  | map ms ih =>
    rw [walk]
    simp only [walkMembers_out]
    obtain ⟨hkeys, hvalues⟩ := ordered_map.mp hsent
    rw [ordered_map, List.map_map]
    constructor
    · exact hkeys.sublist (List.filter_sublist.map Prod.fst)
    · intro m' hm'
      obtain ⟨m, hm, rfl⟩ := List.mem_map.mp hm'
      have hmem := (List.mem_filter.mp hm).1
      exact ih m hmem _ _ _ _ _ (hvalues m hmem) (ordered_get hreal _)

end Kubeast.Helm
