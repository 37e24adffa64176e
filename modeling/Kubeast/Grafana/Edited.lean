import Kubeast.Grafana.ApplyDiff

/-! Writing an edit into a v2 file changes the edit alone. -/
namespace Kubeast.Grafana
open Json Data Keyed

/-- One step down from a container. -/
inductive Step
  | key (k : String)
  | item (i : ℕ)

def member : Data → Step → Option Data
  | .obj ms, .key k => ms.lookup k
  | .arr items, .item i => items[i]?
  | _, _ => none

/-- What stands at a path. -/
def reach : List Step → Data → Option Data
  | [], d => some d
  | s :: p, d => (member d s).bind (reach p)

def isContainer : Data → Bool
  | .obj _ | .arr _ => true
  | _ => false

/-- All maps, or all lists of one length. -/
def Alike : Data → Data → Data → Prop
  | .obj _, .obj _, .obj _ => True
  | .arr rl, .arr al, .arr bl => rl.length = al.length ∧ al.length = bl.length
  | _, _, _ => False

/-- The three are alike at every container of the path, the last one too. -/
inductive Along : List Step → Data → Data → Data → Prop
  | here {r a b : Data} (h : Alike r a b) : Along [] r a b
  | down {r a b r' a' b' : Data} {s : Step} {p : List Step} (h : Alike r a b) (hr : member r s = some r')
      (ha : member a s = some a') (hb : member b s = some b') (hp : Along p r' a' b') : Along (s :: p) r a b

section Members
variable {r a b r' a' b' : Data} {s : Step}

theorem Alike.cases (h : Alike r a b) :
    (∃ rm am bm, r = .obj rm ∧ a = .obj am ∧ b = .obj bm) ∨
      ∃ rl al bl, r = .arr rl ∧ a = .arr al ∧ b = .arr bl ∧ rl.length = al.length ∧ al.length = bl.length := by
  unfold Alike at h
  split at h
  · exact .inl ⟨_, _, _, rfl, rfl, rfl⟩
  · exact .inr ⟨_, _, _, rfl, rfl, rfl, h⟩
  · exact h.elim

theorem distinct_member (h : a.Distinct) (hm : member a s = some a') : a'.Distinct := by
  unfold member at hm
  split at hm
  · exact distinctMembers_iff.mp h.2 _ (mem_of_lookup hm)
  · exact distinctItems_iff.mp h _ (List.mem_of_getElem? hm)
  · cases hm

/-- Alike containers that are the same have the same members. -/
theorem Alike.same_members (h : Alike r a b) (ha : a.Distinct) (hb : b.Distinct) (hab : Same a b)
    (s : Step) : (member a s).map sorted = (member b s).map sorted := by
  obtain ⟨rm, am, bm, rfl, rfl, rfl⟩ | ⟨rl, al, bl, rfl, rfl, rfl, -, -⟩ := h.cases
  · cases s with
    | key k => exact (same_obj ha.1 hb.1).mp hab k
    | item i => rfl
  · cases s with
    | key k => rfl
    | item i =>
      have hitems := congrArg (·[i]?) (same_arr.mp hab)
      simpa [member] using hitems

theorem lookup_applyDiff {rm am bm : Members} (h : deepEqual (.obj am) (.obj bm) = false) (k : String) :
    member (applyDiff (.obj rm) (.obj am) (.obj bm)) (.key k) =
      if k ∈ unionKeys am bm then keyDiff am bm k (rm.lookup k) else rm.lookup k := by
  rw [applyDiff_obj h]
  exact lookup_foldl (fun _ _ => lookup_keyStep_self) (fun _ _ _ => lookup_keyStep_ne)
    (nodup_unionKeys am bm) rm k

theorem getElem?_applyDiff {rl al bl : List Data} (h : deepEqual (.arr al) (.arr bl) = false)
    (hra : rl.length = al.length) (hab : al.length = bl.length) {i : ℕ} (hr : rl[i]? = some r)
    (ha : al[i]? = some a) (hb : bl[i]? = some b) :
    member (applyDiff (.arr rl) (.arr al) (.arr bl)) (.item i) = some (applyDiff r a b) := by
  have hzip : (rl.zip (al.zip bl))[i]? = some (r, a, b) :=
    List.getElem?_zip_eq_some.mpr ⟨hr, List.getElem?_zip_eq_some.mpr ⟨ha, hb⟩⟩
  rw [applyDiff_arr h hra hab, member, List.getElem?_map, hzip]
  rfl

/-- What becomes of one member of containers that differ. -/
theorem Alike.member_applyDiff (h : Alike r a b) (hab : deepEqual a b = false) :
    member (applyDiff r a b) s =
      match member a s, member b s with
      | some a', some b' =>
        if deepEqual a' b' then member r s else some (applyDiff ((member r s).getD .null) a' b')
      | some _, none => none
      | none, some b' => some b'
      | none, none => member r s := by
  obtain ⟨rm, am, bm, rfl, rfl, rfl⟩ | ⟨rl, al, bl, rfl, rfl, rfl, hra, hlen⟩ := h.cases
  · cases s with
    | key k =>
      rw [lookup_applyDiff hab]
      simp only [mem_unionKeys, member, keyDiff]
      cases am.lookup k <;> cases bm.lookup k <;> simp
    | item i => rw [applyDiff_obj hab]; rfl
  · cases s with
    | key k => rw [applyDiff_arr hab hra hlen]; rfl
    | item i =>
      by_cases hi : i < al.length
      · have hr : rl[i]? = some rl[i] := List.getElem?_eq_getElem (by omega)
        have ha : al[i]? = some al[i] := List.getElem?_eq_getElem hi
        have hb : bl[i]? = some bl[i] := List.getElem?_eq_getElem (by omega)
        rw [getElem?_applyDiff hab hra hlen hr ha hb]
        simp only [member, hr, ha, hb, Option.getD_some]
        split_ifs with heq
        · rw [applyDiff_of_same heq]
        · rfl
      · rw [applyDiff_arr hab hra hlen]
        simp [member, show al.length ≤ i by omega, show bl.length ≤ i by omega, show rl.length ≤ i by omega]

theorem Alike.member_down (h : Alike r a b) (ha : a.Distinct) (hb : b.Distinct)
    (hr' : member r s = some r') (ha' : member a s = some a') (hb' : member b s = some b') :
    member (applyDiff r a b) s = some (applyDiff r' a' b') := by
  cases hab : deepEqual a b
  · rw [h.member_applyDiff hab, hr', ha', hb']
    dsimp only
    split_ifs with heq
    · rw [applyDiff_of_same heq]
    · rfl
  · have hsame := h.same_members ha hb (deepEqual_iff.mp hab) s
    rw [ha', hb'] at hsame
    rw [applyDiff_of_same hab, hr', applyDiff_of_same (deepEqual_iff.mpr (Option.some.inj hsame))]

theorem Alike.member_of_same (h : Alike r a b)
    (hs : (member a s).map sorted = (member b s).map sorted) :
    member (applyDiff r a b) s = member r s := by
  cases hab : deepEqual a b
  · rw [h.member_applyDiff hab]
    generalize member a s = x at hs ⊢
    generalize member b s = y at hs ⊢
    match x, y with
    | none, none => rfl
    | some _, some _ => exact if_pos (deepEqual_iff.mpr (Option.some.inj hs))
  · rw [applyDiff_of_same hab]

theorem applyDiff_value (hab : deepEqual a b = false) (hb : isContainer b = false) :
    applyDiff r a b = b := by
  have hobj : ∀ rm am bm, r = .obj rm → a = .obj am → b = .obj bm → False := by
    rintro _ _ _ - - rfl
    cases hb
  have harr : ∀ rl al bl, r = .arr rl → a = .arr al → b = .arr bl → False := by
    rintro _ _ _ - - rfl
    cases hb
  rw [applyDiff.eq_3 r a b hobj harr, hab, if_neg Bool.false_ne_true, deepCopy_eq]

theorem Alike.member_of_ne (h : Alike r a b) (ha : a.Distinct) (hb : b.Distinct)
    (hne : (member a s).map sorted ≠ (member b s).map sorted)
    (hvalue : ∀ v ∈ member b s, isContainer v = false) :
    member (applyDiff r a b) s = member b s := by
  cases hab : deepEqual a b
  · rw [h.member_applyDiff hab]
    generalize member a s = x at hne ⊢
    generalize member b s = y at hne hvalue ⊢
    match x, y with
    | none, none => exact absurd rfl hne
    | none, some _ => rfl
    | some _, none => rfl
    | some a', some b' =>
      have hdiff : deepEqual a' b' = false := decide_eq_false fun heq => hne (congrArg some heq)
      dsimp only
      rw [hdiff, if_neg Bool.false_ne_true, applyDiff_value hdiff (hvalue b' rfl)]
  · exact absurd (h.same_members ha hb (deepEqual_iff.mp hab) s) hne

end Members

section Path
variable {r a b : Data} {p : List Step}

theorem reach_single (s : Step) (d : Data) : reach [s] d = member d s := by
  rw [reach]
  exact Option.bind_fun_some (member d s)

/-- Down to the last container, what is patched there is what a patch of the three containers gives. -/
theorem Along.applyDiff_reach (h : Along p r a b) (ha : a.Distinct) (hb : b.Distinct) (s : Step) :
    ∃ r' a' b', Alike r' a' b' ∧ a'.Distinct ∧ b'.Distinct ∧
      (reach (p ++ [s]) r = member r' s ∧ reach (p ++ [s]) a = member a' s ∧
        reach (p ++ [s]) b = member b' s) ∧
      reach (p ++ [s]) (applyDiff r a b) = member (applyDiff r' a' b') s := by
  induction h with
  | here h => exact ⟨_, _, _, h, ha, hb, by simp only [List.nil_append, reach_single, and_self]⟩
  | @down r a b _ _ _ t p h hr' ha' hb' _ ih =>
    obtain ⟨r', a', b', hp, hda, hdb, ⟨hrp, hap, hbp⟩, hpatch⟩ := ih (distinct_member ha ha') (distinct_member hb hb')
    refine ⟨r', a', b', hp, hda, hdb, ⟨?_, ?_, ?_⟩, ?_⟩
    · rw [List.cons_append, reach, hr', Option.bind_some, hrp]
    · rw [List.cons_append, reach, ha', Option.bind_some, hap]
    · rw [List.cons_append, reach, hb', Option.bind_some, hbp]
    · rw [List.cons_append, reach, h.member_down ha hb hr' ha' hb', Option.bind_some, hpatch]

end Path

section Whole
variable {a b : Data}

theorem nodup_foldl_keyStep (am bm : Members) (keys : List String) {rm : Members}
    (h : (rm.map Prod.fst).Nodup) : ((keys.foldl (keyStep am bm) rm).map Prod.fst).Nodup := by
  induction keys generalizing rm with
  | nil => exact h
  | cons k keys ih => exact ih (nodup_keyStep h)

/-- Where the three are not alike, `b` is written whole. -/
theorem applyDiff_of_not_alike {r : Data} (hab : deepEqual a b = false) (h : ¬Alike r a b) :
    applyDiff r a b = b := by
  rw [applyDiff.eq_def, hab, if_neg Bool.false_ne_true]
  split
  · exact absurd trivial h
  · exact (if_neg h).trans (deepCopy_eq _)
  · exact deepCopy_eq b

theorem same_of_not_alike (h : ¬Alike a a b) : Same (applyDiff a a b) b := by
  cases hab : deepEqual a b
  · rw [applyDiff_of_not_alike hab h]
    rfl
  · rw [applyDiff_of_same hab]
    exact deepEqual_iff.mp hab

theorem same_of_members (h : Alike a a b) (ha : a.Distinct) (hb : b.Distinct)
    (ih : ∀ s a' b', member a s = some a' → member b s = some b' → Same (applyDiff a' a' b') b') :
    Same (applyDiff a a b) b := by
  cases hab : deepEqual a b
  · obtain ⟨_, am, bm, -, rfl, rfl⟩ | ⟨_, al, bl, -, rfl, rfl, -, hlen⟩ := h.cases
    · have hkeys := nodup_foldl_keyStep am bm (unionKeys am bm) ha.1
      rw [applyDiff_obj hab, same_obj hkeys hb.1]
      intro k
      have hmem := h.member_applyDiff hab (s := .key k)
      have ih := ih (.key k)
      rw [applyDiff_obj hab] at hmem
      simp only [member] at hmem ih
      rw [hmem]
      cases hak : am.lookup k with
      | none => cases bm.lookup k <;> rfl
      | some a' =>
        cases hbk : bm.lookup k with
        | none => rfl
        | some b' =>
          dsimp only
          split_ifs with heq
          · exact congrArg some (deepEqual_iff.mp heq)
          · exact congrArg some (ih a' b' hak hbk)
    · rw [applyDiff_arr hab rfl hlen, same_arr]
      refine List.ext_getElem (by simp [hlen]) fun i _ hi => ?_
      have hib : i < bl.length := by simpa using hi
      simp only [List.getElem_map, List.getElem_zip]
      exact ih (.item i) _ _ (List.getElem?_eq_getElem (by omega)) (List.getElem?_eq_getElem hib)
  · rw [applyDiff_of_same hab]
    exact deepEqual_iff.mp hab

/-- What came from `a` becomes `b`. -/
theorem same_applyDiff (ha : a.Distinct) (hb : b.Distinct) : Same (applyDiff a a b) b := by
  by_cases h : Alike a a b
  · induction a using nested generalizing b with
    | null | bool _ | num _ | str _ => exact h.elim
    | arr al ih =>
      refine same_of_members h ha hb fun s a' b' ha' hb' => ?_
      have hmem : a' ∈ al := by
        cases s with
        | key k => cases ha'
        | item i => exact List.mem_of_getElem? ha'
      by_cases h' : Alike a' a' b'
      · exact ih a' hmem (distinct_member ha ha') (distinct_member hb hb') h'
      · exact same_of_not_alike h'
    | obj am ih =>
      refine same_of_members h ha hb fun s a' b' ha' hb' => ?_
      obtain ⟨k, hmem⟩ : ∃ k, (k, a') ∈ am := by
        cases s with
        | key k => exact ⟨k, mem_of_lookup ha'⟩
        | item i => cases ha'
      by_cases h' : Alike a' a' b'
      · exact ih _ hmem (distinct_member ha ha') (distinct_member hb hb') h'
      · exact same_of_not_alike h'
  · exact same_of_not_alike h

/-- An edit changes what it is about and nothing else. The member of a path's last container is what
the path with one more step reaches. -/
theorem applyDiff_edit {r a b : Data} (ha : a.Distinct) (hb : b.Distinct) :
    applyDiff r a a = r ∧ Same (applyDiff a a b) b ∧
      ∀ p s, Along p r a b →
        ((reach (p ++ [s]) a).map sorted = (reach (p ++ [s]) b).map sorted →
          reach (p ++ [s]) (applyDiff r a b) = reach (p ++ [s]) r) ∧
        ((reach (p ++ [s]) a).map sorted ≠ (reach (p ++ [s]) b).map sorted →
          (∀ v ∈ reach (p ++ [s]) b, isContainer v = false) →
          reach (p ++ [s]) (applyDiff r a b) = reach (p ++ [s]) b) := by
  refine ⟨applyDiff_of_same (deepEqual_iff.mpr rfl), same_applyDiff ha hb, fun p s h => ?_⟩
  obtain ⟨r', a', b', h', ha', hb', ⟨hrp, hap, hbp⟩, hpatch⟩ := h.applyDiff_reach ha hb s
  rw [hrp, hap, hbp, hpatch]
  exact ⟨h'.member_of_same, h'.member_of_ne ha' hb'⟩

def conversion (title : String) : Data :=
  .obj [("spec", .obj [("title", .str title), ("tags", .arr [.str "prod"])])]

def fileSpec : Data :=
  .obj [("spec", .obj [("title", .str "old"), ("tags", .arr []), ("editable", .bool true)])]

theorem applyDiff_edit_title :
    reach [.key "spec", .key "title"] (applyDiff fileSpec (conversion "old") (conversion "new")) =
        some (.str "new") ∧
      reach [.key "spec", .key "editable"] (applyDiff fileSpec (conversion "old") (conversion "new")) =
        some (.bool true) := by
  have hdistinct (t : String) : (conversion t).Distinct := by
    simp [conversion, Distinct, DistinctMembers, DistinctItems]
  have h := (applyDiff_edit (r := fileSpec) (hdistinct "old") (hdistinct "new")).2.2 [.key "spec"]
  have along : Along [.key "spec"] fileSpec (conversion "old") (conversion "new") :=
    .down trivial rfl rfl rfl (.here trivial)
  constructor
  · refine (h (.key "title") along).2 ?_ ?_
    · decide
    · rintro _ ⟨⟩
      rfl
  · exact (h (.key "editable") along).1 rfl

end Whole

end Kubeast.Grafana
