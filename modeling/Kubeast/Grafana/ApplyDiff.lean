import Kubeast.Foundation.JsonData
import Kubeast.Foundation.Text
import Mathlib.Data.List.Dedup

/-! What differs between two conversions of a dashboard, written into its v2 file
(`internal/importer/grafana/export_v2_patch.go`). Decoded values share nothing, so what the program
changes in place is a value of its own here. -/
namespace Kubeast.Grafana
open Json Data Keyed

abbrev Members := List (String × Data)

/-- `unionKeys`. -/
def unionKeys (a b : Members) : List String :=
  ((a.map Prod.fst ++ b.map Prod.fst).dedup).insertionSort (· ≤ ·)

mutual

def deepCopy : Data → Data
  | .obj ms => .obj (deepCopyMembers ms)
  | .arr items => .arr (deepCopyItems items)
  | d => d

def deepCopyItems : List Data → List Data
  | [] => []
  | d :: ds => deepCopy d :: deepCopyItems ds

def deepCopyMembers : Members → Members
  | [] => []
  | (k, d) :: ms => (k, deepCopy d) :: deepCopyMembers ms

end

theorem sizeOf_lookup {ms : Members} {k : String} {d : Data} (h : ms.lookup k = some d) :
    sizeOf d < sizeOf (Data.obj ms) := by
  have hmem := List.sizeOf_lt_of_mem (mem_of_lookup h)
  simp only [Data.obj.sizeOf_spec, Prod.mk.sizeOf_spec] at hmem ⊢
  omega

theorem sizeOf_item {ds : List Data} {d : Data} (h : d ∈ ds) : sizeOf d < sizeOf (Data.arr ds) := by
  have hmem := List.sizeOf_lt_of_mem h
  simp only [Data.arr.sizeOf_spec]
  omega

/-- `applyDiff`; a key that `r` lacks reads as null. -/
def applyDiff (r a b : Data) : Data :=
  if deepEqual a b then r
  else match r, a, b with
    | .obj rm, .obj am, .obj bm =>
      .obj <| (unionKeys am bm).foldl (fun rm k =>
        match _ha : am.lookup k, bm.lookup k with
        | some av, some bv =>
          if deepEqual av bv then rm else put rm k (applyDiff ((rm.lookup k).getD .null) av bv)
        | _, none => erase rm k
        | none, some bv => put rm k (deepCopy bv)) rm
    | .arr rl, .arr al, .arr bl =>
      if rl.length = al.length ∧ al.length = bl.length then
        .arr ((rl.zip (al.attach.zip bl)).map fun i => applyDiff i.1 i.2.1.1 i.2.2)
      else deepCopy b
    | _, _, _ => deepCopy b
termination_by sizeOf a
decreasing_by
  · exact sizeOf_lookup _ha
  · exact sizeOf_item i.2.1.2

/-- `v2patcher.set`, with the changes it counts. A key that `a` or `b` lacks reads as null. -/
def set (r : Members) (k : String) (a b : Data) : Members × ℕ :=
  if deepEqual a b then (r, 0)
  else if b = .null then if (r.lookup k).isSome then (erase r k, 1) else (r, 0)
  else (put r k (applyDiff ((r.lookup k).getD .null) a b), 1)

section Copies

mutual

@[simp] theorem deepCopy_eq : ∀ d : Data, deepCopy d = d
  | .null | .bool _ | .num _ | .str _ => rfl
  | .arr items => by rw [deepCopy, deepCopyItems_eq items]
  | .obj ms => by rw [deepCopy, deepCopyMembers_eq ms]

theorem deepCopyItems_eq : ∀ ds : List Data, deepCopyItems ds = ds
  | [] => rfl
  | d :: ds => by rw [deepCopyItems, deepCopy_eq d, deepCopyItems_eq ds]

theorem deepCopyMembers_eq : ∀ ms : Members, deepCopyMembers ms = ms
  | [] => rfl
  | (k, d) :: ms => by rw [deepCopyMembers, deepCopy_eq d, deepCopyMembers_eq ms]

end

end Copies

section Containers
variable {rm am bm : Members} {rl al bl : List Data} {r a b : Data} {k : String}

theorem nodup_unionKeys (a b : Members) : (unionKeys a b).Nodup :=
  (List.perm_insertionSort _ _).nodup_iff.mpr (List.nodup_dedup _)

theorem mem_unionKeys : k ∈ unionKeys am bm ↔ am.lookup k ≠ none ∨ bm.lookup k ≠ none := by
  rw [unionKeys, (List.perm_insertionSort _ _).mem_iff, List.mem_dedup, List.mem_append, ne_eq, ne_eq,
    lookup_eq_none, lookup_eq_none, not_not, not_not]

theorem applyDiff_of_same (h : deepEqual a b = true) : applyDiff r a b = r := by
  rw [applyDiff.eq_def, if_pos h]

/-- What one pass of the loop over the keys does to the key it is at. -/
def keyDiff (am bm : Members) (k : String) (old : Option Data) : Option Data :=
  match am.lookup k, bm.lookup k with
  | some av, some bv =>
    if deepEqual av bv then old else some (applyDiff (old.getD .null) av bv)
  | _, none => none
  | none, some bv => some bv

/-- One pass of the loop. -/
def keyStep (am bm rm : Members) (k : String) : Members :=
  match am.lookup k, bm.lookup k with
  | some av, some bv =>
    if deepEqual av bv then rm else put rm k (applyDiff ((rm.lookup k).getD .null) av bv)
  | _, none => erase rm k
  | none, some bv => put rm k bv

theorem lookup_keyStep_self : (keyStep am bm rm k).lookup k = keyDiff am bm k (rm.lookup k) := by
  unfold keyStep keyDiff
  cases am.lookup k <;> cases bm.lookup k
  · exact lookup_erase_self
  · exact lookup_put_self
  · exact lookup_erase_self
  · dsimp only
    split_ifs
    · rfl
    · exact lookup_put_self

theorem lookup_keyStep_ne {k' : String} (h : k' ≠ k) : (keyStep am bm rm k).lookup k' = rm.lookup k' := by
  unfold keyStep
  cases am.lookup k <;> cases bm.lookup k
  · exact lookup_erase_ne h
  · exact lookup_put_ne h
  · exact lookup_erase_ne h
  · dsimp only
    split_ifs
    · rfl
    · exact lookup_put_ne h

theorem nodup_keyStep (h : (rm.map Prod.fst).Nodup) : ((keyStep am bm rm k).map Prod.fst).Nodup := by
  unfold keyStep
  cases am.lookup k <;> cases bm.lookup k
  · exact nodup_erase h
  · exact nodup_put h
  · exact nodup_erase h
  · dsimp only
    split_ifs
    · exact h
    · exact nodup_put h

theorem applyDiff_obj (h : deepEqual (.obj am) (.obj bm) = false) :
    applyDiff (.obj rm) (.obj am) (.obj bm) = .obj ((unionKeys am bm).foldl (keyStep am bm) rm) := by
  rw [applyDiff, h, if_neg Bool.false_ne_true]
  congr 2
  funext rm k
  unfold keyStep
  split <;> simp [*]

theorem applyDiff_arr (h : deepEqual (.arr al) (.arr bl) = false) (hra : rl.length = al.length)
    (hab : al.length = bl.length) :
    applyDiff (.arr rl) (.arr al) (.arr bl) =
      .arr ((rl.zip (al.zip bl)).map fun i => applyDiff i.1 i.2.1 i.2.2) := by
  rw [applyDiff, h, if_neg Bool.false_ne_true]
  rw [if_pos ⟨hra, hab⟩]
  congr 1
  refine List.ext_getElem (by simp) fun i _ _ => ?_
  simp

end Containers

end Kubeast.Grafana
