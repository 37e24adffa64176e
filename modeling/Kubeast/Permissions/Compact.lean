import Kubeast.Foundation.Sorted
import Kubeast.Foundation.Text
import Kubeast.Foundation.Value
import Kubeast.Permissions.Matching
import Mathlib.Data.String.Basic

/-! The `permissions` claim of a token (`services/pkg/auth/permissions.go`): each distinct list is
written once, a cluster with an equal list names the first that carries it. -/
namespace Kubeast.Permissions
open Text

/-- A `[]string`, which may be nil. -/
abbrev Slice := Option (List String)

def Slice.items (s : Slice) : List String := s.getD []

/-- A matrix whose lists may be nil. -/
abbrev SliceMatrix := Dict String Slice

/-- The matrix as `HasForCluster` reads it. -/
def SliceMatrix.plain (m : SliceMatrix) : PermissionMatrix :=
  ⟨m.rows.map fun x => (x.1, Slice.items x.2), by
    rw [List.map_map]
    exact m.nodup⟩

inductive Compacted
  | list (s : Slice)
  | ref (id : String)
deriving DecidableEq

def nul : Char := Char.ofNat 0

/-- What equal lists share whatever their order. -/
def listKey (s : Slice) : String :=
  String.ofList (joined nul (sortStrings s.items))

/-- The loop of `CompactPermissions`, with the first cluster of each list. -/
def compactStep (m : SliceMatrix) (acc : Dict String String × List (String × Compacted)) (id : String) :
    Dict String String × List (String × Compacted) :=
  match acc.1.get (listKey (m.index id)) with
  | some first => (acc.1, acc.2 ++ [(id, Compacted.ref first.2)])
  | none => (acc.1.set (listKey (m.index id)) id, acc.2 ++ [(id, .list (m.index id))])

def SliceMatrix.ids (m : SliceMatrix) : List String := sortStrings (m.rows.map Prod.fst)

def compactPermissions (m : SliceMatrix) : List (String × Compacted) :=
  (m.ids.foldl (compactStep m) (Table.empty, [])).2

/-- A nil slice is `null` in JSON. -/
def Compacted.json : Compacted → Value
  | .list none => .null
  | .list (some l) => .list (l.map .str)
  | .ref id => .str id

/-- The claim as the reader of the token gets it. -/
def permissionsClaim (m : SliceMatrix) : Value :=
  .map ((compactPermissions m).map fun x => (x.1, x.2.json))

/-- The texts of a list, the rest left out. -/
def texts (items : List Value) : List String :=
  items.filterMap fun
    | .str s => some s
    | _ => none

def readList (out : PermissionMatrix) (x : String × Value) : PermissionMatrix :=
  match x.2 with
  | .list items => out.set x.1 (texts items)
  | _ => out

def readRef (members : List (String × Value)) (out : PermissionMatrix) (x : String × Value) :
    PermissionMatrix :=
  match x.2 with
  | .str ref =>
    match (Value.map members).get ref with
    | some (.list _) => out.set x.1 (out.index ref)
    | _ => out
  | _ => out

def parsePermissions : Value → Option PermissionMatrix
  | .map members => some (members.foldl (readRef members) (members.foldl readList Table.empty))
  | _ => none

section Keys

/-- The keys a role may hold. -/
def KeysOk (m : SliceMatrix) : Prop :=
  ∀ x ∈ m.rows, ∀ p ∈ Slice.items x.2, p ≠ "" ∧ nul ∉ p.toList

instance (m : SliceMatrix) : Decidable (KeysOk m) :=
  inferInstanceAs (Decidable (∀ x ∈ m.rows, ∀ p ∈ Slice.items x.2, p ≠ "" ∧ nul ∉ p.toList))

variable {s s' : Slice} {perm : String} {l l' : List String}

/-- Lists of proper keys with one key are equal up to order. -/
theorem perm_of_listKey (hs : ∀ p ∈ s.items, p ≠ "" ∧ nul ∉ p.toList)
    (hs' : ∀ p ∈ s'.items, p ≠ "" ∧ nul ∉ p.toList) (h : listKey s = listKey s') :
    s.items.Perm s'.items :=
  perm_of_joined hs hs' (String.ofList_inj.mp h)

theorem listKey_of_nil (h : s.items = []) : listKey s = "" := by
  rw [listKey, h]
  rfl

theorem matchAny_perm (h : l.Perm l') : matchAny l perm = matchAny l' perm := by
  rw [Bool.eq_iff_iff, matchAny_eq_true, matchAny_eq_true]
  exact ⟨fun ⟨p, hp, hm⟩ => ⟨p, h.mem_iff.mp hp, hm⟩, fun ⟨p, hp, hm⟩ => ⟨p, h.mem_iff.mpr hp, hm⟩⟩

end Keys

end Kubeast.Permissions

/-! What the reader of a token makes of a compacted matrix. -/
namespace Kubeast.Permissions
open Text Sorted

section Compacting
variable {m : SliceMatrix} {ids : List String} {id first k : String}

/-- The cluster that carries the list of a cluster. -/
def firstOf (m : SliceMatrix) (ids : List String) (id : String) : String :=
  (ids.find? fun x => listKey (m.index x) = listKey (m.index id)).getD id

def entryOf (m : SliceMatrix) (ids : List String) (id : String) : Compacted :=
  if firstOf m ids id = id then .list (m.index id) else .ref (firstOf m ids id)

theorem find?_of_mem (h : id ∈ ids) : ids.find? (fun x => listKey (m.index x) = listKey (m.index id)) =
    some (firstOf m ids id) := by
  have hsome : (ids.find? fun x => listKey (m.index x) = listKey (m.index id)).isSome = true :=
    List.find?_isSome.mpr ⟨id, h, decide_eq_true rfl⟩
  obtain ⟨x, hx⟩ := Option.isSome_iff_exists.mp hsome
  rw [firstOf, hx]
  rfl

theorem firstOf_mem (h : id ∈ ids) : firstOf m ids id ∈ ids := List.mem_of_find?_eq_some (find?_of_mem h)

theorem listKey_firstOf (h : id ∈ ids) :
    listKey (m.index (firstOf m ids id)) = listKey (m.index id) := by
  simpa using List.find?_some (find?_of_mem (m := m) h)

theorem firstOf_firstOf (h : id ∈ ids) : firstOf m ids (firstOf m ids id) = firstOf m ids id := by
  have hfind := find?_of_mem (m := m) h
  rw [← listKey_firstOf h] at hfind
  rw [firstOf, hfind]
  rfl

theorem firstOf_append {more : List String} (h : id ∈ ids) : firstOf m (ids ++ more) id = firstOf m ids id := by
  rw [firstOf, List.find?_append, find?_of_mem h]
  rfl

/-- The loop over the clusters that are left, behind those in `done`. -/
theorem foldl_compactStep (done rest : List String) (hnodup : (done ++ rest).Nodup)
    {acc : Dict String String × List (String × Compacted)}
    (howner : ∀ k, (acc.1.get k).map Prod.snd = done.find? fun x => listKey (m.index x) = k)
    (hout : acc.2 = done.map fun id => (id, entryOf m done id)) :
    (rest.foldl (compactStep m) acc).2 = (done ++ rest).map fun id => (id, entryOf m (done ++ rest) id) := by
  induction rest generalizing done acc with
  | nil => rw [List.foldl_nil, List.append_nil, hout]
  | cons id rest ih =>
    have hassoc : done ++ id :: rest = (done ++ [id]) ++ rest := by simp
    have hnew : id ∉ done := fun h => (List.nodup_append.mp hnodup).2.2 id h id List.mem_cons_self rfl
    have hold : done.map (fun x => (x, entryOf m (done ++ [id]) x)) = done.map fun x => (x, entryOf m done x) := by
      apply List.map_congr_left
      intro x hx
      rw [entryOf, entryOf, firstOf_append hx]
    rw [List.foldl_cons, hassoc]
    rw [hassoc] at hnodup
    have howned := howner (listKey (m.index id))
    cases hget : acc.1.get (listKey (m.index id)) with
    | some first =>
      rw [hget, Option.map_some] at howned
      have hstep : compactStep m acc id = (acc.1, acc.2 ++ [(id, Compacted.ref first.2)]) := by
        rw [compactStep, hget]
      have hfirst : firstOf m (done ++ [id]) id = first.2 := by
        rw [firstOf, List.find?_append, ← howned]
        rfl
      have hne : first.2 ≠ id := fun h => hnew (h ▸ List.mem_of_find?_eq_some howned.symm)
      apply ih _ hnodup
      · intro k
        rw [hstep, howner k, List.find?_append]
        cases hfind : done.find? fun x => decide (listKey (m.index x) = k) with
        | some x => rfl
        | none =>
          have hkey : listKey (m.index id) ≠ k := by
            rintro rfl
            rw [hfind] at howned
            cases howned
          simp [hkey]
      · rw [hstep, hout, List.map_append, hold, List.map_singleton, entryOf, hfirst, if_neg hne]
    | none =>
      rw [hget, Option.map_none] at howned
      have hstep : compactStep m acc id = (acc.1.set (listKey (m.index id)) id,
          acc.2 ++ [(id, .list (m.index id))]) := by
        rw [compactStep, hget]
      have hfirst : firstOf m (done ++ [id]) id = id := by
        rw [firstOf, List.find?_append, ← howned]
        simp
      apply ih _ hnodup
      · intro k
        rw [hstep, List.find?_append]
        dsimp only
        by_cases hkey : listKey (m.index id) = k
        · rw [← hkey, Dict.get_set_self, ← howned]
          simp
        · rw [Dict.get_set_ne hkey, howner k]
          simp [hkey]
      · rw [hstep, hout, List.map_append, hold, List.map_singleton, entryOf, hfirst, if_pos rfl]

theorem nodup_ids (m : SliceMatrix) : m.ids.Nodup := (List.perm_insertionSort _ _).nodup_iff.mpr m.nodup

theorem compactPermissions_eq (m : SliceMatrix) :
    compactPermissions m = m.ids.map fun id => (id, entryOf m m.ids id) :=
  foldl_compactStep [] m.ids (nodup_ids m) (fun _ => rfl) rfl

theorem mem_ids : id ∈ m.ids ↔ ∃ s, (id, s) ∈ m.rows := by
  rw [SliceMatrix.ids, mem_sortStrings, List.mem_map]
  exact ⟨fun ⟨x, hx, h⟩ => ⟨x.2, h ▸ hx⟩, fun ⟨s, hs⟩ => ⟨(id, s), hs, rfl⟩⟩

/-- The entry a cluster refers to is a list. -/
theorem entryOf_firstOf (h : id ∈ ids) :
    entryOf m ids (firstOf m ids id) = .list (m.index (firstOf m ids id)) := by
  rw [entryOf, if_pos (firstOf_firstOf h)]

end Compacting

section Parsing
variable {members l : List (String × Value)} {out : PermissionMatrix} {k ref : String} {v : Value}
  {items : List Value}

theorem get_members (hnodup : (members.map Prod.fst).Nodup) (h : (k, v) ∈ members) :
    (Value.map members).get k = some v := by
  induction members with
  | nil => cases h
  | cons x members ih =>
    obtain ⟨hx, hrest⟩ := List.nodup_cons.mp hnodup
    obtain ⟨l, w⟩ := x
    rw [Value.get_cons]
    rcases List.mem_cons.mp h with heq | h
    · obtain ⟨rfl, rfl⟩ := Prod.mk.inj heq
      rw [if_pos rfl]
    · have hne : l ≠ k := fun e => hx (e ▸ List.mem_map.mpr ⟨_, h, rfl⟩)
      rw [if_neg hne, ih hrest h]

theorem get_foldl_readList_of_notMem (h : k ∉ l.map Prod.fst) : (l.foldl readList out).get k = out.get k := by
  induction l generalizing out with
  | nil => rfl
  | cons x l ih =>
    rw [List.map_cons, List.mem_cons, not_or] at h
    rw [List.foldl_cons, ih h.2, readList]
    split
    · exact Dict.get_set_ne (Ne.symm h.1)
    · rfl

/-- What the first loop makes of a member. -/
def listOf : Value → Option (List String)
  | .list items => some (texts items)
  | _ => none

theorem get_foldl_readList (hnodup : (l.map Prod.fst).Nodup) (hk : out.get k = none) (h : (k, v) ∈ l) :
    (l.foldl readList out).get k = (listOf v).map fun s => (k, s) := by
  induction l generalizing out with
  | nil => cases h
  | cons x l ih =>
    obtain ⟨hx, hrest⟩ := List.nodup_cons.mp hnodup
    rw [List.foldl_cons]
    rcases List.mem_cons.mp h with heq | h
    · subst heq
      rw [get_foldl_readList_of_notMem hx]
      cases v with
      | list items => exact Dict.get_set_self
      | _ => exact hk
    · apply ih hrest _ h
      have hne : x.1 ≠ k := fun e => hx (e ▸ List.mem_map.mpr ⟨_, h, rfl⟩)
      rw [readList]
      split
      · rw [Dict.get_set_ne hne, hk]
      · exact hk

theorem get_foldl_readRef_of_notMem (h : ∀ ref, (k, .str ref) ∉ l) :
    (l.foldl (readRef members) out).get k = out.get k := by
  induction l generalizing out with
  | nil => rfl
  | cons x l ih =>
    rw [List.foldl_cons, ih fun ref hmem => h ref (List.mem_cons_of_mem x hmem)]
    obtain ⟨c, v⟩ := x
    cases v with
    | str ref =>
      have hne : c ≠ k := by
        rintro rfl
        exact h ref List.mem_cons_self
      dsimp only [readRef]
      split
      · exact Dict.get_set_ne hne
      · rfl
    | _ => rfl

/-- A reference to a list takes it. -/
theorem get_foldl_readRef (hmembers : (members.map Prod.fst).Nodup) (hl : l ⊆ members)
    (hnodup : (l.map Prod.fst).Nodup) (hk : (k, .str ref) ∈ l) (href : (ref, .list items) ∈ members)
    (hout : out.index ref = texts items) :
    (l.foldl (readRef members) out).get k = some (k, texts items) := by
  induction l generalizing out with
  | nil => cases hk
  | cons x l ih =>
    obtain ⟨hx, hrest⟩ := List.nodup_cons.mp hnodup
    have hsub : l ⊆ members := fun y hy => hl (List.mem_cons_of_mem x hy)
    rw [List.foldl_cons]
    rcases List.mem_cons.mp hk with heq | hk
    · subst heq
      have hnone : ∀ r, (k, .str r) ∉ l := fun r h => hx (List.mem_map.mpr ⟨_, h, rfl⟩)
      rw [get_foldl_readRef_of_notMem hnone]
      dsimp only [readRef]
      rw [get_members hmembers href]
      dsimp only
      rw [hout]
      exact Dict.get_set_self
    · apply ih hsub hrest hk
      obtain ⟨c, v⟩ := x
      rw [← hout]
      cases v with
      | str r =>
        have hne : c ≠ ref := by
          rintro rfl
          have hstr := get_members hmembers (hl List.mem_cons_self)
          rw [get_members hmembers href] at hstr
          cases hstr
        dsimp only [readRef]
        split
        · exact Dict.index_set_ne hne
        · rfl
      | _ => rfl

theorem get_foldl_readRef_null (hmembers : (members.map Prod.fst).Nodup) (hl : l ⊆ members)
    (hk : (k, .str ref) ∈ members) (href : (ref, .null) ∈ members) :
    (l.foldl (readRef members) out).get k = out.get k := by
  induction l generalizing out with
  | nil => rfl
  | cons x l ih =>
    rw [List.foldl_cons, ih fun y hy => hl (List.mem_cons_of_mem x hy)]
    obtain ⟨c, v⟩ := x
    cases v with
    | str r =>
      dsimp only [readRef]
      by_cases hc : c = k
      · subst hc
        have hstr := get_members hmembers (hl List.mem_cons_self)
        rw [get_members hmembers hk] at hstr
        obtain rfl := Value.str.inj (Option.some.inj hstr)
        rw [get_members hmembers href]
      · split
        · exact Dict.get_set_ne hc
        · rfl
    | _ => rfl

theorem texts_map_str (l : List String) : texts (l.map .str) = l := by
  rw [texts, List.filterMap_map]
  exact List.filterMap_some

end Parsing

section Result
variable {m : SliceMatrix} {id : String}

/-- The matrix the reader gets. -/
def reread (m : SliceMatrix) : PermissionMatrix :=
  let members := (compactPermissions m).map fun x => (x.1, x.2.json)
  members.foldl (readRef members) (members.foldl readList Table.empty)

theorem parsePermissions_claim (m : SliceMatrix) : parsePermissions (permissionsClaim m) = some (reread m) := rfl

/-- A cluster has the list of the first cluster with its key, unless that is nil. -/
theorem get_reread (h : id ∈ m.ids) :
    (reread m).get id = (m.index (firstOf m m.ids id)).map fun l => (id, l) := by
  have hmembers : (compactPermissions m).map (fun x => (x.1, x.2.json)) =
      m.ids.map fun x => (x, (entryOf m m.ids x).json) := by
    rw [compactPermissions_eq, List.map_map]
    rfl
  have hkeys : ((m.ids.map fun x => (x, (entryOf m m.ids x).json)).map Prod.fst) = m.ids := by
    rw [List.map_map]
    exact List.map_id _
  have hnodup : ((m.ids.map fun x => (x, (entryOf m m.ids x).json)).map Prod.fst).Nodup := by
    rw [hkeys]
    exact nodup_ids m
  have hmem : ∀ x ∈ m.ids, (x, (entryOf m m.ids x).json) ∈ m.ids.map fun x => (x, (entryOf m m.ids x).json) :=
    fun x hx => List.mem_map_of_mem hx
  rw [reread, hmembers]
  generalize m.ids.map (fun x => (x, (entryOf m m.ids x).json)) = members at hnodup hmem
  by_cases hfirst : firstOf m m.ids id = id
  · have hself := hmem id h
    rw [entryOf, if_pos hfirst] at hself
    rw [hfirst, get_foldl_readRef_of_notMem, get_foldl_readList hnodup rfl hself]
    · cases m.index id with
      | none => rfl
      | some l => exact congrArg (fun l => some (id, l)) (texts_map_str l)
    · intro ref href
      have hget := get_members hnodup href
      rw [get_members hnodup hself] at hget
      cases hslice : m.index id <;> rw [hslice] at hget <;> cases hget
  · have hself := hmem id h
    rw [entryOf, if_neg hfirst] at hself
    have howner := hmem _ (firstOf_mem (m := m) h)
    rw [entryOf_firstOf h] at howner
    have hnone : (members.foldl readList Table.empty).get id = none := by
      rw [get_foldl_readList hnodup rfl hself]
      rfl
    cases hslice : m.index (firstOf m m.ids id) with
    | none =>
      rw [hslice] at howner
      rw [get_foldl_readRef_null hnodup (List.Subset.refl _) hself howner, hnone]
      rfl
    | some l =>
      rw [hslice] at howner
      have hempty : (Table.empty : PermissionMatrix).get (firstOf m m.ids id) = none := rfl
      have hindex := Dict.index_of_get (get_foldl_readList hnodup hempty howner)
      rw [get_foldl_readRef hnodup (List.Subset.refl _) hnodup hself howner hindex, texts_map_str]
      rfl

theorem get_reread_of_notMem (h : id ∉ m.ids) : (reread m).get id = none := by
  have hkeys : id ∉ ((compactPermissions m).map fun x => (x.1, x.2.json)).map Prod.fst := by
    rw [compactPermissions_eq, List.map_map, List.map_map]
    intro hmem
    obtain ⟨x, hx, rfl⟩ := List.mem_map.mp hmem
    exact h hx
  have href : ∀ ref, (id, .str ref) ∉ (compactPermissions m).map fun x => (x.1, x.2.json) :=
    fun ref hmem => hkeys (List.mem_map.mpr ⟨_, hmem, rfl⟩)
  rw [reread, get_foldl_readRef_of_notMem href, get_foldl_readList_of_notMem hkeys]
  rfl

theorem index_eq {s : Slice} (h : (id, s) ∈ m.rows) : m.index id = s := Dict.index_of_get (Table.get_of_mem h)

theorem index_plain (m : SliceMatrix) (id : String) : m.plain.index id = (m.index id).items := by
  by_cases h : id ∈ m.ids
  · obtain ⟨s, hs⟩ := mem_ids.mp h
    have hplain : m.plain.get id = some (id, Slice.items s) :=
      Table.get_eq_some.mpr ⟨List.mem_map.mpr ⟨(id, s), hs, rfl⟩, rfl⟩
    rw [index_eq hs]
    exact Dict.index_of_get hplain
  · have hnone : m.get id = none := by
      rw [Table.get_eq_none]
      rintro ⟨x, s⟩ hx rfl
      exact h (mem_ids.mpr ⟨s, hx⟩)
    have hplain : m.plain.get id = none := by
      rw [Table.get_eq_none]
      intro r hr
      obtain ⟨x, hx, rfl⟩ := List.mem_map.mp hr
      exact Table.get_eq_none.mp hnone x hx
    rw [Dict.index_of_get_none hnone, Dict.index_of_get_none hplain]
    rfl

theorem keys_index (hkeys : KeysOk m) (h : id ∈ m.ids) : ∀ p ∈ (m.index id).items, p ≠ "" ∧ nul ∉ p.toList := by
  obtain ⟨s, hs⟩ := mem_ids.mp h
  rw [index_eq hs]
  exact hkeys _ hs

/-- A cluster is granted the same after the round trip, whichever cluster carries its list. -/
theorem matchAny_reread (hkeys : KeysOk m) (id perm : String) :
    matchAny ((reread m).index id) perm = matchAny (m.plain.index id) perm := by
  rw [index_plain]
  by_cases h : id ∈ m.ids
  · have hindex : (reread m).index id = (m.index (firstOf m m.ids id)).items := by
      rw [Dict.index, get_reread h]
      cases m.index (firstOf m m.ids id) <;> rfl
    rw [hindex]
    exact matchAny_perm (perm_of_listKey (keys_index hkeys (firstOf_mem h)) (keys_index hkeys h)
      (listKey_firstOf h))
  · have hnone : m.get id = none := by
      rw [Table.get_eq_none]
      rintro ⟨x, s⟩ hx rfl
      exact h (mem_ids.mpr ⟨s, hx⟩)
    rw [Dict.index_of_get_none (get_reread_of_notMem h), Dict.index_of_get_none hnone]
    rfl

theorem hasForCluster_reread (hkeys : KeysOk m) (perm clusterID : String) :
    (reread m).hasForCluster perm clusterID = m.plain.hasForCluster perm clusterID := by
  rw [PermissionMatrix.hasForCluster, PermissionMatrix.hasForCluster, matchAny_reread hkeys,
    matchAny_reread hkeys]

/-- The first of the clusters with a key is the least. -/
theorem firstOf_le (h : id ∈ m.ids) {x : String} (hx : x ∈ m.ids) (hkey : listKey (m.index x) = listKey (m.index id)) :
    firstOf m m.ids id ≤ x := by
  have hnodup : ((m.rows.map Prod.fst).map fun s => s).Nodup := by
    rw [List.map_id']
    exact m.nodup
  have hsorted : Increasing (fun s => s) m.ids := increasing_sortBy hnodup
  obtain ⟨-, as, bs, hids, hbefore⟩ := List.find?_eq_some_iff_append.mp (find?_of_mem (m := m) h)
  rw [hids] at hsorted hx
  rcases List.mem_append.mp hx with hx | hx
  · exact absurd (hbefore x hx) (by simp [hkey])
  · rcases List.mem_cons.mp hx with rfl | hx
    · exact le_rfl
    · exact ((List.pairwise_cons.mp (List.pairwise_append.mp hsorted).2.1).1 x hx).le

end Result

/-- What the claim owes the matrix: every answer, an entry for every list that is not nil, and no
reference that is dropped or leads to another. -/
structure Restored (m : SliceMatrix) (p : PermissionMatrix) : Prop where
  answers : ∀ perm clusterID, p.hasForCluster perm clusterID = m.plain.hasForCluster perm clusterID
  entries : ∀ x ∈ m.rows, x.2 ≠ none → (p.get x.1).isSome = true
  refs : ∀ id ref, (id, .ref ref) ∈ compactPermissions m →
    (p.get id).isSome = true ∧ ∃ s, (ref, .list s) ∈ compactPermissions m

/-- Where another cluster has no permissions, the first of those that have none is not a nil list. -/
def NilAlone (m : SliceMatrix) : Prop :=
  ∀ x ∈ m.rows, x.2 = none → ∀ y ∈ m.rows, y.1 ≠ x.1 → Slice.items y.2 = [] →
    ∃ z ∈ m.rows, Slice.items z.2 = [] ∧ z.1 < x.1

instance (m : SliceMatrix) : Decidable (NilAlone m) :=
  inferInstanceAs (Decidable (∀ x ∈ m.rows, x.2 = none → ∀ y ∈ m.rows, y.1 ≠ x.1 →
    Slice.items y.2 = [] → ∃ z ∈ m.rows, Slice.items z.2 = [] ∧ z.1 < x.1))

section RoundTrip
variable {m : SliceMatrix}

theorem mem_compact {id : String} {c : Compacted} :
    (id, c) ∈ compactPermissions m ↔ id ∈ m.ids ∧ c = entryOf m m.ids id := by
  rw [compactPermissions_eq, List.mem_map]
  constructor
  · rintro ⟨x, hx, h⟩
    obtain ⟨rfl, rfl⟩ := Prod.mk.inj h
    exact ⟨hx, rfl⟩
  · rintro ⟨hid, rfl⟩
    exact ⟨id, hid, rfl⟩

/-- The list a cluster refers to is not nil. -/
theorem isSome_firstOf (hkeys : KeysOk m) (hnil : NilAlone m) {id : String} (h : id ∈ m.ids)
    (hne : firstOf m m.ids id ≠ id) : (m.index (firstOf m m.ids id)).isSome = true := by
  cases hfirst : m.index (firstOf m m.ids id) with
  | some l => rfl
  | none =>
    obtain ⟨s, hs⟩ := mem_ids.mp (firstOf_mem (m := m) h)
    obtain ⟨t, ht⟩ := mem_ids.mp h
    rw [index_eq hs] at hfirst
    have hempty : Slice.items t = [] := by
      have hperm := perm_of_listKey (keys_index hkeys (firstOf_mem h)) (keys_index hkeys h) (listKey_firstOf h)
      rw [index_eq hs, index_eq ht, hfirst] at hperm
      exact hperm.nil_eq.symm
    obtain ⟨z, hz, hzempty, hlt⟩ := hnil _ hs hfirst _ ht (Ne.symm hne) hempty
    have hkey : listKey (m.index z.1) = listKey (m.index id) := by
      rw [index_eq (s := z.2) hz, index_eq ht, listKey_of_nil hzempty, listKey_of_nil hempty]
    have hle := firstOf_le h (mem_ids.mpr ⟨z.2, hz⟩) hkey
    exact absurd hle (not_le.mpr hlt)

end RoundTrip

/-- The reader of a token restores the matrix, exactly when no nil list comes first among several
clusters without permissions; the answers to permission checks are the same always. -/
theorem parse_compact_iff (m : SliceMatrix) (hkeys : KeysOk m) :
    (∃ p, parsePermissions (permissionsClaim m) = some p ∧ Restored m p) ↔ NilAlone m := by
  have hsome : (∃ p, parsePermissions (permissionsClaim m) = some p ∧ Restored m p) ↔ Restored m (reread m) := by
    rw [parsePermissions_claim]
    simp
  have hget : ∀ {id}, id ∈ m.ids →
      ((reread m).get id).isSome = (m.index (firstOf m m.ids id)).isSome := by
    intro id h
    rw [get_reread h, Option.isSome_map]
  rw [hsome]
  constructor
  · intro hrestored x hx hnone y hy hne hempty
    by_contra hleast
    push Not at hleast
    have hxids := mem_ids.mpr ⟨x.2, hx⟩
    have hyids := mem_ids.mpr ⟨y.2, hy⟩
    have hykey : listKey (m.index y.1) = "" := by
      rw [index_eq (s := y.2) hy]
      exact listKey_of_nil hempty
    have hxkey : listKey (m.index x.1) = "" := by
      rw [index_eq (s := x.2) hx, hnone]
      rfl
    have hfirst : firstOf m m.ids y.1 = x.1 := by
      apply le_antisymm (firstOf_le hyids hxids (hxkey.trans hykey.symm))
      obtain ⟨s, hs⟩ := mem_ids.mp (firstOf_mem (m := m) hyids)
      apply hleast _ hs
      have hperm := perm_of_listKey (keys_index hkeys (firstOf_mem hyids)) (keys_index hkeys hyids)
        (listKey_firstOf hyids)
      rw [index_eq hs, index_eq (s := y.2) hy, hempty] at hperm
      exact hperm.eq_nil
    have hentry : entryOf m m.ids y.1 = .ref x.1 := by
      rw [entryOf, hfirst, if_neg (Ne.symm hne)]
    have hkept := (hrestored.refs y.1 x.1 (mem_compact.mpr ⟨hyids, hentry.symm⟩)).1
    rw [hget hyids, hfirst, index_eq (s := x.2) hx, hnone] at hkept
    cases hkept
  · intro hnil
    refine ⟨hasForCluster_reread hkeys, ?_, ?_⟩
    · intro x hx hne
      have hxids := mem_ids.mpr ⟨x.2, hx⟩
      rw [hget hxids]
      by_cases hfirst : firstOf m m.ids x.1 = x.1
      · rw [hfirst, index_eq (s := x.2) hx]
        exact Option.isSome_iff_ne_none.mpr hne
      · exact isSome_firstOf hkeys hnil hxids hfirst
    · intro id ref href
      obtain ⟨hid, hentry⟩ := mem_compact.mp href
      rw [entryOf] at hentry
      split at hentry
      · cases hentry
      · next hfirst =>
        obtain rfl := Compacted.ref.inj hentry
        refine ⟨?_, _, mem_compact.mpr ⟨firstOf_mem hid, (entryOf_firstOf hid).symm⟩⟩
        rw [hget hid]
        exact isSome_firstOf hkeys hnil hid hfirst

/-- A nil list and an empty one: the second names the first, and is dropped. -/
def nilFirst : SliceMatrix := ⟨[("a", none), ("b", some [])], by decide⟩

theorem nilFirst_dropped : KeysOk nilFirst ∧ ("b", .ref "a") ∈ compactPermissions nilFirst ∧
    (parsePermissions (permissionsClaim nilFirst)).map (fun p => (p.get "b").isSome) = some false := by
  decide

def twoReaders : SliceMatrix :=
  ⟨[("test", some ["menu.dashboard", "resource.*.read"]), ("prod", some ["resource.*.read", "menu.dashboard"]),
    ("*", none)], by decide⟩

theorem parse_compact_iff_twoReaders :
    ∃ p, parsePermissions (permissionsClaim twoReaders) = some p ∧ Restored twoReaders p :=
  (parse_compact_iff twoReaders (by decide)).mpr (by decide)

end Kubeast.Permissions
