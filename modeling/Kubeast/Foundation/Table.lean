import Mathlib.Data.List.Basic
import Mathlib.Data.List.Nodup

/-! Tables with a primary key and the statements a store runs on them. A statement
that does not touch the key columns says so by a proof, so no table with two rows
of one key can be built. -/

/-- Rows in no particular order, each key at most once. -/
structure Table {R K : Type*} (key : R → K) where
  rows : List R
  nodup : (rows.map key).Nodup

namespace Table
variable {R K : Type*} {key : R → K} {t : Table key} {r r' : R} {k : K} {p : R → Bool} {f : R → R}

instance [DecidableEq R] : DecidableEq (Table key) := fun s t =>
  decidable_of_iff (s.rows = t.rows) ⟨fun h => by cases s; cases t; cases h; rfl, fun h => h ▸ rfl⟩

/-- A table without rows. -/
def empty : Table key := ⟨[], List.nodup_nil⟩

theorem eq_of_key_eq (h : r ∈ t.rows) (h' : r' ∈ t.rows) (hk : key r = key r') : r = r' :=
  List.inj_on_of_nodup_map t.nodup h h' hk

/-- `SELECT … WHERE p`. -/
def select (t : Table key) (p : R → Bool) : List R := t.rows.filter p

/-- `DELETE … WHERE p`. -/
def delete (t : Table key) (p : R → Bool) : Table key :=
  ⟨t.rows.filter fun r => !p r, t.nodup.sublist (List.filter_sublist.map key)⟩

/-- `UPDATE … SET f WHERE p`, for an `f` that leaves the key columns alone. -/
def update (t : Table key) (p : R → Bool) (f : R → R) (hf : ∀ r, key (f r) = key r) : Table key :=
  ⟨t.rows.map fun r => if p r then f r else r, by
    have h : key ∘ (fun r => if p r then f r else r) = key := by
      funext r
      simp only [Function.comp_apply]
      split <;> simp [hf]
    rw [List.map_map, h]
    exact t.nodup⟩

@[simp] theorem mem_delete : r ∈ (t.delete p).rows ↔ r ∈ t.rows ∧ p r = false := by
  simp [delete]

@[simp] theorem mem_update (hf : ∀ r, key (f r) = key r) :
    r ∈ (t.update p f hf).rows ↔ ∃ x ∈ t.rows, (if p x then f x else x) = r := by
  simp [update]

@[simp] theorem mem_select : r ∈ t.select p ↔ r ∈ t.rows ∧ p r = true := by
  simp [select]

/-- A row of the key exists: what a foreign key asks of the table it names. -/
def has (t : Table key) (k : K) : Prop := ∃ r ∈ t.rows, key r = k

instance [DecidableEq K] (t : Table key) (k : K) : Decidable (t.has k) :=
  inferInstanceAs (Decidable (∃ r ∈ t.rows, key r = k))

@[simp] theorem has_update (hf : ∀ r, key (f r) = key r) : (t.update p f hf).has k ↔ t.has k := by
  have hkey : ∀ x, key (if p x then f x else x) = key x := by
    intro x
    split <;> simp [hf]
  constructor
  · rintro ⟨r, hr, rfl⟩
    obtain ⟨x, hx, rfl⟩ := (mem_update hf).mp hr
    exact ⟨x, hx, (hkey x).symm⟩
  · rintro ⟨x, hx, rfl⟩
    exact ⟨_, (mem_update hf).mpr ⟨x, hx, rfl⟩, hkey x⟩

section Keyed
variable [DecidableEq K]

/-- The row of a key. -/
def get (t : Table key) (k : K) : Option R := t.rows.find? fun r => decide (key r = k)

theorem get_eq_some : t.get k = some r ↔ r ∈ t.rows ∧ key r = k := by
  have found : ∀ {x}, t.get k = some x → x ∈ t.rows ∧ key x = k := fun h =>
    ⟨List.mem_of_find?_eq_some h, by simpa using List.find?_some h⟩
  refine ⟨found, ?_⟩
  rintro ⟨hr, rfl⟩
  have hne : t.get (key r) ≠ none := fun h => by simpa using List.find?_eq_none.mp h r hr
  obtain ⟨x, hx⟩ := Option.ne_none_iff_exists'.mp hne
  obtain ⟨hmem, hk⟩ := found hx
  rw [hx, eq_of_key_eq hmem hr hk]

theorem get_eq_none : t.get k = none ↔ ∀ r ∈ t.rows, key r ≠ k := by
  simp [get]

theorem get_of_mem (h : r ∈ t.rows) : t.get (key r) = some r := get_eq_some.mpr ⟨h, rfl⟩

theorem key_of_get (h : t.get k = some r) : key r = k := (get_eq_some.mp h).2

theorem mem_of_get (h : t.get k = some r) : r ∈ t.rows := (get_eq_some.mp h).1

@[simp] theorem get_empty : (empty : Table key).get k = none := rfl

theorem get_update (hf : ∀ r, key (f r) = key r) :
    (t.update p f hf).get k = (t.get k).map fun r => if p r then f r else r := by
  cases h : t.get k with
  | none =>
    rw [Option.map_none, get_eq_none]
    intro r hr
    obtain ⟨x, hx, rfl⟩ := (mem_update hf).mp hr
    have := get_eq_none.mp h x hx
    split <;> simp_all
  | some r =>
    obtain ⟨hr, rfl⟩ := get_eq_some.mp h
    rw [Option.map_some, get_eq_some]
    refine ⟨(mem_update hf).mpr ⟨r, hr, rfl⟩, ?_⟩
    split <;> simp [hf]

theorem get_delete : (t.delete p).get k = (t.get k).filter fun r => !p r := by
  cases h : t.get k with
  | none =>
    rw [Option.filter_none, get_eq_none]
    exact fun r hr => get_eq_none.mp h r (mem_delete.mp hr).1
  | some r =>
    obtain ⟨hr, rfl⟩ := get_eq_some.mp h
    cases hp : p r with
    | false => simpa [Option.filter, hp] using get_of_mem (t := t.delete p) (by simp [hr, hp])
    | true =>
      rw [Option.filter_some_neg (by simp [hp]), get_eq_none]
      intro x hx hk
      obtain ⟨hx, hpx⟩ := mem_delete.mp hx
      rw [eq_of_key_eq hx hr hk, hp] at hpx
      exact Bool.noConfusion hpx

/-- A key has one row at most. -/
theorem select_key (h : t.get k = some r) : t.select (fun x => decide (key x = k)) = [r] := by
  have hmem : r ∈ t.select fun x => decide (key x = k) := by simpa using get_eq_some.mp h
  have heq : ∀ x ∈ t.select fun x => decide (key x = k), x = r := by
    intro x hx
    obtain ⟨hx, hk⟩ := mem_select.mp hx
    exact eq_of_key_eq hx (mem_of_get h) ((of_decide_eq_true hk).trans (key_of_get h).symm)
  have hnodup : (t.select fun x => decide (key x = k)).Nodup := (t.nodup.of_map key).filter _
  obtain ⟨x, l, hl⟩ := List.exists_cons_of_ne_nil (List.ne_nil_of_mem hmem)
  rw [hl] at heq hnodup ⊢
  obtain rfl := heq x List.mem_cons_self
  have hnil : l = [] := by
    rw [List.eq_nil_iff_forall_not_mem]
    intro y hy
    obtain rfl := heq y (List.mem_cons_of_mem _ hy)
    exact (List.nodup_cons.mp hnodup).1 hy
  rw [hnil]

/-- `INSERT` of a row whose key is free. -/
def insert (t : Table key) (r : R) (h : t.get (key r) = none) : Table key :=
  ⟨r :: t.rows, by
    rw [List.map_cons, List.nodup_cons]
    refine ⟨?_, t.nodup⟩
    rw [List.mem_map]
    rintro ⟨x, hx, hk⟩
    exact get_eq_none.mp h x hx hk⟩

theorem get_insert (h : t.get (key r) = none) :
    (t.insert r h).get k = if key r = k then some r else t.get k := by
  simp only [get, insert, List.find?_cons]
  by_cases hk : key r = k <;> simp [hk]

@[simp] theorem mem_insert {h : t.get (key r) = none} :
    r' ∈ (t.insert r h).rows ↔ r' = r ∨ r' ∈ t.rows := by
  simp [insert]

/-- `INSERT … ON CONFLICT (key) DO NOTHING`. -/
def insertNew (t : Table key) (r : R) : Table key :=
  if h : t.get (key r) = none then t.insert r h else t

theorem get_insertNew : (t.insertNew r).get k =
    if key r = k then (t.get k).or (some r) else t.get k := by
  unfold insertNew
  split
  · next h =>
    rw [get_insert]
    split
    · next hk => rw [← hk, h, Option.none_or]
    · rfl
  · next h =>
    split
    · next hk =>
      obtain ⟨x, hx⟩ := Option.ne_none_iff_exists'.mp h
      rw [← hk, hx, Option.some_or]
    · rfl

/-- `INSERT … ON CONFLICT (key) DO UPDATE SET f`. -/
def upsert (t : Table key) (r : R) (f : R → R) (hf : ∀ r, key (f r) = key r) : Table key :=
  if h : t.get (key r) = none then t.insert r h
  else t.update (fun x => decide (key x = key r)) f hf

theorem mem_upsert (hf : ∀ r, key (f r) = key r) (h : r' ∈ (t.upsert r f hf).rows) :
    r' = r ∨ r' ∈ t.rows ∨ ∃ x ∈ t.rows, key x = key r ∧ r' = f x := by
  unfold upsert at h
  split at h
  · rcases mem_insert.mp h with h | h
    · exact Or.inl h
    · exact Or.inr (Or.inl h)
  · obtain ⟨x, hx, rfl⟩ := (mem_update hf).mp h
    by_cases hk : key x = key r
    · exact Or.inr (Or.inr ⟨x, hx, hk, by simp [hk]⟩)
    · exact Or.inr (Or.inl (by simpa [hk] using hx))

theorem get_upsert_self (hf : ∀ r, key (f r) = key r) :
    (t.upsert r f hf).get (key r) = some (((t.get (key r)).map f).getD r) := by
  unfold upsert
  split
  · next h => simp [get_insert, h]
  · next h =>
    obtain ⟨x, hx⟩ := Option.ne_none_iff_exists'.mp h
    have hk := key_of_get hx
    simp [get_update, hx, hk]

theorem get_upsert_ne (hf : ∀ r, key (f r) = key r) (hk : key r ≠ k) :
    (t.upsert r f hf).get k = t.get k := by
  unfold upsert
  split
  · simp [get_insert, hk]
  · rw [get_update]
    cases h : t.get k with
    | none => rfl
    | some x =>
      have hx := key_of_get h
      have : key x ≠ key r := fun e => hk (e.symm.trans hx)
      simp [this]

end Keyed
end Table

/-- A map: a table of pairs keyed by the first component. -/
abbrev Dict (K V : Type*) := Table (Prod.fst : K × V → K)

namespace Dict
variable {K V : Type*} [DecidableEq K] [Inhabited V] {m : Dict K V} {k k' : K} {v : V}

/-- Indexing: the zero value where the key is absent. -/
def index (m : Dict K V) (k : K) : V := ((m.get k).map Prod.snd).getD default

def set (m : Dict K V) (k : K) (v : V) : Dict K V :=
  m.upsert (k, v) (fun x => (x.1, v)) fun _ => rfl

@[simp] theorem index_empty : index (Table.empty : Dict K V) k = default := rfl

theorem index_of_get (h : m.get k = some (k', v)) : m.index k = v := by
  rw [index, h]
  rfl

theorem index_of_get_none (h : m.get k = none) : m.index k = default := by
  rw [index, h]
  rfl

omit [Inhabited V] in
theorem mem_rows {x : K × V} : x ∈ m.rows ↔ (m.get x.1).map Prod.snd = some x.2 := by
  rw [Option.map_eq_some_iff]
  constructor
  · exact fun h => ⟨x, Table.get_of_mem h, rfl⟩
  · rintro ⟨y, hy, hsnd⟩
    obtain ⟨hmem, hkey⟩ := Table.get_eq_some.mp hy
    rwa [← Prod.ext hkey hsnd]

omit [Inhabited V] in
@[simp] theorem get_set_self : (m.set k v).get k = some (k, v) := by
  have h : (m.set k v).get k = some _ := Table.get_upsert_self _
  rw [h]
  cases hget : m.get k with
  | none => rfl
  | some x => simp [← (Table.key_of_get hget : x.1 = k)]

omit [Inhabited V] in
theorem get_set_ne (h : k ≠ k') : (m.set k v).get k' = m.get k' := Table.get_upsert_ne _ h

@[simp] theorem index_set_self : (m.set k v).index k = v := index_of_get get_set_self

theorem index_set_ne (h : k ≠ k') : (m.set k v).index k' = m.index k' := by
  rw [index, index, get_set_ne h]

omit [Inhabited V] in
theorem get_set_isSome : ((m.set k v).get k').isSome = ((m.get k').isSome || decide (k = k')) := by
  by_cases hk : k = k'
  · subst hk
    simp
  · simp [get_set_ne hk, hk]

/-- A property of all entries survives a new one that has it. -/
theorem forall_set {P : K → V → Prop} (h : ∀ k, (m.get k).isSome = true → P k (m.index k))
    (hv : P k v) (hk' : ((m.set k v).get k').isSome = true) : P k' ((m.set k v).index k') := by
  by_cases hk : k = k'
  · subst hk
    rwa [index_set_self]
  · rw [index_set_ne hk]
    apply h
    simpa [get_set_isSome, hk] using hk'

/-- Two maps filled from related entries under the same keys have related values. -/
theorem index_foldl_set_rel {X Y : Type*} {r : V → V → Prop} {l : List X} {l' : List Y}
    {f : X → K} {f' : Y → K} {g : X → V} {g' : Y → V} {m m' : Dict K V}
    (h : List.Forall₂ (fun x y => f x = f' y ∧ r (g x) (g' y)) l l')
    (hm : r (m.index k) (m'.index k)) :
    r ((l.foldl (fun m x => m.set (f x) (g x)) m).index k)
      ((l'.foldl (fun m y => m.set (f' y) (g' y)) m').index k) := by
  induction h generalizing m m' with
  | nil => exact hm
  | @cons x y l l' hxy hrest ih =>
    rw [List.foldl_cons, List.foldl_cons]
    apply ih
    obtain ⟨hkey, hval⟩ := hxy
    by_cases hk : f x = k
    · have hk' : f' y = k := hkey.symm.trans hk
      rw [hk, hk', index_set_self, index_set_self]
      exact hval
    · have hk' : f' y ≠ k := fun e => hk (hkey.trans e)
      rw [index_set_ne hk, index_set_ne hk']
      exact hm

section Fill
variable {X : Type*} {l : List X} {f : X → K} {g : X → V} {x : X}

theorem index_foldl_set_of_notMem (h : ∀ x ∈ l, f x ≠ k) :
    (l.foldl (fun m x => m.set (f x) (g x)) m).index k = m.index k := by
  induction l generalizing m with
  | nil => rfl
  | cons x l ih =>
    rw [List.foldl_cons, ih fun y hy => h y (List.mem_cons_of_mem x hy)]
    exact index_set_ne (h x (by simp))

/-- A map filled from entries under distinct keys holds each entry's value. -/
theorem index_foldl_set_of_mem (hkeys : (l.map f).Nodup) (hx : x ∈ l) :
    (l.foldl (fun m x => m.set (f x) (g x)) m).index (f x) = g x := by
  induction l generalizing m with
  | nil => cases hx
  | cons y l ih =>
    obtain ⟨hy, hl⟩ := List.nodup_cons.mp hkeys
    rw [List.foldl_cons]
    rcases List.mem_cons.mp hx with rfl | hx
    · rw [index_foldl_set_of_notMem, index_set_self]
      exact fun z hz he => hy (List.mem_map.mpr ⟨z, hz, he⟩)
    · exact ih hl hx

omit [Inhabited V] in
theorem get_foldl_set_isSome : ((l.foldl (fun m x => m.set (f x) (g x)) m).get k).isSome = true ↔
    (m.get k).isSome = true ∨ ∃ x ∈ l, f x = k := by
  induction l generalizing m with
  | nil => simp
  | cons x l ih => simp [ih, get_set_isSome, or_assoc]

end Fill

/-- The entries of another map under the keys that are absent. -/
def merge (m m' : Dict K V) : Dict K V := m'.rows.foldl Table.insertNew m

omit [Inhabited V] in
theorem get_foldl_insertNew (rows : List (K × V)) : (rows.foldl Table.insertNew m).get k =
    (m.get k).or (rows.find? fun r => decide (r.1 = k)) := by
  induction rows generalizing m with
  | nil => rw [List.foldl_nil, List.find?_nil, Option.or_none]
  | cons r rows ih =>
    rw [List.foldl_cons, ih, Table.get_insertNew, List.find?_cons]
    by_cases hk : r.1 = k
    · rw [if_pos hk, decide_eq_true hk, Option.or_assoc, Option.some_or]
    · rw [if_neg hk, decide_eq_false hk]

omit [Inhabited V] in
@[simp] theorem get_merge (m m' : Dict K V) : (m.merge m').get k = (m.get k).or (m'.get k) :=
  get_foldl_insertNew m'.rows

end Dict
