import Mathlib.Data.Rat.Defs
import Mathlib.Data.List.Basic

/-! Values as YAML and JSON decode to: scalars, lists and maps. A key that a map holds twice has
its first value. -/

inductive Value
  | null
  | bool (b : Bool)
  | num (q : ℚ)
  | str (s : String)
  | list (items : List Value)
  | map (members : List (String × Value))

namespace Value

mutual

def beq : Value → Value → Bool
  | null, null => true
  | bool b, bool b' => decide (b = b')
  | num q, num q' => decide (q = q')
  | str s, str s' => decide (s = s')
  | list items, list items' => beqItems items items'
  | map members, map members' => beqMembers members members'
  | _, _ => false

def beqItems : List Value → List Value → Bool
  | [], [] => true
  | v :: vs, w :: ws => beq v w && beqItems vs ws
  | _, _ => false

def beqMembers : List (String × Value) → List (String × Value) → Bool
  | [], [] => true
  | (k, v) :: ms, (l, w) :: ns => decide (k = l) && beq v w && beqMembers ms ns
  | _, _ => false

end

mutual

theorem beq_iff : ∀ {v w : Value}, beq v w = true ↔ v = w
  | null, w => by cases w <;> simp [beq]
  | bool b, w => by cases w <;> simp [beq]
  | num q, w => by cases w <;> simp [beq]
  | str s, w => by cases w <;> simp [beq]
  | list items, w => by cases w <;> simp [beq, beqItems_iff]
  | map members, w => by cases w <;> simp [beq, beqMembers_iff]

theorem beqItems_iff : ∀ {vs ws : List Value}, beqItems vs ws = true ↔ vs = ws
  | [], ws => by cases ws <;> simp [beqItems]
  | v :: vs, ws => by cases ws <;> simp [beqItems, beq_iff, beqItems_iff]

theorem beqMembers_iff : ∀ {ms ns : List (String × Value)}, beqMembers ms ns = true ↔ ms = ns
  | [], ns => by cases ns <;> simp [beqMembers]
  | (k, v) :: ms, ns => by
    cases ns <;> simp [beqMembers, beq_iff, beqMembers_iff, Prod.ext_iff]

end

/-- Induction over what a value is made of. -/
@[elab_as_elim]
theorem nested {P : Value → Prop} (null : P null) (bool : ∀ b, P (bool b)) (num : ∀ q, P (num q))
    (str : ∀ s, P (str s)) (list : ∀ items, (∀ v ∈ items, P v) → P (list items))
    (map : ∀ ms, (∀ m ∈ ms, P m.2) → P (map ms)) (v : Value) : P v :=
  v.rec null bool num str list map (fun _ hv => absurd hv List.not_mem_nil)
    (fun _ _ hv hvs => List.forall_mem_cons.mpr ⟨hv, hvs⟩) (fun _ hm => absurd hm List.not_mem_nil)
    (fun _ _ hm hms => List.forall_mem_cons.mpr ⟨hm, hms⟩) fun _ _ hv => hv

instance : DecidableEq Value := fun _ _ => decidable_of_iff _ beq_iff

instance : Inhabited Value := ⟨null⟩

/-- Indexing a map; nothing but a map has members. -/
def get : Value → String → Option Value
  | map members, k => (members.find? fun m => decide (m.1 = k)).map Prod.snd
  | _, _ => none

/-- The value at a path of keys. -/
def find : Value → List String → Option Value
  | v, [] => some v
  | v, k :: path => (v.get k).bind fun w => w.find path

/-- A member that is there and not null. -/
def member (v : Value) (k : String) : Option Value := (v.get k).filter fun w => w != null

/-- The value at a path along which nothing is null. -/
def memberAt : Value → List String → Option Value
  | v, [] => some v
  | v, k :: path => (v.member k).bind fun w => w.memberAt path

def delete (ms : List (String × Value)) (k : String) : List (String × Value) :=
  ms.filter fun m => m.1 ≠ k

/-- Setting a key of a map. -/
def put (ms : List (String × Value)) (k : String) (v : Value) : List (String × Value) :=
  delete ms k ++ [(k, v)]

/-- A text, or the empty one where the value is not a text. -/
def text : Option Value → String
  | some (str s) => s
  | _ => ""

/-- The members of a map, none where the value is not a map. -/
def members : Option Value → List (String × Value)
  | some (map ms) => ms
  | _ => []

section Maps
variable {ms ms' : List (String × Value)} {k k' : String} {v : Value}

theorem get_cons : (map ((k, v) :: ms)).get k' = if k = k' then some v else (map ms).get k' := by
  simp only [get, List.find?_cons]
  by_cases h : k = k' <;> simp [h]

@[simp] theorem get_nil : (map []).get k = none := rfl

theorem get_append : (map (ms ++ ms')).get k = ((map ms).get k).or ((map ms').get k) := by
  simp only [get, List.find?_append]
  cases ms.find? fun m => decide (m.1 = k) <;> rfl

theorem get_eq_none : (map ms).get k = none ↔ ∀ m ∈ ms, m.1 ≠ k := by
  simp [get]

/-- A member of a map whose keys are distinct. -/
theorem get_of_mem (h : (ms.map Prod.fst).Nodup) {m : String × Value} (hm : m ∈ ms) :
    (map ms).get m.1 = some m.2 := by
  induction ms with
  | nil => cases hm
  | cons m' ms ih =>
    obtain ⟨l, v⟩ := m'
    rw [List.map_cons, List.nodup_cons] at h
    rcases List.mem_cons.mp hm with rfl | hm
    · simp [get_cons]
    · have hne : l ≠ m.1 := fun heq => h.1 (List.mem_map.mpr ⟨m, hm, heq.symm⟩)
      rw [get_cons, if_neg hne, ih h.2 hm]

theorem get_delete_self : (map (delete ms k)).get k = none := by
  rw [get_eq_none]
  intro m hm
  simpa using (List.mem_filter.mp hm).2

theorem get_delete_ne (h : k ≠ k') : (map (delete ms k)).get k' = (map ms).get k' := by
  induction ms with
  | nil => rfl
  | cons m ms ih =>
    obtain ⟨l, w⟩ := m
    rw [get_cons, ← ih]
    by_cases hk : l = k
    · have hne : l ≠ k' := fun e => h (hk.symm.trans e)
      rw [if_neg hne, delete, List.filter_cons_of_neg (by simp [hk])]
      rfl
    · rw [delete, List.filter_cons_of_pos (by simp [hk]), get_cons]
      rfl

theorem get_put_self : (map (put ms k v)).get k = some v := by
  rw [put, get_append, get_delete_self, get_cons, if_pos rfl, Option.none_or]

theorem get_put_ne (h : k ≠ k') : (map (put ms k v)).get k' = (map ms).get k' := by
  rw [put, get_append, get_delete_ne h, get_cons, if_neg h, get_nil, Option.or_none]

end Maps

@[simp] theorem get_null (k : String) : null.get k = none := rfl

theorem isMap_of_get {v w : Value} {k : String} (h : v.get k = some w) : ∃ ms, v = map ms := by
  cases v with
  | map ms => exact ⟨ms, rfl⟩
  | null | bool _ | num _ | str _ | list _ => cases h

theorem member_eq_some {v w : Value} {k : String} :
    v.member k = some w ↔ v.get k = some w ∧ w ≠ null := by
  rw [member, Option.filter_eq_some_iff]
  simp

/-- Where the found value is not null, neither is anything on the way. -/
theorem memberAt_eq_some {v w : Value} {path : List String} (h : v.find path = some w)
    (hw : w ≠ null) : v.memberAt path = some w := by
  induction path generalizing v with
  | nil => exact h
  | cons k path ih =>
    obtain ⟨u, hget, hfind⟩ := Option.bind_eq_some_iff.mp h
    have hu : u ≠ null := by
      rintro rfl
      cases path with
      | nil => exact hw (Option.some.inj hfind).symm
      | cons k' path => simp [find] at hfind
    rw [memberAt, member_eq_some.mpr ⟨hget, hu⟩]
    exact ih hfind

theorem find_of_memberAt {v w : Value} {path : List String} (h : v.memberAt path = some w) :
    v.find path = some w := by
  induction path generalizing v with
  | nil => exact h
  | cons k path ih =>
    obtain ⟨u, hmember, hrest⟩ := Option.bind_eq_some_iff.mp h
    rw [find, (member_eq_some.mp hmember).1]
    exact ih hrest

end Value
