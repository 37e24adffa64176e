import Kubeast.Foundation.Table
import Kubeast.Foundation.Transition
import Mathlib.Data.List.Permutation

/-! A list on the screen (`frontend/src/services/useKubeWatchList.ts`, `applyRowEvent.ts`): the rows
that list answers and the frames of a watch write, beside the cluster's objects. -/
namespace Kubeast.WatchList
open Transition

/-- An object at one version. No name holds a slash. -/
structure Obj where
  ns : String
  name : String
  version : ℕ
  named : name ≠ ""
  plainNs : '/' ∉ ns.toList
  plainName : '/' ∉ name.toList

instance : DecidableEq Obj := fun x y =>
  decidable_of_iff (x.ns = y.ns ∧ x.name = y.name ∧ x.version = y.version) (by
    cases x
    cases y
    simp)

def Obj.key (o : Obj) : String × String := (o.ns, o.name)

def Obj.stamped (o : Obj) (version : ℕ) : Obj := { o with version := version }

/-- The cluster's objects after one is made or changed. -/
def write (objects : Table Obj.key) (o : Obj) : Table Obj.key :=
  objects.upsert o (fun x => if x.key = o.key then o else x) fun x => by split <;> simp_all

/-- The key `applyWatchEvent` compares. -/
def rowKey (o : Obj) : String := if o.ns ≠ "" then o.ns ++ "/" ++ o.name else o.name

inductive EventType
  | added
  | modified
  | deleted
deriving DecidableEq

inductive Frame
  | data (type : EventType) (o : Obj)
  | resync
deriving DecidableEq

/-- What an event does to the rows, by which row it takes for its own. -/
def applyEvent (same : Obj → Obj → Bool) (items : List Obj) (type : EventType) (o : Obj) : List Obj :=
  match type, items.findIdx? fun item => same item o with
  | .deleted, some i => items.eraseIdx i
  | .deleted, none => items
  | _, some i => items.set i o
  | _, none => items ++ [o]

def applyWatchEvent : List Obj → EventType → Obj → List Obj :=
  applyEvent fun item o => rowKey item = rowKey o

def applyRowEvent : List Obj → EventType → Obj → List Obj :=
  applyEvent fun item o => item.name = o.name && item.ns = o.ns

/-- Which of the two a page gives its list. -/
inductive Applies
  | watchEvent
  | rowEvent

def Applies.apply : Applies → List Obj → EventType → Obj → List Obj
  | .watchEvent => applyWatchEvent
  | .rowEvent => applyRowEvent

/-- The watch of the open socket: asked for, started, or started over and not on again yet. -/
inductive Watch
  | requested
  | on
  | lapsed
deriving DecidableEq

/-- The objects of the cluster, what is on its way to the list, and the list. A list request in
flight holds what the server has answered, if it has. -/
structure State where
  version : ℕ
  objects : Table Obj.key
  socket : Bool
  watch : Watch
  wire : List Frame
  lists : List (Option (List Obj))
  rows : Option (List Obj)

/-- The first list request is in flight, and no watch has started. -/
def State.start (version : ℕ) (objects : Table Obj.key) : State :=
  ⟨version, objects, true, .requested, [], [none], none⟩

inductive Step
  | put (o : Obj)
  | remove (key : String × String)
  | list
  | read (i : ℕ)
  | answer (i : ℕ)
  /-- The watch starts, and sends the objects there are in some order. -/
  | watch (order : List Obj)
  | lapse
  | resync
  | deliver
  | close
  | reopen

namespace State

/-- What a watch that is on sends of a change. -/
def send (s : State) (f : Frame) : State :=
  if s.socket = true ∧ s.watch = .on then { s with wire := s.wire ++ [f] } else s

def put (s : State) (o : Obj) : State :=
  { s with version := s.version + 1, objects := write s.objects (o.stamped (s.version + 1)) }.send
    (.data (if s.objects.get o.key = none then .added else .modified) (o.stamped (s.version + 1)))

def remove (s : State) (key : String × String) : State :=
  match s.objects.get key with
  | none => s
  | some o =>
      { s with
        version := s.version + 1
        objects := s.objects.delete fun x => x.key = key }.send (.data .deleted o)

def startWatch (s : State) (order : List Obj) : State :=
  if s.socket = true ∧ order.isPerm s.objects.rows = true then
    match s.watch with
    | .requested => { s with watch := .on, wire := s.wire ++ order.map (Frame.data .added) }
    | .lapsed => { s with watch := .on, wire := s.wire ++ .resync :: order.map (Frame.data .added) }
    | .on => s
  else s

/-- `applyWatchMessage`. -/
def receive (kind : Applies) (s : State) : Frame → State
  | .resync => { s with lists := s.lists ++ [none] }
  | .data type o => { s with rows := s.rows.map fun prev => kind.apply prev type o }

end State

def step (kind : Applies) (s : State) : Step → State
  | .put o => s.put o
  | .remove key => s.remove key
  | .list => { s with lists := s.lists ++ [none] }
  | .read i =>
      if s.lists[i]? = some none then { s with lists := s.lists.set i (some s.objects.rows) } else s
  | .answer i =>
      match s.lists[i]? with
      | some (some items) => { s with rows := some items, lists := s.lists.eraseIdx i }
      | _ => s
  | .watch order => s.startWatch order
  | .lapse => if s.watch = .on then { s with watch := .lapsed } else s
  | .resync => s.send .resync
  | .deliver =>
      match s.wire with
      | [] => s
      | f :: wire => { s with wire := wire }.receive kind f
  | .close => { s with socket := false, watch := .requested, wire := [] }
  | .reopen => { s with socket := true }

/-- Everything sent is delivered, no list request is in flight, and the watch is on. -/
structure State.Settled (s : State) : Prop where
  socket : s.socket = true
  watch : s.watch = .on
  wire : s.wire = []
  lists : s.lists = []

/-- The rows are the objects, each key once. -/
def State.Shows (s : State) : Prop :=
  ∃ rows, s.rows = some rows ∧ (rows.map Obj.key).Nodup ∧ ∀ o, o ∈ rows ↔ o ∈ s.objects.rows

end Kubeast.WatchList

/-! What events leave of the rows and of the objects on the wire. -/
namespace Kubeast.WatchList

variable {kind : Applies} {o x : Obj} {k : String × String} {f : Frame}
  {wire pre post : List Frame} {items rows : List Obj} {type : EventType}

/-- The row of a key. -/
def lookup (rows : List Obj) (k : String × String) : Option Obj := rows.find? fun x => x.key = k

/-- What a frame leaves of an object: the object, or nothing. -/
def outcome (type : EventType) (o : Obj) : Option Obj := if type = .deleted then none else some o

section Rows

theorem takeWhile_slash {s t : List Char} (h : '/' ∉ s) : (s ++ '/' :: t).takeWhile (· ≠ '/') = s := by
  have hall : ∀ c ∈ s, decide (c ≠ '/') = true := by
    intro c hc
    rw [decide_eq_true_eq]
    rintro rfl
    exact h hc
  rw [List.takeWhile_append_of_pos hall]
  simp

theorem rowKey_inj (h : rowKey o = rowKey x) : o.key = x.key := by
  have hslash (y : Obj) (hy : y.ns ≠ "") : '/' ∈ (rowKey y).toList := by simp [rowKey, hy]
  have hplain (y : Obj) (hy : y.ns = "") : '/' ∉ (rowKey y).toList := by
    simpa [rowKey, hy] using y.plainName
  have hsplit (y : Obj) (hy : y.ns ≠ "") :
      (rowKey y).toList = y.ns.toList ++ '/' :: y.name.toList := by simp [rowKey, hy]
  by_cases ho : o.ns = "" <;> by_cases hx : x.ns = ""
  · have hname : o.name = x.name := by simpa [rowKey, ho, hx] using h
    exact Prod.ext (ho.trans hx.symm) hname
  · exact absurd (h ▸ hslash x hx) (hplain o ho)
  · exact absurd (h ▸ hslash o ho) (hplain x hx)
  · have hlist : o.ns.toList ++ '/' :: o.name.toList = x.ns.toList ++ '/' :: x.name.toList := by
      rw [← hsplit o ho, ← hsplit x hx, h]
    have hns : o.ns.toList = x.ns.toList := by
      rw [← takeWhile_slash (t := o.name.toList) o.plainNs, hlist, takeWhile_slash x.plainNs]
    rw [hns] at hlist
    have hname : o.name.toList = x.name.toList := (List.cons.inj (List.append_cancel_left hlist)).2
    exact Prod.ext (String.toList_inj.mp hns) (String.toList_inj.mp hname)

theorem rowKey_eq_iff : rowKey o = rowKey x ↔ o.key = x.key := by
  refine ⟨rowKey_inj, fun h => ?_⟩
  obtain ⟨hns, hname⟩ := Prod.mk.inj h
  rw [rowKey, rowKey, hns, hname]

/-- Both ways to take a row for an event's own compare the name and the namespace. -/
theorem apply_eq (kind : Applies) (items : List Obj) (type : EventType) (o : Obj) :
    kind.apply items type o = applyEvent (fun item o => decide (item.key = o.key)) items type o := by
  cases kind with
  | watchEvent => simp only [Applies.apply, applyWatchEvent, applyEvent, rowKey_eq_iff]
  | rowEvent =>
    have hsame : (fun item o : Obj => decide (item.name = o.name) && decide (item.ns = o.ns)) =
        fun item o => decide (item.key = o.key) := by
      funext item o
      rw [Bool.eq_iff_iff]
      simp [Obj.key, and_comm]
    rw [Applies.apply, applyRowEvent, hsame]

theorem lookup_eq_some (hrows : (rows.map Obj.key).Nodup) : lookup rows k = some o ↔ o ∈ rows ∧ o.key = k :=
  Table.get_eq_some (t := ⟨rows, hrows⟩)

theorem lookup_cons : lookup (x :: rows) k = if x.key = k then some x else lookup rows k := by
  by_cases h : x.key = k <;> simp [lookup, h]

/-- A row of a key that is not there. -/
theorem lookup_eq_none_of_notMem (h : k ∉ rows.map Obj.key) : lookup rows k = none := by
  rw [lookup, List.find?_eq_none]
  intro x hx hkey
  exact h (List.mem_map.mpr ⟨x, hx, by simpa using hkey⟩)

theorem applyEvent_cons (same : Obj → Obj → Bool) (items : List Obj) :
    applyEvent same (x :: items) type o =
      if same x o then (if type = .deleted then items else o :: items)
      else x :: applyEvent same items type o := by
  by_cases h : same x o
  · cases type <;> simp [applyEvent, List.findIdx?_cons, h]
  · cases hfound : items.findIdx? fun item => same item o <;> cases type <;>
      simp [applyEvent, List.findIdx?_cons, h, hfound]

/-- The keys of the rows after an event. -/
theorem mem_keys_apply (h : k ∈ (kind.apply rows type o).map Obj.key) :
    k ∈ rows.map Obj.key ∨ k = o.key := by
  rw [apply_eq] at h
  induction rows with
  | nil =>
    cases type with
    | deleted => exact Or.inl h
    | added | modified => exact Or.inr (by simpa [applyEvent] using h)
  | cons x rows ih =>
    rw [applyEvent_cons] at h
    split at h
    · split at h
      · exact Or.inl (List.mem_cons_of_mem _ h)
      · rcases List.mem_cons.mp h with h | h
        · exact Or.inr h
        · exact Or.inl (List.mem_cons_of_mem _ h)
    · rcases List.mem_cons.mp h with h | h
      · exact Or.inl (h ▸ List.mem_cons_self)
      · exact (ih h).imp_left (List.mem_cons_of_mem _)

theorem nodup_apply (h : (rows.map Obj.key).Nodup) : ((kind.apply rows type o).map Obj.key).Nodup := by
  induction rows with
  | nil => rw [apply_eq]; cases type <;> simp [applyEvent]
  | cons x rows ih =>
    obtain ⟨hx, hrows⟩ := List.nodup_cons.mp h
    have hrest := ih hrows
    have hkeys : x.key ∈ (kind.apply rows type o).map Obj.key → x.key ∈ rows.map Obj.key ∨ x.key = o.key :=
      mem_keys_apply
    rw [apply_eq] at hrest hkeys ⊢
    rw [applyEvent_cons]
    split
    · next hsame =>
      split
      · exact hrows
      · have hkey : x.key = o.key := of_decide_eq_true hsame
        exact List.nodup_cons.mpr ⟨hkey ▸ hx, hrows⟩
    · next hsame =>
      refine List.nodup_cons.mpr ⟨fun hmem => ?_, hrest⟩
      rcases hkeys hmem with hmem | hkey
      · exact hx hmem
      · exact hsame (decide_eq_true hkey)

/-- An event changes the row of its own key alone. -/
theorem lookup_apply (h : (rows.map Obj.key).Nodup) :
    lookup (kind.apply rows type o) k = if o.key = k then outcome type o else lookup rows k := by
  rw [apply_eq]
  induction rows with
  | nil => cases type <;> by_cases hk : o.key = k <;> simp [applyEvent, lookup, outcome, hk]
  | cons x rows ih =>
    obtain ⟨hx, hrows⟩ := List.nodup_cons.mp h
    rw [applyEvent_cons]
    split
    · next hsame =>
      have hkey : x.key = o.key := of_decide_eq_true hsame
      split
      · next htype =>
        rw [lookup_cons, hkey]
        split
        · next hk =>
          rw [lookup_eq_none_of_notMem (hk ▸ hkey ▸ hx), outcome, if_pos htype]
        · rfl
      · next htype =>
        rw [lookup_cons, lookup_cons, hkey, outcome, if_neg htype]
        split <;> rfl
    · next hsame =>
      have hkey : x.key ≠ o.key := fun hkey => hsame (decide_eq_true hkey)
      rw [lookup_cons, lookup_cons, ih hrows]
      by_cases hk : x.key = k
      · rw [if_pos hk, if_pos hk, if_neg fun ho => hkey (hk.trans ho.symm)]
      · rw [if_neg hk, if_neg hk]

end Rows

def Frame.about (k : String × String) : Frame → Option (Option Obj)
  | .data type o => if o.key = k then some (outcome type o) else none
  | .resync => none

/-- What the last frame about an object leaves of it. -/
def lastAbout (k : String × String) : List Frame → Option (Option Obj)
  | [] => none
  | f :: wire => (lastAbout k wire).or (f.about k)

/-- The last frames about objects leave them as they are. -/
def Current (objects : Table Obj.key) (wire : List Frame) : Prop :=
  ∀ k r, lastAbout k wire = some r → r = objects.get k

/-- The frames behind the last RESYNC. -/
def sinceResync : List Frame → List Frame
  | [] => []
  | f :: wire => if .resync ∈ wire then sinceResync wire else if f = .resync then wire else f :: wire

section Wire

attribute [local simp] lastAbout sinceResync

theorem lastAbout_append : lastAbout k (pre ++ post) = (lastAbout k post).or (lastAbout k pre) := by
  induction pre with
  | nil => simp [lastAbout]
  | cons f pre ih => rw [List.cons_append, lastAbout, ih, lastAbout, Option.or_assoc]

theorem lastAbout_snoc : lastAbout k (wire ++ [f]) = (f.about k).or (lastAbout k wire) := by
  rw [lastAbout_append, lastAbout, lastAbout, Option.none_or]

/-- A frame behind the first one is the last about its object all the more. -/
theorem lastAbout_cons_of_some {r : Option Obj} (h : lastAbout k wire = some r) :
    lastAbout k (f :: wire) = some r := by
  rw [lastAbout, h, Option.some_or]

theorem lastAbout_added {order : List Obj} (h : (order.map Obj.key).Nodup) :
    lastAbout k (order.map (Frame.data .added)) = (lookup order k).map some := by
  induction order with
  | nil => rfl
  | cons x order ih =>
    obtain ⟨hx, horder⟩ := List.nodup_cons.mp h
    rw [List.map_cons, lastAbout, ih horder, lookup_cons, Frame.about]
    by_cases hk : x.key = k
    · rw [lookup_eq_none_of_notMem (hk ▸ hx), if_pos hk, if_pos hk]
      rfl
    · rw [if_neg hk, if_neg hk, Option.or_none]

theorem resync_notMem_added (order : List Obj) : .resync ∉ order.map (Frame.data .added) := by simp

theorem sinceResync_of_notMem (h : .resync ∉ wire) : sinceResync wire = wire := by
  cases wire with
  | nil => rfl
  | cons f wire =>
    rw [List.mem_cons, not_or] at h
    rw [sinceResync, if_neg h.2, if_neg (Ne.symm h.1)]

theorem sinceResync_cons_resync : sinceResync (.resync :: wire) = sinceResync wire := by
  rw [sinceResync]
  split
  · rfl
  · next h => rw [if_pos rfl, sinceResync_of_notMem h]

theorem sinceResync_append_resync (h : .resync ∉ post) : sinceResync (pre ++ .resync :: post) = post := by
  induction pre with
  | nil => rw [List.nil_append, sinceResync_cons_resync, sinceResync_of_notMem h]
  | cons f pre ih => rw [List.cons_append, sinceResync, if_pos (by simp), ih]

theorem sinceResync_append (h : .resync ∉ post) : sinceResync (wire ++ post) = sinceResync wire ++ post := by
  induction wire with
  | nil => rw [List.nil_append, sinceResync_of_notMem h, sinceResync, List.nil_append]
  | cons f wire ih =>
    have hiff : .resync ∈ wire ++ post ↔ .resync ∈ wire := by simp [h]
    rw [List.cons_append, sinceResync, sinceResync]
    by_cases hwire : .resync ∈ wire
    · rw [if_pos hwire, if_pos (hiff.mpr hwire), ih]
    · rw [if_neg hwire, if_neg (mt hiff.mp hwire)]
      split <;> simp

/-- The frame that is delivered says nothing that a frame behind it, or a RESYNC, does not say
again. -/
theorem Current.tail {objects : Table Obj.key} (h : Current objects (sinceResync (f :: wire))) :
    Current objects (sinceResync wire) := by
  rw [sinceResync] at h
  split at h
  · exact h
  · next hwire =>
    rw [sinceResync_of_notMem hwire]
    split at h
    · exact h
    · exact fun k r hr => h k r (lastAbout_cons_of_some hr)

/-- A change and the frame about it. -/
theorem Current.snoc {objects objects' : Table Obj.key} (h : Current objects (sinceResync wire))
    (hget : ∀ k, objects'.get k = if o.key = k then outcome type o else objects.get k) :
    Current objects' (sinceResync (wire ++ [Frame.data type o])) := by
  intro k r hr
  rw [sinceResync_append (by simp), lastAbout_snoc, Frame.about] at hr
  rw [hget]
  split at hr
  · next hk => rw [if_pos hk, ← Option.some.inj hr]
  · next hk => rw [if_neg hk, h k r hr]

theorem Current.added {objects : Table Obj.key} {order : List Obj} (h : order.Perm objects.rows) :
    Current objects (order.map (Frame.data .added)) := by
  intro k r hr
  have hnodup : (order.map Obj.key).Nodup := (h.map Obj.key).nodup_iff.mpr objects.nodup
  rw [lastAbout_added hnodup] at hr
  obtain ⟨o, ho, rfl⟩ := Option.map_eq_some_iff.mp hr
  obtain ⟨hmem, hk⟩ := (lookup_eq_some hnodup).mp ho
  exact (Table.get_eq_some.mpr ⟨h.mem_iff.mp hmem, hk⟩).symm

end Wire

end Kubeast.WatchList
