import Kubeast.Foundation.JsonParser
import Kubeast.Foundation.JsonStrings
import Kubeast.Foundation.Sorted
import Mathlib.Data.String.Basic
import Kubeast.Foundation.Keyed

/-! What JSON texts are decoded to, a number keeping its text, and the order of members. -/
namespace Json
open Symbols Sorted

structure Number where
  text : List Char
  valid : isNumber text = true

inductive Data
  | null
  | bool (b : Bool)
  | num (n : Number)
  | str (s : String)
  | arr (items : List Data)
  | obj (members : List (String × Data))

section Numbers
variable {s : List Char}

theorem isScalarChar_of_digit {c : Char} (h : isDigitChar c = true) : isScalarChar c = true := by
  simp [isScalarChar, h]

theorem isDigits_scalar (h : isDigits s = true) : s.all isScalarChar = true := by
  have hall : ∀ c ∈ s, isDigitChar c = true := by simpa [isDigits] using (Bool.and_eq_true_iff.mp h).2
  rw [List.all_eq_true]
  exact fun c hc => isScalarChar_of_digit (hall c hc)

theorem isExponent_scalar (h : isExponent s = true) : s.all isScalarChar = true := by
  cases s with
  | nil => rfl
  | cons e s =>
    rw [isExponent.eq_def, Bool.and_eq_true] at h
    obtain ⟨he, hs⟩ := h
    have he' : isScalarChar e = true := by
      simp only [Bool.or_eq_true, decide_eq_true_eq] at he
      rcases he with rfl | rfl <;> decide
    cases s with
    | nil => simp [he']
    | cons c t =>
      dsimp only at hs
      rw [List.all_cons, he', Bool.true_and]
      split at hs
      · next hsign =>
        have hc : isScalarChar c = true := by rcases hsign with rfl | rfl <;> decide
        rw [List.all_cons, hc, isDigits_scalar hs]
        rfl
      · exact isDigits_scalar hs

theorem isFraction_scalar (h : isFraction s = true) : s.all isScalarChar = true := by
  unfold isFraction at h
  split at h
  · next s =>
    rw [Bool.and_eq_true] at h
    have hdot : isScalarChar '.' = true := by decide
    rw [List.all_cons, hdot, Bool.true_and,
      ← List.takeWhile_append_dropWhile (p := isDigitChar) (l := s), List.all_append,
      isDigits_scalar h.1, isExponent_scalar h.2]
    rfl
  · exact isExponent_scalar h

theorem isNumber_scalar (h : isNumber s = true) : s.all isScalarChar = true := by
  have hrest : ∀ t : List Char, isFraction (t.dropWhile isDigitChar) = true →
      t.all isScalarChar = true := by
    intro t ht
    have htake : (t.takeWhile isDigitChar).all isScalarChar = true := by
      rw [List.all_eq_true]
      exact fun c hc => isScalarChar_of_digit (List.mem_takeWhile_imp hc)
    rw [← List.takeWhile_append_dropWhile (p := isDigitChar) (l := t), List.all_append, htake,
      isFraction_scalar ht]
    rfl
  unfold isNumber at h
  dsimp only at h
  rw [Bool.and_eq_true] at h
  have hall := hrest _ h.2
  split at hall
  · next hminus =>
    have hchar : isScalarChar '-' = true := by decide
    rw [← List.cons_head?_tail hminus, List.all_cons, hchar, hall]
    rfl
  · exact hall

def Number.scalar (n : Number) : Scalar Char := ⟨n.text, by
  rw [map_char_self, isScalar, isNumber_scalar n.valid, n.valid]
  rfl⟩

end Numbers

namespace Data

/-- Induction over what a value is made of. -/
@[elab_as_elim]
theorem nested {P : Data → Prop} (null : P null) (bool : ∀ b, P (bool b)) (num : ∀ n, P (num n))
    (str : ∀ s, P (str s)) (arr : ∀ items, (∀ d ∈ items, P d) → P (arr items))
    (obj : ∀ ms, (∀ m ∈ ms, P m.2) → P (obj ms)) (d : Data) : P d :=
  d.rec null bool num str arr obj (fun _ hd => absurd hd List.not_mem_nil)
    (fun _ _ hd hds => List.forall_mem_cons.mpr ⟨hd, hds⟩) (fun _ hm => absurd hm List.not_mem_nil)
    (fun _ _ hm hms => List.forall_mem_cons.mpr ⟨hm, hms⟩) fun _ _ hd => hd

mutual

/-- No object holds a key twice. -/
def Distinct : Data → Prop
  | null | bool _ | num _ | str _ => True
  | arr items => DistinctItems items
  | obj ms => (ms.map Prod.fst).Nodup ∧ DistinctMembers ms

def DistinctItems : List Data → Prop
  | [] => True
  | d :: ds => Distinct d ∧ DistinctItems ds

def DistinctMembers : List (String × Data) → Prop
  | [] => True
  | (_, d) :: ms => Distinct d ∧ DistinctMembers ms

end

mutual

/-- How deep objects and arrays are nested. -/
def depth : Data → ℕ
  | null | bool _ | num _ | str _ => 0
  | arr items => depthItems items + 1
  | obj ms => depthMembers ms + 1

def depthItems : List Data → ℕ
  | [] => 0
  | d :: ds => max d.depth (depthItems ds)

def depthMembers : List (String × Data) → ℕ
  | [] => 0
  | (_, d) :: ms => max d.depth (depthMembers ms)

end

mutual

/-- The members of every object in the order of their keys. -/
def sorted : Data → Data
  | null => null
  | bool b => bool b
  | num n => num n
  | str s => str s
  | arr items => arr (sortedItems items)
  | obj ms => obj (sortBy Prod.fst (sortedMembers ms))

def sortedItems : List Data → List Data
  | [] => []
  | d :: ds => d.sorted :: sortedItems ds

def sortedMembers : List (String × Data) → List (String × Data)
  | [] => []
  | (k, d) :: ms => (k, d.sorted) :: sortedMembers ms

end

/-- The same JSON value: the order in which an object lists its members does not count. -/
def Same (d d' : Data) : Prop := d.sorted = d'.sorted

section Members
variable {ds : List Data} {ms : List (String × Data)}

theorem distinctItems_iff : DistinctItems ds ↔ ∀ d ∈ ds, Distinct d := by
  induction ds with
  | nil => simp [DistinctItems]
  | cons d ds ih => simp [DistinctItems, ih]

theorem distinctMembers_iff : DistinctMembers ms ↔ ∀ m ∈ ms, Distinct m.2 := by
  induction ms with
  | nil => simp [DistinctMembers]
  | cons m ms ih => simp [DistinctMembers, ih]

theorem sortedItems_eq (ds : List Data) : sortedItems ds = ds.map sorted := by
  induction ds with
  | nil => rfl
  | cons d ds ih => rw [sortedItems, ih, List.map_cons]

theorem sortedMembers_eq (ms : List (String × Data)) :
    sortedMembers ms = ms.map fun m => (m.1, m.2.sorted) := by
  induction ms with
  | nil => rfl
  | cons m ms ih => rw [sortedMembers, ih, List.map_cons]

/-- Sorting by key goes through a change of the values. -/
theorem sortBy_map {α β : Type*} (f : α → β) (l : List (String × α)) :
    sortBy Prod.fst (l.map fun m => (m.1, f m.2)) = (sortBy Prod.fst l).map fun m => (m.1, f m.2) := by
  have hmap := List.map_insertionSort (fun a b : String × α => a.1 ≤ b.1)
    (fun a b : String × β => a.1 ≤ b.1) (fun m => (m.1, f m.2)) l fun _ _ _ _ => Iff.rfl
  exact hmap.symm

theorem keys_sortBy {α : Type*} (l : List (String × α)) :
    (sortBy Prod.fst l).map Prod.fst = (l.map Prod.fst).insertionSort (· ≤ ·) := by
  rw [sortBy]
  exact List.map_insertionSort _ _ _ _ fun _ _ _ _ => Iff.rfl

theorem Distinct.sorted {d : Data} (h : d.Distinct) : d.sorted.Distinct := by
  induction d using nested with
  | null | bool _ | num _ | str _ => trivial
  | arr items ih =>
    have hitems := distinctItems_iff.mp h
    rw [Data.sorted, Distinct, sortedItems_eq, distinctItems_iff]
    intro d hd
    obtain ⟨x, hx, rfl⟩ := List.mem_map.mp hd
    exact ih x hx (hitems x hx)
  | obj ms ih =>
    obtain ⟨hkeys, hms⟩ := h
    rw [distinctMembers_iff] at hms
    rw [Data.sorted, Distinct, sortedMembers_eq, distinctMembers_iff]
    constructor
    · have hperm := (perm_sortBy Prod.fst (ms.map fun m => (m.1, m.2.sorted))).map Prod.fst
      rw [hperm.nodup_iff, List.map_map]
      exact hkeys
    · intro m hm
      obtain ⟨m, hm', rfl⟩ := List.mem_map.mp (mem_sortBy.mp hm)
      exact ih m hm' (hms m hm')

end Members

end Data

section Decode

/-- What is left of members assigned to a map one after the other. -/
def lastOfEach {α : Type*} : List (String × α) → List (String × α)
  | [] => []
  | m :: ms => if ms.any fun n => n.1 = m.1 then lastOfEach ms else m :: lastOfEach ms

theorem lastOfEach_of_nodup {α : Type*} {ms : List (String × α)} (h : (ms.map Prod.fst).Nodup) :
    lastOfEach ms = ms := by
  induction ms with
  | nil => rfl
  | cons m ms ih =>
    obtain ⟨hm, hms⟩ := List.nodup_cons.mp h
    have hnone : (ms.any fun n => n.1 = m.1) = false := by
      rw [List.any_eq_false]
      intro n hn heq
      exact hm (of_decide_eq_true heq ▸ List.mem_map_of_mem hn)
    rw [lastOfEach, hnone, ih hms]
    rfl

def nullText : List Char := "null".toList

def boolText (b : Bool) : List Char := (if b then "true" else "false").toList

def Scalar.data (t : Scalar Char) : Data :=
  if h : isNumber t.text = true then .num ⟨t.text, h⟩
  else if t.text = nullText then .null else .bool (t.text = boolText true)

mutual

/-- Decoding with `UseNumber`. -/
def Node.data : Node Char → Data
  | .scalar t => t.data
  | .str b => .str (String.ofList b.decoded)
  | .emptyArr _ => .arr []
  | .arr es => .arr es.data
  | .emptyObj _ => .obj []
  | .obj ms => .obj (lastOfEach ms.data)

def Elems.data : Elems Char → List Data
  | .one _ v _ => [v.data]
  | .cons _ v _ rest => v.data :: rest.data

def Members.data : Members Char → List (String × Data)
  | .one _ key _ _ v _ => [(String.ofList key.decoded, v.data)]
  | .cons _ key _ _ v _ rest => (String.ofList key.decoded, v.data) :: rest.data

end

/-- The value of a text; none where the text is no JSON text or too deep. -/
def decode (s : List Char) : Option Data :=
  (parse s).bind fun d => if d.value.depth ≤ maxNestingDepth then some d.value.data else none

end Decode

end Json

/-! When two decoded values are the same: their items one by one, and their members key by key. -/
namespace Json
open Sorted

namespace Data

mutual

def beq : Data → Data → Bool
  | null, null => true
  | bool b, bool b' => decide (b = b')
  | num n, num n' => decide (n.text = n'.text)
  | str s, str s' => decide (s = s')
  | arr items, arr items' => beqItems items items'
  | obj ms, obj ms' => beqMembers ms ms'
  | _, _ => false

def beqItems : List Data → List Data → Bool
  | [], [] => true
  | d :: ds, e :: es => beq d e && beqItems ds es
  | _, _ => false

def beqMembers : List (String × Data) → List (String × Data) → Bool
  | [], [] => true
  | (k, d) :: ms, (l, e) :: ns => decide (k = l) && beq d e && beqMembers ms ns
  | _, _ => false

end

mutual

theorem beq_iff : ∀ {d e : Data}, beq d e = true ↔ d = e
  | null, e => by cases e <;> simp [beq]
  | bool b, e => by cases e <;> simp [beq]
  | num ⟨t, h⟩, e => by
    cases e with
    | num n =>
      obtain ⟨t', h'⟩ := n
      simp [beq]
    | _ => simp [beq]
  | str s, e => by cases e <;> simp [beq]
  | arr items, e => by cases e <;> simp [beq, beqItems_iff]
  | obj ms, e => by cases e <;> simp [beq, beqMembers_iff]

theorem beqItems_iff : ∀ {ds es : List Data}, beqItems ds es = true ↔ ds = es
  | [], es => by cases es <;> simp [beqItems]
  | d :: ds, es => by cases es <;> simp [beqItems, beq_iff, beqItems_iff]

theorem beqMembers_iff : ∀ {ms ns : List (String × Data)}, beqMembers ms ns = true ↔ ms = ns
  | [], ns => by cases ns <;> simp [beqMembers]
  | (k, d) :: ms, ns => by
    cases ns <;> simp [beqMembers, beq_iff, beqMembers_iff, Prod.ext_iff]

end

instance : DecidableEq Data := fun _ _ => decidable_of_iff _ beq_iff

/-- `reflect.DeepEqual` of decoded values: a map has no order. -/
def deepEqual (d e : Data) : Bool := decide (d.sorted = e.sorted)

theorem deepEqual_iff {d e : Data} : deepEqual d e = true ↔ Same d e := decide_eq_true_iff

section Members
variable {ms ns : List (String × Data)} {ds es : List Data}

theorem same_arr : Same (arr ds) (arr es) ↔ ds.map sorted = es.map sorted := by
  rw [Same, sorted, sorted, sortedItems_eq, sortedItems_eq, arr.injEq]

/-- Members of distinct keys are the same where every key has the same value, or none, in both. -/
theorem same_obj (hms : (ms.map Prod.fst).Nodup) (hns : (ns.map Prod.fst).Nodup) :
    Same (obj ms) (obj ns) ↔ ∀ k, (ms.lookup k).map sorted = (ns.lookup k).map sorted := by
  have hkeys {ms : List (String × Data)} (h : (ms.map Prod.fst).Nodup) :
      ((ms.map fun m => (m.1, m.2.sorted)).map Prod.fst).Nodup := by
    rwa [List.map_map]
  have hmem {ms : List (String × Data)} (h : (ms.map Prod.fst).Nodup) (m : String × Data) :
      m ∈ sortBy Prod.fst (ms.map fun m => (m.1, m.2.sorted)) ↔ (ms.lookup m.1).map sorted = some m.2 := by
    rw [mem_sortBy, ← Keyed.lookup_map, ← Keyed.mem_iff_lookup (hkeys h)]
  rw [Same, sorted, sorted, sortedMembers_eq, sortedMembers_eq, obj.injEq]
  constructor
  · intro h k
    refine Option.ext fun d => ?_
    exact (hmem hms (k, d)).symm.trans (h ▸ hmem hns (k, d))
  · intro h
    refine Increasing.ext (increasing_sortBy (hkeys hms)) (increasing_sortBy (hkeys hns)) fun m => ?_
    rw [hmem hms, hmem hns, h]

end Members
end Data
end Json
