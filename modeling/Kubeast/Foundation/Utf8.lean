import Kubeast.Foundation.Sha256
import Mathlib.Data.List.Basic
import Mathlib.Algebra.Order.Ring.Int

/-! The bytes of strings, and fields of bytes between separators. -/
namespace Utf8

variable {s t : String} {b : UInt8}

def bytes (s : String) : Bytes := s.toByteArray.data.toList

theorem bytes_append (s t : String) : bytes (s ++ t) = bytes s ++ bytes t := by
  rw [bytes, String.toByteArray_append, ByteArray.data_append, Array.toList_append]
  rfl

theorem bytes_injective : Function.Injective bytes := fun _ _ h =>
  String.toByteArray_inj.mp (ByteArray.ext (Array.toList_inj.mp h))

theorem bytes_ofList (l : List Char) :
    bytes (String.ofList l) = l.flatMap String.utf8EncodeChar := by
  rw [bytes, String.toByteArray_ofList, List.utf8Encode, List.data_toByteArray]

theorem bytes_eq (s : String) : bytes s = s.toList.flatMap String.utf8EncodeChar := by
  rw [← bytes_ofList, String.ofList_toList]

/-- The bytes of ASCII characters stand for these characters alone. -/
theorem mem_utf8EncodeChar {c : Char} (hb : b.toNat < 0x80) (h : b ∈ String.utf8EncodeChar c) :
    b.toNat = c.toNat := by
  have hval : c.val.toNat = c.toNat := rfl
  unfold String.utf8EncodeChar at h
  dsimp only at h
  rw [hval] at h
  split_ifs at h with h₁ h₂ h₃
  · obtain rfl := List.mem_singleton.mp h
    rw [UInt8.toNat_ofNat']
    omega
  all_goals
    simp only [List.mem_cons, List.not_mem_nil, or_false] at h
    exfalso
  · rcases h with rfl | rfl <;> rw [UInt8.toNat_ofNat'] at hb <;> omega
  · rcases h with rfl | rfl | rfl <;> rw [UInt8.toNat_ofNat'] at hb <;> omega
  · rcases h with rfl | rfl | rfl | rfl <;> rw [UInt8.toNat_ofNat'] at hb <;> omega

theorem notMem_bytes {c : Char} (hc : c.toNat < 0x80) (h : c ∉ s.toList) :
    UInt8.ofNat c.toNat ∉ bytes s := by
  have hbyte : (UInt8.ofNat c.toNat).toNat = c.toNat := by
    rw [UInt8.toNat_ofNat']
    omega
  rw [bytes_eq, List.mem_flatMap]
  rintro ⟨d, hd, hmem⟩
  have heq := mem_utf8EncodeChar (hbyte.symm ▸ hc) hmem
  rw [hbyte] at heq
  have hcd : c = d := Char.ext (UInt32.toNat_inj.mp heq)
  exact h (hcd ▸ hd)

/-- A text of ASCII characters has one byte for each. -/
theorem bytes_ascii (h : ∀ c ∈ s.toList, c.toNat < 0x80) :
    bytes s = s.toList.map fun c => UInt8.ofNat c.toNat := by
  rw [bytes_eq, ← List.flatMap_singleton' (s.toList.map _), List.flatMap_map]
  apply List.flatMap_congr
  intro c hc
  have hlt : c.val.toNat ≤ 0x7f := Nat.le_of_lt_succ (h c hc)
  simp only [String.utf8EncodeChar, hlt, if_true]
  rfl

end Utf8

namespace Fields

variable {α : Type*} [DecidableEq α] {sep : α} {fields : List (List α)} {l p q : List α}

/-- What stands before the last separator and what stands after it. -/
def splitLast (sep : α) : List α → Option (List α × List α)
  | [] => none
  | a :: l =>
    match splitLast sep l with
    | some (p, q) => some (a :: p, q)
    | none => if a = sep then some ([], l) else none

theorem splitLast_of_notMem (h : sep ∉ q) : splitLast sep q = none := by
  induction q with
  | nil => rfl
  | cons a q ih =>
    rw [List.mem_cons, not_or] at h
    rw [splitLast, ih h.2]
    exact if_neg (Ne.symm h.1)

theorem splitLast_append (h : sep ∉ q) : splitLast sep (p ++ sep :: q) = some (p, q) := by
  induction p with
  | nil =>
    rw [List.nil_append, splitLast, splitLast_of_notMem h]
    exact if_pos rfl
  | cons a p ih => rw [List.cons_append, splitLast, ih]

theorem length_splitOn (l : List α) : (l.splitOn sep).length = l.count sep + 1 := by
  induction l with
  | nil => rfl
  | cons a l ih =>
    rw [List.splitOn_cons_eq_if_modifyHead, List.count_cons]
    split
    · rw [List.length_cons, ih]
    · rw [List.length_modifyHead, ih]

theorem count_intercalate (fields : List (List α)) : ([sep].intercalate fields).count sep + 1 =
    (fields.map (List.count sep)).sum + max fields.length 1 := by
  induction fields with
  | nil => rfl
  | cons f fields ih =>
    cases fields with
    | nil => simp
    | cons g fields =>
      rw [List.intercalate_cons_cons, List.count_append, List.count_append, List.count_singleton_self]
      simp only [List.map_cons, List.sum_cons, List.length_cons] at ih ⊢
      omega

/-- Joined fields that are split into as many hold no separator, and are read back. -/
theorem splitOn_intercalate_of_length (hne : fields ≠ [])
    (hlen : (([sep].intercalate fields).splitOn sep).length = fields.length) :
    ([sep].intercalate fields).splitOn sep = fields := by
  have hpos : 0 < fields.length := List.length_pos_of_ne_nil hne
  have hcount : ([sep].intercalate fields).count sep + 1 = _ := count_intercalate fields
  rw [length_splitOn] at hlen
  have hzero : (fields.map (List.count sep)).sum = 0 := by omega
  apply List.splitOn_intercalate sep _ hne
  intro f hf
  have hf' : f.count sep ∈ fields.map (List.count sep) := List.mem_map_of_mem hf
  exact List.count_eq_zero.mp (List.sum_eq_zero_iff_forall_eq_nat.mp hzero _ hf')

end Fields
