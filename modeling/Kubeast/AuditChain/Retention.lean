import Kubeast.AuditChain.Verify

/-! Retention of the audit log (`auth-service-go/internal/retention/retention.go`): what a
purge leaves of the chain, and when the kept end of it still verifies. -/
namespace Kubeast.AuditChain
open Sorted

def batchSize : ℕ := 5000

/-- Stands for the oldest kept position where no kept row is sealed. -/
def noneKept : ℤ := 9223372036854775807

namespace AuditTable

/-- The oldest sealed position among the rows inside the window. -/
def minKept (t : AuditTable) (cutoff : ℤ) : ℤ :=
  ((t.select fun a => decide (cutoff ≤ a.createdAt)).filterMap AuditRow.chainSeq).min?.getD noneKept

/-- What a purge may delete: rows past the window, up to the sinks' floor when there is one,
sealed before the oldest kept row or not at all. -/
def purgeable (cutoff minKept : ℤ) (floor : Option ℤ) (a : AuditRow) : Bool :=
  decide (a.createdAt < cutoff) && floor.all (fun f => decide (a.id ≤ f)) &&
    a.chainSeq.all fun s => decide (s < minKept)

/-- The ids one `DELETE` takes. -/
def batchIds (t : AuditTable) (p : AuditRow → Bool) : List ℤ :=
  ((sortBy AuditRow.id (t.select p)).take batchSize).map AuditRow.id

/-- The loop over batches, left after `n` of them at the latest. -/
def deleteBatched (p : AuditRow → Bool) : ℕ → AuditTable → AuditTable
  | 0, t => t
  | n + 1, t =>
      let ids := t.batchIds p
      let t := t.deleteRows fun a => ids.contains a.id
      if ids.length < batchSize then t else deleteBatched p n t

/-- The audit part of `Purge`, as far as `n` batches get. -/
def purge (t : AuditTable) (cutoff : ℤ) (floor : Option ℤ) (n : ℕ) : AuditTable :=
  deleteBatched (purgeable cutoff (t.minKept cutoff) floor) n t

/-- How many of the rows a purge may delete come before a row. -/
def rank (t : AuditTable) (p : AuditRow → Bool) (a : AuditRow) : ℕ :=
  (t.select fun b => p b && decide (b.id < a.id)).length

section Batches
variable {t : AuditTable} {p : AuditRow → Bool} {a : AuditRow} {n : ℕ}

theorem increasing_select (t : AuditTable) (p : AuditRow → Bool) :
    Increasing AuditRow.id (sortBy AuditRow.id (t.select p)) :=
  increasing_sortBy (t.nodup.sublist (List.filter_sublist.map _))

theorem mem_batch : a ∈ (t.deleteRows fun a => (t.batchIds p).contains a.id).rows ↔
    a ∈ t.rows ∧ a ∉ (sortBy AuditRow.id (t.select p)).take batchSize := by
  simp only [deleteRows, Table.mem_delete, batchIds]
  refine and_congr_right fun ha => ?_
  rw [← Bool.not_eq_true, not_iff_not, List.contains_iff_mem, List.mem_map]
  constructor
  · rintro ⟨b, hb, hid⟩
    have hrow := (Table.mem_select.mp (mem_sortBy.mp (List.mem_of_mem_take hb))).1
    rwa [Table.eq_of_key_eq hrow ha hid] at hb
  · intro h
    exact ⟨a, h, rfl⟩

/-- After a batch the rows still to delete are the rest of the list. -/
theorem sortBy_select_batch :
    sortBy AuditRow.id ((t.deleteRows fun a => (t.batchIds p).contains a.id).select p) =
      (sortBy AuditRow.id (t.select p)).drop batchSize := by
  have hinc := increasing_select t p
  refine (increasing_select _ p).ext (hinc.sublist (List.drop_sublist _ _)) fun a => ?_
  have hsplit := List.take_append_drop batchSize (sortBy AuditRow.id (t.select p))
  have hdisj := List.disjoint_of_nodup_append (hsplit ▸ hinc.nodup)
  rw [mem_sortBy, Table.mem_select, mem_batch]
  constructor
  · rintro ⟨⟨ha, hnot⟩, hp⟩
    have hmem : a ∈ sortBy AuditRow.id (t.select p) := mem_sortBy.mpr (Table.mem_select.mpr ⟨ha, hp⟩)
    rw [← hsplit] at hmem
    exact (List.mem_append.mp hmem).resolve_left hnot
  · intro h
    obtain ⟨ha, hp⟩ := Table.mem_select.mp (mem_sortBy.mp (List.mem_of_mem_drop h))
    exact ⟨⟨ha, fun htake => hdisj htake h⟩, hp⟩

/-- `n` batches delete the first `n` times `batchSize` rows by id. -/
theorem mem_deleteBatched : a ∈ (deleteBatched p n t).rows ↔
    a ∈ t.rows ∧ a ∉ (sortBy AuditRow.id (t.select p)).take (n * batchSize) := by
  induction n generalizing t with
  | zero => simp [deleteBatched]
  | succ n ih =>
    rw [deleteBatched, Nat.succ_mul, Nat.add_comm, List.take_add]
    split
    · next hshort =>
      have hall : (sortBy AuditRow.id (t.select p)).drop batchSize = [] := by
        rw [List.drop_eq_nil_iff]
        simp only [batchIds, List.length_map, List.length_take] at hshort
        omega
      rw [mem_batch, hall, List.take_nil, List.append_nil]
    · rw [ih, mem_batch, sortBy_select_batch, List.mem_append, not_or, and_assoc]

/-- A row goes when a purge may delete it and its turn comes within the batches. -/
theorem mem_deleteBatched_iff : a ∈ (deleteBatched p n t).rows ↔
    a ∈ t.rows ∧ ¬ (p a = true ∧ t.rank p a < n * batchSize) := by
  rw [mem_deleteBatched]
  refine and_congr_right fun ha => not_congr ?_
  have hrank : ((sortBy AuditRow.id (t.select p)).filter fun b => decide (b.id < a.id)).length =
      t.rank p a := by
    rw [((perm_sortBy AuditRow.id (t.select p)).filter _).length_eq, rank]
    simp [Table.select, List.filter_filter, Bool.and_comm]
  rw [(increasing_select t p).mem_take_iff, hrank, mem_sortBy, Table.mem_select]
  simp [ha]

end Batches
/-- The id order agrees with the chain where the batches and the floor stop: a row below one
that goes has its turn as well. -/
def InChainOrder (t : AuditTable) (cutoff : ℤ) (floor : Option ℤ) (n : ℕ) : Prop :=
  let p := purgeable cutoff (t.minKept cutoff) floor
  ∀ a ∈ t.rows, ∀ b ∈ t.rows, ∀ sa ∈ a.chainSeq, ∀ sb ∈ b.chainSeq, sa < sb →
    p b = true ∧ t.rank p b < n * batchSize →
      (∀ f ∈ floor, a.id ≤ f) ∧ t.rank p a < n * batchSize

instance (t : AuditTable) (cutoff : ℤ) (floor : Option ℤ) (n : ℕ) :
    Decidable (t.InChainOrder cutoff floor n) :=
  inferInstanceAs (Decidable (∀ a ∈ t.rows, ∀ b ∈ t.rows, ∀ sa ∈ a.chainSeq, ∀ sb ∈ b.chainSeq,
    sa < sb → purgeable cutoff (t.minKept cutoff) floor b = true ∧
      t.rank (purgeable cutoff (t.minKept cutoff) floor) b < n * batchSize →
        (∀ f ∈ floor, a.id ≤ f) ∧
          t.rank (purgeable cutoff (t.minKept cutoff) floor) a < n * batchSize))

/-- No position is missing between two rows. -/
def Contiguous (rows : List Row) : Prop := rows.IsChain fun a b => b.seq = a.seq + 1

instance (rows : List Row) : Decidable (Contiguous rows) :=
  inferInstanceAs (Decidable (rows.IsChain fun a b => b.seq = a.seq + 1))

section Purge
variable {t : AuditTable} {cutoff sa : ℤ} {floor : Option ℤ} {n : ℕ} {a : AuditRow} {r : Row}

theorem purgeable_iff {m : ℤ} : purgeable cutoff m floor a = true ↔
    a.createdAt < cutoff ∧ (∀ f ∈ floor, a.id ≤ f) ∧ ∀ s ∈ a.chainSeq, s < m := by
  cases floor <;> cases hseq : a.chainSeq <;> simp [purgeable, hseq, and_assoc]

theorem minKept_le (ha : a ∈ t.rows) (hkept : cutoff ≤ a.createdAt) (hseq : a.chainSeq = some sa) :
    t.minKept cutoff ≤ sa := by
  have hmem : sa ∈ (t.select fun a => decide (cutoff ≤ a.createdAt)).filterMap AuditRow.chainSeq :=
    List.mem_filterMap.mpr ⟨a, Table.mem_select.mpr ⟨ha, by simpa using hkept⟩, hseq⟩
  unfold minKept
  cases hmin : ((t.select fun a => decide (cutoff ≤ a.createdAt)).filterMap AuditRow.chainSeq).min? with
  | none => simp [List.min?_eq_none_iff.mp hmin] at hmem
  | some m => exact (List.min?_eq_some_iff.mp hmin).2 sa hmem

theorem mem_sealedRows_purge : r ∈ (t.purge cutoff floor n).sealedRows ↔
    ∃ a ∈ t.rows, a.sealedRow? = some r ∧
      ¬ (purgeable cutoff (t.minKept cutoff) floor a = true ∧
        t.rank (purgeable cutoff (t.minKept cutoff) floor) a < n * batchSize) := by
  rw [mem_sealedRows, purge]
  simp only [mem_deleteBatched_iff]
  constructor
  · rintro ⟨a, ⟨ha, hstays⟩, hr⟩
    exact ⟨a, ha, hr, hstays⟩
  · rintro ⟨a, ha, hr, hstays⟩
    exact ⟨a, ⟨ha, hstays⟩, hr⟩

/-- The row of the table a sealed row stands for is the only one of its id. -/
theorem eq_of_sealedRow? {b : AuditRow} (ha : a ∈ t.rows) (hb : b ∈ t.rows)
    (har : a.sealedRow? = some r) (hbr : b.sealedRow? = some r) : a = b := by
  obtain ⟨_, -, hra⟩ := Option.map_eq_some_iff.mp har
  obtain ⟨_, -, hrb⟩ := Option.map_eq_some_iff.mp hbr
  have hid : a.id = b.id := (congrArg Row.id hra).trans (congrArg Row.id hrb).symm
  exact Table.eq_of_key_eq ha hb hid

/-- A purge leaves an end of the chain exactly when the two orders agree where it stops. -/
theorem purge_suffix_iff : (t.purge cutoff floor n).sealedRows <:+ t.sealedRows ↔
    t.InChainOrder cutoff floor n := by
  have hsub : ∀ r ∈ (t.purge cutoff floor n).sealedRows, r ∈ t.sealedRows := fun r hr => by
    obtain ⟨a, ha, har, -⟩ := mem_sealedRows_purge.mp hr
    exact mem_sealedRows.mpr ⟨a, ha, har⟩
  rw [t.increasing_sealedRows.suffix_iff (increasing_sealedRows _) hsub]
  constructor
  · intro h a ha b hb sa hsa sb hsb hlt hgoes
    have har : a.sealedRow? = some ⟨sa, a.id, a.prevHash, a.rowHash, a.canon⟩ := by
      rw [AuditRow.sealedRow?, Option.mem_def.mp hsa, Option.map_some]
    have hbr : b.sealedRow? = some ⟨sb, b.id, b.prevHash, b.rowHash, b.canon⟩ := by
      rw [AuditRow.sealedRow?, Option.mem_def.mp hsb, Option.map_some]
    by_contra hstays
    have hkept := mem_sealedRows_purge.mpr
      ⟨a, ha, har, fun hgone => hstays ⟨(purgeable_iff.mp hgone.1).2.1, hgone.2⟩⟩
    obtain ⟨b', hb', hb'r, hnot⟩ :=
      mem_sealedRows_purge.mp (h _ hkept _ (mem_sealedRows.mpr ⟨b, hb, hbr⟩) hlt)
    exact hnot (eq_of_sealedRow? hb hb' hbr hb'r ▸ hgoes)
  · intro h x hx y hy hlt
    obtain ⟨a, ha, har, hstays⟩ := mem_sealedRows_purge.mp hx
    obtain ⟨b, hb, hbr⟩ := mem_sealedRows.mp hy
    refine mem_sealedRows_purge.mpr ⟨b, hb, hbr, fun hgoes => hstays ?_⟩
    have hsa := seq_of_sealedRow? har
    have hsb := seq_of_sealedRow? hbr
    obtain ⟨hfloor, hrank⟩ := h a ha b hb x.seq hsa y.seq hsb hlt hgoes
    have hbelow : y.seq < t.minKept cutoff := (purgeable_iff.mp hgoes.1).2.2 y.seq hsb
    have hold : a.createdAt < cutoff := by
      by_contra hkept
      have := minKept_le ha (not_lt.mp hkept) hsa
      omega
    refine ⟨purgeable_iff.mpr ⟨hold, hfloor, fun s hs => ?_⟩, hrank⟩
    obtain rfl := Option.some.inj (hsa.symm.trans hs)
    omega

/-- Above the first row of an end of the chain nothing is missing from it. -/
theorem rowsBetween_of_suffix {t' : AuditTable} {first : Row} {fromSeq toSeq : ℤ}
    (h : t'.sealedRows <:+ t.sealedRows) (hfirst : t'.sealedRows.head? = some first)
    (hle : first.seq ≤ fromSeq) :
    t'.rowsBetween fromSeq toSeq = t.rowsBetween fromSeq toSeq := by
  obtain ⟨p, hp⟩ := h
  have hinc := t.increasing_sealedRows
  rw [← hp] at hinc
  have hcut : (p.filter fun r => decide (fromSeq ≤ r.seq ∧ r.seq ≤ toSeq)) = [] := by
    refine List.filter_eq_nil_iff.mpr fun r hr => ?_
    have hlt := (List.pairwise_append.mp hinc).2.2 r hr first (List.mem_of_head? hfirst)
    simp only [decide_eq_true_eq]
    omega
  rw [rowsBetween, rowsBetween, ← hp, List.filter_append, hcut, List.nil_append]

end Purge
end AuditTable

/-- A purge keeps the chain verifiable, that is, leaves a contiguous end of it over which every
verification reports what it did before, exactly when by id as by position no row it leaves
comes before one it deletes. -/
theorem purge_keeps_chain_iff (log : AuditLog) (objects : Option ObjectStore) (page cutoff : ℤ)
    (floor : Option ℤ) (n : ℕ) :
    ((log.table.purge cutoff floor n).sealedRows <:+ log.table.sealedRows ∧
      (AuditTable.Contiguous log.table.sealedRows →
        AuditTable.Contiguous (log.table.purge cutoff floor n).sealedRows) ∧
      ∀ first ∈ (log.table.purge cutoff floor n).sealedRows.head?, ∀ fromSeq toSeq,
        first.seq ≤ fromSeq →
        ({ log with table := log.table.purge cutoff floor n } : AuditLog).verify objects page
          fromSeq toSeq = log.verify objects page fromSeq toSeq) ↔
    log.table.InChainOrder cutoff floor n := by
  rw [← AuditTable.purge_suffix_iff]
  constructor
  · exact And.left
  · intro h
    refine ⟨h, fun hcontiguous => hcontiguous.suffix h, fun first hfirst fromSeq toSeq hle => ?_⟩
    exact verify_congr (AuditTable.rowsBetween_of_suffix h hfirst hle)

/-- Row 5 commits and is sealed after rows 6 and 7; row 8 is inside the window. -/
def lateCommit : AuditTable :=
  let add := fun (t : AuditTable) id createdAt canon => (t.insertRow id createdAt canon).getD t
  let sealAll := fun (t : AuditTable) => ((t.sealBatch 0).map Prod.fst).getD t
  sealAll (add (sealAll (add (sealAll (add (add .empty 6 0 "b") 7 0 "c")) 5 0 "a")) 8 20 "d")

/-- The sinks have sent up to row 5: position 3 goes, positions 1 and 2 stay. -/
theorem lateCommit_purge_gap :
    AuditTable.Contiguous lateCommit.sealedRows ∧
      (lateCommit.purge 10 (some 5) 1).sealedRows.map Row.seq = [1, 2, 4] ∧
      ((AuditLog.verify ⟨lateCommit, [], Table.empty, Table.empty⟩ none 0 1 4).toOption.map
        Report.ok) = some true ∧
      ((AuditLog.verify ⟨lateCommit.purge 10 (some 5) 1, [], Table.empty, Table.empty⟩ none 0 1
        4).toOption.map Report.ok) = some false := by
  decide +kernel

end Kubeast.AuditChain
