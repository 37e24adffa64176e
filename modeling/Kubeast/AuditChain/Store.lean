import Kubeast.AuditChain.Chain
import Kubeast.Foundation.Table

/-! The audit table and the sealer (`auditchain/store.go`). Positions are unique, as the
index on `chain_seq` has it. -/
namespace Kubeast.AuditChain
open Sorted

/-- A row of `auth_audit_logs`: when it was written, its canonical text and, once sealed, its
place in the chain. Times are in nanoseconds. -/
structure AuditRow where
  id : ℤ
  createdAt : ℤ
  canon : String
  chainSeq : Option ℤ
  prevHash : Bytes
  rowHash : Bytes
deriving DecidableEq

/-- The row as the verifier reads it, when it is sealed. -/
def AuditRow.sealedRow? (a : AuditRow) : Option Row :=
  a.chainSeq.map fun seq => ⟨seq, a.id, a.prevHash, a.rowHash, a.canon⟩

/-- The columns the sealer writes. -/
def AuditRow.sealWith (a : AuditRow) (s : Sealed) : AuditRow :=
  { a with chainSeq := some s.seq, prevHash := s.prev, rowHash := s.hash }

structure AuditTable extends Table AuditRow.id where
  seq_unique : (rows.filterMap AuditRow.chainSeq).Nodup

def defaultBatch : ℕ := 1000

namespace AuditTable

def empty : AuditTable := ⟨Table.empty, List.nodup_nil⟩

/-- The sealed rows in the order of the chain. -/
def sealedRows (t : AuditTable) : List Row :=
  sortBy Row.seq (t.rows.filterMap AuditRow.sealedRow?)

def readHead (t : AuditTable) : Head :=
  t.sealedRows.getLast?.elim ⟨0, genesis⟩ fun r => ⟨r.seq, r.hash⟩

/-- The oldest and the newest sealed position, 0 where nothing is sealed. -/
def bounds (t : AuditTable) : ℤ × ℤ :=
  (t.sealedRows.head?.elim 0 Row.seq, t.sealedRows.getLast?.elim 0 Row.seq)

/-- `chain_seq BETWEEN fromSeq AND toSeq ORDER BY chain_seq`. -/
def rowsBetween (t : AuditTable) (fromSeq toSeq : ℤ) : List Row :=
  t.sealedRows.filter fun r => decide (fromSeq ≤ r.seq ∧ r.seq ≤ toSeq)

/-- `Rows`: a page of them. -/
def rowsIn (t : AuditTable) (fromSeq toSeq : ℤ) (limit : ℕ) : List Row :=
  (t.rowsBetween fromSeq toSeq).take limit

/-- The oldest unsealed rows by id. -/
def unsealedBatch (t : AuditTable) (limit : ℤ) : List Unsealed :=
  ((sortBy AuditRow.id (t.select fun a => a.chainSeq.isNone)).take
    (if limit ≤ 0 then defaultBatch else limit.toNat)).map fun a => ⟨a.id, a.canon⟩

/-- The columns a batch gives the row. -/
def sealedAs (sealed : List Sealed) (a : AuditRow) : AuditRow :=
  if a.chainSeq.isNone then (sealed.find? fun s => s.id == a.id).elim a a.sealWith else a

/-- One sealing transaction: how many rows it sealed and the new head. A position that is
taken makes it fail. -/
def sealBatch (t : AuditTable) (limit : ℤ) : Option (AuditTable × ℕ × Head) :=
  let head := t.readHead
  let unsealed := t.unsealedBatch limit
  let (sealed, newHead) := sealRows head unsealed
  let rows := t.rows.map (sealedAs sealed)
  if h : (rows.map AuditRow.id).Nodup ∧ (rows.filterMap AuditRow.chainSeq).Nodup then
    some (⟨⟨rows, h.1⟩, h.2⟩, sealed.length, newHead)
  else none

/-- `INSERT` of an unsealed row; an id in use makes it fail. -/
def insertRow (t : AuditTable) (id createdAt : ℤ) (canon : String) : Option AuditTable :=
  if h : t.toTable.get id = none then
    some ⟨t.toTable.insert ⟨id, createdAt, canon, none, [], []⟩ h, by
      simpa [Table.insert] using t.seq_unique⟩
  else none

/-- `DELETE … WHERE p`. -/
def deleteRows (t : AuditTable) (p : AuditRow → Bool) : AuditTable :=
  ⟨t.toTable.delete p, t.seq_unique.sublist (List.filter_sublist.filterMap _)⟩

section Sealed
variable {t : AuditTable} {r : Row} {a : AuditRow}

theorem map_id_sealedRow_sublist (rows : List AuditRow) :
    ((rows.filterMap AuditRow.sealedRow?).map Row.id).Sublist (rows.map AuditRow.id) := by
  induction rows with
  | nil => exact List.Sublist.refl _
  | cons a rows ih =>
    rw [List.filterMap_cons, List.map_cons]
    cases h : a.sealedRow? with
    | none => exact ih.cons _
    | some r =>
      obtain ⟨seq, -, rfl⟩ := Option.map_eq_some_iff.mp h
      exact ih.cons_cons _

theorem map_seq_sealedRow (rows : List AuditRow) :
    (rows.filterMap AuditRow.sealedRow?).map Row.seq = rows.filterMap AuditRow.chainSeq := by
  rw [List.map_filterMap]
  congr 1
  funext a
  simp [AuditRow.sealedRow?, Function.comp_def]

theorem mem_sealedRows : r ∈ t.sealedRows ↔ ∃ a ∈ t.rows, a.sealedRow? = some r := by
  simp [sealedRows]

theorem seq_of_sealedRow? (h : a.sealedRow? = some r) : a.chainSeq = some r.seq := by
  obtain ⟨seq, hseq, rfl⟩ := Option.map_eq_some_iff.mp h
  exact hseq

theorem increasing_sealedRows (t : AuditTable) : Increasing Row.seq t.sealedRows := by
  apply increasing_sortBy
  rw [map_seq_sealedRow]
  exact t.seq_unique

theorem le_readHead (h : r ∈ t.sealedRows) : r.seq ≤ t.readHead.seq := by
  have hlast := List.getLast?_eq_some_getLast (List.ne_nil_of_mem h)
  rw [readHead, hlast]
  exact t.increasing_sealedRows.le_getLast hlast h

theorem mem_rowsBetween {fromSeq toSeq : ℤ} :
    r ∈ t.rowsBetween fromSeq toSeq ↔ r ∈ t.sealedRows ∧ fromSeq ≤ r.seq ∧ r.seq ≤ toSeq := by
  simp [rowsBetween]

theorem sealedRows_insertRow {id createdAt : ℤ} {canon : String} {t' : AuditTable}
    (h : t.insertRow id createdAt canon = some t') : t'.sealedRows = t.sealedRows := by
  unfold insertRow at h
  split at h
  · obtain rfl := Option.some.inj h
    rfl
  · cases h

end Sealed

section SealBatch
variable {t : AuditTable} {limit : ℤ} {head : Head} {us : List Unsealed} {r : Row}

theorem mem_unsealedBatch {u : Unsealed} (h : u ∈ t.unsealedBatch limit) :
    ∃ a ∈ t.rows, a.chainSeq = none ∧ a.id = u.id ∧ a.canon = u.canon := by
  obtain ⟨a, ha, rfl⟩ := List.mem_map.mp h
  have hmem := mem_sortBy.mp (List.mem_of_mem_take ha)
  obtain ⟨hrow, hnone⟩ := Table.mem_select.mp hmem
  exact ⟨a, hrow, Option.isNone_iff_eq_none.mp hnone, rfl, rfl⟩

theorem nodup_unsealedBatch : ((t.unsealedBatch limit).map Unsealed.id).Nodup := by
  rw [unsealedBatch, List.map_map]
  have hall : ((sortBy AuditRow.id (t.select fun a => a.chainSeq.isNone)).map AuditRow.id).Nodup :=
    ((perm_sortBy _ _).map _).nodup_iff.mpr (t.nodup.sublist (List.filter_sublist.map _))
  exact hall.sublist ((List.take_sublist _ _).map _)

theorem mem_sealedRowsOf {sealed : List Sealed} :
    r ∈ sealedRowsOf sealed us ↔ ∃ (i : ℕ) (s : Sealed) (u : Unsealed), sealed[i]? = some s ∧
      us[i]? = some u ∧ ⟨s.seq, s.id, s.prev, s.hash, u.canon⟩ = r := by
  rw [sealedRowsOf, List.mem_iff_getElem?]
  refine exists_congr fun i => ?_
  rw [List.getElem?_zipWith]
  cases hs : sealed[i]? <;> cases hu : us[i]? <;> simp

/-- A sealed row of the updated table was sealed before or is one of the batch. -/
theorem sealedRow?_sealedAs {sealed : List Sealed} {a : AuditRow} :
    (sealedAs sealed a).sealedRow? = some r ↔ a.sealedRow? = some r ∨
      a.chainSeq = none ∧ ∃ s, (sealed.find? fun s => s.id == a.id) = some s ∧
        ⟨s.seq, a.id, s.prev, s.hash, a.canon⟩ = r := by
  unfold sealedAs
  cases hseq : a.chainSeq with
  | some seq => simp [AuditRow.sealedRow?, hseq]
  | none =>
    cases hfind : sealed.find? fun s => s.id == a.id with
    | none => simp [AuditRow.sealedRow?, hseq]
    | some s => simp [AuditRow.sealedRow?, AuditRow.sealWith, hseq]

/-- The rows a batch adds, found back through the table. -/
theorem mem_batch_iff (hus : us = t.unsealedBatch limit) :
    (∃ a ∈ t.rows, a.chainSeq = none ∧
      ∃ s, ((sealFrom head us).1.find? fun s => s.id == a.id) = some s ∧
        ⟨s.seq, a.id, s.prev, s.hash, a.canon⟩ = r) ↔
      r ∈ sealedRowsOf (sealFrom head us).1 us := by
  have hids : (sealFrom head us).1.map Sealed.id = us.map Unsealed.id := sealFrom_ids
  have hat : ∀ (i : ℕ) (s : Sealed), (sealFrom head us).1[i]? = some s →
      ∃ u, us[i]? = some u ∧ u.id = s.id := by
    intro i s hs
    have hi := congrArg (fun l => l[i]?) hids
    simp only [List.getElem?_map, hs, Option.map_some] at hi
    obtain ⟨u, hu, huid⟩ := Option.map_eq_some_iff.mp hi.symm
    exact ⟨u, hu, huid⟩
  rw [mem_sealedRowsOf]
  constructor
  · rintro ⟨a, ha, -, s, hfind, rfl⟩
    have hsid : s.id = a.id := by simpa using List.find?_some hfind
    obtain ⟨i, hi⟩ := List.mem_iff_getElem?.mp (List.mem_of_find?_eq_some hfind)
    obtain ⟨u, hu, huid⟩ := hat i s hi
    obtain ⟨b, hb, -, hbid, hcanon⟩ := mem_unsealedBatch (hus ▸ List.mem_of_getElem? hu)
    have hab : b = a := Table.eq_of_key_eq hb ha (hbid.trans (huid.trans hsid))
    exact ⟨i, s, u, hi, hu, by rw [hsid, ← hcanon, hab]⟩
  · rintro ⟨i, s, u, hs, hu, rfl⟩
    obtain ⟨u', hu', huid⟩ := hat i s hs
    obtain rfl : u' = u := Option.some.inj (hu'.symm.trans hu)
    obtain ⟨a, ha, hnone, haid, hcanon⟩ := mem_unsealedBatch (hus ▸ List.mem_of_getElem? hu)
    have hne : ((sealFrom head us).1.find? fun s => s.id == a.id) ≠ none := fun hnil => by
      have := List.find?_eq_none.mp hnil s (List.mem_of_getElem? hs)
      simp [haid, huid] at this
    obtain ⟨s', hs'⟩ := Option.ne_none_iff_exists'.mp hne
    have hs'id : s'.id = a.id := by simpa using List.find?_some hs'
    have hnodup : ((sealFrom head us).1.map Sealed.id).Nodup := by
      rw [hids, hus]
      exact nodup_unsealedBatch
    have heq : s' = s := List.inj_on_of_nodup_map hnodup (List.mem_of_find?_eq_some hs')
      (List.mem_of_getElem? hs) (hs'id.trans (haid.trans huid))
    exact ⟨a, ha, hnone, s, heq ▸ hs', by rw [hcanon, haid, huid]⟩

/-- A batch goes on above every sealed position. -/
theorem increasing_append_batch (us : List Unsealed) : Increasing Row.seq
    (t.sealedRows ++ sealedRowsOf (sealFrom t.readHead us).1 us) := by
  obtain ⟨hwhole, hfirst, -⟩ := sealedRowsOf_sealFrom t.readHead us
  refine List.pairwise_append.mpr ⟨t.increasing_sealedRows, hwhole.increasing, ?_⟩
  intro a ha b hb
  have hne := List.ne_nil_of_mem hb
  have hhead := List.head?_eq_some_head hne
  have hle := hwhole.increasing.head_le hhead hb
  have hseq := (hfirst _ hhead).1
  have := le_readHead ha
  omega

theorem readHead_of_append {t' : AuditTable}
    (h : t'.sealedRows = t.sealedRows ++ sealedRowsOf (sealFrom t.readHead us).1 us) :
    t'.readHead = (sealFrom t.readHead us).2 := by
  obtain ⟨-, -, hlast⟩ := sealedRowsOf_sealFrom t.readHead us
  rw [hlast, readHead, h, List.getLast?_append]
  cases (sealedRowsOf (sealFrom t.readHead us).1 us).getLast? <;> rfl

/-- Sealing puts the batch behind the rows sealed before and never fails. -/
theorem sealBatch_spec (t : AuditTable) (limit : ℤ) (hhash : t.readHead.hash.length = hashSize) :
    ∃ t' n, t.sealBatch limit = some (t', n, t'.readHead) ∧
      t'.sealedRows = t.sealedRows ++
        sealedRowsOf (sealFrom t.readHead (t.unsealedBatch limit)).1 (t.unsealedBatch limit) ∧
      t'.rows.map AuditRow.id = t.rows.map AuditRow.id := by
  obtain ⟨us, hus⟩ : ∃ us, us = t.unsealedBatch limit := ⟨_, rfl⟩
  rw [← hus]
  obtain ⟨sealed, hsealed⟩ : ∃ sealed, sealed = (sealFrom t.readHead us).1 := ⟨_, rfl⟩
  have hrows : sealRows t.readHead us = sealFrom t.readHead us := by rw [sealRows, if_pos hhash]
  have hids : (t.rows.map (sealedAs sealed)).map AuditRow.id = t.rows.map AuditRow.id := by
    rw [List.map_map]
    congr 1
    funext a
    simp only [Function.comp_apply, sealedAs]
    split
    · cases sealed.find? fun s => s.id == a.id <;> rfl
    · rfl
  have hmem : ∀ r, r ∈ (t.rows.map (sealedAs sealed)).filterMap AuditRow.sealedRow? ↔
      r ∈ t.sealedRows ++ sealedRowsOf sealed us := by
    intro r
    rw [List.mem_append, mem_sealedRows, hsealed, ← mem_batch_iff hus, ← hsealed]
    simp only [List.mem_filterMap, List.mem_map, exists_exists_and_eq_and, sealedRow?_sealedAs]
    constructor
    · rintro ⟨a, ha, h | h⟩
      · exact Or.inl ⟨a, ha, h⟩
      · exact Or.inr ⟨a, ha, h⟩
    · rintro (⟨a, ha, h⟩ | ⟨a, ha, h⟩)
      · exact ⟨a, ha, Or.inl h⟩
      · exact ⟨a, ha, Or.inr h⟩
  have hinc : Increasing Row.seq (t.sealedRows ++ sealedRowsOf sealed us) :=
    hsealed ▸ increasing_append_batch us
  have hnodup : ((t.rows.map (sealedAs sealed)).filterMap AuditRow.sealedRow?).Nodup :=
    List.Nodup.of_map Row.id ((hids ▸ t.nodup).sublist (map_id_sealedRow_sublist _))
  have hperm : ((t.rows.map (sealedAs sealed)).filterMap AuditRow.sealedRow?).Perm
      (t.sealedRows ++ sealedRowsOf sealed us) :=
    (List.perm_ext_iff_of_nodup hnodup hinc.nodup).mpr hmem
  have hseqs : ((t.rows.map (sealedAs sealed)).filterMap AuditRow.chainSeq).Nodup := by
    rw [← map_seq_sealedRow, (hperm.map Row.seq).nodup_iff]
    exact hinc.nodup_map
  have hids_nodup : ((t.rows.map (sealedAs sealed)).map AuditRow.id).Nodup := hids ▸ t.nodup
  rw [← hsealed]
  have happended : (⟨⟨_, hids_nodup⟩, hseqs⟩ : AuditTable).sealedRows =
      t.sealedRows ++ sealedRowsOf sealed us :=
    (increasing_sealedRows _).ext hinc fun r => mem_sortBy.trans (hmem r)
  refine ⟨⟨⟨_, hids_nodup⟩, hseqs⟩, sealed.length, ?_, happended, hids⟩
  have hhead := readHead_of_append (happended.trans (by rw [hsealed]))
  rw [hhead, sealBatch, ← hus, hrows]
  simp only [← hsealed]
  rw [dif_pos ⟨hids_nodup, hseqs⟩]

end SealBatch

end AuditTable
end Kubeast.AuditChain
