import Kubeast.AuditChain.Retention
import Kubeast.Foundation.Transition

/-! Runs of an honest audit log: rows come in, are sealed, anchored and purged. -/
namespace Kubeast.AuditChain
open Sha256 Sorted Transition

/-- The log, the ids its sequence has given out and every position ever given to a row. -/
structure LogState where
  log : AuditLog
  drawn : List ℤ
  given : List (ℤ × ℤ)

inductive LogStep
  | insertRow (id createdAt : ℤ) (canon : String)
  | sealBatch (limit : ℤ)
  | purge (cutoff : ℤ) (floor : Option ℤ) (n : ℕ)
  | anchorOnce (now : ℤ) (sink actor : String)

namespace LogState

def start (reviews : Table Review.id) : LogState :=
  ⟨⟨AuditTable.empty, [], Table.empty, reviews⟩, [], []⟩

def table (s : LogState) : AuditTable := s.log.table

/-- The table replaced; the rows newly sealed in it take their positions. -/
def withTable (s : LogState) (t : AuditTable) : LogState :=
  { s with
    log := { s.log with table := t }
    given := s.given ++ (t.sealedRows.filter fun r => decide (r ∉ s.table.sealedRows)).map
      fun r => (r.seq, r.id) }

end LogState

/-- One step; an id is drawn once. -/
def logStep (s : LogState) : LogStep → LogState
  | .insertRow id createdAt canon =>
      if id ∈ s.drawn then s
      else { s.withTable ((s.table.insertRow id createdAt canon).getD s.table) with
        drawn := id :: s.drawn }
  | .sealBatch limit => s.withTable ((s.table.sealBatch limit).elim s.table Prod.fst)
  | .purge cutoff floor n => s.withTable (s.table.purge cutoff floor n)
  | .anchorOnce now sink actor => { s with log := (s.log.anchorOnce now sink actor).1 }

/-- A purge takes a beginning of the chain and leaves the newest sealed row. -/
def KeepsHead (s : LogState) : LogStep → Prop
  | .insertRow _ _ _ => True
  | .sealBatch _ => True
  | .purge cutoff floor n => s.table.InChainOrder cutoff floor n ∧
      ∀ a ∈ s.table.rows, a.chainSeq = some s.table.readHead.seq →
        ¬ (AuditTable.purgeable cutoff (s.table.minKept cutoff) floor a = true ∧
          s.table.rank (AuditTable.purgeable cutoff (s.table.minKept cutoff) floor) a <
            n * batchSize)
  | .anchorOnce _ _ _ => True

/-- An anchor goes to a key no earlier one was written to. -/
def FreshKey (s : LogState) : LogStep → Prop
  | .insertRow _ _ _ => True
  | .sealBatch _ => True
  | .purge _ _ _ => True
  | .anchorOnce now _ _ =>
      s.log.objects.get (objectKey now s.log.nextRange.1 s.log.nextRange.2.1) = none

/-- What holds of an honest log: the sealed rows are whole, no position was given twice, and
every anchor stands behind the head and agrees with the row at its position while that is
there. -/
structure Sound (s : LogState) : Prop where
  whole : Whole s.table.sealedRows
  head_nonneg : 0 ≤ s.table.readHead.seq
  given_nodup : (s.given.map Prod.fst).Nodup
  given_le : ∀ p ∈ s.given, p.1 ≤ s.table.readHead.seq
  anchor_le : ∀ a ∈ s.log.anchors, a.toSeq ≤ s.table.readHead.seq
  anchor_head : ∀ a ∈ s.log.anchors, a.rows ≠ 0 → ∀ r ∈ s.table.sealedRows, r.seq = a.toSeq →
    r.hash = a.headHash

/-- The digest of every anchor is in the sink as it was written. -/
def DigestsKept (s : LogState) : Prop := ∀ a ∈ s.log.anchors, s.log.ObjectFits s.log.getObject a

section Table
variable {t t' : AuditTable} {s : LogState}

theorem readHead_eq (t : AuditTable) : t.readHead =
    t.sealedRows.getLast?.elim ⟨0, genesis⟩ fun r => ⟨r.seq, r.hash⟩ := rfl

theorem length_readHead_hash (h : Whole t.sealedRows) : t.readHead.hash.length = hashSize := by
  rw [readHead_eq]
  cases hlast : t.sealedRows.getLast? with
  | none => exact length_genesis
  | some r =>
    have hsound := h.sound r (List.mem_of_getLast? hlast)
    rw [Option.elim_some, ← hsound]
    exact length_rowHash

theorem readHead_congr (h : t'.sealedRows = t.sealedRows) : t'.readHead = t.readHead := by
  rw [readHead_eq, readHead_eq, h]

/-- An end of the chain that is not empty has the same head. -/
theorem readHead_of_suffix (h : t'.sealedRows <:+ t.sealedRows) (hne : t'.sealedRows ≠ []) :
    t'.readHead = t.readHead := by
  obtain ⟨p, hp⟩ := h
  rw [readHead_eq, readHead_eq, ← hp, List.getLast?_append,
    List.getLast?_eq_some_getLast hne, Option.some_or]

/-- A table with the old rows, or fewer, and new ones above the head. -/
theorem Sound.withTable (h : Sound s) (hwhole : Whole t'.sealedRows)
    (hnew : ∀ r ∈ t'.sealedRows, r ∈ s.table.sealedRows ∨ s.table.readHead.seq < r.seq)
    (hhead : s.table.readHead.seq ≤ t'.readHead.seq) : Sound (s.withTable t') := by
  refine ⟨hwhole, h.head_nonneg.trans hhead, ?_, ?_,
    fun a ha => (h.anchor_le a ha).trans hhead, ?_⟩
  · rw [LogState.withTable, List.map_append, List.map_map, List.nodup_append]
    refine ⟨h.given_nodup, (hwhole.increasing.filter _).nodup_map, ?_⟩
    intro x hx y hy
    obtain ⟨p, hp, rfl⟩ := List.mem_map.mp hx
    obtain ⟨r, hr, rfl⟩ := List.mem_map.mp hy
    obtain ⟨hr, hnot⟩ := List.mem_filter.mp hr
    have hlt := (hnew r hr).resolve_left (of_decide_eq_true hnot)
    have hle := h.given_le p hp
    simp only [Function.comp_apply]
    omega
  · intro p hp
    rcases List.mem_append.mp hp with hp | hp
    · exact (h.given_le p hp).trans hhead
    · obtain ⟨r, hr, rfl⟩ := List.mem_map.mp hp
      exact AuditTable.le_readHead (List.mem_filter.mp hr).1
  · intro a ha hrows r hr hseq
    have hle := h.anchor_le a ha
    refine h.anchor_head a ha hrows r ((hnew r hr).resolve_right ?_) hseq
    omega

theorem Sound.sameRows (h : Sound s) (hsame : t'.sealedRows = s.table.sealedRows) :
    Sound (s.withTable t') :=
  h.withTable (hsame ▸ h.whole) (fun r hr => Or.inl (hsame ▸ hr)) (by rw [readHead_congr hsame])

theorem Sound.insertRow (h : Sound s) (id createdAt : ℤ) (canon : String) :
    Sound (s.withTable ((s.table.insertRow id createdAt canon).getD s.table)) := by
  apply h.sameRows
  cases hins : s.table.insertRow id createdAt canon with
  | none => rfl
  | some t => exact AuditTable.sealedRows_insertRow hins

theorem Sound.sealBatch (h : Sound s) (limit : ℤ) :
    Sound (s.withTable ((s.table.sealBatch limit).elim s.table Prod.fst)) := by
  obtain ⟨t', n, hok, hrows, -⟩ :=
    AuditTable.sealBatch_spec s.table limit (length_readHead_hash h.whole)
  obtain ⟨hwhole, hfirst, hlast⟩ :=
    sealedRowsOf_sealFrom s.table.readHead (s.table.unsealedBatch limit)
  rw [hok, Option.elim_some]
  have hinc := AuditTable.increasing_append_batch (t := s.table) (s.table.unsealedBatch limit)
  have habove : ∀ r ∈ sealedRowsOf (sealFrom s.table.readHead (s.table.unsealedBatch limit)).1
      (s.table.unsealedBatch limit), s.table.readHead.seq < r.seq := by
    intro r hr
    have hhead := List.head?_eq_some_head (List.ne_nil_of_mem hr)
    have hle := hwhole.increasing.head_le hhead hr
    have := (hfirst _ hhead).1
    omega
  apply h.withTable
  · rw [hrows]
    refine h.whole.append hwhole fun a ha b hb => ?_
    obtain ⟨hseq, hprev⟩ := hfirst b hb
    rw [readHead_eq, Option.mem_def.mp ha] at hseq hprev
    exact ⟨hseq, hprev⟩
  · intro r hr
    rw [hrows] at hr
    exact (List.mem_append.mp hr).imp_right (habove r)
  · rw [AuditTable.readHead_of_append hrows, hlast]
    cases hl : (sealedRowsOf (sealFrom s.table.readHead (s.table.unsealedBatch limit)).1
        (s.table.unsealedBatch limit)).getLast? with
    | none => exact le_rfl
    | some r => exact (habove r (List.mem_of_getLast? hl)).le

/-- A purge that keeps the newest sealed row keeps the head. -/
theorem Sound.purge (h : Sound s) {cutoff : ℤ} {floor : Option ℤ} {n : ℕ}
    (hkeeps : KeepsHead s (.purge cutoff floor n)) :
    Sound (s.withTable (s.table.purge cutoff floor n)) := by
  obtain ⟨horder, hnewest⟩ := hkeeps
  have hsuffix := AuditTable.purge_suffix_iff.mpr horder
  have hhead : (s.table.purge cutoff floor n).readHead = s.table.readHead := by
    by_cases hnil : s.table.sealedRows = []
    · apply readHead_congr
      rw [hnil] at hsuffix ⊢
      exact List.suffix_nil.mp hsuffix
    · obtain ⟨last, hlast⟩ : ∃ last, s.table.sealedRows.getLast? = some last :=
        ⟨_, List.getLast?_eq_some_getLast hnil⟩
      obtain ⟨a, ha, har⟩ := AuditTable.mem_sealedRows.mp (List.mem_of_getLast? hlast)
      have hseq : a.chainSeq = some s.table.readHead.seq := by
        rw [readHead_eq, hlast]
        exact AuditTable.seq_of_sealedRow? har
      have hkept := AuditTable.mem_sealedRows_purge.mpr ⟨a, ha, har, hnewest a ha hseq⟩
      exact readHead_of_suffix hsuffix (List.ne_nil_of_mem hkept)
  exact h.withTable (h.whole.part hsuffix.isInfix) (fun r hr => Or.inl (hsuffix.subset hr))
    (by rw [hhead])

end Table

section Anchors
variable {s : LogState} {now : ℤ} {sink actor : String}

theorem nextFrom_le (h : Sound s) : s.log.nextFrom - 1 ≤ s.table.readHead.seq := by
  have hnonneg := h.head_nonneg
  unfold AuditLog.nextFrom
  cases hlast : s.log.lastAnchor with
  | some prev =>
    have := h.anchor_le prev (List.mem_of_getLast? hlast)
    simp only
    omega
  | none =>
    dsimp only
    split
    · next hpos =>
      unfold AuditTable.bounds at hpos ⊢
      cases hfirst : s.log.table.sealedRows.head? with
      | none => simp [hfirst] at hpos
      | some r =>
        have := AuditTable.le_readHead (t := s.table) (List.mem_of_head? hfirst)
        simp only [Option.elim_some]
        omega
    · omega

/-- The next anchor ends at the head, or covers nothing and ends no later. -/
theorem nextRange_le (h : Sound s) :
    s.log.nextRange.2.1 ≤ s.table.readHead.seq ∧
      (s.log.nextRange.2.2 ≠ 0 → s.log.nextRange.2.1 = s.table.readHead.seq) := by
  have hfrom := nextFrom_le h
  unfold AuditLog.nextRange
  dsimp only
  split
  · exact ⟨hfrom, fun hne => absurd rfl hne⟩
  · exact ⟨le_rfl, fun _ => rfl⟩

theorem hash_readHead {r : Row} (h : Whole s.table.sealedRows) (hr : r ∈ s.table.sealedRows)
    (hseq : r.seq = s.table.readHead.seq) : r.hash = s.table.readHead.hash := by
  obtain ⟨last, hlast⟩ : ∃ last, s.table.sealedRows.getLast? = some last :=
    ⟨_, List.getLast?_eq_some_getLast (List.ne_nil_of_mem hr)⟩
  rw [readHead_eq, hlast] at hseq ⊢
  rw [h.increasing.eq_of_key_eq hr (List.mem_of_getLast? hlast) hseq]
  rfl

/-- The digest just written fits: it lists the sign-offs as they are. -/
theorem objectFits_anchorOnce (log : AuditLog) (now : ℤ) (sink actor : String) :
    (log.anchorOnce now sink actor).1.ObjectFits (log.anchorOnce now sink actor).1.getObject
      (log.nextAnchor now sink actor) := by
  refine ⟨log.nextDigest now, ?_, rfl, ?_⟩
  · have hget : (log.anchorOnce now sink actor).1.objects.get
        (log.nextAnchor now sink actor).objectKey = some _ := Table.get_upsert_self _
    rw [AuditLog.getObject, hget]
    cases log.objects.get (log.nextAnchor now sink actor).objectKey <;> rfl
  · intro d hd
    obtain ⟨r, hr, rfl⟩ := List.mem_map.mp hd
    obtain ⟨review, hreview, rfl⟩ := List.mem_map.mp hr
    have hmem := (Table.mem_select.mp ((List.mem_insertionSort _).mp hreview)).1
    have hget := Table.get_of_mem hmem
    change (log.reviews.get review.id).map _ = _
    rw [hget, Option.map_some, Hex.decode_encode]

/-- Writing under an unused key leaves the earlier digests alone. -/
theorem objectFits_frame {log : AuditLog} {a : Anchor}
    (hfree : log.objects.get (log.nextAnchor now sink actor).objectKey = none)
    (h : log.ObjectFits log.getObject a) :
    (log.anchorOnce now sink actor).1.ObjectFits (log.anchorOnce now sink actor).1.getObject a := by
  obtain ⟨d, hd, hhash, hreviews⟩ := h
  refine ⟨d, ?_, hhash, hreviews⟩
  have hne : (log.nextAnchor now sink actor).objectKey ≠ a.objectKey := by
    intro he
    rw [AuditLog.getObject, ← he, hfree] at hd
    cases hd
  have hget : (log.anchorOnce now sink actor).1.objects.get a.objectKey =
      log.objects.get a.objectKey := Table.get_upsert_ne _ hne
  rw [AuditLog.getObject, hget]
  exact hd

theorem Sound.anchorOnce (h : Sound s) :
    Sound { s with log := (s.log.anchorOnce now sink actor).1 } := by
  obtain ⟨hle, hto⟩ := nextRange_le h
  refine ⟨h.whole, h.head_nonneg, h.given_nodup, h.given_le, ?_, ?_⟩
  · intro a ha
    rcases List.mem_append.mp ha with ha | ha
    · exact h.anchor_le a ha
    · rw [List.mem_singleton.mp ha]
      exact hle
  · intro a ha hrows r hr hseq
    rcases List.mem_append.mp ha with ha | ha
    · exact h.anchor_head a ha hrows r hr hseq
    · rw [List.mem_singleton.mp ha] at hrows hseq ⊢
      exact hash_readHead h.whole hr (hseq.trans (hto hrows))

end Anchors

theorem logStep_sound (s : LogState) (a : LogStep) (h : Sound s) (hkeeps : KeepsHead s a) :
    Sound (logStep s a) := by
  cases a with
  | insertRow id createdAt canon =>
    rw [logStep]
    split
    · exact h
    · have hins := h.insertRow id createdAt canon
      exact ⟨hins.whole, hins.head_nonneg, hins.given_nodup, hins.given_le, hins.anchor_le,
        hins.anchor_head⟩
  | sealBatch limit => exact h.sealBatch limit
  | purge cutoff floor n => exact h.purge hkeeps
  | anchorOnce now sink actor => exact h.anchorOnce

theorem logStep_digestsKept (s : LogState) (a : LogStep) (h : DigestsKept s)
    (hfresh : FreshKey s a) : DigestsKept (logStep s a) := by
  cases a with
  | insertRow id createdAt canon =>
    rw [logStep]
    split <;> exact h
  | sealBatch limit => exact h
  | purge cutoff floor n => exact h
  | anchorOnce now sink actor =>
    intro a ha
    rcases List.mem_append.mp ha with ha | ha
    · exact objectFits_frame hfresh (h a ha)
    · rw [List.mem_singleton.mp ha]
      exact objectFits_anchorOnce s.log now sink actor

theorem sound_start (reviews : Table Review.id) : Sound (LogState.start reviews) :=
  ⟨whole_nil, le_rfl, List.nodup_nil, by simp [LogState.start], by simp [LogState.start],
    by simp [LogState.start]⟩

theorem digestsKept_start (reviews : Table Review.id) : DigestsKept (LogState.start reviews) := by
  simp [DigestsKept, LogState.start]

/-- The row at a position is the one `headIn` finds. -/
theorem headIn_of_mem {rows : List Row} {r : Row} {seq : ℤ} (hinc : Increasing Row.seq rows)
    (hr : r ∈ rows) (hseq : r.seq = seq) : headIn rows seq = r.hash := by
  have hne : (rows.find? fun x => x.seq == seq) ≠ none := fun hnone => by
    have := List.find?_eq_none.mp hnone r hr
    simp [hseq] at this
  obtain ⟨x, hx⟩ := Option.ne_none_iff_exists'.mp hne
  have hxseq : x.seq = seq := by simpa using List.find?_some hx
  have heq := hinc.eq_of_key_eq (List.mem_of_find?_eq_some hx) hr (hxseq.trans hseq.symm)
  rw [headIn, hx, Option.elim_some, heq]

/-- Of an honest log every range verifies that holds a row, or that only empty anchors end in. -/
theorem Sound.verified {s : LogState} (h : Sound s) (hkept : DigestsKept s) {objects : Option ObjectStore}
    {fromSeq toSeq : ℤ} (hobjects : objects = none ∨ objects = some s.log.getObject)
    (hrange : s.table.rowsBetween fromSeq toSeq ≠ [] ∨
      ∀ a ∈ s.log.anchorsIn fromSeq toSeq, a.rows = 0) :
    s.log.Verified objects fromSeq toSeq := by
  refine ⟨h.whole.part (h.whole.increasing.filter_between_part fromSeq toSeq), ?_⟩
  intro a ha hreached
  have hmem : a ∈ s.log.anchors := (List.mem_filter.mp ha).1
  refine ⟨?_, fun store hstore => ?_⟩
  · by_cases hrows : a.rows = 0
    · exact Or.inl hrows
    · have hne := hrange.resolve_right fun hempty => hrows (hempty a ha)
      obtain ⟨r, hr, hseq⟩ := hreached.resolve_left hne
      have hsealed := (AuditTable.mem_rowsBetween.mp hr).1
      rw [headIn_of_mem increasing_rowsBetween hr hseq]
      exact Or.inr (h.anchor_head a hmem hrows r hsealed hseq)
  · rcases hobjects with rfl | rfl
    · cases hstore
    · obtain rfl := Option.some.inj hstore
      exact hkept a hmem

/-- An honest log whose purges leave the newest sealed row and whose anchors go to fresh keys:
no position is given twice, the head stays at or above every anchored position, and every
range that holds a row, or that only empty anchors end in, is reported good, the digests
compared or not, or refused as too long. -/
theorem honest_log_verifies (reviews : Table Review.id) (steps : List LogStep)
    (h : Along logStep (fun s a => KeepsHead s a ∧ FreshKey s a) (LogState.start reviews) steps) :
    ((exec logStep (LogState.start reviews) steps).given.map Prod.fst).Nodup ∧
    (∀ a ∈ (exec logStep (LogState.start reviews) steps).log.anchors,
      a.toSeq ≤ (exec logStep (LogState.start reviews) steps).table.readHead.seq) ∧
    ∀ (objects : Option ObjectStore) (page fromSeq toSeq : ℤ),
      (objects = none ∨
        objects = some (exec logStep (LogState.start reviews) steps).log.getObject) →
      ((exec logStep (LogState.start reviews) steps).table.rowsBetween fromSeq toSeq ≠ [] ∨
        ∀ a ∈ (exec logStep (LogState.start reviews) steps).log.anchorsIn fromSeq toSeq,
          a.rows = 0) →
      (maxVerifyRows < toSeq - fromSeq + 1 ∧
        (exec logStep (LogState.start reviews) steps).log.verify objects page fromSeq toSeq =
          .error .tooMany) ∨
      ∃ rep, (exec logStep (LogState.start reviews) steps).log.verify objects page fromSeq toSeq =
        .ok rep ∧ rep.ok = true := by
  have hsound := exec_invariant logStep_sound (sound_start reviews)
    (h.mono fun _ _ hstep => hstep.1)
  have hkept := exec_invariant logStep_digestsKept (digestsKept_start reviews)
    (h.mono fun _ _ hstep => hstep.2)
  refine ⟨hsound.given_nodup, hsound.anchor_le, fun objects page fromSeq toSeq hobjects hrange => ?_⟩
  have hverified := hsound.verified hkept hobjects hrange
  by_cases hempty : toSeq < fromSeq
  · exact Or.inr ⟨_, by rw [verify_eq, if_pos hempty], rfl⟩
  by_cases hlong : maxVerifyRows < toSeq - fromSeq + 1
  · exact Or.inl ⟨hlong, by rw [verify_eq, if_neg hempty, if_pos hlong]⟩
  · obtain ⟨rep, hrep, hok⟩ := verify_spec page (not_lt.mp hempty) (not_lt.mp hlong)
    exact Or.inr ⟨rep, hrep, hok.mpr hverified⟩

instance : (s : LogState) → (a : LogStep) → Decidable (KeepsHead s a)
  | _, .insertRow _ _ _ => isTrue trivial
  | _, .sealBatch _ => isTrue trivial
  | s, .purge cutoff floor n =>
      inferInstanceAs (Decidable (s.table.InChainOrder cutoff floor n ∧
        ∀ a ∈ s.table.rows, a.chainSeq = some s.table.readHead.seq →
          ¬ (AuditTable.purgeable cutoff (s.table.minKept cutoff) floor a = true ∧
            s.table.rank (AuditTable.purgeable cutoff (s.table.minKept cutoff) floor) a <
              n * batchSize)))
  | _, .anchorOnce _ _ _ => isTrue trivial

instance : (s : LogState) → (a : LogStep) → Decidable (FreshKey s a)
  | _, .insertRow _ _ _ => isTrue trivial
  | _, .sealBatch _ => isTrue trivial
  | _, .purge _ _ _ => isTrue trivial
  | s, .anchorOnce now _ _ =>
      inferInstanceAs (Decidable
        (s.log.objects.get (objectKey now s.log.nextRange.1 s.log.nextRange.2.1) = none))

/-- A quiet log: its one row is sealed, anchored and past the window before the next comes. -/
def quietRun : List LogStep :=
  [.insertRow 1 0 "a", .sealBatch 0, .anchorOnce 1000000 "archive" "system", .purge 10 none 1,
    .insertRow 2 20 "b", .sealBatch 0]

/-- The purge empties the chain, the next row takes position 1 again, and the anchor there
no longer agrees. -/
theorem quietRun_position_reused :
    (exec logStep (LogState.start Table.empty) quietRun).given = [(1, 1), (1, 2)] ∧
      (exec logStep (LogState.start Table.empty) (quietRun.take 4)).table.readHead.seq = 0 ∧
      (exec logStep (LogState.start Table.empty) quietRun).log.anchors.map Anchor.toSeq = [1] ∧
      ((exec logStep (LogState.start Table.empty) quietRun).log.verify none 0 1 1).toOption.map
        Report.ok = some false := by
  decide +kernel

/-- The same log with its newest row inside the window when the purge comes. -/
def busyRun : List LogStep :=
  [.insertRow 1 0 "a", .sealBatch 0, .anchorOnce 1000000 "archive" "system", .insertRow 2 20 "b",
    .sealBatch 0, .purge 10 none 1, .anchorOnce 2000000 "archive" "system"]

theorem honest_log_verifies_busyRun :
    ∃ rep, (exec logStep (LogState.start Table.empty) busyRun).log.verify
      (some (exec logStep (LogState.start Table.empty) busyRun).log.getObject) 0 1 2 = .ok rep ∧
        rep.ok = true :=
  ((honest_log_verifies Table.empty busyRun (by decide +kernel)).2.2 _ 0 1 2 (Or.inr rfl)
    (Or.inl (by decide))).resolve_left fun h => absurd h.1 (by decide)

end Kubeast.AuditChain
