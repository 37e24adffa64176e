import Kubeast.AuditChain.Verify

/-! What a verification reports is the first fault of the range, whatever the size of its pages. -/
namespace Kubeast.AuditChain

/-- What is wrong with a row behind the row before it: its position, then its link, then its hash. -/
def Row.fault (before : Option Row) (r : Row) : Option (ℤ × String) :=
  match before with
  | none => if r.Sound then none else some (r.seq, "hash_mismatch")
  | some b =>
    if r.seq ≠ b.seq + 1 then some (b.seq + 1, "gap")
    else if r.prev ≠ b.hash then some (r.seq, "chain_break")
    else if r.Sound then none else some (r.seq, "hash_mismatch")

def firstFault : Option Row → List Row → Option (ℤ × String)
  | _, [] => none
  | before, r :: rows => (r.fault before).or (firstFault (some r) rows)

/-- The report of a walk tells the fault, or none. -/
def Report.Tells (rep : Report) : Option (ℤ × String) → Prop
  | some (seq, reason) => rep.ok = false ∧ rep.firstBadSeq = seq ∧ rep.reason = reason
  | none => rep.firstBadSeq = 0 ∧ rep.reason = if rep.ok then "" else "anchor_mismatch"

section Walk
variable {w : Walk} {before : Option Row} {r : Row} {rows : List Row}

/-- The walk stands behind the row `before`, and all was well so far. -/
structure Walk.Behind (w : Walk) (before : Option Row) : Prop where
  ok : w.report.ok = true
  firstBadSeq : w.report.firstBadSeq = 0
  reason : w.report.reason = ""
  first : w.first = before.isNone
  prev : ∀ b ∈ before, w.prevSeq = b.seq ∧ w.prevHash = b.hash

theorem fault_eq_none (h : w.Behind before) : r.fault before = none ↔ w.Accepts r := by
  unfold Row.fault Walk.Accepts
  rw [h.first]
  cases before with
  | none => simp
  | some b =>
    obtain ⟨hseq, hhash⟩ := h.prev b rfl
    rw [hseq, hhash]
    by_cases hposition : r.seq = b.seq + 1 <;> by_cases hlink : r.prev = b.hash <;>
      simp [hposition, hlink]

theorem Walk.Behind.visit (h : w.Behind before) (ha : r.fault before = none) :
    (w.visit r).Behind (some r) := by
  rw [Walk.visit_accepted h.ok ((fault_eq_none h).mp ha)]
  exact ⟨h.ok, h.firstBadSeq, h.reason, rfl, fun b hb => by
    obtain rfl := Option.some.inj (Option.mem_def.mp hb)
    exact ⟨rfl, rfl⟩⟩

theorem Walk.Behind.visit_fault (h : w.Behind before) {f : ℤ × String} (hf : r.fault before = some f) :
    (w.visit r).report.Tells (some f) := by
  have hok := h.ok
  unfold Row.fault at hf
  unfold Walk.visit
  rw [h.first]
  cases before with
  | none =>
    dsimp only at hf
    split at hf
    · cases hf
    · next hsound =>
      obtain rfl := Option.some.inj hf
      simp [hok, hsound, Report.fail, Report.Tells]
  | some b =>
    obtain ⟨hseq, hhash⟩ := h.prev b rfl
    rw [hseq, hhash]
    dsimp only at hf
    split at hf
    · next hposition =>
      obtain rfl := Option.some.inj hf
      simp [hok, hposition, Report.fail, Report.Tells]
    · next hposition =>
      rw [not_not] at hposition
      split at hf
      · next hlink =>
        obtain rfl := Option.some.inj hf
        simp [hok, hposition, hlink, Report.fail, Report.Tells]
      · next hlink =>
        rw [not_not] at hlink
        split at hf
        · cases hf
        · next hsound =>
          obtain rfl := Option.some.inj hf
          simp [hok, hposition, hlink, hsound, Report.fail, Report.Tells]

theorem Walk.Behind.foldl (h : w.Behind before) :
    (rows.foldl Walk.visit w).report.Tells (firstFault before rows) := by
  induction rows generalizing w before with
  | nil => exact ⟨h.firstBadSeq, by rw [List.foldl_nil, h.ok, h.reason]; rfl⟩
  | cons r rows ih =>
    rw [List.foldl_cons, firstFault]
    cases hf : r.fault before with
    | none =>
      rw [Option.none_or]
      exact ih (h.visit hf)
    | some f =>
      have htells := h.visit_fault hf
      rw [Option.some_or, Walk.foldl_failed htells.1]
      exact htells

end Walk

section Report
variable {log : AuditLog} {objects : Option ObjectStore} {heads : Dict ℤ Bytes} {rep : Report}
  {f : Option (ℤ × String)} {anchors : List Anchor} {w : Walk}

theorem Report.Tells.walkedReport (h : w.report.Tells f) : (walkedReport w).Tells f := by
  unfold Kubeast.AuditChain.walkedReport
  split <;> exact h

theorem reason_of_fault {before : Option Row} {r : Row} {seq : ℤ} {reason : String}
    (h : r.fault before = some (seq, reason)) : reason ≠ "" := by
  unfold Row.fault at h
  split at h
  · split at h
    · cases h
    · cases h
      decide
  · split at h
    · cases h
      decide
    · split at h
      · cases h
        decide
      · split at h
        · cases h
        · cases h
          decide

theorem reason_of_firstFault {before : Option Row} {rows : List Row} {seq : ℤ} {reason : String}
    (h : firstFault before rows = some (seq, reason)) : reason ≠ "" := by
  induction rows generalizing before with
  | nil => cases h
  | cons r rows ih =>
    rw [firstFault] at h
    cases hf : r.fault before with
    | none =>
      rw [hf, Option.none_or] at h
      exact ih h
    | some f =>
      rw [hf, Option.some_or] at h
      exact reason_of_fault (hf.trans h)

/-- The anchors add a reason of their own only where the walk found none. -/
theorem Report.Tells.reportAnchor (h : rep.Tells f) (hf : ∀ seq reason, f = some (seq, reason) → reason ≠ "")
    (a : Anchor) : (log.reportAnchor objects heads rep a).Tells f := by
  unfold AuditLog.reportAnchor
  split
  · exact h
  · dsimp only
    split
    · exact h
    · cases f with
      | some f =>
        obtain ⟨-, hseq, hreason⟩ := h
        have hne : rep.reason ≠ "" := hreason.trans_ne (hf f.1 f.2 rfl)
        refine ⟨rfl, hseq, ?_⟩
        dsimp only
        rw [if_neg hne, hreason]
      | none =>
        obtain ⟨hseq, hreason⟩ := h
        refine ⟨hseq, ?_⟩
        dsimp only
        rw [hreason]
        cases rep.ok <;> rfl

theorem Report.Tells.foldl (h : rep.Tells f) (hf : ∀ seq reason, f = some (seq, reason) → reason ≠ "") :
    (anchors.foldl (log.reportAnchor objects heads) rep).Tells f := by
  induction anchors generalizing rep with
  | nil => exact h
  | cons a anchors ih => exact ih (h.reportAnchor hf a)

end Report

/-- Any page size gives the report of one page over the whole range, and it tells the first fault. -/
theorem verify_paged (log : AuditLog) (objects : Option ObjectStore) (page onePage fromSeq toSeq : ℤ)
    (hmax : toSeq - fromSeq + 1 ≤ maxVerifyRows) :
    log.verify objects page fromSeq toSeq = log.verify objects onePage fromSeq toSeq ∧
      ∃ rep, log.verify objects page fromSeq toSeq = .ok rep ∧
        rep.Tells (firstFault none (log.table.rowsBetween fromSeq toSeq)) := by
  refine ⟨by rw [verify_eq, verify_eq], ?_⟩
  rw [verify_eq]
  by_cases hempty : toSeq < fromSeq
  · have hnone : log.table.rowsBetween fromSeq toSeq = [] := by
      rw [List.eq_nil_iff_forall_not_mem]
      intro r hr
      obtain ⟨-, hlow, hhigh⟩ := AuditTable.mem_rowsBetween.mp hr
      omega
    rw [if_pos hempty, hnone]
    exact ⟨_, rfl, rfl, rfl⟩
  · rw [if_neg hempty, if_neg (by omega)]
    have hbehind : (log.startWalk fromSeq toSeq).Behind none :=
      ⟨rfl, rfl, rfl, rfl, fun b hb => by cases hb⟩
    refine ⟨_, rfl, ?_⟩
    exact (hbehind.foldl.walkedReport).foldl fun seq reason h => reason_of_firstFault h

/-- Three rows sealed, the second deleted. -/
def withGap : AuditLog :=
  let add := fun (t : AuditTable) id canon => (t.insertRow id 0 canon).getD t
  let t := add (add (add .empty 1 "a") 2 "b") 3 "c"
  ⟨(((t.sealBatch 0).map Prod.fst).getD t).deleteRows fun r => r.id = 2, [], Table.empty, Table.empty⟩

theorem verify_paged_withGap : withGap.verify none 1 1 3 = withGap.verify none 3 1 3 ∧
    ∃ rep, withGap.verify none 1 1 3 = .ok rep ∧ rep.ok = false ∧ rep.firstBadSeq = 2 ∧ rep.reason = "gap" := by
  have hfault : firstFault none (withGap.table.rowsBetween 1 3) = some (2, "gap") := by decide +kernel
  have h := verify_paged withGap none 1 3 1 3 (by decide)
  rw [hfault] at h
  exact h

section Stretches
variable {log : AuditLog} {objects : Option ObjectStore} {t : AuditTable} {r : Row} {rows p q : List Row}
  {a b c s : ℤ}

theorem whole_split : Whole (p ++ r :: q) ↔ Whole (p ++ [r]) ∧ Whole (r :: q) := by
  constructor
  · intro h
    exact ⟨h.part ⟨[], q, by simp⟩, h.part ⟨p, [], by simp⟩⟩
  · rintro ⟨hp, hq⟩
    refine ⟨fun x hx => ?_, List.isChain_split.mpr ⟨hp.links, hq.links⟩⟩
    rcases List.mem_append.mp hx with hx | hx
    · exact hp.sound x (List.mem_append_left _ hx)
    · exact hq.sound x hx

/-- A range is cut at a row, which both parts hold. -/
theorem rowsBetween_split (hr : r ∈ t.sealedRows) (ha : a ≤ r.seq) (hc : r.seq ≤ c) :
    ∃ p q, t.rowsBetween a r.seq = p ++ [r] ∧ t.rowsBetween r.seq c = r :: q ∧
      t.rowsBetween a c = p ++ r :: q := by
  obtain ⟨p, q, hsplit⟩ := List.append_of_mem hr
  have hincreasing := t.increasing_sealedRows
  rw [hsplit] at hincreasing
  obtain ⟨-, hq, hp⟩ := List.pairwise_append.mp hincreasing
  have hbefore (x : Row) (hx : x ∈ p) : x.seq < r.seq := hp x hx r List.mem_cons_self
  have hafter (x : Row) (hx : x ∈ q) : r.seq < x.seq := (List.pairwise_cons.mp hq).1 x hx
  refine ⟨p.filter fun x => decide (a ≤ x.seq), q.filter fun x => decide (x.seq ≤ c), ?_, ?_, ?_⟩
  all_goals
    unfold AuditTable.rowsBetween
    rw [hsplit, List.filter_append, List.filter_cons_of_pos (by simp [ha, hc])]
  · have hnone : q.filter (fun x => decide (a ≤ x.seq ∧ x.seq ≤ r.seq)) = [] :=
      List.filter_eq_nil_iff.mpr fun x hx => by simp [hafter x hx]
    rw [hnone]
    refine congrArg (· ++ [r]) (List.filter_congr fun x hx => ?_)
    simp [(hbefore x hx).le]
  · have hnone : p.filter (fun x => decide (r.seq ≤ x.seq ∧ x.seq ≤ c)) = [] :=
      List.filter_eq_nil_iff.mpr fun x hx => by simp [hbefore x hx]
    rw [hnone, List.nil_append]
    refine congrArg (r :: ·) (List.filter_congr fun x hx => ?_)
    simp [(hafter x hx).le]
  · have hhigh (x : Row) (hx : x ∈ p) : x.seq ≤ c := (hbefore x hx).le.trans hc
    have hlow (x : Row) (hx : x ∈ q) : a ≤ x.seq := ha.trans (hafter x hx).le
    refine congrArg₂ (· ++ r :: ·) (List.filter_congr fun x hx => ?_) (List.filter_congr fun x hx => ?_)
    · simp [hhigh x hx]
    · simp [hlow x hx]

theorem headIn_rowsBetween (ha : a ≤ s) (hc : s ≤ c) : headIn (t.rowsBetween a c) s = headIn t.sealedRows s := by
  unfold headIn AuditTable.rowsBetween
  rw [List.find?_filter]
  refine congrArg (fun o => Option.elim o [] Row.hash) (congrArg (fun f => List.find? f _) (funext fun x => ?_))
  by_cases hx : x.seq = s
  · subst hx
    simp [ha, hc]
  · simp [hx]

/-- The anchors of a range that holds a row. -/
theorem verified_row (hr : r ∈ log.table.sealedRows) (ha : a ≤ r.seq) (hc : r.seq ≤ c) :
    log.Verified objects a c ↔ Whole (log.table.rowsBetween a c) ∧ ∀ x ∈ log.anchors, a ≤ x.toSeq → x.toSeq ≤ c →
      (∃ r ∈ log.table.sealedRows, r.seq = x.toSeq) → log.Fits objects log.table.sealedRows x := by
  have hne : log.table.rowsBetween a c ≠ [] :=
    List.ne_nil_of_mem (AuditTable.mem_rowsBetween.mpr ⟨hr, ha, hc⟩)
  have hfits (x : Anchor) (hlow : a ≤ x.toSeq) (hhigh : x.toSeq ≤ c) :
      log.Fits objects (log.table.rowsBetween a c) x ↔ log.Fits objects log.table.sealedRows x := by
    have hhead := headIn_rowsBetween (t := log.table) hlow hhigh
    exact ⟨fun h => ⟨hhead ▸ h.head, h.object⟩, fun h => ⟨hhead.symm ▸ h.head, h.object⟩⟩
  have hrow (x : Anchor) (hlow : a ≤ x.toSeq) (hhigh : x.toSeq ≤ c) :
      (∃ r ∈ log.table.rowsBetween a c, r.seq = x.toSeq) ↔ ∃ r ∈ log.table.sealedRows, r.seq = x.toSeq := by
    refine exists_congr fun y => and_congr_left fun hy => ?_
    rw [AuditTable.mem_rowsBetween, hy]
    exact and_iff_left ⟨hlow, hhigh⟩
  rw [verified_iff]
  refine and_congr_right fun _ => ?_
  constructor
  · intro h x hx hlow hhigh hat
    refine (hfits x hlow hhigh).mp (h x ?_ (.inr ((hrow x hlow hhigh).mpr hat)))
    exact List.mem_filter.mpr ⟨hx, decide_eq_true ⟨hlow, hhigh⟩⟩
  · intro h x hx hat
    obtain ⟨hx, hin⟩ := List.mem_filter.mp hx
    obtain ⟨hlow, hhigh⟩ := of_decide_eq_true hin
    exact (hfits x hlow hhigh).mpr (h x hx hlow hhigh ((hrow x hlow hhigh).mp (hat.resolve_left hne)))

/-- Two ranges that meet in a row. -/
theorem verified_join (hr : r ∈ log.table.sealedRows) (ha : a ≤ r.seq) (hc : r.seq ≤ c) :
    log.Verified objects a c ↔ log.Verified objects a r.seq ∧ log.Verified objects r.seq c := by
  obtain ⟨p, q, hbefore, hafter, hall⟩ := rowsBetween_split hr ha hc
  rw [verified_row hr ha hc, verified_row hr ha le_rfl, verified_row hr le_rfl hc, hbefore, hafter, hall, whole_split]
  constructor
  · rintro ⟨⟨hp, hq⟩, hanchors⟩
    exact ⟨⟨hp, fun x hx hlow hhigh => hanchors x hx hlow (hhigh.trans hc)⟩,
      ⟨hq, fun x hx hlow hhigh => hanchors x hx (ha.trans hlow) hhigh⟩⟩
  · rintro ⟨⟨hp, hbefore⟩, ⟨hq, hafter⟩⟩
    refine ⟨⟨hp, hq⟩, fun x hx hlow hhigh hat => ?_⟩
    rcases le_total x.toSeq r.seq with hle | hle
    · exact hbefore x hx hlow hle hat
    · exact hafter x hx hle hhigh hat

/-- A chain of any length is verified stretch by stretch, where each begins with the row that the one before
ended with. -/
theorem verify_stretches (log : AuditLog) (objects : Option ObjectStore) (page a b : ℤ) (cuts : List ℤ)
    (hsteps : (a :: (cuts ++ [b])).IsChain fun x y => x ≤ y ∧ y - x + 1 ≤ maxVerifyRows)
    (hrows : ∀ c ∈ cuts, ∃ r ∈ log.table.sealedRows, r.seq = c) :
    (a :: (cuts ++ [b])).IsChain (fun x y => ∃ rep, log.verify objects page x y = .ok rep ∧ rep.ok = true) ↔
      log.Verified objects a b := by
  have hstep {x y : ℤ} (h : x ≤ y ∧ y - x + 1 ≤ maxVerifyRows) :
      (∃ rep, log.verify objects page x y = .ok rep ∧ rep.ok = true) ↔ log.Verified objects x y := by
    have hspec : ∃ rep, log.verify objects page x y = .ok rep ∧ (rep.ok = true ↔ log.Verified objects x y) :=
      verify_spec page h.1 h.2
    obtain ⟨rep, hverify, hok⟩ := hspec
    rw [hverify, ← hok]
    exact ⟨fun ⟨_, hrep, h⟩ => Except.ok.inj hrep ▸ h, fun h => ⟨rep, rfl, h⟩⟩
  induction cuts generalizing a with
  | nil =>
    rw [List.nil_append, List.isChain_pair] at hsteps ⊢
    exact hstep hsteps
  | cons c cuts ih =>
    rw [List.cons_append, List.isChain_cons_cons] at hsteps ⊢
    obtain ⟨r, hr, rfl⟩ := hrows c List.mem_cons_self
    have hle : r.seq ≤ b := by
      have hchain := (hsteps.2.imp fun x y h => h.1).pairwise
      exact (List.pairwise_cons.mp hchain).1 b (by simp)
    have hrest := ih r.seq hsteps.2 (fun x hx => hrows x (List.mem_cons_of_mem _ hx))
    rw [verified_join hr hsteps.1.1 hle]
    exact and_congr (hstep hsteps.1) hrest

/-- Three rows sealed. -/
def intact : AuditLog :=
  let add := fun (t : AuditTable) id canon => (t.insertRow id 0 canon).getD t
  let t := add (add (add .empty 1 "a") 2 "b") 3 "c"
  ⟨((t.sealBatch 0).map Prod.fst).getD t, [], Table.empty, Table.empty⟩

theorem verify_stretches_intact : ([1, 2, 3] : List ℤ).IsChain (fun x y => ∃ rep,
    intact.verify none 10 x y = .ok rep ∧ rep.ok = true) ↔ intact.Verified none 1 3 :=
  verify_stretches intact none 10 1 3 [2] (by decide) (by decide +kernel)

end Stretches

end Kubeast.AuditChain
