import Kubeast.AuditChain.Honest

/-! What a verification sees of a tampered table. -/
namespace Kubeast.AuditChain
open Sha256 Sorted Transition

/-- No two of the messages have the same hash. -/
def NoCollision (messages : List Bytes) : Prop :=
  ∀ x ∈ messages, ∀ y ∈ messages, sha256 x = sha256 y → x = y

instance (messages : List Bytes) : Decidable (NoCollision messages) :=
  inferInstanceAs (Decidable (∀ x ∈ messages, ∀ y ∈ messages, sha256 x = sha256 y → x = y))

/-- What is hashed for the rows of a table. -/
def AuditTable.messages (t : AuditTable) : List Bytes :=
  t.sealedRows.map fun r => message r.prev r.canon

/-- A table whose sealed rows are some of the old ones, with other contents, hashes or links. -/
def Tampered (t t' : AuditTable) : Prop :=
  ∀ r' ∈ t'.sealedRows, ∃ r ∈ t.sealedRows, r.seq = r'.seq ∧ r.id = r'.id

instance (t t' : AuditTable) : Decidable (Tampered t t') :=
  inferInstanceAs (Decidable (∀ r' ∈ t'.sealedRows, ∃ r ∈ t.sealedRows, r.seq = r'.seq ∧ r.id = r'.id))

section Commit
variable {rows rows' : List Row} {x x' e e' : Row}

/-- A hash commits to its row and to the hash before it. -/
theorem Whole.same_of_hash (h : Whole rows) (h' : Whole rows')
    (hfree : NoCollision ((rows ++ rows').map fun r => message r.prev r.canon))
    (hx : x ∈ rows) (hx' : x' ∈ rows') (hhash : x.hash = x'.hash) {p p' : Row} (hp : p ∈ rows)
    (hp' : p' ∈ rows') (hf : p.Follows x) (hf' : p'.Follows x') :
    x.prev = x'.prev ∧ x.canon = x'.canon ∧ p.hash = p'.hash := by
  have hsame : rowHash x.prev x.canon = rowHash x'.prev x'.canon :=
    (h.sound x hx).trans (hhash.trans (h'.sound x' hx').symm)
  have hmessage : message x.prev x.canon = message x'.prev x'.canon := by
    refine hfree _ (List.mem_map.mpr ⟨x, ?_, rfl⟩) _ (List.mem_map.mpr ⟨x', ?_, rfl⟩) hsame
    · exact List.mem_append_left _ hx
    · exact List.mem_append_right _ hx'
  have hlen : x.prev.length = x'.prev.length := by
    rw [hf.2, hf'.2, ← h.sound p hp, ← h'.sound p' hp', length_rowHash, length_rowHash]
  obtain ⟨hprev, hcanon⟩ := message_inj hlen hmessage
  exact ⟨hprev, hcanon, by rw [← hf.2, hprev, hf'.2]⟩

/-- Above a position both stretches have, rows of one position and hash are the same, and so
are the hashes one position before. -/
theorem Whole.same_below (h : Whole rows) (h' : Whole rows')
    (hfree : NoCollision ((rows ++ rows').map fun r => message r.prev r.canon))
    (he : e ∈ rows) (he' : e' ∈ rows') (hee : e.seq = e'.seq) (hx : x ∈ rows) (hx' : x' ∈ rows')
    (hseq : x.seq = x'.seq) (hhash : x.hash = x'.hash) (hlt : e.seq < x.seq) :
    (x.prev = x'.prev ∧ x.canon = x'.canon) ∧ ∃ p ∈ rows, ∃ p' ∈ rows',
      p.seq = x.seq - 1 ∧ p'.seq = x.seq - 1 ∧ p.hash = p'.hash := by
  obtain ⟨p, hp, hf⟩ := h.exists_before he hx hlt
  obtain ⟨p', hp', hf'⟩ := h'.exists_before he' hx' (by omega)
  obtain ⟨hprev, hcanon, hbefore⟩ := h.same_of_hash h' hfree hx hx' hhash hp hp' hf hf'
  have := hf.1
  have := hf'.1
  exact ⟨⟨hprev, hcanon⟩, p, hp, p', hp', by omega, by omega, hbefore⟩

/-- From one shared hash down to a shared position all hashes are shared. -/
theorem Whole.hash_below (h : Whole rows) (h' : Whole rows')
    (hfree : NoCollision ((rows ++ rows').map fun r => message r.prev r.canon))
    (he : e ∈ rows) (he' : e' ∈ rows') (hee : e.seq = e'.seq) (hx : x ∈ rows) (hx' : x' ∈ rows')
    (hseq : x.seq = x'.seq) (hhash : x.hash = x'.hash) (n : ℕ) (hn : e.seq ≤ x.seq - n) :
    ∃ y ∈ rows, ∃ y' ∈ rows', y.seq = x.seq - n ∧ y'.seq = x.seq - n ∧ y.hash = y'.hash := by
  induction n with
  | zero => exact ⟨x, hx, x', hx', by omega, by omega, hhash⟩
  | succ n ih =>
    push_cast at hn ⊢
    obtain ⟨y, hy, y', hy', hys, hys', hyhash⟩ := ih (by omega)
    obtain ⟨-, p, hp, p', hp', hps, hps', hphash⟩ :=
      h.same_below h' hfree he he' hee hy hy' (hys.trans hys'.symm) hyhash (by omega)
    exact ⟨p, hp, p', hp', by omega, by omega, hphash⟩

end Commit

section Detection
variable {t t' : AuditTable} {fromSeq toSeq : ℤ} {c e r r' : Row}

theorem noCollision_rowsBetween (fromSeq toSeq : ℤ) (hfree : NoCollision (t.messages ++ t'.messages)) :
    NoCollision ((t.sealedRows ++ t'.rowsBetween fromSeq toSeq).map
      fun r => message r.prev r.canon) := by
  have hsub : ∀ m ∈ (t.sealedRows ++ t'.rowsBetween fromSeq toSeq).map
      (fun r => message r.prev r.canon), m ∈ t.messages ++ t'.messages := by
    intro m hm
    obtain ⟨r, hr, rfl⟩ := List.mem_map.mp hm
    refine List.mem_append.mpr ((List.mem_append.mp hr).imp (fun hr => ?_) fun hr => ?_)
    · exact List.mem_map.mpr ⟨r, hr, rfl⟩
    · exact List.mem_map.mpr ⟨r, (AuditTable.mem_rowsBetween.mp hr).1, rfl⟩
  exact fun x hx y hy => hfree x (hsub x hx) y (hsub y hy)

/-- Where a whole range has a row with its old hash, every old row between an earlier row of the
range and it is still there. -/
theorem unchanged_of_hash (hwhole : Whole t.sealedRows) (htampered : Tampered t t')
    (hfree : NoCollision (t.messages ++ t'.messages))
    (hrange : Whole (t'.rowsBetween fromSeq toSeq))
    (he : e ∈ t'.rowsBetween fromSeq toSeq) (hr : r ∈ t.sealedRows)
    (hr' : r' ∈ t'.rowsBetween fromSeq toSeq) (hseq : r.seq = r'.seq) (hhash : r.hash = r'.hash)
    (hc : c ∈ t.sealedRows) (hec : e.seq < c.seq) (hcr : c.seq ≤ r.seq) :
    c ∈ t'.sealedRows := by
  obtain ⟨e₀, he₀, hee, -⟩ := htampered e (AuditTable.mem_rowsBetween.mp he).1
  have hfree' := noCollision_rowsBetween fromSeq toSeq hfree
  obtain ⟨y, hy, y', hy', hys, hys', hyhash⟩ :=
    hwhole.hash_below hrange hfree' he₀ he hee hr hr' hseq hhash (r.seq - c.seq).toNat (by omega)
  have hyc : y = c := hwhole.increasing.eq_of_key_eq hy hc (by omega)
  subst hyc
  obtain ⟨⟨hprev, hcanon⟩, -⟩ :=
    hwhole.same_below hrange hfree' he₀ he hee hy hy' (by omega) hyhash (by omega)
  have hleft := (AuditTable.mem_rowsBetween.mp hy').1
  obtain ⟨z, hz, hzs, hzid⟩ := htampered y' hleft
  have hzy : z = y := hwhole.increasing.eq_of_key_eq hz hy (by omega)
  have hsame : y' = y := by
    rw [hzy] at hzid
    have hseqs : y'.seq = y.seq := by omega
    exact Row.ext_iff.mpr ⟨hseqs, hzid.symm, hprev.symm, hyhash.symm, hcanon.symm⟩
  rwa [hsame] at hleft

end Detection

/-- A log as a run from an empty one leaves it, its purges leaving the newest sealed row. -/
def Honest (s : LogState) : Prop :=
  ∃ reviews steps, Along logStep KeepsHead (LogState.start reviews) steps ∧
    exec logStep (LogState.start reviews) steps = s

theorem Honest.sound {s : LogState} (h : Honest s) : Sound s := by
  obtain ⟨reviews, steps, hsteps, rfl⟩ := h
  exact exec_invariant logStep_sound (sound_start reviews) hsteps

/-- The log with its table exchanged behind its back. -/
def AuditLog.withTable (log : AuditLog) (t : AuditTable) : AuditLog := { log with table := t }

theorem AuditLog.fits_withTable {log : AuditLog} {t : AuditTable} {objects : Option ObjectStore}
    {rows : List Row} {a : Anchor} :
    (log.withTable t).Fits objects rows a ↔ log.Fits objects rows a :=
  ⟨fun h => ⟨h.head, h.object⟩, fun h => ⟨h.head, h.object⟩⟩

section Anchored
variable {s : LogState} {t' : AuditTable} {objects : Option ObjectStore} {fromSeq toSeq : ℤ}
  {a : Anchor} {c e : Row}

/-- A change below an anchor passes only with the row at the anchored position cut. -/
theorem Sound.cut_of_verified (h : Sound s) (htampered : Tampered s.table t')
    (hfree : NoCollision (s.table.messages ++ t'.messages))
    (ha : a ∈ s.log.anchorsIn fromSeq toSeq) (hrows : a.rows ≠ 0) (hc : c ∈ s.table.sealedRows)
    (hchanged : c ∉ t'.sealedRows) (hca : c.seq ≤ a.toSeq) (he : e ∈ t'.rowsBetween fromSeq toSeq)
    (hec : e.seq < c.seq)
    (hverified : (s.log.withTable t').Verified objects fromSeq toSeq) :
    ∀ r ∈ t'.sealedRows, r.seq ≠ a.toSeq := by
  intro r' hr' hseq
  obtain ⟨hmem, hin⟩ := List.mem_filter.mp ha
  have hbetween : r' ∈ t'.rowsBetween fromSeq toSeq := by
    rw [AuditTable.mem_rowsBetween, hseq]
    exact ⟨hr', of_decide_eq_true hin⟩
  have hfits := hverified.anchors a ha (Or.inr ⟨r', hbetween, hseq⟩)
  have hhead : headIn (t'.rowsBetween fromSeq toSeq) a.toSeq = a.headHash :=
    hfits.head.resolve_left hrows
  rw [headIn_of_mem increasing_rowsBetween hbetween hseq] at hhead
  obtain ⟨r, hr, hrr, -⟩ := htampered r' hr'
  have hold := h.anchor_head a hmem hrows r hr (hrr.trans hseq)
  apply hchanged
  apply unchanged_of_hash h.whole htampered hfree hverified.whole he hr hbetween hrr
    (hold.trans hhead.symm) hc hec
  omega

/-- A change at or below an anchored position, with an earlier row of the range left, is
reported exactly when the row at that position is left, or what is left of the range is not a
whole chain, or contradicts an anchor at a position that is left. -/
theorem tampering_detected_iff (h : Honest s) (htampered : Tampered s.table t')
    (hfree : NoCollision (s.table.messages ++ t'.messages)) (ha : a ∈ s.log.anchors)
    (hrows : a.rows ≠ 0) (hfrom : fromSeq ≤ a.toSeq) (hto : a.toSeq ≤ toSeq)
    (hc : c ∈ s.table.sealedRows) (hchanged : c ∉ t'.sealedRows) (hca : c.seq ≤ a.toSeq)
    (he : e ∈ t'.sealedRows) (hfe : fromSeq ≤ e.seq) (hec : e.seq < c.seq)
    (objects : Option ObjectStore) (page : ℤ) :
    (∃ rep, (s.log.withTable t').verify objects page fromSeq toSeq = .ok rep ∧
        rep.ok = false) ↔
      toSeq - fromSeq + 1 ≤ maxVerifyRows ∧
        ((∃ r ∈ t'.sealedRows, r.seq = a.toSeq) ∨ ¬ Whole (t'.rowsBetween fromSeq toSeq) ∨
          ∃ b ∈ s.log.anchorsIn fromSeq toSeq,
            (∃ r ∈ t'.rowsBetween fromSeq toSeq, r.seq = b.toSeq) ∧
            ¬ s.log.Fits objects (t'.rowsBetween fromSeq toSeq) b) := by
  have hin : a ∈ s.log.anchorsIn fromSeq toSeq :=
    List.mem_filter.mpr ⟨ha, decide_eq_true ⟨hfrom, hto⟩⟩
  have hleft : e ∈ t'.rowsBetween fromSeq toSeq :=
    AuditTable.mem_rowsBetween.mpr ⟨he, hfe, by omega⟩
  have hne := List.ne_nil_of_mem hleft
  by_cases hlong : maxVerifyRows < toSeq - fromSeq + 1
  · rw [verify_eq, if_neg (by omega), if_pos hlong]
    exact iff_of_false (fun ⟨_, hrep, _⟩ => by cases hrep) fun hle => not_lt.mpr hle.1 hlong
  · obtain ⟨rep, hrep, hok⟩ := @verify_spec (s.log.withTable t') objects fromSeq toSeq page
      (by omega) (not_lt.mp hlong)
    have hbad : (∃ rep, (s.log.withTable t').verify objects page fromSeq toSeq =
        .ok rep ∧ rep.ok = false) ↔
        ¬ (s.log.withTable t').Verified objects fromSeq toSeq := by
      rw [← hok, Bool.not_eq_true, hrep]
      constructor
      · rintro ⟨rep', hrep', hbad⟩
        obtain rfl := Except.ok.inj hrep'
        exact hbad
      · exact fun hbad => ⟨rep, rfl, hbad⟩
    rw [hbad]
    constructor
    · intro hnot
      refine ⟨not_lt.mp hlong, ?_⟩
      by_contra hnone
      push Not at hnone
      obtain ⟨-, hwhole, hfits⟩ := hnone
      apply hnot
      refine ⟨hwhole, fun b hb hreached => ?_⟩
      exact AuditLog.fits_withTable.mpr (hfits b hb (hreached.resolve_left hne))
    · rintro ⟨-, hsome⟩ hverified
      rcases hsome with ⟨r, hr, hseq⟩ | hbroken | ⟨b, hb, hreached, hunfit⟩
      · exact h.sound.cut_of_verified htampered hfree hin hrows hc hchanged hca hleft hec hverified
          r hr hseq
      · exact hbroken hverified.whole
      · exact hunfit (AuditLog.fits_withTable.mp (hverified.anchors b hb (Or.inr hreached)))

end Anchored

/-- Two rows, sealed and anchored. -/
def anchoredRun (second : String) : LogState :=
  exec logStep (LogState.start Table.empty)
    [.insertRow 1 0 "a", .insertRow 2 1 second, .sealBatch 0, .anchorOnce 1000000 "archive" "system"]

theorem honest_anchoredRun (second : String) : Honest (anchoredRun second) :=
  ⟨Table.empty, _, by simp [KeepsHead], rfl⟩

/-- The anchored row is deleted and row 1 left: the walk ends at row 1, the anchor is passed
over and the report is good. -/
theorem anchoredRow_cut_passes :
    ∃ (s : LogState) (t' : AuditTable), Honest s ∧ Tampered s.table t' ∧
      NoCollision (s.table.messages ++ t'.messages) ∧
      (∃ a ∈ s.log.anchors, a.rows ≠ 0 ∧ a.toSeq = 2) ∧
      (∃ c ∈ s.table.sealedRows, c ∉ t'.sealedRows ∧ c.seq = 2) ∧
      (∃ e ∈ t'.sealedRows, e.seq = 1) ∧
      ((s.log.withTable t').verify none 0 1 2).toOption.map Report.ok = some true := by
  refine ⟨anchoredRun "b", (anchoredRun "b").table.deleteRows fun a => a.id == 2,
    honest_anchoredRun "b", ?_⟩
  decide +kernel

/-- The second row is rewritten and hashed again; the anchor sees it. -/
theorem tampering_detected_rewritten :
    ∃ rep, ((anchoredRun "b").log.withTable (anchoredRun "c").table).verify none 0 1 2 = .ok rep ∧
      rep.ok = false := by
  obtain ⟨c, hc, hchanged, hseq⟩ : ∃ c ∈ (anchoredRun "b").table.sealedRows,
      c ∉ (anchoredRun "c").table.sealedRows ∧ c.seq = 2 := by decide +kernel
  obtain ⟨e, he, hfirst⟩ : ∃ e ∈ (anchoredRun "c").table.sealedRows, e.seq = 1 := by
    decide
  obtain ⟨a, ha, hrows, hto⟩ : ∃ a ∈ (anchoredRun "b").log.anchors, a.rows ≠ 0 ∧ a.toSeq = 2 := by
    decide
  have hleft : ∃ r ∈ (anchoredRun "c").table.sealedRows, r.seq = 2 := by decide
  exact (tampering_detected_iff (honest_anchoredRun "b") (by decide) (by decide +kernel) ha
    hrows (by omega) (by omega) hc hchanged (by omega) he (by omega) (by omega) none 0).mpr
    ⟨by decide, Or.inl (hto ▸ hleft)⟩

end Kubeast.AuditChain
