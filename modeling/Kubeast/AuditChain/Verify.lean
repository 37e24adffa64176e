import Kubeast.AuditChain.Anchor

/-! The verifier (`auditchain/verify.go`): a walk over pages of the chain, then the anchors. -/
namespace Kubeast.AuditChain
open Sha256 Sorted

def maxVerifyRows : ℤ := 200000

inductive VerifyError
  | tooMany
deriving DecidableEq

structure AnchorCheck where
  id : ℕ
  toSeq : ℤ
  objectKey : String
  headOK : Bool
  objectOK : Option Bool
  reviewsOK : Option Bool
  error : String
deriving DecidableEq

structure Report where
  fromSeq : ℤ
  toSeq : ℤ
  rows : ℕ
  ok : Bool
  firstBadSeq : ℤ
  reason : String
  anchors : List AnchorCheck
deriving DecidableEq

def Report.fail (r : Report) (seq : ℤ) (reason : String) : Report :=
  { r with ok := false, firstBadSeq := seq, reason := reason }

/-- What reading an object gives: its body or the sink's error. -/
abbrev ObjectStore := String → Except String Digest

def AuditLog.getObject (log : AuditLog) : ObjectStore := fun key =>
  (log.objects.get key).elim (.error "not found") fun o => .ok o.2

/-- The variables of the walk. -/
structure Walk where
  report : Report
  heads : Dict ℤ Bytes
  prevHash : Bytes
  prevSeq : ℤ
  first : Bool

/-- One row of the walk; after a failure the rest is passed over. -/
def Walk.visit (w : Walk) (r : Row) : Walk :=
  if ¬ w.report.ok then w
  else
    let counted := { w.report with rows := w.report.rows + 1 }
    let rep :=
      if w.first then { counted with fromSeq := r.seq }
      else if r.seq ≠ w.prevSeq + 1 then counted.fail (w.prevSeq + 1) "gap"
      else if r.prev ≠ w.prevHash then counted.fail r.seq "chain_break"
      else counted
    if ¬ rep.ok then { w with report := rep, first := false }
    else if ¬ r.Sound then { w with report := rep.fail r.seq "hash_mismatch", first := false }
    else
      { report := rep
        heads := if (w.heads.get r.seq).isSome then w.heads.set r.seq r.hash else w.heads
        prevHash := r.hash, prevSeq := r.seq, first := false }

/-- The page loop from position `next`; each full page moves `next`, so as many turns as
the range has positions are enough. -/
def AuditTable.walkPages (t : AuditTable) (toSeq : ℤ) (page : ℕ) : ℕ → ℤ → Walk → Walk
  | 0, _, w => w
  | fuel + 1, next, w =>
      if ¬ w.report.ok then w
      else
        let rows := t.rowsIn next toSeq page
        if rows = [] then w
        else
          let w := rows.foldl Walk.visit w
          if rows.length < page ∨ toSeq ≤ w.prevSeq then w
          else t.walkPages toSeq page fuel (w.prevSeq + 1) w

/-- Compares the digest in the sink, and the sign-offs it lists. -/
def AuditLog.checkObject (log : AuditLog) (objects : ObjectStore) (a : Anchor) (c : AnchorCheck) :
    AnchorCheck :=
  match objects a.objectKey with
  | .error e => { c with error := e, objectOK := some false }
  | .ok d =>
      if sha256 d.marshal ≠ a.anchorHash then { c with objectOK := some false }
      else
        let c := { c with objectOK := some true }
        let changed := d.accessReviews.find? fun r => log.reviewHash r.id ≠ some (Hex.decode r.hash)
        match changed with
        | none => { c with reviewsOK := some true }
        | some r =>
            { c with
              reviewsOK := some false
              error := "access review " ++ r.id ++
                (if (log.reviewHash r.id).isNone then " is missing" else " changed") }

def AnchorCheck.ok (c : AnchorCheck) : Bool :=
  c.headOK && c.objectOK != some false && c.reviewsOK != some false

def AuditLog.checkAnchor (log : AuditLog) (objects : Option ObjectStore) (heads : Dict ℤ Bytes)
    (a : Anchor) : AnchorCheck :=
  let c : AnchorCheck :=
    { id := a.id, toSeq := a.toSeq, objectKey := a.objectKey
      headOK := a.rows == 0 || heads.index a.toSeq == a.headHash
      objectOK := none, reviewsOK := none, error := "" }
  objects.elim c fun store => log.checkObject store a c

/-- One anchor of the report; those outside the walked range are left out. -/
def AuditLog.reportAnchor (log : AuditLog) (objects : Option ObjectStore) (heads : Dict ℤ Bytes)
    (rep : Report) (a : Anchor) : Report :=
  if a.toSeq < rep.fromSeq ∨ rep.toSeq < a.toSeq then rep
  else
    let c := log.checkAnchor objects heads a
    let rep := if c.ok then rep
      else { rep with ok := false, reason := if rep.reason = "" then "anchor_mismatch" else rep.reason }
    { rep with anchors := rep.anchors ++ [c] }

def AuditLog.startWalk (log : AuditLog) (fromSeq toSeq : ℤ) : Walk where
  report := ⟨fromSeq, toSeq, 0, true, 0, "", []⟩
  heads := (log.anchorsIn fromSeq toSeq).foldl (fun m a => m.set a.toSeq []) Table.empty
  prevHash := []
  prevSeq := 0
  first := true

/-- The report after the walk, before the anchors are compared. -/
def walkedReport (w : Walk) : Report :=
  if w.report.ok = true ∧ 0 < w.report.rows then { w.report with toSeq := w.prevSeq } else w.report

/-- `Verify`; `objects` is the sink when the digests are compared as well. -/
def AuditLog.verify (log : AuditLog) (objects : Option ObjectStore) (page : ℤ)
    (fromSeq toSeq : ℤ) : Except VerifyError Report :=
  let start := log.startWalk fromSeq toSeq
  if toSeq < fromSeq then .ok start.report
  else if maxVerifyRows < toSeq - fromSeq + 1 then .error .tooMany
  else
    let page := if page ≤ 0 then 1000 else page.toNat
    let w := log.table.walkPages toSeq page ((toSeq - fromSeq + 1).toNat + 1) fromSeq start
    .ok ((log.anchorsIn fromSeq toSeq).foldl (log.reportAnchor objects w.heads) (walkedReport w))

section Visit
variable {w : Walk} {r : Row} {rows : List Row}

/-- A row goes through when it links to the one before it and its hash is right. -/
def Walk.Accepts (w : Walk) (r : Row) : Prop :=
  (w.first = true ∨ r.seq = w.prevSeq + 1 ∧ r.prev = w.prevHash) ∧ r.Sound

theorem Walk.visit_failed (h : w.report.ok = false) : w.visit r = w := by simp [visit, h]

theorem Walk.foldl_failed (h : w.report.ok = false) : rows.foldl Walk.visit w = w := by
  induction rows with
  | nil => rfl
  | cons r rows ih => rw [List.foldl_cons, visit_failed h, ih]

theorem Walk.visit_ok_iff (h : w.report.ok = true) :
    (w.visit r).report.ok = true ↔ w.Accepts r := by
  unfold visit Accepts
  by_cases hfirst : w.first = true <;> by_cases hseq : r.seq = w.prevSeq + 1 <;>
    by_cases hprev : r.prev = w.prevHash <;> by_cases hsound : r.Sound <;>
      simp [h, hfirst, hseq, hprev, hsound, Report.fail]

theorem Walk.visit_accepted (h : w.report.ok = true) (ha : w.Accepts r) :
    w.visit r =
      { report := { w.report with
          rows := w.report.rows + 1
          fromSeq := if w.first then r.seq else w.report.fromSeq }
        heads := if (w.heads.get r.seq).isSome then w.heads.set r.seq r.hash else w.heads
        prevHash := r.hash, prevSeq := r.seq, first := false } := by
  obtain ⟨hlink, hsound⟩ := ha
  unfold visit
  by_cases hfirst : w.first = true
  · simp [h, hfirst, hsound]
  · obtain ⟨hseq, hprev⟩ := hlink.resolve_left hfirst
    simp [h, hfirst, hseq, hprev, hsound]

theorem whole_cons :
    Whole (r :: rows) ↔ r.Sound ∧ (∀ b ∈ rows.head?, r.Follows b) ∧ Whole rows := by
  cases rows with
  | nil => simp [whole_singleton, whole_nil]
  | cons b rows => simp [whole_cons_cons]

/-- The walk stays good over exactly the whole stretches that link to where it stands. -/
theorem Walk.foldl_ok_iff (h : w.report.ok = true) :
    (rows.foldl Walk.visit w).report.ok = true ↔ Whole rows ∧
      ∀ r ∈ rows.head?, w.first = true ∨ r.seq = w.prevSeq + 1 ∧ r.prev = w.prevHash := by
  induction rows generalizing w with
  | nil => simp [h, whole_nil]
  | cons r rows ih =>
    rw [List.foldl_cons, whole_cons]
    by_cases ha : w.Accepts r
    · have hok := (visit_ok_iff h).mpr ha
      rw [ih hok, visit_accepted h ha]
      obtain ⟨hlink, hsound⟩ := ha
      simp only [Bool.false_eq_true, false_or, List.head?_cons, Option.mem_some_iff,
        forall_eq', hsound, true_and]
      constructor
      · rintro ⟨hwhole, hfollows⟩
        exact ⟨⟨hfollows, hwhole⟩, hlink⟩
      · rintro ⟨⟨hfollows, hwhole⟩, -⟩
        exact ⟨hwhole, hfollows⟩
    · have hbad : (w.visit r).report.ok = false := by
        rw [← Bool.not_eq_true, visit_ok_iff h]
        exact ha
      rw [foldl_failed hbad, hbad]
      refine iff_of_false (by simp) ?_
      rintro ⟨⟨hsound, -⟩, hlink⟩
      exact ha ⟨hlink r rfl, hsound⟩

/-- What the walk keeps of the rows it went through. -/
structure Walk.Passed (w : Walk) (rows : List Row) (w' : Walk) : Prop where
  count : w'.report.rows = w.report.rows + rows.length
  toSeq : w'.report.toSeq = w.report.toSeq
  fromSeq : w'.report.fromSeq =
    if w.first then rows.head?.elim w.report.fromSeq Row.seq else w.report.fromSeq
  prevSeq : w'.prevSeq = rows.getLast?.elim w.prevSeq Row.seq
  wanted : ∀ s, (w'.heads.get s).isSome = (w.heads.get s).isSome
  untouched : ∀ s, (∀ r ∈ rows, r.seq ≠ s) → w'.heads.index s = w.heads.index s
  heads : ∀ r ∈ rows, (w.heads.get r.seq).isSome = true → w'.heads.index r.seq = r.hash

theorem Walk.passed (h : w.report.ok = true) (hok : (rows.foldl Walk.visit w).report.ok = true) :
    w.Passed rows (rows.foldl Walk.visit w) := by
  have hwhole := ((foldl_ok_iff h).mp hok).1
  induction rows generalizing w with
  | nil => exact ⟨rfl, rfl, by simp, rfl, fun _ => rfl, fun _ _ => rfl, by simp⟩
  | cons r rows ih =>
    rw [List.foldl_cons] at hok ⊢
    have hvisit : (w.visit r).report.ok = true := by
      by_contra hbad
      rw [foldl_failed (Bool.not_eq_true _ ▸ hbad)] at hok
      exact hbad hok
    have hinc := hwhole.increasing
    obtain ⟨hbelow, -⟩ := List.pairwise_cons.mp hinc
    have hrest := ih hvisit hok (whole_cons.mp hwhole).2.2
    rw [visit_accepted h ((visit_ok_iff h).mp hvisit)] at hrest ⊢
    have hwanted : ∀ s, ((if (w.heads.get r.seq).isSome then w.heads.set r.seq r.hash
        else w.heads).get s).isSome = (w.heads.get s).isSome := by
      intro s
      split
      · next hr =>
        rw [Dict.get_set_isSome]
        by_cases hs : r.seq = s
        · simp [← hs, hr]
        · simp [hs]
      · rfl
    refine ⟨?_, hrest.toSeq, ?_, ?_, fun s => (hrest.wanted s).trans (hwanted s), ?_, ?_⟩
    · have hcount := hrest.count
      simp only at hcount
      rw [hcount, List.length_cons]
      omega
    · simpa using hrest.fromSeq
    · rw [hrest.prevSeq, List.getLast?_cons]
      cases rows.getLast? <;> rfl
    · intro s hs
      rw [hrest.untouched s fun x hx => hs x (List.mem_cons_of_mem r hx)]
      simp only
      split
      · exact Dict.index_set_ne (hs r (by simp))
      · rfl
    · intro x hx hwant
      rcases List.mem_cons.mp hx with rfl | hx
      · rw [hrest.untouched x.seq fun y hy => (hbelow y hy).ne']
        simp only [hwant, if_true, Dict.index_set_self]
      · exact hrest.heads x hx ((hwanted x.seq).trans hwant)

end Visit

section Pages
variable {t : AuditTable} {w : Walk} {toSeq next : ℤ} {page fuel : ℕ}

theorem walkPages_failed (h : w.report.ok = false) : t.walkPages toSeq page fuel next w = w := by
  cases fuel with
  | zero => rfl
  | succ fuel => simp [AuditTable.walkPages, h]

theorem increasing_rowsBetween : Increasing Row.seq (t.rowsBetween next toSeq) :=
  t.increasing_sealedRows.filter _

/-- Behind a page come the rows above its last position. -/
theorem rowsBetween_above {p rest : List Row} {x : Row}
    (hsplit : t.rowsBetween next toSeq = p ++ rest) (hx : p.getLast? = some x) :
    t.rowsBetween (x.seq + 1) toSeq = rest := by
  have hinc : Increasing Row.seq (p ++ rest) := hsplit ▸ increasing_rowsBetween
  obtain ⟨hp, hrest, hcross⟩ := List.pairwise_append.mp hinc
  have hxp : x ∈ p := List.mem_of_getLast? hx
  have hxnext : next ≤ x.seq :=
    (AuditTable.mem_rowsBetween.mp (hsplit ▸ List.mem_append_left rest hxp)).2.1
  refine increasing_rowsBetween.ext hrest fun r => ?_
  rw [AuditTable.mem_rowsBetween]
  constructor
  · rintro ⟨hr, hlow, hhigh⟩
    have hmem : r ∈ p ++ rest := hsplit ▸ AuditTable.mem_rowsBetween.mpr ⟨hr, by omega, hhigh⟩
    rcases List.mem_append.mp hmem with hr | hr
    · have := Increasing.le_getLast hp hx hr
      omega
    · exact hr
  · intro hr
    obtain ⟨hmem, -, hhigh⟩ :=
      AuditTable.mem_rowsBetween.mp (hsplit ▸ List.mem_append_right p hr)
    have := hcross x hxp r hr
    exact ⟨hmem, by omega, hhigh⟩

/-- Page by page the walk goes over the range as a whole. -/
theorem walkPages_eq (hpage : 0 < page) (hok : w.report.ok = true)
    (hfuel : (toSeq - next + 1).toNat < fuel) :
    t.walkPages toSeq page fuel next w = (t.rowsBetween next toSeq).foldl Walk.visit w := by
  induction fuel generalizing next w with
  | zero => omega
  | succ fuel ih =>
    have hsplit : t.rowsIn next toSeq page ++ (t.rowsBetween next toSeq).drop page =
        t.rowsBetween next toSeq := List.take_append_drop _ _
    rw [AuditTable.walkPages, if_neg (by simp [hok])]
    generalize hp : t.rowsIn next toSeq page = p at hsplit ⊢
    generalize hrest : (t.rowsBetween next toSeq).drop page = rest at hsplit
    have hall : (t.rowsBetween next toSeq).foldl Walk.visit w =
        rest.foldl Walk.visit (p.foldl Walk.visit w) := by
      rw [← hsplit, List.foldl_append]
    by_cases hnil : p = []
    · have hempty : t.rowsBetween next toSeq = [] := by
        rcases List.take_eq_nil_iff.mp (hp.trans hnil) with h | h
        · omega
        · exact h
      rw [if_pos hnil, hempty, List.foldl_nil]
    rw [if_neg hnil, hall]
    dsimp only
    cases hbad : (p.foldl Walk.visit w).report.ok with
    | false =>
      rw [Walk.foldl_failed hbad, walkPages_failed hbad, ite_self]
    | true =>
      have hlast := List.getLast?_eq_some_getLast hnil
      have hprev : (p.foldl Walk.visit w).prevSeq = (p.getLast hnil).seq := by
        rw [(Walk.passed hok hbad).prevSeq, hlast]
        rfl
      have hnext : next ≤ (p.getLast hnil).seq :=
        (AuditTable.mem_rowsBetween.mp
          (hsplit ▸ List.mem_append_left rest (List.getLast_mem hnil))).2.1
      split
      · next hdone =>
        have hend : rest = [] := by
          rcases hdone with hshort | hreached
          · rw [← hp, AuditTable.rowsIn, List.length_take] at hshort
            rw [← hrest, List.drop_eq_nil_iff]
            omega
          · refine List.eq_nil_iff_forall_not_mem.mpr fun r hr => ?_
            have hinc : Increasing Row.seq (p ++ rest) := hsplit ▸ increasing_rowsBetween
            have hlt := (List.pairwise_append.mp hinc).2.2 _ (List.getLast_mem hnil) r hr
            have hle := (AuditTable.mem_rowsBetween.mp
              (hsplit ▸ List.mem_append_right p hr)).2.2
            omega
        rw [hend, List.foldl_nil]
      · next hmore =>
        rw [ih hbad (by omega), hprev, rowsBetween_above hsplit.symm hlast]

end Pages
section Report
variable {log : AuditLog} {objects : Option ObjectStore} {heads : Dict ℤ Bytes} {rep : Report}
  {anchors : List Anchor} {a : Anchor} {rows : List Row} {fromSeq toSeq page : ℤ}

/-- The hash at a position of the rows, no bytes where there is no row. -/
def headIn (rows : List Row) (s : ℤ) : Bytes := (rows.find? fun r => r.seq == s).elim [] Row.hash

/-- The digest in the sink is the one anchored, and the sign-offs it lists are unchanged. -/
def AuditLog.ObjectFits (log : AuditLog) (store : ObjectStore) (a : Anchor) : Prop :=
  ∃ d, store a.objectKey = .ok d ∧ sha256 d.marshal = a.anchorHash ∧
    ∀ r ∈ d.accessReviews, log.reviewHash r.id = some (Hex.decode r.hash)

/-- An anchor agrees with the rows, and with the sink when that is compared. -/
structure AuditLog.Fits (log : AuditLog) (objects : Option ObjectStore) (rows : List Row)
    (a : Anchor) : Prop where
  head : a.rows = 0 ∨ headIn rows a.toSeq = a.headHash
  object : ∀ store ∈ objects, log.ObjectFits store a

theorem checkObject_ok {store : ObjectStore} {c : AnchorCheck} (hnone : c.reviewsOK = none) :
    (log.checkObject store a c).ok = true ↔ c.headOK = true ∧ log.ObjectFits store a := by
  unfold AuditLog.checkObject AuditLog.ObjectFits
  cases hget : store a.objectKey with
  | error e => simp [AnchorCheck.ok]
  | ok d =>
    by_cases hhash : sha256 d.marshal = a.anchorHash
    · cases hfind : d.accessReviews.find? fun r => log.reviewHash r.id ≠ some (Hex.decode r.hash) with
      | none =>
        have hall := List.find?_eq_none.mp hfind
        simp only [ne_eq, decide_eq_true_eq, not_not] at hall
        simp only [ne_eq, hhash, not_true_eq_false, if_false, hfind, AnchorCheck.ok]
        constructor
        · intro h
          exact ⟨by simpa using h, d, rfl, hhash, hall⟩
        · rintro ⟨hhead, -⟩
          simp [hhead]
      | some r =>
        have hne : log.reviewHash r.id ≠ some (Hex.decode r.hash) := by
          simpa using List.find?_some hfind
        have hmem := List.mem_of_find?_eq_some hfind
        simp only [ne_eq, hhash, not_true_eq_false, if_false, hfind, AnchorCheck.ok]
        refine iff_of_false (by simp) ?_
        rintro ⟨-, d', hd', -, hall⟩
        obtain rfl := Except.ok.inj hd'
        exact hne (hall r hmem)
    · simp [AnchorCheck.ok, hhash, hnone]

theorem checkAnchor_ok (hheads : heads.index a.toSeq = headIn rows a.toSeq) :
    (log.checkAnchor objects heads a).ok = true ↔ log.Fits objects rows a := by
  have hfits : log.Fits objects rows a ↔ (a.rows = 0 ∨ headIn rows a.toSeq = a.headHash) ∧
      ∀ store ∈ objects, log.ObjectFits store a := ⟨fun h => ⟨h.1, h.2⟩, fun h => ⟨h.1, h.2⟩⟩
  rw [hfits, AuditLog.checkAnchor]
  cases objects with
  | none => simp [AnchorCheck.ok, hheads]
  | some store =>
    dsimp only [Option.elim_some]
    rw [checkObject_ok rfl]
    simp [hheads]

/-- The report stays good over the anchors that pass or lie outside it. -/
theorem foldl_reportAnchor_ok :
    (anchors.foldl (log.reportAnchor objects heads) rep).ok = true ↔ rep.ok = true ∧
      ∀ a ∈ anchors, rep.fromSeq ≤ a.toSeq → a.toSeq ≤ rep.toSeq →
        (log.checkAnchor objects heads a).ok = true := by
  induction anchors generalizing rep with
  | nil => simp
  | cons a anchors ih =>
    rw [List.foldl_cons, ih, List.forall_mem_cons]
    unfold AuditLog.reportAnchor
    by_cases hout : a.toSeq < rep.fromSeq ∨ rep.toSeq < a.toSeq
    · rw [if_pos hout]
      have hskip : rep.fromSeq ≤ a.toSeq → a.toSeq ≤ rep.toSeq →
          (log.checkAnchor objects heads a).ok = true := fun h₁ h₂ => by omega
      tauto
    · rw [if_neg hout]
      have hin : rep.fromSeq ≤ a.toSeq ∧ a.toSeq ≤ rep.toSeq := by omega
      cases hc : (log.checkAnchor objects heads a).ok <;> simp [hc, hin]

theorem index_startHeads (anchors : List Anchor) (heads : Dict ℤ Bytes) (s : ℤ)
    (h : heads.index s = []) :
    (anchors.foldl (fun m a => m.set a.toSeq []) heads).index s = [] ∧
      (((anchors.foldl (fun m a => m.set a.toSeq []) heads).get s).isSome = true ↔
        (heads.get s).isSome = true ∨ ∃ a ∈ anchors, a.toSeq = s) := by
  induction anchors generalizing heads with
  | nil => simp [h]
  | cons a anchors ih =>
    have hindex : (heads.set a.toSeq []).index s = [] := by
      by_cases hs : a.toSeq = s
      · rw [hs, Dict.index_set_self]
      · rw [Dict.index_set_ne hs, h]
    obtain ⟨hrest, hsome⟩ := ih _ hindex
    rw [List.foldl_cons]
    refine ⟨hrest, ?_⟩
    rw [hsome, Dict.get_set_isSome, Bool.or_eq_true, decide_eq_true_eq, or_assoc]
    simp

/-- The heads a good walk leaves are the hashes of the rows at the anchored positions. -/
theorem index_walkedHeads (hwalk : (rows.foldl Walk.visit (log.startWalk fromSeq toSeq)).report.ok = true)
    (ha : a ∈ log.anchorsIn fromSeq toSeq) :
    (rows.foldl Walk.visit (log.startWalk fromSeq toSeq)).heads.index a.toSeq =
      headIn rows a.toSeq := by
  have hpassed := Walk.passed (w := log.startWalk fromSeq toSeq) rfl hwalk
  obtain ⟨hempty, hsome⟩ := index_startHeads (log.anchorsIn fromSeq toSeq) Table.empty a.toSeq rfl
  unfold headIn
  cases hfind : rows.find? fun r => r.seq == a.toSeq with
  | none =>
    have hnone := List.find?_eq_none.mp hfind
    rw [hpassed.untouched a.toSeq fun r hr he => hnone r hr (by simpa using he)]
    exact hempty
  | some r =>
    have hseq : r.seq = a.toSeq := by simpa using List.find?_some hfind
    rw [← hseq]
    apply hpassed.heads r (List.mem_of_find?_eq_some hfind)
    rw [hseq]
    exact hsome.mpr (Or.inr ⟨a, ha, rfl⟩)

/-- The stretch of a good report: an anchor of the range lies in it when a row is there. -/
theorem reaches_iff (hwhole : Whole rows) (hne : rows ≠ []) :
    ((rows.head hne).seq ≤ a.toSeq ∧ a.toSeq ≤ (rows.getLast hne).seq) ↔
      ∃ r ∈ rows, r.seq = a.toSeq := by
  constructor
  · rintro ⟨hlow, hhigh⟩
    obtain ⟨r, hr, hseq⟩ := hwhole.exists_seq (List.head_mem hne) (List.getLast_mem hne)
      ((rows.getLast hne).seq - a.toSeq).toNat (by omega)
    exact ⟨r, hr, by omega⟩
  · rintro ⟨r, hr, hseq⟩
    rw [← hseq]
    exact ⟨hwhole.increasing.head_le (List.head?_eq_some_head hne) hr,
      hwhole.increasing.le_getLast (List.getLast?_eq_some_getLast hne) hr⟩

/-- What a verification of a range says: the rows left in it are whole, and every anchor at
the position of one of them agrees; over a range without rows, every anchor of the range. -/
structure AuditLog.Verified (log : AuditLog) (objects : Option ObjectStore) (fromSeq toSeq : ℤ) :
    Prop where
  whole : Whole (log.table.rowsBetween fromSeq toSeq)
  anchors : ∀ a ∈ log.anchorsIn fromSeq toSeq,
    (log.table.rowsBetween fromSeq toSeq = [] ∨
      ∃ r ∈ log.table.rowsBetween fromSeq toSeq, r.seq = a.toSeq) →
    log.Fits objects (log.table.rowsBetween fromSeq toSeq) a

theorem verified_iff : log.Verified objects fromSeq toSeq ↔
    Whole (log.table.rowsBetween fromSeq toSeq) ∧ ∀ a ∈ log.anchorsIn fromSeq toSeq,
      (log.table.rowsBetween fromSeq toSeq = [] ∨
        ∃ r ∈ log.table.rowsBetween fromSeq toSeq, r.seq = a.toSeq) →
      log.Fits objects (log.table.rowsBetween fromSeq toSeq) a :=
  ⟨fun h => ⟨h.whole, h.anchors⟩, fun h => ⟨h.1, h.2⟩⟩

theorem walkedReport_range (hne : rows ≠ [])
    (hok : (rows.foldl Walk.visit (log.startWalk fromSeq toSeq)).report.ok = true) :
    (walkedReport (rows.foldl Walk.visit (log.startWalk fromSeq toSeq))).fromSeq =
        (rows.head hne).seq ∧
      (walkedReport (rows.foldl Walk.visit (log.startWalk fromSeq toSeq))).toSeq =
        (rows.getLast hne).seq := by
  have hpassed := Walk.passed (w := log.startWalk fromSeq toSeq) rfl hok
  have hcount : 0 < (rows.foldl Walk.visit (log.startWalk fromSeq toSeq)).report.rows := by
    have := List.length_pos_iff.mpr hne
    have := hpassed.count
    omega
  rw [walkedReport, if_pos ⟨hok, hcount⟩]
  constructor
  · have hfrom := hpassed.fromSeq
    rw [List.head?_eq_some_head hne] at hfrom
    exact hfrom
  · have hto := hpassed.prevSeq
    rw [List.getLast?_eq_some_getLast hne] at hto
    exact hto

/-- The page size does not matter to a verification. -/
theorem verify_eq : log.verify objects page fromSeq toSeq =
    if toSeq < fromSeq then .ok (log.startWalk fromSeq toSeq).report
    else if maxVerifyRows < toSeq - fromSeq + 1 then .error .tooMany
    else
      let w := (log.table.rowsBetween fromSeq toSeq).foldl Walk.visit (log.startWalk fromSeq toSeq)
      .ok ((log.anchorsIn fromSeq toSeq).foldl (log.reportAnchor objects w.heads)
        (walkedReport w)) := by
  have hpage : 0 < if page ≤ 0 then 1000 else page.toNat := by split <;> omega
  have hwalk : log.table.walkPages toSeq (if page ≤ 0 then 1000 else page.toNat)
      ((toSeq - fromSeq + 1).toNat + 1) fromSeq (log.startWalk fromSeq toSeq) =
      (log.table.rowsBetween fromSeq toSeq).foldl Walk.visit (log.startWalk fromSeq toSeq) :=
    walkPages_eq hpage rfl (by omega)
  rw [AuditLog.verify]
  dsimp only
  rw [hwalk]

/-- A verification reads of the table only the range's rows. -/
theorem verify_congr {t : AuditTable}
    (h : t.rowsBetween fromSeq toSeq = log.table.rowsBetween fromSeq toSeq) :
    ({ log with table := t } : AuditLog).verify objects page fromSeq toSeq =
      log.verify objects page fromSeq toSeq := by
  rw [verify_eq, verify_eq]
  dsimp only
  rw [h]
  rfl

/-- A verification within the limit gives a report, good exactly when the range verifies. -/
theorem verify_spec (page : ℤ) (hle : fromSeq ≤ toSeq) (hmax : toSeq - fromSeq + 1 ≤ maxVerifyRows) :
    ∃ rep, log.verify objects page fromSeq toSeq = .ok rep ∧
      (rep.ok = true ↔ log.Verified objects fromSeq toSeq) := by
  rw [verify_eq, if_neg (by omega), if_neg (by omega)]
  refine ⟨_, rfl, ?_⟩
  rw [foldl_reportAnchor_ok, verified_iff]
  generalize log.table.rowsBetween fromSeq toSeq = rows
  have hwalk := @Walk.foldl_ok_iff (log.startWalk fromSeq toSeq) rows rfl
  cases hok : (rows.foldl Walk.visit (log.startWalk fromSeq toSeq)).report.ok with
  | false =>
    have hbroken : ¬ Whole rows := fun h => by
      rw [hwalk.mpr ⟨h, fun _ _ => Or.inl rfl⟩] at hok
      cases hok
    exact iff_of_false (fun h => by simp [walkedReport, hok] at h) fun h => hbroken h.1
  | true =>
    have hwhole := (hwalk.mp hok).1
    have hgood : (walkedReport (rows.foldl Walk.visit (log.startWalk fromSeq toSeq))).ok = true := by
      unfold walkedReport
      split <;> exact hok
    rw [hgood]
    refine and_congr (iff_of_true rfl hwhole) (forall₂_congr fun a ha => ?_)
    rw [checkAnchor_ok (index_walkedHeads hok ha), ← and_imp]
    refine imp_congr_left ?_
    by_cases hne : rows = []
    · subst hne
      have hin := (List.mem_filter.mp ha).2
      exact iff_of_true (of_decide_eq_true hin) (Or.inl rfl)
    · obtain ⟨hfrom, hto⟩ := walkedReport_range hne hok
      rw [hfrom, hto, reaches_iff hwhole hne, or_iff_right hne]

end Report
end Kubeast.AuditChain
