import Kubeast.AuditChain.Anchor
import Kubeast.Foundation.Transition

/-! `AnchorOnce` call by call: the database and the sink between the schedules of the replicas, the
administrators and the sealer. -/
namespace Kubeast.AuditChain
open Transition Sha256 Sorted

/-- The positions an anchor covers, `(to, rows)`. -/
def covered (head : Head) (fromSeq : ℤ) : ℤ × ℤ :=
  let rows := head.seq - fromSeq + 1
  if rows < 0 then (fromSeq - 1, 0) else (head.seq, rows)

def digestOf (head : Head) (prev : Option Anchor) (fromSeq : ℤ) (reviews : List ReviewHash)
    (now : ℤ) : Digest :=
  { version := 1, createdAt := rfc3339 now, fromSeq := fromSeq, toSeq := (covered head fromSeq).1
    rows := (covered head fromSeq).2, headHash := Hex.encode head.hash
    prevAnchor := prev.map fun prev => ⟨prev.objectKey, Hex.encode prev.anchorHash⟩
    accessReviews := reviews.map fun r => ⟨r.id, rfc3339 r.reviewedAt, Hex.encode r.hash⟩
    hashAlgorithm := "SHA-256" }

/-- The row of a digest. Its id is given when it is inserted. -/
def anchorOf (sink actor : String) (head : Head) (prev : Option Anchor) (digest : Digest)
    (now : ℤ) : Anchor :=
  { id := 0, createdAt := now, fromSeq := digest.fromSeq, toSeq := digest.toSeq
    rows := digest.rows, headHash := head.hash
    prevAnchorHash := prev.elim [] Anchor.anchorHash, anchorHash := sha256 digest.marshal
    sink := sink, objectKey := objectKey now digest.fromSeq digest.toSeq, actor := actor }

/-- The call to the database or the sink that is next, with the local variables. -/
inductive AnchorPhase
  | head
  | last (head : Head)
  | bounds (head : Head)
  | reviews (head : Head) (prev : Option Anchor) (fromSeq : ℤ)
  | put (prev : Option Anchor) (digest : Digest) (anchor : Anchor)
  | insert (prev : Option Anchor) (anchor : Anchor)
  | done (anchor : Anchor)
  | failed

structure AnchorCall where
  now : ℤ
  actor : String
  phase : AnchorPhase

/-- The database and the sink, the calls of `AnchorOnce`, and every digest that was written. -/
structure AnchorWorld where
  log : AuditLog
  calls : List AnchorCall
  digests : List (Anchor × Digest)

def AnchorWorld.start (table : AuditTable) (reviews : Table Review.id) : AnchorWorld :=
  ⟨⟨table, [], Table.empty, reviews⟩, [], []⟩

def AuditLog.insertAnchor (log : AuditLog) (anchor : Anchor) : AuditLog :=
  { log with anchors :=
      log.anchors ++ [{ anchor with id := log.lastAnchor.elim 1 fun prev => prev.id + 1 }] }

/-- One call: the database and the sink afterwards, the digest written, the next phase. -/
def AnchorCall.advance (sink : String) (log : AuditLog) (c : AnchorCall) :
    AuditLog × List (Anchor × Digest) × AnchorPhase :=
  match c.phase with
  | .head => (log, [], .last log.table.readHead)
  | .last head => (log, [], match log.lastAnchor with
      | some prev => .reviews head (some prev) (prev.toSeq + 1)
      | none => .bounds head)
  | .bounds head =>
      (log, [], .reviews head none (if 0 < log.table.bounds.1 then log.table.bounds.1 else 1))
  | .reviews head prev fromSeq =>
      let reviews := log.reviewHashesBetween (prev.map Anchor.createdAt) c.now
      let digest := digestOf head prev fromSeq reviews c.now
      (log, [], .put prev digest (anchorOf sink c.actor head prev digest c.now))
  | .put prev digest anchor =>
      ({ log with objects := log.objects.set anchor.objectKey digest }, [(anchor, digest)],
        .insert prev anchor)
  | .insert _ anchor => (log.insertAnchor anchor, [], .done anchor)
  | .done anchor => (log, [], .done anchor)
  | .failed => (log, [], .failed)

inductive AnchorStep
  | write (id createdAt : ℤ) (canon : String)
  | sealBatch (limit : ℤ)
  | signOff (review : Review)
  | begin (now : ℤ) (actor : String)
  | call (i : ℕ)
  /-- The call answers with an error, before or after it has taken effect. -/
  | fail (i : ℕ) (done : Bool)

def anchorCall (sink : String) (w : AnchorWorld) (i : ℕ) (ok : Bool) : AnchorWorld :=
  match w.calls[i]? with
  | none => w
  | some c =>
    let (log, written, phase) := c.advance sink w.log
    { log := log, digests := w.digests ++ written
      calls := w.calls.set i { c with phase := if ok then phase else .failed } }

def anchorStep (sink : String) (w : AnchorWorld) : AnchorStep → AnchorWorld
  | .write id createdAt canon =>
      { w with log.table := (w.log.table.insertRow id createdAt canon).getD w.log.table }
  | .sealBatch limit => { w with log.table := (w.log.table.sealBatch limit).elim w.log.table Prod.fst }
  | .signOff review => { w with log.reviews := w.log.reviews.insertNew review }
  | .begin now actor => { w with calls := w.calls ++ [⟨now, actor, .head⟩] }
  | .call i => anchorCall sink w i true
  | .fail i true => anchorCall sink w i false
  | .fail i false => match w.calls[i]? with
      | none => w
      | some c => { w with calls := w.calls.set i { c with phase := .failed } }

/-- A call that nothing comes between is `anchorOnce`. -/
theorem log_call_alone (sink actor : String) (log : AuditLog) (now : ℤ) :
    (exec (anchorStep sink) ⟨log, [], []⟩
      (.begin now actor :: List.replicate 6 (.call 0))).log = (log.anchorOnce now sink actor).1 := by
  have hrange : ∀ head fromSeq, (if head.seq - fromSeq + 1 < 0 then (fromSeq, fromSeq - 1, (0 : ℤ))
      else (fromSeq, head.seq, head.seq - fromSeq + 1)) = (fromSeq, covered head fromSeq) := by
    intro head fromSeq
    unfold covered
    dsimp only
    split_ifs <;> rfl
  have hnext : log.nextRange = (log.nextFrom, covered log.table.readHead log.nextFrom) :=
    hrange log.table.readHead log.nextFrom
  have hfrom : log.nextFrom = log.lastAnchor.elim
      (if 0 < log.table.bounds.1 then log.table.bounds.1 else 1) fun prev => prev.toSeq + 1 := by
    unfold AuditLog.nextFrom
    cases log.lastAnchor <;> rfl
  simp only [List.replicate, exec_cons, exec_nil, anchorStep, anchorCall, List.nil_append,
    List.getElem?_cons_zero, AnchorCall.advance, List.set_cons_zero, if_true]
  unfold AuditLog.anchorOnce AuditLog.nextAnchor AuditLog.nextDigest
  rw [hnext, hfrom]
  cases h : log.lastAnchor with
  | none =>
    have hlast : log.anchors.getLast? = none := h
    simp [AuditLog.insertAnchor, AuditLog.lastAnchor, digestOf, anchorOf, hlast]
  | some prev =>
    have hlast : log.anchors.getLast? = some prev := h
    simp [AuditLog.insertAnchor, AuditLog.lastAnchor, digestOf, anchorOf, hlast]

/-- The anchors are one list, no digest is overwritten, and no sign-off is listed twice. -/
structure Unbroken (w : AnchorWorld) : Prop where
  ids : Increasing Anchor.id w.log.anchors
  linked : w.log.anchors.IsChain fun a b =>
    b.fromSeq = a.toSeq + 1 ∧ b.prevAnchorHash = a.anchorHash
  keys : (w.log.anchors.map Anchor.objectKey).Nodup
  kept : ∀ p ∈ w.digests, w.log.objects.get p.1.objectKey = some (p.1.objectKey, p.2)
  anchored : ∀ a ∈ w.log.anchors, ∃ p ∈ w.digests,
    p.1.objectKey = a.objectKey ∧ a.anchorHash = sha256 p.2.marshal
  once : w.digests.Pairwise fun p q =>
    ∀ r ∈ p.2.accessReviews, ∀ r' ∈ q.2.accessReviews, r.id ≠ r'.id

/-- The time after which a digest lists the sign-offs. -/
def since (prev : Option Anchor) : ℤ := (prev.map Anchor.createdAt).getD 0

/-- No call takes another one's place: a digest goes under a new key, no digest that lists sign-offs
was made after the anchor it goes on from, and that anchor is still the last one when the row is
inserted. -/
def AnchorPhase.Alone (w : AnchorWorld) : AnchorPhase → Prop
  | .put prev digest anchor => w.log.objects.get anchor.objectKey = none ∧
      (digest.accessReviews = [] ∨
        ∀ p ∈ w.digests, p.2.accessReviews ≠ [] → p.1.createdAt ≤ since prev)
  | .insert prev _ => w.log.lastAnchor.map Anchor.id = prev.map Anchor.id
  | _ => True

def StepsAlone (w : AnchorWorld) : AnchorStep → Prop
  | .call i | .fail i true => ∀ c ∈ w.calls[i]?, c.phase.Alone w
  | _ => True

instance (w : AnchorWorld) : (p : AnchorPhase) → Decidable (p.Alone w)
  | .put _ _ _ => inferInstanceAs (Decidable (_ ∧ _))
  | .insert _ _ => inferInstanceAs (Decidable (_ = _))
  | .head | .last _ | .bounds _ | .reviews _ _ _ | .done _ | .failed => isTrue trivial

instance (w : AnchorWorld) : (a : AnchorStep) → Decidable (StepsAlone w a)
  | .call i | .fail i true => inferInstanceAs (Decidable (∀ c ∈ w.calls[i]?, c.phase.Alone w))
  | .write _ _ _ | .sealBatch _ | .signOff _ | .begin _ _ | .fail _ false => isTrue trivial

section Invariant
variable {w : AnchorWorld} {log : AuditLog} {prev : Option Anchor} {anchor : Anchor}
  {digest : Digest}

/-- The anchor goes on where the one before it, a row of the table, ends. -/
def Follows (log : AuditLog) (prev : Option Anchor) (anchor : Anchor) : Prop :=
  ∀ a, prev = some a → a ∈ log.anchors ∧ anchor.fromSeq = a.toSeq + 1 ∧
    anchor.prevAnchorHash = a.anchorHash

/-- Every sign-off listed was made in `(after, until]`. -/
def Lists (reviews : Table Review.id) (after until_ : ℤ) (digest : Digest) : Prop :=
  ∀ r ∈ digest.accessReviews, ∃ q ∈ reviews.rows, q.id = r.id ∧
    after < q.reviewedAt ∧ q.reviewedAt ≤ until_

/-- The key of a digest that has been written and is not in the table yet. -/
def AnchorPhase.pending : AnchorPhase → Option String
  | .insert _ anchor => some anchor.objectKey
  | _ => none

/-- What a call holds. -/
def CallOk (log : AuditLog) (digests : List (Anchor × Digest)) : AnchorPhase → Prop
  | .reviews _ prev fromSeq => ∀ a, prev = some a → a ∈ log.anchors ∧ fromSeq = a.toSeq + 1
  | .put prev digest anchor => Follows log prev anchor ∧ anchor.anchorHash = sha256 digest.marshal ∧
      Lists log.reviews (since prev) anchor.createdAt digest
  | .insert prev anchor => Follows log prev anchor ∧
      (∀ a ∈ log.anchors, a.objectKey ≠ anchor.objectKey) ∧
      ∃ digest, (anchor, digest) ∈ digests ∧ anchor.anchorHash = sha256 digest.marshal
  | _ => True

/-- No two calls have written under one key. -/
def Apart (calls : List AnchorCall) : Prop :=
  ∀ (i j : ℕ) (c d : AnchorCall), i ≠ j → calls[i]? = some c → calls[j]? = some d →
    ∀ k, c.phase.pending = some k → d.phase.pending ≠ some k

structure AnchorsOk (w : AnchorWorld) : Prop where
  unbroken : Unbroken w
  listed : ∀ p ∈ w.digests, ∃ after, Lists w.log.reviews after p.1.createdAt p.2
  calls : ∀ c ∈ w.calls, CallOk w.log w.digests c.phase
  apart : Apart w.calls

theorem mem_reviewHashesBetween {after : Option ℤ} {until_ : ℤ} {r : ReviewHash}
    (h : r ∈ log.reviewHashesBetween after until_) : ∃ q ∈ log.reviews.rows, q.id = r.id ∧
      after.getD 0 < q.reviewedAt ∧ q.reviewedAt ≤ until_ := by
  obtain ⟨q, hq, rfl⟩ := List.mem_map.mp h
  obtain ⟨hrow, hwindow⟩ := Table.mem_select.mp ((List.mem_insertionSort _).mp hq)
  exact ⟨q, hrow, rfl, of_decide_eq_true hwindow⟩

theorem lists_digestOf {head : Head} {fromSeq now : ℤ} : Lists log.reviews (since prev) now
    (digestOf head prev fromSeq (log.reviewHashesBetween (prev.map Anchor.createdAt) now) now) := by
  intro r hr
  obtain ⟨x, hx, rfl⟩ := List.mem_map.mp hr
  exact mem_reviewHashesBetween hx

theorem follows_anchorOf {sink actor : String} {head : Head} {fromSeq now : ℤ}
    {reviews : List ReviewHash} (h : ∀ a, prev = some a → a ∈ log.anchors ∧ fromSeq = a.toSeq + 1) :
    Follows log prev (anchorOf sink actor head prev (digestOf head prev fromSeq reviews now) now) := by
  rintro a rfl
  exact ⟨(h a rfl).1, (h a rfl).2, rfl⟩

/-- The anchor a call goes on from is the last one when it has its id. -/
theorem Follows.last (h : Follows log prev anchor) (hids : Increasing Anchor.id log.anchors)
    (hlast : log.lastAnchor.map Anchor.id = prev.map Anchor.id) : log.lastAnchor = prev := by
  cases prev with
  | none => exact Option.map_eq_none_iff.mp hlast
  | some a =>
    obtain ⟨b, hb, hid⟩ := Option.map_eq_some_iff.mp hlast
    rw [hb, hids.eq_of_key_eq (List.mem_of_getLast? hb) (h a rfl).1 hid]

theorem increasing_insertAnchor (h : Increasing Anchor.id log.anchors) :
    Increasing Anchor.id (log.insertAnchor anchor).anchors := by
  refine List.pairwise_append.mpr ⟨h, List.pairwise_singleton _ _, ?_⟩
  intro a ha b hb
  rw [List.mem_singleton.mp hb]
  have hlast := List.getLast?_eq_some_getLast (List.ne_nil_of_mem ha)
  have hle := h.le_getLast hlast ha
  rw [AuditLog.lastAnchor, hlast]
  exact Nat.lt_succ_of_le hle

theorem Lists.mono {reviews reviews' : Table Review.id} {after until_ : ℤ}
    (hsub : reviews.rows ⊆ reviews'.rows) (h : Lists reviews after until_ digest) :
    Lists reviews' after until_ digest := by
  intro r hr
  obtain ⟨q, hq, hrest⟩ := h r hr
  exact ⟨q, hsub hq, hrest⟩

/-- Sign-offs of two windows, one after the other. -/
theorem Lists.ne {reviews : Table Review.id} {a b c d : ℤ} {digest' : Digest} {r r' : DigestReview}
    (h : Lists reviews a b digest) (h' : Lists reviews c d digest') (hbc : b ≤ c)
    (hr : r ∈ digest.accessReviews) (hr' : r' ∈ digest'.accessReviews) : r.id ≠ r'.id := by
  intro heq
  obtain ⟨q, hq, hid, -, hle⟩ := h r hr
  obtain ⟨q', hq', hid', hlt, -⟩ := h' r' hr'
  obtain rfl : q = q' := Table.eq_of_key_eq hq hq' (hid.trans (heq.trans hid'.symm))
  omega

theorem CallOk.mono {log' : AuditLog} {digests digests' : List (Anchor × Digest)} {p : AnchorPhase}
    (hanchors : log.anchors ⊆ log'.anchors) (hreviews : log.reviews.rows ⊆ log'.reviews.rows)
    (hdigests : digests ⊆ digests')
    (hkeys : ∀ k, p.pending = some k → ∀ a ∈ log'.anchors, a.objectKey ≠ k)
    (h : CallOk log digests p) : CallOk log' digests' p := by
  cases p with
  | put prev digest anchor =>
    exact ⟨fun a ha => ⟨hanchors (h.1 a ha).1, (h.1 a ha).2⟩, h.2.1, h.2.2.mono hreviews⟩
  | insert prev anchor =>
    obtain ⟨hfollows, -, digest, hmem, hhash⟩ := h
    exact ⟨fun a ha => ⟨hanchors (hfollows a ha).1, (hfollows a ha).2⟩, hkeys _ rfl, digest,
      hdigests hmem, hhash⟩
  | reviews head prev fromSeq => exact fun a ha => ⟨hanchors (h a ha).1, (h a ha).2⟩
  | head => trivial
  | last head => trivial
  | bounds head => trivial
  | done anchor => trivial
  | failed => trivial

/-- The keys in the table are not those of pending digests. -/
theorem CallOk.keys {digests : List (Anchor × Digest)} {p : AnchorPhase} (h : CallOk log digests p) :
    ∀ k, p.pending = some k → ∀ a ∈ log.anchors, a.objectKey ≠ k := by
  intro k hk
  cases p with
  | insert prev anchor =>
    obtain rfl := Option.some.inj hk
    exact h.2.1
  | _ => cases hk

theorem calls_set {calls : List AnchorCall} {P : AnchorPhase → Prop} {i : ℕ} {c : AnchorCall}
    {p : AnchorPhase} (h : ∀ j d, i ≠ j → calls[j]? = some d → P d.phase) (hp : P p) :
    ∀ c' ∈ calls.set i { c with phase := p }, P c'.phase := by
  intro c' hc'
  obtain ⟨j, hj⟩ := List.mem_iff_getElem?.mp hc'
  rw [List.getElem?_set] at hj
  split_ifs at hj with hij hlen
  · obtain rfl := Option.some.inj hj
    exact hp
  · exact h j c' hij hj

/-- A call moves to a phase whose key no other call has written under. -/
theorem apart_set {calls : List AnchorCall} {i : ℕ} {c : AnchorCall} {p : AnchorPhase}
    (h : Apart calls) (hp : ∀ k, p.pending = some k → ∀ d ∈ calls, d.phase.pending ≠ some k) :
    Apart (calls.set i { c with phase := p }) := by
  intro j l d e hne hd he k hk hk'
  rw [List.getElem?_set] at hd he
  split_ifs at hd he with hj hlen hl hl
  · exact hne (hj.symm.trans hl)
  · obtain rfl := Option.some.inj hd
    exact hp k hk e (List.mem_of_getElem? he) hk'
  · obtain rfl := Option.some.inj he
    exact hp k hk' d (List.mem_of_getElem? hd) hk
  · exact h j l d e hne hd he k hk hk'

/-- A key under which a call has written is in use. -/
theorem AnchorsOk.written {c : AnchorCall} {k : String} (h : AnchorsOk w) (hc : c ∈ w.calls)
    (hk : c.phase.pending = some k) : w.log.objects.get k ≠ none := by
  have hok := h.calls c hc
  cases hphase : c.phase with
  | insert prev anchor =>
    rw [hphase] at hk hok
    obtain rfl := Option.some.inj hk
    obtain ⟨-, -, digest, hmem, -⟩ := hok
    rw [h.unbroken.kept _ hmem]
    exact Option.some_ne_none _
  | _ =>
    rw [hphase] at hk
    cases hk

/-- What a call only reads leaves the world as it is, but for its own phase. -/
theorem AnchorsOk.move {i : ℕ} {c : AnchorCall} {p : AnchorPhase} (h : AnchorsOk w)
    (hp : CallOk w.log w.digests p) (hpending : p.pending = none) :
    AnchorsOk { w with calls := w.calls.set i { c with phase := p } } :=
  ⟨⟨h.unbroken.ids, h.unbroken.linked, h.unbroken.keys, h.unbroken.kept, h.unbroken.anchored,
      h.unbroken.once⟩, h.listed, calls_set (fun _ d _ hd => h.calls d (List.mem_of_getElem? hd)) hp,
    apart_set h.apart fun k hk => by rw [hpending] at hk; cases hk⟩

/-- A digest goes under a key that is free. -/
theorem AnchorsOk.put {i : ℕ} {c : AnchorCall} {p : AnchorPhase} (h : AnchorsOk w)
    (hc : w.calls[i]? = some c) (hphase : c.phase = .put prev digest anchor)
    (halone : ∀ c ∈ w.calls[i]?, c.phase.Alone w)
    (hp : p = .insert prev anchor ∨ p = .failed) :
    AnchorsOk ⟨{ w.log with objects := w.log.objects.set anchor.objectKey digest },
      w.calls.set i { c with phase := p }, w.digests ++ [(anchor, digest)]⟩ := by
  have halone' := halone c hc
  have hok := h.calls c (List.mem_of_getElem? hc)
  rw [hphase] at hok halone'
  obtain ⟨hfree, hafter⟩ := halone'
  obtain ⟨hfollows, hhash, hlists⟩ := hok
  have hkeys : ∀ a ∈ w.log.anchors, a.objectKey ≠ anchor.objectKey := by
    intro a ha heq
    obtain ⟨q, hq, hkey, -⟩ := h.unbroken.anchored a ha
    have hget := h.unbroken.kept q hq
    rw [hkey, heq, hfree] at hget
    cases hget
  have hpOk : CallOk { w.log with objects := w.log.objects.set anchor.objectKey digest }
      (w.digests ++ [(anchor, digest)]) p := by
    rcases hp with rfl | rfl
    · exact ⟨hfollows, hkeys, digest, by simp, hhash⟩
    · trivial
  refine ⟨⟨h.unbroken.ids, h.unbroken.linked, h.unbroken.keys, ?_, ?_, ?_⟩, ?_, calls_set ?_ hpOk,
    apart_set h.apart ?_⟩
  · intro q hq
    rcases List.mem_append.mp hq with hq | hq
    · have hget := h.unbroken.kept q hq
      have hne : anchor.objectKey ≠ q.1.objectKey := by
        intro heq
        rw [← heq, hfree] at hget
        cases hget
      exact (Dict.get_set_ne hne).trans hget
    · obtain rfl := List.mem_singleton.mp hq
      exact Dict.get_set_self
  · intro a ha
    obtain ⟨q, hq, hanchored⟩ := h.unbroken.anchored a ha
    exact ⟨q, List.mem_append_left _ hq, hanchored⟩
  · refine List.pairwise_append.mpr ⟨h.unbroken.once, List.pairwise_singleton _ _, ?_⟩
    rintro q hq x hx r hr r' hr'
    obtain rfl := List.mem_singleton.mp hx
    obtain ⟨after, hlisted⟩ := h.listed q hq
    have hbefore := hafter.resolve_left (List.ne_nil_of_mem hr') q hq (List.ne_nil_of_mem hr)
    exact hlisted.ne hlists hbefore hr hr'
  · intro q hq
    rcases List.mem_append.mp hq with hq | hq
    · exact h.listed q hq
    · obtain rfl := List.mem_singleton.mp hq
      exact ⟨_, hlists⟩
  · intro j d _ hd
    have hdOk := h.calls d (List.mem_of_getElem? hd)
    exact hdOk.mono (List.Subset.refl _) (List.Subset.refl _) (List.subset_append_left _ _) hdOk.keys
  · intro k hk d hd hpending
    rcases hp with rfl | rfl
    · obtain rfl := Option.some.inj hk
      exact h.written hd hpending hfree
    · cases hk

/-- The row of a digest comes behind the anchor that the digest goes on from. -/
theorem AnchorsOk.insert {i : ℕ} {c : AnchorCall} {p : AnchorPhase} (h : AnchorsOk w)
    (hc : w.calls[i]? = some c) (hphase : c.phase = .insert prev anchor)
    (halone : ∀ c ∈ w.calls[i]?, c.phase.Alone w)
    (hp : p = .done anchor ∨ p = .failed) :
    AnchorsOk ⟨w.log.insertAnchor anchor, w.calls.set i { c with phase := p }, w.digests⟩ := by
  have hlast := halone c hc
  have hok := h.calls c (List.mem_of_getElem? hc)
  rw [hphase] at hok hlast
  obtain ⟨hfollows, hkeys, digest, hmem, hhash⟩ := hok
  have hpOk : CallOk (w.log.insertAnchor anchor) w.digests p := by
    rcases hp with rfl | rfl <;> trivial
  have hpending : p.pending = none := by rcases hp with rfl | rfl <;> rfl
  have hmem_anchors : ∀ a ∈ (w.log.insertAnchor anchor).anchors, a ∈ w.log.anchors ∨
      a.objectKey = anchor.objectKey ∧ a.anchorHash = anchor.anchorHash := by
    intro a ha
    rcases List.mem_append.mp ha with ha | ha
    · exact Or.inl ha
    · obtain rfl := List.mem_singleton.mp ha
      exact Or.inr ⟨rfl, rfl⟩
  refine ⟨⟨increasing_insertAnchor h.unbroken.ids, ?_, ?_, h.unbroken.kept, ?_, h.unbroken.once⟩,
    h.listed, calls_set ?_ hpOk,
    apart_set h.apart fun k hk => by rw [hpending] at hk; cases hk⟩
  · apply h.unbroken.linked.append (List.isChain_singleton _)
    intro x hx y hy
    obtain rfl := Option.some.inj hy
    exact (hfollows x ((hfollows.last h.unbroken.ids hlast).symm.trans hx)).2
  · show ((w.log.anchors ++ [_]).map Anchor.objectKey).Nodup
    rw [List.map_append, List.nodup_append]
    refine ⟨h.unbroken.keys, List.nodup_singleton _, ?_⟩
    intro k hk k' hk'
    obtain ⟨a, ha, rfl⟩ := List.mem_map.mp hk
    obtain rfl := List.mem_singleton.mp hk'
    exact hkeys a ha
  · intro a ha
    rcases hmem_anchors a ha with ha | ⟨hkey, hsame⟩
    · exact h.unbroken.anchored a ha
    · exact ⟨(anchor, digest), hmem, hkey.symm, hsame.trans hhash⟩
  · intro j d hij hd
    have hdOk := h.calls d (List.mem_of_getElem? hd)
    have hreviews : w.log.reviews.rows ⊆ (w.log.insertAnchor anchor).reviews.rows :=
      List.Subset.refl _
    refine hdOk.mono (List.subset_append_left _ _) hreviews (List.Subset.refl w.digests)
      fun k hk a ha => ?_
    rcases hmem_anchors a ha with ha | ⟨hkey, -⟩
    · exact hdOk.keys k hk a ha
    · rintro rfl
      refine h.apart i j c d hij hc hd anchor.objectKey ?_ (hkey ▸ hk)
      rw [hphase]
      rfl

theorem AnchorsOk.call {sink : String} {i : ℕ} (ok : Bool) (h : AnchorsOk w)
    (halone : ∀ c ∈ w.calls[i]?, c.phase.Alone w) : AnchorsOk (anchorCall sink w i ok) := by
  unfold anchorCall
  cases hc : w.calls[i]? with
  | none => exact h
  | some c =>
    have hcOk := h.calls c (List.mem_of_getElem? hc)
    have hmove : ∀ {p : AnchorPhase}, CallOk w.log w.digests p → p.pending = none →
        AnchorsOk ⟨w.log, w.calls.set i { c with phase := if ok then p else .failed },
          w.digests ++ []⟩ := by
      intro p hp hpending
      rw [List.append_nil]
      cases ok with
      | true => exact h.move hp hpending
      | false => exact h.move trivial rfl
    dsimp only
    unfold AnchorCall.advance
    cases hphase : c.phase with
    | head => exact hmove trivial rfl
    | last head =>
      cases hlast : w.log.lastAnchor with
      | none => exact hmove trivial rfl
      | some prev =>
        refine hmove ?_ rfl
        intro a ha
        obtain rfl := Option.some.inj ha
        exact ⟨List.mem_of_getLast? hlast, rfl⟩
    | bounds head => exact hmove (fun a ha => by cases ha) rfl
    | reviews head prev fromSeq =>
      rw [hphase] at hcOk
      exact hmove ⟨follows_anchorOf hcOk, rfl, lists_digestOf⟩ rfl
    | put prev digest anchor =>
      apply h.put hc hphase halone
      cases ok with
      | true => exact Or.inl rfl
      | false => exact Or.inr rfl
    | insert prev anchor =>
      dsimp only
      rw [List.append_nil]
      apply h.insert hc hphase halone
      cases ok with
      | true => exact Or.inl rfl
      | false => exact Or.inr rfl
    | done anchor => exact hmove trivial rfl
    | failed => exact hmove trivial rfl

/-- Rows that are written or sealed and sign-offs leave what the calls hold. -/
theorem AnchorsOk.frame (hanchors : log.anchors = w.log.anchors) (hobjects : log.objects = w.log.objects)
    (hreviews : w.log.reviews.rows ⊆ log.reviews.rows) (h : AnchorsOk w) :
    AnchorsOk { w with log := log } := by
  refine ⟨⟨?_, ?_, ?_, ?_, ?_, h.unbroken.once⟩, ?_, ?_, h.apart⟩
  · rw [hanchors]
    exact h.unbroken.ids
  · rw [hanchors]
    exact h.unbroken.linked
  · rw [hanchors]
    exact h.unbroken.keys
  · rw [hobjects]
    exact h.unbroken.kept
  · rw [hanchors]
    exact h.unbroken.anchored
  · intro p hp
    obtain ⟨after, hlists⟩ := h.listed p hp
    exact ⟨after, hlists.mono hreviews⟩
  · intro c hc
    apply (h.calls c hc).mono (by rw [hanchors]; exact List.Subset.refl _) hreviews
      (List.Subset.refl _)
    rw [hanchors]
    exact (h.calls c hc).keys

theorem AnchorsOk.step {sink : String} {a : AnchorStep} (h : AnchorsOk w) (halone : StepsAlone w a) :
    AnchorsOk (anchorStep sink w a) := by
  cases a with
  | write id createdAt canon => exact h.frame rfl rfl (List.Subset.refl _)
  | sealBatch limit => exact h.frame rfl rfl (List.Subset.refl _)
  | signOff review =>
    have hreviews : w.log.reviews.rows ⊆ (w.log.reviews.insertNew review).rows := by
      unfold Table.insertNew
      split
      · exact List.subset_cons_self _ _
      · exact List.Subset.refl _
    exact h.frame rfl rfl hreviews
  | begin now actor =>
    refine ⟨⟨h.unbroken.ids, h.unbroken.linked, h.unbroken.keys, h.unbroken.kept, h.unbroken.anchored,
      h.unbroken.once⟩, h.listed, ?_, ?_⟩
    · intro c hc
      rcases List.mem_append.mp hc with hc | hc
      · exact h.calls c hc
      · obtain rfl := List.mem_singleton.mp hc
        trivial
    · intro i j c d hne hc hd k hk hk'
      have hold : ∀ {i : ℕ} {c : AnchorCall}, (w.calls ++ [⟨now, actor, .head⟩])[i]? = some c →
          c.phase.pending = some k → w.calls[i]? = some c := by
        intro i c hc hk
        rw [List.getElem?_append] at hc
        split at hc
        · exact hc
        · obtain rfl := List.mem_singleton.mp (List.mem_of_getElem? hc)
          cases hk
      exact h.apart i j c d hne (hold hc hk) (hold hd hk') k hk hk'
  | call i => exact h.call true halone
  | fail i done =>
    cases done with
    | true => exact h.call false halone
    | false =>
      unfold anchorStep
      dsimp only
      cases hc : w.calls[i]? with
      | none => exact h
      | some c => exact h.move trivial rfl

theorem AnchorsOk.start (table : AuditTable) (reviews : Table Review.id) :
    AnchorsOk (.start table reviews) := by
  refine ⟨⟨List.Pairwise.nil, List.IsChain.nil, List.nodup_nil, ?_, ?_, List.Pairwise.nil⟩, ?_, ?_, ?_⟩
  · intro p hp
    cases hp
  · intro a ha
    cases ha
  · intro p hp
    cases hp
  · intro c hc
    cases hc
  · intro i j c d hne hc
    cases hc

end Invariant

/-- The anchors are unbroken in every run of calls that take no other call's place. -/
theorem anchors_unbroken (sink : String) (table : AuditTable) (reviews : Table Review.id)
    (run : List AnchorStep) (h : Along (anchorStep sink) StepsAlone (.start table reviews) run) :
    Unbroken (exec (anchorStep sink) (.start table reviews) run) :=
  (exec_invariant (fun _ _ hok halone => AnchorsOk.step hok halone)
    (AnchorsOk.start table reviews) h).unbroken

/-- One row, one sign-off, and an anchor of the schedule. -/
def anchoredOnce : List AnchorStep :=
  [.write 1 0 "a", .sealBatch 10, .signOff ⟨"q1", 1791590600000000, "\x7b\x7d"⟩,
    .begin 1791590700000000 "system", .call 0, .call 0, .call 0, .call 0, .call 0]

/-- An administrator anchors after the schedule. -/
def anchoredTwice : List AnchorStep :=
  anchoredOnce ++ AnchorStep.call 0 :: .begin 1791590800000000 "root@example.com" ::
    List.replicate 5 (.call 1)

theorem anchors_unbroken_anchoredTwice :
    Unbroken (exec (anchorStep "s3") (.start .empty Table.empty) anchoredTwice) ∧
    (exec (anchorStep "s3") (.start .empty Table.empty) anchoredTwice).log.anchors.map
      (fun a => (a.fromSeq, a.toSeq)) = [(1, 1), (2, 1)] :=
  ⟨anchors_unbroken "s3" .empty Table.empty anchoredTwice (by decide), by decide⟩

/-- An administrator reads the last anchor while the schedule's is not in yet. -/
def anchoredAside : List AnchorStep :=
  anchoredOnce ++ AnchorStep.begin 1791590800000000 "root@example.com" :: List.replicate 4 (.call 1) ++
    [.call 0, .call 1, .call 1]

/-- The second anchor goes on from no anchor. -/
theorem anchors_fork :
    ¬ Unbroken (exec (anchorStep "s3") (.start .empty Table.empty) anchoredAside) := by
  intro h
  have hranges : (exec (anchorStep "s3") (.start .empty Table.empty) anchoredAside).log.anchors.map
      (fun a => (a.fromSeq, a.toSeq)) = [(1, 1), (1, 1)] := by decide
  have hlinked : [((1 : ℤ), (1 : ℤ)), (1, 1)].IsChain fun a b => b.1 = a.2 + 1 := by
    rw [← hranges, List.isChain_map]
    exact h.linked.imp fun a b hab => hab.1
  revert hlinked
  decide

end Kubeast.AuditChain
