import Kubeast.AuditSink.Dispatcher
import Kubeast.Foundation.Sorted
import Kubeast.Foundation.Transition

/-! What a sink's cursor has behind it: which rows are delivered when reads come in order, and
a row that is passed over when one does not. -/
namespace Kubeast.AuditSink
open Coverage Sorted Transition

/-- Part of a `Send` that returned without error. -/
def Delivered (s : System) (e : Event) : Prop := ∃ d ∈ s.sends, d.ok = true ∧ e ∈ d.events

/-- The rows the filter picks that are there for others to see, or may still get there within
the settle delay. -/
def due (cfg : SinkConfig) (s : System) : Set Event :=
  {e | cfg.filter.matchEvent e = true ∧ ∃ r ∈ s.store.log.rows, r.event = e ∧
    (r.committed = true ∨ s.store.now ≤ e.time + settleDelay)}

/-- From the sink's start up to position `x` every row due is delivered or one of the rest. -/
def Reached (cfg : SinkConfig) (s : System) (x : ℤ) (rest : List Event) : Prop :=
  x < s.store.nextId ∧ ∃ k ∈ s.store.cursor,
    Covered Event.id (due cfg s) (Delivered s) k.start x rest

/-- What a replica's local variables stand for. -/
def PhaseFits (cfg : SinkConfig) (s : System) : Phase → Prop
  | .idle => True
  | .maxID => True
  | .ensureCursor start _ => start < s.store.nextId
  | .after cursor => Reached cfg s cursor []
  | .send cursor last rest => Reached cfg s cursor [] ∧ Reached cfg s last rest ∧
      Increasing Event.id rest ∧ ∀ e ∈ rest, e.id ≤ last
  | .fail cursor upTo => Reached cfg s cursor [] ∧ Reached cfg s upTo []
  | .advanceTo cursor upTo => Reached cfg s cursor [] ∧ Reached cfg s upTo []
  | .advance cursor last => Reached cfg s cursor [] ∧ Reached cfg s last []

structure NoGap (cfg : SinkConfig) (s : System) : Prop where
  cursor : ∀ k ∈ s.store.cursor, Reached cfg s k.lastId []
  phase : ∀ r, PhaseFits cfg s (s.phase r)

/-- A row becomes visible within the settle delay of its `created_at`. -/
def Prompt (s : System) : SinkStep → Prop
  | .commit id => ∀ r ∈ s.store.log.rows, r.id = id → r.committed = false →
      s.store.now ≤ r.event.time + settleDelay
  | .tick _ => True
  | .insertRow _ _ _ => True
  | .enter _ => True
  | .leave _ => True
  | .call _ _ => True

/-- No row the filter picks, visible or not, lies behind the cursor and before a row that is
read with its own settle delay still running. -/
def InOrder (cfg : SinkConfig) (st : Store) (cursor : ℤ) : Prop :=
  ∀ e ∈ st.after cursor readPage settleDelay, ∀ r ∈ st.log.rows, cursor < r.id → r.id < e.id →
    cfg.filter.matchEvent r.event = true → r.event.time < st.now - settleDelay

/-- The cursor a replica is about to read behind. -/
def Phase.reading : Phase → Option ℤ
  | .after cursor => some cursor
  | _ => none

def ReadsInOrder (cfg : SinkConfig) (s : System) : SinkStep → Prop
  | .call r o => o = .ok → ∀ cursor ∈ (s.phase r).reading, InOrder cfg s.store cursor
  | .tick _ => True
  | .insertRow _ _ _ => True
  | .commit _ => True
  | .enter _ => True
  | .leave _ => True

/-- What no step takes back. -/
structure Later (cfg : SinkConfig) (s s' : System) : Prop where
  next : s.store.nextId ≤ s'.store.nextId
  due : ∀ e ∈ due cfg s', e.id < s.store.nextId → e ∈ due cfg s
  delivered : ∀ e, Delivered s e → Delivered s' e
  start : ∀ k ∈ s.store.cursor, ∃ k' ∈ s'.store.cursor, k'.start = k.start

section Later
variable {cfg : SinkConfig} {s s' : System} {x : ℤ} {rest : List Event} {p : Phase} {r : ℕ}

theorem Reached.later (h : Reached cfg s x rest) (hl : Later cfg s s') :
    Reached cfg s' x rest := by
  obtain ⟨hx, k, hk, hcovered⟩ := h
  obtain ⟨k', hk', hstart⟩ := hl.start k hk
  refine ⟨by have := hl.next; omega, k', hk', ?_⟩
  rw [hstart]
  exact hcovered.mono (fun e he hle => hl.due e he (by omega)) hl.delivered

theorem PhaseFits.later (h : PhaseFits cfg s p) (hl : Later cfg s s') : PhaseFits cfg s' p := by
  cases p with
  | idle => trivial
  | maxID => trivial
  | ensureCursor start read => exact lt_of_lt_of_le h hl.next
  | after cursor => exact Reached.later h hl
  | send cursor last rest => exact ⟨h.1.later hl, h.2.1.later hl, h.2.2⟩
  | fail cursor upTo => exact ⟨h.1.later hl, h.2.later hl⟩
  | advanceTo cursor upTo => exact ⟨h.1.later hl, h.2.later hl⟩
  | advance cursor last => exact ⟨h.1.later hl, h.2.later hl⟩

theorem NoGap.later (h : NoGap cfg s) (hl : Later cfg s s') (hphase : s'.phase = s.phase)
    (hcursor : ∀ k ∈ s'.store.cursor, Reached cfg s' k.lastId []) : NoGap cfg s' := by
  refine ⟨hcursor, fun r => ?_⟩
  rw [hphase]
  exact (h.phase r).later hl

/-- The replica goes on to another call. -/
theorem NoGap.goto (h : NoGap cfg s) (hp : PhaseFits cfg s p) : NoGap cfg (s.goto r p) := by
  refine ⟨h.cursor, fun q => ?_⟩
  show PhaseFits cfg s (Function.update s.phase r p q)
  by_cases hq : q = r
  · rw [hq, Function.update_self]
    exact hp
  · rw [Function.update_of_ne hq]
    exact h.phase q

/-- Writing the cursor leaves the rows alone. -/
theorem later_withCursor {st : Store} (hnext : st.nextId = s.store.nextId)
    (hnow : st.now = s.store.now) (hlog : st.log = s.store.log)
    (hstart : ∀ k ∈ s.store.cursor, ∃ k' ∈ st.cursor, k'.start = k.start) :
    Later cfg s { s with store := st } := by
  refine ⟨hnext.ge, fun e he _ => ?_, fun _ he => he, hstart⟩
  unfold due at he ⊢
  dsimp only at he
  rwa [hlog, hnow] at he

end Later

section Calls
variable {cfg : SinkConfig} {s : System} {x : ℤ} {rest rows : List Event} {r : ℕ} {o : Outcome}
  {cursor last upTo start : ℤ} {read : Bool}

/-- The cursor row is there after an `EnsureCursor` that did its work. -/
theorem NoGap.ensureCursor (h : NoGap cfg s) (hstart : start < s.store.nextId) :
    Later cfg s { s with store := s.store.ensureCursor start } ∧
      NoGap cfg { s with store := s.store.ensureCursor start } := by
  have hl : Later cfg s { s with store := s.store.ensureCursor start } := by
    apply later_withCursor <;> try rfl
    intro k hk
    exact ⟨k, by simp [Store.ensureCursor, Option.mem_def.mp hk], rfl⟩
  refine ⟨hl, h.later hl rfl fun k hk => ?_⟩
  cases hold : s.store.cursor with
  | none =>
    obtain rfl : ⟨start, start, 0⟩ = k := by simpa [Store.ensureCursor, hold] using hk
    exact ⟨hstart, _, hk, covered_self _ _ _ _ _⟩
  | some k₀ =>
    obtain rfl : k₀ = k := by simpa [Store.ensureCursor, hold] using hk
    exact (h.cursor k₀ hold).later hl

/-- A cursor moved to a position that is reached. -/
theorem NoGap.advance (h : NoGap cfg s) (hx : Reached cfg s x []) (done : Bool) :
    Later cfg s { s with store := if done then s.store.advance x else s.store } ∧
      NoGap cfg { s with store := if done then s.store.advance x else s.store } := by
  cases done with
  | false => exact ⟨⟨le_rfl, fun _ he _ => he, fun _ he => he, fun k hk => ⟨k, hk, rfl⟩⟩, h⟩
  | true =>
    have hl : Later cfg s { s with store := s.store.advance x } := by
      apply later_withCursor <;> try rfl
      intro k hk
      refine ⟨_, Option.mem_map_of_mem _ hk, ?_⟩
      split <;> rfl
    refine ⟨hl, h.later hl rfl fun k hk => ?_⟩
    obtain ⟨k₀, hk₀, rfl⟩ := Option.mem_map.mp hk
    show Reached cfg { s with store := s.store.advance x } _ []
    split
    · exact hx.later hl
    · exact (h.cursor k₀ hk₀).later hl

theorem NoGap.fail (h : NoGap cfg s) (done : Bool) :
    Later cfg s { s with store := if done then s.store.fail else s.store } ∧
      NoGap cfg { s with store := if done then s.store.fail else s.store } := by
  cases done with
  | false => exact ⟨⟨le_rfl, fun _ he _ => he, fun _ he => he, fun k hk => ⟨k, hk, rfl⟩⟩, h⟩
  | true =>
    have hl : Later cfg s { s with store := s.store.fail } := by
      apply later_withCursor <;> try rfl
      exact fun k hk => ⟨_, Option.mem_map_of_mem _ hk, rfl⟩
    refine ⟨hl, h.later hl rfl fun k hk => ?_⟩
    obtain ⟨k₀, hk₀, rfl⟩ := Option.mem_map.mp hk
    exact (h.cursor k₀ hk₀).later hl

/-- A delivery is recorded. -/
theorem NoGap.send (h : NoGap cfg s) (d : Delivery) :
    Later cfg s { s with sends := s.sends ++ [d] } ∧
      NoGap cfg { s with sends := s.sends ++ [d] } := by
  have hl : Later cfg s { s with sends := s.sends ++ [d] } := by
    refine ⟨le_rfl, fun _ he _ => he, ?_, fun k hk => ⟨k, hk, rfl⟩⟩
    rintro e ⟨d', hd', he⟩
    exact ⟨d', List.mem_append_left _ hd', he⟩
  exact ⟨hl, h.later hl rfl fun k hk => (h.cursor k hk).later hl⟩

theorem phaseFits_nextChunk (hcursor : Reached cfg s cursor []) (hlast : Reached cfg s last rest)
    (hinc : Increasing Event.id rest) (hle : ∀ e ∈ rest, e.id ≤ last) :
    PhaseFits cfg s (.nextChunk cursor last rest) := by
  unfold Phase.nextChunk
  split
  · next hnil =>
    rw [hnil] at hlast
    exact ⟨hcursor, hlast⟩
  · exact ⟨hcursor, hlast, hinc, hle⟩

/-- A page read in order holds all that is due up to its last row. -/
theorem Reached.page (h : Reached cfg s cursor []) (horder : InOrder cfg s.store cursor) {e' : Event}
    (hlast : (s.store.after cursor readPage settleDelay).getLast? = some e') :
    Reached cfg s e'.id
      ((s.store.after cursor readPage settleDelay).filter cfg.filter.matchEvent) := by
  obtain ⟨-, k, hk, hcovered⟩ := h
  have hpage := List.mem_of_getLast? hlast
  obtain ⟨hrow', -, hsettled'⟩ := Store.of_mem_after hpage
  refine ⟨(s.store.ids _ hrow').2, k, hk, hcovered.trans ?_⟩
  rintro e ⟨hmatch, ⟨event, committed⟩, hrow, rfl, hlive⟩ hlow hhigh
  have hsettled : event.time < s.store.now - settleDelay := by
    rcases lt_or_eq_of_le hhigh with hlt | heq
    · exact horder e' hpage _ hrow hlow hlt hmatch
    · obtain rfl : event = e' :=
        congrArg LogRow.event (Table.eq_of_key_eq hrow hrow' heq)
      exact hsettled'
  have hover : ¬ s.store.now ≤ event.time + settleDelay := by omega
  obtain rfl : committed = true := hlive.resolve_right hover
  exact Or.inr (List.mem_filter.mpr
    ⟨Store.mem_after_of_le hlast hrow hlow hsettled hhigh, hmatch⟩)

theorem NoGap.call (h : NoGap cfg s) (horder : ReadsInOrder cfg s (.call r o)) :
    NoGap cfg (s.call cfg r o) := by
  have hphase := h.phase r
  unfold System.call
  cases hp : s.phase r with
  | idle => exact h
  | maxID =>
    apply h.goto
    show (if o.isOk then s.store.maxID else 0) < s.store.nextId
    split
    · exact Store.maxID_lt
    · exact s.store.next_pos
  | ensureCursor start read =>
    rw [hp] at hphase
    obtain ⟨hl, hnext⟩ := h.ensureCursor hphase
    cases o with
    | ok =>
      apply hnext.goto
      exact hnext.cursor _ rfl
    | failed done =>
      cases done with
      | false => exact h.goto hphase
      | true => exact hnext.goto (PhaseFits.later hphase hl)
  | after cursor =>
    rw [hp] at hphase
    cases o with
    | failed done => exact h.goto hphase
    | ok =>
      have horder : InOrder cfg s.store cursor := horder rfl cursor (by rw [hp]; rfl)
      apply h.goto
      show PhaseFits cfg s (.withPage cfg cursor (s.store.after cursor readPage settleDelay))
      unfold Phase.withPage
      split
      · exact hphase
      · next e' hlast =>
        rw [Filter.apply_eq]
        apply phaseFits_nextChunk hphase (Reached.page hphase horder hlast)
        · exact Store.increasing_after.filter _
        · intro e he
          exact Store.increasing_after.le_getLast hlast (List.mem_filter.mp he).1
  | send cursor last rest =>
    rw [hp] at hphase
    obtain ⟨hcursor, hlast, hinc, hle⟩ := hphase
    obtain ⟨hl, hnext⟩ := h.send ⟨rest.take cfg.batchLimits.1.toNat, o.isOk⟩
    cases o with
    | ok =>
      apply hnext.goto
      apply phaseFits_nextChunk (hcursor.later hl)
      · obtain ⟨hlt, k, hk, hcovered⟩ := hlast.later hl
        refine ⟨hlt, k, hk, hcovered.drop fun e he => ?_⟩
        exact ⟨_, List.mem_append_right _ (List.mem_singleton_self _), rfl, he⟩
      · exact hinc.sublist (List.drop_sublist _ _)
      · exact fun e he => hle e (List.mem_of_mem_drop he)
    | failed done =>
      apply hnext.goto
      refine ⟨hcursor.later hl, Reached.later ?_ hl⟩
      cases rest with
      | nil => exact hcursor
      | cons e rest =>
        obtain ⟨hlt, k, hk, hcovered⟩ := hlast
        have hhead := hle e (by simp)
        refine ⟨?_, k, hk, hcovered.before_head hinc ?_ ?_⟩
        all_goals
          simp only [List.head?_cons, Option.elim_some]
          omega
  | fail cursor upTo =>
    rw [hp] at hphase
    obtain ⟨hl, hnext⟩ := h.fail o.done
    apply hnext.goto
    by_cases hlt : cursor < upTo
    · rw [if_pos hlt]
      exact ⟨hphase.1.later hl, hphase.2.later hl⟩
    · rw [if_neg hlt]
      exact hphase.1.later hl
  | advanceTo cursor upTo =>
    rw [hp] at hphase
    obtain ⟨hl, hnext⟩ := h.advance hphase.2 o.done
    apply hnext.goto
    cases o with
    | ok => exact hphase.2.later hl
    | failed done => exact hphase.1.later hl
  | advance cursor last =>
    rw [hp] at hphase
    obtain ⟨hl, hnext⟩ := h.advance hphase.2 o.done
    apply hnext.goto
    cases o with
    | ok => exact hphase.2.later hl
    | failed done => exact hphase.1.later hl

end Calls

section Run
variable {cfg : SinkConfig} {s : System}

theorem sinkStep_noGap (s : System) (a : SinkStep) (h : NoGap cfg s)
    (hguard : Prompt s a ∧ ReadsInOrder cfg s a) : NoGap cfg (sinkStep cfg s a) := by
  have hmove : ∀ s', Later cfg s s' → s'.phase = s.phase → s'.store.cursor = s.store.cursor →
      NoGap cfg s' := fun s' hl hphase hcursor =>
    h.later hl hphase fun k hk => (h.cursor k (hcursor ▸ hk)).later hl
  cases a with
  | tick d =>
    refine hmove _ ⟨le_rfl, ?_, fun _ he => he, fun k hk => ⟨k, hk, rfl⟩⟩ rfl rfl
    rintro e ⟨hmatch, r, hr, hre, hlive⟩ -
    refine ⟨hmatch, r, hr, hre, hlive.imp_right fun hle => ?_⟩
    simp only [sinkStep] at hle
    omega
  | insertRow time action result =>
    refine hmove _ ⟨?_, ?_, fun _ he => he, fun k hk => ⟨k, hk, rfl⟩⟩ rfl rfl
    · show s.store.nextId ≤ s.store.nextId + 1
      omega
    · rintro e ⟨hmatch, r, hr, hre, hlive⟩ hold
      refine ⟨hmatch, r, (Store.mem_log_insertRow.mp hr).resolve_left fun hnew => ?_, hre, hlive⟩
      rw [← hre, hnew] at hold
      exact absurd hold (lt_irrefl _)
  | commit id =>
    refine hmove _ ⟨le_rfl, ?_, fun _ he => he, fun k hk => ⟨k, hk, rfl⟩⟩ rfl rfl
    rintro e ⟨hmatch, r, hr, hre, hlive⟩ -
    obtain ⟨x, hx, hevent, hcommitted⟩ := Store.mem_log_commit.mp hr
    refine ⟨hmatch, x, hx, hevent.trans hre, ?_⟩
    rcases hlive with hc | hle
    · cases hxc : x.committed with
      | true => exact Or.inl rfl
      | false =>
        rw [hcommitted, hxc, Bool.false_or] at hc
        have hprompt := hguard.1 x hx (of_decide_eq_true hc) hxc
        rw [hevent, hre] at hprompt
        exact Or.inr hprompt
    · exact Or.inr hle
  | enter r =>
    unfold sinkStep System.enter
    dsimp only
    split
    · have hsame : NoGap cfg { s with firstMax := some (s.firstMax.getD s.store.maxID) } :=
        ⟨h.cursor, h.phase⟩
      apply hsame.goto
      split
      · exact s.store.next_pos
      · trivial
    · exact h
  | leave r => exact h.goto trivial
  | call r o => exact h.call hguard.2

theorem noGap_start : NoGap cfg System.start :=
  ⟨fun _ hk => (nomatch hk), fun _ => trivial⟩

/-- In a run whose rows become visible within the settle delay and whose reads come in order,
every row between the sink's start and its cursor is delivered unless the filter leaves it
out. -/
theorem no_row_skipped (cfg : SinkConfig) (steps : List SinkStep)
    (h : Along (sinkStep cfg) (fun s a => Prompt s a ∧ ReadsInOrder cfg s a) System.start steps) :
    ∀ k ∈ (exec (sinkStep cfg) System.start steps).store.cursor,
      ∀ e, ⟨e, true⟩ ∈ (exec (sinkStep cfg) System.start steps).store.log.rows →
        k.start < e.id → e.id ≤ k.lastId →
        cfg.filter.matchEvent e = false ∨ Delivered (exec (sinkStep cfg) System.start steps) e := by
  intro k hk e he hlow hhigh
  have hgap := exec_invariant sinkStep_noGap noGap_start h
  obtain ⟨-, k', hk', hcovered⟩ := hgap.cursor k hk
  obtain rfl : k' = k := Option.mem_unique hk' hk
  cases hmatch : cfg.filter.matchEvent e with
  | false => exact Or.inl rfl
  | true =>
    have hdue : e ∈ due cfg (exec (sinkStep cfg) System.start steps) :=
      ⟨hmatch, ⟨e, true⟩, he, rfl, Or.inl rfl⟩
    exact Or.inr ((hcovered e hdue hlow hhigh).resolve_right List.not_mem_nil)

end Run

instance (s : System) : (a : SinkStep) → Decidable (Prompt s a)
  | .commit id => inferInstanceAs (Decidable (∀ r ∈ s.store.log.rows, r.id = id →
      r.committed = false → s.store.now ≤ r.event.time + settleDelay))
  | .tick _ => isTrue trivial
  | .insertRow _ _ _ => isTrue trivial
  | .enter _ => isTrue trivial
  | .leave _ => isTrue trivial
  | .call _ _ => isTrue trivial

instance (cfg : SinkConfig) (st : Store) (cursor : ℤ) : Decidable (InOrder cfg st cursor) :=
  inferInstanceAs (Decidable (∀ e ∈ st.after cursor readPage settleDelay, ∀ r ∈ st.log.rows,
    cursor < r.id → r.id < e.id → cfg.filter.matchEvent r.event = true →
      r.event.time < st.now - settleDelay))

instance (cfg : SinkConfig) (s : System) : (a : SinkStep) → Decidable (ReadsInOrder cfg s a)
  | .call r o => inferInstanceAs (Decidable
      (o = .ok → ∀ cursor ∈ (s.phase r).reading, InOrder cfg s.store cursor))
  | .tick _ => isTrue trivial
  | .insertRow _ _ _ => isTrue trivial
  | .commit _ => isTrue trivial
  | .enter _ => isTrue trivial
  | .leave _ => isTrue trivial

/-- A file sink of everything. -/
def archive : SinkConfig := ⟨"archive", .file, none, 1, 0, ⟨[], []⟩⟩

/-- Row 1 begins four seconds in; row 2, whose transaction began at once, is settled first. -/
def lateRun : List SinkStep :=
  [.tick 4000000, .insertRow 4000000 "k8s.pod.delete" "success",
    .insertRow 0 "auth.login" "success", .commit 1, .commit 2, .tick 2000000,
    .enter 0, .call 0 .ok, .call 0 .ok, .call 0 .ok, .call 0 .ok]

/-- The page is row 2 alone and the cursor goes behind it: row 1 is never read. -/
theorem lateRun_row_skipped :
    Along (sinkStep archive) Prompt System.start lateRun ∧
      (exec (sinkStep archive) System.start lateRun).store.cursor = some ⟨0, 2, 0⟩ ∧
      ⟨⟨1, 4000000, "k8s.pod.delete", "success"⟩, true⟩ ∈
        (exec (sinkStep archive) System.start lateRun).store.log.rows ∧
      (exec (sinkStep archive) System.start lateRun).sends =
        [⟨[⟨2, 0, "auth.login", "success"⟩], true⟩] := by
  decide

/-- Rows in order; the second chunk fails once, the write of the cursor before it as well, and
the replica that goes on is another one. -/
def retriedRun : List SinkStep :=
  [.insertRow 0 "auth.login" "success", .insertRow 1 "k8s.pod.delete" "failure", .commit 2,
    .commit 1, .tick 6000000, .enter 0, .call 0 (.failed true), .call 0 .ok, .call 0 .ok,
    .call 0 .ok, .call 0 (.failed false), .call 0 .ok, .call 0 (.failed true), .leave 0,
    .enter 1, .call 1 .ok, .call 1 .ok, .call 1 .ok, .call 1 .ok]

theorem no_row_skipped_retriedRun :
    Delivered (exec (sinkStep archive) System.start retriedRun)
      ⟨2, 1, "k8s.pod.delete", "failure"⟩ :=
  (no_row_skipped archive retriedRun (by decide) ⟨0, 2, 0⟩ (by decide) _
    (by decide) (by decide) (by decide)).resolve_left (by decide)

end Kubeast.AuditSink
