import Kubeast.AuditSink.Dispatcher
import Kubeast.Foundation.Transition

/-! Where a sink that starts at the latest row begins, when the read of that row may fail. -/
namespace Kubeast.AuditSink
open Sorted Transition

/-- A replica's local variables keep above position `m`. -/
def Phase.Above (m : ℤ) : Phase → Prop
  | .idle => True
  | .maxID => True
  | .ensureCursor start read => 0 ≤ start ∧ (read = true → m ≤ start)
  | .after cursor => m ≤ cursor
  | .send cursor last rest => m ≤ cursor ∧ m ≤ last ∧ ∀ e ∈ rest, m < e.id
  | .fail cursor _ => m ≤ cursor
  | .advanceTo cursor upTo => m ≤ cursor ∧ m ≤ upTo
  | .advance cursor last => m ≤ cursor ∧ m ≤ last

/-- Everything the sink has done is above `m`, an id there was. -/
structure FromLatest (s : System) (m : ℤ) : Prop where
  le_maxID : m ≤ s.store.maxID
  cursor : ∀ k ∈ s.store.cursor, m ≤ k.lastId
  phase : ∀ r, (s.phase r).Above m
  sends : ∀ d ∈ s.sends, ∀ e ∈ d.events, m < e.id

/-- Before `runSink` is entered the sink has done nothing; after it everything is above the
highest id of that moment. -/
structure NoReplay (s : System) : Prop where
  unentered : s.firstMax = none → s.store.cursor = none ∧ (∀ r, s.phase r = .idle) ∧ s.sends = []
  entered : ∀ m ∈ s.firstMax, FromLatest s m

/-- For a replica about to create the cursor row: whether its start was read. -/
def Phase.startRead : Phase → Option Bool
  | .ensureCursor _ read => some read
  | _ => none

/-- The `EnsureCursor` that creates the cursor row has its start from a `MaxID` that returned,
unless there was no audit row when `runSink` was first entered. -/
def StartsRead (s : System) : SinkStep → Prop
  | .call r o => s.store.cursor = none → o.done = true →
      ∀ read ∈ (s.phase r).startRead, read = true ∨ s.firstMax = some 0
  | .tick _ => True
  | .insertRow _ _ _ => True
  | .commit _ => True
  | .enter _ => True
  | .leave _ => True

section Above
variable {cfg : SinkConfig} {s : System} {m cursor last : ℤ} {rest rows : List Event}
  {p : Phase} {r : ℕ} {o : Outcome} {done : Bool}

theorem FromLatest.goto (h : FromLatest s m) (hp : p.Above m) : FromLatest (s.goto r p) m := by
  refine ⟨h.le_maxID, h.cursor, fun q => ?_, h.sends⟩
  show (Function.update s.phase r p q).Above m
  by_cases hq : q = r
  · rw [hq, Function.update_self]
    exact hp
  · rw [Function.update_of_ne hq]
    exact h.phase q

theorem FromLatest.withStore (h : FromLatest s m) (st : Store) (hmax : s.store.maxID ≤ st.maxID)
    (hcursor : ∀ k ∈ st.cursor, m ≤ k.lastId) : FromLatest { s with store := st } m :=
  ⟨h.le_maxID.trans hmax, hcursor, h.phase, h.sends⟩

theorem FromLatest.advance (h : FromLatest s m) (hlast : m ≤ last) :
    FromLatest { s with store := if done then s.store.advance last else s.store } m := by
  cases done with
  | false => exact h
  | true =>
    apply h.withStore (s.store.advance last) le_rfl
    intro k hk
    obtain ⟨k₀, hk₀, rfl⟩ := Option.mem_map.mp hk
    show m ≤ Cursor.lastId (if k₀.lastId < last then _ else _)
    split
    · exact hlast
    · exact h.cursor k₀ hk₀

theorem FromLatest.fail (h : FromLatest s m) :
    FromLatest { s with store := if done then s.store.fail else s.store } m := by
  cases done with
  | false => exact h
  | true =>
    apply h.withStore s.store.fail le_rfl
    intro k hk
    obtain ⟨k₀, hk₀, rfl⟩ := Option.mem_map.mp hk
    exact h.cursor k₀ hk₀

theorem above_nextChunk (hcursor : m ≤ cursor) (hlast : m ≤ last) (hrest : ∀ e ∈ rest, m < e.id) :
    (Phase.nextChunk cursor last rest).Above m := by
  unfold Phase.nextChunk
  split
  · exact ⟨hcursor, hlast⟩
  · exact ⟨hcursor, hlast, hrest⟩

/-- A page is read from behind the cursor. -/
theorem above_withPage (hcursor : m ≤ cursor)
    (hrows : rows = s.store.after cursor readPage settleDelay) :
    (Phase.withPage cfg cursor rows).Above m := by
  have habove : ∀ e ∈ rows, m < e.id := by
    intro e he
    have := (Store.of_mem_after (hrows ▸ he)).2.1
    omega
  unfold Phase.withPage
  split
  · exact hcursor
  · next e' hlast =>
    apply above_nextChunk hcursor
    · exact (habove e' (List.mem_of_getLast? hlast)).le
    · intro e he
      rw [Filter.apply_eq] at he
      exact habove e (List.mem_filter.mp he).1

/-- The cursor row as `EnsureCursor` leaves it. -/
theorem FromLatest.ensureCursor {start : ℤ} (h : FromLatest s m)
    (hstart : s.store.cursor = none → m ≤ start) :
    FromLatest { s with store := s.store.ensureCursor start } m := by
  apply h.withStore (s.store.ensureCursor start) le_rfl
  intro k hk
  cases hold : s.store.cursor with
  | none =>
    obtain rfl : ⟨start, start, 0⟩ = k := by simpa [Store.ensureCursor, hold] using hk
    exact hstart hold
  | some k₀ =>
    obtain rfl : k₀ = k := by simpa [Store.ensureCursor, hold] using hk
    exact h.cursor k₀ hold

theorem FromLatest.call (h : FromLatest s m) (hfirst : s.firstMax = some m)
    (hread : StartsRead s (.call r o)) : FromLatest (s.call cfg r o) m := by
  have hphase := h.phase r
  unfold System.call
  cases hp : s.phase r with
  | idle => exact h
  | maxID =>
    apply h.goto
    cases o with
    | ok => exact ⟨Store.maxID_nonneg, fun _ => h.le_maxID⟩
    | failed done => exact ⟨le_rfl, fun hfalse => nomatch hfalse⟩
  | ensureCursor start read =>
    rw [hp] at hphase
    have hstart : s.store.cursor = none → o.done = true → m ≤ start := by
      intro hnone hdone
      rcases hread hnone hdone read (by rw [hp]; rfl) with hr | hzero
      · exact hphase.2 hr
      · obtain rfl : m = 0 := Option.some.inj (hfirst.symm.trans hzero)
        exact hphase.1
    cases o with
    | ok =>
      have hnext := h.ensureCursor fun hnone => hstart hnone rfl
      exact hnext.goto (hnext.cursor _ rfl)
    | failed done =>
      cases done with
      | false => exact h.goto hphase
      | true => exact (h.ensureCursor fun hnone => hstart hnone rfl).goto hphase
  | after cursor =>
    rw [hp] at hphase
    apply h.goto
    split
    · exact above_withPage hphase rfl
    · exact hphase
  | send cursor last rest =>
    rw [hp] at hphase
    obtain ⟨hcursor, hlast, hrest⟩ := hphase
    have hnext : FromLatest { s with
        sends := s.sends ++ [⟨rest.take cfg.batchLimits.1.toNat, o.isOk⟩] } m := by
      refine ⟨h.le_maxID, h.cursor, h.phase, fun d hd e he => ?_⟩
      rcases List.mem_append.mp hd with hd | hd
      · exact h.sends d hd e he
      · rw [List.mem_singleton.mp hd] at he
        exact hrest e (List.mem_of_mem_take he)
    apply hnext.goto
    split
    · exact above_nextChunk hcursor hlast fun e he => hrest e (List.mem_of_mem_drop he)
    · exact hcursor
  | fail cursor upTo =>
    rw [hp] at hphase
    apply h.fail.goto
    by_cases hlt : cursor < upTo
    · rw [if_pos hlt]
      exact ⟨hphase, hphase.trans hlt.le⟩
    · rw [if_neg hlt]
      exact hphase
  | advanceTo cursor upTo =>
    rw [hp] at hphase
    apply (h.advance hphase.2).goto
    cases o with
    | ok => exact hphase.2
    | failed done => exact hphase.1
  | advance cursor last =>
    rw [hp] at hphase
    apply (h.advance hphase.2).goto
    cases o with
    | ok => exact hphase.2
    | failed done => exact hphase.1

end Above

section Run
variable {cfg : SinkConfig} {s s' : System}

/-- A step that leaves the sink's own state alone. -/
theorem NoReplay.frame (h : NoReplay s) (hmax : s.store.maxID ≤ s'.store.maxID)
    (hcursor : s'.store.cursor = s.store.cursor) (hphase : s'.phase = s.phase)
    (hsends : s'.sends = s.sends) (hfirst : s'.firstMax = s.firstMax) : NoReplay s' := by
  constructor
  · rw [hfirst, hcursor, hphase, hsends]
    exact h.unentered
  · intro m hm
    obtain ⟨hle, hold, habove, hsent⟩ := h.entered m (hfirst ▸ hm)
    refine ⟨hle.trans hmax, ?_, ?_, ?_⟩
    · rwa [hcursor]
    · rwa [hphase]
    · rwa [hsends]

theorem firstMax_call (r : ℕ) (o : Outcome) : (s.call cfg r o).firstMax = s.firstMax := by
  unfold System.call
  cases s.phase r <;> rfl

theorem NoReplay.call {r : ℕ} {o : Outcome} (h : NoReplay s) (hread : StartsRead s (.call r o)) :
    NoReplay (s.call cfg r o) := by
  cases hfirst : s.firstMax with
  | none =>
    have hidle := (h.unentered hfirst).2.1 r
    have hsame : s.call cfg r o = s := by simp only [System.call, hidle]
    rwa [hsame]
  | some m =>
    refine ⟨fun hnone => ?_, fun m' hm' => ?_⟩
    · rw [firstMax_call, hfirst] at hnone
      cases hnone
    · rw [firstMax_call] at hm'
      obtain rfl : m = m' := Option.some.inj (hfirst.symm.trans hm')
      exact (h.entered m hfirst).call hfirst hread

theorem NoReplay.enter (h : NoReplay s) (hlatest : cfg.startAtBeginning = false) (r : ℕ) :
    NoReplay (s.enter cfg r) := by
  unfold System.enter
  rw [hlatest]
  split
  · refine ⟨fun hnone => (nomatch hnone), fun m hm => ?_⟩
    obtain rfl : s.firstMax.getD s.store.maxID = m := Option.some.inj hm
    have habove : Phase.maxID.Above (s.firstMax.getD s.store.maxID) := trivial
    apply FromLatest.goto _ habove
    cases hfirst : s.firstMax with
    | none =>
      obtain ⟨hcursor, hidle, hsends⟩ := h.unentered hfirst
      refine ⟨le_rfl, ?_, fun q => ?_, ?_⟩
      · simp [hcursor]
      · simp [hidle q, Phase.Above]
      · simp [hsends]
    | some m =>
      obtain ⟨hle, hcursor, hphase, hsends⟩ := h.entered m hfirst
      exact ⟨hle, hcursor, hphase, hsends⟩
  · exact h

theorem sinkStep_noReplay (hlatest : cfg.startAtBeginning = false) (s : System) (a : SinkStep)
    (h : NoReplay s) (hread : StartsRead s a) : NoReplay (sinkStep cfg s a) := by
  cases a with
  | tick d => exact h.frame le_rfl rfl rfl rfl rfl
  | insertRow time action result =>
    refine h.frame (Store.maxID_mono fun e he => ?_) rfl rfl rfl rfl
    exact Store.mem_log_insertRow.mpr (Or.inr he)
  | commit id =>
    refine h.frame (Store.maxID_mono fun e he => ?_) rfl rfl rfl rfl
    exact Store.mem_log_commit.mpr ⟨_, he, rfl, rfl⟩
  | enter r => exact h.enter hlatest r
  | leave r =>
    refine ⟨fun hnone => ?_, fun m hm => (h.entered m hm).goto trivial⟩
    obtain ⟨hcursor, hidle, hsends⟩ := h.unentered hnone
    refine ⟨hcursor, fun q => ?_, hsends⟩
    show Function.update s.phase r .idle q = .idle
    by_cases hq : q = r
    · rw [hq, Function.update_self]
    · rw [Function.update_of_ne hq]
      exact hidle q
  | call r o => exact h.call hread

theorem noReplay_start : NoReplay System.start :=
  ⟨fun _ => ⟨rfl, fun _ => rfl, rfl⟩, fun _ hm => nomatch hm⟩

/-- A sink that starts at the latest row sends nothing that was there when `runSink` was first
entered, in every run whose cursor row is created at a position that was read. -/
theorem latest_never_replays (cfg : SinkConfig) (hlatest : cfg.startAtBeginning = false)
    (steps : List SinkStep) (h : Along (sinkStep cfg) StartsRead System.start steps) :
    ∀ m ∈ (exec (sinkStep cfg) System.start steps).firstMax,
      ∀ d ∈ (exec (sinkStep cfg) System.start steps).sends, ∀ e ∈ d.events, m < e.id := by
  have hreplay := exec_invariant (sinkStep_noReplay hlatest) noReplay_start h
  exact fun m hm => (hreplay.entered m hm).sends

end Run

instance (s : System) : (a : SinkStep) → Decidable (StartsRead s a)
  | .call r o => inferInstanceAs (Decidable (s.store.cursor = none → o.done = true →
      ∀ read ∈ (s.phase r).startRead, read = true ∨ s.firstMax = some 0))
  | .tick _ => isTrue trivial
  | .insertRow _ _ _ => isTrue trivial
  | .commit _ => isTrue trivial
  | .enter _ => isTrue trivial
  | .leave _ => isTrue trivial

/-- A chat sink of deletions. -/
def alerts : SinkConfig := ⟨"alerts", .webhook, none, 0, 0, ⟨["k8s.*.delete"], []⟩⟩

/-- One old row, then the sink's first start, whose `MaxID` ends as given. -/
def firstStart (maxID : Outcome) : List SinkStep :=
  [.insertRow 0 "k8s.pod.delete" "success", .commit 1, .tick 6000000, .enter 0, .call 0 maxID,
    .call 0 .ok]

/-- `MaxID` fails, the cursor row is created at 0 and the old row goes out. -/
theorem firstStart_replays_history :
    alerts.startAtBeginning = false ∧
      (exec (sinkStep alerts) System.start (firstStart (.failed false))).firstMax = some 1 ∧
      (exec (sinkStep alerts) System.start
        (firstStart (.failed false) ++ [SinkStep.call 0 .ok, .call 0 .ok])).sends =
          [⟨[⟨1, 0, "k8s.pod.delete", "success"⟩], true⟩] := by
  decide

/-- `MaxID` returns; a row that comes afterwards is sent, the old one is not. -/
def laterRow : List SinkStep :=
  firstStart .ok ++ [SinkStep.insertRow 6000000 "k8s.pod.delete" "success", .commit 2, .tick 6000000,
    .call 0 .ok, .call 0 (.failed false)]

theorem latest_never_replays_laterRow :
    (exec (sinkStep alerts) System.start laterRow).firstMax = some 1 ∧
      1 < Event.id ⟨2, 6000000, "k8s.pod.delete", "success"⟩ :=
  ⟨by decide, latest_never_replays alerts (by decide) laterRow (by decide) 1
    (by decide) ⟨[⟨2, 6000000, "k8s.pod.delete", "success"⟩], false⟩ (by decide) _
    (by simp)⟩

end Kubeast.AuditSink
