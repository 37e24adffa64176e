import Kubeast.ChatStream.Manager
import Kubeast.Foundation.Transition

/-! Questions asked one after the other of one manager: the functions of earlier turns go on where
they were, and the last turn is its own as long as they have all come to their end. -/
namespace ChatStream
open Transition

def Stage.isOver : Stage → Bool
  | .finished => true
  | _ => false

structure Turn where
  stage : Stage
  aborted : Bool

/-- The manager, and the functions of the turns asked so far. -/
structure System where
  manager : Manager
  turns : List Turn

def System.initial : System := ⟨.initial, []⟩

inductive Act
  | start (sessionId userMessage : Text) (savedMessages : ℕ)
  | stop
  | tick
  | resume (turn : ℕ) (answer : Answer)

namespace System
variable (page : Page)

def startSessionChat (s : System) (sessionId userMessage : Text) (savedMessages : ℕ) : System :=
  if s.manager.state.isStreaming then s
  else
    { manager := s.manager.begin s.turns.length sessionId userMessage savedMessages
      turns := s.turns ++ [⟨.fetching, false⟩] }

def stop (s : System) : System :=
  let m := { s.manager with abortController := none }
  { manager :=
      if m.state.status = .streaming then
        m.setStateNow fun st => { st with status := .aborted, isStreaming := false }
      else m
    turns :=
      match s.manager.abortController with
      | some turn => s.turns.modify turn fun t => { t with aborted := true }
      | none => s.turns }

def tick (s : System) : System :=
  if s.manager.typewriter then { s with manager := s.manager.drainQueue } else s

/-- An abort error comes only to a turn whose controller was told to abort. -/
def mayCome (t : Turn) : Answer → Bool
  | .thrown .abortError => t.aborted
  | _ => true

def resume (s : System) (turn : ℕ) (answer : Answer) : System :=
  match s.turns[turn]? with
  | none => s
  | some t =>
    if mayCome t answer then
      let (manager, stage) := s.manager.resume page t.stage answer
      { manager, turns := s.turns.set turn { t with stage } }
    else s

def step (s : System) : Act → System
  | .start sessionId userMessage savedMessages =>
    s.startSessionChat sessionId userMessage savedMessages
  | .stop => s.stop
  | .tick => s.tick
  | .resume turn answer => s.resume page turn answer

/-- A question is asked only when the functions of all turns before it have ended. -/
def Patient (s : System) : Act → Prop
  | .start .. => s.manager.state.isStreaming = false → ∀ t ∈ s.turns, t.stage.isOver
  | _ => True

/-- The last turn is its own: no other turn's function changes anything, no question does while it
is answered, it can be stopped, and it does not stay without an end. -/
structure Own (s : System) : Prop where
  others : ∀ (turn : ℕ) (answer : Answer), turn + 1 ≠ s.turns.length →
    (s.step page (.resume turn answer)).manager = s.manager
  questions : s.manager.state.status = .streaming →
    ∀ (sessionId userMessage : Text) (savedMessages : ℕ),
      s.step page (.start sessionId userMessage savedMessages) = s
  stops : s.manager.state.status = .streaming →
    (s.step page .stop).manager.state.status = .aborted ∧
      (s.step page .stop).manager.state.isStreaming = false ∧
      ∀ t ∈ (s.step page .stop).turns.getLast?, t.stage.isOver ∨ t.aborted
  ends : ∀ t ∈ s.turns.getLast?, t.stage.isOver → s.manager.typewriter = false →
    s.manager.state.isStreaming = false ∧ s.manager.state.status ∈ [.completed, .error, .aborted]

end System

namespace Manager
variable {page : Page} {m m' : Manager}

/-- What the manager's fields have to do with each other. -/
structure Sound (m : Manager) : Prop where
  queued : m.charQueue ≠ [] → m.typewriter = true
  streaming : m.state.isStreaming = true ↔ m.state.status = .streaming
  pending : ∀ status ∈ m.pendingDonePatch, status = .completed

/-- Where a turn's function has ended but its answer is still shown letter by letter. -/
def Finishing (m : Manager) : Prop :=
  m.streamDone = true ∧ m.pendingDonePatch = some .completed ∧ m.typewriter = true

/-- What an event that does not end a turn leaves alone. -/
structure Keeps (m m' : Manager) : Prop where
  controller : m'.abortController = m.abortController
  status : m'.state.status = m.state.status
  isStreaming : m'.state.isStreaming = m.state.isStreaming
  streamDone : m'.streamDone = m.streamDone
  pending : m'.pendingDonePatch = m.pendingDonePatch
  queued : (m.charQueue ≠ [] → m.typewriter = true) → m'.charQueue ≠ [] → m'.typewriter = true

theorem Keeps.refl (m : Manager) : Keeps m m := ⟨rfl, rfl, rfl, rfl, rfl, id⟩

theorem Keeps.trans {m'' : Manager} (h : Keeps m m') (h' : Keeps m' m'') : Keeps m m'' where
  controller := h'.controller.trans h.controller
  status := h'.status.trans h.status
  isStreaming := h'.isStreaming.trans h.isStreaming
  streamDone := h'.streamDone.trans h.streamDone
  pending := h'.pending.trans h.pending
  queued hm := h'.queued (h.queued hm)

theorem Sound.keeps (hs : m.Sound) (h : Keeps m m') : m'.Sound where
  queued := h.queued hs.queued
  streaming := by
    rw [h.isStreaming, h.status]
    exact hs.streaming
  pending := by
    rw [h.pending]
    exact hs.pending

theorem flushQueue_eq (m : Manager) : m.flushQueue =
    { m with
      state := { m.state with content := m.state.content ++ m.charQueue }
      charQueue := []
      typewriter := m.typewriter && m.charQueue.isEmpty } := by
  unfold flushQueue
  split
  · next hempty =>
    obtain ⟨state, controller, queue, typewriter, streamDone, pending, blocks⟩ := m
    subst hempty
    simp
  · next hne => simp [stopTypewriter, hne]

theorem keeps_flushQueue (m : Manager) : Keeps m m.flushQueue := by
  rw [flushQueue_eq]
  exact ⟨rfl, rfl, rfl, rfl, rfl, fun _ h => absurd rfl h⟩

theorem keeps_onEvent {e : Event} (h : (m.onEvent page e).2 = false) :
    Keeps m (m.onEvent page e).1 := by
  cases e with
  | content text => exact ⟨rfl, rfl, rfl, rfl, rfl, fun _ _ => rfl⟩
  | approvalRequired => exact ⟨rfl, rfl, rfl, rfl, rfl, id⟩
  | function call =>
    refine (keeps_flushQueue m).trans ?_
    exact ⟨rfl, rfl, rfl, rfl, rfl, id⟩
  | functionResult r => exact ⟨rfl, rfl, rfl, rfl, rfl, id⟩
  | error => cases h

/-- What the end of a turn's function leaves: an answer that is still streaming is shown to its end
by the typewriter. -/
structure Closed (m m' : Manager) : Prop where
  sound : m'.Sound
  finishing : m'.state.status = .streaming → m'.Finishing
  asked : m'.state.status = .idle → m.state.status = .idle

theorem Closed.before (h : Keeps m m') {m'' : Manager} (hc : Closed m' m'') : Closed m m'' where
  sound := hc.sound
  finishing := hc.finishing
  asked hidle := h.status ▸ hc.asked hidle

theorem setStateNow_eq (m : Manager) (patch : ChatStreamState → ChatStreamState) :
    m.setStateNow patch =
      { m with
        state := { patch m.state with content := (patch m.state).content ++ m.charQueue }
        charQueue := []
        typewriter := m.typewriter && m.charQueue.isEmpty
        streamDone := false
        pendingDonePatch := none } := by
  rw [setStateNow, flushQueue_eq]
  rfl

theorem closed_setStateNow {patch : ChatStreamState → ChatStreamState}
    (hstatus : (patch m.state).status ∈ [.error, .aborted])
    (hstreaming : (patch m.state).isStreaming = false) : Closed m (m.setStateNow patch) := by
  have hne : (patch m.state).status ≠ .streaming ∧ (patch m.state).status ≠ .idle := by
    simp only [List.mem_cons, List.not_mem_nil, or_false] at hstatus
    rcases hstatus with h | h <;> simp [h]
  rw [setStateNow_eq]
  refine ⟨⟨fun h => absurd rfl h, ?_, nofun⟩, fun h => absurd h hne.1, fun h => absurd h hne.2⟩
  simp [hstreaming, hne.1]

/-- A change that leaves the course of a turn alone. -/
def Reports (patch : ChatStreamState → ChatStreamState) : Prop :=
  ∀ s, (patch s).status = s.status ∧ (patch s).isStreaming = s.isStreaming

theorem reports_refusal (status : ℕ) (body : Text) : Reports (refusal status body) := by
  intro s
  unfold refusal
  dsimp only
  split <;> exact ⟨rfl, rfl⟩

theorem closed_fail (hs : m.Sound) {patch : ChatStreamState → ChatStreamState}
    (hpatch : Reports patch) : Closed m (m.fail patch) := by
  unfold fail
  split
  · next hne => exact ⟨hs, fun h => absurd h hne, id⟩
  · obtain ⟨hstatus, hstreaming⟩ := hpatch (withStatus .error m.state)
    apply closed_setStateNow
    · rw [hstatus]
      exact List.mem_cons_self
    · rw [hstreaming]
      rfl

theorem sound_drainQueue (hs : m.Sound) : m.drainQueue.Sound := by
  unfold drainQueue
  split
  · next hempty =>
    split
    · next status hdone hpending =>
      have hstatus := hs.pending status hpending
      refine ⟨fun h => absurd hempty h, ?_, nofun⟩
      simp [withStatus, hstatus]
    · exact ⟨fun h => absurd hempty h, hs.streaming, hs.pending⟩
  · next hne => exact ⟨fun _ => hs.queued hne, hs.streaming, hs.pending⟩

theorem status_drainQueue (hs : m.Sound) : m.drainQueue.state.status = m.state.status ∨
    m.drainQueue.state.status = .completed := by
  unfold drainQueue
  split
  · split
    · next status hdone hpending => exact Or.inr (hs.pending status hpending)
    · exact Or.inl rfl
  · exact Or.inl rfl

theorem controller_drainQueue (m : Manager) : m.drainQueue.abortController = m.abortController := by
  unfold drainQueue
  split
  · split <;> rfl
  · rfl

theorem finishing_drainQueue (h : m.Finishing)
    (hstreaming : m.drainQueue.state.status = .streaming) : m.drainQueue.Finishing := by
  obtain ⟨hdone, hpending, htimer⟩ := h
  unfold drainQueue at hstreaming ⊢
  split
  · next hempty =>
    rw [if_pos hempty, hdone, hpending] at hstreaming
    cases hstreaming
  · exact ⟨hdone, hpending, htimer⟩

theorem closed_finishWhenDrained (hs : m.Sound) : Closed m (m.finishWhenDrained .completed) := by
  let m' : Manager := { m with streamDone := true, pendingDonePatch := some .completed }
  have hsound : m'.Sound := ⟨hs.queued, hs.streaming, fun _ h => (Option.mem_some.mp h).symm⟩
  unfold finishWhenDrained
  dsimp only
  split
  · next hempty =>
    have hcompleted : m'.drainQueue.state.status = .completed := by
      rw [drainQueue, if_pos hempty]
      rfl
    refine ⟨sound_drainQueue hsound, fun h => ?_, fun h => ?_⟩
    · cases hcompleted.symm.trans h
    · cases hcompleted.symm.trans h
  · next hne => exact ⟨hsound, fun _ => ⟨rfl, rfl, hs.queued hne⟩, id⟩

theorem closed_onThrown (hs : m.Sound) (e : Thrown) : Closed m (m.onThrown e) := by
  cases e with
  | abortError => exact closed_setStateNow (by simp [withStatus]) rfl
  | error text =>
    rw [onThrown]
    apply closed_fail hs
    exact fun _ => ⟨rfl, rfl⟩

theorem closed_onClose (hs : m.Sound) (buffer : Text) : Closed m (m.onClose buffer) := by
  unfold onClose
  split
  · exact closed_finishWhenDrained hs
  · split
    · exact closed_fail hs fun _ => ⟨rfl, rfl⟩
    · exact closed_fail hs fun _ => ⟨rfl, rfl⟩

theorem onLine_cases (page : Page) (hs : m.Sound) (line : Text) :
    ((m.onLine page line).2 = false ∧ Keeps m (m.onLine page line).1) ∨
      ((m.onLine page line).2 = true ∧ Closed m (m.onLine page line).1) := by
  unfold onLine
  split
  · exact Or.inl ⟨rfl, Keeps.refl m⟩
  · exact Or.inr ⟨rfl, closed_finishWhenDrained hs⟩
  · next e _ =>
    cases e with
    | error error errorKey errorArgs =>
      refine Or.inr ⟨rfl, ?_⟩
      dsimp only [onEvent]
      apply closed_fail hs
      exact fun _ => ⟨rfl, rfl⟩
    | content | approvalRequired | function | functionResult =>
      exact Or.inl ⟨rfl, keeps_onEvent rfl⟩

theorem onLines_cases (page : Page) (hs : m.Sound) (lines : List Text) :
    ((m.onLines page lines).2 = false ∧ Keeps m (m.onLines page lines).1) ∨
      ((m.onLines page lines).2 = true ∧ Closed m (m.onLines page lines).1) := by
  induction lines generalizing m with
  | nil => exact Or.inl ⟨rfl, Keeps.refl m⟩
  | cons line lines ih =>
    rw [onLines]
    rcases onLine_cases page hs line with ⟨hgoes, hkeeps⟩ | ⟨hends, hclosed⟩
    · rw [show m.onLine page line = ((m.onLine page line).1, false) from Prod.ext rfl hgoes]
      rcases ih (hs.keeps hkeeps) with ⟨hmore, h⟩ | ⟨hmore, h⟩
      · exact Or.inl ⟨hmore, hkeeps.trans h⟩
      · exact Or.inr ⟨hmore, h.before hkeeps⟩
    · rw [show m.onLine page line = ((m.onLine page line).1, true) from Prod.ext rfl hends]
      exact Or.inr ⟨rfl, hclosed⟩

theorem resume_over (m : Manager) (answer : Answer) : m.resume page .finished answer = (m, .finished) := by
  cases answer <;> rfl

theorem resume_thrown {stage : Stage} (hstage : stage.isOver = false) (e : Thrown) :
    m.resume page stage (.thrown e) = (m.onThrown e).finish := by
  cases stage with
  | finished => cases hstage
  | fetching | refused | reading => rfl

theorem Closed.finish {m' : Manager} (h : Closed m m') :
    m'.finish.2.isOver = true ∧ Closed m m'.finish.1 :=
  ⟨rfl, ⟨h.sound.queued, h.sound.streaming, h.sound.pending⟩, h.finishing, h.asked⟩

/-- A turn's function goes on, or comes to its end. -/
theorem resume_cases (page : Page) (hs : m.Sound) {stage : Stage} (hstage : stage.isOver = false)
    (answer : Answer) :
    ((m.resume page stage answer).2.isOver = false ∧ Keeps m (m.resume page stage answer).1) ∨
      ((m.resume page stage answer).2.isOver = true ∧ Closed m (m.resume page stage answer).1) := by
  unfold resume
  split
  · cases hstage
  · next e _ => exact Or.inr (closed_onThrown hs e).finish
  · split
    · exact Or.inr (closed_onThrown hs _).finish
    · split
      · exact Or.inl ⟨rfl, Keeps.refl m⟩
      · split
        · exact Or.inr (closed_onThrown hs _).finish
        · exact Or.inl ⟨rfl, Keeps.refl m⟩
  · next status body => exact Or.inr (closed_fail hs (reports_refusal status body)).finish
  · next r bytes =>
    rcases onLines_cases page hs (r.read bytes).2 with ⟨hgoes, h⟩ | ⟨hends, h⟩
    · dsimp only
      rw [show m.onLines page (r.read bytes).2 = (_, false) from Prod.ext rfl hgoes]
      exact Or.inl ⟨rfl, h⟩
    · dsimp only
      rw [show m.onLines page (r.read bytes).2 = (_, true) from Prod.ext rfl hends]
      exact Or.inr h.finish
  · next r => exact Or.inr (closed_onClose hs r.buffer).finish
  · exact Or.inl ⟨hstage, Keeps.refl m⟩

end Manager

namespace System
variable {page : Page} {s : System} {a : Act}

/-- What holds of every state that patient steps reach. -/
structure Sound (s : System) : Prop where
  manager : s.manager.Sound
  earlier : ∀ (turn : ℕ), ∀ t ∈ s.turns[turn]?, turn + 1 ≠ s.turns.length → t.stage.isOver
  asked : s.manager.state.status = .idle → s.turns = []
  controller : ∀ t ∈ s.turns.getLast?, t.stage.isOver = false →
    s.manager.state.status = .streaming → s.manager.abortController = some (s.turns.length - 1)
  finishing : ∀ t ∈ s.turns.getLast?, t.stage.isOver → s.manager.state.status = .streaming →
    s.manager.Finishing

theorem sound_initial : Sound .initial where
  manager := ⟨fun h => absurd rfl h, by simp [initial, Manager.initial, initialState], nofun⟩
  earlier := by simp [initial]
  asked _ := rfl
  controller := by simp [initial]
  finishing := by simp [initial]

theorem resume_eq {turn : ℕ} {t : Turn} {answer : Answer} (ht : s.turns[turn]? = some t)
    (hmay : mayCome t answer = true) : s.resume page turn answer =
      { manager := (s.manager.resume page t.stage answer).1
        turns := s.turns.set turn { t with stage := (s.manager.resume page t.stage answer).2 } } := by
  rw [System.resume, ht]
  exact if_pos hmay

/-- The function of an earlier turn has nothing left to do. -/
theorem Sound.resume_earlier (h : s.Sound) {turn : ℕ} (hturn : turn + 1 ≠ s.turns.length)
    (answer : Answer) : s.resume page turn answer = s := by
  unfold resume
  split
  · rfl
  · next t ht =>
    have hover : t.stage = .finished := by
      have hstage := h.earlier turn t ht hturn
      revert hstage
      cases t.stage <;> simp [Stage.isOver]
    split
    · obtain ⟨stage, aborted⟩ := t
      obtain rfl : stage = .finished := hover
      obtain ⟨hlt, hget⟩ := List.getElem?_eq_some_iff.mp ht
      rw [Manager.resume_over]
      dsimp only
      rw [← hget, List.set_getElem_self]
    · rfl

theorem length_pos_of_getLast? {t : Turn} {turns : List Turn} (ht : turns.getLast? = some t) :
    0 < turns.length := by
  rw [List.length_pos_iff]
  rintro rfl
  cases ht

theorem getLast?_set {t t' : Turn} {turns : List Turn} (ht : turns.getLast? = some t) :
    (turns.set (turns.length - 1) t').getLast? = some t' := by
  have hpos := length_pos_of_getLast? ht
  rw [List.getLast?_eq_getElem?, List.length_set, List.getElem?_set_self (by omega)]

/-- A step of the last turn's function. -/
theorem Sound.replace (h : s.Sound) {t t' : Turn} {m : Manager} (ht : s.turns.getLast? = some t)
    (hm : m.Sound) (hasked : m.state.status = .idle → s.manager.state.status = .idle)
    (hcontroller : t'.stage.isOver = false → m.state.status = .streaming →
      m.abortController = some (s.turns.length - 1))
    (hfinishing : t'.stage.isOver → m.state.status = .streaming → m.Finishing) :
    Sound ⟨m, s.turns.set (s.turns.length - 1) t'⟩ where
  manager := hm
  earlier := by
    intro turn u hu hturn
    have hpos := length_pos_of_getLast? ht
    rw [List.length_set] at hturn
    have hne : s.turns.length - 1 ≠ turn := by omega
    rw [List.getElem?_set_ne hne] at hu
    exact h.earlier turn u hu hturn
  asked := by
    intro hidle
    rw [h.asked (hasked hidle)]
    rfl
  controller := by
    intro u hu hgoes hstreaming
    rw [getLast?_set ht] at hu
    obtain rfl := Option.mem_some.mp hu
    rw [List.length_set]
    exact hcontroller hgoes hstreaming
  finishing := by
    intro u hu
    rw [getLast?_set ht] at hu
    obtain rfl := Option.mem_some.mp hu
    exact hfinishing

theorem Sound.resume (h : s.Sound) (turn : ℕ) (answer : Answer) : (s.resume page turn answer).Sound := by
  by_cases hturn : turn + 1 = s.turns.length
  · unfold System.resume
    split
    · exact h
    · next t ht =>
      obtain rfl : turn = s.turns.length - 1 := by omega
      rw [← List.getLast?_eq_getElem?] at ht
      split
      · cases hstage : t.stage.isOver with
        | true =>
          have hover : t.stage = .finished := by
            revert hstage
            cases t.stage <;> simp [Stage.isOver]
          rw [hover, Manager.resume_over]
          have hfinishing := h.finishing t ht hstage
          exact h.replace ht h.manager id nofun fun _ => hfinishing
        | false =>
          rcases Manager.resume_cases page h.manager hstage answer with ⟨hgoes, hm⟩ | ⟨hover, hm⟩
          · apply h.replace ht (h.manager.keeps hm)
            · exact fun hidle => hm.status ▸ hidle
            · intro _ hstreaming
              rw [hm.controller]
              exact h.controller t ht hstage (hm.status ▸ hstreaming)
            · exact fun hover => nomatch hgoes.symm.trans hover
          · apply h.replace ht hm.sound hm.asked
            · exact fun hgoes => nomatch hgoes.symm.trans hover
            · exact fun _ => hm.finishing
      · exact h
  · rw [h.resume_earlier hturn]
    exact h

theorem Sound.tick (h : s.Sound) : s.tick.Sound := by
  unfold System.tick
  split
  · refine ⟨Manager.sound_drainQueue h.manager, h.earlier, ?_, ?_, ?_⟩
    · intro hidle
      rcases Manager.status_drainQueue h.manager with hstatus | hstatus
      · exact h.asked (hstatus ▸ hidle)
      · cases hstatus.symm.trans hidle
    · intro t ht hgoes hstreaming
      rw [Manager.controller_drainQueue]
      rcases Manager.status_drainQueue h.manager with hstatus | hstatus
      · exact h.controller t ht hgoes (hstatus ▸ hstreaming)
      · cases hstatus.symm.trans hstreaming
    · intro t ht hover hstreaming
      rcases Manager.status_drainQueue h.manager with hstatus | hstatus
      · exact Manager.finishing_drainQueue (h.finishing t ht hover (hstatus ▸ hstreaming)) hstreaming
      · cases hstatus.symm.trans hstreaming
  · exact h

theorem Sound.startSessionChat (h : s.Sound) (sessionId userMessage : Text) (savedMessages : ℕ)
    (hpatient : s.manager.state.isStreaming = false → ∀ t ∈ s.turns, t.stage.isOver) :
    (s.startSessionChat sessionId userMessage savedMessages).Sound := by
  unfold System.startSessionChat
  split
  · exact h
  · next hfree =>
    have hover := hpatient (Bool.not_eq_true _ ▸ hfree)
    refine ⟨⟨fun h => absurd rfl h, ⟨fun _ => rfl, fun _ => rfl⟩, nofun⟩, ?_, nofun, ?_, ?_⟩
    · intro turn t ht hturn
      rw [List.length_append, List.length_singleton] at hturn
      rw [List.getElem?_append] at ht
      split at ht
      · exact hover t (List.mem_of_getElem? ht)
      · next hge =>
        have hout : [(⟨.fetching, false⟩ : Turn)][turn - s.turns.length]? = none :=
          List.getElem?_eq_none (by rw [List.length_singleton]; omega)
        rw [hout] at ht
        cases ht
    · intro t _ _ _
      rw [List.length_append, List.length_singleton]
      rfl
    · intro t ht hstage
      rw [List.getLast?_concat] at ht
      obtain rfl := Option.mem_some.mp ht
      cases hstage

theorem length_stop (s : System) : s.stop.turns.length = s.turns.length := by
  unfold stop
  dsimp only
  split
  · exact List.length_modify ..
  · rfl

theorem stage_stop {turn : ℕ} {t : Turn} (ht : s.stop.turns[turn]? = some t) :
    ∃ u, s.turns[turn]? = some u ∧ t.stage = u.stage ∧
      (s.manager.abortController = some turn → t.aborted = true) := by
  unfold stop at ht
  dsimp only at ht
  split at ht
  · next k hk =>
    rw [List.getElem?_modify] at ht
    obtain ⟨u, hu, rfl⟩ := Option.map_eq_some_iff.mp ht
    refine ⟨u, hu, ?_, ?_⟩
    · split <;> rfl
    · intro hturn
      obtain rfl := Option.some.inj (hk.symm.trans hturn)
      rw [if_pos rfl]
  · next hnone =>
    refine ⟨t, ht, rfl, fun hturn => ?_⟩
    rw [hnone] at hturn
    cases hturn

theorem manager_stop (h : s.manager.Sound) : s.stop.manager.Sound ∧
    s.stop.manager.state.status ≠ .streaming ∧
    (s.stop.manager.state.status = .idle → s.manager.state.status = .idle) ∧
    (s.manager.state.status = .streaming → s.stop.manager.state.status = .aborted) := by
  unfold stop
  dsimp only
  split
  · next hstreaming =>
    rw [Manager.setStateNow_eq]
    refine ⟨⟨fun h => absurd rfl h, ?_, nofun⟩, nofun, nofun, fun _ => rfl⟩
    simp
  · next hother =>
    exact ⟨⟨h.queued, h.streaming, h.pending⟩, hother, id, fun hstreaming => absurd hstreaming hother⟩

theorem Sound.stop (h : s.Sound) : s.stop.Sound := by
  obtain ⟨hm, hstatus, hidle, -⟩ := manager_stop h.manager
  refine ⟨hm, ?_, ?_, fun _ _ _ hstreaming => absurd hstreaming hstatus,
    fun _ _ _ hstreaming => absurd hstreaming hstatus⟩
  · intro turn t ht hturn
    obtain ⟨u, hu, hstage, -⟩ := stage_stop ht
    rw [length_stop] at hturn
    rw [hstage]
    exact h.earlier turn u hu hturn
  · intro hnow
    have hnone := h.asked (hidle hnow)
    rw [← List.length_eq_zero_iff, length_stop, hnone, List.length_nil]

/-- Whoever is stopped while he streams is told so, or his function has ended. -/
theorem Sound.told (h : s.Sound) (hstreaming : s.manager.state.status = .streaming) {t : Turn}
    (ht : s.stop.turns.getLast? = some t) : t.stage.isOver ∨ t.aborted := by
  rw [List.getLast?_eq_getElem?, length_stop] at ht
  obtain ⟨u, hu, hstage, htold⟩ := stage_stop ht
  rw [← List.getLast?_eq_getElem?] at hu
  cases hover : u.stage.isOver with
  | true => exact Or.inl (hstage ▸ hover)
  | false => exact Or.inr (htold (h.controller u hu hover hstreaming))

theorem Sound.step (h : s.Sound) (ha : s.Patient a) : (s.step page a).Sound := by
  cases a with
  | start sessionId userMessage savedMessages => exact h.startSessionChat _ _ _ ha
  | stop => exact h.stop
  | tick => exact h.tick
  | resume turn answer => exact h.resume turn answer

theorem Sound.own (h : s.Sound) : s.Own page where
  others turn answer hturn := by rw [System.step, h.resume_earlier hturn]
  questions hstreaming sessionId userMessage savedMessages := by
    rw [System.step, System.startSessionChat, if_pos (h.manager.streaming.mpr hstreaming)]
  stops hstreaming := by
    obtain ⟨hm, hstatus, -, haborted⟩ := manager_stop h.manager
    have hstopped : s.stop.manager.state.isStreaming = false := by
      rw [← Bool.not_eq_true, hm.streaming]
      exact hstatus
    exact ⟨haborted hstreaming, hstopped, fun t ht => h.told hstreaming ht⟩
  ends t ht hover htimer := by
    have hturns : s.turns ≠ [] := by
      rintro hnone
      rw [hnone] at ht
      cases ht
    have hstatus : s.manager.state.status ≠ .streaming := by
      intro hstreaming
      obtain ⟨-, -, hrunning⟩ := h.finishing t ht hover hstreaming
      cases htimer.symm.trans hrunning
    have hidle : s.manager.state.status ≠ .idle := fun hidle => hturns (h.asked hidle)
    refine ⟨?_, ?_⟩
    · rw [← Bool.not_eq_true, h.manager.streaming]
      exact hstatus
    · revert hstatus hidle
      cases s.manager.state.status <;> simp

/-- A question asked while an earlier turn's function still runs is not left to itself: that
function's end takes the new turn's controller away. -/
theorem hasty_start_taken {turn : ℕ} {t : Turn} (ht : s.turns[turn]? = some t)
    (hstage : t.stage.isOver = false) (hfree : s.manager.state.isStreaming = false)
    (sessionId userMessage : Text) (savedMessages : ℕ) :
    ¬ (s.step page (.start sessionId userMessage savedMessages)).Own page := by
  intro hown
  have hlt := (List.getElem?_eq_some_iff.mp ht).1
  have hstart : s.step page (.start sessionId userMessage savedMessages) =
      ⟨s.manager.begin s.turns.length sessionId userMessage savedMessages,
        s.turns ++ [⟨.fetching, false⟩]⟩ := by
    rw [step, startSessionChat, hfree]
    rfl
  rw [hstart] at hown
  have hsame := hown.others turn (.thrown (.error [])) (by
    rw [List.length_append, List.length_singleton]
    omega)
  have hget : (s.turns ++ [⟨.fetching, false⟩])[turn]? = some t := by
    rw [List.getElem?_append_left hlt, ht]
  rw [step, resume_eq hget rfl, Manager.resume_thrown hstage] at hsame
  cases congrArg Manager.abortController hsame

end System

section Main

/-- As long as a question waits for the functions of the turns before it, every turn is its own:
nothing of an earlier turn changes the state, and it can be stopped and ends by its own course. -/
theorem turns_apart (page : Page) {as : List Act}
    (h : Along (System.step page) System.Patient .initial as) :
    (exec (System.step page) .initial as).Own page :=
  (exec_invariant (fun _ _ hs ha => System.Sound.step hs ha) System.sound_initial h).own

/-- A page on which `String` of what is no string is empty, for runs on fixed inputs. -/
def Page.plain : Page where
  isZero n := n.text = ['0']
  same n n' := n.text = n'.text
  string _ := []
  stringify _ := []
  accessSection _ _ := some []

/-- A question that is answered, stopped and asked again once its function has ended. -/
def stoppedThenAsked : List Act :=
  [.start "s".toList "a".toList 0, .resume 0 (.response 200 true), .stop,
    .resume 0 (.thrown .abortError), .start "s".toList "b".toList 0]

theorem turns_apart_stopped : (exec (System.step .plain) .initial stoppedThenAsked).Own .plain := by
  apply turns_apart
  exact ⟨fun _ => by decide, trivial, trivial, trivial, fun _ => by decide, trivial⟩

/-- The abort error of a stopped turn, come after the next question was sent, marks the next turn
as stopped; its own request goes on, and no controller is left to stop it with. -/
theorem stopped_turn_stops_next :
    let s := exec (System.step .plain) .initial
      [.start "s".toList "a".toList 0, .stop, .start "s".toList "b".toList 0]
    let s' := s.step .plain (.resume 0 (.thrown .abortError))
    s.manager.state.status = .streaming ∧ s.manager.abortController = some 1 ∧
      s'.manager.state.status = .aborted ∧ s'.manager.abortController = none ∧
      (s'.turns[1]?.map fun t => (t.stage.isOver, t.aborted)) = some (false, false) := by
  decide

end Main

end ChatStream
