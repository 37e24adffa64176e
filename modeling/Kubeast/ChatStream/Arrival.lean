import Kubeast.ChatStream.Talk
import Kubeast.ChatStream.Turns

/-! How one answer arrives: its bytes in reads of any size, with the ticks of the typewriter in
between. What is on the screen in the end is a function of the bytes. -/
namespace ChatStream
open Json Streams Transition

inductive Ending
  | completed
  | failed (error : Text) (errorKey : Option Text) (errorArgs : Option ErrorArgs)

/-- What the lines of a turn have come to, with no queue and no offsets. -/
structure Heard where
  talk : Talk
  toolCalls : List ToolCall
  ending : Option Ending

def Heard.empty : Heard := ⟨⟨[], []⟩, [], none⟩

namespace Heard
variable (page : Page)

def event (h : Heard) : Event → Heard
  | .content text => { h with talk := h.talk.say text }
  | .approvalRequired approvalId functionName cluster expiresAt =>
    { h with toolCalls := withApproval approvalId functionName cluster expiresAt h.toolCalls }
  | .function call =>
    { h with talk := h.talk.call page call, toolCalls := h.toolCalls ++ [call.toolCall] }
  | .functionResult r =>
    { h with
      talk :=
        match resultTarget page h.toolCalls r.function r.callId with
        | some n => h.talk.answer n (r.codeBlock, r.accessText)
        | none => h.talk
      toolCalls := withResult page h.toolCalls r }
  | .error error errorKey errorArgs =>
    { h with ending := some (.failed error errorKey (errorArgs.map .given)) }

def line (h : Heard) (rawLine : Text) : Heard :=
  if h.ending.isSome then h
  else
    match lineOf page rawLine with
    | .nothing => h
    | .done => { h with ending := some .completed }
    | .event e => h.event page e

def lines (h : Heard) (lines : List Text) : Heard := lines.foldl (line page) h

def close (h : Heard) (buffer : Text) : Heard :=
  if h.ending.isSome then h
  else if trim buffer = "data: [DONE]".toList then { h with ending := some .completed }
  else if h.talk.text page ≠ [] then
    { h with ending := some (.failed Manager.streamCut (some "streamCut".toList) none) }
  else { h with ending := some (.failed Manager.streamEmpty (some "streamEmpty".toList) none) }

def broken (h : Heard) (error : Text) : Heard :=
  if h.ending.isSome then h else { h with ending := some (.failed error none none) }

end Heard

/-- How far a turn has come: a completed answer may still be shown letter by letter. -/
def Course (m : Manager) : Option Ending → Prop
  | none => m.state.status = .streaming ∧ m.streamDone = false ∧ m.pendingDonePatch = none ∧
      m.state.error = none ∧ m.state.errorKey = none ∧ m.state.errorArgs = none
  | some .completed =>
      (m.Finishing ∧ m.state.status = .streaming ∨
        m.streamDone = false ∧ m.charQueue = [] ∧ m.state.status = .completed) ∧
      m.state.error = none ∧ m.state.errorKey = none ∧ m.state.errorArgs = none
  | some (.failed error errorKey errorArgs) =>
      m.state.status = .error ∧ m.streamDone = false ∧ m.charQueue = [] ∧
      m.state.error = some error ∧ m.state.errorKey = errorKey ∧ m.state.errorArgs = errorArgs

/-- The manager has what was heard: the queue is the end of the text below the last block. -/
structure Follows (page : Page) (m : Manager) (h : Heard) : Prop where
  shown : ∃ shown, h.talk.last = shown ++ m.charQueue ∧
    m.state.content = partsText page h.talk.parts ++ shown
  blocks : m.toolBlocks = placedFrom page 0 h.talk.parts
  calls : m.state.toolCalls = h.toolCalls
  queued : m.charQueue ≠ [] → m.typewriter = true
  course : Course m h.ending

section Steps
variable {page : Page} {m : Manager} {h : Heard}

theorem follows_begin (m : Manager) (turn : ℕ) (sessionId userMessage : Text) (savedMessages : ℕ) :
    Follows page (m.begin turn sessionId userMessage savedMessages) .empty where
  shown := ⟨[], rfl, rfl⟩
  blocks := rfl
  calls := rfl
  queued h := absurd rfl h
  course := ⟨rfl, rfl, rfl, rfl, rfl, rfl⟩

/-- Shown and queued together are the text. -/
theorem Follows.text (hf : Follows page m h) : m.state.content ++ m.charQueue = h.talk.text page := by
  obtain ⟨shown, hlast, hcontent⟩ := hf.shown
  rw [hcontent, Talk.text, hlast, List.append_assoc]

theorem drainQueue_idle (hempty : m.charQueue = []) (hdone : m.streamDone = false) :
    m.drainQueue = m.stopTypewriter := by
  rw [Manager.drainQueue, if_pos hempty, hdone]

theorem drainQueue_finishing (hempty : m.charQueue = []) (h : m.Finishing) :
    m.drainQueue =
      { m.stopTypewriter with
        state := Manager.withStatus .completed m.state
        streamDone := false
        pendingDonePatch := none } := by
  rw [Manager.drainQueue, if_pos hempty, h.1, h.2.1]

theorem Follows.idle (hf : Follows page m h) (hempty : m.charQueue = []) (hdone : m.streamDone = false) :
    Follows page m.drainQueue h := by
  rw [drainQueue_idle hempty hdone]
  refine ⟨hf.shown, hf.blocks, hf.calls, fun hq => absurd hempty hq, ?_⟩
  have hcourse := hf.course
  match h.ending, hcourse with
  | none, hcourse => exact hcourse
  | some .completed, ⟨hends, herror⟩ =>
    rcases hends with ⟨⟨htrue, -⟩, -⟩ | hends
    · cases htrue.symm.trans hdone
    · exact ⟨Or.inr hends, herror⟩
  | some (.failed ..), hcourse => exact hcourse

/-- A tick shows more of the queue, or ends an answer that is shown: what was heard stays. -/
theorem Follows.tick (hf : Follows page m h) : Follows page m.drainQueue h := by
  have hcourse := hf.course
  by_cases hempty : m.charQueue = []
  · cases hdone : m.streamDone with
    | false => exact hf.idle hempty hdone
    | true =>
      obtain ⟨talk, toolCalls, ending⟩ := h
      rcases ending with _ | _ | _
      · cases hcourse.2.1.symm.trans hdone
      · obtain ⟨⟨hfinishing, -⟩ | ⟨hfalse, -⟩, herror⟩ := hcourse
        · rw [drainQueue_finishing hempty hfinishing]
          exact ⟨hf.shown, hf.blocks, hf.calls, fun hq => absurd hempty hq, Or.inr ⟨rfl, hempty, rfl⟩, herror⟩
        · cases hfalse.symm.trans hdone
      · cases hcourse.2.1.symm.trans hdone
  · obtain ⟨shown, hlast, hcontent⟩ := hf.shown
    rw [Manager.drainQueue, if_neg hempty]
    dsimp only
    generalize max 1 ((m.charQueue.length + 3) / 4) = batch
    refine ⟨⟨shown ++ m.charQueue.take batch, ?_, ?_⟩, hf.blocks, hf.calls, fun _ => hf.queued hempty, ?_⟩
    · rw [hlast, List.append_assoc, List.take_append_drop]
    · rw [hcontent, List.append_assoc]
    · generalize h.ending = ending at hcourse ⊢
      rcases ending with _ | _ | _
      · exact hcourse
      · obtain ⟨hends | ⟨-, hnone, -⟩, herror⟩ := hcourse
        · exact ⟨Or.inl hends, herror⟩
        · exact absurd hnone hempty
      · exact absurd hcourse.2.2.1 hempty

theorem Follows.flush (hf : Follows page m h) : m.flushQueue.state.content = h.talk.text page := by
  rw [Manager.flushQueue_eq]
  exact hf.text

/-- The end of a turn: the state says so once the queue is shown. -/
theorem Follows.finish (hf : Follows page m h) (hgoes : h.ending = none) :
    Follows page (m.finishWhenDrained .completed) { h with ending := some .completed } := by
  have hcourse := hf.course
  rw [hgoes] at hcourse
  obtain ⟨hstatus, -, -, herror⟩ := hcourse
  unfold Manager.finishWhenDrained
  dsimp only
  split
  · next hempty =>
    rw [Manager.drainQueue, if_pos hempty]
    exact ⟨hf.shown, hf.blocks, hf.calls, fun hq => absurd hempty hq, Or.inr ⟨rfl, hempty, rfl⟩, herror⟩
  · next hne =>
    exact ⟨hf.shown, hf.blocks, hf.calls, hf.queued,
      Or.inl ⟨⟨rfl, rfl, hf.queued hne⟩, hstatus⟩, herror⟩

/-- A failed turn keeps the letters that came. -/
theorem Follows.fail (hf : Follows page m h) (hgoes : h.ending = none)
    {patch : ChatStreamState → ChatStreamState} {error : Text} {errorKey : Option Text}
    {errorArgs : Option ErrorArgs}
    (hpatch : ∀ s, s.errorKey = none → s.errorArgs = none →
      (patch s).content = s.content ∧ (patch s).toolCalls = s.toolCalls ∧ (patch s).status = s.status ∧
        (patch s).error = some error ∧ (patch s).errorKey = errorKey ∧ (patch s).errorArgs = errorArgs) :
    Follows page (m.fail patch) { h with ending := some (.failed error errorKey errorArgs) } := by
  have hcourse := hf.course
  rw [hgoes] at hcourse
  obtain ⟨hstatus, -, -, -, hkey, hargs⟩ := hcourse
  obtain ⟨hcontent, hcalls, hnow, herrors⟩ := hpatch (Manager.withStatus .error m.state) hkey hargs
  rw [Manager.fail, if_neg (not_not_intro hstatus), Manager.setStateNow_eq]
  refine ⟨⟨h.talk.last, (List.append_nil _).symm, ?_⟩, hf.blocks, hcalls.trans hf.calls,
    fun hq => absurd rfl hq, hnow, rfl, rfl, herrors⟩
  dsimp only
  rw [hcontent]
  exact hf.text

theorem Follows.event (hf : Follows page m h) (hgoes : h.ending = none) (e : Event) :
    Follows page (m.onEvent page e).1 (h.event page e) ∧
      (m.onEvent page e).2 = (h.event page e).ending.isSome := by
  have hcourse := hf.course
  rw [hgoes] at hcourse
  obtain ⟨shown, hlast, hcontent⟩ := hf.shown
  obtain ⟨talk, toolCalls, ending⟩ := h
  obtain rfl : ending = none := hgoes
  cases e with
  | content text =>
    refine ⟨⟨⟨shown, ?_, hcontent⟩, hf.blocks, hf.calls, fun _ => rfl, hcourse⟩, rfl⟩
    exact (congrArg (· ++ text) hlast).trans (List.append_assoc ..)
  | approvalRequired approvalId functionName cluster expiresAt =>
    refine ⟨⟨⟨shown, hlast, hcontent⟩, hf.blocks, ?_, hf.queued, hcourse⟩, rfl⟩
    exact congrArg (withApproval approvalId functionName cluster expiresAt) hf.calls
  | function call =>
    have htext : m.state.content ++ m.charQueue = talk.text page := hf.text
    have hplaced := placed_call page talk call
    dsimp only [Manager.onEvent, Heard.event, Manager.setState]
    rw [Manager.flushQueue_eq, htext, ← text_call]
    refine ⟨⟨⟨gap, rfl, rfl⟩, ?_, ?_, fun hq => absurd rfl hq, hcourse⟩, rfl⟩
    · dsimp only at hplaced ⊢
      rw [hplaced]
      exact congrArg (· ++ _) hf.blocks
    · exact congrArg (· ++ [call.toolCall]) hf.calls
  | functionResult r =>
    have hcalls : m.state.toolCalls = toolCalls := hf.calls
    have hresults := congrArg (withResult page · r) hcalls
    dsimp only [Manager.onEvent, Heard.event]
    rw [hcalls]
    cases resultTarget page toolCalls r.function r.callId with
    | none => exact ⟨⟨⟨shown, hlast, hcontent⟩, hf.blocks, hresults, hf.queued, hcourse⟩, rfl⟩
    | some n =>
      dsimp only
      rw [withToolOutcome_eq hcontent hf.blocks]
      exact ⟨⟨⟨shown, hlast, rfl⟩, rfl, hresults, hf.queued, hcourse⟩, rfl⟩
  | error error errorKey errorArgs =>
    refine ⟨?_, rfl⟩
    dsimp only [Manager.onEvent, Heard.event]
    apply hf.fail rfl
    exact fun s _ _ => ⟨rfl, rfl, rfl, rfl, rfl, rfl⟩

theorem Follows.line (hf : Follows page m h) (hgoes : h.ending = none) (rawLine : Text) :
    Follows page (m.onLine page rawLine).1 (h.line page rawLine) ∧
      (m.onLine page rawLine).2 = (h.line page rawLine).ending.isSome := by
  have hline : h.line page rawLine =
      match lineOf page rawLine with
      | .nothing => h
      | .done => { h with ending := some .completed }
      | .event e => h.event page e := by
    rw [Heard.line, hgoes]
    rfl
  rw [hline, Manager.onLine]
  cases lineOf page rawLine with
  | nothing => exact ⟨hf, by rw [hgoes]; rfl⟩
  | done => exact ⟨hf.finish hgoes, rfl⟩
  | event e => exact hf.event hgoes e

theorem lines_ended (page : Page) (hends : h.ending.isSome) (lines : List Text) : h.lines page lines = h := by
  induction lines with
  | nil => rfl
  | cons line lines ih =>
    rw [Heard.lines, List.foldl_cons, Heard.line, if_pos hends]
    exact ih

theorem Follows.lines (hf : Follows page m h) (hgoes : h.ending = none) (lines : List Text) :
    Follows page (m.onLines page lines).1 (h.lines page lines) ∧
      (m.onLines page lines).2 = (h.lines page lines).ending.isSome := by
  induction lines generalizing m h with
  | nil => exact ⟨hf, (Option.isSome_eq_false_iff.mpr (Option.isNone_iff_eq_none.mpr hgoes)).symm⟩
  | cons line lines ih =>
    obtain ⟨hline, hsame⟩ := hf.line hgoes line
    rw [Manager.onLines, Heard.lines, List.foldl_cons]
    cases hends : (h.line page line).ending with
    | none =>
      rw [hends] at hsame
      rw [show m.onLine page line = ((m.onLine page line).1, false) from Prod.ext rfl hsame]
      exact ih hline hends
    | some ending =>
      have hover := lines_ended page (h := h.line page line) (by rw [hends]; rfl) lines
      rw [hends] at hsame
      rw [show m.onLine page line = ((m.onLine page line).1, true) from Prod.ext rfl hsame]
      rw [Heard.lines] at hover
      rw [hover, hends]
      exact ⟨hline, rfl⟩

theorem Follows.close (hf : Follows page m h) (hgoes : h.ending = none) (buffer : Text) :
    Follows page (m.onClose buffer) (h.close page buffer) := by
  have htext : m.state.content ≠ [] ∨ m.charQueue ≠ [] ↔ h.talk.text page ≠ [] := by
    rw [← hf.text]
    simp only [ne_eq, List.append_eq_nil_iff]
    tauto
  have hnone : ¬ h.ending.isSome := by simp [hgoes]
  rw [Manager.onClose, Heard.close, if_neg hnone]
  split
  · exact hf.finish hgoes
  · simp only [htext]
    split
    · apply hf.fail hgoes
      exact fun s _ hargs => ⟨rfl, rfl, rfl, rfl, rfl, hargs⟩
    · apply hf.fail hgoes
      exact fun s _ hargs => ⟨rfl, rfl, rfl, rfl, rfl, hargs⟩

theorem Follows.broken (hf : Follows page m h) (hgoes : h.ending = none) (error : Text) :
    Follows page (m.onThrown (.error error)) (h.broken error) := by
  have hnone : ¬ h.ending.isSome := by simp [hgoes]
  rw [Manager.onThrown, Heard.broken, if_neg hnone]
  apply hf.fail hgoes
  exact fun s hkey hargs => ⟨rfl, rfl, rfl, rfl, hkey, hargs⟩

theorem Follows.finished (hf : Follows page m h) : Follows page m.finish.1 h :=
  ⟨hf.shown, hf.blocks, hf.calls, hf.queued, hf.course⟩

end Steps

section Reads
variable {r : Reader} {c d : List UInt8}

/-- A chunk's lines and what is left over, read off the characters one by one. -/
theorem read_eq (hr : '\n' ∉ r.buffer) (c : List UInt8) :
    let chars := (feed Decoder.step r.decoder c).2
    r.read c = (⟨(feed Decoder.step r.decoder c).1, (feed (cut '\n') r.buffer chars).1⟩,
      (feed (cut '\n') r.buffer chars).2) ∧
      '\n' ∉ (feed (cut '\n') r.buffer chars).1 := by
  intro chars
  obtain ⟨hsplit, hrest⟩ := splitOn_eq_feed hr chars
  refine ⟨?_, hrest⟩
  have hlines : linesOf (r.buffer ++ chars) = _ := hsplit
  unfold Reader.read
  dsimp only
  rw [hlines, List.getLastD_concat, List.dropLast_concat]

theorem notMem_read (hr : '\n' ∉ r.buffer) (c : List UInt8) : '\n' ∉ (r.read c).1.buffer := by
  obtain ⟨hread, hrest⟩ := read_eq hr c
  rw [hread]
  exact hrest

theorem read_nil (hr : '\n' ∉ r.buffer) : r.read [] = (r, []) := (read_eq hr []).1

/-- Two chunks read one after the other are read as one. -/
theorem read_append (hr : '\n' ∉ r.buffer) : r.read (c ++ d) =
    (((r.read c).1.read d).1, (r.read c).2 ++ ((r.read c).1.read d).2) := by
  have hmore := notMem_read hr c
  rw [(read_eq hmore d).1, (read_eq hr (c ++ d)).1, (read_eq hr c).1]
  simp only [feed_append]

end Reads

/-- What happens on the page while an answer is read. -/
inductive Step
  | tick
  | read (chunk : List UInt8)
  | close
  | broken (error : Text)

def turnStep (page : Page) (s : Manager × Stage) : Step → Manager × Stage
  | .tick => (if s.1.typewriter then s.1.drainQueue else s.1, s.2)
  | .read chunk => s.1.resume page s.2 (.chunk chunk)
  | .close => s.1.resume page s.2 .closed
  | .broken error => s.1.resume page s.2 (.thrown (.error error))

inductive StreamEnd
  | closed
  | broken (error : Text)

/-- The bytes a run reads, and how the stream ends. -/
def received : List Step → List UInt8 × Option StreamEnd
  | [] => ([], none)
  | .tick :: as => received as
  | .read chunk :: as => (chunk ++ (received as).1, (received as).2)
  | .close :: _ => ([], some .closed)
  | .broken error :: _ => ([], some (.broken error))

/-- What a stream of bytes comes to. -/
def Heard.stream (page : Page) (h : Heard) (r : Reader) (b : List UInt8 × Option StreamEnd) : Heard :=
  let h := h.lines page (r.read b.1).2
  match b.2 with
  | none => h
  | some .closed => h.close page (r.read b.1).1.buffer
  | some (.broken error) => h.broken error

section Runs
variable {page : Page} {m : Manager} {h : Heard} {r : Reader}

theorem stream_ended (hends : h.ending.isSome) (r : Reader) (b : List UInt8 × Option StreamEnd) :
    h.stream page r b = h := by
  obtain ⟨bytes, ends⟩ := b
  rw [Heard.stream, lines_ended page hends]
  match ends with
  | none => rfl
  | some .closed => exact if_pos hends
  | some (.broken error) => exact if_pos hends

theorem follows_over (hf : Follows page m h) (as : List Step) :
    Follows page (exec (turnStep page) (m, .finished) as).1 h := by
  induction as generalizing m with
  | nil => exact hf
  | cons a as ih =>
    rw [exec_cons]
    cases a with
    | tick =>
      apply ih
      dsimp only
      split
      · exact hf.tick
      · exact hf
    | read | close | broken => exact ih hf

/-- Whatever the reads and the ticks are: the manager has what the bytes come to. -/
theorem follows_run (hf : Follows page m h) (hgoes : h.ending = none) (hr : '\n' ∉ r.buffer)
    (as : List Step) :
    Follows page (exec (turnStep page) (m, .reading r) as).1 (h.stream page r (received as)) := by
  induction as generalizing m h r with
  | nil =>
    rw [received, Heard.stream, read_nil hr]
    exact hf
  | cons a as ih =>
    rw [exec_cons]
    cases a with
    | tick =>
      apply ih _ hgoes hr
      dsimp only
      split
      · exact hf.tick
      · exact hf
    | read chunk =>
      obtain ⟨hlines, hsame⟩ := hf.lines hgoes (r.read chunk).2
      have hstream : h.stream page r (received (.read chunk :: as)) =
          (h.lines page (r.read chunk).2).stream page (r.read chunk).1 (received as) := by
        rw [received, Heard.stream, read_append hr]
        dsimp only
        rw [Heard.lines, List.foldl_append]
        rfl
      rw [hstream]
      have hstep {ended : Bool} (hended : (m.onLines page (r.read chunk).2).2 = ended) :
          turnStep page (m, .reading r) (.read chunk) =
            if ended then (m.onLines page (r.read chunk).2).1.finish
            else ((m.onLines page (r.read chunk).2).1, .reading (r.read chunk).1) := by
        subst hended
        rw [turnStep, Manager.resume]
        dsimp only
        rcases m.onLines page (r.read chunk).2 with ⟨_, _ | _⟩ <;> rfl
      cases hends : (h.lines page (r.read chunk).2).ending with
      | none =>
        rw [hends] at hsame
        rw [hstep hsame]
        exact ih hlines hends (notMem_read hr chunk)
      | some ending =>
        rw [hends] at hsame
        rw [hstep hsame]
        rw [stream_ended (by rw [hends]; rfl)]
        exact follows_over hlines.finished as
    | close =>
      rw [received, Heard.stream, read_nil hr]
      exact follows_over (hf.close hgoes r.buffer).finished as
    | broken error =>
      rw [received, Heard.stream, read_nil hr]
      exact follows_over (hf.broken hgoes error).finished as

end Runs

end ChatStream
