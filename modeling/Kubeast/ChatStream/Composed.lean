import Kubeast.ChatStream.Arrival

/-! What the events of a turn come to on the screen: every text in order, a block for every call at
its place, and in a block the first result that is for its call. -/
namespace ChatStream
open Json Streams Transition

section Screen

structure Screen where
  content : Text
  toolCalls : List ToolCall
  status : Status
  error : Option Text
  errorKey : Option Text
  errorArgs : Option ErrorArgs

def Manager.screen (m : Manager) : Screen :=
  ⟨m.state.content, m.state.toolCalls, m.state.status, m.state.error, m.state.errorKey, m.state.errorArgs⟩

def Heard.screen (page : Page) (h : Heard) : Screen :=
  match h.ending with
  | none => ⟨h.talk.text page, h.toolCalls, .streaming, none, none, none⟩
  | some .completed => ⟨h.talk.text page, h.toolCalls, .completed, none, none, none⟩
  | some (.failed error errorKey errorArgs) =>
    ⟨h.talk.text page, h.toolCalls, .error, some error, errorKey, errorArgs⟩

variable {page : Page} {m : Manager} {h : Heard}

/-- With the typewriter at rest the screen shows what was heard. -/
theorem Follows.screen (hf : Follows page m h) (hrest : m.typewriter = false) :
    m.screen = h.screen page := by
  have hempty : m.charQueue = [] := by
    by_contra hne
    cases hrest.symm.trans (hf.queued hne)
  have htext := hf.text
  rw [hempty, List.append_nil] at htext
  have hcourse := hf.course
  obtain ⟨talk, toolCalls, ending⟩ := h
  match ending, hcourse with
  | none, ⟨hstatus, _, _, herror, hkey, hargs⟩ =>
    rw [Manager.screen, htext, hf.calls, hstatus, herror, hkey, hargs]
    rfl
  | some .completed, ⟨hends, herror, hkey, hargs⟩ =>
    rcases hends with ⟨⟨-, -, htimer⟩, -⟩ | ⟨-, -, hstatus⟩
    · cases hrest.symm.trans htimer
    · rw [Manager.screen, htext, hf.calls, hstatus, herror, hkey, hargs]
      rfl
  | some (.failed error errorKey errorArgs), ⟨hstatus, _, _, herror, hkey, hargs⟩ =>
    rw [Manager.screen, htext, hf.calls, hstatus, herror, hkey, hargs]
    rfl

theorem length_drainQueue (hne : m.charQueue ≠ []) :
    m.drainQueue.charQueue.length < m.charQueue.length := by
  rw [Manager.drainQueue, if_neg hne]
  have hpos := List.length_pos_iff.mpr hne
  rw [List.length_drop]
  omega

theorem typewriter_drainQueue (hempty : m.charQueue = []) : m.drainQueue.typewriter = false := by
  rw [Manager.drainQueue, if_pos hempty]
  split <;> rfl

/-- The typewriter comes to rest when nothing more is read. -/
theorem exists_rest (m : Manager) (stage : Stage) :
    ∃ n, (exec (turnStep page) (m, stage) (List.replicate n .tick)).1.typewriter = false := by
  induction hn : m.charQueue.length using Nat.strong_induction_on generalizing m with
  | _ n ih =>
    cases htimer : m.typewriter with
    | false => exact ⟨0, htimer⟩
    | true =>
      have hstep : turnStep page (m, stage) .tick = (m.drainQueue, stage) := by
        rw [turnStep, htimer]
        rfl
      by_cases hempty : m.charQueue = []
      · refine ⟨1, ?_⟩
        rw [List.replicate_one, exec_cons, hstep]
        exact typewriter_drainQueue hempty
      · obtain ⟨k, hk⟩ := ih _ (hn ▸ length_drainQueue hempty) m.drainQueue rfl
        refine ⟨k + 1, ?_⟩
        rw [List.replicate_succ, exec_cons, hstep]
        exact hk

end Screen

section Events
variable (page : Page)

/-- The events of the lines up to the one that ends the turn. -/
def eventsOf : List Text → List Event
  | [] => []
  | line :: lines =>
    match lineOf page line with
    | .nothing => eventsOf lines
    | .done | .event (.error ..) => []
    | .event e => e :: eventsOf lines

def Heard.events (h : Heard) (es : List Event) : Heard := es.foldl (Heard.event page) h

def callsOf (es : List Event) : List Call :=
  es.filterMap fun e =>
    match e with
    | .function call => some call
    | _ => none

/-- The text of the `k`-th event where it is a text that comes after `i` calls. -/
def textAt (es : List Event) (i k : ℕ) : Text :=
  match es[k]? with
  | some (.content text) => if (callsOf (es.take k)).length = i then text else []
  | _ => []

/-- The texts that come after `i` calls and before the next. -/
def segment (es : List Event) (i : ℕ) : Text := (List.range es.length).flatMap (textAt es i)

/-- The call a result is for, when it comes after the events `es`. -/
def target (es : List Event) (r : Result) : Option ℕ :=
  resultTarget page (Heard.empty.events page es).toolCalls r.function r.callId

/-- The `k`-th event where it is a result for call `i`. -/
def resultAt (es : List Event) (i k : ℕ) : Option (Text × Text) :=
  match es[k]? with
  | some (.functionResult r) =>
    if target page (es.take k) r = some i then some (r.codeBlock, r.accessText) else none
  | _ => none

def resultsFor (es : List Event) (i : ℕ) : List (Text × Text) :=
  (List.range es.length).filterMap (resultAt page es i)

/-- A block ends its part with a blank line. -/
def lead (i : ℕ) : Text := if i = 0 then [] else gap

/-- The parts as they stand after the events `es`: each block with the first result that came for it. -/
def asOf (es : List Event) (parts : List (Text × Block)) : List (Text × Block) :=
  parts.mapIdx fun i p => (p.1, ⟨p.2.call, (resultsFor page es i).head?⟩)

/-- The text above a block whose call comes after the events `es`: what was written there without the
white space at its end, the fence that closes a code block which all that stands above it leaves open,
and a blank line; nothing at the start. -/
def aboveOf (es : List Event) (parts : List (Text × Block)) : Text :=
  let kept := trimEnd (lead parts.length ++ segment es parts.length)
  let before := partsText page (asOf page es parts) ++ kept
  if before = [] then [] else kept ++ ((closingFence before).elim [] ('\n' :: ·) ++ gap)

/-- The text above block `i` is the one that its call, the event after `i` calls, was written below. -/
def Above (es : List Event) (parts : List (Text × Block)) (i : ℕ) (p : Text × Block) : Prop :=
  ∃ k, es[k]? = some (.function p.2.call) ∧ (callsOf (es.take k)).length = i ∧
    p.1 = aboveOf page (es.take k) (parts.take i)

/-- What an answer is made of. -/
structure Answers (es : List Event) (t : Talk) : Prop where
  calls : t.parts.map (·.2.call) = callsOf es
  above : ∀ (i : ℕ), ∀ p ∈ t.parts[i]?, Above page es t.parts i p
  last : t.last = lead t.parts.length ++ segment es t.parts.length
  results : ∀ (i : ℕ), ∀ p ∈ t.parts[i]?, p.2.outcome = (resultsFor page es i).head?

end Events

section Snoc
variable {page : Page} {es : List Event} {e : Event} {i k : ℕ}

theorem callsOf_concat (es : List Event) (e : Event) :
    callsOf (es ++ [e]) = callsOf es ++ callsOf [e] := List.filterMap_append

theorem callsOf_take_le (es : List Event) (k : ℕ) :
    (callsOf (es.take k)).length ≤ (callsOf es).length :=
  ((List.take_sublist k es).filterMap _).length_le

theorem textAt_concat (h : k < es.length) : textAt (es ++ [e]) i k = textAt es i k := by
  rw [textAt, textAt, List.getElem?_append_left h, List.take_append_of_le_length h.le]

theorem segment_concat (es : List Event) (e : Event) (i : ℕ) :
    segment (es ++ [e]) i = segment es i ++ textAt (es ++ [e]) i es.length := by
  rw [segment, List.length_append, List.length_singleton, List.range_succ, List.flatMap_append,
    List.flatMap_singleton]
  congr 1
  apply List.flatMap_congr
  intro k hk
  exact textAt_concat (List.mem_range.mp hk)

theorem textAt_last (es : List Event) (e : Event) (i : ℕ) : textAt (es ++ [e]) i es.length =
    match e with
    | .content text => if (callsOf es).length = i then text else []
    | _ => [] := by
  rw [textAt, List.getElem?_concat_length, List.take_left]
  cases e <;> rfl

theorem segment_quiet (he : ∀ text, e ≠ .content text) (es : List Event) (i : ℕ) :
    segment (es ++ [e]) i = segment es i := by
  rw [segment_concat, textAt_last]
  cases e with
  | content text => exact absurd rfl (he text)
  | function | approvalRequired | functionResult | error => exact List.append_nil _

theorem segment_beyond (h : (callsOf es).length < i) : segment es i = [] := by
  rw [segment, List.flatMap_eq_nil_iff]
  intro k _
  have hle := callsOf_take_le es k
  rw [textAt]
  split
  · exact if_neg (by omega)
  · rfl

theorem resultAt_concat (h : k < es.length) : resultAt page (es ++ [e]) i k = resultAt page es i k := by
  rw [resultAt, resultAt, List.getElem?_append_left h, List.take_append_of_le_length h.le]

theorem resultsFor_concat (es : List Event) (e : Event) (i : ℕ) :
    resultsFor page (es ++ [e]) i =
      resultsFor page es i ++ (resultAt page (es ++ [e]) i es.length).toList := by
  have hsame : (List.range es.length).filterMap (resultAt page (es ++ [e]) i) = resultsFor page es i :=
    List.filterMap_congr fun k hk => resultAt_concat (List.mem_range.mp hk)
  rw [resultsFor, List.length_append, List.length_singleton, List.range_succ, List.filterMap_append,
    hsame]
  rfl

theorem resultAt_last (es : List Event) (e : Event) (i : ℕ) : resultAt page (es ++ [e]) i es.length =
    match e with
    | .functionResult r =>
      if target page es r = some i then some (r.codeBlock, r.accessText) else none
    | _ => none := by
  rw [resultAt, List.getElem?_concat_length, List.take_left]
  cases e <;> rfl

theorem events_concat (h : Heard) (es : List Event) (e : Event) :
    h.events page (es ++ [e]) = (h.events page es).event page e := List.foldl_append ..

theorem map_modify_self {α β : Type*} {f : α → α} {g : α → β} (hf : ∀ x, g (f x) = g x) (l : List α)
    (i : ℕ) : (l.modify i f).map g = l.map g := by
  induction l generalizing i with
  | nil => cases i <;> rfl
  | cons x l ih =>
    cases i with
    | zero => rw [List.modify_zero_cons, List.map_cons, hf, List.map_cons]
    | succ i => rw [List.modify_succ_cons, List.map_cons, ih, List.map_cons]

theorem callIds_withApproval (approvalId functionName : Text) (cluster expiresAt : Option Data)
    (toolCalls : List ToolCall) :
    (withApproval approvalId functionName cluster expiresAt toolCalls).map ToolCall.callId =
      toolCalls.map ToolCall.callId := by
  unfold withApproval
  split
  · apply map_modify_self
    exact fun _ => rfl
  · rfl

theorem callIds_withResult (toolCalls : List ToolCall) (r : Result) :
    (withResult page toolCalls r).map ToolCall.callId = toolCalls.map ToolCall.callId := by
  unfold withResult
  split
  · apply map_modify_self
    exact fun _ => rfl
  · rfl

/-- The calls the results are looked up in are the calls of the events. -/
theorem callIds_events (page : Page) (es : List Event) :
    (Heard.empty.events page es).toolCalls.map ToolCall.callId = (callsOf es).map Call.callId := by
  induction es using List.reverseRecOn with
  | nil => rfl
  | append_singleton es e ih =>
    rw [events_concat, callsOf_concat, List.map_append]
    cases e with
    | content text => exact ih.trans (List.append_nil _).symm
    | error => exact ih.trans (List.append_nil _).symm
    | approvalRequired => exact (callIds_withApproval ..).trans (ih.trans (List.append_nil _).symm)
    | function call =>
      dsimp only [Heard.event]
      rw [List.map_append, ih]
      rfl
    | functionResult r => exact (callIds_withResult ..).trans (ih.trans (List.append_nil _).symm)

/-- A result is for a call that came before it. -/
theorem target_lt {r : Result} (h : target page es r = some i) : i < (callsOf es).length := by
  have hlength := congrArg List.length (callIds_events page es)
  rw [List.length_map, List.length_map] at hlength
  rw [← hlength]
  rw [target, resultTarget] at h
  split at h
  · next j hj =>
    obtain rfl := Option.some.inj h
    obtain ⟨id, _, hfind⟩ := Option.bind_eq_some_iff.mp hj
    exact (List.findIdx?_eq_some_iff_getElem.mp hfind).1
  · exact (List.findIdx?_eq_some_iff_getElem.mp h).1

/-- A result with a call id is for the first call of that id. -/
theorem target_callId {r : Result} {id : Number} (hid : r.callId = some id)
    (h : (callsOf es).findIdx? (fun call => call.callId.any (page.same id)) = some i) :
    target page es r = some i := by
  have hfind : (Heard.empty.events page es).toolCalls.findIdx?
      (fun tc => tc.callId.any (page.same id)) = some i := by
    have hmap := congrArg (List.findIdx? fun c => Option.any (page.same id) c)
      (callIds_events page es)
    rw [List.findIdx?_map, List.findIdx?_map] at hmap
    exact hmap.trans h
  rw [target, resultTarget, hid, Option.bind_some, hfind]

end Snoc

section Composed
variable {page : Page} {es : List Event} {h : Heard}

theorem results_beyond {i : ℕ} (hi : (callsOf es).length ≤ i) : resultsFor page es i = [] := by
  rw [resultsFor, List.filterMap_eq_nil_iff]
  intro k _
  have hle := callsOf_take_le es k
  rw [resultAt]
  split
  · next r _ =>
    apply if_neg
    intro htarget
    have hlt := target_lt htarget
    omega
  · rfl

theorem Answers.length {t : Talk} (ha : Answers page es t) : t.parts.length = (callsOf es).length := by
  rw [← ha.calls, List.length_map]

/-- Above a block it is only the texts and the calls of the blocks above it that count. -/
theorem aboveOf_congr {parts parts' : List (Text × Block)}
    (h : parts'.map (fun p => (p.1, p.2.call)) = parts.map fun p => (p.1, p.2.call)) :
    aboveOf page es parts' = aboveOf page es parts := by
  have hlength : parts'.length = parts.length := by simpa using congrArg List.length h
  have hasOf : asOf page es parts' = asOf page es parts := by
    apply List.ext_getElem?
    intro i
    have hi := congrArg (·[i]?) h
    simp only [List.getElem?_map] at hi
    rw [asOf, asOf, List.getElem?_mapIdx, List.getElem?_mapIdx]
    cases hp : parts[i]? <;> cases hp' : parts'[i]? <;> simp_all
  rw [aboveOf, hlength, hasOf, aboveOf]

theorem Above.concat {parts parts' : List (Text × Block)} {p p' : Text × Block} {i : ℕ}
    (h : Above page es parts i p) (e : Event) (habove : p'.1 = p.1) (hcall : p'.2.call = p.2.call)
    (hparts : parts'.map (fun p => (p.1, p.2.call)) = parts.map (fun p => (p.1, p.2.call)) ∨
      ∃ q, parts' = parts ++ [q]) (hi : i ≤ parts.length) : Above page (es ++ [e]) parts' i p' := by
  obtain ⟨k, hk, hcalls, hp⟩ := h
  have hlt := (List.getElem?_eq_some_iff.mp hk).1
  have htake : (es ++ [e]).take k = es.take k := List.take_append_of_le_length hlt.le
  have hsame : (parts'.take i).map (fun p => (p.1, p.2.call)) = (parts.take i).map fun p => (p.1, p.2.call) := by
    rcases hparts with hparts | ⟨q, rfl⟩
    · rw [List.map_take, List.map_take, hparts]
    · rw [List.take_append_of_le_length hi]
  refine ⟨k, ?_, ?_, ?_⟩
  · rw [List.getElem?_append_left hlt, hcall]
    exact hk
  · rw [htake]
    exact hcalls
  · rw [htake, aboveOf_congr hsame, habove]
    exact hp

theorem answers_empty : Answers page [] ⟨[], []⟩ where
  calls := rfl
  above i p hp := by cases hp
  last := rfl
  results i p hp := by cases hp

/-- An event that is no text, no call and no result for a block leaves the answer as it is. -/
theorem Answers.quiet {t : Talk} (ha : Answers page es t) {e : Event} (htext : ∀ text, e ≠ .content text)
    (hcall : callsOf [e] = []) (hresult : ∀ i, resultAt page (es ++ [e]) i es.length = none) :
    Answers page (es ++ [e]) t where
  calls := by rw [callsOf_concat, hcall, List.append_nil, ha.calls]
  above i p hp := (ha.above i p hp).concat e rfl rfl (.inl rfl) (List.getElem?_eq_some_iff.mp hp).1.le
  last := by rw [segment_quiet htext, ha.last]
  results i p hp := by
    rw [resultsFor_concat, hresult, Option.toList_none, List.append_nil]
    exact ha.results i p hp

theorem Answers.content {t : Talk} (ha : Answers page es t) (text : Text) :
    Answers page (es ++ [Event.content text]) (t.say text) where
  calls := by
    rw [callsOf_concat]
    exact ha.calls.trans (List.append_nil _).symm
  above i p hp := (ha.above i p hp).concat _ rfl rfl (.inl rfl) (List.getElem?_eq_some_iff.mp hp).1.le
  last := by
    have hsegment : segment (es ++ [Event.content text]) t.parts.length = segment es t.parts.length ++ text := by
      rw [segment_concat, textAt_last]
      exact congrArg _ (if_pos ha.length.symm)
    have hlast := ha.last
    rw [Talk.say, hsegment, hlast, List.append_assoc]
  results i p hp := by
    rw [resultsFor_concat, resultAt_last]
    exact (ha.results i p hp).trans (congrArg List.head? (List.append_nil _).symm)

theorem concat_cases {α : Type*} {l : List α} {x p : α} {i : ℕ} (h : (l ++ [x])[i]? = some p) :
    l[i]? = some p ∨ i = l.length ∧ p = x := by
  rcases lt_trichotomy i l.length with hlt | rfl | hgt
  · rw [List.getElem?_append_left hlt] at h
    exact Or.inl h
  · rw [List.getElem?_concat_length] at h
    exact Or.inr ⟨rfl, (Option.some.inj h).symm⟩
  · rw [List.getElem?_eq_none (by rw [List.length_append, List.length_singleton]; omega)] at h
    cases h

theorem Answers.asOf {t : Talk} (ha : Answers page es t) : asOf page es t.parts = t.parts := by
  apply List.ext_getElem?
  intro i
  rw [ChatStream.asOf, List.getElem?_mapIdx]
  cases hp : t.parts[i]? with
  | none => rfl
  | some p =>
    rw [Option.map_some, ← ha.results i p hp]

theorem blockBreak_eq (before : Text) : blockBreak before = (closingFence before).elim [] ('\n' :: ·) ++ gap := by
  unfold blockBreak
  cases closingFence before <;> rfl

/-- The text above a new block. -/
theorem Answers.newAbove {t : Talk} (ha : Answers page es t) (call : Call) {p : Text × Block}
    (hp : (t.call page call).parts = t.parts ++ [p]) :
    Above page (es ++ [Event.function call]) (t.call page call).parts t.parts.length p := by
  obtain rfl : (_, _) = p := (List.append_inj' hp rfl).2 |> List.singleton_inj.mp
  refine ⟨es.length, List.getElem?_concat_length, ?_, ?_⟩
  · rw [List.take_left, ← ha.length]
  · rw [hp, List.take_left, List.take_left, aboveOf, ha.asOf, ← ha.last]
    dsimp only
    rw [blockBreak_eq]

theorem Answers.call {t : Talk} (ha : Answers page es t) (call : Call) :
    Answers page (es ++ [Event.function call]) (t.call page call) where
  calls := by
    rw [callsOf_concat, Talk.call]
    dsimp only
    rw [List.map_append, ha.calls]
    rfl
  above i p hp := by
    rcases concat_cases hp with hold | ⟨rfl, rfl⟩
    · exact (ha.above i p hold).concat _ rfl rfl (.inr ⟨_, rfl⟩) (List.getElem?_eq_some_iff.mp hold).1.le
    · exact ha.newAbove call rfl
  last := by
    have hlength : (t.call page call).parts.length = t.parts.length + 1 :=
      List.length_append.trans rfl
    have hbeyond : segment es (t.parts.length + 1) = [] :=
      segment_beyond (by rw [← ha.length]; exact Nat.lt_succ_self _)
    rw [hlength, segment_quiet (fun _ h => by cases h), hbeyond]
    rfl
  results i p hp := by
    rw [resultsFor_concat, resultAt_last]
    dsimp only
    rw [Option.toList_none, List.append_nil]
    rcases concat_cases hp with hold | ⟨rfl, rfl⟩
    · exact ha.results i p hold
    · rw [results_beyond ha.length.ge]
      rfl

theorem Answers.answer {t : Talk} (ha : Answers page es t) {r : Result} {n : ℕ}
    (hr : target page es r = some n) :
    Answers page (es ++ [Event.functionResult r]) (t.answer n (r.codeBlock, r.accessText)) := by
  have hget : ∀ (i : ℕ), ∀ p ∈ (t.answer n (r.codeBlock, r.accessText)).parts[i]?,
      ∃ b, t.parts[i]? = some (p.1, b) ∧
        p.2 = if n = i then b.answer (r.codeBlock, r.accessText) else b := by
    intro i p hp
    rw [Talk.answer, Option.mem_def, List.getElem?_modify] at hp
    obtain ⟨⟨above, b⟩, hb, rfl⟩ := Option.map_eq_some_iff.mp hp
    refine ⟨b, ?_, ?_⟩
    · split <;> exact hb
    · split <;> rfl
  have hlength : (t.answer n (r.codeBlock, r.accessText)).parts.length = t.parts.length :=
    List.length_modify ..
  refine ⟨?_, ?_, ?_, ?_⟩
  · rw [callsOf_concat, Talk.answer]
    dsimp only
    have hmap := map_modify_self (f := fun p : Text × Block => (p.1, p.2.answer (r.codeBlock, r.accessText)))
      (g := fun p => p.2.call) (fun _ => rfl) t.parts n
    rw [hmap, ha.calls]
    exact (List.append_nil _).symm
  · intro i p hp
    obtain ⟨b, hb, hblock⟩ := hget i p hp
    have hcall : p.2.call = b.call := by
      rw [hblock]
      split <;> rfl
    refine (ha.above i (p.1, b) hb).concat _ rfl hcall (.inl ?_) (List.getElem?_eq_some_iff.mp hb).1.le
    exact map_modify_self (f := fun p : Text × Block => (p.1, p.2.answer (r.codeBlock, r.accessText)))
      (g := fun p => (p.1, p.2.call)) (fun _ => rfl) t.parts n
  · rw [hlength, segment_quiet (fun _ h => by cases h)]
    exact ha.last
  · intro i p hp
    obtain ⟨b, hb, hp⟩ := hget i p hp
    have hbefore := ha.results i (p.1, b) hb
    rw [resultsFor_concat, resultAt_last, hp]
    dsimp only
    rw [hr]
    by_cases hi : n = i
    · subst hi
      rw [if_pos rfl, if_pos rfl, Block.answer]
      dsimp only at hbefore ⊢
      rw [hbefore, List.head?_append]
      cases (resultsFor page es n).head? <;> rfl
    · rw [if_neg hi, if_neg fun h => hi (Option.some.inj h), Option.toList_none, List.append_nil]
      exact hbefore

theorem answers_events (page : Page) (es : List Event) :
    Answers page es (Heard.empty.events page es).talk := by
  induction es using List.reverseRecOn with
  | nil => exact answers_empty
  | append_singleton es e ih =>
    rw [events_concat]
    cases e with
    | content text => exact ih.content text
    | function call => exact ih.call call
    | functionResult r =>
      dsimp only [Heard.event]
      cases htarget : target page es r with
      | some n =>
        rw [target] at htarget
        rw [htarget]
        exact ih.answer htarget
      | none =>
        have hnone : ∀ i, resultAt page (es ++ [Event.functionResult r]) i es.length = none := by
          intro i
          rw [resultAt_last]
          dsimp only
          rw [htarget]
          rfl
        rw [target] at htarget
        rw [htarget]
        exact ih.quiet (fun _ h => by cases h) rfl hnone
    | approvalRequired | error =>
      exact ih.quiet (fun _ h => by cases h) rfl fun i => resultAt_last ..

/-- The lines of a turn come to what their events come to. -/
theorem talk_lines (hgoes : h.ending = none) (lines : List Text) :
    (h.lines page lines).talk = (h.events page (eventsOf page lines)).talk := by
  induction lines generalizing h with
  | nil => rfl
  | cons line lines ih =>
    rw [Heard.lines, List.foldl_cons, Heard.line, hgoes, eventsOf]
    dsimp only [Option.isSome_none]
    rw [if_neg Bool.false_ne_true]
    cases lineOf page line with
    | nothing => exact ih hgoes
    | done =>
      have hends := lines_ended page (h := { h with ending := some .completed }) rfl lines
      exact (congrArg Heard.talk hends).trans rfl
    | event e =>
      cases e with
      | error error errorKey errorArgs =>
        have hends := lines_ended page (h := h.event page (.error error errorKey errorArgs)) rfl lines
        exact (congrArg Heard.talk hends).trans rfl
      | content | approvalRequired | function | functionResult => exact ih hgoes

theorem talk_close (h : Heard) (buffer : Text) : (h.close page buffer).talk = h.talk := by
  unfold Heard.close
  split
  · rfl
  · split
    · rfl
    · split <;> rfl

theorem talk_broken (h : Heard) (error : Text) : (h.broken error).talk = h.talk := by
  unfold Heard.broken
  split <;> rfl

theorem talk_stream (hgoes : h.ending = none) (r : Reader) (b : List UInt8 × Option StreamEnd) :
    (h.stream page r b).talk = (h.events page (eventsOf page (r.read b.1).2)).talk := by
  rw [← talk_lines hgoes]
  unfold Heard.stream
  dsimp only
  split
  · rfl
  · exact talk_close ..
  · exact talk_broken ..

theorem text_screen (h : Heard) : (h.screen page).content = h.talk.text page := by
  unfold Heard.screen
  split <;> rfl

end Composed

section Main
variable {page : Page}

/-- The run of a turn from the moment its answer begins to be read. -/
def turnRun (page : Page) (m : Manager) (as : List Step) : Manager × Stage :=
  exec (turnStep page) (m, .reading .start) as

/-- What is on the screen once the typewriter is at rest does not depend on how the bytes were cut
into reads nor on when the typewriter ticked, and the typewriter does come to rest. The content is
every text in order, without the white space a text above a block ends with, and for every call one
block at its place, with the first result that is for it; a result with a call id is for the first
call of that id. -/
theorem answer_as_it_came (page : Page) (m m' : Manager) (turn turn' : ℕ)
    (sessionId userMessage sessionId' userMessage' : Text) (savedMessages savedMessages' : ℕ)
    (as as' : List Step) :
    let s := turnRun page (m.begin turn sessionId userMessage savedMessages) as
    let s' := turnRun page (m'.begin turn' sessionId' userMessage' savedMessages') as'
    let es := eventsOf page (Reader.start.read (received as).1).2
    (received as = received as' → s.1.typewriter = false → s'.1.typewriter = false →
      s.1.screen = s'.1.screen) ∧
    (∃ n, (exec (turnStep page) s (List.replicate n .tick)).1.typewriter = false) ∧
    (s.1.typewriter = false → ∃ t : Talk, s.1.state.content = t.text page ∧ Answers page es t) ∧
    ∀ (k i : ℕ) (r : Result) (id : Json.Number), r.callId = some id →
      (callsOf (es.take k)).findIdx? (fun call => call.callId.any (page.same id)) = some i →
        target page (es.take k) r = some i := by
  intro s s' es
  have hstart : '\n' ∉ Reader.start.buffer := List.not_mem_nil
  have hrun : ∀ (m : Manager) (turn : ℕ) (sessionId userMessage : Text) (savedMessages : ℕ) (as : List Step),
      Follows page (turnRun page (m.begin turn sessionId userMessage savedMessages) as).1
        (Heard.empty.stream page .start (received as)) :=
    fun m turn sessionId userMessage savedMessages as =>
      follows_run (follows_begin m turn sessionId userMessage savedMessages) rfl hstart as
  have hs := hrun m turn sessionId userMessage savedMessages as
  refine ⟨?_, exists_rest s.1 s.2, ?_, fun k i r id hid h => target_callId hid h⟩
  · intro hsame hrest hrest'
    rw [hs.screen hrest, hsame]
    exact ((hrun m' turn' sessionId' userMessage' savedMessages' as').screen hrest').symm
  · intro hrest
    refine ⟨(Heard.empty.events page es).talk, ?_, answers_events page es⟩
    have hcontent := congrArg Screen.content (hs.screen hrest)
    rw [text_screen, Talk.text, talk_stream rfl] at hcontent
    exact hcontent

/-- A text that ends in a blank, a call, and the end. -/
def spacedBytes : List UInt8 :=
  ("data: \x7b\"content\":\"Hi \"\x7d\ndata: \x7b\"function\":\"f\"\x7d\ndata: [DONE]\n").toList.map
    fun c => c.toNat.toUInt8

/-- The blank a text ends with is not in the content of the completed answer. -/
theorem spaced_text_cut :
    let s := turnRun .plain (Manager.initial.begin 0 [] [] 0) [.read spacedBytes]
    segment (eventsOf .plain (Reader.start.read spacedBytes).2) 0 = "Hi ".toList ∧
      s.1.state.status = .completed ∧ s.1.typewriter = false ∧
      indexOf "Hi ".toList s.1.state.content = none := by
  decide +kernel

end Main

end ChatStream
