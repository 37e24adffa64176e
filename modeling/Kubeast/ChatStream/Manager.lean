import Mathlib.Logic.Function.Basic
import Mathlib.Data.List.DropRight
import Kubeast.Foundation.JsonData
import Kubeast.Foundation.Streams

/-! Fenced code blocks of a Markdown text, read line by line, and the line that closes the block a
text leaves open. -/
namespace ChatStream

abbrev Text := List Char

/-- What `trim` and `\s` take for white space. -/
def isSpace (c : Char) : Bool :=
  c.toNat ∈ [0x9, 0xA, 0xB, 0xC, 0xD, 0x20, 0xA0, 0x1680, 0x2028, 0x2029, 0x202F, 0x205F, 0x3000,
    0xFEFF] || (0x2000 ≤ c.toNat && c.toNat ≤ 0x200A)

def trimEnd (s : Text) : Text := s.rdropWhile isSpace

def trim (s : Text) : Text := trimEnd (s.dropWhile isSpace)

def backtick : Char := Char.ofNat 0x60

def linesOf (s : Text) : List Text := s.splitOn '\n'

structure Fence where
  indent : ℕ
  mark : Char
  length : ℕ

def Fence.text (f : Fence) : Text := List.replicate f.indent ' ' ++ List.replicate f.length f.mark

/-- The run of marks a line begins with, up to three spaces in, and what follows it. -/
def fenceRun (line : Text) : Option (Fence × Text) :=
  let indent := (line.takeWhile fun c => c = ' ').length
  let body := line.drop indent
  match body.head? with
  | some c =>
    let n := (body.takeWhile fun d => d = c).length
    if indent ≤ 3 ∧ (c = backtick ∨ c = '~') ∧ 3 ≤ n then some (⟨indent, c, n⟩, body.drop n) else none
  | none => none

/-- `FENCE_OPEN`: no backtick follows the backticks. -/
def fenceOpen (line : Text) : Option Fence :=
  (fenceRun line).bind fun (f, rest) => if f.mark = backtick ∧ backtick ∈ rest then none else some f

/-- `FENCE_CLOSE`: only blanks follow the marks. -/
def fenceClose (line : Text) : Option Fence :=
  (fenceRun line).bind fun (f, rest) =>
    if rest.all fun c => c = ' ' || c = '\t' || c = '\r' then some f else none

def closes (f : Fence) (line : Text) : Bool :=
  (fenceClose line).any fun c => c.mark = f.mark && f.length ≤ c.length

/-- The shortest fence of each mark seen with no closing line after it. -/
abbrev Unclosed := Char → Option ℕ

/-- How many of the lines after `line` belong to the block it opens, if it opens one that ends. -/
def fenceEnd (unclosed : Unclosed) (line : Text) (rest : List Text) : Option ℕ × Unclosed :=
  match fenceOpen line with
  | none => (none, unclosed)
  | some f =>
    if (unclosed f.mark).any fun n => n ≤ f.length then (none, unclosed)
    else
      match rest.findIdx? (closes f) with
      | some i => (some (i + 1), unclosed)
      | none => (none, Function.update unclosed f.mark (some f.length))

section Closing
variable (isSpace : Char → Bool)

def indentOf (line : Text) : ℕ := (line.takeWhile isSpace).length

/-- A line that is not blank is less indented: the list item a fence was in has ended. -/
def ended (indent : ℕ) (rest : List Text) : Bool :=
  rest.any fun line => line.any (fun c => !isSpace c) && indentOf isSpace line < indent

/-- The walk over the lines of a text, the lines of a block that ends skipped. -/
def closingWalk : ℕ → Unclosed → List Text → Option Text
  | _, _, [] => none
  | skip + 1, unclosed, _ :: rest => closingWalk skip unclosed rest
  | 0, unclosed, line :: rest =>
    match fenceEnd unclosed line rest with
    | (some n, unclosed) => closingWalk n unclosed rest
    | (none, unclosed) =>
      match fenceOpen line with
      | some f => if ended isSpace f.indent rest then closingWalk 0 unclosed rest else some f.text
      | none => closingWalk 0 unclosed rest

end Closing

/-- The line that closes the code block `text` leaves open. -/
def closingFence (text : Text) : Option Text := closingWalk isSpace 0 (fun _ => none) (linesOf text)

example : closingFence "a\n```go\nx\n".toList = some "```".toList := by decide

example : closingFence "- item\n  ```\n  code\nnot indented".toList = none := by decide

end ChatStream

/-! The chat stream manager: its state, the typewriter's queue, the tool blocks of an answer and
what each line of a stream does to them. -/
namespace ChatStream
open Json Streams

/-- What the manager uses of the page around it: numbers, `String` of what is no string,
`JSON.stringify`, and the lines under a tool block's name, which may throw. -/
structure Page where
  isZero : Number → Bool
  same : Number → Number → Bool
  string : Data → Text
  stringify : Data → Text
  accessSection : Option Data → Option Data → Option Text

inductive Status
  | idle | streaming | completed | aborted | error
  deriving DecidableEq

inductive StreamingPhase
  | waiting | tools | answer
  deriving DecidableEq

structure ToolCall where
  function : Data
  args : Data
  result : Text
  isJson : Bool
  isYaml : Bool
  callId : Option Number
  /-- approval id, cluster and expiry of a parked call -/
  approval : Option (Text × Option Data × Option Data)
  display : Option (Text × Text)
  chart : Option Data
  access : Option Data
  requests : Option Data

inductive ErrorArgs
  | refused (status : ℕ) (detail : Option Text)
  | given (args : Data)

structure FailedTurn where
  question : Text
  content : Text
  toolCalls : List ToolCall
  error : Option Text
  errorKey : Option Text
  errorArgs : Option ErrorArgs
  stopped : Bool
  askedAt : ℕ
  savedBefore : ℕ

structure ChatStreamState where
  status : Status
  isStreaming : Bool
  sessionId : Option Text
  userMessage : Option Text
  content : Text
  toolCalls : List ToolCall
  streamingPhase : Option StreamingPhase
  error : Option Text
  errorKey : Option Text
  errorArgs : Option ErrorArgs
  savedBefore : ℕ
  failedTurns : List FailedTurn

def initialState : ChatStreamState where
  status := .idle
  isStreaming := false
  sessionId := none
  userMessage := none
  content := []
  toolCalls := []
  streamingPhase := none
  error := none
  errorKey := none
  errorArgs := none
  savedBefore := 0
  failedTurns := []

/-- Where a tool block starts and where its result goes, none once it is there. -/
structure ToolBlock where
  start : ℕ
  resultAt : Option ℕ

/-- The manager's fields. A controller is named by the turn it was made for, and a pending patch by
the status it sets. -/
structure Manager where
  state : ChatStreamState
  abortController : Option ℕ
  charQueue : Text
  typewriter : Bool
  streamDone : Bool
  pendingDonePatch : Option Status
  toolBlocks : List ToolBlock

def Manager.initial : Manager := ⟨initialState, none, [], false, false, none, []⟩

section Blocks

def resultPlaceholder : Text := "Executing...".toList

def summaryEnd : Text := "</summary>\n".toList

def indexOf (t : Text) : Text → Option ℕ
  | [] => if t = [] then some 0 else none
  | c :: s => if t.isPrefixOf (c :: s) then some 0 else (indexOf t s).map (· + 1)

def lastIndexOf (t : Text) : Text → Option ℕ
  | [] => if t = [] then some 0 else none
  | c :: s =>
    match lastIndexOf t s with
    | some i => some (i + 1)
    | none => if t.isPrefixOf (c :: s) then some 0 else none

/-- `args && typeof args === 'object' && Object.keys(args).length > 0` -/
def hasKeys : Data → Bool
  | .obj ms => ms ≠ []
  | .arr items => items ≠ []
  | _ => false

def argsSection (page : Page) (args : Data) : Text :=
  if hasKeys args then
    "<details>\n<summary><strong>📋 Arguments</strong></summary>\n\n```json\n".toList ++
      page.stringify args ++ "\n```\n\n</details>".toList
  else "<p><strong>📋 Arguments:</strong> No arguments</p>".toList

def blockName (functionName : Text) : Text :=
  "<details>\n<summary>🔧 <strong>".toList ++ functionName ++ "</strong></summary>\n".toList

def blockResults : Text := "\n\n<details>\n<summary><strong>📊 Results</strong></summary>\n\n".toList

def blockEnd : Text := "\n\n</details>\n\n</details>".toList

def gap : Text := "\n\n".toList

def buildToolCallBlock (page : Page) (functionName : Text) (args : Data) : Text :=
  blockName functionName ++ "\n".toList ++ argsSection page args ++ blockResults ++
    resultPlaceholder ++ blockEnd ++ gap

/-- The break between the answer so far and a tool block below it. -/
def blockBreak (before : Text) : Text :=
  (match closingFence before with
    | some closing => '\n' :: closing
    | none => []) ++ gap

def appendToolBlock (content block : Text) : Text :=
  let before := trimEnd content
  if before = [] then block else before ++ blockBreak before ++ block

def withToolResult (content : Text) (pos : ℕ) (result : Text) : Text :=
  if resultPlaceholder.isPrefixOf (content.drop pos) then
    content.take pos ++ result ++ content.drop (pos + resultPlaceholder.length)
  else content

def withToolAccess (content : Text) (pos : ℕ) (line : Text) : Text :=
  match indexOf summaryEnd (content.drop pos) with
  | some i =>
    if line = [] then content
    else
      let cut := pos + i + summaryEnd.length
      content.take cut ++ ('\n' :: line ++ ['\n']) ++ content.drop cut
  | none => content

def longestRun (mark : Char) : ℕ → Text → ℕ
  | run, [] => run
  | run, c :: s => if c = mark then longestRun mark (run + 1) s else max run (longestRun mark 0 s)

def codeFence (text : Text) : Text := List.replicate (max 2 (longestRun backtick 0 text) + 1) backtick

end Blocks

section Events
variable (page : Page)

def truthy : Data → Bool
  | .null => false
  | .bool b => b
  | .num n => !page.isZero n
  | .str s => s ≠ ""
  | .arr _ | .obj _ => true

def field : Data → String → Option Data
  | .obj ms, key => (ms.find? fun m => m.1 = key).map Prod.snd
  | _, _ => none

/-- A field that counts as true. -/
def present (data : Data) (key : String) : Option Data := (field data key).filter (truthy page)

def string : Data → Text
  | .str s => s.toList
  | d => page.string d

def number? : Option Data → Option Number
  | some (.num n) => some n
  | _ => none

def text? : Option Data → Option Text
  | some (.str s) => some s.toList
  | _ => none

structure Call where
  function : Data
  args : Data
  callId : Option Number

structure Result where
  function : Text
  isJson : Bool
  isYaml : Bool
  result : Text
  display : Text
  displayFormat : Text
  callId : Option Number
  chart : Option Data
  access : Option Data
  requests : Option Data
  /-- what goes under the name of the tool block -/
  accessText : Text

inductive Event
  | content (text : Text)
  | approvalRequired (approvalId function : Text) (cluster expiresAt : Option Data)
  | function (call : Call)
  | functionResult (result : Result)
  | error (error : Text) (errorKey : Option Text) (errorArgs : Option Data)

def resultOf (data name : Data) : Option Result := do
  let accessText ← page.accessSection (field data "access") (field data "requests")
  let given (key : String) : Text := ((present page data key).map (string page)).getD []
  some
    { function := string page name
      isJson := (present page data "is_json").isSome
      isYaml := (present page data "is_yaml").isSome
      result := match field data "result" with
        | none | some .null => []
        | some result => string page result
      display := given "display"
      displayFormat := given "display_format"
      callId := number? (field data "call_id")
      chart := present page data "chart"
      access := present page data "access"
      requests := present page data "requests"
      accessText := accessText }

/-- What an event is about, in the order the fields are looked at; none where nothing is done. -/
def eventOf (data : Data) : Option Event :=
  if (present page data "model_info").isSome || (present page data "usage").isSome then none
  else if let some text := present page data "content" then some (.content (string page text))
  else if let some approvalId := present page data "approval_required" then
    some (.approvalRequired (string page approvalId)
      (((present page data "function").map (string page)).getD [])
      (field data "cluster") (field data "expires_at"))
  else if let some function := present page data "function" then
    some (.function ⟨function, (present page data "args").getD (.obj []),
      number? (field data "call_id")⟩)
  else if let some name := present page data "function_result" then
    (resultOf page data name).map .functionResult
  else if let some error := present page data "error" then
    some (.error (string page error) (text? (field data "error_key"))
      ((field data "error_args").filter fun args => match args with
        | .arr _ | .obj _ => true
        | _ => false))
  else none

/-- What a line of the stream says. -/
inductive Line
  | nothing
  | done
  | event (e : Event)

def jsonParse (s : Text) : Option Data := (parse s).map fun d => d.value.data

def dataOf (rawLine : Text) : Option Text :=
  let line := trim rawLine
  if "data: ".toList.isPrefixOf line then some (line.drop 6) else none

def lineOf (rawLine : Text) : Line :=
  match dataOf rawLine with
  | none => .nothing
  | some dataStr =>
    if dataStr = "[DONE]".toList then .done
    else
      match (jsonParse dataStr).bind (eventOf page) with
      | some e => .event e
      | none => .nothing

end Events

section Calls
variable (page : Page)

def ToolCall.isNamed (tc : ToolCall) (functionName : Text) : Bool := text? (some tc.function) = some functionName

/-- The tool call a result belongs to: the one with its call id, else the first call of that tool
without a result yet. -/
def resultTarget (toolCalls : List ToolCall) (functionName : Text) (callId : Option Number) :
    Option ℕ :=
  match callId.bind fun id => toolCalls.findIdx? fun tc => tc.callId.any (page.same id) with
  | some i => some i
  | none => toolCalls.findIdx? fun tc => tc.isNamed functionName && tc.result = []

def Call.toolCall (c : Call) : ToolCall where
  function := c.function
  args := c.args
  result := []
  isJson := false
  isYaml := false
  callId := c.callId
  approval := none
  display := none
  chart := none
  access := none
  requests := none

/-- The tool call with its result; what the event leaves out stays as it was. -/
def ToolCall.answered (r : Result) (tc : ToolCall) : ToolCall :=
  { tc with
    result := r.result
    isJson := r.isJson
    isYaml := r.isYaml
    display := if r.display = [] then tc.display else some (r.display, r.displayFormat)
    chart := r.chart <|> tc.chart
    access := r.access <|> tc.access
    requests := r.requests <|> tc.requests }

def withResult (toolCalls : List ToolCall) (r : Result) : List ToolCall :=
  match resultTarget page toolCalls r.function r.callId with
  | some i => toolCalls.modify i (ToolCall.answered r)
  | none => toolCalls

/-- The first call of that tool without an approval gets it. -/
def withApproval (approvalId functionName : Text) (cluster expiresAt : Option Data)
    (toolCalls : List ToolCall) : List ToolCall :=
  match toolCalls.findIdx? fun tc => tc.isNamed functionName && tc.approval.all (·.1 = []) with
  | some i => toolCalls.modify i fun tc => { tc with approval := some (approvalId, cluster, expiresAt) }
  | none => toolCalls

/-- The code block of a result in the answer. -/
def Result.codeBlock (r : Result) : Text :=
  let bodyText := if r.display = [] then r.result else r.display
  let language := if r.display ≠ [] then "" else if r.isYaml then "yaml" else if r.isJson then "json" else ""
  codeFence bodyText ++ language.toList ++ '\n' :: bodyText ++ '\n' :: codeFence bodyText

end Calls

namespace Manager

def startTypewriter (m : Manager) : Manager := { m with typewriter := true }

def stopTypewriter (m : Manager) : Manager := { m with typewriter := false }

def setState (m : Manager) (patch : ChatStreamState → ChatStreamState) : Manager :=
  { m with state := patch m.state }

def withStatus (status : Status) (s : ChatStreamState) : ChatStreamState :=
  { s with status, isStreaming := false, streamingPhase := none }

/-- One tick of the typewriter: the longer the queue, the more of it. -/
def drainQueue (m : Manager) : Manager :=
  if m.charQueue = [] then
    match m.streamDone, m.pendingDonePatch with
    | true, some status =>
      { m.stopTypewriter with
        state := withStatus status m.state
        streamDone := false
        pendingDonePatch := none }
    | _, _ => m.stopTypewriter
  else
    let batch := max 1 ((m.charQueue.length + 3) / 4)
    { m with
      state := { m.state with
        content := m.state.content ++ m.charQueue.take batch
        streamingPhase := some .answer }
      charQueue := m.charQueue.drop batch }

def flushQueue (m : Manager) : Manager :=
  if m.charQueue = [] then m
  else
    { m.stopTypewriter with
      state := { m.state with content := m.state.content ++ m.charQueue }
      charQueue := [] }

def finishWhenDrained (m : Manager) (status : Status) : Manager :=
  let m := { m with streamDone := true, pendingDonePatch := some status }
  if m.charQueue = [] then m.drainQueue else m

/-- `setState` with `immediate`. -/
def setStateNow (m : Manager) (patch : ChatStreamState → ChatStreamState) : Manager :=
  { (m.setState patch).flushQueue with streamDone := false, pendingDonePatch := none }

def fail (m : Manager) (patch : ChatStreamState → ChatStreamState) : Manager :=
  if m.state.status ≠ .streaming then m else m.setStateNow fun s => patch (withStatus .error s)

/-- The content and the blocks with the `n`-th tool's result in its block; the blocks after it move
by what went in. -/
def withToolOutcome (m : Manager) (n : ℕ) (result access : Text) : Text × List ToolBlock :=
  let content := m.state.content
  match m.toolBlocks[n]? with
  | some ⟨start, some resultAt⟩ =>
    let filled := withToolAccess (withToolResult content resultAt result) start access
    let moved (pos : ℕ) : ℕ := pos + filled.length - content.length
    (filled, m.toolBlocks.mapIdx fun i other =>
      if i = n then ⟨start, none⟩
      else if other.start < start then other
      else ⟨moved other.start, other.resultAt.map moved⟩)
  | _ => (content, m.toolBlocks)

section Lines
variable (page : Page)

/-- What an event does, and whether it ends the turn's function. -/
def onEvent (m : Manager) : Event → Manager × Bool
  | .content text => ({ m with charQueue := m.charQueue ++ text }.startTypewriter, false)
  | .approvalRequired approvalId functionName cluster expiresAt =>
    (m.setState fun s => { s with
      toolCalls := withApproval approvalId functionName cluster expiresAt s.toolCalls
      streamingPhase := some .tools }, false)
  | .function call =>
    let m := m.flushQueue
    let block := buildToolCallBlock page (string page call.function) call.args
    let content := appendToolBlock m.state.content block
    let start := content.length - block.length
    let placed : ToolBlock := ⟨start, (lastIndexOf resultPlaceholder block).map (start + ·)⟩
    ({ m with toolBlocks := m.toolBlocks ++ [placed] }.setState fun s => { s with
      toolCalls := s.toolCalls ++ [call.toolCall]
      content
      streamingPhase := some .tools }, false)
  | .functionResult r =>
    let (content, toolBlocks) :=
      match resultTarget page m.state.toolCalls r.function r.callId with
      | some n => m.withToolOutcome n r.codeBlock r.accessText
      | none => (m.state.content, m.toolBlocks)
    ({ m with toolBlocks }.setState fun s => { s with
      toolCalls := withResult page s.toolCalls r
      content
      streamingPhase := some .tools }, false)
  | .error error errorKey errorArgs =>
    (m.fail fun s => { s with
      error := some error
      errorKey
      errorArgs := errorArgs.map .given }, true)

def onLine (m : Manager) (rawLine : Text) : Manager × Bool :=
  match lineOf page rawLine with
  | .nothing => (m, false)
  | .done => (m.finishWhenDrained .completed, true)
  | .event e => m.onEvent page e

/-- The lines of one read; those after the line that ends the function are not looked at. -/
def onLines (m : Manager) : List Text → Manager × Bool
  | [] => (m, false)
  | line :: lines =>
    match m.onLine page line with
    | (m, true) => (m, true)
    | (m, false) => onLines m lines

def streamCut : Text := ("The connection closed before the answer finished, so the text above may be " ++
  "incomplete. Ask again for the whole answer.").toList

def streamEmpty : Text := "The connection closed without an answer. Ask again.".toList

/-- The stream closed with `buffer` left of an unfinished line. -/
def onClose (m : Manager) (buffer : Text) : Manager :=
  if trim buffer = "data: [DONE]".toList then m.finishWhenDrained .completed
  else if m.state.content ≠ [] ∨ m.charQueue ≠ [] then
    m.fail fun s => { s with error := some streamCut, errorKey := some "streamCut".toList }
  else m.fail fun s => { s with error := some streamEmpty, errorKey := some "streamEmpty".toList }

end Lines

end Manager

section Turn

structure Reader where
  decoder : Decoder
  buffer : Text

def Reader.start : Reader := ⟨.start, []⟩

/-- The reader after a chunk, and the lines the chunk ends. -/
def Reader.read (r : Reader) (chunk : List UInt8) : Reader × List Text :=
  let (decoder, chars) := feed Decoder.step r.decoder chunk
  let lines := linesOf (r.buffer ++ chars)
  ({ decoder, buffer := lines.getLastD [] }, lines.dropLast)

/-- What a turn's function waits for. -/
inductive Stage
  | fetching
  | refused (status : ℕ)
  | reading (r : Reader)
  | finished

inductive Thrown
  | abortError
  | error (text : Text)

/-- What an await comes back with. -/
inductive Answer
  | response (status : ℕ) (hasBody : Bool)
  | text (body : Text)
  | chunk (bytes : List UInt8)
  | closed
  | thrown (e : Thrown)

/-- The start of a text, counted in UTF-16 code units. -/
def slice : ℕ → Text → Text
  | _, [] => []
  | n, c :: s =>
    let units := if c.toNat < 0x10000 then 1 else 2
    if units ≤ n then c :: slice (n - units) s else []

/-- What a refused request says: its status and the server's reason. -/
def refusal (status : ℕ) (body : Text) (s : ChatStreamState) : ChatStreamState :=
  let detail := (text? ((jsonParse body).bind fun d => field d "detail")).map (slice 300)
  match detail.filter (· ≠ []) with
  | some detail =>
    { s with
      error := some ("HTTP ".toList ++ (toString status).toList ++ ": ".toList ++ detail)
      errorKey := some "streamHttp".toList
      errorArgs := some (.refused status (some detail)) }
  | none =>
    { s with
      error := some ("HTTP ".toList ++ (toString status).toList)
      errorKey := some "streamHttpStatus".toList
      errorArgs := some (.refused status none) }

namespace Manager
variable (page : Page)

/-- The `catch` of a turn's function. -/
def onThrown (m : Manager) : Thrown → Manager
  | .abortError => m.setStateNow (withStatus .aborted)
  | .error text => m.fail fun s => { s with error := some text }

/-- The `finally` of a turn's function. -/
def finish (m : Manager) : Manager × Stage := ({ m with abortController := none }, .finished)

/-- A turn's function from one await to the next. -/
def resume (m : Manager) : Stage → Answer → Manager × Stage
  | .finished, _ => (m, .finished)
  | _, .thrown e => (m.onThrown e).finish
  | .fetching, .response status hasBody =>
    if status = 401 then (m.onThrown (.error "Error: Unauthorized".toList)).finish
    else if ¬(200 ≤ status ∧ status ≤ 299) then (m, .refused status)
    else if hasBody = false then (m.onThrown (.error "Error: No response body".toList)).finish
    else (m, .reading .start)
  | .refused status, .text body => (m.fail (refusal status body)).finish
  | .reading r, .chunk bytes =>
    let (r, lines) := r.read bytes
    match m.onLines page lines with
    | (m, true) => m.finish
    | (m, false) => (m, .reading r)
  | .reading r, .closed => (m.onClose r.buffer).finish
  | stage, _ => (m, stage)

/-- The failed turns of a conversation as its next question is sent. -/
def failedTurnsBefore (s : ChatStreamState) (sessionId : Text) (savedMessages : ℕ) :
    List FailedTurn :=
  if s.sessionId ≠ some sessionId then []
  else
    match s.userMessage with
    | none => s.failedTurns
    | some question =>
      if s.status ≠ .error ∧ s.status ≠ .aborted then s.failedTurns
      else s.failedTurns ++ [⟨question, s.content, s.toolCalls, s.error, s.errorKey, s.errorArgs,
        s.status = .aborted, s.savedBefore, savedMessages⟩]

/-- `startSessionChat` up to its `fetch`, with the controller of turn `turn`. -/
def begin (m : Manager) (turn : ℕ) (sessionId userMessage : Text) (savedMessages : ℕ) : Manager :=
  { m.stopTypewriter with
    abortController := some turn
    charQueue := []
    streamDone := false
    pendingDonePatch := none
    toolBlocks := []
    state :=
      { status := .streaming
        isStreaming := true
        sessionId := some sessionId
        userMessage := some userMessage
        content := []
        toolCalls := []
        streamingPhase := some .waiting
        error := none
        errorKey := none
        errorArgs := none
        savedBefore := savedMessages
        failedTurns := failedTurnsBefore m.state sessionId savedMessages } }

end Manager

end Turn

end ChatStream
