import Kubeast.Foundation.Text
import Kubeast.Foundation.Transition
import Mathlib.Data.List.Sort

/-! The history of a chat and its running summary (`services/ai-service/app/services/ai/history.py`,
`get_messages` of `database.py`, `session_chat_stream` of `streaming.py`): the last messages go to
the model as they were said, and what left that window is folded into notes, one summarizer call a
time. -/
namespace Kubeast.ChatSummary
open Transition

inductive Role
  | user
  | assistant
  | tool
deriving DecidableEq

structure Message where
  id : ℕ
  createdAt : ℕ
  role : Role
deriving DecidableEq

structure Settings where
  chatHistoryMessages : ℤ
  chatSummaryMaxChars : ℤ
  chatSummaryEnabled : Bool

def window (c : Settings) : ℕ :=
  (max 2 (if c.chatHistoryMessages = 0 then 10 else c.chatHistoryMessages)).toNat

def maxChars (c : Settings) : ℕ :=
  (max 200 (if c.chatSummaryMaxChars = 0 then 1500 else c.chatSummaryMaxChars)).toNat

def noteCap (c : Settings) : ℕ := max 120 (maxChars c / 6)

/-- The older messages and the recent window. -/
def splitHistory (c : Settings) (history : List Message) : List Message × List Message :=
  if history.length ≤ window c then ([], history)
  else (history.take (history.length - window c), history.drop (history.length - window c))

section GetMessages

/-- `ORDER BY created_at DESC, id DESC`. -/
def newestFirst (a b : Message) : Bool :=
  b.createdAt < a.createdAt || (a.createdAt = b.createdAt && b.id ≤ a.id)

def getMessages (messages : List Message) (limit : ℕ) : List Message :=
  ((messages.mergeSort newestFirst).take limit).reverse

/-- The `limit` a caller leaves out. -/
def defaultLimit : ℕ := 100

end GetMessages

/-- `str.isspace`. -/
def isSpace (c : Char) : Bool := Text.isSpace c || (0x1c ≤ c.toNat && c.toNat ≤ 0x1f)

def rstrip (s : List Char) : List Char := s.rdropWhile isSpace

/-- What `_ask` returns of an answer: one stripped, masked and cut line of text. -/
structure Note where
  text : List Char
  stripped : ∃ c rest, text = c :: rest ∧ isSpace c = false

structure Entry where
  uptoId : ℕ
  messages : ℕ
  text : List Char
deriving DecidableEq

structure Summary where
  uptoId : ℕ
  text : List Char
  messages : ℕ
  entries : List Entry
deriving DecidableEq

/-- `_join`. -/
def join (entries : List Entry) : List Char :=
  ['\n'].intercalate (entries.map fun e => '-' :: ' ' :: e.text)

def load (raw : Option Summary) : Option Summary :=
  match raw with
  | none => none
  | some raw =>
      if raw.text = [] then none
      else if raw.entries.filter (fun e => e.text ≠ []) = [] then
        some { raw with entries := [⟨raw.uptoId, raw.messages, raw.text⟩] }
      else some { raw with entries := raw.entries.filter fun e => e.text ≠ [] }

/-- The greatest id of some messages. -/
def lastId (messages : List Message) : ℕ := messages.foldr (fun m => max m.id) 0

/-- What the notes do not cover yet. -/
def unnoted (current : Option Summary) (older : List Message) : List Message :=
  older.filter fun m => current.all fun s => s.uptoId < m.id

/-- A text over the limit ends in an ellipsis. -/
def cut (limit : ℕ) (text : List Char) : List Char :=
  if limit < text.length then rstrip (text.take limit) ++ [' ', '…'] else text

/-- The oldest half of the notes as one, written by hand where the model fails. -/
def mergeOldest (c : Settings) (oldest : List Entry) (merged : Except String Note) : Entry where
  uptoId := (oldest.getLast?.map Entry.uptoId).getD 0
  messages := (oldest.map Entry.messages).sum
  text := match merged with
    | .ok note => note.text
    | .error _ => ([' ', '/', ' '].intercalate
        (oldest.map fun e => rstrip (e.text.take (noteCap c / 2)))).take (noteCap c * 2)

/-- The notes, the oldest half merged when they are over the limit. -/
def compact (c : Settings) (entries : List Entry) (merged : Except String Note) : List Entry :=
  if maxChars c < (join entries).length ∧ 1 < entries.length then
    mergeOldest c (entries.take ((entries.length + 1) / 2)) merged :: entries.drop ((entries.length + 1) / 2)
  else entries

/-- The summary with one more note. -/
def withNote (c : Settings) (current : Option Summary) (older : List Message) (note : Note)
    (merged : Except String Note) : Summary where
  uptoId := lastId older
  text := cut (maxChars c) (join (compact c
    ((current.map Summary.entries).getD [] ++
      [⟨lastId (unnoted current older), (unnoted current older).length, note.text⟩]) merged))
  messages := (current.map Summary.messages).getD 0 + (unnoted current older).length
  entries := compact c ((current.map Summary.entries).getD [] ++
    [⟨lastId (unnoted current older), (unnoted current older).length, note.text⟩]) merged

structure Outcome where
  summary : Option Summary
  created : Bool
  newMessages : ℕ
  error : Option String
deriving DecidableEq

/-- What the two summarizer calls of a turn come to, and what is left of the stored summary. -/
def ensureSummary (c : Settings) (state : Option Summary) (older : List Message)
    (note merged : Except String Note) : Outcome × Option Summary :=
  if older = [] then (⟨none, false, 0, none⟩, state)
  else if load state ≠ none ∧ unnoted (load state) older = [] then
    (⟨load state, false, 0, none⟩, state)
  else
    match note with
    | .error e => (⟨load state, false, (unnoted (load state) older).length, some e⟩, state)
    | .ok note =>
        (⟨some (withNote c (load state) older note merged), true, (unnoted (load state) older).length, none⟩,
          some (withNote c (load state) older note merged))

/-- A chat session: its messages, each newer than those before it, the summary of its context's
state, and the messages each successful note call was about. -/
structure Session where
  messages : List Message
  ordered : messages.Pairwise fun a b => a.id < b.id ∧ a.createdAt ≤ b.createdAt
  summary : Option Summary
  noted : List (List Message)

namespace Session

def empty : Session := ⟨[], List.Pairwise.nil, none, []⟩

/-- The messages the model may see. -/
def inHistory (m : Message) : Bool := m.role = .user || m.role = .assistant

/-- A message saved some ids and some time after the last one. -/
def newMessage (s : Session) (ids time : ℕ) (role : Role) : Message :=
  ⟨(s.messages.getLast?.map Message.id).elim ids (· + 1 + ids),
    (s.messages.getLast?.map Message.createdAt).getD 0 + time, role⟩

theorem newMessage_newer (s : Session) (ids time : ℕ) (role : Role) {m : Message} (hm : m ∈ s.messages) :
    m.id < (s.newMessage ids time role).id ∧ m.createdAt ≤ (s.newMessage ids time role).createdAt := by
  rcases List.eq_nil_or_concat' s.messages with hnil | ⟨older, last, hmessages⟩
  · rw [hnil] at hm
    cases hm
  · have hlast : s.messages.getLast? = some last := by rw [hmessages, List.getLast?_concat]
    have hle : m.id ≤ last.id ∧ m.createdAt ≤ last.createdAt := by
      rw [hmessages, List.mem_append, List.mem_singleton] at hm
      rcases hm with hm | rfl
      · have hordered := s.ordered
        rw [hmessages, List.pairwise_append] at hordered
        obtain ⟨hid, htime⟩ := hordered.2.2 m hm last List.mem_cons_self
        exact ⟨Nat.le_of_lt hid, htime⟩
      · exact ⟨Nat.le_refl _, Nat.le_refl _⟩
    simp only [newMessage, hlast, Option.map_some, Option.elim_some, Option.getD_some]
    omega

def add (s : Session) (ids time : ℕ) (role : Role) : Session :=
  { s with
    messages := s.messages ++ [s.newMessage ids time role]
    ordered := by
      rw [List.pairwise_append]
      refine ⟨s.ordered, List.pairwise_singleton _ _, fun m hm x hx => ?_⟩
      rw [List.mem_singleton.mp hx]
      exact s.newMessage_newer ids time role hm }

/-- What a turn reads of the history, without the recent window. -/
def olderHistory (c : Settings) (s : Session) : List Message :=
  (splitHistory c ((getMessages s.messages defaultLimit).filter inHistory)).1

/-- The part of a turn that keeps the summary. -/
def turn (c : Settings) (s : Session) (note merged : Except String Note) : Outcome × Session :=
  if s.olderHistory c ≠ [] ∧ c.chatSummaryEnabled = true then
    let r := ensureSummary c s.summary (s.olderHistory c) note merged
    (r.1, { s with
      summary := r.2
      noted := if r.1.created then s.noted ++ [unnoted (load s.summary) (s.olderHistory c)] else s.noted })
  else (⟨none, false, 0, none⟩, s)

end Session

inductive Step
  | add (ids time : ℕ) (role : Role)
  | turn (note merged : Except String Note)

def step (c : Settings) (s : Session) : Step → Session
  | .add ids time role => s.add ids time role
  | .turn note merged => (s.turn c note merged).2

end Kubeast.ChatSummary
