import Kubeast.Foundation.Transition
import Mathlib.Data.List.DropRight
import Mathlib.Logic.Function.Basic

/-! A terminal recording on its way to the object store
(`services/k8s-service-go/internal/recording/manager.go`): its spool file, the entry that the
manager keeps in memory, the stored parts and the row, between two flushes and over restarts. -/
namespace Kubeast.Recordings
open Transition

abbrev Bytes := List UInt8

def newline : UInt8 := 10

def partMaxBytes : ℕ := 8 <<< 20

/-- What a call to the store or the database comes to. -/
inductive Outcome
  | done
  | failed
  /-- It failed after it took effect. -/
  | failedAfter
deriving DecidableEq

inductive Status
  | recording
  | uploading
  | uploaded
  | interrupted
deriving DecidableEq

structure Row where
  uploadedBytes : ℕ
  parts : ℕ
  status : Status
deriving DecidableEq

/-- `tracked`: `active` says that the manager's map holds it. -/
structure Tracked where
  offset : ℕ
  parts : ℕ
  ended : Bool
  interrupted : Bool
  active : Bool
deriving DecidableEq

/-- The flush of `Run` and the flush of `Shutdown`. -/
inductive Flush
  | run
  | shutdown
deriving DecidableEq

/-- Where a flush stands in its turn at the recording. `ended` is what it read when the turn began. Nothing
keeps the entry from changing between two of its calls: `offset` is what the length of the buffer was worked
out from, `part` the number that is evaluated for the call of `PutPart`. -/
inductive Phase
  | idle
  | listed
  | opening (ended : Bool)
  | statting (ended : Bool)
  | reading (ended : Bool) (offset size : ℕ)
  | cut (ended : Bool) (offset : ℕ) (data : Bytes)
  | putting (ended : Bool) (offset part : ℕ) (data : Bytes)
  | stored (ended : Bool) (data : Bytes)
  | counted (ended : Bool)
  | saving (ended : Bool) (offset parts : ℕ)
  | uploaded (ended : Bool)
  | settling (interrupted : Bool)
  | closing
deriving DecidableEq

/-- A recording. `file` is what the terminal wrote in all, `spool` says that the file is still
there, `live` that the session is open, `ending` that the row is yet to hear that it ended, and
`closedOut` that a flush has closed the row. -/
structure Recording where
  file : Bytes
  spool : Bool
  live : Bool
  entry : Tracked
  ending : Bool
  store : ℕ → Option Bytes
  row : Row
  flush : Flush → Phase
  closedOut : Bool

/-- A session has started: its file holds the header. -/
def Recording.start (header : Bytes) : Recording :=
  ⟨header ++ [newline], true, true, ⟨0, 0, false, false, true⟩, false, fun _ => none, ⟨0, 0, .recording⟩,
    fun _ => .idle, false⟩

/-- The whole lines at the front. -/
def wholeLines (data : Bytes) : Bytes := data.rdropWhile (· ≠ newline)

/-- `ReadAt` into a buffer of `n` zeros: what the file has there, and past its end the zeros. -/
def readAt (file : Bytes) (offset n : ℕ) : Bytes := ((file.drop offset).take n).rightpad n 0

/-- What of the buffer is put as a part, if it is more than a broken line. -/
def cutPart (ended : Bool) (buf : Bytes) : Option Bytes :=
  if ended = false ∨ buf.length = partMaxBytes then
    if wholeLines buf = [] then none else some (wholeLines buf)
  else if buf = [] then none
  else some buf

inductive Step
  /-- The terminal writes a line. -/
  | write (line : Bytes)
  /-- The session's file is closed, the manager hears of it, and the row does. -/
  | close
  | ended
  | saveEnded (r : Outcome)
  /-- `Shutdown` comes upon the open session. -/
  | interrupt
  | list (w : Flush)
  | begin (w : Flush)
  | openFile (w : Flush)
  | stat (w : Flush)
  | read (w : Flush)
  | number (w : Flush)
  | putPart (w : Flush) (r : Outcome)
  | count (w : Flush)
  | updateRow (w : Flush)
  | rowUpdated (w : Flush) (r : Outcome)
  | check (w : Flush)
  | closeOut (w : Flush) (r : Outcome)
  | remove (w : Flush)
  /-- The process ends, and the next one looks for what it left, if its query goes through. -/
  | restart (found : Bool)

namespace Recording

def withPhase (s : Recording) (w : Flush) (p : Phase) : Recording := { s with flush := Function.update s.flush w p }

/-- `fileSize`. -/
def fileSize (s : Recording) : ℕ := if s.spool then s.file.length else 0

def putPart (s : Recording) (part : ℕ) (data : Bytes) : Recording :=
  { s with store := Function.update s.store part (some data) }

def countPart (s : Recording) (data : Bytes) : Recording :=
  { s with entry := { s.entry with offset := s.entry.offset + data.length, parts := s.entry.parts + 1 } }

/-- The row of a recording whose part has been stored. -/
def saveRow (s : Recording) (ended : Bool) (offset parts : ℕ) : Recording :=
  { s with
    row := ⟨offset, parts, if s.row.status = .recording then (if ended then .uploading else .recording)
      else s.row.status⟩ }

/-- Whether a flush that is through with the parts closes the recording. -/
def closes (s : Recording) (w : Flush) : Bool := s.flush w = .uploaded true && s.fileSize ≤ s.entry.offset

def closeRow (s : Recording) (interrupted : Bool) : Recording :=
  { s with
    row := { s.row with status := if interrupted then .interrupted else .uploaded }
    closedOut := true }

def removeSpool (s : Recording) : Recording :=
  { s with spool := false, entry := { s.entry with active := false } }

/-- `recover` of the next process. -/
def restart (s : Recording) (found : Bool) : Recording :=
  { s with
    live := false
    ending := false
    flush := fun _ => .idle
    entry := ⟨s.row.uploadedBytes, s.row.parts, true, s.row.status = .recording,
      found && s.spool && (s.row.status = .recording || s.row.status = .uploading)⟩
    row := { s.row with
      status := if found ∧ s.spool = false ∧ (s.row.status = .recording ∨ s.row.status = .uploading)
        then .interrupted else s.row.status } }

end Recording

def step (s : Recording) : Step → Recording
  | .write line => if s.live then { s with file := s.file ++ (line ++ [newline]) } else s
  | .close => { s with live := false }
  | .ended =>
      if s.live = false ∧ s.entry.active = true ∧ s.entry.ended = false then
        { s with entry := { s.entry with ended := true }, ending := true }
      else s
  | .saveEnded r =>
      if s.ending = true then
        { s with
          ending := false
          row := if r = .failed then s.row else { s.row with status := .uploading } }
      else s
  | .interrupt =>
      if s.entry.active = true ∧ s.entry.ended = false then
        { s with entry := { s.entry with interrupted := true } }
      else s
  | .list w => if s.flush w = .idle ∧ s.entry.active = true then s.withPhase w .listed else s
  | .begin w => if s.flush w = .listed then s.withPhase w (.opening s.entry.ended) else s
  | .openFile w =>
      match s.flush w with
      | .opening ended => s.withPhase w (if s.spool then .statting ended else .idle)
      | _ => s
  | .stat w =>
      match s.flush w with
      | .statting ended =>
          s.withPhase w (if s.file.length ≤ s.entry.offset then .uploaded ended
            else .reading ended s.entry.offset s.file.length)
      | _ => s
  | .read w =>
      match s.flush w with
      | .reading ended offset size =>
          match cutPart ended (readAt s.file s.entry.offset (min (size - offset) partMaxBytes)) with
          | some data => s.withPhase w (.cut ended offset data)
          | none => s.withPhase w (.uploaded ended)
      | _ => s
  | .number w =>
      match s.flush w with
      | .cut ended offset data => s.withPhase w (.putting ended offset s.entry.parts data)
      | _ => s
  | .putPart w r =>
      match s.flush w with
      | .putting ended _ part data =>
          match r with
          | .done => (s.putPart part data).withPhase w (.stored ended data)
          | .failed => s.withPhase w .idle
          | .failedAfter => (s.putPart part data).withPhase w .idle
      | _ => s
  | .count w =>
      match s.flush w with
      | .stored ended data =>
          (s.countPart data).withPhase w (.counted ended)
      | _ => s
  | .updateRow w =>
      match s.flush w with
      | .counted ended => s.withPhase w (.saving ended s.entry.offset s.entry.parts)
      | _ => s
  | .rowUpdated w r =>
      match s.flush w with
      | .saving ended offset parts =>
          match r with
          | .done => (s.saveRow ended offset parts).withPhase w (.statting ended)
          | .failed => s.withPhase w .idle
          | .failedAfter => (s.saveRow ended offset parts).withPhase w .idle
      | _ => s
  | .check w =>
      match s.flush w with
      | .uploaded _ => s.withPhase w (if s.closes w then .settling s.entry.interrupted else .idle)
      | _ => s
  | .closeOut w r =>
      match s.flush w with
      | .settling interrupted => (if r = .failed then s else s.closeRow interrupted).withPhase w .closing
      | _ => s
  | .remove w =>
      match s.flush w with
      | .closing => s.removeSpool.withPhase w .idle
      | _ => s
  | .restart found => s.restart found

/-- The stored parts are the file, cut at the ends of lines, and the row counts them all. -/
def Recording.Uploaded (s : Recording) : Prop :=
  ∃ parts : List Bytes, (∀ i, s.store i = parts[i]?) ∧ parts.length = s.row.parts ∧ parts.flatten = s.file ∧
    ∀ data ∈ parts.dropLast, data.getLast? = some newline

end Kubeast.Recordings

/-! How a spool file is cut into parts, and what so many stored parts hold of it. -/
namespace Kubeast.Recordings

variable {e : Bool} {data buf rest file more : Bytes} {store : ℕ → Option Bytes} {n offset offset' parts parts' : ℕ}

section Cuts

theorem wholeLines_front (data : Bytes) : wholeLines data <+: data := List.rdropWhile_prefix _ _

theorem wholeLines_last (h : wholeLines data ≠ []) : (wholeLines data).getLast? = some newline := by
  have hlast : (wholeLines data).getLast h = newline := by
    by_contra hne
    exact List.rdropWhile_last_not (· ≠ newline) data h (decide_eq_true hne)
  rw [List.getLast?_eq_some_getLast h, hlast]

theorem cutPart_front (h : cutPart e buf = some data) : data <+: buf := by
  unfold cutPart at h
  split_ifs at h
  · obtain rfl := Option.some.inj h
    exact wholeLines_front _
  · obtain rfl := Option.some.inj h
    exact List.prefix_rfl

theorem cutPart_pos (h : cutPart e buf = some data) : 0 < data.length := by
  rw [List.length_pos_iff]
  unfold cutPart at h
  split_ifs at h with _ hlines hne
  · exact Option.some.inj h ▸ hlines
  · exact Option.some.inj h ▸ hne

/-- The next part of what is not uploaded yet, where nothing comes in between. -/
def nextPart (ended : Bool) (rest : Bytes) : Option Bytes := cutPart ended (rest.take partMaxBytes)

theorem nextPart_nil : nextPart e [] = none := by cases e <;> rfl

theorem nextPart_pos (h : nextPart e rest = some data) : 0 < data.length ∧ data.length ≤ rest.length :=
  ⟨cutPart_pos h, ((cutPart_front h).trans (List.take_prefix _ _)).length_le⟩

/-- A part is the next one: the front of what is not uploaded yet, and once the session has ended as much of it
as a part holds. -/
structure Next (rest : Bytes) (e : Bool) (data : Bytes) : Prop where
  front : data <+: rest
  last : data.getLast? = some newline
  cut : e = true → nextPart true rest = some data

/-- The part that is cut from a buffer is the next one, of a file of whole lines. -/
theorem next_of_cutPart (h : cutPart e buf = some data) (hbuf : buf <+: rest)
    (hrest : rest ≠ [] → rest.getLast? = some newline) (hall : e = true → buf = rest.take partMaxBytes) :
    Next rest e data := by
  refine ⟨(cutPart_front h).trans hbuf, ?_, ?_⟩
  · unfold cutPart at h
    split_ifs at h with hwhole hlines hne
    · obtain rfl := Option.some.inj h
      exact wholeLines_last hlines
    · obtain rfl := Option.some.inj h
      simp only [not_or, Bool.not_eq_false] at hwhole
      have htake := hall hwhole.1
      have hshort : rest.length ≤ partMaxBytes := by
        have hlength := congrArg List.length htake
        rw [List.length_take] at hlength
        omega
      rw [List.take_of_length_le hshort] at htake
      subst htake
      exact hrest hne
  · rintro rfl
    rw [nextPart, ← hall rfl]
    exact h

/-- Within the file, what is read is what it has there. -/
theorem readAt_eq (h : offset + n ≤ file.length) : readAt file offset n = (file.drop offset).take n := by
  have hlength : ((file.drop offset).take n).length = n := by
    rw [List.length_take, List.length_drop]
    omega
  rw [readAt, List.rightpad, hlength, Nat.sub_self, List.replicate_zero, List.append_nil]

end Cuts

/-- How many parts the rest of a file is cut into once the session has ended. -/
def cuts (rest : Bytes) : ℕ :=
  match h : nextPart true rest with
  | none => 0
  | some data => cuts (rest.drop data.length) + 1
termination_by rest.length
decreasing_by
  have hpos := nextPart_pos h
  rw [List.length_drop]
  omega

/-- So many parts hold so many bytes of the file, in order and in whole lines. -/
def Holds (store : ℕ → Option Bytes) (file : Bytes) (offset parts : ℕ) : Prop :=
  ∃ ps : List Bytes, ps.length = parts ∧ (∀ i < parts, store i = ps[i]?) ∧ ps.flatten = file.take offset ∧
    offset ≤ file.length ∧ ∀ data ∈ ps, data.getLast? = some newline

section Stored

theorem cuts_nil : cuts [] = 0 := by
  rw [cuts]
  split
  · rfl
  · next h =>
    rw [nextPart_nil] at h
    cases h

theorem cuts_of_some (h : nextPart true rest = some data) : cuts rest = cuts (rest.drop data.length) + 1 := by
  rw [cuts]
  split
  · next hnone =>
    rw [h] at hnone
    cases hnone
  · next hsome =>
    rw [h] at hsome
    rw [Option.some.inj hsome]

theorem holds_zero : Holds store file 0 0 := ⟨[], rfl, by simp, by simp, Nat.zero_le _, by simp⟩

theorem Holds.write (h : Holds store file offset parts) : Holds store (file ++ more) offset parts := by
  obtain ⟨ps, hlen, hstore, hflat, hle, hlines⟩ := h
  refine ⟨ps, hlen, hstore, ?_, ?_, hlines⟩
  · rw [hflat, List.take_append_of_le_length hle]
  · rw [List.length_append]
    omega

/-- A part stored past those counted changes none of them. -/
theorem Holds.put (h : Holds store file offset parts) (hn : parts ≤ n) :
    Holds (Function.update store n (some data)) file offset parts := by
  obtain ⟨ps, hlen, hstore, hflat, hle, hlines⟩ := h
  refine ⟨ps, hlen, fun i hi => ?_, hflat, hle, hlines⟩
  rw [Function.update_of_ne (by omega), hstore i hi]

theorem Holds.count (h : Holds store file offset parts) (hstored : store parts = some data)
    (hnext : data <+: file.drop offset) (hlast : data.getLast? = some newline) :
    Holds store file (offset + data.length) (parts + 1) := by
  obtain ⟨ps, hlen, hstore, hflat, hle, hlines⟩ := h
  obtain ⟨rest, hrest⟩ := hnext
  refine ⟨ps ++ [data], by simp [hlen], fun i hi => ?_, ?_, ?_, ?_⟩
  · rcases Nat.lt_succ_iff_lt_or_eq.mp hi with hi | rfl
    · rw [hstore i hi, List.getElem?_append_left (by omega)]
    · rw [hstored, List.getElem?_append_right (by omega), hlen, Nat.sub_self]
      rfl
  · have hdata : (file.drop offset).take data.length = data := by rw [← hrest, List.take_left]
    rw [List.flatten_append, hflat, List.flatten_singleton, List.take_add, hdata]
  · have hcount := congrArg List.length hrest
    rw [List.length_append, List.length_drop] at hcount
    omega
  · rw [List.forall_mem_append, List.forall_mem_singleton]
    exact ⟨hlines, hlast⟩

/-- Fewer parts hold the front of what more parts hold. -/
theorem Holds.le (h : Holds store file offset parts) (h' : Holds store file offset' parts')
    (hparts : parts ≤ parts') : ∃ more : List Bytes, more.length = parts' - parts ∧
      offset + more.flatten.length = offset' ∧ ∀ data ∈ more, data.getLast? = some newline := by
  obtain ⟨ps, hlen, hstore, hflat, hle, -⟩ := h
  obtain ⟨ps', hlen', hstore', hflat', hle', hlines'⟩ := h'
  have hfront : ps = ps'.take parts := by
    apply List.ext_getElem?
    intro i
    rw [List.getElem?_take]
    split
    · next hi => rw [← hstore i hi, hstore' i (by omega)]
    · next hi => rw [List.getElem?_eq_none (by omega)]
  refine ⟨ps'.drop parts, by simp [hlen'], ?_, fun data hdata => hlines' data (List.mem_of_mem_drop hdata)⟩
  have hcount := congrArg List.length hflat
  have hcount' := congrArg List.length hflat'
  rw [List.length_take, Nat.min_eq_left hle] at hcount
  rw [← List.take_append_drop parts ps', ← hfront, List.flatten_append, List.length_append, List.length_take,
    Nat.min_eq_left hle', hcount] at hcount'
  exact hcount'

theorem Holds.unique (h : Holds store file offset parts) (h' : Holds store file offset' parts) : offset = offset' := by
  obtain ⟨more, hlen, hoffset, -⟩ := h.le h' (Nat.le_refl parts)
  rw [Nat.sub_self, List.length_eq_zero_iff] at hlen
  simpa [hlen] using hoffset

theorem Holds.lt (h : Holds store file offset parts) (h' : Holds store file offset' parts') (hparts : parts < parts') :
    offset < offset' := by
  obtain ⟨more, hlen, hoffset, hlines⟩ := h.le h' (Nat.le_of_lt hparts)
  obtain ⟨data, more, rfl⟩ := List.exists_cons_of_length_pos (l := more) (by omega)
  have hpos : data ≠ [] := by
    rintro rfl
    have hlast := hlines [] List.mem_cons_self
    cases hlast
  have hcount := List.length_pos_of_ne_nil hpos
  rw [List.flatten_cons, List.length_append] at hoffset
  omega

end Stored

end Kubeast.Recordings
