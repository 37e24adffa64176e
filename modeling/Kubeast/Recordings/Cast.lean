import Kubeast.Foundation.Runes
import Kubeast.Foundation.Transition
import Mathlib.Data.Int.Notation
import Kubeast.Recordings.Manager
import Mathlib.Data.List.Induction

/-! One recording in progress (`services/k8s-service-go/internal/recording/cast.go`): an asciicast file,
with a header line and an event a line. -/
namespace Kubeast.Recordings.Cast
open Utf8 Transition

def newline : UInt8 := 10

structure CastHeader where
  version : ℕ
  width : ℤ
  height : ℤ
  timestamp : ℤ
  title : String
  env : List (String × String)

/-- The encoder: a header, and an event at some microseconds, with its code and its text. -/
structure Marshal where
  header : CastHeader → Bytes
  event : ℤ → String → Bytes → Bytes

/-- How a write ends: with all of it in the file, or with an error after so many bytes. -/
abbrev Write := Option (ℕ × String)

/-- A `Session`; `file` is what stands in its file. -/
structure Session where
  file : Bytes
  written : ℕ
  max : ℤ
  truncated : Bool
  pending : Bytes
  closed : Bool

variable (marshal : Marshal)

/-- `writeLine`, and the error of the write. -/
def writeLine (s : Session) (b : Bytes) (w : Write) : Session × Option String :=
  let line := b ++ [newline]
  match w with
  | none => ({ s with file := s.file ++ line, written := s.written + line.length }, none)
  | some (n, err) =>
    ({ s with file := s.file ++ line.take n, written := s.written + (line.take n).length }, some err)

def castHeader (width height timestamp : ℤ) (title : String) : CastHeader where
  version := 2
  width := if width ≤ 0 then 80 else width
  height := if height ≤ 0 then 24 else height
  timestamp := timestamp
  title := title
  env := [("TERM", "xterm-256color")]

/-- `newSession`, none where the header is not written. -/
def newSession (header : CastHeader) (max : ℤ) (w : Write) : Option Session :=
  match writeLine ⟨[], 0, max, false, [], false⟩ (marshal.header header) w with
  | (s, none) => some s
  | (_, some _) => none

/-- The loop of `incompleteTail` from its `i`th pass on, with so many left. -/
def tailFrom (b : Bytes) (i : ℕ) : ℕ → ℕ
  | 0 => 0
  | left + 1 =>
    if b.length < i then 0
    else match b.drop (b.length - i) with
      | [] => 0
      | c :: rest =>
        if c < 0x80 then 0
        else if 0xC0 ≤ c then if fullRune (c :: rest) then 0 else i
        else tailFrom b (i + 1) left

def incompleteTail (b : Bytes) : ℕ := tailFrom b 1 3

def sizeLimit : String := "size limit reached; recording stopped"

def truncate (s : Session) (why : String) (t : ℤ) (w : Write) : Session :=
  (writeLine { s with truncated := true } (marshal.event t "m" (bytes ("kubeast: " ++ why))) w).1

/-- What a call holds of the terminal's output before it is cut. -/
def Session.data (s : Session) (p : Bytes) : Bytes := s.pending ++ p

/-- What is handed to the encoder, and what is carried over. -/
def payload (data : Bytes) : Bytes := data.take (data.length - incompleteTail data)

def carried (data : Bytes) : Bytes := data.drop (data.length - incompleteTail data)

/-- `Output` with the times it reads and how its writes end. -/
def output (s : Session) (p : Bytes) (t t' : ℤ) (w w' : Write) : Session :=
  if p = [] then s
  else if s.closed || s.truncated then s
  else
    let data := s.data p
    let s := { s with pending := carried data }
    if payload data = [] then s
    else
      let ev := marshal.event t "o" (payload data)
      if s.max < s.written + ev.length + 1 then truncate marshal s sizeLimit t' w'
      else match writeLine s ev w with
        | (s, none) => s
        | (s, some err) => truncate marshal s ("write error: " ++ err) t' w'

/-- `Close`, the callback aside. -/
def close (s : Session) (t : ℤ) (w : Write) : Session :=
  if s.closed then s
  else
    let s := { s with closed := true }
    if 0 < s.pending.length ∧ s.truncated = false then (writeLine s (marshal.event t "o" s.pending) w).1 else s

inductive Call
  | output (p : Bytes) (t t' : ℤ) (w w' : Write)
  | close (t : ℤ) (w : Write)

def step (s : Session) : Call → Session
  | .output p t t' w w' => output marshal s p t t' w w'
  | .close t w => close marshal s t w

end Kubeast.Recordings.Cast

/-! What a recording shows of a stream is the same however the stream was cut into calls. -/
namespace Kubeast.Recordings.Cast
open Utf8 Transition

section Tail
variable {b pre part conts r : Bytes} {c : UInt8} {i n : ℕ}

theorem tailFrom_le (hi : 0 < i) : tailFrom b i n < i + n ∧ tailFrom b i n ≤ b.length := by
  induction n generalizing i with
  | zero => exact ⟨hi, Nat.zero_le _⟩
  | succ n ih =>
    obtain ⟨hnext, hlen⟩ := @ih (i + 1) (Nat.succ_pos i)
    unfold tailFrom
    split_ifs with hout
    · exact ⟨by omega, Nat.zero_le _⟩
    cases b.drop (b.length - i) with
    | nil => exact ⟨by dsimp only; omega, Nat.zero_le _⟩
    | cons c rest =>
      dsimp only
      split_ifs <;> omega

theorem incompleteTail_le (b : Bytes) : incompleteTail b ≤ 3 ∧ incompleteTail b ≤ b.length := by
  obtain ⟨hlt, hle⟩ := @tailFrom_le b 1 3 Nat.one_pos
  exact ⟨Nat.le_of_lt_succ hlt, hle⟩

theorem payload_append_carried (data : Bytes) : payload data ++ carried data = data := List.take_append_drop _ _

theorem length_carried (data : Bytes) : (carried data).length = incompleteTail data := by
  have hle := (incompleteTail_le data).2
  rw [carried, List.length_drop]
  omega

theorem drop_last : (pre ++ c :: part).drop ((pre ++ c :: part).length - (part.length + 1)) = c :: part :=
  List.drop_left' (by simp)

theorem tailFrom_cons : tailFrom (pre ++ c :: part) (part.length + 1) (n + 1) =
    if c < 0x80 then 0
    else if 0xC0 ≤ c then if fullRune (c :: part) then 0 else part.length + 1
    else tailFrom (pre ++ c :: part) (part.length + 2) n := by
  have hin : ¬(pre ++ c :: part).length < part.length + 1 := by
    rw [List.length_append, List.length_cons]
    omega
  rw [tailFrom, if_neg hin, drop_last]

/-- The bytes within a sequence are passed over. -/
theorem tailFrom_continues (h : ∀ x ∈ conts, Continues x) (hn : conts.length ≤ n) :
    tailFrom (pre ++ conts ++ part) (part.length + 1) n =
      tailFrom (pre ++ conts ++ part) (conts.length + part.length + 1) (n - conts.length) := by
  induction conts using List.reverseRecOn generalizing part n with
  | nil => simp
  | append_singleton conts x ih =>
    obtain ⟨n, rfl⟩ : ∃ k, n = k + 1 := ⟨n - 1, by simp at hn; omega⟩
    obtain ⟨hlow, hhigh⟩ := h x (by simp)
    have hlead : ¬(0xC0 : UInt8) ≤ x := UInt8.not_le.mpr (UInt8.lt_of_le_of_lt hhigh (by decide))
    have hassoc : pre ++ (conts ++ [x]) ++ part = pre ++ conts ++ x :: part := by simp
    have hrest := @ih (x :: part) n (fun y hy => h y (by simp [hy])) (by simpa using hn)
    rw [hassoc, tailFrom_cons, if_neg (UInt8.not_lt.mpr hlow), if_neg hlead]
    rw [List.length_cons] at hrest
    rw [hrest, List.length_append, List.length_singleton, Nat.add_sub_add_right]
    congr 1
    omega

/-- Where the last sequence begins, it is complete or it is the tail. -/
theorem incompleteTail_lead (hc : 0xC0 ≤ c) (h : ∀ x ∈ conts, Continues x) (hlen : conts.length ≤ 2) :
    incompleteTail (pre ++ c :: conts) = if fullRune (c :: conts) then 0 else conts.length + 1 := by
  have hascii : ¬c < 0x80 := UInt8.not_lt.mpr (UInt8.le_trans (by decide) hc)
  obtain ⟨n, hn⟩ : ∃ k, 3 - conts.length = k + 1 := ⟨2 - conts.length, by omega⟩
  have hskip := @tailFrom_continues (pre ++ [c]) [] conts 3 h (by omega)
  rw [List.append_nil, List.append_assoc, List.singleton_append, List.length_nil, hn] at hskip
  rw [incompleteTail, hskip, tailFrom_cons, if_neg hascii, if_pos hc]

theorem incompleteTail_encoded (h : Encoded r) : incompleteTail (pre ++ r) = 0 := by
  have hfull := fullRune_of_encoded h
  have hlen := length_le_four h
  cases h with
  | @ascii c h => exact (@tailFrom_cons pre [] c 2).trans (if_pos h)
  | @multi c b rest hc hsize hlow hhigh hb hrest =>
    have hcont : ∀ x ∈ b :: rest, Continues x := List.forall_mem_cons.mpr ⟨hb, hrest⟩
    rcases Nat.lt_or_ge (b :: rest).length 3 with hlt | hge
    · rw [incompleteTail_lead hc hcont (Nat.le_of_lt_succ hlt), if_pos hfull]
    · have hthree : (b :: rest).length = 3 := Nat.le_antisymm (Nat.le_of_succ_le_succ hlen) hge
      have hskip := @tailFrom_continues (pre ++ [c]) [] (b :: rest) 3 hcont (Nat.le_of_eq hthree)
      rw [List.append_nil, List.append_assoc, List.singleton_append, List.length_nil, hthree] at hskip
      exact hskip

theorem incompleteTail_part (h : Encoded r) (hpart : part <+: r) (hlt : part.length < r.length) (hne : part ≠ []) :
    incompleteTail (pre ++ part) = part.length := by
  have hfull := not_fullRune h hpart hlt
  have hlen := length_le_four h
  obtain ⟨c, conts, rfl⟩ := List.exists_cons_of_ne_nil hne
  cases h with
  | ascii => simp at hlt
  | multi hc hsize hlow hhigh hb hrest =>
    obtain ⟨rfl, hconts⟩ := List.cons_prefix_cons.mp hpart
    have hcont := fun x hx => List.forall_mem_cons.mpr ⟨hb, hrest⟩ x (hconts.subset hx)
    rw [incompleteTail_lead hc hcont (by simp only [List.length_cons] at hlt hlen; omega), hfull]
    rfl

/-- What is carried over of whole characters and a part of the next is that part. -/
theorem payload_splits {done rest : List Char} (h : Begins part rest) :
    payload (encode done ++ part) = encode done ∧ carried (encode done ++ part) = part := by
  have htail : incompleteTail (encode done ++ part) = part.length := by
    by_cases hne : part = []
    · rw [hne, List.append_nil]
      cases done using List.reverseRecOn with
      | nil => rfl
      | append_singleton done c =>
        rw [encode_append]
        exact incompleteTail_encoded (by simpa [encode] using encoded_char c)
    · obtain ⟨c, -, -, hpart, hlt⟩ := h.resolve_left hne
      exact incompleteTail_part (encoded_char c) hpart hlt hne
  have hlen : (encode done ++ part).length - part.length = (encode done).length := by simp
  rw [payload, carried, htail, hlen]
  exact ⟨List.take_left, List.drop_left⟩

end Tail

variable (marshal : Marshal) {s : Session} {p : Bytes} {t t' : ℤ} {w w' : Write} {call : Call} {calls : List Call}

/-- The call is not refused early. -/
def Session.Takes (s : Session) (p : Bytes) : Prop := p ≠ [] ∧ s.closed = false ∧ s.truncated = false

instance : Decidable (s.Takes p) := by
  unfold Session.Takes
  infer_instance

/-- The call goes past the cap. -/
def PastCap (s : Session) (p : Bytes) (t : ℤ) : Prop :=
  s.Takes p ∧ payload (s.data p) ≠ [] ∧ s.max < s.written + (marshal.event t "o" (payload (s.data p))).length + 1

instance : Decidable (PastCap marshal s p t) := by
  unfold PastCap
  infer_instance

/-- The session once the call has carried a part over. -/
def Session.hold (s : Session) (p : Bytes) : Session := { s with pending := carried (s.data p) }

/-- What of a line a write leaves in the file. -/
def landed (line : Bytes) : Write → Bytes
  | none => line
  | some (n, _) => line.take n

def Session.put (s : Session) (x : Bytes) : Session :=
  { s with file := s.file ++ x, written := s.written + x.length }

def markerLine (why : String) (t : ℤ) : Bytes := marshal.event t "m" (bytes ("kubeast: " ++ why)) ++ [newline]

theorem writeLine_fst (s : Session) (b : Bytes) (w : Write) :
    (writeLine s b w).1 = s.put (landed (b ++ [newline]) w) := by
  rcases w with _ | ⟨n, err⟩ <;> rfl

theorem truncate_eq (s : Session) (why : String) (t : ℤ) (w : Write) : truncate marshal s why t w =
    { s with truncated := true }.put (landed (markerLine marshal why t) w) := writeLine_fst _ _ _

section Steps

theorem output_refused (h : ¬s.Takes p) : output marshal s p t t' w w' = s := by
  unfold output
  split_ifs with hp hs
  · rfl
  · rfl
  · rw [Bool.not_eq_true, Bool.or_eq_false_iff] at hs
    exact absurd ⟨hp, hs⟩ h

theorem output_taken (h : s.Takes p) : output marshal s p t t' w w' =
    if payload (s.data p) = [] then s.hold p
    else if s.max < s.written + (marshal.event t "o" (payload (s.data p))).length + 1 then
      truncate marshal (s.hold p) sizeLimit t' w'
    else match w with
      | none => (s.hold p).put (marshal.event t "o" (payload (s.data p)) ++ [newline])
      | some (n, err) =>
        truncate marshal ((s.hold p).put ((marshal.event t "o" (payload (s.data p)) ++ [newline]).take n))
          ("write error: " ++ err) t' w' := by
  obtain ⟨hp, hclosed, htruncated⟩ := h
  have hopen : ¬(s.closed || s.truncated) = true := by simp [hclosed, htruncated]
  unfold output
  rw [if_neg hp, if_neg hopen]
  rcases w with _ | ⟨n, err⟩ <;> rfl

theorem output_pastCap (h : PastCap marshal s p t) :
    output marshal s p t t' w w' = truncate marshal (s.hold p) sizeLimit t' w' := by
  rw [output_taken marshal h.1, if_neg h.2.1, if_pos h.2.2]

/-- What a call does with what it takes, apart from the file. -/
theorem output_fields (t t' : ℤ) (w w' : Write) (h : s.Takes p) :
    (output marshal s p t t' w w').pending = carried (s.data p) ∧
    (output marshal s p t t' w w').closed = s.closed ∧ (output marshal s p t t' w w').max = s.max := by
  rw [output_taken marshal h]
  split_ifs
  · exact ⟨rfl, rfl, rfl⟩
  · rw [truncate_eq]
    exact ⟨rfl, rfl, rfl⟩
  · rcases w with _ | ⟨n, err⟩
    · exact ⟨rfl, rfl, rfl⟩
    · dsimp only
      rw [truncate_eq]
      exact ⟨rfl, rfl, rfl⟩

theorem close_closed (h : s.closed = true) : close marshal s t w = s := if_pos h

theorem close_open (h : s.closed = false) : close marshal s t w =
    if s.pending ≠ [] ∧ s.truncated = false then
      { s with closed := true }.put (landed (marshal.event t "o" s.pending ++ [newline]) w)
    else { s with closed := true } := by
  have hopen : ¬s.closed = true := by simp [h]
  unfold close
  rw [if_neg hopen]
  simp only [List.length_pos_iff, writeLine_fst]

end Steps

/-- What a call receives. -/
def taken (s : Session) : Call → Bytes
  | .output p _ _ _ _ => if s.Takes p then p else []
  | .close _ _ => []

/-- The time and the text of the "o" event a call encodes. -/
def encodes (s : Session) : Call → List (ℤ × Bytes)
  | .output p t _ _ _ => if s.Takes p ∧ payload (s.data p) ≠ [] then [(t, payload (s.data p))] else []
  | .close t _ => if s.closed = false ∧ s.truncated = false ∧ s.pending ≠ [] then [(t, s.pending)] else []

/-- What is yet to be encoded: nothing once `Close` has written the tail. -/
def Session.left (s : Session) : Bytes := if s.closed && !s.truncated then [] else s.pending

/-- What the calls of a run come to, one after another. -/
def gathered {α : Type} (f : Session → Call → List α) : Session → List Call → List α
  | _, [] => []
  | s, call :: calls => f s call ++ gathered f (step marshal s call) calls

def eventLine (e : ℤ × Bytes) : Bytes := marshal.event e.1 "o" e.2 ++ [newline]

section Encoded

theorem encodes_flatMap : (encodes s (.output p t t' w w')).flatMap Prod.snd =
    if s.Takes p then payload (s.data p) else [] := by
  by_cases htakes : s.Takes p <;> by_cases hempty : payload (s.data p) = [] <;> simp [encodes, htakes, hempty]

theorem left_step (s : Session) (call : Call) :
    s.left ++ taken s call = (encodes s call).flatMap Prod.snd ++ (step marshal s call).left := by
  cases call with
  | output p t t' w w' =>
    rw [encodes_flatMap]
    by_cases h : s.Takes p
    · obtain ⟨hpending, hclosed, -⟩ := output_fields marshal t t' w w' h
      have hbefore : s.left = s.pending := by simp [Session.left, h.2.1]
      have hafter : (step marshal s (.output p t t' w w')).left = carried (s.data p) := by
        simp [Session.left, step, hclosed, h.2.1, hpending]
      rw [hbefore, hafter, if_pos h, payload_append_carried, taken, if_pos h, Session.data]
    · rw [step, output_refused marshal h, if_neg h, taken, if_neg h, List.append_nil, List.nil_append]
  | close t w =>
    simp only [step, taken, encodes]
    cases hclosed : s.closed with
    | true => simp [close_closed marshal hclosed]
    | false =>
      rw [close_open marshal hclosed]
      cases htruncated : s.truncated <;> by_cases hpending : s.pending = [] <;>
        simp [Session.left, hclosed, htruncated, hpending, Session.put]

/-- No call loses a byte or repeats one. -/
theorem left_run (s : Session) (calls : List Call) : s.left ++ gathered marshal taken s calls =
    (gathered marshal encodes s calls).flatMap Prod.snd ++ (exec (step marshal) s calls).left := by
  induction calls generalizing s with
  | nil => simp [gathered]
  | cons call calls ih =>
    rw [gathered, ← List.append_assoc, left_step, List.append_assoc, ih, gathered, List.flatMap_append,
      List.append_assoc]
    rfl

theorem pending_step (h : s.pending.length ≤ 3) (call : Call) : (step marshal s call).pending.length ≤ 3 := by
  cases call with
  | output p t t' w w' =>
    by_cases htakes : s.Takes p
    · rw [step, (output_fields marshal t t' w w' htakes).1, length_carried]
      exact (incompleteTail_le _).1
    · rwa [step, output_refused marshal htakes]
  | close t w =>
    cases hclosed : s.closed with
    | true => rwa [step, close_closed marshal hclosed]
    | false =>
      rw [step, close_open marshal hclosed]
      split_ifs <;> exact h

end Encoded

section Cap

/-- What the file holds before the marker, with its header line first. -/
structure Bounded (head : Bytes) (max : ℤ) (s : Session) : Prop where
  max_eq : s.max = max
  written : s.written = s.file.length
  within : s.closed = false → s.truncated = false → (s.file.length : ℤ) ≤ max ∨ s.file = head

variable {marshal} {head : Bytes} {max : ℤ}

theorem Bounded.put (h : Bounded head max s) (x : Bytes)
    (hwithin : s.closed = false → s.truncated = false → (s.file.length + x.length : ℤ) ≤ max) :
    Bounded head max (s.put x) where
  max_eq := h.max_eq
  written := by rw [Session.put, List.length_append, h.written]
  within hclosed htruncated := .inl <| by
    have hle := hwithin hclosed htruncated
    simp only [Session.put, List.length_append, Int.natCast_add]
    exact hle

theorem Bounded.truncate (h : Bounded head max s) (why : String) (t : ℤ) (w : Write) :
    Bounded head max (truncate marshal s why t w) := by
  rw [truncate_eq]
  have hmarked : Bounded head max { s with truncated := true } :=
    ⟨h.max_eq, h.written, fun _ htruncated => Bool.noConfusion htruncated⟩
  exact hmarked.put _ fun _ htruncated => Bool.noConfusion htruncated

theorem Bounded.step (h : Bounded head max s) (call : Call) : Bounded head max (step marshal s call) := by
  cases call with
  | output p t t' w w' =>
    have hhold : Bounded head max (s.hold p) := ⟨h.max_eq, h.written, h.within⟩
    by_cases htakes : s.Takes p
    · rw [Cast.step, output_taken marshal htakes]
      split_ifs with hempty hcap
      · exact hhold
      · exact hhold.truncate _ _ _
      · rw [h.max_eq, h.written] at hcap
        rcases w with _ | ⟨n, err⟩
        · refine hhold.put _ fun _ _ => ?_
          simp only [Session.hold, List.length_append, List.length_singleton]
          omega
        · refine (hhold.put _ fun _ _ => ?_).truncate _ _ _
          simp only [Session.hold, List.length_take, List.length_append, List.length_singleton]
          omega
    · rwa [Cast.step, output_refused marshal htakes]
  | close t w =>
    cases hclosed : s.closed with
    | true => rwa [Cast.step, close_closed marshal hclosed]
    | false =>
      have hdone : Bounded head max { s with closed := true } :=
        ⟨h.max_eq, h.written, fun hopen => Bool.noConfusion hopen⟩
      rw [Cast.step, close_open marshal hclosed]
      split_ifs
      · exact hdone.put _ fun hopen => Bool.noConfusion hopen
      · exact hdone

theorem file_step_truncated (h : s.truncated = true) (call : Call) :
    (step marshal s call).truncated = true ∧ (step marshal s call).file = s.file := by
  cases call with
  | output p t t' w w' =>
    have hrefused : ¬s.Takes p := fun htakes => by simp [htakes.2.2] at h
    rw [step, output_refused marshal hrefused]
    exact ⟨h, rfl⟩
  | close t w =>
    cases hclosed : s.closed with
    | true =>
      rw [step, close_closed marshal hclosed]
      exact ⟨h, rfl⟩
    | false =>
      rw [step, close_open marshal hclosed, if_neg (by simp [h])]
      exact ⟨h, rfl⟩

theorem file_run_truncated (h : s.truncated = true) (calls : List Call) :
    (exec (step marshal) s calls).truncated = true ∧ (exec (step marshal) s calls).file = s.file := by
  induction calls generalizing s with
  | nil => exact ⟨h, rfl⟩
  | cons call calls ih =>
    obtain ⟨htruncated, hfile⟩ := file_step_truncated h call
    obtain ⟨htruncated', hfile'⟩ := ih htruncated
    exact ⟨htruncated', hfile'.trans hfile⟩

/-- Past the cap the marker goes to the file, and nothing after it. -/
theorem file_pastCap (h : PastCap marshal s p t) (rest : List Call) :
    (exec (step marshal) s (.output p t t' w w' :: rest)).file =
      s.file ++ landed (markerLine marshal sizeLimit t') w' := by
  have hstep : step marshal s (.output p t t' w w') =
      { s.hold p with truncated := true }.put (landed (markerLine marshal sizeLimit t') w') := by
    rw [step, output_pastCap marshal h, truncate_eq]
  rw [exec_cons, hstep, (file_run_truncated rfl rest).2]
  rfl

theorem truncated_of_run (h : (exec (step marshal) s calls).truncated = false) : s.truncated = false := by
  by_contra htruncated
  have hrun := (@file_run_truncated marshal s (Bool.of_not_eq_false htruncated) calls).1
  exact Bool.noConfusion (hrun.symm.trans h)

end Cap

section Intact
variable {marshal}

/-- The call goes past the cap in the state it meets. -/
def Call.PastCap (marshal : Marshal) (s : Session) : Call → Prop
  | .output p t _ _ _ => Cast.PastCap marshal s p t
  | .close _ _ => False

instance : Decidable (call.PastCap marshal s) :=
  match call with
  | .output p t _ _ _ => inferInstanceAs (Decidable (Cast.PastCap marshal s p t))
  | .close _ _ => inferInstanceAs (Decidable False)

/-- The write of the call does not fail. -/
def Call.Whole : Call → Prop
  | .output _ _ _ w _ => w = none
  | .close _ w => w = none

theorem file_step (hwhole : call.Whole) (h : (step marshal s call).truncated = false) :
    (step marshal s call).file = s.file ++ (encodes s call).flatMap (eventLine marshal) := by
  cases call with
  | output p t t' w w' =>
    obtain rfl : w = none := hwhole
    by_cases htakes : s.Takes p
    · rw [step, output_taken marshal htakes] at h ⊢
      split_ifs at h ⊢ with hempty hcap
      · simp [encodes, hempty, Session.hold]
      · simp [truncate_eq, Session.put] at h
      · simp [encodes, htakes, hempty, eventLine, Session.hold, Session.put]
    · simp [step, output_refused marshal htakes, encodes, htakes]
  | close t w =>
    obtain rfl : w = none := hwhole
    cases hclosed : s.closed with
    | true => simp [step, close_closed marshal hclosed, encodes, hclosed]
    | false =>
      rw [step, close_open marshal hclosed]
      by_cases htail : s.pending ≠ [] ∧ s.truncated = false
      · simp [htail, encodes, hclosed, eventLine, Session.put, landed]
      · have hnone : ¬(s.closed = false ∧ s.truncated = false ∧ s.pending ≠ []) :=
          fun hall => htail ⟨hall.2.2, hall.2.1⟩
        rw [if_neg htail, encodes, if_neg hnone]
        simp

theorem truncated_step (hopen : s.truncated = false) (hcap : ¬call.PastCap marshal s) (hwhole : call.Whole) :
    (step marshal s call).truncated = false := by
  cases call with
  | output p t t' w w' =>
    obtain rfl : w = none := hwhole
    by_cases htakes : s.Takes p
    · rw [step, output_taken marshal htakes]
      split_ifs with hempty hmax
      · exact hopen
      · exact absurd ⟨htakes, hempty, hmax⟩ hcap
      · exact hopen
    · rwa [step, output_refused marshal htakes]
  | close t w =>
    cases hclosed : s.closed with
    | true => rwa [step, close_closed marshal hclosed]
    | false =>
      rw [step, close_open marshal hclosed]
      split_ifs <;> exact hopen

theorem truncated_run (hopen : s.truncated = false) (hwhole : ∀ call ∈ calls, call.Whole)
    (hcap : Along (step marshal) (fun s call => ¬call.PastCap marshal s) s calls) :
    (exec (step marshal) s calls).truncated = false := by
  induction calls generalizing s with
  | nil => exact hopen
  | cons call calls ih =>
    obtain ⟨hcall, hcalls⟩ := List.forall_mem_cons.mp hwhole
    exact ih (truncated_step hopen hcap.1 hcall) hcalls hcap.2

/-- Where nothing fails, the file is the events' lines. -/
theorem file_run (hwhole : ∀ call ∈ calls, call.Whole) (h : (exec (step marshal) s calls).truncated = false) :
    (exec (step marshal) s calls).file = s.file ++ (gathered marshal encodes s calls).flatMap (eventLine marshal) := by
  induction calls generalizing s with
  | nil => simp [gathered]
  | cons call calls ih =>
    obtain ⟨hcall, hcalls⟩ := List.forall_mem_cons.mp hwhole
    rw [exec_cons] at h ⊢
    rw [ih hcalls h, file_step hcall (truncated_of_run h), gathered, List.flatMap_append, List.append_assoc]

end Intact

section Stream
variable {marshal}

/-- `Output` of some bytes at a time, where no write fails. -/
def asOutput (o : Bytes × ℤ × ℤ) : Call := .output o.1 o.2.1 o.2.2 none none

/-- What the session carries is a part of the next character, and the bytes to come go on from there. -/
structure Carries (s : Session) (unread : Bytes) (rest : List Char) : Prop where
  closed : s.closed = false
  bytes_eq : s.pending ++ unread = encode rest
  begins : Begins s.pending rest

variable {unread : Bytes} {rest : List Char}

theorem Carries.step {o : Bytes × ℤ × ℤ} (h : Carries s (o.1 ++ unread) rest) (hopen : s.truncated = false) :
    ∃ (pieces : List (List Char)) (rest' : List Char), rest = pieces.flatten ++ rest' ∧
      (encodes s (asOutput o)).map Prod.snd = pieces.map encode ∧
      Carries (step marshal s (asOutput o)) unread rest' := by
  obtain ⟨p, t, t'⟩ := o
  dsimp only [asOutput] at h ⊢
  by_cases htakes : s.Takes p
  · obtain ⟨hpending, hclosed, -⟩ := output_fields marshal t t' none none htakes
    have hbytes : s.data p ++ unread = encode rest := by rw [Session.data, List.append_assoc, h.bytes_eq]
    obtain ⟨done, rest', part, rfl, hdata, hpart⟩ := exists_splits ⟨unread, hbytes⟩
    obtain ⟨hpayload, hcarried⟩ := @payload_splits part done rest' hpart
    have hnext : Carries (Cast.step marshal s (.output p t t' none none)) unread rest' := by
      refine ⟨hclosed.trans h.closed, ?_, ?_⟩
      · rw [Cast.step, hpending, hdata, hcarried]
        rw [hdata, encode_append, List.append_assoc] at hbytes
        exact List.append_cancel_left hbytes
      · rwa [Cast.step, hpending, hdata, hcarried]
    by_cases hempty : payload (s.data p) = []
    · have hnone : done = [] := by rwa [hdata, hpayload, encode_eq_nil] at hempty
      refine ⟨[], rest', by rw [hnone]; rfl, ?_, hnext⟩
      simp [encodes, hempty]
    · refine ⟨[done], rest', by simp, ?_, hnext⟩
      rw [encodes, if_pos ⟨htakes, hempty⟩, hdata, hpayload]
      rfl
  · obtain rfl : p = [] := by
      by_contra hp
      exact htakes ⟨hp, h.closed, hopen⟩
    refine ⟨[], rest, rfl, by simp [encodes, htakes], ?_⟩
    rwa [Cast.step, output_refused marshal htakes]

theorem gathered_append {α : Type} (f : Session → Call → List α) (s : Session) (as bs : List Call) :
    gathered marshal f s (as ++ bs) = gathered marshal f s as ++ gathered marshal f (exec (step marshal) s as) bs := by
  induction as generalizing s with
  | nil => rfl
  | cons a as ih => rw [List.cons_append, gathered, ih, gathered, exec_cons, List.append_assoc]

theorem Carries.run {outs : List (Bytes × ℤ × ℤ)} (h : Carries s (outs.flatMap Prod.fst) rest)
    (hopen : (exec (Cast.step marshal) s (outs.map asOutput)).truncated = false) :
    ∃ pieces : List (List Char), rest = pieces.flatten ∧
      (gathered marshal encodes s (outs.map asOutput)).map Prod.snd = pieces.map encode ∧
      (exec (Cast.step marshal) s (outs.map asOutput)).pending = [] := by
  induction outs generalizing s rest with
  | nil =>
    have hbytes : s.pending = encode rest := by simpa using h.bytes_eq
    have hpending : s.pending = [] := by
      refine h.begins.elim id fun ⟨c, rest', hrest, _, hlt⟩ => ?_
      rw [hbytes, hrest, encode_cons, List.length_append] at hlt
      omega
    refine ⟨[], ?_, rfl, hpending⟩
    rwa [hpending, eq_comm, encode_eq_nil] at hbytes
  | cons o outs ih =>
    rw [List.map_cons, exec_cons] at hopen
    obtain ⟨pieces, rest', rfl, hpieces, hnext⟩ := @Carries.step marshal s _ _ o h
      (@truncated_of_run marshal s [asOutput o] (truncated_of_run hopen))
    obtain ⟨pieces', rfl, hpieces', hpending⟩ := ih hnext hopen
    refine ⟨pieces ++ pieces', by rw [List.flatten_append], ?_, hpending⟩
    rw [List.map_cons, gathered, List.map_append, hpieces, hpieces', List.map_append]

end Stream

section Reader

/-- A reader of the file's lines, that finds in each the text of an "o" event if it is one: the encoder keeps
a line on its line, and a text of whole characters as it is. -/
structure Reads (read : Bytes → Option Bytes) : Prop where
  blank : read [] = none
  header : ∀ header, newline ∉ marshal.header header ∧ read (marshal.header header) = none
  event : ∀ t cs, newline ∉ marshal.event t "o" (encode cs) ∧
    read (marshal.event t "o" (encode cs)) = some (encode cs)

/-- The texts of the "o" events in a file. -/
def texts (read : Bytes → Option Bytes) (file : Bytes) : List Bytes := (file.splitOn newline).filterMap read

theorem splitOn_lines {lines : List Bytes} (h : ∀ line ∈ lines, newline ∉ line) :
    (lines.flatMap (· ++ [newline])).splitOn newline = lines ++ [[]] := by
  induction lines with
  | nil => rfl
  | cons line lines ih =>
    obtain ⟨hline, hlines⟩ := List.forall_mem_cons.mp h
    rw [List.flatMap_cons, List.append_assoc, List.singleton_append, List.splitOn_append_cons_self_of_not_mem hline,
      ih hlines]
    rfl

variable {marshal} {read : Bytes → Option Bytes}

theorem Reads.texts_eq (h : Reads marshal read) (header : CastHeader) {events : List (ℤ × Bytes)}
    (hevents : ∀ e ∈ events, ∃ cs, e.2 = encode cs) :
    texts read (marshal.header header ++ [newline] ++ events.flatMap (eventLine marshal)) = events.map Prod.snd := by
  have hlines : marshal.header header ++ [newline] ++ events.flatMap (eventLine marshal) =
      (marshal.header header :: events.map fun e => marshal.event e.1 "o" e.2).flatMap (· ++ [newline]) := by
    rw [List.flatMap_cons, List.flatMap_map]
    rfl
  have hread : ∀ e ∈ events,
      newline ∉ marshal.event e.1 "o" e.2 ∧ read (marshal.event e.1 "o" e.2) = some e.2 := by
    intro e he
    obtain ⟨cs, hcs⟩ := hevents e he
    rw [hcs]
    exact h.event e.1 cs
  have hmap : (events.map fun e => marshal.event e.1 "o" e.2).filterMap read = events.map Prod.snd := by
    rw [List.filterMap_map, ← List.filterMap_eq_map]
    exact List.filterMap_congr fun e he => (hread e he).2
  rw [texts, hlines, splitOn_lines, List.filterMap_append, List.filterMap_cons_none (h.header header).2, hmap,
    List.filterMap_cons_none h.blank, List.filterMap_nil, List.append_nil]
  intro line hline
  rcases List.mem_cons.mp hline with rfl | hline
  · exact (h.header header).1
  · obtain ⟨e, he, rfl⟩ := List.mem_map.mp hline
    exact (hread e he).1

end Reader

section Recording
variable {marshal} {read : Bytes → Option Bytes} {header : CastHeader} {max : ℤ} {s₀ : Session}

theorem newSession_eq (hnew : newSession marshal header max w = some s₀) :
    s₀ = ⟨marshal.header header ++ [newline], (marshal.header header ++ [newline]).length, max, false, [],
      false⟩ := by
  rcases w with _ | ⟨n, err⟩
  · simpa [newSession, writeLine] using hnew.symm
  · simp [newSession, writeLine] at hnew

theorem newSession_bounded (hnew : newSession marshal header max w = some s₀) :
    Bounded (marshal.header header ++ [newline]) max s₀ := by
  rw [newSession_eq hnew]
  exact ⟨rfl, rfl, fun _ _ => .inr rfl⟩

theorem newSession_carries {unread : Bytes} {cs : List Char} (hnew : newSession marshal header max w = some s₀)
    (hbytes : unread = encode cs) : Carries s₀ unread cs := by
  rw [newSession_eq hnew]
  exact ⟨rfl, hbytes, .inl rfl⟩

theorem asOutput_whole {outs : List (Bytes × ℤ × ℤ)} {t : ℤ} :
    ∀ call ∈ outs.map asOutput ++ [Call.close t none], call.Whole := by
  intro call hcall
  rcases List.mem_append.mp hcall with hcall | hcall
  · obtain ⟨o, -, rfl⟩ := List.mem_map.mp hcall
    rfl
  · obtain rfl := List.mem_singleton.mp hcall
    rfl

/-- Each event shows whole characters of the stream. -/
theorem Carries.shown {outs : List (Bytes × ℤ × ℤ)} {t : ℤ} {rest : List Char} (hread : Reads marshal read)
    (h : Carries s (outs.flatMap Prod.fst) rest) (hfile : s.file = marshal.header header ++ [newline])
    (hopen : (exec (Cast.step marshal) s (outs.map asOutput ++ [Call.close t none])).truncated = false) :
    ∃ pieces : List (List Char), pieces.flatten = rest ∧
      texts read (exec (Cast.step marshal) s (outs.map asOutput ++ [Call.close t none])).file = pieces.map encode := by
  have hrun := file_run asOutput_whole hopen
  rw [exec_append] at hopen
  obtain ⟨pieces, rfl, hpieces, hpending⟩ := h.run (truncated_of_run hopen)
  have hclose : encodes (exec (Cast.step marshal) s (outs.map asOutput)) (Call.close t none) = [] := by
    simp [encodes, hpending]
  have hsnd : (gathered marshal encodes s (outs.map asOutput ++ [Call.close t none])).map Prod.snd =
      pieces.map encode := by
    rw [gathered_append, gathered, hclose, gathered, List.append_nil, List.append_nil, hpieces]
  refine ⟨pieces, rfl, ?_⟩
  rw [hrun, hfile, hread.texts_eq header ?_, hsnd]
  intro e he
  have hmem := List.mem_map_of_mem (f := Prod.snd) he
  rw [hsnd] at hmem
  obtain ⟨piece, -, hpiece⟩ := List.mem_map.mp hmem
  exact ⟨piece, hpiece.symm⟩

/-- However a stream was cut, its recording shows it; nothing is lost on the way to the encoder, and nothing
stands behind the marker of a recording that was cut short. -/
theorem recording_run (hread : Reads marshal read) (hnew : newSession marshal header max w = some s₀) :
    (∀ (cs : List Char) (outs : List (Bytes × ℤ × ℤ)) (t : ℤ), outs.flatMap Prod.fst = encode cs →
      Along (step marshal) (fun s call => ¬call.PastCap marshal s) s₀ (outs.map asOutput ++ [Call.close t none]) →
      let file := (exec (step marshal) s₀ (outs.map asOutput ++ [Call.close t none])).file
      (texts read file).flatten = encode cs ∧ ∃ pieces : List (List Char), texts read file = pieces.map encode ∧
        pieces.flatten = cs ∧ ∀ piece ∈ pieces, '\uFFFD' ∈ piece → '\uFFFD' ∈ cs) ∧
    (∀ calls, let s := exec (step marshal) s₀ calls
      s.pending.length ≤ 3 ∧
      (gathered marshal encodes s₀ calls).flatMap Prod.snd ++ s.left = gathered marshal taken s₀ calls ∧
      ((∀ call ∈ calls, call.Whole) → s.truncated = false → s.file =
        marshal.header header ++ [newline] ++ (gathered marshal encodes s₀ calls).flatMap (eventLine marshal))) ∧
    ∀ calls p t, let s := exec (step marshal) s₀ calls
      PastCap marshal s p t → ((s.file.length : ℤ) ≤ max ∨ s.file = marshal.header header ++ [newline]) ∧
        ∀ t' w w' rest, (exec (step marshal) s (.output p t t' w w' :: rest)).file =
          s.file ++ landed (markerLine marshal sizeLimit t') w' := by
  have hnewed := newSession_eq hnew
  have hfile : s₀.file = marshal.header header ++ [newline] := by rw [hnewed]
  have hpending : s₀.pending = [] := by rw [hnewed]
  have hleft : s₀.left = [] := by rw [hnewed]; rfl
  refine ⟨fun cs outs t hbytes hcap => ?_, fun calls => ⟨?_, ?_, fun hwhole hopen => ?_⟩,
    fun calls p t hpast => ⟨?_, fun t' w w' rest => file_pastCap hpast rest⟩⟩
  · have hopen := truncated_run (by rw [hnewed]) asOutput_whole hcap
    obtain ⟨pieces, rfl, htexts⟩ := (newSession_carries hnew hbytes).shown hread hfile hopen
    refine ⟨?_, pieces, htexts, rfl, fun piece hpiece h => List.mem_flatten_of_mem hpiece h⟩
    rw [htexts, encode_flatten]
  · have hshort : s₀.pending.length ≤ 3 := by simp [hpending]
    exact exec_invariant (G := fun _ _ => True) (I := fun s : Session => s.pending.length ≤ 3)
      (fun _ call h _ => pending_step marshal h call) hshort (Along.of_forall fun _ _ => trivial)
  · have hrun := left_run marshal s₀ calls
    rw [hleft, List.nil_append] at hrun
    exact hrun.symm
  · rw [file_run hwhole hopen, hfile]
  · have hrun : Bounded (marshal.header header ++ [newline]) max (exec (step marshal) s₀ calls) :=
      exec_invariant (G := fun _ _ => True) (fun _ call h _ => h.step call) (newSession_bounded hnew)
        (Along.of_forall fun _ _ => trivial)
    exact hrun.within hpast.1.2.1 hpast.1.2.2

section Plain

def quote : UInt8 := 0x22

def backslash : UInt8 := 0x5C

def hexByte (n : ℕ) : UInt8 := UInt8.ofNat (if n < 10 then 0x30 + n else 0x57 + n)

def hexValue (c : UInt8) : ℕ := if c < 0x40 then c.toNat - 0x30 else c.toNat - 0x57

/-- A byte inside a string of the file. -/
def escapeByte (c : UInt8) : Bytes :=
  if c = quote ∨ c = backslash then [backslash, c]
  else if c < 0x20 then [backslash, 0x75, 0x30, 0x30, hexByte (c.toNat / 16), hexByte (c.toNat % 16)]
  else [c]

/-- The text up to a quote that is the last but one byte. -/
def unescape : Bytes → Option Bytes
  | [] => none
  | 0x5C :: 0x75 :: _ :: _ :: h :: l :: rest => (unescape rest).map (UInt8.ofNat (16 * hexValue h + hexValue l) :: ·)
  | 0x5C :: c :: rest => (unescape rest).map (c :: ·)
  | 0x22 :: rest => if rest = [0x5D] then some [] else none
  | c :: rest => (unescape rest).map (c :: ·)

/-- `[0,"o","` before a text and `"]` behind it. -/
def plainEvent (code text : Bytes) : Bytes :=
  [0x5B, 0x30, 0x2C, quote] ++ code ++ [quote, 0x2C, quote] ++ text.flatMap escapeByte ++ [quote, 0x5D]

/-- The header of an untitled recording of 80 columns and 24 rows that begins at 0. -/
def plainHeader : Bytes :=
  bytes "\x7b\"version\":2,\"width\":80,\"height\":24,\"timestamp\":0,\"env\":\x7b\"TERM\":\"xterm-256color\"\x7d\x7d"

/-- An encoder whose clock stands still. -/
def plain : Marshal where
  header _ := plainHeader
  event _ code text := plainEvent (bytes code) text

def plainRead (line : Bytes) : Option Bytes :=
  if [0x5B, 0x30, 0x2C, quote, 0x6F, quote, 0x2C, quote] <+: line then unescape (line.drop 8) else none

theorem escape_control (n : Fin 32) : newline ∉ escapeByte (UInt8.ofNat n) ∧
    UInt8.ofNat (16 * hexValue (hexByte (n / 16)) + hexValue (hexByte (n % 16))) = UInt8.ofNat n := by
  revert n
  decide

theorem newline_notMem_escape (c : UInt8) : newline ∉ escapeByte c := by
  by_cases hlow : c < 0x20
  · rw [← @UInt8.ofNat_toNat c]
    exact (escape_control ⟨c.toNat, UInt8.lt_iff_toNat_lt.mp hlow⟩).1
  · have hne : newline ≠ c := fun h => hlow (h ▸ by decide)
    rw [escapeByte, if_neg hlow]
    split_ifs
    · simp [hne, show newline ≠ backslash by decide]
    · simp [hne]

theorem unescape_escape (c : UInt8) (rest : Bytes) :
    unescape (escapeByte c ++ rest) = (unescape rest).map (c :: ·) := by
  unfold escapeByte
  split_ifs with hmark hlow
  · rcases hmark with rfl | rfl <;> rfl
  · have hvalue := (escape_control ⟨c.toNat, UInt8.lt_iff_toNat_lt.mp hlow⟩).2
    rw [UInt8.ofNat_toNat] at hvalue
    have hread : unescape ([backslash, 0x75, 0x30, 0x30, hexByte (c.toNat / 16), hexByte (c.toNat % 16)] ++ rest) =
      (unescape rest).map (UInt8.ofNat (16 * hexValue (hexByte (c.toNat / 16)) +
        hexValue (hexByte (c.toNat % 16))) :: ·) := rfl
    rw [hread, hvalue]
  · obtain ⟨hquote, hbackslash⟩ := not_or.mp hmark
    rw [List.singleton_append, unescape]
    · exact fun _ _ _ _ _ h _ => hbackslash h
    · exact fun _ _ h _ => hbackslash h
    · exact hquote

theorem unescape_text (text : Bytes) : unescape (text.flatMap escapeByte ++ [quote, 0x5D]) = some text := by
  induction text with
  | nil => rfl
  | cons c text ih => rw [List.flatMap_cons, List.append_assoc, unescape_escape, ih, Option.map_some]

theorem plain_reads : Reads plain plainRead where
  blank := rfl
  header _ := ⟨show newline ∉ plainHeader by decide, rfl⟩
  event t cs := by
    have hline : plain.event t "o" (encode cs) =
        [0x5B, 0x30, 0x2C, quote, 0x6F, quote, 0x2C, quote] ++ ((encode cs).flatMap escapeByte ++ [quote, 0x5D]) := rfl
    rw [hline]
    constructor
    · rw [List.mem_append, List.mem_append, List.mem_flatMap]
      rintro (h | ⟨c, -, h⟩ | h)
      · exact absurd h (by decide)
      · exact newline_notMem_escape c h
      · exact absurd h (by decide)
    · rw [plainRead, if_pos (List.prefix_append _ _)]
      exact unescape_text (encode cs)

/-- A character that was cut between two calls. -/
theorem recording_run_cut : (texts plainRead
    (exec (step plain) ⟨plainHeader ++ [newline], 83, 200, false, [], false⟩
    ([([0xC3], 0, 0), ([0xA9, 0x21], 0, 0)].map asOutput ++ [Call.close 0 none])).file).flatten = [0xC3, 0xA9, 0x21] :=
  ((@recording_run plain none plainRead (castHeader 80 24 0 "") 200 _ plain_reads rfl).1 ['é', '!']
    [([0xC3], 0, 0), ([0xA9, 0x21], 0, 0)] 0 (by decide) (by decide)).1.trans (by decide)

end Plain

end Recording
end Kubeast.Recordings.Cast
