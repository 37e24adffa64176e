import Mathlib.Data.List.Basic
import Mathlib.Data.List.Infix
import Mathlib.Tactic.SplitIfs
import Mathlib.Data.List.GetD

/-! One step's log, cut to what is left of the build's budget (`internal/buildlog/cut.go`). -/
namespace Kubeast.BuildLog

abbrev Bytes := List UInt8

def newline : UInt8 := 10

/-- How far before the budget's end the head looks for a line break to end at. -/
def lineWindow : ℕ := 4096

/-- `utf8.RuneStart`. -/
def runeStart (b : UInt8) : Bool := b &&& 0xC0 != 0x80

/-- `bytes.IndexByte`. -/
def indexByte (p : Bytes) (b : UInt8) : Option ℕ := p.findIdx? (· == b)

/-- `bytes.LastIndexByte`. -/
def lastIndexByte (p : Bytes) (b : UInt8) : Option ℕ :=
  (indexByte p.reverse b).map fun i => p.length - 1 - i

/-- `Limit.MaxBytes` less what earlier steps have spent, and `Limit.Tail`. -/
structure Budget where
  left : ℕ
  tail : ℕ

inductive WriteError
  | closed
  | refused (text : String)
deriving DecidableEq

structure Cut where
  /-- What `w` has been given. -/
  out : Bytes
  budget : Budget
  cut : Bool
  held : Bytes
  buf : Bytes
  last : UInt8
  read : ℕ
  head : ℕ
  kept : ℕ
  err : Option WriteError
  closed : Bool

def Budget.take (b : Budget) (n : ℕ) : Budget := { b with left := b.left - min n b.left }

def Budget.step (b : Budget) : Cut := ⟨[], b, false, [], [], 0, 0, 0, 0, none, false⟩

/-- Back from the end of `win` to a character boundary; `next` is the byte behind. -/
def boundary (win : Bytes) : ℕ → UInt8 → ℕ
  | 0, _ => 0
  | k + 1, next => if runeStart next then k + 1 else boundary win k (win.getD k 0)

/-- How much of the window is still head: up to its last line break, else to a boundary. -/
def headLength (win : Bytes) (next : UInt8) : ℕ :=
  match lastIndexByte win newline with
  | some i => i + 1
  | none => boundary win win.length next

/-- The buffer of the last bytes, at most `2 * tail` of them. -/
def keepLast (tail : ℕ) (buf p : Bytes) : Bytes :=
  if tail = 0 ∨ p = [] then buf
  else if tail ≤ p.length then p.drop (p.length - tail)
  else if 2 * tail < buf.length + p.length then buf.drop (buf.length - (tail - p.length)) ++ p
  else buf ++ p

/-- Bytes before the tail were dropped: it starts after a line break, else at a boundary. -/
def trimTail (t : Bytes) : Bytes :=
  match (indexByte t newline).filter fun i => i + 1 < t.length with
  | some i => t.drop (i + 1)
  | none => t.dropWhile fun b => !runeStart b

def noteText (dropped : ℕ) : Bytes :=
  ("[kubeast: " ++ toString dropped ++
    " bytes of this step were not kept (build log limit)]\n").toByteArray.data.toList

/-- The note, on a line of its own. -/
def note (kept : ℕ) (last : UInt8) (dropped : ℕ) : Bytes :=
  (if 0 < kept ∧ last ≠ newline then [newline] else []) ++ noteText dropped

namespace Cut

/-- The error of a write to `w`, by what it has been given before. -/
abbrev Sink := Bytes → Bytes → Option String

section Calls
variable (w : Sink)

def pass (c : Cut) (p : Bytes) : Cut × Option WriteError :=
  if p = [] then (c, none)
  else match w c.out p with
    | some text => ({ c with err := some (.refused text) }, some (.refused text))
    | none =>
        ({ c with out := c.out ++ p, kept := c.kept + p.length, last := p.getLastD c.last }, none)

def passHead (c : Cut) (p : Bytes) : Cut × Option WriteError :=
  pass w { c with budget := c.budget.take p.length, head := c.head + p.length } p

def keep (c : Cut) (p : Bytes) : Cut := { c with buf := keepLast c.budget.tail c.buf p }

/-- `Write`: how many bytes were taken, and the error. -/
def write (c : Cut) (p : Bytes) : Cut × ℕ × Option WriteError :=
  if c.closed then (c, 0, some .closed)
  else match c.err with
  | some e => (c, 0, some e)
  | none =>
    let n := p.length
    let c := { c with read := c.read + n }
    if c.cut then (c.keep p, n, none)
    else
      -- bytes before `sure` are kept whatever follows and go now
      let stop := c.head + c.budget.left
      let sure := stop - lineWindow
      let k := if c.held = [] ∧ c.head < sure then min n (sure - c.head) else 0
      match passHead w c (p.take k) with
      | (c, some e) => (c, k, some e)
      | (c, none) =>
        let p := p.drop k
        let held := c.head + c.held.length
        if held + p.length ≤ stop then ({ c with held := c.held ++ p }, n, none)
        else
          let win := c.held ++ p.take (stop - held)
          let k := headLength win (p.getD (stop - held) 0)
          match passHead w c (win.take k) with
          | (c, some e) => (c, n, some e)
          | (c, none) =>
            -- what is left of the budget is not handed to later steps
            let c := { c with budget := c.budget.take (stop - c.head), cut := true, held := [] }
            ((c.keep (win.drop k)).keep (p.drop (stop - held)), n, none)

def close (c : Cut) : Cut × Option WriteError :=
  if c.closed then (c, none)
  else
    let c := { c with closed := true }
    let c := if c.err = none ∧ ¬ c.cut then
      { (passHead w c c.held).1 with err := (passHead w c c.held).2 } else c
    if c.err ≠ none ∨ ¬ c.cut then (c, c.err)
    else
      let t := c.buf.drop (c.buf.length - c.budget.tail)
      let t := if t.length < c.read - c.kept then trimTail t else t
      let dropped := c.read - c.kept - t.length
      if dropped = 0 then pass w c t
      else
        let note := note c.kept c.last dropped
        match w c.out note with
        | some text => ({ c with err := some (.refused text) }, some (.refused text))
        | none => pass w { c with out := c.out ++ note } t

/-- A log in the writes that it is split into. -/
def writes (c : Cut) (chunks : List Bytes) : Cut := chunks.foldl (fun c p => (write w c p).1) c

end Calls

/-- A sink that takes everything. -/
def takesAll : Sink := fun _ _ => none

end Cut
end Kubeast.BuildLog

/-! What is kept of a log does not depend on how it is split into writes: after any writes the cut
stands where the whole log, the budget and the tail say. -/
namespace Kubeast.BuildLog
open Cut

section LastBytes
variable {tail : ℕ} {buf rest p t : Bytes}

/-- A buffer that ends with the last `tail` bytes and holds at most twice as many. -/
structure LastBytes (tail : ℕ) (buf rest : Bytes) : Prop where
  isSuffix : buf <:+ rest
  enough : min tail rest.length ≤ buf.length
  bounded : buf.length ≤ 2 * tail

theorem drop_append_of_le {front back : Bytes} {n : ℕ} (h : n ≤ back.length) :
    (front ++ back).drop ((front ++ back).length - n) = back.drop (back.length - n) := by
  rw [List.length_append, show front.length + back.length - n = front.length + (back.length - n) by
    omega, List.drop_length_add_append]

theorem LastBytes.drop_eq (h : LastBytes tail buf rest) :
    buf.drop (buf.length - tail) = rest.drop (rest.length - tail) := by
  obtain ⟨front, rfl⟩ := h.isSuffix
  have henough := h.enough
  rw [List.length_append] at henough
  by_cases hle : tail ≤ buf.length
  · rw [drop_append_of_le hle]
  · have hfront : front = [] := List.length_eq_zero_iff.mp (by omega)
    rw [hfront, List.nil_append]

theorem LastBytes.nil (tail : ℕ) : LastBytes tail [] [] :=
  ⟨List.suffix_rfl, by simp, by simp⟩

theorem LastBytes.keepLast (h : LastBytes tail buf rest) :
    LastBytes tail (keepLast tail buf p) (rest ++ p) := by
  have henough := h.enough
  have hbounded := h.bounded
  obtain ⟨front, rfl⟩ := h.isSuffix
  unfold BuildLog.keepLast
  split_ifs with hnone hlong hfull
  · rcases hnone with rfl | rfl
    · have hbuf : buf = [] := List.length_eq_zero_iff.mp (by omega)
      rw [hbuf]
      exact ⟨List.nil_suffix, by simp, by simp⟩
    · rwa [List.append_nil]
  · refine ⟨(List.drop_suffix _ _).trans (List.suffix_append _ _), ?_, ?_⟩ <;>
      rw [List.length_drop] <;> omega
  · have hdrop := List.drop_suffix (buf.length - (tail - p.length)) buf
    obtain ⟨dropped, hdropped⟩ := hdrop
    refine ⟨⟨front ++ dropped, ?_⟩, ?_, ?_⟩
    · rw [List.append_assoc, ← List.append_assoc dropped, hdropped, List.append_assoc]
    · simp only [List.length_append, List.length_drop] at henough ⊢
      omega
    · rw [List.length_append, List.length_drop]
      omega
  · refine ⟨⟨front, (List.append_assoc _ _ _).symm⟩, ?_, ?_⟩ <;>
      simp only [List.length_append] at henough ⊢ <;> omega

end LastBytes

section Head
variable {win log p : Bytes} {next : UInt8} {budget : ℕ}

theorem boundary_le (win : Bytes) (k : ℕ) (next : UInt8) : boundary win k next ≤ k := by
  induction k generalizing next with
  | zero => exact le_rfl
  | succ k ih =>
    rw [boundary]
    split_ifs
    · exact le_rfl
    · exact (ih _).trans (Nat.le_succ k)

theorem headLength_le (win : Bytes) (next : UInt8) : headLength win next ≤ win.length := by
  unfold headLength
  split
  · next i hi =>
    obtain ⟨j, hj, rfl⟩ := Option.map_eq_some_iff.mp hi
    have hlt := (List.findIdx?_eq_some_iff_findIdx_eq.mp hj).1
    rw [List.length_reverse] at hlt
    omega
  · exact boundary_le _ _ _

/-- Where the head of a log that does not fit ends. -/
def headEnd (log : Bytes) (budget : ℕ) : ℕ :=
  budget - lineWindow +
    headLength ((log.take budget).drop (budget - lineWindow)) (log.getD budget 0)

theorem headEnd_le (h : budget < log.length) : headEnd log budget ≤ budget := by
  have hle := headLength_le ((log.take budget).drop (budget - lineWindow)) (log.getD budget 0)
  rw [List.length_drop, List.length_take] at hle
  unfold headEnd
  omega

/-- What follows the byte behind the budget does not move the end of the head. -/
theorem headEnd_append (h : budget < log.length) : headEnd (log ++ p) budget = headEnd log budget := by
  unfold headEnd
  rw [List.take_append_of_le_length h.le, List.getD_append _ _ _ _ h]

end Head

section Writes
variable {budget tail : ℕ} {log p : Bytes} {c : Cut}

/-- What a cut has taken so far, and that it has not stopped. -/
structure Running (tail : ℕ) (log : Bytes) (c : Cut) : Prop where
  read : c.read = log.length
  keeps : c.budget.tail = tail
  kept : c.kept = c.out.length
  last : c.last = c.out.getLastD 0
  err : c.err = none
  closed : c.closed = false

/-- The log fits so far; what may still be cut off is held back. -/
structure Whole (budget tail : ℕ) (log : Bytes) (c : Cut) : Prop extends Running tail log c where
  cut : c.cut = false
  fits : log.length ≤ budget
  head : c.head = min log.length (budget - lineWindow)
  left : c.budget.left = budget - c.head
  out : c.out = log.take c.head
  held : c.held = log.drop c.head
  buf : c.buf = []

/-- The log does not fit: its head is out, its end is in the buffer. -/
structure Halved (budget tail : ℕ) (log : Bytes) (c : Cut) : Prop extends Running tail log c where
  cut : c.cut = true
  exceeds : budget < log.length
  out : c.out = log.take (headEnd log budget)
  buf : LastBytes tail c.buf (log.drop (headEnd log budget))

theorem whole_step (budget tail : ℕ) : Whole budget tail [] (Budget.step ⟨budget, tail⟩) :=
  ⟨⟨rfl, rfl, rfl, rfl, rfl, rfl⟩, rfl, by simp, by simp [Budget.step], rfl, rfl, rfl, rfl⟩

theorem passHead_takesAll (c : Cut) (p : Bytes) : passHead takesAll c p =
    ({ c with budget := c.budget.take p.length, head := c.head + p.length, out := c.out ++ p
              kept := c.kept + p.length, last := p.getLastD c.last }, none) := by
  unfold passHead Cut.pass
  split_ifs with h
  · simp [h]
  · rfl

theorem getLastD_append (l l' : Bytes) (a : UInt8) :
    (l ++ l').getLastD a = l'.getLastD (l.getLastD a) := by
  induction l generalizing a with
  | nil => rfl
  | cons b l ih => rw [List.cons_append, List.getLastD_cons, List.getLastD_cons, ih]

theorem Halved.written (h : Halved budget tail log c) :
    Halved budget tail (log ++ p) (write takesAll c p).1 := by
  have hwrite : (write takesAll c p).1 = { c with read := c.read + p.length }.keep p := by
    simp only [Cut.write, h.closed, h.err, h.cut, if_true, Bool.false_eq_true, if_false]
  rw [hwrite]
  have hover := h.exceeds
  refine ⟨⟨?_, h.keeps, h.kept, h.last, h.err, h.closed⟩, h.cut, ?_, ?_, ?_⟩
  · simp [keep, h.read]
  · rw [List.length_append]
    omega
  · rw [headEnd_append hover, List.take_append_of_le_length ((headEnd_le hover).trans hover.le)]
    exact h.out
  · rw [headEnd_append hover, List.drop_append_of_le_length ((headEnd_le hover).trans hover.le)]
    have hbuf : LastBytes tail (keepLast tail c.buf p) _ := h.buf.keepLast
    rw [← h.keeps] at hbuf ⊢
    exact hbuf

/-- Bytes that go on from what is held, or from the head where nothing is held. -/
theorem Whole.passed (h : Whole budget tail log c) {k : ℕ} (hk : k = if c.held = [] ∧
      c.head < budget - lineWindow then min p.length (budget - lineWindow - c.head) else 0) :
    c.head + k = min (log ++ p).length (budget - lineWindow) ∧ k ≤ p.length ∧
      log.length + k ≤ budget ∧
      c.out ++ p.take k = (log ++ p).take (c.head + k) ∧
      c.held ++ p.drop k = (log ++ p).drop (c.head + k) := by
  have hhead := h.head
  have hheld : c.held = [] ↔ log.length ≤ c.head := by rw [h.held, List.drop_eq_nil_iff]
  have hsame : k = 0 ∨ c.head = log.length := by
    split_ifs at hk with hgo
    · have := hheld.mp hgo.1
      omega
    · exact Or.inl hk
  have hfits := h.fits
  refine ⟨?_, ?_, ?_, ?_⟩
  · rw [List.length_append]
    split_ifs at hk with hgo
    · have := hheld.mp hgo.1
      omega
    · rw [hheld] at hgo
      omega
  · split_ifs at hk <;> omega
  · split_ifs at hk <;> omega
  · rw [h.out, h.held]
    rcases hsame with rfl | hsame
    · have hle : c.head ≤ log.length := by omega
      rw [Nat.add_zero, List.take_zero, List.drop_zero, List.append_nil,
        List.take_append_of_le_length hle, List.drop_append_of_le_length hle]
      exact ⟨rfl, rfl⟩
    · rw [hsame, List.take_length, List.drop_length, List.take_length_add_append,
        List.drop_length_add_append]
      exact ⟨rfl, rfl⟩

theorem Whole.written (h : Whole budget tail log c) :
    Whole budget tail (log ++ p) (write takesAll c p).1 ∨
      Halved budget tail (log ++ p) (write takesAll c p).1 := by
  have hhead := h.head
  have hfits := h.fits
  have hstop : c.head + c.budget.left = budget := by
    rw [h.left]
    omega
  obtain ⟨k, hk⟩ : ∃ k, k = if c.held = [] ∧ c.head < budget - lineWindow then
    min p.length (budget - lineWindow - c.head) else 0 := ⟨_, rfl⟩
  obtain ⟨hnow, hkle, hkfits, hout, hheld⟩ := h.passed hk
  have hlen : c.held.length = log.length - c.head := by rw [h.held, List.length_drop]
  unfold write
  simp only [h.closed, h.err, h.cut, Bool.false_eq_true, if_false, hstop, ← hk, passHead_takesAll]
  have hlength : (log ++ p).length = log.length + p.length := List.length_append
  have htaken : c.head + (p.take k).length + c.held.length = log.length + k := by
    rw [List.length_take]
    omega
  have hlast : (p.take k).getLastD c.last = (c.out ++ p.take k).getLastD 0 := by
    rw [getLastD_append, ← h.last]
  rw [htaken]
  by_cases hall : (log ++ p).length ≤ budget
  · left
    rw [if_pos (by rw [List.length_drop]; omega)]
    refine ⟨⟨?_, h.keeps, ?_, hlast, rfl, rfl⟩, rfl, hall, ?_, ?_, ?_, ?_, h.buf⟩
    · show c.read + p.length = _
      rw [h.read, hlength]
    · show c.kept + _ = (c.out ++ _).length
      rw [h.kept, List.length_append]
    · show c.head + _ = _
      rw [List.length_take, Nat.min_eq_left hkle, hnow]
    · show c.budget.left - _ = budget - (c.head + _)
      rw [List.length_take, h.left]
      omega
    · show c.out ++ p.take k = (log ++ p).take (c.head + _)
      rw [List.length_take, Nat.min_eq_left hkle, hout]
    · show c.held ++ p.drop k = (log ++ p).drop (c.head + _)
      rw [List.length_take, Nat.min_eq_left hkle, hheld]
  · right
    rw [if_neg (by rw [List.length_drop]; omega)]
    -- the head has come to the window, and what is held and new begins there
    have hsure : c.head + k = budget - lineWindow := by omega
    rw [hsure] at hout hheld
    obtain ⟨m, hm⟩ : ∃ m, m = budget - (log.length + k) := ⟨_, rfl⟩
    rw [← hm]
    obtain ⟨win, hwin⟩ : ∃ win, win = c.held ++ (p.drop k).take m := ⟨_, rfl⟩
    rw [← hwin]
    have hsplit : win ++ (p.drop k).drop m = (log ++ p).drop (budget - lineWindow) := by
      rw [hwin, List.append_assoc, List.take_append_drop, hheld]
    have hwinLength : win.length = budget - (budget - lineWindow) := by
      have hrest := congrArg List.length hheld
      rw [List.length_append, List.length_drop, List.length_drop, List.length_append] at hrest
      rw [hwin, List.length_append, List.length_take, List.length_drop]
      clear hout hheld hwin hsplit
      omega
    have hwindow : win = ((log ++ p).take budget).drop (budget - lineWindow) := by
      rw [List.drop_take, ← hsplit, ← hwinLength, List.take_left]
    have hnext : (p.drop k).getD m 0 = (log ++ p).getD budget 0 := by
      rw [List.getD_eq_getElem?_getD, List.getD_eq_getElem?_getD, List.getElem?_drop,
        List.getElem?_append_right hfits]
      congr 2
      omega
    have hend : headEnd (log ++ p) budget = budget - lineWindow +
        headLength win ((p.drop k).getD m 0) := by
      rw [headEnd, ← hwindow, hnext]
    obtain ⟨j, hj⟩ : ∃ j, j = headLength win ((p.drop k).getD m 0) := ⟨_, rfl⟩
    rw [← hj] at hend ⊢
    have hjle : j ≤ win.length := hj ▸ headLength_le _ _
    refine ⟨⟨?_, h.keeps, ?_, ?_, rfl, rfl⟩, rfl, by omega, ?_, ?_⟩
    · show c.read + p.length = _
      rw [h.read, hlength]
    · show c.kept + _ + _ = (c.out ++ _ ++ _).length
      rw [h.kept, List.length_append, List.length_append]
    · show (win.take j).getLastD ((p.take k).getLastD c.last) = (c.out ++ p.take k ++ win.take j).getLastD 0
      rw [hlast, ← getLastD_append]
    · show c.out ++ p.take k ++ win.take j = _
      rw [hout, hend, List.take_add, ← hsplit, List.take_append_of_le_length hjle]
    · show LastBytes tail (keepLast c.budget.tail (keepLast c.budget.tail c.buf (win.drop j)) _) _
      rw [hend, ← List.drop_drop, ← hsplit, List.drop_append_of_le_length hjle, h.keeps, h.buf]
      exact (LastBytes.nil tail).keepLast.keepLast

/-- Any writes leave a cut that has taken their log. -/
theorem taken_writes (budget tail : ℕ) (chunks : List Bytes) :
    Whole budget tail chunks.flatten (writes takesAll (Budget.step ⟨budget, tail⟩) chunks) ∨
      Halved budget tail chunks.flatten (writes takesAll (Budget.step ⟨budget, tail⟩) chunks) := by
  induction chunks using List.reverseRecOn with
  | nil => exact Or.inl (whole_step budget tail)
  | append_singleton chunks p ih =>
    have hflatten : (chunks ++ [p]).flatten = chunks.flatten ++ p := by simp
    have hwrites : writes takesAll (Budget.step ⟨budget, tail⟩) (chunks ++ [p]) =
        (write takesAll (writes takesAll (Budget.step ⟨budget, tail⟩) chunks) p).1 := by
      simp [writes]
    rw [hflatten, hwrites]
    rcases ih with hwhole | hhalved
    · exact hwhole.written
    · exact Or.inr hhalved.written

end Writes

section Close
variable {budget tail : ℕ} {log t : Bytes} {c : Cut}

/-- The tail of a log that does not fit. -/
def tailText (log : Bytes) (budget tail : ℕ) : Bytes :=
  let rest := log.drop (headEnd log budget)
  let t := rest.drop (rest.length - tail)
  if t.length < rest.length then trimTail t else t

/-- What is written of a log, and how many of its bytes. -/
def cutLog (log : Bytes) (budget tail : ℕ) : Bytes × ℕ :=
  if log.length ≤ budget then (log, log.length)
  else
    let front := log.take (headEnd log budget)
    let back := tailText log budget tail
    let kept := front.length + back.length
    (front ++ (if kept < log.length then
      note front.length (front.getLastD 0) (log.length - kept) else []) ++ back, kept)

theorem trimTail_isSuffix (t : Bytes) : trimTail t <:+ t := by
  unfold trimTail
  split
  · exact List.drop_suffix _ _
  · exact List.dropWhile_suffix _

theorem tailText_isSuffix (log : Bytes) (budget tail : ℕ) :
    tailText log budget tail <:+ log.drop (headEnd log budget) := by
  unfold tailText
  dsimp only
  split_ifs
  · exact (trimTail_isSuffix _).trans (List.drop_suffix _ _)
  · exact List.drop_suffix _ _

theorem pass_takesAll (c : Cut) (p : Bytes) : Cut.pass takesAll c p =
    ({ c with out := c.out ++ p, kept := c.kept + p.length, last := p.getLastD c.last }, none) := by
  unfold Cut.pass
  split_ifs with h
  · simp [h]
  · rfl

theorem Whole.closed_eq (h : Whole budget tail log c) : (close takesAll c).1.out = log ∧
    (close takesAll c).1.kept = log.length ∧ (close takesAll c).1.read = log.length := by
  unfold close
  simp only [h.closed, h.err, h.cut, passHead_takesAll, Bool.false_eq_true, if_false, not_false_eq_true,
    and_self, if_true, or_true]
  refine ⟨?_, ?_, h.read⟩
  · rw [h.out, h.held, List.take_append_drop]
  · rw [h.kept, h.out, h.held, ← List.length_append, List.take_append_drop]

theorem Halved.closed_eq (h : Halved budget tail log c) :
    (close takesAll c).1.out = (cutLog log budget tail).1 ∧
    (close takesAll c).1.kept = (cutLog log budget tail).2 ∧
    (close takesAll c).1.read = log.length := by
  obtain ⟨front, hfront⟩ : ∃ front, front = log.take (headEnd log budget) := ⟨_, rfl⟩
  have hout : c.out = front := h.out.trans hfront.symm
  have hkept : c.kept = front.length := by rw [h.kept, hout]
  have hrest : c.read - c.kept = (log.drop (headEnd log budget)).length := by
    rw [h.read, hkept, hfront, List.length_take, List.length_drop]
    omega
  have ht : (if (c.buf.drop (c.buf.length - tail)).length < c.read - c.kept then
      trimTail (c.buf.drop (c.buf.length - tail)) else c.buf.drop (c.buf.length - tail)) =
        tailText log budget tail := by
    rw [h.buf.drop_eq, hrest]
    rfl
  unfold close cutLog
  simp only [h.closed, h.err, h.cut, h.keeps, ht, Bool.false_eq_true, if_false, not_true_eq_false,
    and_false, or_false, ne_eq, pass_takesAll, if_neg (not_le.mpr h.exceeds)]
  simp only [← hfront, hout, hkept, h.read, h.last]
  have hdropped : log.length - front.length - (tailText log budget tail).length =
      log.length - (front.length + (tailText log budget tail).length) := Nat.sub_sub _ _ _
  rw [hdropped]
  by_cases hall : front.length + (tailText log budget tail).length < log.length
  · rw [if_pos hall, if_neg (by omega)]
    exact ⟨rfl, rfl, rfl⟩
  · rw [if_neg hall, if_pos (by omega), List.append_nil]
    exact ⟨rfl, rfl, rfl⟩

theorem closed_writes (budget tail : ℕ) (chunks : List Bytes) :
    (close takesAll (writes takesAll (Budget.step ⟨budget, tail⟩) chunks)).1.out =
      (cutLog chunks.flatten budget tail).1 ∧
    (close takesAll (writes takesAll (Budget.step ⟨budget, tail⟩) chunks)).1.kept =
      (cutLog chunks.flatten budget tail).2 ∧
    (close takesAll (writes takesAll (Budget.step ⟨budget, tail⟩) chunks)).1.read =
      chunks.flatten.length := by
  rcases taken_writes budget tail chunks with hwhole | hhalved
  · rw [cutLog, if_pos hwhole.fits]
    exact hwhole.closed_eq
  · exact hhalved.closed_eq

/-- What is written is a first part of the log, a note of what was dropped, and a last part. -/
theorem cutLog_parts (log : Bytes) (budget tail : ℕ) : ∃ a b, a ≤ b ∧ b ≤ log.length ∧
    a + (log.length - b) = (cutLog log budget tail).2 ∧
    (cutLog log budget tail).1 = log.take a ++ (if (cutLog log budget tail).2 < log.length then
      note a ((log.take a).getLastD 0) (log.length - (cutLog log budget tail).2) else []) ++
        log.drop b := by
  unfold cutLog
  by_cases hfits : log.length ≤ budget
  · simp only [if_pos hfits]
    refine ⟨log.length, log.length, le_rfl, le_rfl, by simp, ?_⟩
    rw [if_neg (lt_irrefl _), List.take_length, List.drop_length, List.append_nil, List.append_nil]
  · simp only [if_neg hfits]
    have hend := headEnd_le (not_le.mp hfits)
    obtain ⟨k, hk⟩ := (tailText_isSuffix log budget tail)
    have hlen := congrArg List.length hk
    rw [List.length_append, List.length_drop] at hlen
    have htake : (log.take (headEnd log budget)).length = headEnd log budget := by
      rw [List.length_take]
      omega
    have hback : log.drop (headEnd log budget + k.length) = tailText log budget tail := by
      rw [← List.drop_drop, ← hk, List.drop_left]
    refine ⟨headEnd log budget, headEnd log budget + k.length, Nat.le_add_right _ _, by omega, ?_, ?_⟩
    · rw [htake]
      omega
    · rw [htake, hback]

end Close

/-- Cutting does not depend on the writes: the head, a note of what was dropped and the tail, with
the whole log where it fits. -/
theorem cut_writes (budget tail : ℕ) (chunks : List Bytes) :
    let log := chunks.flatten
    let c := (close takesAll (writes takesAll (Budget.step ⟨budget, tail⟩) chunks)).1
    let single := (close takesAll (writes takesAll (Budget.step ⟨budget, tail⟩) [log])).1
    (c.out = single.out ∧ c.read = single.read ∧ c.kept = single.kept) ∧
    (∃ a b, a ≤ b ∧ b ≤ log.length ∧ a + (log.length - b) = c.kept ∧ c.read = log.length ∧
      c.out = log.take a ++ (if c.kept < c.read then
        note a ((log.take a).getLastD 0) (c.read - c.kept) else []) ++ log.drop b) ∧
    (log.length ≤ budget → c.out = log) := by
  dsimp only
  obtain ⟨hout, hkept, hread⟩ := closed_writes budget tail chunks
  obtain ⟨hout', hkept', hread'⟩ := closed_writes budget tail [chunks.flatten]
  rw [show [chunks.flatten].flatten = chunks.flatten by simp] at hout' hkept' hread'
  rw [hout, hkept, hread, hout', hkept', hread']
  refine ⟨⟨rfl, rfl, rfl⟩, ?_, ?_⟩
  · obtain ⟨a, b, hab, hb, hlength, hparts⟩ := cutLog_parts chunks.flatten budget tail
    exact ⟨a, b, hab, hb, hlength, rfl, hparts⟩
  · intro hfits
    rw [cutLog, if_pos hfits]

end Kubeast.BuildLog
