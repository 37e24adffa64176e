import Mathlib.Data.List.Basic

/-! Machines fed one item at a time, and what becomes of their output when the items arrive in
pieces: the streaming UTF-8 decoder and the cutting of a text into lines are two of them. -/
namespace Streams

section Feed
variable {S A B : Type*} {step : S → A → S × List B} {s : S} {as bs : List A}

/-- The state after the items `as`, and what was put out on the way. -/
def feed (step : S → A → S × List B) : S → List A → S × List B
  | s, [] => (s, [])
  | s, a :: as =>
    let (s', out) := step s a
    let (s'', outs) := feed step s' as
    (s'', out ++ outs)

@[simp] theorem feed_nil : feed step s [] = (s, []) := rfl

theorem feed_cons (a : A) : feed step s (a :: as) =
    ((feed step (step s a).1 as).1, (step s a).2 ++ (feed step (step s a).1 as).2) := rfl

/-- Pieces fed one after the other put out what the whole puts out. -/
theorem feed_append : feed step s (as ++ bs) =
    ((feed step (feed step s as).1 bs).1,
      (feed step s as).2 ++ (feed step (feed step s as).1 bs).2) := by
  induction as generalizing s with
  | nil => rfl
  | cons a as ih =>
    rw [List.cons_append, feed_cons, feed_cons, ih]
    simp

end Feed

section Lines
variable {α : Type*} [DecidableEq α] {sep : α}

/-- One item of a text: a separator ends the line read so far. -/
def cut (sep : α) (line : List α) (a : α) : List α × List (List α) :=
  if a = sep then ([], [line]) else (line ++ [a], [])

/-- Cutting item by item gives the pieces of the whole, the unfinished line last. -/
theorem splitOn_eq_feed {line : List α} (h : sep ∉ line) (s : List α) :
    (line ++ s).splitOn sep = (feed (cut sep) line s).2 ++ [(feed (cut sep) line s).1] ∧
      sep ∉ (feed (cut sep) line s).1 := by
  induction s generalizing line with
  | nil => simp [List.splitOn_eq_singleton h, h]
  | cons a s ih =>
    by_cases ha : a = sep
    · subst ha
      have hnil := @ih [] List.not_mem_nil
      rw [List.splitOn_append_cons_self_of_not_mem h, feed_cons]
      simpa [cut] using hnil
    · have hline : sep ∉ line ++ [a] := by
        simp only [List.mem_append, List.mem_singleton, not_or]
        exact ⟨h, Ne.symm ha⟩
      have hmore := ih hline
      rw [feed_cons]
      simpa [cut, ha] using hmore

end Lines

section Utf8

/-- Where a streaming UTF-8 decoder stands: the code point begun, how many bytes it still needs,
what the next of them may be, and whether the first character has been put out. -/
structure Decoder where
  point : ℕ
  needed : ℕ
  lower : ℕ
  upper : ℕ
  begun : Bool

def Decoder.start : Decoder := ⟨0, 0, 0x80, 0xBF, false⟩

/-- The decoder between two characters. -/
def Decoder.ready (d : Decoder) : Decoder := ⟨0, 0, 0x80, 0xBF, d.begun⟩

def replacement : Char := Char.ofNat 0xFFFD

/-- The first byte of a character; what no character begins with is replaced. -/
def Decoder.lead (d : Decoder) (b : ℕ) : Decoder × List Char :=
  if b ≤ 0x7F then (d, [Char.ofNat b])
  else if 0xC2 ≤ b ∧ b ≤ 0xDF then ({ d with point := b - 0xC0, needed := 1 }, [])
  else if 0xE0 ≤ b ∧ b ≤ 0xEF then
    ({ d with
        point := b - 0xE0
        needed := 2
        lower := if b = 0xE0 then 0xA0 else d.lower
        upper := if b = 0xED then 0x9F else d.upper }, [])
  else if 0xF0 ≤ b ∧ b ≤ 0xF4 then
    ({ d with
        point := b - 0xF0
        needed := 3
        lower := if b = 0xF0 then 0x90 else d.lower
        upper := if b = 0xF4 then 0x8F else d.upper }, [])
  else (d, [replacement])

/-- One byte; one that cannot go on the character begun ends it and is read as a first byte. -/
def Decoder.byte (d : Decoder) (b : ℕ) : Decoder × List Char :=
  if d.needed = 0 then d.lead b
  else if b < d.lower ∨ d.upper < b then
    let (d', out) := d.ready.lead b
    (d', replacement :: out)
  else
    let point := d.point * 64 + (b - 0x80)
    if d.needed = 1 then (d.ready, [Char.ofNat point])
    else ({ d with point := point, needed := d.needed - 1, lower := 0x80, upper := 0xBF }, [])

/-- A byte order mark is left out where it is the first character. -/
def Decoder.step (d : Decoder) (b : UInt8) : Decoder × List Char :=
  let (d', out) := d.byte b.toNat
  match out with
  | [] => (d', [])
  | c :: out =>
    ({ d' with begun := true }, if !d.begun ∧ c = Char.ofNat 0xFEFF then out else c :: out)

end Utf8

end Streams
