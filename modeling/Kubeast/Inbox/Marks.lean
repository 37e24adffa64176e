import Kubeast.Foundation.Transition
import Kubeast.Inbox.Record
import Mathlib.Logic.Function.Basic

/-! The handling marks of an inbox row: `set_marks` and `restore_marks` in `inbox.py`, as `set_inbox_marks` calls
them for two people at once. -/
namespace Kubeast.Inbox
open Transition

/-- A key of `MARKS`. -/
inductive Mark
  | acknowledged
  | assignee
  | note
  | done
deriving DecidableEq

/-- A name in `MARK_COLUMNS`. -/
inductive Column
  | ackedBy
  | ackedAt
  | assignee
  | note
  | noteBy
  | noteAt
  | doneBy
  | doneAt
deriving DecidableEq

@[reducible] def Mark.Value : Mark → Type
  | .acknowledged | .done => Bool
  | .assignee | .note => String

@[reducible] def Column.Value : Column → Type
  | .ackedAt | .noteAt | .doneAt => Option ℤ
  | .ackedBy | .assignee | .note | .noteBy | .doneBy => String

/-- The mark a column belongs to. -/
@[reducible] def Column.mark : Column → Mark
  | .ackedBy | .ackedAt => .acknowledged
  | .assignee => .assignee
  | .note | .noteBy | .noteAt => .note
  | .doneBy | .doneAt => .done

instance : (m : Mark) → DecidableEq m.Value
  | .acknowledged | .done => inferInstanceAs (DecidableEq Bool)
  | .assignee | .note => inferInstanceAs (DecidableEq String)

instance : (c : Column) → DecidableEq c.Value
  | .ackedAt | .noteAt | .doneAt => inferInstanceAs (DecidableEq (Option ℤ))
  | .ackedBy | .assignee | .note | .noteBy | .doneBy => inferInstanceAs (DecidableEq String)

/-- The mark columns of a row. -/
abbrev Columns := (c : Column) → c.Value

/-- `marks_of`. -/
def marksOf (row : Columns) : (m : Mark) → m.Value
  | .acknowledged => (row .ackedAt).isSome
  | .assignee => row .assignee
  | .note => row .note
  | .done => (row .doneAt).isSome

def marks : List Mark := [.acknowledged, .assignee, .note, .done]

/-- A call of `set_marks` for the row. -/
structure Call where
  changes : (m : Mark) → Option m.Value
  actor : String
  now : ℤ

namespace Call
variable (a : Call) (row : Columns)

def setAcknowledged (on : Bool) : Columns :=
  if on ≠ marksOf row .acknowledged then
    Function.update (Function.update row .ackedBy (if on then a.actor else "")) .ackedAt
      (if on then some a.now else none)
  else row

def setAssignee (assignee : String) : Columns := Function.update row .assignee assignee

def setNote (note : String) : Columns :=
  if note ≠ row .note then
    Function.update (Function.update (Function.update row .note note) .noteBy a.actor) .noteAt (some a.now)
  else row

def setDone (on : Bool) : Columns :=
  if on ≠ marksOf row .done then
    Function.update (Function.update row .doneBy (if on then a.actor else "")) .doneAt (if on then some a.now else none)
  else row

/-- The row as the session holds it before the commit. -/
def held : Columns :=
  let row := (a.changes .acknowledged).elim row (a.setAcknowledged row)
  let row := (a.changes .assignee).elim row (setAssignee row)
  let row := (a.changes .note).elim row (a.setNote row)
  (a.changes .done).elim row (a.setDone row)

/-- The marks that change. -/
def changed : List Mark := marks.filter fun m => marksOf row m ≠ marksOf (a.held row) m

/-- What a column gets with the new value of its mark. -/
def stamp : (c : Column) → c.mark.Value → c.Value
  | .ackedBy, (on : Bool) | .doneBy, (on : Bool) => if on then a.actor else ""
  | .ackedAt, (on : Bool) | .doneAt, (on : Bool) => if on then some a.now else none
  | .assignee, assignee => assignee
  | .note, note => note
  | .noteBy, _ => a.actor
  | .noteAt, _ => some a.now

end Call

/-- The UPDATE of the mark columns, as `flush`. -/
def flushMarks (loaded held stored : Columns) : Columns := fun c => written (loaded c) (held c) (stored c)

/-- Where the call stands whose audit row cannot be stored; it keeps the columns as it read them. -/
inductive Failed
  | called
  | selected (columns : Columns)
  | marked (columns : Columns)
  | restoring (columns loaded : Columns)
  | over (columns : Columns)

/-- Where the other call stands. -/
inductive Other
  | called
  | selected (columns : Columns)
  | over (columns : Columns)

structure Handling where
  row : Columns
  failed : Failed
  other : Other

inductive Who
  | failed
  | other
deriving DecidableEq

variable (a b : Call)

def Handling.start (row : Columns) : Handling := ⟨row, .called, .called⟩

/-- The next statement of the one or of the other. Where no mark changed there is no audit row. -/
def Handling.step (s : Handling) : Who → Handling
  | .failed =>
    match s.failed with
    | .called => { s with failed := .selected s.row }
    | .selected columns =>
      { s with
        row := flushMarks columns (a.held columns) s.row
        failed := if a.changed columns = [] then .over columns else .marked columns }
    | .marked columns => { s with failed := .restoring columns s.row }
    | .restoring columns loaded =>
      { s with
        row := flushMarks loaded columns s.row
        failed := .over columns }
    | .over _ => s
  | .other =>
    match s.other with
    | .called => { s with other := .selected s.row }
    | .selected columns =>
      { s with
        row := flushMarks columns (b.held columns) s.row
        other := .over columns }
    | .over _ => s

/-- The row after the other call alone. -/
def alone (row : Columns) : Columns := (exec (Handling.step a b) (.start row) [.other, .other]).row

/-- The failed call's marks are as without it, and the other's changes are all there. -/
structure Undone (row : Columns) (s : Handling) : Prop where
  restored : ∀ columns columns', s.failed = .over columns → s.other = .over columns' → ∀ m ∈ a.changed columns,
    marksOf s.row m = marksOf (alone a b row) m ∧
      (m ∉ b.changed columns' → ∀ c : Column, c.mark = m → s.row c = alone a b row c)
  kept : ∀ columns, s.other = .over columns → ∀ c : Column, c.mark ∈ b.changed columns → s.row c = b.held columns c

/-- The call asks for what the row does not have. -/
def Call.Asks (row : Columns) (m : Mark) : Prop := ∃ v, a.changes m = some v ∧ v ≠ marksOf row m

/-- What spares the other call, whose select comes after `i` statements of the failed one and whose commit after `j`.
Before the restore's select it may ask for nothing that the row did not have; between the select and the commit it may
not touch a mark of the failed call; and after it has read one of these it may not ask for that value. -/
def Spares (row : Columns) (i j : ℕ) : Prop :=
  j = 0 ∨ i = 4 ∨ (∀ m, ¬a.Asks row m) ∨
    if j ≤ 2 then ∀ (c : Column) (v : c.mark.Value), b.changes c.mark = some v →
      v = marksOf row c.mark ∧ (2 ≤ i → a.Asks row c.mark → row c = b.stamp c v)
    else if j = 3 then ∀ (c : Column) (u v : c.mark.Value), a.changes c.mark = some u → u ≠ marksOf row c.mark →
      b.changes c.mark = some v → v = marksOf row c.mark ∧ (2 ≤ i → a.stamp c u ≠ row c → row c = b.stamp c v)
    else 2 ≤ i → ∀ (c : Column) (u v : c.mark.Value), a.changes c.mark = some u → u ≠ marksOf row c.mark →
      b.changes c.mark = some v → v ≠ u ∧ (b.stamp c v = a.stamp c u → row c = b.stamp c v)

section Calls
variable {a b : Call} {row x y z : Columns} {m : Mark} {c : Column}

theorem setAcknowledged_of_ne {on : Bool} (h : c.mark ≠ .acknowledged) : a.setAcknowledged row on c = row c := by
  unfold Call.setAcknowledged
  split
  · cases c <;> first | rfl | exact absurd rfl h
  · rfl

theorem setAssignee_of_ne {assignee : String} (h : c.mark ≠ .assignee) : Call.setAssignee row assignee c = row c := by
  cases c <;> first | rfl | exact absurd rfl h

theorem setNote_of_ne {note : String} (h : c.mark ≠ .note) : a.setNote row note c = row c := by
  unfold Call.setNote
  split
  · cases c <;> first | rfl | exact absurd rfl h
  · rfl

theorem setDone_of_ne {on : Bool} (h : c.mark ≠ .done) : a.setDone row on c = row c := by
  unfold Call.setDone
  split
  · cases c <;> first | rfl | exact absurd rfl h
  · rfl

theorem elim_of_ne {α : Type} {o : Option α} {f : α → Columns} (h : ∀ v, f v c = row c) : o.elim row f c = row c := by
  cases o with
  | none => rfl
  | some v => exact h v

theorem setNote_at (h : ∀ c : Column, c.mark = .note → x c = row c) (note : String) (hc : c.mark = .note)
    (v : c.mark.Value) (hv : HEq v note) :
    a.setNote x note c = if v = marksOf row c.mark then row c else a.stamp c v := by
  have hold := h c hc
  unfold Call.setNote
  rw [h .note rfl]
  cases c <;> try cases hc
  all_goals
    obtain rfl := eq_of_heq hv
    simp only [ne_eq, ite_not]
    split
    · next heq => exact hold.trans (if_pos heq).symm
    · next hne => exact (if_neg hne).symm

theorem setDone_at (h : ∀ c : Column, c.mark = .done → x c = row c) (on : Bool) (hc : c.mark = .done)
    (v : c.mark.Value) (hv : HEq v on) :
    a.setDone x on c = if v = marksOf row c.mark then row c else a.stamp c v := by
  have hold := h c hc
  have hmark : marksOf x .done = marksOf row .done := congrArg Option.isSome (h .doneAt rfl)
  unfold Call.setDone
  rw [hmark]
  cases c <;> try cases hc
  all_goals
    obtain rfl := eq_of_heq hv
    simp only [ne_eq, ite_not]
    split
    · exact hold
    · rfl

/-- What a call holds in a column says the value of the column's mark. -/
theorem held_at (a : Call) (row : Columns) (c : Column) : a.held row c =
    (a.changes c.mark).elim (row c) fun v => if v = marksOf row c.mark then row c else a.stamp c v := by
  unfold Call.held
  cases c
  case ackedBy | ackedAt =>
    rw [elim_of_ne fun v => setDone_of_ne (by decide), elim_of_ne fun v => setNote_of_ne (by decide),
      elim_of_ne fun v => setAssignee_of_ne (by decide)]
    cases a.changes .acknowledged with
    | none => rfl
    | some on =>
      simp only [Option.elim_some, Call.setAcknowledged, ne_eq, ite_not]
      split <;> rfl
  case assignee =>
    rw [elim_of_ne fun v => setDone_of_ne (by decide), elim_of_ne fun v => setNote_of_ne (by decide)]
    cases a.changes .assignee with
    | none => exact elim_of_ne fun v => setAcknowledged_of_ne (by decide)
    | some assignee =>
      simp only [Option.elim_some]
      split
      · next heq => exact heq
      · rfl
  case note | noteBy | noteAt =>
    rw [elim_of_ne fun v => setDone_of_ne (by decide)]
    cases a.changes .note with
    | none =>
      rw [Option.elim_none, Option.elim_none, elim_of_ne fun v => setAssignee_of_ne (by decide)]
      exact elim_of_ne fun v => setAcknowledged_of_ne (by decide)
    | some note =>
      rw [Option.elim_some, Option.elim_some]
      apply setNote_at
      · intro c hc
        rw [elim_of_ne fun v => setAssignee_of_ne (by rw [hc]; decide)]
        exact elim_of_ne fun v => setAcknowledged_of_ne (by rw [hc]; decide)
      · rfl
      · exact HEq.rfl
  case doneBy | doneAt =>
    cases a.changes .done with
    | none =>
      rw [Option.elim_none, Option.elim_none, elim_of_ne fun v => setNote_of_ne (by decide),
        elim_of_ne fun v => setAssignee_of_ne (by decide)]
      exact elim_of_ne fun v => setAcknowledged_of_ne (by decide)
    | some on =>
      rw [Option.elim_some, Option.elim_some]
      apply setDone_at
      · intro c hc
        rw [elim_of_ne fun v => setNote_of_ne (by rw [hc]; decide),
          elim_of_ne fun v => setAssignee_of_ne (by rw [hc]; decide)]
        exact elim_of_ne fun v => setAcknowledged_of_ne (by rw [hc]; decide)
      · rfl
      · exact HEq.rfl

theorem marksOf_congr (h : ∀ c : Column, c.mark = m → x c = y c) : marksOf x m = marksOf y m := by
  cases m
  case acknowledged | done => exact congrArg Option.isSome (h _ rfl)
  case assignee | note => exact h _ rfl

/-- The value a mark is left with. -/
theorem marksOf_held (a : Call) (row : Columns) (m : Mark) :
    marksOf (a.held row) m = (a.changes m).getD (marksOf row m) := by
  cases m
  case acknowledged =>
    rw [marksOf, held_at]
    cases a.changes .acknowledged with
    | none => rfl
    | some on =>
      rw [Option.elim_some, Option.getD_some]
      split
      · next heq => exact heq.symm
      · cases on <;> rfl
  case done =>
    rw [marksOf, held_at]
    cases a.changes .done with
    | none => rfl
    | some on =>
      rw [Option.elim_some, Option.getD_some]
      split
      · next heq => exact heq.symm
      · cases on <;> rfl
  case assignee =>
    rw [marksOf, held_at]
    cases a.changes .assignee with
    | none => rfl
    | some assignee =>
      rw [Option.elim_some, Option.getD_some]
      split
      · next heq => exact heq.symm
      · rfl
  case note =>
    rw [marksOf, held_at]
    cases a.changes .note with
    | none => rfl
    | some note =>
      rw [Option.elim_some, Option.getD_some]
      split
      · next heq => exact heq.symm
      · rfl

theorem mem_changed : m ∈ a.changed row ↔ a.Asks row m := by
  have hmark : m ∈ marks := by cases m <;> decide
  rw [Call.changed, List.mem_filter, decide_eq_true_iff, marksOf_held]
  unfold Call.Asks
  cases a.changes m with
  | none => simp
  | some v => simp [hmark, eq_comm]

theorem notMem_changed : m ∉ a.changed row ↔ ∀ v, a.changes m = some v → v = marksOf row m := by
  rw [mem_changed, Call.Asks]
  push Not
  rfl

/-- A column whose mark does not change stays. -/
theorem held_of_notMem (h : c.mark ∉ a.changed row) : a.held row c = row c := by
  rw [held_at]
  cases hv : a.changes c.mark with
  | none => rfl
  | some v => exact if_pos (notMem_changed.mp h v hv)

theorem held_of_ne {v : c.mark.Value} (hv : a.changes c.mark = some v) (hne : v ≠ marksOf row c.mark) :
    a.held row c = a.stamp c v := by
  rw [held_at, hv]
  exact if_neg hne

theorem held_of_nil (h : a.changed row = []) : a.held row = row := by
  funext c
  apply held_of_notMem
  rw [h]
  exact List.not_mem_nil

theorem not_nil_of_mem (h : m ∈ a.changed row) : a.changed row ≠ [] := List.ne_nil_of_mem h

theorem marksOf_ne (h : m ∈ a.changed row) : marksOf (a.held row) m ≠ marksOf row m := by
  obtain ⟨v, hv, hne⟩ := mem_changed.mp h
  rwa [marksOf_held, hv]

theorem marksOf_of_some {v : m.Value} (hv : a.changes m = some v) : marksOf (a.held row) m = v := by
  rw [marksOf_held, hv]
  rfl

theorem marksOf_of_notMem (h : m ∉ a.changed row) : marksOf (a.held row) m = marksOf row m :=
  marksOf_congr fun _ hc => held_of_notMem (hc ▸ h)

/-- The column that says whether a mark is set, or to what. -/
def Mark.key : Mark → Column
  | .acknowledged => .ackedAt
  | .assignee => .assignee
  | .note => .note
  | .done => .doneAt

@[simp] theorem mark_key (m : Mark) : m.key.mark = m := by cases m <;> rfl

theorem marksOf_of_key (h : x m.key = y m.key) : marksOf x m = marksOf y m := by
  cases m
  case acknowledged | done => exact congrArg Option.isSome h
  case assignee | note => exact h

end Calls

section Outcomes
variable {a b : Call} {row seen final : Columns}

/-- `Undone`, of the row the other call saw and the row in the end. -/
structure UndoneAt (a b : Call) (row seen final : Columns) : Prop where
  restored : ∀ m ∈ a.changed row, marksOf final m = marksOf (b.held row) m ∧
    (m ∉ b.changed seen → ∀ c : Column, c.mark = m → final c = b.held row c)
  kept : ∀ c : Column, c.mark ∈ b.changed seen → final c = b.held seen c

/-- The restore came last, the other call had read the row before. -/
theorem undoneAt_back : UndoneAt a b row row row ↔
    ∀ (c : Column) (v : c.mark.Value), b.changes c.mark = some v → v = marksOf row c.mark := by
  constructor
  · intro h c v hv
    by_contra hne
    have hmem : c.mark ∈ b.changed row := mem_changed.mpr ⟨v, hv, hne⟩
    have hsame : marksOf row c.mark = marksOf (b.held row) c.mark :=
      marksOf_congr fun c' hc' => h.kept c' (hc' ▸ hmem)
    exact hne ((marksOf_of_some hv).symm.trans hsame.symm)
  · intro h
    have hnot (m : Mark) : m ∉ b.changed row := by
      rw [← mark_key m]
      exact notMem_changed.mpr (h m.key)
    refine ⟨fun m _ => ⟨(marksOf_of_notMem (hnot m)).symm, fun _ c hc => ?_⟩, fun c hc => absurd hc (hnot _)⟩
    exact (held_of_notMem (hnot _)).symm

/-- The restore came last, the other call had read the failed call's marks. -/
theorem undoneAt_back_seen : UndoneAt a b row (a.held row) row ↔
    ∀ (c : Column) (v : c.mark.Value), b.changes c.mark = some v →
      v = marksOf row c.mark ∧ (c.mark ∈ a.changed row → row c = b.stamp c v) := by
  constructor
  · intro h c v hv
    have hvalue : v = marksOf row c.mark := by
      by_cases hmem : c.mark ∈ a.changed row
      · exact ((h.restored _ hmem).1.trans (marksOf_of_some hv)).symm
      · by_contra hne
        have hmem' : c.mark ∈ b.changed (a.held row) :=
          mem_changed.mpr ⟨v, hv, fun heq => hne (heq.trans (marksOf_of_notMem hmem))⟩
        have hsame : marksOf row c.mark = marksOf (b.held (a.held row)) c.mark :=
          marksOf_congr fun c' hc' => h.kept c' (hc' ▸ hmem')
        exact hne ((marksOf_of_some hv).symm.trans hsame.symm)
    refine ⟨hvalue, fun hmem => ?_⟩
    have hne : v ≠ marksOf (a.held row) c.mark := fun heq => marksOf_ne hmem (heq.symm.trans hvalue)
    exact (h.kept c (mem_changed.mpr ⟨v, hv, hne⟩)).trans (held_of_ne hv hne)
  · intro h
    have hnot (m : Mark) : m ∉ b.changed row := by
      rw [← mark_key m]
      exact notMem_changed.mpr fun v hv => (h m.key v hv).1
    refine ⟨fun m _ => ⟨(marksOf_of_notMem (hnot m)).symm, fun _ c hc => (held_of_notMem (hnot _)).symm⟩,
      fun c hc => ?_⟩
    obtain ⟨v, hv, hne⟩ := mem_changed.mp hc
    obtain ⟨hvalue, hstamp⟩ := h c v hv
    rw [held_of_ne hv hne]
    refine hstamp ?_
    by_contra hmem
    exact hne (hvalue.trans (marksOf_of_notMem hmem).symm)

/-- The other call came between the restore's select and its commit, which writes the failed call's columns only. -/
theorem undoneAt_between (hfinal : ∀ c, final c = if a.held row c = row c then b.held row c else row c) :
    UndoneAt a b row row final ↔ ∀ (c : Column) (v : c.mark.Value), c.mark ∈ a.changed row →
      b.changes c.mark = some v → v = marksOf row c.mark := by
  have hkey {m : Mark} (hmem : m ∈ a.changed row) : marksOf final m = marksOf row m := by
    apply marksOf_of_key
    rw [hfinal, if_neg fun heq => marksOf_ne hmem (marksOf_of_key heq)]
  constructor
  · intro h c v hmem hv
    exact (((hkey hmem).symm.trans (h.restored _ hmem).1).trans (marksOf_of_some hv)).symm
  · intro h
    have hnot {m : Mark} (hmem : m ∈ a.changed row) : m ∉ b.changed row := by
      rw [← mark_key m] at hmem ⊢
      exact notMem_changed.mpr fun v hv => h m.key v hmem hv
    refine ⟨fun m hmem => ⟨(hkey hmem).trans (marksOf_of_notMem (hnot hmem)).symm, fun hb c hc => ?_⟩, fun c hc => ?_⟩
    · have hheld : b.held row c = row c := held_of_notMem (hc ▸ hb)
      rw [hfinal, hheld, ite_self]
    · rw [hfinal]
      refine if_pos (held_of_notMem fun hmem => hnot hmem hc)

theorem undoneAt_between_seen
    (hfinal : ∀ c, final c = if a.held row c = row c then b.held (a.held row) c else row c) :
    UndoneAt a b row (a.held row) final ↔ ∀ (c : Column) (v : c.mark.Value), c.mark ∈ a.changed row →
      b.changes c.mark = some v → v = marksOf row c.mark ∧ (a.held row c ≠ row c → row c = b.stamp c v) := by
  have hkey {m : Mark} (hmem : m ∈ a.changed row) : marksOf final m = marksOf row m := by
    apply marksOf_of_key
    rw [hfinal, if_neg fun heq => marksOf_ne hmem (marksOf_of_key heq)]
  constructor
  · intro h c v hmem hv
    have hvalue : v = marksOf row c.mark :=
      (((hkey hmem).symm.trans (h.restored _ hmem).1).trans (marksOf_of_some hv)).symm
    refine ⟨hvalue, fun hdiffers => ?_⟩
    have hne : v ≠ marksOf (a.held row) c.mark := fun heq => marksOf_ne hmem (heq.symm.trans hvalue)
    have hkept := h.kept c (mem_changed.mpr ⟨v, hv, hne⟩)
    rwa [hfinal, if_neg hdiffers, held_of_ne hv hne] at hkept
  · intro h
    have hnot {m : Mark} (hmem : m ∈ a.changed row) : m ∉ b.changed row := by
      rw [← mark_key m] at hmem ⊢
      exact notMem_changed.mpr fun v hv => (h m.key v hmem hv).1
    refine ⟨fun m hmem => ⟨(hkey hmem).trans (marksOf_of_notMem (hnot hmem)).symm, fun hb c hc => ?_⟩, fun c hc => ?_⟩
    · have halone : b.held row c = row c := held_of_notMem (hc ▸ hnot hmem)
      have hheld : b.held (a.held row) c = a.held row c := held_of_notMem (hc ▸ hb)
      rw [hfinal, halone, hheld]
      split
      · next heq => exact heq
      · rfl
    · rw [hfinal]
      split
      · rfl
      · next hdiffers =>
        obtain ⟨v, hv, hne⟩ := mem_changed.mp hc
        have hmem : c.mark ∈ a.changed row := by
          by_contra hmem
          exact hdiffers (held_of_notMem hmem)
        rw [held_of_ne hv hne]
        exact (h c v hmem hv).2 hdiffers

/-- The other call had read the failed call's marks and came after the restore. -/
theorem undoneAt_after_seen
    (hfinal : ∀ c, final c = if b.held (a.held row) c = a.held row c then row c else b.held (a.held row) c) :
    UndoneAt a b row (a.held row) final ↔ ∀ (c : Column) (v : c.mark.Value), c.mark ∈ a.changed row →
      b.changes c.mark = some v →
        v ≠ marksOf (a.held row) c.mark ∧ (b.stamp c v = a.held row c → row c = b.stamp c v) := by
  have hback {m : Mark} (hb : m ∉ b.changed (a.held row)) {c : Column} (hc : c.mark = m) : final c = row c := by
    rw [hfinal, if_pos (held_of_notMem (hc ▸ hb))]
  constructor
  · intro h c v hmem hv
    have hne : v ≠ marksOf (a.held row) c.mark := by
      intro heq
      have hb : c.mark ∉ b.changed (a.held row) :=
        notMem_changed.mpr fun v' hv' => (Option.some.inj (hv'.symm.trans hv)).trans heq
      have hsame : marksOf final c.mark = marksOf row c.mark := marksOf_congr fun c' hc' => hback hb hc'
      have hvalue := (hsame.symm.trans (h.restored _ hmem).1).trans (marksOf_of_some hv)
      exact marksOf_ne hmem (heq.symm.trans hvalue.symm)
    refine ⟨hne, fun hstamp => ?_⟩
    have hkept := h.kept c (mem_changed.mpr ⟨v, hv, hne⟩)
    rwa [hfinal, held_of_ne hv hne, if_pos hstamp] at hkept
  · intro h
    have hkept (c : Column) (hc : c.mark ∈ b.changed (a.held row)) : final c = b.held (a.held row) c := by
      obtain ⟨v, hv, hne⟩ := mem_changed.mp hc
      rw [hfinal]
      split
      · next heq =>
        by_cases hmem : c.mark ∈ a.changed row
        · have hheld := held_of_ne hv hne
          rw [hheld]
          exact (h c v hmem hv).2 (hheld.symm.trans heq)
        · exact (heq.trans (held_of_notMem hmem)).symm
      · rfl
    refine ⟨fun m hmem => ?_, hkept⟩
    cases hv : b.changes m with
    | none =>
      have hb (x : Columns) : m ∉ b.changed x := notMem_changed.mpr fun v hv' => by
        rw [hv] at hv'
        cases hv'
      have hsame (c : Column) (hc : c.mark = m) : final c = b.held row c :=
        (hback (hb _) hc).trans (held_of_notMem (hc ▸ hb row)).symm
      exact ⟨marksOf_congr hsame, fun _ => hsame⟩
    | some v =>
      have hb : m ∈ b.changed (a.held row) := by
        obtain ⟨c, rfl⟩ : ∃ c : Column, c.mark = m := ⟨m.key, mark_key m⟩
        exact mem_changed.mpr ⟨v, hv, (h c v hmem hv).1⟩
      refine ⟨?_, fun hnot => absurd hb hnot⟩
      rw [marksOf_congr fun c hc => hkept c (hc ▸ hb), marksOf_of_some hv, marksOf_of_some hv]

end Outcomes

section Runs
variable {a b : Call} {row x y : Columns} {s : Handling} {schedule : List Who} {i j : ℕ}

@[simp] theorem flushMarks_self (loaded held : Columns) : flushMarks loaded held loaded = held := by
  funext c
  unfold flushMarks written
  split
  · next heq => exact heq.symm
  · rfl

theorem flushMarks_same (loaded stored : Columns) : flushMarks loaded loaded stored = stored := by
  funext c
  exact if_pos rfl

@[simp] theorem alone_eq (a b : Call) (row : Columns) : alone a b row = b.held row := flushMarks_self row _

theorem undone_iff (hf : s.failed = .over row) (ho : s.other = .over x) :
    Undone a b row s ↔ UndoneAt a b row x s.row := by
  constructor
  · intro h
    refine ⟨fun m hm => ?_, h.kept x ho⟩
    have hrestored := h.restored row x hf ho m hm
    rwa [alone_eq] at hrestored
  · intro h
    refine ⟨fun columns columns' hf' ho' m hm => ?_, fun columns ho' => ?_⟩
    · rw [hf] at hf'
      rw [ho] at ho'
      obtain rfl := Failed.over.inj hf'
      obtain rfl := Other.over.inj ho'
      rw [alone_eq]
      exact h.restored m hm
    · rw [ho] at ho'
      obtain rfl := Other.over.inj ho'
      exact h.kept

/-- An order of the statements, by where the other call's two stand. -/
def order (i j : ℕ) : List Who :=
  List.replicate i Who.failed ++ Who.other ::
    (List.replicate (j - i) Who.failed ++ Who.other :: List.replicate (4 - j) Who.failed)

theorem exists_failed (h : Who.other ∈ schedule) :
    ∃ i rest, schedule = List.replicate i Who.failed ++ Who.other :: rest := by
  induction schedule with
  | nil => cases h
  | cons w ws ih =>
    cases w with
    | other => exact ⟨0, ws, rfl⟩
    | failed =>
      obtain ⟨i, rest, rfl⟩ := ih (List.mem_of_ne_of_mem (by decide) h)
      exact ⟨i + 1, rest, rfl⟩

/-- Every interleaving has such an order. -/
theorem exists_order (hfailed : schedule.count .failed = 4) (hother : schedule.count .other = 2) :
    ∃ i j, i ≤ j ∧ j ≤ 4 ∧ schedule = order i j := by
  obtain ⟨i, rest, rfl⟩ := exists_failed (List.count_pos_iff.mp (by omega : 0 < schedule.count .other))
  simp only [List.count_append, List.count_cons, List.count_replicate] at hfailed hother
  obtain ⟨k, rest, rfl⟩ := exists_failed (List.count_pos_iff.mp (by simp at hother; omega : 0 < rest.count .other))
  simp [List.count_replicate] at hfailed hother
  have hrest : rest = List.replicate rest.length Who.failed := by
    refine List.eq_replicate_of_mem fun w hw => ?_
    cases w with
    | failed => rfl
    | other => exact absurd hother (List.count_pos_iff.mpr hw).ne'
  rw [hrest, List.count_replicate_self] at hfailed
  refine ⟨i, i + k, by omega, by omega, ?_⟩
  have hlength : rest.length = 4 - (i + k) := by omega
  rw [order, Nat.add_sub_cancel_left, hrest, hlength]

/-- What the other call saw. -/
def saw (a : Call) (row : Columns) (i : ℕ) : Columns := if 2 ≤ i then a.held row else row

/-- The other's commit comes before the restore's select. -/
theorem run_back (h : a.changed row ≠ []) (hij : i ≤ j) (hj : j = 1 ∨ j = 2) :
    exec (Handling.step a b) (.start row) (order i j) = ⟨row, .over row, .over (saw a row i)⟩ := by
  have hi : i = 0 ∨ i = 1 ∨ i = 2 := by omega
  rcases hj with rfl | rfl <;> rcases hi with rfl | rfl | rfl <;>
    first
    | omega
    | simp [order, exec, Handling.start, Handling.step, saw, h]

theorem flush_between (x : Columns) (hx : x = row ∨ x = a.held row) (c : Column) :
    flushMarks (a.held row) row (flushMarks x (b.held x) (a.held row)) c =
      if a.held row c = row c then b.held x c else row c := by
  unfold flushMarks written
  by_cases hsame : a.held row c = row c
  · rw [if_pos hsame.symm, if_pos hsame]
    split
    · next heq =>
      rw [heq]
      rcases hx with rfl | rfl
      · exact hsame
      · rfl
    · rfl
  · rw [if_neg (Ne.symm hsame), if_neg hsame]

/-- It comes between the restore's select and its commit. -/
theorem run_between (h : a.changed row ≠ []) (hi : i ≤ 3) :
    exec (Handling.step a b) (.start row) (order i 3) =
      ⟨flushMarks (a.held row) row (flushMarks (saw a row i) (b.held (saw a row i)) (a.held row)), .over row,
        .over (saw a row i)⟩ := by
  obtain rfl | rfl | rfl | rfl : i = 0 ∨ i = 1 ∨ i = 2 ∨ i = 3 := by omega
  all_goals simp [order, exec, Handling.start, Handling.step, saw, h]

/-- It comes after the restore. -/
theorem run_after (h : a.changed row ≠ []) (hi : i ≤ 3) :
    exec (Handling.step a b) (.start row) (order i 4) =
      ⟨flushMarks (saw a row i) (b.held (saw a row i)) row, .over row, .over (saw a row i)⟩ := by
  obtain rfl | rfl | rfl | rfl : i = 0 ∨ i = 1 ∨ i = 2 ∨ i = 3 := by omega
  all_goals simp [order, exec, Handling.start, Handling.step, saw, h]

/-- The failed call came first, or changed nothing. -/
theorem run_apart (h : i = 4 ∨ a.changed row = []) (hij : i ≤ j) (hj : j ≤ 4) (hj0 : j ≠ 0) :
    exec (Handling.step a b) (.start row) (order i j) = ⟨b.held row, .over row, .over row⟩ := by
  by_cases hnil : a.changed row = []
  · have hheld := held_of_nil hnil
    have hi : i = 0 ∨ i = 1 ∨ i = 2 ∨ i = 3 ∨ i = 4 := by omega
    obtain rfl | rfl | rfl | rfl : j = 1 ∨ j = 2 ∨ j = 3 ∨ j = 4 := by omega
    all_goals
      rcases hi with rfl | rfl | rfl | rfl | rfl <;>
        first
        | omega
        | simp [order, exec, Handling.start, Handling.step, hnil, hheld, flushMarks_same]
  · obtain rfl := h.resolve_right hnil
    obtain rfl : j = 4 := by omega
    simp [order, exec, Handling.start, Handling.step, hnil]

/-- The other call came first. -/
theorem undone_first (a b : Call) (row : Columns) :
    Undone a b row (exec (Handling.step a b) (.start row) (order 0 0)) := by
  have hrun : exec (Handling.step a b) (.start row) (order 0 0) =
      ⟨b.held row, .over (b.held row), .over row⟩ := by
    by_cases hchanged : a.changed (b.held row) = []
    · simp [order, exec, Handling.start, Handling.step, hchanged, held_of_nil hchanged]
    · simp [order, exec, Handling.start, Handling.step, hchanged]
  rw [hrun]
  refine ⟨fun _ _ _ _ m _ => ?_, fun columns ho => ?_⟩
  · rw [alone_eq]
    exact ⟨rfl, fun _ _ _ => rfl⟩
  · obtain rfl := Other.over.inj ho
    exact fun _ _ => rfl

theorem undoneAt_self : UndoneAt a b row row (b.held row) :=
  ⟨fun _ _ => ⟨rfl, fun _ _ _ => rfl⟩, fun _ _ => rfl⟩

theorem changed_eq_nil : a.changed row = [] ↔ ∀ m, ¬a.Asks row m := by
  simp only [List.eq_nil_iff_forall_not_mem, mem_changed]

/-- What is asked of a mark that the failed call changes. -/
theorem forall_asked (P : (c : Column) → c.mark.Value → c.Value → c.mark.Value → Prop) :
    (∀ (c : Column) (v : c.mark.Value), c.mark ∈ a.changed row → b.changes c.mark = some v →
      P c v (a.held row c) (marksOf (a.held row) c.mark)) ↔
    ∀ (c : Column) (u v : c.mark.Value), a.changes c.mark = some u → u ≠ marksOf row c.mark →
      b.changes c.mark = some v → P c v (a.stamp c u) u := by
  constructor
  · intro h c u v hu hne hv
    have hP := h c v (mem_changed.mpr ⟨u, hu, hne⟩) hv
    rwa [held_of_ne hu hne, marksOf_of_some hu] at hP
  · intro h c v hmem hv
    obtain ⟨u, hu, hne⟩ := mem_changed.mp hmem
    rw [held_of_ne hu hne, marksOf_of_some hu]
    exact h c u v hu hne hv

theorem undone_order (a b : Call) (row : Columns) (hij : i ≤ j) (hj : j ≤ 4) :
    Undone a b row (exec (Handling.step a b) (.start row) (order i j)) ↔ Spares a b row i j := by
  by_cases hj0 : j = 0
  · obtain rfl : i = 0 := by omega
    subst hj0
    exact iff_of_true (undone_first a b row) (Or.inl rfl)
  by_cases hapart : i = 4 ∨ a.changed row = []
  · rw [run_apart hapart hij hj hj0, undone_iff rfl rfl]
    exact iff_of_true undoneAt_self (Or.inr (hapart.imp_right fun hnil => Or.inl (changed_eq_nil.mp hnil)))
  obtain ⟨hi4, hchanged⟩ := not_or.mp hapart
  have hspares : Spares a b row i j ↔ _ :=
    (or_iff_right hj0).trans ((or_iff_right hi4).trans (or_iff_right (changed_eq_nil.not.mp hchanged)))
  rw [hspares]
  by_cases hback : j ≤ 2
  · rw [if_pos hback, run_back hchanged hij (by omega), undone_iff rfl rfl]
    unfold saw
    by_cases hi : 2 ≤ i
    · simp only [hi, if_true, true_imp_iff, ← mem_changed]
      exact undoneAt_back_seen
    · simp only [hi, if_false, false_imp_iff, and_true]
      exact undoneAt_back
  rw [if_neg hback]
  by_cases hbetween : j = 3
  · subst hbetween
    rw [if_pos rfl, run_between hchanged hij, undone_iff rfl rfl]
    unfold saw
    by_cases hi : 2 ≤ i
    · simp only [hi, if_true, true_imp_iff]
      refine (undoneAt_between_seen (flush_between _ (Or.inr rfl))).trans ?_
      exact forall_asked fun c v held _ => v = marksOf row c.mark ∧ (held ≠ row c → row c = b.stamp c v)
    · simp only [hi, if_false, false_imp_iff, and_true]
      refine (undoneAt_between (flush_between _ (Or.inl rfl))).trans ?_
      exact forall_asked fun c v _ _ => v = marksOf row c.mark
  · obtain rfl : j = 4 := by omega
    rw [if_neg hbetween, run_after hchanged (by omega), undone_iff rfl rfl]
    unfold saw
    by_cases hi : 2 ≤ i
    · simp only [hi, if_true, true_imp_iff]
      refine (undoneAt_after_seen fun c => rfl).trans ?_
      exact forall_asked fun c v held value => v ≠ value ∧ (b.stamp c v = held → row c = b.stamp c v)
    · simp only [hi, if_false, false_imp_iff, flushMarks_self]
      exact iff_of_true undoneAt_self trivial

/-- How many statements of the failed call come before the other's select. -/
def selectAfter (schedule : List Who) : ℕ := (schedule.takeWhile (· = .failed)).length

/-- And before its commit. -/
def commitAfter (schedule : List Who) : ℕ := ((schedule.erase .other).takeWhile (· = .failed)).length

theorem selectAfter_order (i j : ℕ) : selectAfter (order i j) = i := by
  rw [selectAfter, order, List.takeWhile_append_of_pos fun w hw => by simp [List.eq_of_mem_replicate hw]]
  simp

theorem commitAfter_order (hij : i ≤ j) : commitAfter (order i j) = j := by
  have hnot (n : ℕ) : Who.other ∉ List.replicate n Who.failed := fun h => by cases List.eq_of_mem_replicate h
  have hfailed (n : ℕ) : ∀ w ∈ List.replicate n Who.failed, decide (w = Who.failed) = true :=
    fun w hw => by simp [List.eq_of_mem_replicate hw]
  rw [commitAfter, order, List.erase_append_right _ (hnot i), List.erase_cons_head,
    List.takeWhile_append_of_pos (hfailed i), List.takeWhile_append_of_pos (hfailed _)]
  simp
  omega

/-- The marks of a call whose audit row could not be stored are undone, and only they, exactly where the other call was
spared. -/
theorem restore_undoes (hfailed : schedule.count .failed = 4) (hother : schedule.count .other = 2) :
    Undone a b row (exec (Handling.step a b) (.start row) schedule) ↔
      Spares a b row (selectAfter schedule) (commitAfter schedule) := by
  obtain ⟨i, j, hij, hj, rfl⟩ := exists_order hfailed hother
  rw [selectAfter_order, commitAfter_order hij]
  exact undone_order a b row hij hj

/-- An alert nobody has touched. -/
def untouched : Columns
  | .ackedAt | .noteAt | .doneAt => none
  | .ackedBy | .assignee | .note | .noteBy | .doneBy => ""

/-- One person closes it. -/
def closing : Call where
  changes
    | .done => some true
    | .acknowledged => none
    | .assignee | .note => none
  actor := "ann@example.com"
  now := 1700000000

/-- Another acknowledges it. -/
def acknowledging : Call where
  changes
    | .acknowledged => some true
    | .done => none
    | .assignee | .note => none
  actor := "bob@example.com"
  now := 1700000001

theorem restore_undoes_interleaved :
    Undone closing acknowledging untouched (exec (Handling.step closing acknowledging) (.start untouched)
        [.failed, .other, .failed, .failed, .other, .failed]) ↔
      Spares closing acknowledging untouched (selectAfter [.failed, .other, .failed, .failed, .other, .failed])
        (commitAfter [.failed, .other, .failed, .failed, .other, .failed]) :=
  restore_undoes (by decide) (by decide)

/-- An acknowledgement that was committed, and audited, before the restore is lost. -/
theorem not_undone_acknowledged : closing.actor ≠ acknowledging.actor ∧
    ¬Undone closing acknowledging untouched (exec (Handling.step closing acknowledging) (.start untouched)
      [.failed, .failed, .other, .other, .failed, .failed]) := by
  refine ⟨by decide, fun h => ?_⟩
  have hchanged : closing.changed untouched ≠ [] :=
    not_nil_of_mem (mem_changed.mpr (⟨true, rfl, by decide⟩ : closing.Asks untouched .done))
  have hrun : exec (Handling.step closing acknowledging) (.start untouched)
      [.failed, .failed, .other, .other, .failed, .failed] = _ := run_back (i := 2) hchanged le_rfl (Or.inr rfl)
  rw [hrun, undone_iff rfl rfl] at h
  have hvalue := (undoneAt_back_seen.mp h .ackedAt true rfl).1
  exact absurd hvalue (by decide)

end Runs
end Kubeast.Inbox
