import Mathlib.Data.List.Forall2
import Mathlib.Data.List.Infix
import Mathlib.Data.Prod.Lex

/-! Patterns whose symbols stand for any run of letters, for one letter, or for a letter itself. A
segment without runs takes as many letters as it has symbols, so of two places where it may start
the earlier one leaves at least as much of the text to what follows: this is why a matcher may
forget every run but the last. -/
namespace Glob

inductive Symbol (α : Type*)
  | run
  | one
  | lit (a : α)
deriving DecidableEq

variable {α : Type*} {p q seg : List (Symbol α)} {s : Symbol α} {t : List α} {a b : α} {i n : ℕ}

/-- The letters that a symbol may take. -/
def Takes : Symbol α → List α → Prop
  | .run, _ => True
  | .one, t => ∃ a, t = [a]
  | .lit a, t => t = [a]

/-- A text is split into parts, one for each symbol, each taken by its symbol. -/
def Matches (p : List (Symbol α)) (t : List α) : Prop :=
  ∃ parts, List.Forall₂ Takes p parts ∧ parts.flatten = t

theorem matches_nil : Matches [] t ↔ t = [] := by
  constructor
  · rintro ⟨parts, hparts, rfl⟩
    cases hparts
    rfl
  · rintro rfl
    exact ⟨[], List.Forall₂.nil, rfl⟩

theorem matches_cons : Matches (s :: p) t ↔ ∃ n, Takes s (t.take n) ∧ Matches p (t.drop n) := by
  constructor
  · rintro ⟨parts, hparts, rfl⟩
    cases hparts with
    | @cons _ part _ parts hpart hparts =>
      refine ⟨part.length, ?_, parts, hparts, ?_⟩
      · rwa [List.flatten_cons, List.take_left]
      · rw [List.flatten_cons, List.drop_left]
  · rintro ⟨n, hpart, parts, hparts, hflatten⟩
    exact ⟨t.take n :: parts, .cons hpart hparts, by
      rw [List.flatten_cons, hflatten, List.take_append_drop]⟩

theorem matches_run : Matches (.run :: p) t ↔ ∃ n, Matches p (t.drop n) := by
  rw [matches_cons]
  exact exists_congr fun n => ⟨And.right, fun h => ⟨trivial, h⟩⟩

/-- Whether a symbol takes a letter; a run does not count as one. -/
def Symbol.admits [DecidableEq α] : Symbol α → α → Bool
  | .run, _ => false
  | .one, _ => true
  | .lit a, b => decide (a = b)

theorem take_eq_singleton (h : t.take n = [a]) : ∃ r, t = a :: r ∧ t.drop n = r := by
  refine ⟨t.drop n, ?_, rfl⟩
  conv_lhs => rw [← List.take_append_drop n t, h]
  rfl

section Decidable
variable [DecidableEq α]

theorem matches_admits (hs : s ≠ .run) :
    Matches (s :: p) t ↔ ∃ a r, t = a :: r ∧ s.admits a = true ∧ Matches p r := by
  rw [matches_cons]
  cases s with
  | run => exact absurd rfl hs
  | one =>
    constructor
    · rintro ⟨n, ⟨a, ha⟩, h⟩
      obtain ⟨r, ht, hr⟩ := take_eq_singleton ha
      exact ⟨a, r, ht, rfl, hr ▸ h⟩
    · rintro ⟨a, r, rfl, -, h⟩
      exact ⟨1, ⟨a, rfl⟩, h⟩
  | lit b =>
    constructor
    · rintro ⟨n, ha, h⟩
      obtain ⟨r, ht, hr⟩ := take_eq_singleton ha
      exact ⟨b, r, ht, decide_eq_true rfl, hr ▸ h⟩
    · rintro ⟨a, r, rfl, ha, h⟩
      obtain rfl := of_decide_eq_true ha
      exact ⟨1, rfl, h⟩

theorem matches_admits_cons (hs : s ≠ .run) :
    Matches (s :: p) (a :: t) ↔ s.admits a = true ∧ Matches p t := by
  rw [matches_admits hs]
  constructor
  · rintro ⟨b, r, hbr, hb, h⟩
    obtain ⟨rfl, rfl⟩ := List.cons.inj hbr
    exact ⟨hb, h⟩
  · rintro ⟨ha, h⟩
    exact ⟨a, t, rfl, ha, h⟩

/-- A segment without runs takes as many letters as it has symbols. -/
theorem matches_segment (hseg : Symbol.run ∉ seg) (h : Matches (seg ++ q) t) :
    seg.length ≤ t.length ∧ Matches q (t.drop seg.length) := by
  induction seg generalizing t with
  | nil => exact ⟨Nat.zero_le _, h⟩
  | cons s seg ih =>
    rw [List.mem_cons, not_or] at hseg
    obtain ⟨a, r, rfl, -, hr⟩ := (matches_admits (Ne.symm hseg.1)).mp h
    obtain ⟨hlength, hrest⟩ := ih hseg.2 hr
    exact ⟨Nat.succ_le_succ hlength, hrest⟩

end Decidable

/-- Only runs take no letters. -/
theorem matches_nil_right : Matches p [] ↔ ∀ s ∈ p, s = .run := by
  induction p with
  | nil => simp [matches_nil]
  | cons s p ih =>
    rw [matches_cons, List.forall_mem_cons]
    simp only [List.take_nil, List.drop_nil, ih, exists_const]
    refine and_congr_left fun _ => ?_
    cases s <;> simp [Takes]

/-- What a run may be followed by later it may be followed by from an earlier place. -/
theorem matches_run_drop (h : Matches (.run :: p) (t.drop n)) (hi : i ≤ n) :
    Matches (.run :: p) (t.drop i) := by
  obtain ⟨k, hk⟩ := matches_run.mp h
  refine matches_run.mpr ⟨n - i + k, ?_⟩
  rw [List.drop_drop] at hk ⊢
  rwa [show i + (n - i + k) = n + k by omega]

end Glob

/-! Patterns of gaps and of elements that take one letter each, and the walk along a pattern and a
text that goes back to the last gap only. What stands between two gaps takes as many letters as it has
elements, so the earlier of two places where it may stand leaves the more text: no match is lost. -/
namespace Gaps

/-- A gap stands for any letters; any other element for one letter out of a set. -/
inductive Element (α : Type*)
  | gap
  | one (takes : α → Bool)

variable {α : Type*} {p q seg : List (Element α)} {s : α → Bool} {t part : List α} {a : α} {n : ℕ}

/-- The letters that an element may take. -/
def Takes : Element α → List α → Prop
  | .gap, _ => True
  | .one s, t => ∃ a, t = [a] ∧ s a = true

/-- A text is split into parts, one for each element, each taken by its element. -/
def Matches (p : List (Element α)) (t : List α) : Prop :=
  ∃ parts, List.Forall₂ Takes p parts ∧ parts.flatten = t

theorem matches_nil : Matches [] t ↔ t = [] := by
  constructor
  · rintro ⟨parts, hparts, rfl⟩
    cases hparts
    rfl
  · rintro rfl
    exact ⟨[], List.Forall₂.nil, rfl⟩

theorem matches_gap : Matches (.gap :: p) t ↔ ∃ n, Matches p (t.drop n) := by
  constructor
  · rintro ⟨parts, hparts, rfl⟩
    cases hparts with
    | @cons _ part _ parts _ hparts =>
      refine ⟨part.length, parts, hparts, ?_⟩
      rw [List.flatten_cons, List.drop_left]
  · rintro ⟨n, parts, hparts, hflatten⟩
    refine ⟨t.take n :: parts, .cons trivial hparts, ?_⟩
    rw [List.flatten_cons, hflatten, List.take_append_drop]

theorem matches_one : Matches (.one s :: p) (a :: t) ↔ s a = true ∧ Matches p t := by
  constructor
  · rintro ⟨parts, hparts, hflatten⟩
    cases hparts with
    | @cons _ part _ parts hpart hparts =>
      obtain ⟨b, rfl, hb⟩ := hpart
      rw [List.flatten_cons, List.singleton_append] at hflatten
      obtain ⟨rfl, rfl⟩ := List.cons.inj hflatten
      exact ⟨hb, parts, hparts, rfl⟩
  · rintro ⟨ha, parts, hparts, rfl⟩
    exact ⟨[a] :: parts, .cons ⟨a, rfl, ha⟩ hparts, rfl⟩

theorem not_matches_one_nil : ¬ Matches (.one s :: p) [] := by
  rintro ⟨parts, hparts, hflatten⟩
  cases hparts with
  | cons hpart _ =>
    obtain ⟨b, rfl, -⟩ := hpart
    cases hflatten

/-- What a gap may be followed by later it may be followed by from an earlier place. -/
theorem matches_gap_of_drop (h : Matches (.gap :: p) (t.drop n)) : Matches (.gap :: p) t := by
  obtain ⟨k, hk⟩ := matches_gap.mp h
  rw [List.drop_drop] at hk
  exact matches_gap.mpr ⟨n + k, hk⟩

def Element.isGap : Element α → Bool
  | .gap => true
  | .one _ => false

/-- Only gaps take no letters. -/
theorem matches_nil_right : Matches p [] ↔ p.all Element.isGap = true := by
  induction p with
  | nil => exact iff_of_true (matches_nil.mpr rfl) rfl
  | cons e p ih =>
    cases e with
    | gap => simp [matches_gap, ih, Element.isGap]
    | one s => simp [not_matches_one_nil, Element.isGap]

/-- A segment without gaps takes as many letters as it has elements. -/
theorem matches_segment (hseg : ∀ e ∈ seg, e.isGap = false) (h : Matches (seg ++ q) t) :
    Matches q (t.drop seg.length) := by
  induction seg generalizing t with
  | nil => exact h
  | cons e seg ih =>
    obtain ⟨he, hrest⟩ := List.forall_mem_cons.mp hseg
    cases e with
    | gap => cases he
    | one s =>
      cases t with
      | nil => exact absurd h not_matches_one_nil
      | cons a t => exact ih hrest (matches_one.mp h).2

/-- The matcher that tries every length of every gap. -/
def tryAll : List (Element α) → List α → Bool
  | [], t => t.isEmpty
  | .gap :: p, t => t.tails.any (tryAll p)
  | .one _ :: _, [] => false
  | .one s :: p, a :: t => s a && tryAll p t

theorem tryAll_iff : tryAll p t = true ↔ Matches p t := by
  induction p generalizing t with
  | nil => rw [tryAll, List.isEmpty_iff, matches_nil]
  | cons e p ih =>
    cases e with
    | gap =>
      rw [tryAll, List.any_eq_true, matches_gap]
      constructor
      · rintro ⟨r, hr, h⟩
        obtain ⟨pre, rfl⟩ := (List.mem_tails _ _).mp hr
        refine ⟨pre.length, ?_⟩
        rwa [List.drop_left, ← ih]
      · rintro ⟨n, hn⟩
        exact ⟨t.drop n, (List.mem_tails _ _).mpr (List.drop_suffix n t), ih.mpr hn⟩
    | one s =>
      cases t with
      | nil => simp [tryAll, not_matches_one_nil]
      | cons a t => rw [tryAll, Bool.and_eq_true, ih, matches_one]

/-- Where a walk stands: what is left of the pattern and of the text, and what was left of both when
the last gap took no more letters than it has by now. -/
structure Walk (α : Type*) where
  pattern : List (Element α)
  text : List α
  back : Option (List (Element α) × List α)
  /-- Since then the pattern had no gap and has taken one letter for each element. -/
  ahead : ∀ b ∈ back, ∃ seg part, b.1 = seg ++ pattern ∧ b.2 = part ++ text ∧
    seg.length = part.length ∧ ∀ e ∈ seg, e.isGap = false

namespace Walk

def start (p : List (Element α)) (t : List α) : Walk α := ⟨p, t, none, nofun⟩

/-- The walk behind a gap that takes nothing yet. -/
def behind (p : List (Element α)) (t : List α) : Walk α :=
  ⟨p, t, some (p, t), fun b hb => ⟨[], [], by
    obtain rfl := Option.mem_some_iff.mp hb
    exact ⟨rfl, rfl, rfl, nofun⟩⟩⟩

/-- An element takes a letter. -/
def taken (w : Walk α) (hp : w.pattern = .one s :: p) (ht : w.text = a :: t) : Walk α :=
  ⟨p, t, w.back, fun b hb => by
    obtain ⟨seg, part, hseg, hpart, hlen, hgap⟩ := w.ahead b hb
    refine ⟨seg ++ [.one s], part ++ [a], ?_, ?_, ?_, ?_⟩
    · rw [hseg, hp, List.append_assoc, List.singleton_append]
    · rw [hpart, ht, List.append_assoc, List.singleton_append]
    · rw [List.length_append, List.length_append, hlen, List.length_singleton, List.length_singleton]
    · rintro e he
      rcases List.mem_append.mp he with he | he
      · exact hgap e he
      · obtain rfl := List.mem_singleton.mp he
        rfl⟩

/-- The last gap takes one more letter. -/
def widen (w : Walk α) : Option (Walk α) :=
  match w.back with
  | some (p, _ :: t) => some (behind p t)
  | _ => none

/-- One turn of the walk at a letter; none where it gives up. -/
def next (w : Walk α) (ht : w.text = a :: t) : Option (Walk α) :=
  match hp : w.pattern with
  | [] => w.widen
  | .gap :: p => some (behind p w.text)
  | .one s :: _ => if s a then some (w.taken hp ht) else w.widen

/-- How much of the pattern is behind the last gap. -/
def height (w : Walk α) : ℕ := w.back.elim (w.pattern.length + 1) fun b => b.1.length

def slack (w : Walk α) : ℕ := w.back.elim 0 fun b => b.2.length

theorem widen_eq_some {w w' : Walk α} (h : w.widen = some w') :
    ∃ p a t, w.back = some (p, a :: t) ∧ w' = behind p t := by
  unfold widen at h
  split at h
  · next p a t hback => exact ⟨p, a, t, hback, (Option.some.inj h).symm⟩
  · cases h

/-- The pattern does not take the next letter. -/
def Stops (w : Walk α) (a : α) : Prop :=
  w.pattern = [] ∨ ∃ s p, w.pattern = .one s :: p ∧ s a = false

theorem next_gap {w : Walk α} (ht : w.text = a :: t) (hp : w.pattern = .gap :: p) :
    w.next ht = some (behind p w.text) := by
  unfold next
  split
  · next h => cases h.symm.trans hp
  · next h => cases h.symm.trans hp; rfl
  · next h => cases h.symm.trans hp

theorem next_one {w : Walk α} (ht : w.text = a :: t) (hp : w.pattern = .one s :: p) (ha : s a = true) :
    w.next ht = some (w.taken hp ht) := by
  unfold next
  split
  · next h => cases h.symm.trans hp
  · next h => cases h.symm.trans hp
  · next h => cases h.symm.trans hp; exact if_pos ha

theorem next_stops {w : Walk α} (ht : w.text = a :: t) (h : w.Stops a) : w.next ht = w.widen := by
  unfold next
  split
  · rfl
  · next hp =>
    rcases h with h | ⟨s, q, h, -⟩ <;> cases h.symm.trans hp
  · next hp =>
    rcases h with h | ⟨s, q, h, ha⟩
    · cases h.symm.trans hp
    · cases h.symm.trans hp
      exact if_neg (by rw [ha]; simp)

/-- What a turn of the walk does. -/
theorem next_cases (w : Walk α) (ht : w.text = a :: t) :
    (∃ p, w.pattern = .gap :: p ∧ w.next ht = some (behind p w.text)) ∨
    (∃ s p, ∃ hp : w.pattern = .one s :: p, s a = true ∧ w.next ht = some (w.taken hp ht)) ∨
    (w.Stops a ∧ w.next ht = w.widen) := by
  obtain ⟨pattern, hp⟩ : ∃ pattern, w.pattern = pattern := ⟨_, rfl⟩
  cases pattern with
  | nil => exact Or.inr (Or.inr ⟨Or.inl hp, next_stops ht (Or.inl hp)⟩)
  | cons e p =>
    cases e with
    | gap => exact Or.inl ⟨p, hp, next_gap ht hp⟩
    | one s =>
      cases ha : s a with
      | true => exact Or.inr (Or.inl ⟨s, p, hp, ha, next_one ht hp ha⟩)
      | false =>
        have hstops : w.Stops a := Or.inr ⟨s, p, hp, ha⟩
        exact Or.inr (Or.inr ⟨hstops, next_stops ht hstops⟩)

theorem pattern_le_height (w : Walk α) : w.pattern.length ≤ w.height := by
  unfold height
  cases hb : w.back with
  | none => exact Nat.le_succ _
  | some b =>
    obtain ⟨seg, part, hseg, -⟩ := w.ahead b hb
    rw [Option.elim_some, hseg, List.length_append]
    exact Nat.le_add_left _ _

/-- Either the last gap is a later one, or it takes more, or the text is read further. -/
theorem next_decreases {w w' : Walk α} {ht : w.text = a :: t} (h : w.next ht = some w') :
    Prod.Lex (· < ·) (Prod.Lex (· < ·) (· < ·)) (w'.height, w'.slack, w'.text.length)
      (w.height, w.slack, w.text.length) := by
  rcases w.next_cases ht with ⟨p, hp, hnext⟩ | ⟨s, p, hp, -, hnext⟩ | ⟨-, hnext⟩ <;> rw [hnext] at h
  · obtain rfl := Option.some.inj h
    have hlen := w.pattern_le_height
    rw [hp] at hlen
    exact .left _ _ hlen
  · obtain rfl := Option.some.inj h
    cases hb : w.back with
    | none =>
      refine .left _ _ ?_
      simp only [height, taken, hb, Option.elim_none, hp, List.length_cons]
      omega
    | some b =>
      have hheight : (w.taken hp ht).height = w.height := by simp only [height, taken, hb, Option.elim_some]
      have hslack : (w.taken hp ht).slack = w.slack := by simp only [slack, taken]
      rw [hheight, hslack, ht]
      exact .right _ (.right _ (Nat.lt_succ_self _))
  · obtain ⟨p, b, r, hback, rfl⟩ := widen_eq_some h
    have hheight : (behind p r).height = w.height := by simp only [height, behind, hback, Option.elim_some]
    rw [hheight]
    refine .right _ (.left _ _ ?_)
    simp only [slack, behind, hback, Option.elim_some, List.length_cons]
    omega

/-- The walk: where the text is read, only gaps may be left of the pattern. -/
def run (w : Walk α) : Bool :=
  match ht : w.text with
  | [] => w.pattern.all Element.isGap
  | _ :: _ =>
    match _h : w.next ht with
    | some w' => run w'
    | none => false
termination_by (w.height, w.slack, w.text.length)
decreasing_by exact ht ▸ next_decreases _h

/-- What there is left to match: from here on, or with more letters for the last gap. -/
def Left (w : Walk α) : Prop :=
  Matches w.pattern w.text ∨ ∃ b ∈ w.back, ∃ n, Matches b.1 (b.2.drop (n + 1))

theorem left_start : (start p t).Left ↔ Matches p t := by
  simp [Left, start]

theorem left_behind : (behind p t).Left ↔ Matches (.gap :: p) t := by
  rw [matches_gap]
  constructor
  · rintro (h | ⟨b, hb, n, h⟩)
    · exact ⟨0, h⟩
    · obtain rfl := Option.mem_some_iff.mp hb
      exact ⟨n + 1, h⟩
  · rintro ⟨n, h⟩
    cases n with
    | zero => exact Or.inl h
    | succ n => exact Or.inr ⟨_, rfl, n, h⟩

/-- With more letters for the last gap, what follows is matched further on than the walk stands. -/
theorem matches_of_back (w : Walk α) {b : List (Element α) × List α} (hb : b ∈ w.back)
    (h : Matches b.1 (b.2.drop n)) : Matches w.pattern (w.text.drop n) := by
  obtain ⟨seg, part, hseg, hpart, hlen, hgap⟩ := w.ahead b hb
  rw [hseg] at h
  have hrest := matches_segment hgap h
  rw [hpart, List.drop_drop, Nat.add_comm, hlen, List.drop_length_add_append] at hrest
  exact hrest

theorem Stops.not_matches {w : Walk α} (h : w.Stops a) : ¬ Matches w.pattern (a :: t) := by
  rintro hm
  rcases h with hp | ⟨s, p, hp, ha⟩ <;> rw [hp] at hm
  · cases matches_nil.mp hm
  · rw [(matches_one.mp hm).1] at ha
    cases ha

/-- A turn of the walk keeps what there is left to match. -/
theorem left_of_next {w w' : Walk α} {ht : w.text = a :: t} (h : w.next ht = some w') :
    w'.Left ↔ w.Left := by
  rcases w.next_cases ht with ⟨p, hp, hnext⟩ | ⟨s, p, hp, ha, hnext⟩ | ⟨hstops, hnext⟩ <;> rw [hnext] at h
  · obtain rfl := Option.some.inj h
    rw [left_behind, ← hp]
    refine ⟨Or.inl, ?_⟩
    rintro (hm | ⟨b, hb, n, hm⟩)
    · exact hm
    · -- an earlier gap is no longer needed: this one takes what it would have taken
      have hlater := w.matches_of_back hb hm
      rw [hp] at hlater ⊢
      exact matches_gap_of_drop hlater
  · obtain rfl := Option.some.inj h
    unfold Left
    rw [ht, hp, matches_one, and_iff_right ha]
    rfl
  · obtain ⟨p, b, r, hback, rfl⟩ := widen_eq_some h
    rw [left_behind, matches_gap]
    unfold Left
    rw [ht, or_iff_right hstops.not_matches, hback]
    simp

theorem not_left_of_next {w : Walk α} {ht : w.text = a :: t} (h : w.next ht = none) : ¬ w.Left := by
  rcases w.next_cases ht with ⟨p, hp, hnext⟩ | ⟨s, p, hp, ha, hnext⟩ | ⟨hstops, hnext⟩ <;> rw [hnext] at h
  · cases h
  · cases h
  · rintro (hm | ⟨b, hb, n, hm⟩)
    · exact hstops.not_matches (ht ▸ hm)
    · unfold widen at h
      have hback : w.back = some b := hb
      rw [hback] at h
      obtain ⟨p, r⟩ := b
      cases r with
      | nil =>
        obtain ⟨seg, part, -, hpart, -⟩ := w.ahead _ hb
        rw [ht] at hpart
        exact absurd hpart (by simp)
      | cons c r => cases h

theorem left_of_end {w : Walk α} (ht : w.text = []) : w.Left ↔ w.pattern.all Element.isGap = true := by
  rw [← matches_nil_right]
  constructor
  · rintro (hm | ⟨b, hb, n, hm⟩)
    · exact ht ▸ hm
    · have hlater := w.matches_of_back hb hm
      rwa [ht, List.drop_nil] at hlater
  · intro hm
    exact Or.inl (ht ▸ hm)

theorem run_of_end {w : Walk α} (ht : w.text = []) : w.run = w.pattern.all Element.isGap := by
  rw [run]
  split
  · rfl
  · next ht' => rw [ht] at ht'; cases ht'

theorem run_of_next {w w' : Walk α} {ht : w.text = a :: t} (h : w.next ht = some w') : w.run = w'.run := by
  rw [run]
  split
  · next ht' => rw [ht] at ht'; cases ht'
  · next b r ht' =>
    obtain ⟨rfl, rfl⟩ := List.cons.inj (ht'.symm.trans ht)
    split
    · next hk => rw [Option.some.inj (hk.symm.trans h)]
    · next hk => rw [hk] at h; cases h

theorem run_of_next_none {w : Walk α} {ht : w.text = a :: t} (h : w.next ht = none) : w.run = false := by
  rw [run]
  split
  · next ht' => rw [ht] at ht'; cases ht'
  · next b r ht' =>
    obtain ⟨rfl, rfl⟩ := List.cons.inj (ht'.symm.trans ht)
    split
    · next hk => rw [hk] at h; cases h
    · rfl

/-- The walk decides what there is left to match. -/
theorem run_iff (w : Walk α) : w.run = true ↔ w.Left := by
  induction w using run.induct with
  | case1 w ht => rw [run_of_end ht, left_of_end ht]
  | case2 w a t ht w' h ih => rw [run_of_next h, ih, left_of_next h]
  | case3 w a t ht h =>
    rw [run_of_next_none h]
    exact iff_of_false Bool.false_ne_true (not_left_of_next h)

theorem run_start (p : List (Element α)) (t : List α) : (start p t).run = true ↔ Matches p t := by
  rw [run_iff, left_start]

end Walk
end Gaps
