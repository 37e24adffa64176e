import Kubeast.Foundation.Glob
import Kubeast.Foundation.Text

/-! The search for dashboards (`internal/search/search.go`): the text is a wildcard over the title
in lower case. -/
namespace Kubeast.DashboardSearch
open Text Glob

section Loop
variable {t p : List Char}

/-- Where the loop of `matchText` stands in the title `t` and in the pattern `p`. -/
structure Scan (t p : List Char) where
  ti : ℕ
  pi : ℕ
  /-- The last `*`. -/
  star : Option ℕ
  /-- Where its run began: `from`. -/
  start : ℕ
  ti_le : ti ≤ t.length
  star_lt : ∀ s ∈ star, s < pi
  start_le : start ≤ ti

namespace Scan

def begin (t p : List Char) : Scan t p := ⟨0, 0, none, 0, Nat.zero_le _, nofun, Nat.zero_le _⟩

/-- The last `*` takes one more character. -/
def widen (k : Scan t p) (h : k.ti < t.length) : Option (Scan t p) :=
  k.star.map fun s =>
    ⟨k.start + 1, s + 1, some s, k.start + 1, Nat.succ_le_of_lt (k.start_le.trans_lt h),
      fun _ hr => Option.mem_some_iff.mp hr ▸ Nat.lt_succ_self s, le_rfl⟩

/-- The pattern has a `*` next: its run begins here. -/
def atRun (k : Scan t p) : Scan t p :=
  ⟨k.ti, k.pi + 1, some k.pi, k.ti, k.ti_le,
    fun _ hr => Option.mem_some_iff.mp hr ▸ Nat.lt_succ_self k.pi, le_rfl⟩

/-- One character of each is read. -/
def both (k : Scan t p) (h : k.ti < t.length) : Scan t p :=
  ⟨k.ti + 1, k.pi + 1, k.star, k.start, h, fun s hs => (k.star_lt s hs).trans (Nat.lt_succ_self _),
    k.start_le.trans (Nat.le_succ _)⟩

/-- One turn of the loop; none where it returns false. -/
def next (k : Scan t p) (h : k.ti < t.length) : Option (Scan t p) :=
  match p[k.pi]? with
  | none => k.widen h
  | some c =>
    if c = '*' then some k.atRun
    else if c = '?' ∨ t[k.ti] = c then some (k.both h)
    else k.widen h

theorem widen_eq_some {k k' : Scan t p} {h : k.ti < t.length} (hk : k.widen h = some k') :
    ∃ s, k.star = some s ∧ k'.ti = k.start + 1 ∧ k'.pi = s + 1 ∧ k'.star = some s ∧
      k'.start = k.start + 1 := by
  obtain ⟨s, hs, rfl⟩ := Option.map_eq_some_iff.mp hk
  exact ⟨s, hs, rfl, rfl, rfl, rfl⟩

/-- The pattern does not take the next character. -/
def Stops (k : Scan t p) (h : k.ti < t.length) : Prop :=
  ∀ c ∈ p[k.pi]?, c ≠ '*' ∧ ¬ (c = '?' ∨ t[k.ti] = c)

/-- What a turn of the loop does. -/
theorem next_cases (k : Scan t p) (h : k.ti < t.length) :
    (p[k.pi]? = some '*' ∧ k.next h = some k.atRun) ∨
    (∃ c, p[k.pi]? = some c ∧ c ≠ '*' ∧ (c = '?' ∨ t[k.ti] = c) ∧ k.next h = some (k.both h)) ∨
    (k.Stops h ∧ k.next h = k.widen h) := by
  unfold next Stops
  cases hp : p[k.pi]? with
  | none => exact Or.inr (Or.inr ⟨nofun, rfl⟩)
  | some c =>
    by_cases hstar : c = '*'
    · exact Or.inl ⟨congrArg some hstar, if_pos hstar⟩
    · dsimp only
      rw [if_neg hstar]
      by_cases htakes : c = '?' ∨ t[k.ti] = c
      · exact Or.inr (Or.inl ⟨c, rfl, hstar, htakes, if_pos htakes⟩)
      · refine Or.inr (Or.inr ⟨?_, if_neg htakes⟩)
        intro d hd
        obtain rfl := Option.mem_some_iff.mp hd
        exact ⟨hstar, htakes⟩

/-- How far the last `*` stands from the end of the pattern. -/
def behind (k : Scan t p) : ℕ := k.star.elim (p.length + 1) fun s => p.length - s

/-- Either the last `*` moves on, or its run begins later, or the title is read further. -/
theorem next_decreases {k k' : Scan t p} {h : k.ti < t.length} (hk : k.next h = some k') :
    Prod.Lex (· < ·) (Prod.Lex (· < ·) (· < ·))
      (k'.behind, t.length - k'.start, t.length - k'.ti)
      (k.behind, t.length - k.start, t.length - k.ti) := by
  have hstart := k.start_le
  rcases k.next_cases h with ⟨hp, hnext⟩ | ⟨c, -, -, -, hnext⟩ | ⟨-, hnext⟩ <;> rw [hnext] at hk
  · obtain rfl := Option.some.inj hk
    have hpi : k.pi < p.length := (List.getElem?_eq_some_iff.mp hp).1
    refine .left _ _ ?_
    show p.length - k.pi < k.behind
    unfold behind
    cases hs : k.star with
    | none => exact Nat.lt_succ_of_le (Nat.sub_le _ _)
    | some s =>
      have := k.star_lt s hs
      simp only [Option.elim_some]
      omega
  · obtain rfl := Option.some.inj hk
    exact .right _ (.right _ (by show t.length - (k.ti + 1) < _; omega))
  · obtain ⟨s, hs, -, -, hstar, hfrom⟩ := widen_eq_some hk
    have hbehind : k'.behind = k.behind := by rw [behind, behind, hs, hstar]
    rw [hbehind, hfrom]
    exact .right _ (.left _ _ (by omega))

/-- The loop, and the `*` that are left when the title is read. -/
def go (k : Scan t p) : Bool :=
  if h : k.ti < t.length then
    match _hk : k.next h with
    | some k' => go k'
    | none => false
  else (p.drop k.pi).dropWhile (· = '*') = []
termination_by (k.behind, t.length - k.start, t.length - k.ti)
decreasing_by exact next_decreases _hk

end Scan
end Loop

section Wildcard
variable {t p : List Char}

/-- What a character of the pattern stands for. -/
def symbol (c : Char) : Symbol Char :=
  if c = '*' then .run else if c = '?' then .one else .lit c

/-- A text as a wildcard: `*` any run of characters, `?` any one. -/
def wildcard (p : List Char) : List (Symbol Char) := p.map symbol

theorem symbol_eq_run {c : Char} : symbol c = .run ↔ c = '*' := by
  unfold symbol
  split_ifs with hstar hone <;> simp [hstar]

theorem admits_symbol {c d : Char} (hc : c ≠ '*') :
    (symbol c).admits d = true ↔ c = '?' ∨ d = c := by
  unfold symbol
  rw [if_neg hc]
  split_ifs with hone
  · simp [hone, Symbol.admits]
  · simp [hone, Symbol.admits, eq_comm]

namespace Scan

/-- Since the last `*` the pattern has no other and has taken one character for each of its own. -/
def Segment (k : Scan t p) : Prop :=
  ∀ s ∈ k.star, ∃ seg, '*' ∉ seg ∧ p.drop (s + 1) = seg ++ p.drop k.pi ∧ k.start + seg.length = k.ti

/-- What there is left to match: from here on, or with a later end of the last run. -/
def Left (k : Scan t p) : Prop :=
  Matches (wildcard (p.drop k.pi)) (t.drop k.ti) ∨
    ∃ s ∈ k.star, ∃ n > k.start, Matches (wildcard (p.drop (s + 1))) (t.drop n)

theorem segment_begin (t p : List Char) : (begin t p).Segment := nofun

theorem left_begin : (begin t p).Left ↔ Matches (wildcard p) t := by
  simp [Left, begin]

theorem run_notMem_wildcard {seg : List Char} (h : '*' ∉ seg) : Symbol.run ∉ wildcard seg := by
  rintro hmem
  obtain ⟨c, hc, hrun⟩ := List.mem_map.mp hmem
  exact h (symbol_eq_run.mp hrun ▸ hc)

/-- With a later end of the last run, what follows is matched behind where the loop stands. -/
theorem Segment.behind {k : Scan t p} (h : k.Segment) {s n : ℕ} (hs : s ∈ k.star) (hn : k.start < n)
    (hm : Matches (wildcard (p.drop (s + 1))) (t.drop n)) :
    ∃ m > k.ti, Matches (wildcard (p.drop k.pi)) (t.drop m) := by
  obtain ⟨seg, hseg, hdrop, hti⟩ := h s hs
  rw [hdrop, wildcard, List.map_append] at hm
  have hrest := (matches_segment (run_notMem_wildcard hseg) hm).2
  rw [wildcard, List.length_map, List.drop_drop] at hrest
  exact ⟨n + seg.length, by omega, hrest⟩

theorem drop_of_getElem? {c : Char} {i : ℕ} (h : p[i]? = some c) : p.drop i = c :: p.drop (i + 1) := by
  obtain ⟨hi, rfl⟩ := List.getElem?_eq_some_iff.mp h
  exact List.drop_eq_getElem_cons hi

/-- A `*` takes nothing, or one more character. -/
theorem matches_atRun {i : ℕ} (h : p[i]? = some '*') :
    wildcard (p.drop i) = .run :: wildcard (p.drop (i + 1)) := by
  rw [drop_of_getElem? h, wildcard, List.map_cons, symbol_eq_run.mpr rfl, wildcard]

/-- A character of the pattern that is no `*`, against one of the title. -/
theorem matches_both {c : Char} {i j : ℕ} (hc : p[i]? = some c) (hstar : c ≠ '*') (hj : j < t.length) :
    Matches (wildcard (p.drop i)) (t.drop j) ↔ (c = '?' ∨ t[j] = c) ∧
      Matches (wildcard (p.drop (i + 1))) (t.drop (j + 1)) := by
  rw [drop_of_getElem? hc, List.drop_eq_getElem_cons hj, wildcard, List.map_cons,
    matches_admits_cons (fun hrun => hstar (symbol_eq_run.mp hrun)), admits_symbol hstar, wildcard]

theorem Stops.not_matches {k : Scan t p} {h : k.ti < t.length} (hstops : k.Stops h) :
    ¬ Matches (wildcard (p.drop k.pi)) (t.drop k.ti) := by
  intro hm
  cases hp : p[k.pi]? with
  | none =>
    rw [List.drop_eq_nil_of_le (List.getElem?_eq_none_iff.mp hp), List.drop_eq_getElem_cons h] at hm
    exact List.cons_ne_nil _ _ (matches_nil.mp hm)
  | some c =>
    obtain ⟨hstar, hnot⟩ := hstops c hp
    exact hnot ((matches_both hp hstar h).mp hm).1

/-- A turn of the loop keeps the segment and what there is left to match. -/
theorem left_of_next {k k' : Scan t p} {h : k.ti < t.length} (hseg : k.Segment)
    (hk : k.next h = some k') : k'.Segment ∧ (k'.Left ↔ k.Left) := by
  rcases k.next_cases h with ⟨hp, hnext⟩ | ⟨c, hc, hstar, htakes, hnext⟩ | ⟨hstops, hnext⟩ <;>
    rw [hnext] at hk
  · obtain rfl := Option.some.inj hk
    have hrun := matches_atRun hp
    constructor
    · rintro s hs
      obtain rfl := Option.mem_some_iff.mp hs
      exact ⟨[], List.not_mem_nil, rfl, rfl⟩
    · constructor
      · rintro (hm | ⟨s, hs, n, hn, hm⟩) <;> refine Or.inl ?_ <;> rw [hrun] <;> apply matches_run.mpr
        · exact ⟨0, hm⟩
        · obtain rfl := Option.mem_some_iff.mp hs
          refine ⟨n - k.ti, ?_⟩
          have hn : k.ti < n := hn
          rwa [List.drop_drop, Nat.add_sub_cancel' hn.le]
      · intro hleft
        have hm : Matches (.run :: wildcard (p.drop (k.pi + 1))) (t.drop k.ti) := by
          rw [← hrun]
          rcases hleft with hm | ⟨s, hs, n, hn, hm⟩
          · exact hm
          · -- an earlier run is no longer needed: this one takes what it would have taken
            obtain ⟨m, hm, hlater⟩ := hseg.behind hs hn hm
            rw [hrun] at hlater ⊢
            exact matches_run_drop hlater hm.le
        obtain ⟨n, hn⟩ := matches_run.mp hm
        rw [List.drop_drop] at hn
        rcases Nat.eq_zero_or_pos n with rfl | hpos
        · exact Or.inl hn
        · exact Or.inr ⟨k.pi, rfl, k.ti + n, Nat.lt_add_of_pos_right hpos, hn⟩
  · obtain rfl := Option.some.inj hk
    constructor
    · intro s hs
      obtain ⟨seg, hnot, hdrop, hti⟩ := hseg s hs
      refine ⟨seg ++ [c], ?_, ?_, ?_⟩
      · simpa [hnot] using Ne.symm hstar
      · rw [hdrop, drop_of_getElem? hc, List.append_assoc, List.singleton_append]
        rfl
      · rw [List.length_append, ← Nat.add_assoc]
        exact congrArg Nat.succ hti
    · rw [Left, Left, matches_both hc hstar h, and_iff_right htakes]
      rfl
  · obtain ⟨s, hs, hti, hpi, hstar, hstart⟩ := widen_eq_some hk
    constructor
    · intro r hr
      rw [hstar, Option.mem_some_iff] at hr
      exact ⟨[], List.not_mem_nil, by rw [← hr, hpi, List.nil_append], by rw [hstart, hti]; rfl⟩
    · have hlater (n : ℕ) : k.start < n ↔ n = k.start + 1 ∨ k.start + 1 < n := by omega
      simp only [Left, hs, hstar, hti, hpi, hstart, hstops.not_matches, false_or, Option.mem_some_iff,
        exists_eq_left', gt_iff_lt, hlater, or_and_right, exists_or, exists_eq_left]

theorem not_left_of_next {k : Scan t p} {h : k.ti < t.length} (hk : k.next h = none) : ¬ k.Left := by
  rcases k.next_cases h with ⟨-, hnext⟩ | ⟨c, -, -, -, hnext⟩ | ⟨hstops, hnext⟩ <;> rw [hnext] at hk
  · cases hk
  · cases hk
  · have hnone : k.star = none := Option.map_eq_none_iff.mp hk
    rintro (hm | ⟨s, hs, -⟩)
    · exact hstops.not_matches hm
    · rw [hnone] at hs
      cases hs

theorem dropWhile_eq_nil_iff_runs (q : List Char) :
    q.dropWhile (· = '*') = [] ↔ ∀ s ∈ wildcard q, s = .run := by
  rw [List.dropWhile_eq_nil_iff, wildcard, List.forall_mem_map]
  simp only [decide_eq_true_eq, symbol_eq_run]

/-- When the title is read, only runs may be left of the pattern. -/
theorem left_of_end {k : Scan t p} (hseg : k.Segment) (hend : ¬ k.ti < t.length) :
    k.Left ↔ (p.drop k.pi).dropWhile (· = '*') = [] := by
  have hover {n : ℕ} (hn : k.ti ≤ n) : t.drop n = [] := List.drop_eq_nil_of_le (by omega)
  rw [dropWhile_eq_nil_iff_runs, ← matches_nil_right]
  constructor
  · rintro (hm | ⟨s, hs, n, hn, hm⟩)
    · rwa [hover le_rfl] at hm
    · obtain ⟨m, hm, hrest⟩ := hseg.behind hs hn hm
      rwa [hover hm.le] at hrest
  · intro hm
    refine Or.inl ?_
    rwa [hover le_rfl]

/-- The loop decides what there is left to match. -/
theorem go_iff (k : Scan t p) (hseg : k.Segment) : k.go = true ↔ k.Left := by
  induction k using go.induct with
  | case1 k h k' hk ih =>
    obtain ⟨hseg', hleft⟩ := left_of_next hseg hk
    rw [go, dif_pos h]
    split
    · next k'' hk'' =>
      obtain rfl := Option.some.inj (hk.symm.trans hk'')
      rw [ih hseg', hleft]
    · next hnone => rw [hk] at hnone; cases hnone
  | case2 k h hk =>
    rw [go, dif_pos h]
    split
    · next k'' hk'' => rw [hk] at hk''; cases hk''
    · simpa using not_left_of_next hk
  | case3 k h => rw [go, dif_neg h, left_of_end hseg h, decide_eq_true_iff]

end Scan
end Wildcard

section Match
variable (tables : CharTables)

/-- `matchText`; its callers give the title in lower case. -/
def matchText (title text : String) : Bool :=
  if text = "" then true
  else (Scan.begin title.toList ('*' :: (toLower tables text).toList ++ ['*'])).go

/-- What the text of a search stands for: the text in lower case, with a run on both sides. -/
def textPattern (text : String) : List (Symbol Char) :=
  wildcard ('*' :: (toLower tables text).toList ++ ['*'])

/-- The greedy loop loses no match: a title is found exactly where it can be split as the text says. -/
theorem matchText_iff (title text : String) :
    matchText tables title text = true ↔ Matches (textPattern tables text) title.toList := by
  unfold matchText textPattern
  split
  · next hnone =>
    rw [hnone]
    refine iff_of_true rfl (matches_run.mpr ⟨title.toList.length, ?_⟩)
    rw [List.drop_length]
    exact matches_run.mpr ⟨0, matches_nil.mpr rfl⟩
  · rw [Scan.go_iff _ (Scan.segment_begin _ _), Scan.left_begin]

/-- What a dashboard is searched by. -/
structure Dashboard where
  title : String
  folder : String
  tags : List String
  /-- The names that `Metrics` finds in its queries. -/
  metrics : List String

/-- What a search asks for; an empty field asks nothing. -/
structure Query where
  text : String
  tags : List String
  folders : List String
  metrics : List String

def hasAll (have_ want : List String) : Bool := want.all fun w => have_.any fun h => h = w

def inFolders (folder : String) (folders : List String) : Bool :=
  if folders.length = 0 then true else folders.any fun f => f = folder

def Query.finds (q : Query) (d : Dashboard) (title : String) : Bool :=
  if !matchText tables title q.text || !hasAll d.tags q.tags || !inFolders d.folder q.folders then false
  else if q.metrics.length = 0 then true
  else hasAll d.metrics q.metrics

/-- `Match`. -/
def Query.match_ (q : Query) (d : Dashboard) : Bool := q.finds tables d (toLower tables d.title)

theorem hasAll_iff {have_ want : List String} : hasAll have_ want = true ↔ want ⊆ have_ := by
  simp [hasAll, List.subset_def]

theorem inFolders_iff {folder : String} {folders : List String} :
    inFolders folder folders = true ↔ folders = [] ∨ folder ∈ folders := by
  simp [inFolders]

/-- A search finds the dashboards that have all it asks for. -/
theorem match_iff (q : Query) (d : Dashboard) : q.match_ tables d = true ↔
    Matches (textPattern tables q.text) (toLower tables d.title).toList ∧ q.tags ⊆ d.tags ∧
      (q.folders = [] ∨ d.folder ∈ q.folders) ∧ q.metrics ⊆ d.metrics := by
  unfold Query.match_ Query.finds
  rw [← matchText_iff, ← hasAll_iff, ← inFolders_iff, ← hasAll_iff]
  cases q.metrics with
  | nil =>
    have hnone : hasAll d.metrics [] = true := rfl
    simp [hnone, and_assoc]
  | cons m ms => simp [and_assoc]

end Match
end Kubeast.DashboardSearch
