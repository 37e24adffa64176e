import Kubeast.Foundation.Table
import Kubeast.Pipelines.Model

/-! The digests of a build as its report container wrote them (`internal/buildstatus/buildstatus.go`).
A report that was cut is not taken for a whole one, wherever it was cut. -/
namespace Kubeast.BuildStatus
open Regex (seq one text times mem_seq mem_text mem_times_one accepts_iff)
open Pipelines

section Reading

/-- `sha256:[0-9a-f]{64}`. -/
def digestRe : Regex Char :=
  seq (text "sha256:".toList) (times 64 (one fun c => c.isDigit || ('a' ≤ c && c ≤ 'f')))

/-- `digestLine`: the step and the digest of a line. -/
def digestLine (line : List Char) : Option (List Char × List Char) :=
  let step := line.takeWhile (· != '=')
  match line.dropWhile (· != '=') with
  | '=' :: digest =>
    if dnsLabelRe.accepts step && digestRe.accepts digest then some (step, digest) else none
  | _ => none

def setLine (out : Dict (List Char) (List Char)) (line : List Char) : Dict (List Char) (List Char) :=
  match digestLine line with
  | none => out
  | some (step, digest) => out.set step digest

/-- `ParseDigests`: the digests by step, and whether every line was whole. -/
def parseDigests (s : List Char) : Dict (List Char) (List Char) × Bool :=
  let lines := s.splitOn '\n'
  -- what follows the last line break may be cut
  let whole := lines.getLast? == some []
  let lines := if whole then lines.dropLast else lines
  (lines.foldl setLine Table.empty, whole && lines.all fun line => (digestLine line).isSome)

/-- A container's status: its name, and its message where it has terminated. -/
structure ContainerStatus where
  name : String
  terminated : Option (List Char)

def reportContainer : String := "report"

/-- The message of the report container that has terminated, the last of them. -/
def reportMessage (statuses : List ContainerStatus) : List Char :=
  statuses.foldl (fun msg s =>
    if s.name = reportContainer then s.terminated.getD msg else msg) []

/-- `digests`: what was reported, and whether the log has to be read. -/
def digests (pod : Option (List ContainerStatus)) (buildSteps : List (List Char)) :
    Option (Dict (List Char) (List Char)) × Bool :=
  if buildSteps = [] then (none, false)
  else match pod with
  | none => (none, true)
  | some statuses =>
    let msg := reportMessage statuses
    let (got, complete) := parseDigests msg
    let complete := complete && decide (msg ≠ []) && buildSteps.all fun b => got.index b ≠ []
    (some got, !complete)

end Reading

section Lines
variable {lines : List (List Char)} {part p : List Char}

/-- Lines, each ended by a line break. -/
def ended (lines : List (List Char)) : List Char := lines.flatMap (· ++ ['\n'])

theorem ended_cons (l : List Char) (lines : List (List Char)) :
    ended (l :: lines) = l ++ '\n' :: ended lines := by
  rw [ended, List.flatMap_cons, List.append_assoc]
  rfl

theorem intercalate_ended (lines : List (List Char)) (part : List Char) :
    ['\n'].intercalate (lines ++ [part]) = ended lines ++ part := by
  induction lines with
  | nil => simp [ended, List.intercalate]
  | cons l lines ih =>
    obtain ⟨m, ms, hms⟩ := List.exists_cons_of_ne_nil (show lines ++ [part] ≠ [] by simp)
    rw [List.cons_append, ended_cons, hms, List.intercalate_cons_cons, ← hms, ih]
    simp

theorem splitOn_ended (hlines : ∀ l ∈ lines, '\n' ∉ l) (hpart : '\n' ∉ part) :
    (ended lines ++ part).splitOn '\n' = lines ++ [part] := by
  rw [← intercalate_ended]
  refine List.splitOn_intercalate '\n' ?_ (by simp)
  rw [List.forall_mem_append, List.forall_mem_singleton]
  exact ⟨hlines, hpart⟩

/-- A part of the lines is some of them, and a part of the next. -/
theorem prefix_ended (h : p <+: ended lines) :
    ∃ before part after, p = ended before ++ part ∧ lines = before ++ after ∧
      (part = [] ∨ ∃ l ∈ after, part <+: l) := by
  induction lines generalizing p with
  | nil => exact ⟨[], [], [], List.prefix_nil.mp h, rfl, Or.inl rfl⟩
  | cons l lines ih =>
    obtain ⟨q, hq⟩ := h
    rw [ended_cons] at hq
    rcases List.append_eq_append_iff.mp hq with ⟨s, hl, -⟩ | ⟨s, rfl, hs⟩
    · exact ⟨[], p, l :: lines, rfl, rfl, Or.inr ⟨l, List.mem_cons_self, ⟨s, hl.symm⟩⟩⟩
    · cases s with
      | nil =>
        rw [List.append_nil]
        exact ⟨[], l, l :: lines, rfl, rfl, Or.inr ⟨l, List.mem_cons_self, List.prefix_rfl⟩⟩
      | cons c s =>
        obtain ⟨rfl, hrest⟩ := List.cons.inj hs
        obtain ⟨before, part, after, rfl, rfl, hpart⟩ := ih ⟨q, hrest.symm⟩
        refine ⟨l :: before, part, after, ?_, rfl, hpart⟩
        rw [ended_cons, List.append_assoc, List.cons_append]

end Lines

section Lines
variable {line step digest : List Char}

theorem length_of_digestRe (h : digest ∈ digestRe.language) : digest.length = 71 := by
  obtain ⟨u, hu, v, hv, rfl⟩ := mem_seq.mp h
  rw [List.length_append, mem_text.mp hu, (mem_times_one.mp hv).1]
  rfl

theorem newline_notMem_digestRe (h : digest ∈ digestRe.language) : '\n' ∉ digest := by
  obtain ⟨u, hu, v, hv, rfl⟩ := mem_seq.mp h
  rw [mem_text.mp hu, List.mem_append, not_or]
  exact ⟨by decide, fun hmem => absurd ((mem_times_one.mp hv).2 _ hmem) (by decide)⟩

/-- The groups of the line's expression: a step has no equals sign. -/
theorem digestLine_eq_some : digestLine line = some (step, digest) ↔
    line = step ++ '=' :: digest ∧ step ∈ dnsLabelRe.language ∧ digest ∈ digestRe.language := by
  constructor
  · intro h
    unfold digestLine at h
    split at h
    · next found hrest =>
      dsimp only at h
      split at h
      · next hok =>
        rw [Bool.and_eq_true, accepts_iff, accepts_iff] at hok
        obtain ⟨rfl, rfl⟩ := Prod.mk.inj (Option.some.inj h)
        refine ⟨?_, hok⟩
        rw [← hrest, List.takeWhile_append_dropWhile]
      · exact nomatch h
    · exact nomatch h
  · rintro ⟨rfl, hstep, hdigest⟩
    have hne : ∀ c ∈ step, (c != '=') = true := fun c hc => by
      rw [bne_iff_ne]
      rintro rfl
      exact notMem_of_dnsLabelRe (by decide) hstep hc
    have hok : (dnsLabelRe.accepts step && digestRe.accepts digest) = true := by
      rw [Bool.and_eq_true, accepts_iff, accepts_iff]
      exact ⟨hstep, hdigest⟩
    have htake : (step ++ '=' :: digest).takeWhile (· != '=') = step := by
      rw [List.takeWhile_append_of_pos hne, List.takeWhile_cons_of_neg (by decide), List.append_nil]
    have hdrop : (step ++ '=' :: digest).dropWhile (· != '=') = '=' :: digest := by
      rw [List.dropWhile_append_of_pos hne, List.dropWhile_cons_of_neg (by decide)]
    unfold digestLine
    rw [htake, hdrop]
    exact if_pos hok

end Lines

section Reports
variable {rows : List (List Char × List Char)} {p : List Char} {row : List Char × List Char}

def lineOf (row : List Char × List Char) : List Char := row.1 ++ '=' :: row.2

/-- What the report container writes: a line for each step. -/
def reportText (rows : List (List Char × List Char)) : List Char := ended (rows.map lineOf)

/-- Steps with distinct names, which are labels, and their digests. -/
structure Reports (rows : List (List Char × List Char)) : Prop where
  nodup : (rows.map Prod.fst).Nodup
  steps : ∀ row ∈ rows, row.1 ∈ dnsLabelRe.language
  digests : ∀ row ∈ rows, row.2 ∈ digestRe.language

theorem Reports.digestLine_lineOf (h : Reports rows) (hrow : row ∈ rows) :
    digestLine (lineOf row) = some row :=
  digestLine_eq_some.mpr ⟨rfl, h.steps row hrow, h.digests row hrow⟩

theorem Reports.newline_notMem (h : Reports rows) (hrow : row ∈ rows) : '\n' ∉ lineOf row := by
  rw [lineOf, List.mem_append, List.mem_cons, not_or, not_or]
  exact ⟨notMem_of_dnsLabelRe (by decide) (h.steps row hrow), by decide,
    newline_notMem_digestRe (h.digests row hrow)⟩

/-- A line that is cut and still reads as one is whole. -/
theorem Reports.eq_of_prefix (h : Reports rows) (hrow : row ∈ rows) {part : List Char}
    (hpart : part <+: lineOf row) {found : List Char × List Char}
    (hfound : digestLine part = some found) : found = row := by
  obtain ⟨step, digest⟩ := found
  obtain ⟨rfl, hstep, hdigest⟩ := digestLine_eq_some.mp hfound
  obtain ⟨q, hq⟩ := hpart
  rw [lineOf, List.append_assoc, List.cons_append] at hq
  obtain ⟨rfl, hrest⟩ := Text.append_cons_inj (notMem_of_dnsLabelRe (by decide) hstep)
    (notMem_of_dnsLabelRe (by decide) (h.steps row hrow)) hq
  have hlength := congrArg List.length hrest
  rw [List.length_append, length_of_digestRe hdigest, length_of_digestRe (h.digests row hrow)] at hlength
  have hnil : q = [] := List.length_eq_zero_iff.mp (by omega)
  rw [hnil, List.append_nil] at hrest
  exact Prod.ext rfl hrest

/-- An entry comes from one of the lines. -/
theorem get_foldl_setLine {lines : List (List Char)} {m : Dict (List Char) (List Char)}
    (h : (lines.foldl setLine m).get row.1 = some row) :
    m.get row.1 = some row ∨ ∃ line ∈ lines, digestLine line = some row := by
  induction lines generalizing m with
  | nil => exact Or.inl h
  | cons line lines ih =>
    rcases ih h with hm | ⟨l, hl, hrow⟩
    · unfold setLine at hm
      split at hm
      · exact Or.inl hm
      · next step digest hline =>
        by_cases hstep : step = row.1
        · subst hstep
          rw [Dict.get_set_self] at hm
          exact Or.inr ⟨line, List.mem_cons_self, hline.trans hm⟩
        · rw [Dict.get_set_ne hstep] at hm
          exact Or.inl hm
    · exact Or.inr ⟨l, List.mem_cons_of_mem _ hl, hrow⟩

/-- The parts of a cut report: the lines it has, and what there is of the next. -/
theorem Reports.cut (h : Reports rows) (hp : p <+: reportText rows) :
    ∃ before part after, rows = before ++ after ∧ p = reportText before ++ part ∧
      p.splitOn '\n' = before.map lineOf ++ [part] ∧
      (part = [] ∨ ∃ row ∈ after, part <+: lineOf row) := by
  obtain ⟨lines, part, rest, rfl, hlines, hpart⟩ := prefix_ended hp
  obtain ⟨before, after, rfl, rfl, rfl⟩ := List.map_eq_append_iff.mp hlines
  have hpart' : part = [] ∨ ∃ row ∈ after, part <+: lineOf row := by
    refine hpart.imp_right ?_
    rintro ⟨l, hl, hpre⟩
    obtain ⟨row, hrow, rfl⟩ := List.mem_map.mp hl
    exact ⟨row, hrow, hpre⟩
  refine ⟨before, part, after, rfl, rfl, splitOn_ended ?_ ?_, hpart'⟩
  · intro l hl
    obtain ⟨row, hrow, rfl⟩ := List.mem_map.mp hl
    exact h.newline_notMem (List.mem_append_left _ hrow)
  · rcases hpart' with rfl | ⟨row, hrow, hpre⟩
    · exact List.not_mem_nil
    · exact fun hmem => h.newline_notMem (List.mem_append_right _ hrow) (hpre.mem hmem)

theorem Reports.ne_nil_of_mem (h : Reports rows) (hrow : row ∈ rows) : row.2 ≠ [] := by
  intro hnil
  have hlength := length_of_digestRe (h.digests row hrow)
  rw [hnil] at hlength
  contradiction

/-- The whole report gives each step its digest. -/
theorem Reports.index_of_mem (h : Reports rows) (hrow : row ∈ rows) :
    ((rows.map lineOf).foldl setLine Table.empty).index row.1 = row.2 := by
  have hset : ∀ (l : List (List Char × List Char)) (m : Dict (List Char) (List Char)), l ⊆ rows →
      (l.map lineOf).foldl setLine m = l.foldl (fun m r => m.set r.1 r.2) m := by
    intro l
    induction l with
    | nil => exact fun _ _ => rfl
    | cons r l ih =>
      intro m hl
      rw [List.map_cons, List.foldl_cons, List.foldl_cons, setLine, h.digestLine_lineOf (hl List.mem_cons_self)]
      exact ih _ fun x hx => hl (List.mem_cons_of_mem r hx)
  rw [hset rows Table.empty (List.Subset.refl rows)]
  exact Dict.index_foldl_set_of_mem h.nodup hrow

/-- A step whose line is missing has no digest. -/
theorem Reports.index_of_missing {before after : List (List Char × List Char)}
    (h : Reports (before ++ row :: after)) :
    ((before.map lineOf).foldl setLine Table.empty).index row.1 = [] := by
  cases hget : ((before.map lineOf).foldl setLine Table.empty).get row.1 with
  | none => exact Dict.index_of_get_none hget
  | some found =>
    have hkey := Table.key_of_get hget
    rw [← hkey] at hget
    have hfound : found ∈ before := by
      rcases get_foldl_setLine hget with hempty | ⟨line, hline, hrow⟩
      · exact nomatch hempty
      · obtain ⟨r, hr, rfl⟩ := List.mem_map.mp hline
        rw [h.digestLine_lineOf (List.mem_append_left _ hr)] at hrow
        exact Option.some.inj hrow ▸ hr
    have hnodup := h.nodup
    rw [List.map_append, List.nodup_append] at hnodup
    exact absurd hkey (hnodup.2.2 _ (List.mem_map_of_mem hfound) _ (by simp))

/-- What is read of a cut report is of it; without a part behind the last line break, of its first
lines. -/
theorem Reports.parsed (h : Reports rows) (hp : p <+: reportText rows) :
    (∀ row, (parseDigests p).1.get row.1 = some row → row ∈ rows) ∧
      ((parseDigests p).2 = true → ∃ before after, rows = before ++ after ∧ p = reportText before ∧
        (parseDigests p).1 = (before.map lineOf).foldl setLine Table.empty) := by
  obtain ⟨before, part, after, rfl, htext, hlines, hpart⟩ := h.cut hp
  have hbefore : ∀ line ∈ before.map lineOf, ∀ row, digestLine line = some row →
      row ∈ before ++ after := by
    intro line hline row hrow
    obtain ⟨r, hr, rfl⟩ := List.mem_map.mp hline
    rw [h.digestLine_lineOf (List.mem_append_left _ hr)] at hrow
    obtain rfl := Option.some.inj hrow
    exact List.mem_append_left _ hr
  have hfound {lines : List (List Char)} (hall : ∀ line ∈ lines, ∀ row, digestLine line = some row →
      row ∈ before ++ after) (row : List Char × List Char)
      (hrow : (lines.foldl setLine Table.empty).get row.1 = some row) : row ∈ before ++ after := by
    rcases get_foldl_setLine hrow with hnone | ⟨line, hline, heq⟩
    · exact nomatch hnone
    · exact hall line hline row heq
  unfold parseDigests
  rw [hlines]
  dsimp only
  rw [List.getLast?_concat]
  by_cases hnil : part = []
  · subst hnil
    simp only [BEq.rfl, if_true, List.dropLast_concat]
    refine ⟨hfound hbefore, fun _ => ⟨before, after, rfl, ?_, rfl⟩⟩
    rw [htext, List.append_nil]
  · have hcut : (some part == some []) = false := by simpa using hnil
    simp only [hcut, Bool.false_eq_true, if_false, Bool.false_and]
    refine ⟨hfound fun line hline row hrow => ?_, fun hfalse => hfalse.elim⟩
    rcases List.mem_append.mp hline with hline | hline
    · exact hbefore line hline row hrow
    · obtain rfl := List.mem_singleton.mp hline
      obtain ⟨r, hr, hpre⟩ := hpart.resolve_left hnil
      rw [h.eq_of_prefix (List.mem_append_right _ hr) hpre hrow]
      exact List.mem_append_right _ hr

theorem Reports.parsed_whole (h : Reports rows) : (parseDigests (reportText rows)).2 = true ∧
    (parseDigests (reportText rows)).1 = (rows.map lineOf).foldl setLine Table.empty := by
  have hlines : (reportText rows).splitOn '\n' = rows.map lineOf ++ [[]] := by
    rw [← List.append_nil (reportText rows)]
    refine splitOn_ended (fun l hl => ?_) List.not_mem_nil
    obtain ⟨row, hrow, rfl⟩ := List.mem_map.mp hl
    exact h.newline_notMem hrow
  unfold parseDigests
  rw [hlines]
  dsimp only
  rw [List.getLast?_concat]
  simp only [BEq.rfl, if_true, List.dropLast_concat, Bool.true_and, List.all_eq_true, and_true]
  intro line hline
  obtain ⟨row, hrow, rfl⟩ := List.mem_map.mp hline
  rw [h.digestLine_lineOf hrow]
  rfl

end Reports

/-- A report cut anywhere: the log need not be read exactly where it is whole, and whatever is read
of it is of the build. -/
theorem digests_cut (rows : List (List Char × List Char)) (h : Reports rows)
    (statuses : List ContainerStatus) (hmsg : reportMessage statuses <+: reportText rows) :
    ((digests (some statuses) (rows.map Prod.fst)).2 = false ↔
      reportMessage statuses = reportText rows) ∧
    ∀ got, (digests (some statuses) (rows.map Prod.fst)).1 = some got →
      ∀ row, got.get row.1 = some row → row ∈ rows := by
  unfold digests
  by_cases hnone : rows.map Prod.fst = []
  · obtain rfl := List.map_eq_nil_iff.mp hnone
    rw [if_pos hnone]
    exact ⟨iff_of_true rfl (List.prefix_nil.mp hmsg), nofun⟩
  rw [if_neg hnone]
  obtain ⟨hrows, hcomplete⟩ := h.parsed hmsg
  dsimp only
  refine ⟨?_, fun got hgot row hrow => ?_⟩
  · rw [Bool.not_eq_false', Bool.and_eq_true, Bool.and_eq_true, List.all_eq_true]
    constructor
    · rintro ⟨⟨hparsed, -⟩, hall⟩
      obtain ⟨before, after, rfl, htext, hgot⟩ := hcomplete hparsed
      cases after with
      | nil => rw [List.append_nil, htext]
      | cons row after =>
        have hindex := of_decide_eq_true (hall row.1 (List.mem_map_of_mem (by simp)))
        rw [hgot, h.index_of_missing] at hindex
        exact absurd rfl hindex
    · intro htext
      obtain ⟨hparsed, hgot⟩ := h.parsed_whole
      rw [htext, hgot]
      refine ⟨⟨hparsed, decide_eq_true ?_⟩, fun step hstep => decide_eq_true ?_⟩
      · cases rows with
        | nil => exact absurd rfl hnone
        | cons row rest => simp [reportText, ended_cons]
      · obtain ⟨row, hrow, rfl⟩ := List.mem_map.mp hstep
        rw [h.index_of_mem hrow]
        exact h.ne_nil_of_mem hrow
  · obtain rfl := Option.some.inj hgot
    exact hrows row hrow

def builtRows : List (List Char × List Char) :=
  [("api".toList, "sha256:".toList ++ List.replicate 64 'a'),
    ("web".toList, "sha256:".toList ++ List.replicate 64 'b')]

/-- The report ends at a line break, the line of one step is missing. -/
def cutStatuses : List ContainerStatus :=
  [⟨"checkout", some []⟩, ⟨"report", some (reportText (builtRows.take 1))⟩]

theorem digests_cut_atBreak : ((digests (some cutStatuses) (builtRows.map Prod.fst)).2 = false ↔
      reportMessage cutStatuses = reportText builtRows) ∧
    ∀ got, (digests (some cutStatuses) (builtRows.map Prod.fst)).1 = some got →
      ∀ row, got.get row.1 = some row → row ∈ builtRows :=
  digests_cut builtRows ⟨by decide, by decide, by decide⟩ cutStatuses
    (by decide)

end Kubeast.BuildStatus
