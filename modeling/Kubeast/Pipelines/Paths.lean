import Kubeast.Pipelines.Validate

/-! Paths inside the repository: the Dockerfile in a build's context is one. -/
namespace Kubeast.Pipelines
open Regex (seq alt star one char plus opt mem_seq mem_alt mem_star mem_opt mem_star_one cons_mem_seq_one
  nil_notMem_seq_one accepts_iff)

section Steps
variable {s : List Char} {steps : List (List Char)}

/-- A step of a path: not empty, and not the step to what is above. -/
def IsStep (s : List Char) : Prop := s ≠ [] ∧ s ≠ ['.', '.'] ∧ ∀ c ∈ s, pathChar c = true

theorem mem_char {c : Char} : s ∈ (char c).language ↔ s = [c] := by
  constructor
  · rintro ⟨a, ha, rfl⟩
    rw [beq_iff_eq] at ha
    rw [ha]
  · rintro rfl
    exact ⟨c, beq_self_eq_true c, rfl⟩

theorem cons_mem_seq_char {a c : Char} {r : Regex Char} :
    a :: s ∈ (seq (char c) r).language ↔ a = c ∧ s ∈ r.language := by
  rw [char, cons_mem_seq_one, beq_iff_eq]

theorem pathChar_dot : pathChar '.' = true := by decide

/-- The four forms of a step together. -/
theorem mem_stepRe : s ∈ stepRe.language ↔ IsStep s := by
  rw [stepRe, mem_alt, mem_alt, mem_alt, mem_char]
  constructor
  · rintro (rfl | h | h | h)
    · exact ⟨by decide, by decide, List.all_eq_true.mp (by decide)⟩
    · cases s with
      | nil => exact absurd h nil_notMem_seq_one
      | cons c s =>
        obtain ⟨hc, hs⟩ := cons_mem_seq_one.mp h
        rw [Bool.and_eq_true, bne_iff_ne] at hc
        refine ⟨List.cons_ne_nil c s, fun heq => hc.2 (List.cons.inj heq).1, ?_⟩
        exact List.forall_mem_cons.mpr ⟨hc.1, mem_star_one.mp hs⟩
    · match s with
      | [] => exact absurd h nil_notMem_seq_one
      | [a] => exact absurd (cons_mem_seq_char.mp h).2 nil_notMem_seq_one
      | a :: b :: s =>
        obtain ⟨rfl, hrest⟩ := cons_mem_seq_char.mp h
        obtain ⟨hb, hs⟩ := cons_mem_seq_one.mp hrest
        rw [Bool.and_eq_true, bne_iff_ne] at hb
        refine ⟨List.cons_ne_nil _ _, fun heq => hb.2 (List.cons.inj (List.cons.inj heq).2).1, ?_⟩
        rw [List.forall_mem_cons, List.forall_mem_cons]
        exact ⟨pathChar_dot, hb.1, mem_star_one.mp hs⟩
    · match s with
      | [] => exact absurd h nil_notMem_seq_one
      | [a] => exact absurd (cons_mem_seq_char.mp h).2 nil_notMem_seq_one
      | [a, b] =>
        exact absurd (cons_mem_seq_char.mp (cons_mem_seq_char.mp h).2).2 nil_notMem_seq_one
      | a :: b :: c :: s =>
        obtain ⟨rfl, hrest⟩ := cons_mem_seq_char.mp h
        obtain ⟨rfl, hlast⟩ := cons_mem_seq_char.mp hrest
        obtain ⟨hc, hs⟩ := cons_mem_seq_one.mp hlast
        refine ⟨List.cons_ne_nil _ _, by simp, ?_⟩
        rw [List.forall_mem_cons, List.forall_mem_cons, List.forall_mem_cons]
        exact ⟨pathChar_dot, pathChar_dot, hc, mem_star_one.mp hs⟩
  · rintro ⟨hne, hup, hchars⟩
    match s with
    | [] => exact absurd rfl hne
    | a :: s =>
      rw [List.forall_mem_cons] at hchars
      by_cases ha : a = '.'
      · subst ha
        match s with
        | [] => exact Or.inl rfl
        | b :: s =>
          rw [List.forall_mem_cons] at hchars
          by_cases hb : b = '.'
          · subst hb
            match s with
            | [] => exact absurd rfl hup
            | c :: s =>
              rw [List.forall_mem_cons] at hchars
              refine Or.inr (Or.inr (Or.inr (cons_mem_seq_char.mpr ⟨rfl, cons_mem_seq_char.mpr ⟨rfl, ?_⟩⟩)))
              exact cons_mem_seq_one.mpr ⟨hchars.2.2.1, mem_star_one.mpr hchars.2.2.2⟩
          · refine Or.inr (Or.inr (Or.inl (cons_mem_seq_char.mpr ⟨rfl, cons_mem_seq_one.mpr ⟨?_, ?_⟩⟩)))
            · rw [hchars.2.1, Bool.true_and, bne_iff_ne]
              exact hb
            · exact mem_star_one.mpr hchars.2.2
      · refine Or.inr (Or.inl (cons_mem_seq_one.mpr ⟨?_, mem_star_one.mpr hchars.2⟩))
        rw [hchars.1, Bool.true_and, bne_iff_ne]
        exact ha

theorem IsStep.slash_notMem (h : IsStep s) : '/' ∉ s := fun hmem => by
  have := h.2.2 '/' hmem
  contradiction

theorem intercalate_cons {step : List Char} :
    ['/'].intercalate (step :: steps) = step ++ steps.flatMap fun t => '/' :: t := by
  induction steps generalizing step with
  | nil => rw [List.intercalate_singleton, List.flatMap_nil, List.append_nil]
  | cons t steps ih => rw [List.intercalate_cons_cons, ih, List.flatMap_cons]; simp

theorem mem_slashed : s ∈ (star (seq (char '/') stepRe)).language ↔
    ∃ steps : List (List Char), (∀ t ∈ steps, IsStep t) ∧ s = steps.flatMap fun t => '/' :: t := by
  rw [mem_star]
  constructor
  · rintro ⟨parts, rfl, hparts⟩
    refine ⟨parts.map List.tail, ?_, ?_⟩
    · intro t ht
      obtain ⟨part, hpart, rfl⟩ := List.mem_map.mp ht
      cases part with
      | nil => exact absurd (hparts [] hpart) nil_notMem_seq_one
      | cons c part => exact mem_stepRe.mp (cons_mem_seq_char.mp (hparts _ hpart)).2
    · rw [List.flatMap_map, List.flatten_eq_flatMap]
      refine List.flatMap_congr fun part hpart => ?_
      cases part with
      | nil => exact absurd (hparts [] hpart) nil_notMem_seq_one
      | cons c part => rw [(cons_mem_seq_char.mp (hparts _ hpart)).1]; rfl
  · rintro ⟨steps, hsteps, rfl⟩
    refine ⟨steps.map fun t => '/' :: t, List.flatMap_def .., fun part hpart => ?_⟩
    obtain ⟨t, ht, rfl⟩ := List.mem_map.mp hpart
    exact cons_mem_seq_char.mpr ⟨rfl, mem_stepRe.mpr (hsteps t ht)⟩

/-- Steps with slashes between, and one at the end perhaps. -/
theorem mem_pathRe : s ∈ pathRe.language ↔ ∃ (step : List Char) (steps : List (List Char)),
    (∀ t ∈ step :: steps, IsStep t) ∧ (s = ['/'].intercalate (step :: steps) ∨
      s = ['/'].intercalate (step :: (steps ++ [[]]))) := by
  simp only [pathRe, mem_seq, mem_slashed, mem_opt, mem_char, mem_stepRe, intercalate_cons,
    List.flatMap_append]
  constructor
  · rintro ⟨step, hstep, v, ⟨u, ⟨steps, hsteps, rfl⟩, w, rfl | rfl, rfl⟩, rfl⟩
    · exact ⟨step, steps, List.forall_mem_cons.mpr ⟨hstep, hsteps⟩, Or.inl (by simp)⟩
    · exact ⟨step, steps, List.forall_mem_cons.mpr ⟨hstep, hsteps⟩, Or.inr (by simp)⟩
  · rintro ⟨step, steps, hall, rfl | rfl⟩
    all_goals obtain ⟨hstep, hsteps⟩ := List.forall_mem_cons.mp hall
    · exact ⟨step, hstep, _, ⟨_, ⟨steps, hsteps, rfl⟩, [], Or.inl rfl, rfl⟩, by simp⟩
    · exact ⟨step, hstep, _, ⟨_, ⟨steps, hsteps, rfl⟩, ['/'], Or.inr rfl, rfl⟩, by simp⟩

theorem mem_pathRe_of_steps (hne : steps ≠ []) (h : ∀ t ∈ steps, IsStep t) :
    ['/'].intercalate steps ∈ pathRe.language := by
  obtain ⟨step, rest, rfl⟩ := List.exists_cons_of_ne_nil hne
  exact mem_pathRe.mpr ⟨step, rest, h, Or.inl rfl⟩

end Steps

section Clean
variable {steps : List (List Char)} {file : List Char} {done : List (List Char)} {rooted : Bool}

/-- The steps that a clean path has. -/
def kept (steps : List (List Char)) : List (List Char) := steps.filter fun t => t ≠ [] ∧ t ≠ ['.']

theorem foldl_cleanStep (h : ∀ t ∈ steps, t ≠ ['.', '.']) :
    steps.foldl (Text.cleanStep rooted) done = (kept steps).reverse ++ done := by
  induction steps generalizing done with
  | nil => rfl
  | cons t steps ih =>
    obtain ⟨hup, hsteps⟩ := List.forall_mem_cons.mp h
    rw [List.foldl_cons, ih hsteps]
    by_cases hdrop : t = [] ∨ t = ['.']
    · have hstep : Text.cleanStep rooted done t = done := if_pos hdrop
      rw [hstep, kept, kept, List.filter_cons, if_neg (by simpa [or_iff_not_imp_left] using hdrop)]
    · have hstep : Text.cleanStep rooted done t = t :: done := (if_neg hdrop).trans (if_neg hup)
      rw [hstep, kept, kept, List.filter_cons, if_pos (by simpa [not_or] using hdrop),
        List.reverse_cons, List.append_assoc]
      rfl

theorem subset_intercalate : file ⊆ ['/'].intercalate (steps ++ [file]) := by
  cases steps with
  | nil => simp
  | cons t rest =>
    rw [List.cons_append, intercalate_cons, List.flatMap_append, List.flatMap_singleton]
    intro c hc
    exact List.mem_append_right _ (List.mem_append_right _ (List.mem_cons_of_mem _ hc))

/-- A file behind steps that do not go up stays behind those that `kept` leaves. -/
theorem cleanPath_file (hsteps : ∀ t ∈ steps, t = [] ∨ IsStep t) (hfile : IsStep file)
    (hname : file ≠ ['.']) (hfirst : (steps ++ [file]).head? ≠ some []) :
    Text.cleanPath (String.ofList (['/'].intercalate (steps ++ [file]))) =
      String.ofList (['/'].intercalate (kept steps ++ [file])) := by
  have hslash : ∀ t ∈ steps ++ [file], '/' ∉ t := by
    rw [List.forall_mem_append, List.forall_mem_singleton]
    refine ⟨fun t ht => ?_, hfile.slash_notMem⟩
    rcases hsteps t ht with rfl | hstep
    · exact List.not_mem_nil
    · exact hstep.slash_notMem
  have hup : ∀ t ∈ steps ++ [file], t ≠ ['.', '.'] := by
    rw [List.forall_mem_append, List.forall_mem_singleton]
    refine ⟨fun t ht => ?_, hfile.2.1⟩
    rcases hsteps t ht with rfl | hstep
    · exact List.cons_ne_nil _ _ |>.symm
    · exact hstep.2.1
  have hrooted : (['/'].intercalate (steps ++ [file])).head? ≠ some '/' := by
    cases hl : steps ++ [file] with
    | nil => exact absurd hl (by simp)
    | cons t rest =>
      rw [hl] at hfirst hslash
      cases t with
      | nil => exact absurd rfl hfirst
      | cons c t =>
        rw [intercalate_cons, List.cons_append, List.head?_cons, ne_eq, Option.some_inj]
        rintro rfl
        exact hslash _ List.mem_cons_self List.mem_cons_self
  have hkept : kept (steps ++ [file]) = kept steps ++ [file] := by
    rw [kept, List.filter_append, ← kept, List.filter_singleton, decide_eq_true ⟨hfile.1, hname⟩]
    rfl
  have hjoined : ['/'].intercalate (kept steps ++ [file]) ≠ [] := fun hnil =>
    hfile.1 (List.subset_nil.mp (hnil ▸ subset_intercalate))
  rw [Text.cleanPath, String.toList_ofList, beq_eq_false_iff_ne.mpr hrooted,
    List.splitOn_intercalate '/' hslash (by simp), foldl_cleanStep hup, List.append_nil,
    List.reverse_reverse, hkept, if_neg Bool.false_ne_true, if_neg hjoined]

theorem isStep_of_mem_kept (h : ∀ t ∈ steps, t = [] ∨ IsStep t) : ∀ t ∈ kept steps, IsStep t := by
  intro t ht
  obtain ⟨hmem, hkeep⟩ := List.mem_filter.mp ht
  exact (h t hmem).resolve_left (of_decide_eq_true hkeep).1

theorem isStep_dockerfile : IsStep "Dockerfile".toList :=
  ⟨by decide, by decide, List.all_eq_true.mp (by decide)⟩

theorem append_dockerfile {context : String} {step : List Char}
    (h : context.toList = ['/'].intercalate (step :: steps)) : context ++ "/Dockerfile" =
      String.ofList (['/'].intercalate ((step :: steps) ++ ["Dockerfile".toList])) := by
  rw [← String.toList_inj, String.toList_append, String.toList_ofList, h, List.cons_append,
    intercalate_cons, intercalate_cons, List.flatMap_append, List.append_assoc, List.flatMap_singleton,
    String.toList_ofList]
  rfl

/-- The file that a build takes when none is written passes the checks of one that is. -/
theorem dockerfile_ok {context : String} (h : pathRe.accepts context.toList = true) :
    pathRe.accepts (Text.cleanPath (context ++ "/Dockerfile")).toList = true ∧
      Text.cleanPath (Text.cleanPath (context ++ "/Dockerfile")) ≠ "." := by
  obtain ⟨step, steps, hall, hcontext⟩ := mem_pathRe.mp (accepts_iff.mp h)
  obtain ⟨rest, hrest, heq⟩ : ∃ rest : List (List Char), (∀ t ∈ step :: rest, t = [] ∨ IsStep t) ∧
      context ++ "/Dockerfile" =
        String.ofList (['/'].intercalate ((step :: rest) ++ ["Dockerfile".toList])) := by
    rcases hcontext with heq | heq
    · exact ⟨steps, fun t ht => Or.inr (hall t ht), append_dockerfile heq⟩
    · refine ⟨steps ++ [[]], ?_, append_dockerfile heq⟩
      rw [← List.cons_append, List.forall_mem_append, List.forall_mem_singleton]
      exact ⟨fun t ht => Or.inr (hall t ht), Or.inl rfl⟩
  have hfirst : ((step :: rest) ++ ["Dockerfile".toList]).head? ≠ some [] := by
    rw [List.cons_append, List.head?_cons, ne_eq, Option.some_inj]
    exact (hall step List.mem_cons_self).1
  have hkept : ∀ t ∈ kept (step :: rest) ++ ["Dockerfile".toList], IsStep t := by
    rw [List.forall_mem_append, List.forall_mem_singleton]
    exact ⟨isStep_of_mem_kept hrest, isStep_dockerfile⟩
  have hagain : (kept (step :: rest) ++ ["Dockerfile".toList]).head? ≠ some [] := fun hnil =>
    (hkept [] (List.mem_of_head? hnil)).1 rfl
  rw [heq, cleanPath_file hrest isStep_dockerfile (by decide) hfirst]
  constructor
  · rw [accepts_iff, String.toList_ofList]
    exact mem_pathRe_of_steps (by simp) hkept
  · rw [cleanPath_file (fun t ht => Or.inr (isStep_of_mem_kept hrest t ht)) isStep_dockerfile
      (by decide) hagain]
    intro hdot
    have hmem : 'D' ∈ ['/'].intercalate (kept (kept (step :: rest)) ++ ["Dockerfile".toList]) :=
      subset_intercalate (by decide)
    rw [← String.toList_inj, String.toList_ofList] at hdot
    rw [hdot] at hmem
    exact absurd hmem (by decide)

end Clean
end Kubeast.Pipelines
