import Kubeast.Pipelines.Paths

/-! A pipeline that passed its checks passes them again with its defaults filled in, and then its
steps only take images that were built before. -/
namespace Kubeast.Pipelines
open Text (CharTables)

section Fill
variable {s t : Step} {b : Build} {before steps : List Step} {text only : String}

@[simp] theorem orDefault_orDefault : orDefault (orDefault text only) only = orDefault text only := by
  unfold orDefault
  split_ifs <;> rfl

/-- A default that passes a check passes for an empty text too. -/
theorem orDefault_passes (only : String) (bad : String → Bool) (htext : bad text = false) (honly : bad only = false) :
    bad (orDefault text only) = false := by
  unfold orDefault
  split_ifs
  · exact honly
  · exact htext

theorem Build.fill_dockerfile : b.fill.dockerfile =
    orDefault b.dockerfile (Text.cleanPath (orDefault b.context "." ++ "/Dockerfile")) := rfl

theorem Build.fill_fill : b.fill.fill = b.fill := by simp [Build.fill]

theorem Scan.fill_fill {c : Scan} : (c.fill only).fill only = c.fill only := by simp [Scan.fill]

theorem Deploy.fill_fill {d : Deploy} : (d.fill only).fill only = d.fill only := by
  simp [Deploy.fill]

theorem Step.fill_fill : (s.fill before).fill before = s.fill before := by
  obtain ⟨name, image, commands, env, secrets, build, scan, deploy⟩ := s
  cases build <;> cases scan <;> cases deploy <;>
    simp [Step.fill, Build.fill_fill, Scan.fill_fill, Deploy.fill_fill]

@[simp] theorem fill_name : (s.fill before).name = s.name := by
  unfold Step.fill
  split <;> rfl

@[simp] theorem fill_build_isSome : (s.fill before).build.isSome = s.build.isSome := by
  unfold Step.fill
  split <;> simp_all

@[simp] theorem fill_deploy_isSome : (s.fill before).deploy.isSome = s.deploy.isSome := by
  unfold Step.fill
  split <;> simp_all

@[simp] theorem fill_kinds : (s.fill before).kinds = s.kinds := by
  unfold Step.fill
  split <;> simp_all [Step.kinds]

@[simp] theorem fill_kind : (s.fill before).kind = s.kind := by
  unfold Step.fill
  split <;> simp_all [Step.kind]

@[simp] theorem fill_env : (s.fill before).env = s.env := by
  unfold Step.fill
  split <;> rfl

@[simp] theorem fill_secrets : (s.fill before).secrets = s.secrets := by
  unfold Step.fill
  split <;> rfl

@[simp] theorem fill_deployTarget :
    (s.fill before).deploy.toList.map deployTarget = s.deploy.toList.map deployTarget := by
  unfold Step.fill
  split <;> simp_all [Deploy.fill, deployTarget]

theorem next_fill {seen : Seen} {i : ℕ} : seen.next i (s.fill before) = seen.next i s := by
  simp [Seen.next]

/-- The steps that `fillSteps` adds to those before. -/
def fillRest : List Step → List Step → List Step
  | _, [] => []
  | before, s :: steps => s.fill before :: fillRest (before ++ [s.fill before]) steps

theorem fillSteps_eq : fillSteps before steps = before ++ fillRest before steps := by
  induction steps generalizing before with
  | nil => exact (List.append_nil before).symm
  | cons s steps ih => rw [fillSteps, ih, fillRest, List.append_assoc, List.singleton_append]

theorem fillRest_fillRest : fillRest before (fillRest before steps) = fillRest before steps := by
  induction steps generalizing before with
  | nil => rfl
  | cons s steps ih => rw [fillRest, fillRest, Step.fill_fill, ih]

theorem fillDefaults_fillDefaults {p : Pipeline} : p.fillDefaults.fillDefaults = p.fillDefaults := by
  simp [Pipeline.fillDefaults, fillSteps_eq, fillRest_fillRest]

/-- What the exactly one kind of a step makes of it. -/
theorem one_kind (before : List Step) (h : s.kinds.count true = 1) :
    (s.kind = .commands ∧ s.build = none ∧ s.scan = none ∧ s.deploy = none ∧ s.fill before = s) ∨
    (∃ b, s.kind = .build ∧ s.build = some b ∧ s.scan = none ∧ s.deploy = none ∧
      s.fill before = { s with build := some b.fill }) ∨
    (∃ c, s.kind = .scan ∧ s.build = none ∧ s.scan = some c ∧ s.deploy = none ∧
      s.fill before = { s with scan := some (c.fill (onlyBuild before)) }) ∨
    ∃ d, s.kind = .deploy ∧ s.build = none ∧ s.scan = none ∧ s.deploy = some d ∧
      s.fill before = { s with deploy := some (d.fill (onlyBuild before)) } := by
  obtain ⟨name, image, commands, env, secrets, build, scan, deploy⟩ := s
  cases build <;> cases scan <;> cases deploy <;>
    simp_all [Step.kinds, Step.kind, Step.fill, List.count_cons] <;> omega

end Fill

section Builds
variable {s : Step} {before : List Step} {name : String} {i j : ℕ}

/-- A build step of the name stands at the place. -/
def Built (steps : List Step) (name : String) (j : ℕ) : Prop :=
  ∃ t, steps[j]? = some t ∧ t.name = name ∧ t.build.isSome = true

/-- The images that a step takes. -/
def Step.froms (s : Step) : List String :=
  s.scan.toList.map Scan.from_ ++ s.deploy.toList.map Deploy.from_

theorem built_append : Built (before ++ [s]) name j ↔
    Built before name j ∨ (j = before.length ∧ s.name = name ∧ s.build.isSome = true) := by
  unfold Built
  rcases lt_trichotomy j before.length with hlt | rfl | hgt
  · simp [List.getElem?_append_left hlt, hlt.ne]
  · simp
  · simp [List.getElem?_append_right hgt.le, List.getElem?_eq_none hgt.le, hgt.ne',
      Nat.sub_ne_zero_of_lt hgt]

theorem getElem?_snoc {t : Step} (h : (before ++ [s])[j]? = some t) :
    before[j]? = some t ∨ (j = before.length ∧ t = s) := by
  rw [List.getElem?_append] at h
  split_ifs at h with hlt
  · exact Or.inl h
  · rw [List.getElem?_singleton, Option.ite_none_right_eq_some, Option.some_inj] at h
    exact Or.inr ⟨by omega, h.2.symm⟩

theorem Built.lt (h : Built before name j) : j < before.length := by
  obtain ⟨t, ht, -⟩ := h
  exact (List.getElem?_eq_some_iff.mp ht).1

theorem onlyBuild_append : onlyBuild (before ++ [s]) =
    if s.build.isSome then s.name else onlyBuild before := by
  rw [onlyBuild, List.foldl_append]
  rfl

/-- Where there is a build step, the name is of one. -/
theorem built_onlyBuild (h : Built before name i) : ∃ j, Built before (onlyBuild before) j := by
  induction before using List.reverseRecOn with
  | nil => obtain ⟨t, ht, -⟩ := h; exact nomatch ht
  | append_singleton before s ih =>
    rw [onlyBuild_append]
    simp only [built_append] at h ⊢
    split_ifs with hbuild
    · exact ⟨before.length, Or.inr ⟨rfl, rfl, hbuild⟩⟩
    · rcases h with h | ⟨-, -, h⟩
      · obtain ⟨j, hj⟩ := ih h
        exact ⟨j, Or.inl hj⟩
      · exact absurd h hbuild

end Builds

section Passed
variable {tables : CharTables} {s : Step} {before steps : List Step} {seen : Seen} {at_ from_ : String}
  {i : ℕ}

/-- What the checks know of the steps before, all of which passed and are filled. -/
structure Known (before : List Step) (seen : Seen) : Prop where
  names : ∀ name, name ∈ seen.names ↔ name ∈ before.map Step.name
  nodup : (before.map Step.name).Nodup
  named : "" ∉ before.map Step.name
  builds : ∀ name j, seen.builds.get name = some (name, j) ↔ Built before name j
  executables : ∀ j t, before[j]? = some t → t.deploy.isSome = false →
    ∃ last, seen.lastExecutable = some last ∧ j ≤ last
  froms : ∀ j t, before[j]? = some t → ∀ name ∈ t.froms, ∃ k < j, Built before name k

theorem known_nil : Known [] Seen.none where
  names := fun _ => iff_of_false List.not_mem_nil List.not_mem_nil
  nodup := List.nodup_nil
  named := List.not_mem_nil
  builds := fun _ _ => iff_of_false (fun h => nomatch h) fun ⟨_, h, _⟩ => nomatch h
  executables := nofun
  froms := nofun

/-- The one row of the build steps is of the step that `onlyBuild` finds. -/
theorem Known.built_default (hknown : Known before seen) (hone : seen.builds.rows.length = 1) :
    ∃ j, Built before (onlyBuild before) j := by
  obtain ⟨⟨name, j⟩, hrows⟩ := List.length_eq_one_iff.mp hone
  have hget : seen.builds.get name = some (name, j) :=
    Table.get_of_mem (r := (name, j)) (hrows ▸ List.mem_cons_self)
  exact built_onlyBuild ((hknown.builds name j).mp hget)

theorem Known.named_of_built (hknown : Known before seen) {name : String} {j : ℕ}
    (h : Built before name j) : name ≠ "" := by
  rintro rfl
  obtain ⟨t, ht, hname, -⟩ := h
  exact hknown.named (List.mem_map.mpr ⟨t, List.mem_of_getElem? ht, hname⟩)

/-- A `from` that passed names a build step before it, written or filled in, and the one that is
filled in passes as well. -/
theorem Known.from_passed (hknown : Known before seen)
    (h : fromProblems tables at_ from_ before.length seen.builds = []) :
    (∃ j, Built before (orDefault from_ (onlyBuild before)) j) ∧
      fromProblems tables at_ (orDefault from_ (onlyBuild before)) before.length seen.builds = [] := by
  have hpassed {name : String} {j : ℕ} (hj : Built before name j) :
      fromProblems tables at_ name before.length seen.builds = [] := by
    rw [fromProblems, if_neg (hknown.named_of_built hj), (hknown.builds name j).mpr hj, problem_eq_nil]
    exact decide_eq_false (Nat.not_le.mpr hj.lt)
  by_cases hempty : from_ = ""
  · rw [orDefault, if_pos hempty]
    rw [fromProblems, if_pos hempty] at h
    have hone : seen.builds.rows.length = 1 := by
      split at h
      · contradiction
      · assumption
      · contradiction
    obtain ⟨j, hj⟩ := hknown.built_default hone
    exact ⟨⟨j, hj⟩, hpassed hj⟩
  · rw [orDefault, if_neg hempty]
    refine ⟨?_, h⟩
    rw [fromProblems, if_neg hempty, problem_eq_nil] at h
    cases hget : seen.builds.get from_ with
    | none => rw [hget] at h; contradiction
    | some row =>
      obtain ⟨name, j⟩ := row
      obtain rfl : name = from_ := Table.key_of_get hget
      exact ⟨j, (hknown.builds name j).mp hget⟩

theorem pathProblems_orDefault {field path default : String} (h : pathProblems tables at_ field path = [])
    (hdefault : pathRe.accepts default.toList = true) :
    pathProblems tables at_ field (orDefault path default) = [] := by
  rw [pathProblems, problem_eq_nil] at h ⊢
  exact orDefault_passes default (fun path => path != "" && !pathRe.accepts path.toList) h
    (by simp [hdefault])

theorem accepts_context {b : Build} (h : pathProblems tables at_ "build.context" b.context = []) :
    pathRe.accepts (orDefault b.context ".").toList = true := by
  unfold orDefault
  split_ifs with hempty
  · decide
  · simpa [pathProblems, hempty] using h

/-- A build that passed does so with the context and the file filled in. -/
theorem buildProblems_fill {b : Build} (h : buildProblems tables at_ b = []) :
    buildProblems tables at_ b.fill = [] := by
  simp only [buildProblems, List.append_eq_nil_iff] at h ⊢
  obtain ⟨⟨⟨⟨⟨⟨⟨himage, hcontext⟩, hfile⟩, hnamed⟩, htarget⟩, hcount⟩, hargs⟩, hsecret⟩ := h
  have haccepts := accepts_context hcontext
  have hdefault := dockerfile_ok haccepts
  refine ⟨⟨⟨⟨⟨⟨⟨himage, ?_⟩, ?_⟩, ?_⟩, htarget⟩, hcount⟩, hargs⟩, hsecret⟩
  · exact pathProblems_orDefault hcontext (by decide)
  · exact pathProblems_orDefault hfile hdefault.1
  · rw [problem_eq_nil] at hnamed ⊢
    rw [Build.fill_dockerfile]
    exact orDefault_passes _ (fun file => file != "" && Text.cleanPath file == ".") hnamed
      (by simp [hdefault.2])

theorem step_passed (h : stepProblems tables i seen s = []) :
    s.name ≠ "" ∧ s.name ∉ seen.names ∧ s.kinds.count true = 1 ∧
      kindProblems tables (placeOf i s.name) i seen s = [] := by
  rw [stepProblems, List.append_eq_nil_iff] at h
  obtain ⟨hname, hkind⟩ := h
  have hkinds : s.kinds.count true = 1 := by
    by_contra hne
    rw [if_pos hne] at hkind
    contradiction
  rw [if_neg (not_not.mpr hkinds), List.append_eq_nil_iff] at hkind
  rw [nameProblems] at hname
  split_ifs at hname with hempty hlabel hkept
  refine ⟨hempty, ?_, hkinds, hkind.2⟩
  rw [problem_eq_nil, List.contains_eq_mem, decide_eq_false_iff_not] at hname
  exact hname

/-- What a step takes, once filled in, was built before it. -/
theorem Known.kind_passed (hknown : Known before seen) (hkinds : s.kinds.count true = 1)
    (h : kindProblems tables at_ before.length seen s = []) :
    kindProblems tables at_ before.length seen (s.fill before) = [] ∧
      ∀ name ∈ (s.fill before).froms, ∃ j, Built before name j := by
  rcases one_kind before hkinds with ⟨hkind, hbuild, hscan, hdeploy, hfill⟩ |
    ⟨b, hkind, hbuild, hscan, hdeploy, hfill⟩ | ⟨c, hkind, hbuild, hscan, hdeploy, hfill⟩ |
    ⟨d, hkind, hbuild, hscan, hdeploy, hfill⟩
  · rw [hfill]
    exact ⟨h, by simp [Step.froms, hscan, hdeploy]⟩
  · rw [kindProblems, fill_kind, hkind, hfill]
    rw [kindProblems, hkind, hbuild, Option.toList_some, List.flatMap_singleton] at h
    exact ⟨by simpa using buildProblems_fill h, by simp [Step.froms, hscan, hdeploy]⟩
  · rw [kindProblems, fill_kind, hkind, hfill]
    rw [kindProblems, hkind, hscan, Option.toList_some, List.flatMap_singleton, scanProblems,
      List.append_eq_nil_iff, problem_eq_nil] at h
    obtain ⟨hbuilt, hfrom⟩ := hknown.from_passed h.1
    refine ⟨?_, by simpa [Step.froms, hdeploy, Scan.fill] using hbuilt⟩
    have hseverity := orDefault_passes "HIGH" (fun text => text != "" && !severities.contains text)
      h.2 (by decide)
    simpa [scanProblems, Scan.fill, hfrom] using hseverity
  · rw [kindProblems, fill_kind, hkind, hfill]
    rw [kindProblems, hkind, hdeploy, Option.toList_some, List.flatMap_singleton] at h
    simp only [deployProblems, List.append_eq_nil_iff] at h
    obtain ⟨⟨⟨⟨hfrom, hservice⟩, henv⟩, hmode⟩, htarget⟩ := h
    obtain ⟨hbuilt, hpass⟩ := hknown.from_passed hfrom
    refine ⟨?_, by simpa [Step.froms, hscan, Deploy.fill] using hbuilt⟩
    rw [Option.toList_some, List.flatMap_singleton]
    simp only [deployProblems, List.append_eq_nil_iff]
    refine ⟨⟨⟨⟨hpass, hservice⟩, henv⟩, ?_⟩, htarget⟩
    rw [problem_eq_nil] at hmode ⊢
    exact orDefault_passes modeManual (fun mode => mode != "" && mode != modeAuto && mode != modeManual)
      hmode (by decide)

theorem next_names : (seen.next i s).names = s.name :: seen.names := by
  unfold Seen.next
  cases s.kind <;> split_ifs <;> rfl

theorem next_builds (hkinds : s.kinds.count true = 1) (hname : s.name ≠ "") :
    (seen.next i s).builds = if s.build.isSome then seen.builds.set s.name i else seen.builds := by
  rcases one_kind [] hkinds with ⟨hkind, hbuild, -⟩ | ⟨b, hkind, hbuild, -⟩ |
    ⟨c, hkind, hbuild, -⟩ | ⟨d, hkind, hbuild, -⟩ <;>
  simp [Seen.next, hkinds, hkind, hbuild, hname]

theorem next_lastExecutable (hkinds : s.kinds.count true = 1) :
    (seen.next i s).lastExecutable = if s.deploy.isSome then seen.lastExecutable else some i := by
  rcases one_kind [] hkinds with ⟨hkind, -, -, hdeploy, -⟩ | ⟨b, hkind, -, -, hdeploy, -⟩ |
    ⟨c, hkind, -, -, hdeploy, -⟩ | ⟨d, hkind, -, -, hdeploy, -⟩ <;>
  simp [Seen.next, hkinds, hkind, hdeploy]
  split <;> rfl

/-- One turn of the loop. -/
theorem Known.next (hknown : Known before seen) (h : stepProblems tables before.length seen s = []) :
    Known (before ++ [s.fill before]) (seen.next before.length s) ∧
      stepProblems tables before.length seen (s.fill before) = [] := by
  obtain ⟨hempty, hnew, hkinds, hkind⟩ := step_passed h
  obtain ⟨hpass, hfroms⟩ := hknown.kind_passed hkinds hkind
  rw [hknown.names] at hnew
  constructor
  · constructor
    case names =>
      intro name
      rw [next_names, List.mem_cons, hknown.names, List.map_append, List.mem_append, or_comm]
      simp
    case nodup =>
      rw [List.map_append, List.map_singleton, fill_name]
      rw [← List.concat_eq_append]
      exact hknown.nodup.concat hnew
    case named =>
      rw [List.map_append, List.map_singleton, fill_name, List.mem_append, List.mem_singleton]
      exact fun hmem => hmem.elim hknown.named fun heq => hempty heq.symm
    case builds =>
      intro name j
      rw [next_builds hkinds hempty, built_append, fill_name, fill_build_isSome]
      split_ifs with hbuild
      · by_cases heq : s.name = name
        · subst heq
          have hold : ¬Built before s.name j := by
            rintro ⟨t, ht, hname, -⟩
            exact hnew (List.mem_map.mpr ⟨t, List.mem_of_getElem? ht, hname⟩)
          simp [hold, hbuild, eq_comm]
        · rw [Dict.get_set_ne heq, hknown.builds, or_iff_left fun h => heq h.2.1]
      · rw [hknown.builds, or_iff_left fun h => hbuild h.2.2]
    case executables =>
      intro j t ht hdeploy
      rw [next_lastExecutable hkinds]
      rcases getElem?_snoc ht with hold | ⟨rfl, rfl⟩
      · have hlt := (List.getElem?_eq_some_iff.mp hold).1
        split_ifs
        · exact hknown.executables j t hold hdeploy
        · exact ⟨before.length, rfl, hlt.le⟩
      · rw [fill_deploy_isSome] at hdeploy
        rw [hdeploy]
        exact ⟨_, rfl, le_rfl⟩
    case froms =>
      intro j t ht name hname
      rcases getElem?_snoc ht with hold | ⟨rfl, rfl⟩
      · obtain ⟨k, hk, hbuilt⟩ := hknown.froms j t hold name hname
        exact ⟨k, hk, built_append.mpr (Or.inl hbuilt)⟩
      · obtain ⟨k, hk⟩ := hfroms name hname
        exact ⟨k, hk.lt, built_append.mpr (Or.inl hk)⟩
  · simp only [stepProblems, fill_name, fill_kinds, fill_kind, fill_env, fill_secrets] at h ⊢
    rw [if_neg (not_not.mpr hkinds), List.append_eq_nil_iff, List.append_eq_nil_iff] at h ⊢
    exact ⟨h.1, h.2.1, hpass⟩

/-- The whole loop. -/
theorem Known.run (hknown : Known before seen)
    (h : (stepsProblems tables before.length seen steps).1 = []) :
    Known (before ++ fillRest before steps) (stepsProblems tables before.length seen steps).2 ∧
      stepsProblems tables before.length seen (fillRest before steps) =
        ([], (stepsProblems tables before.length seen steps).2) := by
  induction steps generalizing before seen with
  | nil => exact ⟨by rwa [fillRest, List.append_nil], rfl⟩
  | cons s steps ih =>
    rw [stepsProblems, List.append_eq_nil_iff] at h
    obtain ⟨hnext, hpass⟩ := hknown.next h.1
    have hlength : (before ++ [s.fill before]).length = before.length + 1 := List.length_append
    obtain ⟨hrun, hrest⟩ := ih hnext (hlength ▸ h.2)
    rw [hlength] at hrun hrest
    rw [fillRest, stepsProblems, stepsProblems, next_fill, hrest, hpass]
    exact ⟨by simpa using hrun, rfl⟩

theorem length_fillRest : (fillRest before steps).length = steps.length := by
  induction steps generalizing before with
  | nil => rfl
  | cons s steps ih => rw [fillRest, List.length_cons, ih, List.length_cons]

theorem lateProblems_fillRest (before : List Step) :
    lateProblems seen (fillRest before steps) = lateProblems seen steps := by
  unfold lateProblems
  generalize 0 = start
  induction steps generalizing before start with
  | nil => rfl
  | cons s steps ih =>
    rw [fillRest, List.zipIdx_cons, List.zipIdx_cons, List.flatMap_cons, List.flatMap_cons, ih, fill_name,
      fill_deploy_isSome]

theorem lengthProblems_fillRest : lengthProblems (fillRest before steps) = lengthProblems steps := by
  simp [lengthProblems, length_fillRest, ← List.length_eq_zero_iff]

end Passed

section Closed
variable {tables : CharTables} {p : Pipeline}

theorem fillDefaults_steps : p.fillDefaults.steps = fillRest [] p.steps := fillSteps_eq

theorem validate_ok : p.validate tables = .ok () ↔ p.problems tables = [] := by
  unfold Pipeline.validate
  split_ifs with h <;> simp [h]

theorem timeoutProblems_default : timeoutProblems tables "60m" = [] := by
  have hparse : parseTimeout tables "60m" = .ok (60 * 60 * 10 ^ 9) := by
    rw [parseTimeout, if_neg (by decide)]
    rfl
  rw [timeoutProblems, if_neg (by decide), hparse]

/-- The defaults of a pipeline that passed pass as well. -/
theorem problems_fillDefaults (h : p.problems tables = []) : p.fillDefaults.problems tables = [] := by
  unfold Pipeline.problems at h ⊢
  simp only [List.append_eq_nil_iff] at h ⊢
  obtain ⟨⟨⟨⟨⟨⟨⟨⟨hversion, htriggers⟩, hprofile⟩, htimeout⟩, henv⟩, hlength⟩, hsteps⟩, hruns⟩, hlate⟩ := h
  have hrun := (known_nil.run hsteps).2
  rw [List.length_nil] at hrun
  rw [fillDefaults_steps, hrun, lengthProblems_fillRest, lateProblems_fillRest]
  refine ⟨⟨⟨⟨⟨⟨⟨⟨hversion, htriggers⟩, ?_⟩, ?_⟩, henv⟩, hlength⟩, rfl⟩, ?_⟩, hlate⟩
  · rw [problem_eq_nil] at hprofile ⊢
    exact orDefault_passes "default" (fun profile => profile != "" && !dnsLabel profile 63) hprofile (by decide)
  · change timeoutProblems tables (orDefault p.timeout "60m") = []
    unfold orDefault
    split_ifs
    · exact timeoutProblems_default
    · exact htimeout
  · have hempty : (fillRest [] p.steps).isEmpty = p.steps.isEmpty := by
      cases p.steps <;> rfl
    rw [hempty]
    exact hruns

/-- The image that a step takes is built by a step before it. -/
def Pipeline.FromBuilt (p : Pipeline) : Prop :=
  ∀ (i : ℕ) (s : Step), p.steps[i]? = some s → ∀ name ∈ s.froms,
    (∃ j < i, Built p.steps name j) ∧ p.buildStep name ≠ none

/-- Deploy steps stand behind all others. -/
def Pipeline.DeployLast (p : Pipeline) : Prop :=
  ∀ (i j : ℕ) (s t : Step), p.steps[i]? = some s → p.steps[j]? = some t →
    s.deploy.isSome = true → t.deploy.isSome = false → j < i

theorem buildStep_ne_none {name : String} {j : ℕ} (h : Built p.steps name j) : p.buildStep name ≠ none := by
  obtain ⟨t, ht, hname, hbuild⟩ := h
  obtain ⟨u, hu⟩ : ∃ u, p.steps.find? (fun s => s.name == name && s.build.isSome) = some u :=
    Option.isSome_iff_exists.mp (List.find?_isSome.mpr
      ⟨t, List.mem_of_getElem? ht, by rw [hname, hbuild, beq_self_eq_true, Bool.true_and]⟩)
  have hfound := List.find?_some hu
  rw [Bool.and_eq_true] at hfound
  rw [Pipeline.buildStep, hu, Option.bind_some]
  exact Option.isSome_iff_ne_none.mp hfound.2

theorem deployLast_of_late {seen : Seen} (hknown : Known p.steps seen)
    (hlate : lateProblems seen p.steps = []) : p.DeployLast := by
  intro i j s t hs ht hdeploy hother
  obtain ⟨last, hlast, hj⟩ := hknown.executables j t ht hother
  have hproblem := List.flatMap_eq_nil_iff.mp hlate (s, i) (List.mk_mem_zipIdx_iff_getElem?.mpr hs)
  rw [problem_eq_nil, hdeploy, hlast, Bool.true_and, Option.any_some, decide_eq_false_iff_not] at hproblem
  refine lt_of_le_of_ne (hj.trans (Nat.not_lt.mp hproblem)) ?_
  rintro rfl
  rw [hs, Option.some_inj] at ht
  rw [← ht, hdeploy] at hother
  contradiction

/-- A pipeline that passed its checks is closed under its defaults. -/
theorem Pipeline.validate_closed (h : p.validate tables = .ok ()) :
    p.fillDefaults.FromBuilt ∧ p.fillDefaults.DeployLast ∧
      (p.fillDefaults.steps.map Step.name).Nodup ∧ p.fillDefaults.validate tables = .ok () ∧
      p.fillDefaults.normalize tables = .ok p.fillDefaults := by
  rw [validate_ok] at h
  have hagain : p.fillDefaults.validate tables = .ok () := validate_ok.mpr (problems_fillDefaults h)
  simp only [Pipeline.problems, List.append_eq_nil_iff] at h
  obtain ⟨⟨⟨-, hsteps⟩, -⟩, hlate⟩ := h
  have hknown := (known_nil.run hsteps).1
  rw [List.nil_append, ← fillDefaults_steps, List.length_nil] at hknown
  rw [← lateProblems_fillRest [], ← fillDefaults_steps] at hlate
  refine ⟨?_, deployLast_of_late hknown hlate, hknown.nodup, hagain, ?_⟩
  · intro i s hs name hname
    obtain ⟨j, hj, hbuilt⟩ := hknown.froms i s hs name hname
    exact ⟨⟨j, hj, hbuilt⟩, buildStep_ne_none hbuilt⟩
  · rw [Pipeline.normalize, hagain, fillDefaults_fillDefaults]

/-- An image, its scan and its deployment, with everything else left to the defaults. -/
def imageScanDeploy : Pipeline where
  apiVersion := version
  on := none
  profile := ""
  timeout := ""
  env := Table.empty
  steps := [
    ⟨"image", "", [], Table.empty, [], some ⟨"ghcr.io/o/a", "app", "", "", Table.empty, ""⟩, none, none⟩,
    ⟨"scan", "", [], Table.empty, [], none, some ⟨"", ""⟩, none⟩,
    ⟨"deploy", "", [], Table.empty, [], none, none, some ⟨"", "web", "alpha", ""⟩⟩]

theorem imageScanDeploy_closed :
    imageScanDeploy.fillDefaults.steps.flatMap Step.froms = ["image", "image"] ∧
    imageScanDeploy.fillDefaults.FromBuilt ∧ imageScanDeploy.fillDefaults.DeployLast ∧
      (imageScanDeploy.fillDefaults.steps.map Step.name).Nodup ∧
      imageScanDeploy.fillDefaults.validate Text.CharTables.ascii = .ok () ∧
      imageScanDeploy.fillDefaults.normalize Text.CharTables.ascii = .ok imageScanDeploy.fillDefaults :=
  ⟨by decide, Pipeline.validate_closed (validate_ok.mpr (by decide))⟩

end Closed
end Kubeast.Pipelines
