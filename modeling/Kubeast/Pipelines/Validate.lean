import Kubeast.Pipelines.Model

/-! The checks of a pipeline as written. Every problem is found, and they are sorted. -/
namespace Kubeast.Pipelines
open Text (CharTables quote)

section Problems

/-- `problems.add`. -/
def add (at_ text : String) : String := at_ ++ ": " ++ text

/-- What is wrong where `bad` holds. -/
def problem (bad : Bool) (at_ text : String) : List String := if bad then [add at_ text] else []

@[simp] theorem problem_eq_nil {bad : Bool} {at_ text : String} :
    problem bad at_ text = [] ↔ bad = false := by
  cases bad <;> simp [problem]

end Problems

section Fields
variable (tables : CharTables)

/-- `patterns`. -/
def patternProblems (at_ : String) (list : List String) : List String :=
  problem (decide (maxPatterns < list.length)) at_
    (toString list.length ++ " patterns, at most " ++ toString maxPatterns) ++
  list.flatMap fun p =>
    if p = "" ∨ maxPatternLen < p.utf8ByteSize then
      [add at_ ("a pattern is empty or longer than " ++ toString maxPatternLen)]
    else problem (!patternOk p.toList.length p.toList) at_ (quote tables p ++ " is not a valid pattern")

/-- `env`. -/
def envProblems (at_ : String) (env : Dict String String) : List String :=
  problem (decide (maxEnv < env.rows.length)) at_
    (toString env.rows.length ++ " variables, at most " ++ toString maxEnv) ++
  env.rows.flatMap fun v =>
    (if envNameRe.accepts v.1.toList = false then
      [add at_ (quote tables v.1 ++ " is not a variable name")]
    else problem (reservedEnv v.1) at_ (v.1 ++ " is set by Kubeast")) ++
    problem (decide (maxEnvValueLen < v.2.utf8ByteSize)) at_
      (v.1 ++ " is longer than " ++ toString maxEnvValueLen)

/-- The secrets of a step, and those before. -/
def secretProblems (at_ : String) : List String → List String → List String
  | _, [] => []
  | seen, name :: secrets =>
    (if dnsLabel name maxSecretName = false then
      [add at_ ("secret " ++ quote tables name ++ " is not a DNS label of at most " ++
        toString maxSecretName ++ " characters")]
    else problem (seen.contains name) at_ ("secret " ++ name ++ " is listed twice")) ++
    secretProblems at_ (name :: seen) secrets

/-- `commands`. -/
def commandsProblems (at_ : String) (s : Step) : List String :=
  (if s.image = "" then [add at_ "a commands step needs an image"]
    else problem (decide (maxImageLen < s.image.utf8ByteSize) || !stepImageRe.accepts s.image.toList) at_
      ("image " ++ quote tables s.image ++ " is not an image reference")) ++
  (if s.commands = [] then [add at_ "a commands step needs commands"]
    else problem (decide (maxCommands < s.commands.length)) at_
      (toString s.commands.length ++ " commands, at most " ++ toString maxCommands)) ++
  problem (s.commands.any fun c => Text.trimSpace c == "" || decide (maxCommandLen < c.utf8ByteSize)) at_
    ("a command is empty or longer than " ++ toString maxCommandLen) ++
  envProblems tables (at_ ++ " env") s.env ++
  problem (decide (maxSecrets < s.secrets.length)) at_
    (toString s.secrets.length ++ " secrets, at most " ++ toString maxSecrets) ++
  secretProblems tables at_ [] s.secrets

def pathProblems (at_ field path : String) : List String :=
  problem (path != "" && !pathRe.accepts path.toList) at_ (field ++ " " ++ quote tables path ++
    " must stay inside the repository: no leading /, no .. segment, no comma or backslash")

/-- `build`. -/
def buildProblems (at_ : String) (b : Build) : List String :=
  problem (decide (maxImageLen < b.image.utf8ByteSize) || !imageRe.accepts b.image.toList) at_
    ("build.image must be a repository without a tag or digest (the tag is the commit), " ++
      "such as ghcr.io/org/app") ++
  pathProblems tables at_ "build.context" b.context ++
  pathProblems tables at_ "build.dockerfile" b.dockerfile ++
  problem (b.dockerfile != "" && Text.cleanPath b.dockerfile == ".") at_
    "build.dockerfile must name a file" ++
  problem (b.target != "" && (decide (63 < b.target.utf8ByteSize) || !targetRe.accepts b.target.toList)) at_
    ("build.target " ++ quote tables b.target ++ " is not a stage name") ++
  problem (decide (maxBuildArgs < b.args.rows.length)) at_
    (toString b.args.rows.length ++ " build args, at most " ++ toString maxBuildArgs) ++
  (b.args.rows.flatMap fun v =>
    problem (!envNameRe.accepts v.1.toList) at_ ("build arg " ++ quote tables v.1 ++ " is not a name") ++
    problem (decide (maxEnvValueLen < v.2.utf8ByteSize)) at_
      ("build arg " ++ v.1 ++ " is longer than " ++ toString maxEnvValueLen)) ++
  problem (b.registrySecret != "" && !dnsLabel b.registrySecret maxSecretName) at_
    ("build.registrySecret " ++ quote tables b.registrySecret ++ " is not a DNS label of at most " ++
      toString maxSecretName ++ " characters")

/-- `from`: the build step that a step names, or the only one before it. -/
def fromProblems (at_ from_ : String) (i : ℕ) (builds : Dict String ℕ) : List String :=
  if from_ = "" then
    match builds.rows.length with
    | 0 => [add at_ "needs a build step before it"]
    | 1 => []
    | n => [add at_ (toString n ++ " build steps come before it: say which with from")]
  else problem (match builds.get from_ with
    | none => true
    | some (_, j) => decide (i ≤ j)) at_ ("from " ++ quote tables from_ ++ " is not a build step before it")

/-- What is known of the steps before a step. -/
structure Seen where
  names : List String
  /-- A build step's name and its place. -/
  builds : Dict String ℕ
  targets : List String
  executable : ℕ
  lastExecutable : Option ℕ

def Seen.none : Seen := ⟨[], Table.empty, [], 0, Option.none⟩

def deployTarget (d : Deploy) : String := d.service ++ "/" ++ d.env

def scanProblems (at_ : String) (i : ℕ) (seen : Seen) (c : Scan) : List String :=
  fromProblems tables at_ c.from_ i seen.builds ++
  problem (c.severity != "" && !severities.contains c.severity) at_
    ("severity must be one of " ++ ", ".intercalate severities)

def deployProblems (at_ : String) (i : ℕ) (seen : Seen) (d : Deploy) : List String :=
  fromProblems tables at_ d.from_ i seen.builds ++
  problem (!dnsLabel d.service 63) at_ "deploy.service must be a DNS label" ++
  problem (!dnsLabel d.env 63) at_ "deploy.env must be a DNS label" ++
  problem (d.mode != "" && d.mode != modeAuto && d.mode != modeManual) at_
    "deploy.mode must be auto or manual" ++
  problem (seen.targets.contains (deployTarget d)) at_
    (deployTarget d ++ " is deployed by an earlier step")

def nameProblems (at_ : String) (seen : Seen) (name : String) : List String :=
  if name = "" then [add at_ "name is required"]
  else if dnsLabel name maxStepName = false then
    [add at_ ("name must be a DNS label of at most " ++ toString maxStepName ++ " characters")]
  else if reservedSteps.contains name then
    [add at_ ("name " ++ quote tables name ++ " is kept for the step Kubeast adds")]
  else problem (seen.names.contains name) at_ "name is used by an earlier step"

def kindProblems (at_ : String) (i : ℕ) (seen : Seen) (s : Step) : List String :=
  match s.kind with
  | .commands => commandsProblems tables at_ s
  | .build => s.build.toList.flatMap (buildProblems tables at_)
  | .scan => s.scan.toList.flatMap (scanProblems tables at_ i seen)
  | .deploy => s.deploy.toList.flatMap (deployProblems tables at_ i seen)

def placeOf (i : ℕ) (name : String) : String :=
  "steps[" ++ toString i ++ "]" ++ if name = "" then "" else " " ++ name

/-- One turn of the loop over the steps. -/
def stepProblems (i : ℕ) (seen : Seen) (s : Step) : List String :=
  nameProblems tables (placeOf i s.name) seen s.name ++
  if s.kinds.count true ≠ 1 then
    [add (placeOf i s.name) "write exactly one of commands (with image), build, scan or deploy"]
  else
    problem (s.kind != .commands && (!s.env.rows.isEmpty || !s.secrets.isEmpty)) (placeOf i s.name)
      "env and secrets belong to commands steps" ++
    kindProblems tables (placeOf i s.name) i seen s

/-- What a step adds to what is known; one without a single kind adds its name only. -/
def Seen.next (seen : Seen) (i : ℕ) (s : Step) : Seen :=
  let seen := { seen with names := s.name :: seen.names }
  if s.kinds.count true ≠ 1 then seen
  else
    let seen := if s.kind ≠ .deploy then
      { seen with executable := seen.executable + 1, lastExecutable := some i } else seen
    match s.kind with
    | .build => if s.name ≠ "" then { seen with builds := seen.builds.set s.name i } else seen
    | .deploy => { seen with targets := (s.deploy.toList.map deployTarget) ++ seen.targets }
    | _ => seen

def stepsProblems : ℕ → Seen → List Step → List String × Seen
  | _, seen, [] => ([], seen)
  | i, seen, s :: steps =>
    let rest := stepsProblems (i + 1) (seen.next i s) steps
    (stepProblems tables i seen s ++ rest.1, rest.2)

def triggerProblems (on : Option Triggers) : List String :=
  on.toList.flatMap fun on =>
    (on.push.toList.flatMap fun push => patternProblems tables "on.push.branches" push.branches ++
      patternProblems tables "on.push.tags" push.tags) ++
    on.pullRequest.toList.flatMap fun pr =>
      patternProblems tables "on.pull_request.branches" pr.branches

def timeoutProblems (timeout : String) : List String :=
  if timeout = "" then []
  else match parseTimeout tables timeout with
  | .error e => [add "timeout" e]
  | .ok _ => []

def lengthProblems (steps : List Step) : List String :=
  if steps = [] then [add "steps" "at least one step is needed"]
  else problem (decide (maxSteps < steps.length)) "steps"
    (toString steps.length ++ " steps, at most " ++ toString maxSteps)

/-- A deploy step that is not behind all others. -/
def lateProblems (seen : Seen) (steps : List Step) : List String :=
  steps.zipIdx.flatMap fun s =>
    problem (s.1.deploy.isSome && seen.lastExecutable.any fun last => decide (s.2 < last))
      ("steps[" ++ toString s.2 ++ "] " ++ s.1.name)
      "deploy steps go last: they act after every other step passed"

def Pipeline.problems (p : Pipeline) : List String :=
  problem (p.apiVersion != version) "apiVersion"
    ("must be " ++ version ++ ", not " ++ quote tables p.apiVersion) ++
  triggerProblems tables p.on ++
  problem (p.profile != "" && !dnsLabel p.profile 63) "profile"
    (quote tables p.profile ++ " is not a DNS label") ++
  timeoutProblems tables p.timeout ++
  envProblems tables "env" p.env ++
  lengthProblems p.steps ++
  (stepsProblems tables 0 Seen.none p.steps).1 ++
  problem (!p.steps.isEmpty && (stepsProblems tables 0 Seen.none p.steps).2.executable == 0) "steps"
    "a pipeline needs a step that runs: commands, build or scan" ++
  lateProblems (stepsProblems tables 0 Seen.none p.steps).2 p.steps

/-- `Validate`. -/
def Pipeline.validate (p : Pipeline) : Except String Unit :=
  if p.problems tables = [] then .ok ()
  else .error ("; ".intercalate (Text.sortStrings (p.problems tables)))

end Fields

section Defaults

/-- `onlyBuildBefore`: the last build step among those before. -/
def onlyBuild (before : List Step) : String :=
  before.foldl (fun name s => if s.build.isSome then s.name else name) ""

/-- The text, or a default where it is empty. -/
def orDefault (s default : String) : String := if s = "" then default else s

def Build.fill (b : Build) : Build :=
  let b := { b with context := orDefault b.context "." }
  { b with dockerfile := orDefault b.dockerfile (Text.cleanPath (b.context ++ "/Dockerfile")) }

def Scan.fill (only : String) (c : Scan) : Scan :=
  { c with from_ := orDefault c.from_ only, severity := orDefault c.severity "HIGH" }

def Deploy.fill (only : String) (d : Deploy) : Deploy :=
  { d with from_ := orDefault d.from_ only, mode := orDefault d.mode modeManual }

def Step.fill (before : List Step) (s : Step) : Step :=
  match s.build, s.scan, s.deploy with
  | some b, _, _ => { s with build := some b.fill }
  | none, some c, _ => { s with scan := some (c.fill (onlyBuild before)) }
  | none, none, some d => { s with deploy := some (d.fill (onlyBuild before)) }
  | none, none, none => s

/-- The loop over the steps, those before it filled already. -/
def fillSteps : List Step → List Step → List Step
  | before, [] => before
  | before, s :: steps => fillSteps (before ++ [s.fill before]) steps

/-- `fillDefaults`. -/
def Pipeline.fillDefaults (p : Pipeline) : Pipeline :=
  { p with profile := orDefault p.profile "default", timeout := orDefault p.timeout "60m"
           steps := fillSteps [] p.steps }

/-- `Normalize`. -/
def Pipeline.normalize (tables : CharTables) (p : Pipeline) : Except String Pipeline :=
  match p.validate tables with
  | .error e => .error e
  | .ok () => .ok p.fillDefaults

end Defaults
end Kubeast.Pipelines
