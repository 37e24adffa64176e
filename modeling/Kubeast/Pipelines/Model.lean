import Kubeast.Foundation.Regex
import Kubeast.Foundation.Text
import Kubeast.Foundation.Table

/-! The regular expressions of a pipeline file's fields (`internal/pipeline/pipeline.go`). -/
namespace Kubeast.Pipelines
open Regex

section Classes

/-- `[a-z0-9]`. -/
def lowerDigit (c : Char) : Bool := c.isLower || c.isDigit

/-- `[-a-z0-9]`. -/
def labelChar (c : Char) : Bool := lowerDigit c || c == '-'

/-- `[A-Za-z_]`. -/
def nameStart (c : Char) : Bool := c.isAlpha || c == '_'

/-- `[A-Za-z0-9_]`. -/
def nameChar (c : Char) : Bool := c.isAlphanum || c == '_'

/-- `\s`. -/
def space (c : Char) : Bool := ['\t', '\n', '\x0c', '\r', ' '].contains c

/-- `[^/,\\]`. -/
def pathChar (c : Char) : Bool := c != '/' && c != ',' && c != '\\'

end Classes

section Patterns

def dnsLabelRe : Regex Char := seq (one lowerDigit) (opt (seq (star (one labelChar)) (one lowerDigit)))

def envNameRe : Regex Char := seq (one nameStart) (star (one nameChar))

def timeoutRe : Regex Char :=
  seq (one fun c => '1' ≤ c && c ≤ '9') (seq (upTo 3 (one Char.isDigit)) (one fun c => c == 'm' || c == 'h'))

/-- A registry repository without a tag or digest: `[host[:port]/]path`. -/
def imageRe : Regex Char :=
  let word := plus (one lowerDigit)
  let between := alt (one fun c => c == '.' || c == '_') (alt (text ['_', '_']) (plus (char '-')))
  seq word (seq (star (seq (one fun c => c == '.' || c == '-') word))
    (seq (opt (seq (char ':') (plus (one Char.isDigit))))
      (plus (seq (char '/') (seq word (star (seq between word)))))))

def targetRe : Regex Char :=
  seq (one Char.isAlphanum) (star (one fun c => nameChar c || c == '.' || c == '-'))

/-- A step of a path that is not `..`. -/
def stepRe : Regex Char :=
  alt (char '.') (alt (seq (one fun c => pathChar c && c != '.') (star (one pathChar)))
    (alt (seq (char '.') (seq (one fun c => pathChar c && c != '.') (star (one pathChar))))
      (seq (char '.') (seq (char '.') (plus (one pathChar))))))

/-- A path inside the repository. -/
def pathRe : Regex Char := seq stepRe (seq (star (seq (char '/') stepRe)) (opt (char '/')))

/-- Any image reference without white space. -/
def stepImageRe : Regex Char := plus (one fun c => !space c)

def dnsLabel (s : String) (max : ℕ) : Bool := decide (s.utf8ByteSize ≤ max) && dnsLabelRe.accepts s.toList

end Patterns

section Labels
variable {s : List Char}

theorem labelChar_of_dnsLabelRe (h : s ∈ dnsLabelRe.language) : ∀ c ∈ s, labelChar c = true := by
  cases s with
  | nil => exact absurd h nil_notMem_seq_one
  | cons c s =>
    obtain ⟨hc, hs⟩ := cons_mem_seq_one.mp h
    have hlower {c : Char} (hc : lowerDigit c = true) : labelChar c = true := by
      rw [labelChar, hc, Bool.true_or]
    rw [List.forall_mem_cons]
    refine ⟨hlower hc, ?_⟩
    rcases mem_opt.mp hs with rfl | hs
    · nofun
    · obtain ⟨u, hu, v, ⟨b, hb, rfl⟩, rfl⟩ := mem_seq.mp hs
      rw [List.forall_mem_append, List.forall_mem_singleton]
      exact ⟨mem_star_one.mp hu, hlower hb⟩

theorem notMem_of_dnsLabelRe {c : Char} (hc : labelChar c = false) (h : s ∈ dnsLabelRe.language) :
    c ∉ s := fun hmem => by
  rw [labelChar_of_dnsLabelRe h c hmem] at hc
  contradiction

end Labels
end Kubeast.Pipelines

/-! A pipeline file: the steps a build runs in order. -/
namespace Kubeast.Pipelines

section Limits

def maxSteps : ℕ := 20
def maxStepName : ℕ := 40
def maxCommands : ℕ := 50
def maxCommandLen : ℕ := 4096
def maxEnv : ℕ := 50
def maxEnvValueLen : ℕ := 4096
def maxSecrets : ℕ := 10
def maxSecretName : ℕ := 40
def maxBuildArgs : ℕ := 50
def maxPatterns : ℕ := 20
def maxPatternLen : ℕ := 255
def maxImageLen : ℕ := 255

/-- 24 hours, in nanoseconds. -/
def maxTimeout : ℤ := 24 * 3600 * 10 ^ 9

end Limits

section Steps

structure PushTrigger where
  branches : List String
  tags : List String

structure PullRequestTrigger where
  branches : List String

structure Triggers where
  push : Option PushTrigger
  pullRequest : Option PullRequestTrigger

structure Build where
  image : String
  /-- Relative to the repository's root. -/
  context : String
  dockerfile : String
  target : String
  args : Dict String String
  registrySecret : String

structure Scan where
  /-- The build step whose image is scanned; empty: the only one before. -/
  from_ : String
  severity : String

structure Deploy where
  from_ : String
  service : String
  env : String
  mode : String

/-- Of `build`, `scan`, `deploy` and the fields of a commands step exactly one is written. -/
structure Step where
  name : String
  image : String
  commands : List String
  env : Dict String String
  secrets : List String
  build : Option Build
  scan : Option Scan
  deploy : Option Deploy

structure Pipeline where
  apiVersion : String
  on : Option Triggers
  profile : String
  timeout : String
  env : Dict String String
  steps : List Step

inductive Kind
  | commands
  | build
  | scan
  | deploy
deriving DecidableEq

/-- `Kind`. -/
def Step.kind (s : Step) : Kind :=
  if s.build.isSome then .build
  else if s.scan.isSome then .scan
  else if s.deploy.isSome then .deploy
  else .commands

/-- The kinds that are written. -/
def Step.kinds (s : Step) : List Bool :=
  [!s.commands.isEmpty || s.image != "", s.build.isSome, s.scan.isSome, s.deploy.isSome]

def version : String := "kubeast.io/pipeline/v1alpha1"

def modeAuto : String := "auto"

def modeManual : String := "manual"

/-- Lowest first. -/
def severities : List String := ["LOW", "MEDIUM", "HIGH", "CRITICAL"]

/-- The names of the containers that are added to every build. -/
def reservedSteps : List String := ["checkout", "report"]

def reservedEnv (name : String) : Bool := name == "CI" || Text.hasPrefix name "KUBEAST_"

end Steps

section Reading

/-- `BuildStep`. -/
def Pipeline.buildStep (p : Pipeline) (name : String) : Option Build :=
  (p.steps.find? fun s => s.name == name && s.build.isSome).bind Step.build

/-- `ParseTimeout`: minutes or hours, in nanoseconds. -/
def parseTimeout (tables : Text.CharTables) (s : String) : Except String ℤ :=
  if timeoutRe.accepts s.toList = false then
    .error (Text.quote tables s ++ " is not <minutes>m or <hours>h")
  else
    let n := (Text.atoi (String.ofList s.toList.dropLast)).getD 0
    let d := n * (if s.toList.getLast? = some 'h' then 3600 else 60) * 10 ^ 9
    if maxTimeout < d then .error (s ++ " is above the limit of 24h0m0s") else .ok d

end Reading

section Globs

/-- `getEsc`: a character of a class; what follows it is not empty. -/
def getEsc : List Char → Option (List Char)
  | [] => none
  | '-' :: _ => none
  | ']' :: _ => none
  | '\\' :: [] => none
  | '\\' :: _ :: rest => if rest = [] then none else some rest
  | _ :: rest => if rest = [] then none else some rest

/-- The ranges of a class and its bracket; `any` says whether one has been read. -/
def classRest : ℕ → Bool → List Char → Option (List Char)
  | 0, _, _ => none
  | fuel + 1, any, chunk =>
    if any ∧ chunk.head? = some ']' then some chunk.tail
    else match getEsc chunk with
    | none => none
    | some ('-' :: rest) => (getEsc rest).bind (classRest fuel true)
    | some rest => classRest fuel true rest

/-- `matchChunk` of an empty name: whether the chunk is well formed. -/
def chunkOk : ℕ → List Char → Bool
  | _, [] => true
  | 0, _ :: _ => false
  | fuel + 1, '[' :: chunk =>
    let chunk := match chunk with
      | '^' :: rest => rest
      | chunk => chunk
    match classRest (chunk.length + 1) false chunk with
    | none => false
    | some rest => chunkOk fuel rest
  | _ + 1, '\\' :: [] => false
  | fuel + 1, '\\' :: _ :: chunk => chunkOk fuel chunk
  | fuel + 1, _ :: chunk => chunkOk fuel chunk

/-- `scanChunk` behind the stars: up to a star that is not in a class. -/
def scanChunk : Bool → List Char → List Char × List Char
  | _, [] => ([], [])
  | _, ['\\'] => (['\\'], [])
  | inrange, '\\' :: c :: s => ('\\' :: c :: (scanChunk inrange s).1, (scanChunk inrange s).2)
  | _, '[' :: s => ('[' :: (scanChunk true s).1, (scanChunk true s).2)
  | _, ']' :: s => (']' :: (scanChunk false s).1, (scanChunk false s).2)
  | inrange, '*' :: s =>
    if inrange then ('*' :: (scanChunk inrange s).1, (scanChunk inrange s).2) else ([], '*' :: s)
  | inrange, c :: s => (c :: (scanChunk inrange s).1, (scanChunk inrange s).2)

/-- `path.Match` with an empty name: whether it finds the pattern well formed. -/
def patternOk : ℕ → List Char → Bool
  | _, [] => true
  | 0, _ :: _ => false
  | fuel + 1, pattern =>
    let (chunk, rest) := scanChunk false (pattern.dropWhile (· == '*'))
    chunkOk chunk.length chunk && patternOk fuel rest

end Globs
end Kubeast.Pipelines
