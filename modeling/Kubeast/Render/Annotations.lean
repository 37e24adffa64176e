import Kubeast.Foundation.Transition
import Kubeast.Render.Target

/-! What the `kubeast.io/*` annotations of a workload ask for (`internal/spec/ext.go`). -/
namespace Kubeast.Render
open Sorted

section Keys

def annPrefix : String := "kubeast.io/"
def keyReplicas : String := "kubeast.io/replicas"
def keyAutoscale : String := "kubeast.io/autoscale"
def keyAutoscaleTarget : String := "kubeast.io/autoscale-target"
def keyPDB : String := "kubeast.io/pdb"
def keyStrategy : String := "kubeast.io/strategy"
def keyReadOnlyRoot : String := "kubeast.io/read-only-root"
def keyReadOnlyRootReason : String := "kubeast.io/read-only-root-reason"
def keyRunAsUser : String := "kubeast.io/run-as-user"
def keyHostUsers : String := "kubeast.io/host-users"
def keySpread : String := "kubeast.io/spread"
def keyScrape : String := "kubeast.io/scrape"
def keyProfile : String := "kubeast.io/profile"
def keyPolicyException : String := "kubeast.io/policy-exception"
def keyPolicyExceptionReason : String := "kubeast.io/policy-exception-reason"

/-- score-k8s's annotation of the workload's kind. -/
def keyScoreKind : String := "k8s.score.dev/kind"

/-- `Keys`. -/
def annKeys : List String := [keyReplicas, keyAutoscale, keyAutoscaleTarget, keyPDB, keyStrategy,
  keyReadOnlyRoot, keyReadOnlyRootReason, keyRunAsUser, keyHostUsers, keySpread, keyScrape, keyProfile,
  keyPolicyException, keyPolicyExceptionReason]

end Keys

section Reading

abbrev Annotations := List (String × String)

/-- `annotations`: other values than strings are left out, and refused under the keys that are read. -/
def annotations (metadata : Value) : Except (List Message) Annotations :=
  match metadata.get "annotations" with
  | none | some .null => .ok []
  | some (.map members) =>
    let errs := (Text.sortStrings (members.map Prod.fst)).flatMap fun k =>
      match (Value.map members).get k with
      | some (.str _) => []
      | _ => refuse (Text.hasPrefix k annPrefix || k = keyScoreKind)
          "annotation %s: the value must be a string (quote it)" [.str k]
    if errs = [] then .ok (members.filterMap fun m =>
      match m.2 with
      | .str s => some (m.1, s)
      | _ => none)
    else .error errs
  | some _ => .error [.mk "metadata.annotations is not a map" [] []]

def bad (key format : String) (args : List Value) : List Message :=
  [.mk ("annotation %s: " ++ format) (.str key :: args) []]

/-- `strings.Cut`. -/
def cut (s : String) (sep : Char) : Option (String × String) :=
  let before := s.toList.takeWhile (· ≠ sep)
  if before.length < s.toList.length then
    some (String.ofList before, String.ofList (s.toList.drop (before.length + 1)))
  else none

/-- `strconv.ParseBool`. -/
def parseBool (s : String) : Option Bool :=
  if s ∈ ["1", "t", "T", "TRUE", "true", "True"] then some true
  else if s ∈ ["0", "f", "F", "FALSE", "false", "False"] then some false
  else none

/-- `ruleName`. -/
def ruleName (s : String) : Bool := dnsLabelChars s.toList

/-- What an annotation says, or the default and what is wrong with it. -/
structure Read (α : Type) where
  value : α
  errs : List Message

/-- An annotation that is read where it is there. -/
def readKey {α : Type} (ann : Annotations) (key : String) (default : α)
    (parse : String → Except (List Message) α) : Read α :=
  match ann.lookup key with
  | none => ⟨default, []⟩
  | some v =>
    match parse v with
    | .ok a => ⟨a, []⟩
    | .error errs => ⟨default, errs⟩

def quoted (key format : String) (v : String) {α : Type} : Except (List Message) α :=
  .error (bad key format [.str v])

/-- Parts of a list, each once. -/
def distinct (l : List String) : List String :=
  l.foldl (fun seen s => if s ∈ seen then seen else seen ++ [s]) []

end Reading

section Annotations
variable (ann : Annotations)

def unknownKeys : List Message :=
  (Text.sortStrings (ann.map Prod.fst)).flatMap fun k =>
    if Text.hasPrefix k annPrefix ∧ k ∉ annKeys then
      bad k "unknown key (known: %s)" [.str (", ".intercalate annKeys)]
    else []

def scoreKind : Read Unit :=
  readKey ann keyScoreKind () fun v =>
    if v = "Deployment" then .ok ()
    else if v = "StatefulSet" then .error (bad keyScoreKind "StatefulSet is not supported in this version" [])
    else quoted keyScoreKind "%q is not a workload kind (Deployment)" v

def replicasAnn : Read (Option ℤ) :=
  readKey ann keyReplicas none fun v =>
    match Text.atoi v with
    | some n => if n < 0 then quoted keyReplicas "%q is not a whole number of 0 or more" v else .ok (some n)
    | none => quoted keyReplicas "%q is not a whole number of 0 or more" v

/-- `strconv.Atoi` of digits, its error left aside: the largest number where they are of a larger one. -/
def atoiDigits (s : String) : ℤ := (Text.atoi s).getD (2 ^ 63 - 1)

/-- `rangeExpr`. -/
def rangeExpr (v : String) : Option (ℤ × ℤ) := do
  let (lo, hi) ← cut v '-'
  if lo ≠ "" ∧ lo.toList.all Char.isDigit ∧ hi ≠ "" ∧ hi.toList.all Char.isDigit then
    some (atoiDigits lo, atoiDigits hi)
  else none

def autoscaleAnn : Read (Option Autoscale) :=
  readKey ann keyAutoscale none fun v =>
    match rangeExpr v with
    | none => quoted keyAutoscale "%q is not <min>-<max>, as \"2-10\"" v
    | some (lo, hi) =>
      if lo < 1 ∨ hi < lo then quoted keyAutoscale "%q needs 1 <= min <= max" v
      else .ok (some ⟨lo, hi, "cpu", 70⟩)

def autoscaleTarget (autoscale : Option Autoscale) : Read (Option Autoscale) :=
  readKey ann keyAutoscaleTarget autoscale fun v =>
    match (cut v '=').bind fun (res, pct) => (Text.atoi pct).map fun n => (res, n) with
    | some (res, n) =>
      if (res ≠ "cpu" ∧ res ≠ "memory") ∨ n < 1 ∨ n > 100 then
        quoted keyAutoscaleTarget "%q is not cpu=<1-100> or memory=<1-100>" v
      else if autoscale.isNone ∧ (ann.lookup keyAutoscale).getD "" = "" then
        .error (bad keyAutoscaleTarget "set only together with %s" [.str keyAutoscale])
      else .ok (autoscale.map fun a => { a with resource := res, target := n })
    | none => quoted keyAutoscaleTarget "%q is not cpu=<1-100> or memory=<1-100>" v

/-- `parsePDB`. -/
def parsePDB (v : String) : Except (List Message) PDB :=
  if v = "off" then .ok .off
  else match (cut v '=').bind fun (key, val) => (Text.atoi val).map fun n => (key, n) with
    | some ("max-unavailable", n) =>
      if n < 0 then quoted keyPDB "%q is not off, max-unavailable=<n> or min-available=<n>" v
      else if n < 1 then quoted keyPDB "%q: max-unavailable=0 would block every drain" v
      else .ok (.maxUnavailable n)
    | some ("min-available", n) =>
      if n < 0 then quoted keyPDB "%q is not off, max-unavailable=<n> or min-available=<n>" v
      else .ok (.minAvailable n)
    | _ => quoted keyPDB "%q is not off, max-unavailable=<n> or min-available=<n>" v

def strategyAnn : Read Unit :=
  readKey ann keyStrategy () fun v =>
    if v = "rolling" then .ok ()
    else if v = "blue-green" ∨ v = "canary" then
      quoted keyStrategy "%q is not supported in this version (rolling)" v
    else quoted keyStrategy "%q is not a strategy (rolling, blue-green, canary)" v

def boolAnn {α : Type} (key : String) (default : α) (f : Bool → α) : Read α :=
  readKey ann key default fun v =>
    match parseBool v with
    | some b => .ok (f b)
    | none => quoted key "%q is not true or false" v

def readOnlyRootAnn : Read Bool := boolAnn ann keyReadOnlyRoot true id

def readOnlyRootReason : String := Text.trimSpace ((ann.lookup keyReadOnlyRootReason).getD "")

/-- A root that is written to needs a reason, and only such a one has a reason. -/
def reasonErrs (readOnlyRoot : Bool) (reason : String) : List Message :=
  (if readOnlyRoot = false ∧ reason = "" then
    bad keyReadOnlyRoot "\"false\" needs %s, one line on why the container writes to its root"
      [.str keyReadOnlyRootReason] else []) ++
  if readOnlyRoot = true ∧ reason ≠ "" then
    bad keyReadOnlyRootReason "only together with %s: \"false\"" [.str keyReadOnlyRoot] else []

def runAsUserAnn : Read (Option ℤ) :=
  readKey ann keyRunAsUser none fun v =>
    match Text.atoi v with
    | some n => if n < 1 then quoted keyRunAsUser "%q is not a user ID above 0" v else .ok (some n)
    | none => quoted keyRunAsUser "%q is not a user ID above 0" v

def hostUsersAnn : Read (Option Bool) := boolAnn ann keyHostUsers none some

def splitComma (v : String) : List String :=
  (v.toList.splitOn ',').map fun s => Text.trimSpace (String.ofList s)

/-- `ParseSpread`. -/
def parseSpread (v : String) : Except (List Message) (List String) :=
  if Text.trimSpace v = "off" then .ok []
  else if (splitComma v).all fun s => s = "zone" ∨ s = "hostname" then .ok (distinct (splitComma v))
  else quoted keySpread "%q is not off or a list of zone, hostname" v

def spreadAnn : Read (Option (List String)) :=
  readKey ann keySpread none fun v => (parseSpread v).map some

def scrapeAnn : Read (Option Scrape) :=
  readKey ann keyScrape none fun v =>
    match cut v ':' with
    | some (port, path) =>
      if port = "" ∨ Text.hasPrefix path "/" = false then
        quoted keyScrape "%q is not <service port name>:<path>, as \"http:/metrics\"" v
      else .ok (some ⟨port, path⟩)
    | none => quoted keyScrape "%q is not <service port name>:<path>, as \"http:/metrics\"" v

def profileAnn : Read String :=
  readKey ann keyProfile "" fun v =>
    if ruleName v then .ok v else quoted keyProfile "%q is not a profile name" v

/-- The rules a workload is let off; a name that is none is refused and left out. -/
def policyExceptionAnn : Read (List String) :=
  match ann.lookup keyPolicyException with
  | none => ⟨[], []⟩
  | some v =>
    { value := Text.sortStrings (distinct ((splitComma v).filter ruleName))
      errs := ((splitComma v).filter fun s => !ruleName s).flatMap fun s =>
        bad keyPolicyException "%q is not a rule name" [.str s] }

def policyExceptionReason : String := Text.trimSpace ((ann.lookup keyPolicyExceptionReason).getD "")

def exceptionErrs (exceptions : List String) (reason : String) : List Message :=
  (if exceptions ≠ [] ∧ reason = "" then
    bad keyPolicyException "needs %s, one line on why" [.str keyPolicyExceptionReason] else []) ++
  if ann.lookup keyPolicyException = none ∧ reason ≠ "" then
    bad keyPolicyExceptionReason "only together with %s" [.str keyPolicyException] else []

/-- What the annotations ask for, and what is wrong with them. -/
def readExt : Read Ext :=
  let replicas := replicasAnn ann
  let autoscale := autoscaleAnn ann
  let target := autoscaleTarget ann autoscale.value
  let pdb := readKey ann keyPDB .auto parsePDB
  let readOnlyRoot := readOnlyRootAnn ann
  let runAsUser := runAsUserAnn ann
  let hostUsers := hostUsersAnn ann
  let spread := spreadAnn ann
  let scrape := scrapeAnn ann
  let profile := profileAnn ann
  let exceptions := policyExceptionAnn ann
  { value := {
      replicas := replicas.value
      autoscale := target.value
      pdb := pdb.value
      readOnlyRoot := readOnlyRoot.value
      readOnlyRootReason := readOnlyRootReason ann
      runAsUser := runAsUser.value
      hostUsers := hostUsers.value
      spread := spread.value
      scrape := scrape.value
      profile := profile.value
      policyExceptions := exceptions.value
      policyExceptionReason := policyExceptionReason ann }
    errs := unknownKeys ann ++ (scoreKind ann).errs ++ replicas.errs ++ autoscale.errs ++ target.errs ++
      (if replicas.value.isSome ∧ target.value.isSome then
        bad keyReplicas "set %s or %s, not both" [.str keyReplicas, .str keyAutoscale] else []) ++
      pdb.errs ++ (strategyAnn ann).errs ++ readOnlyRoot.errs ++
      reasonErrs readOnlyRoot.value (readOnlyRootReason ann) ++ runAsUser.errs ++ hostUsers.errs ++
      spread.errs ++ scrape.errs ++ profile.errs ++ exceptions.errs ++
      exceptionErrs ann exceptions.value (policyExceptionReason ann) }

/-- `ParseExt`. -/
def parseExt (metadata : Value) : Except (List Message) Ext := do
  let ann ← annotations metadata
  if (readExt ann).errs = [] then .ok (readExt ann).value else .error (readExt ann).errs

end Annotations

section Spec
variable {α : Type} {ann : Annotations} {key : String} {default : α}
  {parse : String → Except (List Message) α} {metadata : Value} {ext : Ext}

/-- What is read is the default or was parsed. -/
theorem readKey_value (P : α → Prop) (hdefault : P default)
    (hparse : ∀ v a, parse v = .ok a → P a) : P (readKey ann key default parse).value := by
  unfold readKey
  split
  · exact hdefault
  · next v _ =>
    split
    · next a ha => exact hparse v a ha
    · exact hdefault

/-- A user that is asked for is not the root user. -/
theorem runAsUserAnn_pos : ∀ n, (runAsUserAnn ann).value = some n → 1 ≤ n := by
  apply readKey_value fun user => ∀ n, user = some n → 1 ≤ n
  · rintro n ⟨⟩
  · intro v user huser n hn
    split at huser
    · split at huser
      · cases huser
      · next hpos =>
        subst hn
        obtain rfl := Option.some.inj (Except.ok.inj huser)
        omega
    · cases huser

/-- What an accepted workload has settled. -/
theorem parseExt_spec (h : parseExt metadata = .ok ext) :
    (∀ n, ext.runAsUser = some n → 1 ≤ n) ∧ (ext.readOnlyRoot = false → ext.readOnlyRootReason ≠ "") := by
  obtain ⟨ann, -, h⟩ := Transition.bind_eq_ok.mp h
  split at h
  · next hnone =>
    obtain rfl := Except.ok.inj h
    refine ⟨runAsUserAnn_pos, fun hroot hreason => ?_⟩
    have hroot : (readOnlyRootAnn ann).value = false := hroot
    have hreason : readOnlyRootReason ann = "" := hreason
    have herrs : reasonErrs (readOnlyRootAnn ann).value (readOnlyRootReason ann) = [] := by
      simp only [readExt, List.append_eq_nil_iff] at hnone
      tauto
    rw [hroot, hreason] at herrs
    cases herrs
  · cases h

end Spec
end Kubeast.Render
