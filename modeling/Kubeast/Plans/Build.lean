import Kubeast.Foundation.Keyed
import Kubeast.Foundation.Transition
import Kubeast.Foundation.Utf8
import Kubeast.Render.Kept

/-! Plans: a workload in an environment, read, rendered and checked (`internal/plan/plan.go`,
`internal/gate/gate.go`). The planner keeps a gate for each environment, which has a directory of
schemas, and sets it up again when the environment's defaults or the policies are others. -/
namespace Kubeast.Plans
open Render Transition
open Text (CharTables)

section Gate

inductive Mode
  | enforce
  | warn
  | off
deriving DecidableEq, Inhabited

def Mode.parse (s : String) : Option Mode :=
  if s = "enforce" then some .enforce
  else if s = "warn" then some .warn
  else if s = "off" then some .off
  else none

structure Config where
  kubernetesVersion : String
  schemaLocations : List String
  policies : List File
  allowedRegistries : List String
  modes : Dict String String

/-- What the validator says of an object. -/
inductive Schema
  | valid
  | invalid (errors : List (String × String))
  | skipped
  | error (msg : Option String)

/-- What the policy finds in the objects, with the registries that are allowed. -/
abbrev Query := List Value → List String → Except Message (List Value)

/-- What unpacking, kubeconform and OPA do when a gate is set up. -/
structure Machine where
  unpackSchemas : Except Message Unit
  /-- From the directory of the schemas, the other locations, and the version of Kubernetes. -/
  validator : ℕ → List String → String → Except Message (Value → Schema)
  prepare : List File → Except Message Query

structure Gate where
  cfg : Config
  modes : Dict String Mode
  validate : Value → Schema
  query : Query
  dir : ℕ

structure Finding where
  rule : String
  kind : String
  name : String
  message : String
  mode : Mode
  excepted : Bool
  waiting : Bool
deriving DecidableEq

def Finding.blocks (f : Finding) : Bool := f.mode = .enforce && !f.excepted

structure Report where
  findings : List Finding
  notes : List String
deriving DecidableEq

def Report.blocked (r : Report) : Bool := r.findings.any Finding.blocks

/-- A finding before its mode and the exceptions are looked up. -/
structure Raw where
  rule : String
  kind : String
  name : String
  message : String
deriving DecidableEq

def Gate.mode (g : Gate) (rule : String) : Mode := (lookup g.modes rule).getD .enforce

def Gate.schemaFindings (g : Gate) (o : Value) : List Raw :=
  match g.validate o with
  | .valid => []
  | .invalid errors => errors.map fun e => ⟨"schema", kindOf o, objName o, e.1 ++ ": " ++ e.2⟩
  | .skipped => [⟨"schema-missing", kindOf o, objName o,
      "no schema for " ++ kindOf o ++ " in any schema location"⟩]
  | .error msg => [⟨"schema", kindOf o, objName o, msg.getD "schema check failed"⟩]

/-- A finding of the policy names its rule. -/
def policyFinding (item : Value) : Except Message Raw :=
  if Value.text (item.get "rule") = "" then
    .error (.mk "policy: a finding without a rule: %v" [item] [])
  else .ok ⟨Value.text (item.get "rule"), Value.text (item.get "kind"), Value.text (item.get "name"),
    Value.text (item.get "msg")⟩

def Gate.rawFindings (g : Gate) (objects : List Value) : Except Message (List Raw) := do
  let items ← (g.query objects g.cfg.allowedRegistries).mapError fun e => .mk "policy: %w" [] [e]
  let found ← items.mapM policyFinding
  pure (objects.flatMap g.schemaFindings ++ found)

/-- A finding under its rule's mode, none where that is off, and with the workload's exceptions. -/
def Gate.judge (g : Gate) (exceptions : List String) (approved : String → Bool) (f : Raw) : Option Finding :=
  if g.mode f.rule = .off then none
  else if f.rule ∉ exceptions then
    some ⟨f.rule, f.kind, f.name, f.message, g.mode f.rule, false, false⟩
  else if g.mode f.rule = .warn || approved f.rule then
    some ⟨f.rule, f.kind, f.name, f.message, g.mode f.rule, true, false⟩
  else some ⟨f.rule, f.kind, f.name,
    f.message ++ " (an exception is asked for and waits for a platform admin's approval)",
    g.mode f.rule, false, true⟩

/-- The order of the findings in a report. -/
def Finding.less (a b : Finding) : Bool :=
  if a.kind ≠ b.kind then a.kind < b.kind
  else if a.name ≠ b.name then a.name < b.name
  else if a.rule ≠ b.rule then a.rule < b.rule
  else a.message < b.message

/-- The exceptions that no finding used. -/
def Gate.unused (g : Gate) (exceptions : List String) (raw : List Raw) : List String :=
  exceptions.filter fun e => !raw.any fun f => f.rule = e && decide (g.mode f.rule ≠ .off)

def Gate.report (g : Gate) (tables : CharTables) (exceptions : List String) (approved : String → Bool)
    (raw : List Raw) : Report where
  findings := (raw.filterMap (g.judge exceptions approved)).insertionSort fun a b => !b.less a
  notes := Text.sortStrings ((g.unused exceptions raw).map fun e =>
    "exception " ++ Text.quote tables e ++ " matched no finding")

/-- `Check`. -/
def Gate.check (g : Gate) (tables : CharTables) (objects : List Value) (exceptions : List String)
    (approved : String → Bool) : Except Message Report :=
  (g.rawFindings objects).map (g.report tables exceptions approved)

end Gate

section Setup

/-- The directories of unpacked schemas, and the next name that `MkdirTemp` gives. -/
structure Disk where
  dirs : List ℕ
  next : ℕ
deriving DecidableEq

def Disk.mkdirTemp (d : Disk) : ℕ × Disk := (d.next, ⟨d.next :: d.dirs, d.next + 1⟩)

/-- `os.RemoveAll`, where it does not fail. -/
def Disk.removeAll (d : Disk) (dir : ℕ) : Disk := { d with dirs := d.dirs.filter fun x => x ≠ dir }

def defaultModes : Dict String Mode := ⟨[("host-users", .warn), ("schema-missing", .warn)], by decide⟩

/-- The modes of a configuration over those before. -/
def setModes (modes : Dict String Mode) : List (String × String) → Except Message (Dict String Mode)
  | [] => .ok modes
  | (rule, m) :: rest =>
    match Mode.parse m with
    | some mode => setModes (modes.set rule mode) rest
    | none => .error (.mk "rule %s: mode %q is not enforce, warn or off" [.str rule, .str m] [])

def Config.version (cfg : Config) : String :=
  if cfg.kubernetesVersion = "" then "1.37.2" else cfg.kubernetesVersion

/-- The kinds of the embedded schemas. -/
def embeddedKinds : List (String × String) := [
  ("apps/v1", "Deployment"), ("v1", "Service"), ("v1", "ServiceAccount"), ("v1", "ConfigMap"),
  ("autoscaling/v2", "HorizontalPodAutoscaler"), ("policy/v1", "PodDisruptionBudget"),
  ("batch/v1", "CronJob"), ("gateway.networking.k8s.io/v1", "HTTPRoute"),
  ("external-secrets.io/v1", "ExternalSecret"), ("monitoring.coreos.com/v1", "ServiceMonitor")]

def Gate.warm (g : Gate) (tables : CharTables) : Except Message Report :=
  g.check tables (embeddedKinds.map fun k => .map [("apiVersion", .str k.1), ("kind", .str k.2),
    ("metadata", .map [("name", .str "warm")])]) [] fun _ => false

/-- The gate that a machine sets up from a configuration, with the schemas in a directory. -/
def Machine.setUp (m : Machine) (tables : CharTables) (cfg : Config) (modes : Dict String Mode) (dir : ℕ) :
    Except Message Gate := do
  let validate ← (m.validator dir cfg.schemaLocations cfg.version).mapError fun e =>
    .mk "schema validator: %w" [] [e]
  let query ← (m.prepare cfg.policies).mapError fun e => .mk "policy: %w" [] [e]
  let g : Gate := ⟨{ cfg with kubernetesVersion := cfg.version }, modes, validate, query, dir⟩
  let _ ← g.warm tables
  pure g

/-- `New`: a gate that is not set up leaves no directory. -/
def Machine.newGate (m : Machine) (tables : CharTables) (cfg : Config) (disk : Disk) : Except Message Gate × Disk :=
  match setModes defaultModes cfg.modes.rows, m.unpackSchemas with
  | .error e, _ => (.error e, disk)
  | .ok _, .error e => (.error e, disk)
  | .ok modes, .ok () =>
    match m.setUp tables cfg modes disk.mkdirTemp.1 with
    | .error e => (.error e, disk.mkdirTemp.2.removeAll disk.mkdirTemp.1)
    | .ok g => (.ok g, disk.mkdirTemp.2)

def Gate.close (g : Gate) (disk : Disk) : Disk := disk.removeAll g.dir

end Setup

section Planner

/-- What an environment's file says of its gate. -/
structure Policy where
  modes : Dict String String
  allowedRegistries : List String
  schemaLocations : List String
  kubernetesVersion : String

/-- An environment, with its policy. -/
structure Target where
  env : Env
  policy : Policy

def configFor (t : Target) (policies : List File) : Config :=
  ⟨t.policy.kubernetesVersion, t.policy.schemaLocations, policies, t.policy.allowedRegistries, t.policy.modes⟩

structure Bundle where
  revision : String
  score : Bytes
  overrides : Option Bytes
  defaults : Bytes
  patches : List File
  raw : List File
  policies : List File
  files : String → Option Bytes

structure Spec where
  workload : Workload
  ext : Ext
  notes : List Message

/-- What reads the files: the environment's defaults, the workload with its overrides, and what the renderer
has from its libraries. -/
structure Readers where
  parse : Bytes → Except Message Target
  spec : Bytes → List Bytes → (String → Option Bytes) → Except Message Spec
  lib : ScoreGo
  yaml : Yaml
  tables : CharTables

inductive LoadError
  | notFound (e : Message)
  | other (e : Message)

def LoadError.message : LoadError → Message
  | notFound e | other e => e

/-- `Source.Load`, as the source stands: of a service in an environment. -/
abbrev Source := String → String → Except LoadError Bundle

/-- `"\x00%s\x00%d\x00"` and the data. -/
def fileText (f : File) : Bytes :=
  0 :: (Utf8.bytes f.name ++ 0 :: (Utf8.bytes (toString f.data.length) ++ 0 :: f.data))

/-- What the key of a gate is the hash of. -/
def Bundle.keyText (b : Bundle) : Bytes := b.defaults ++ b.policies.flatMap fileText

def Bundle.key (b : Bundle) : String := Hex.encode (Sha256.sha256 b.keyText)

structure GateEntry where
  key : String
  gate : Gate

structure Planner where
  gates : Dict String GateEntry
  disk : Disk

/-- `New`. -/
def Planner.new : Planner := ⟨Table.empty, ⟨[], 0⟩⟩

def Planner.drop (p : Planner) (name : String) (e : GateEntry) : Planner :=
  ⟨p.gates.delete fun r => r.1 = name, e.gate.close p.disk⟩

def Planner.make (p : Planner) (tables : CharTables) (m : Machine) (t : Target) (b : Bundle) :
    Except Message Gate × Planner :=
  match m.newGate tables (configFor t b.policies) p.disk with
  | (.error e, disk) => (.error (.mk "gate for %s: %w" [.str t.env.name] [e]), { p with disk := disk })
  | (.ok g, disk) => (.ok g, ⟨p.gates.insertNew (t.env.name, ⟨b.key, g⟩), disk⟩)

def Planner.gate (p : Planner) (tables : CharTables) (m : Machine) (t : Target) (b : Bundle) :
    Except Message Gate × Planner :=
  match lookup p.gates t.env.name with
  | some e => if e.key = b.key then (.ok e.gate, p) else (p.drop t.env.name e).make tables m t b
  | none => p.make tables m t b

/-- `Close`. -/
def Planner.close (p : Planner) : Planner := p.gates.rows.foldl (fun p r => p.drop r.1 r.2) p

end Planner

section Build
variable (r : Readers)

def Readers.load (b : Bundle) : Except Message Spec := r.spec b.score b.overrides.toList b.files

/-- The service ports of a peer, none where there is no such workload. -/
def Readers.peer (src : Source) (env w : String) : Except Message (Option (Dict String ℤ)) :=
  match src w env with
  | .error (.notFound _) => .ok none
  | .error (.other e) => .error (.mk "service-port peer %s: %w" [.str w] [e])
  | .ok b =>
    ((r.load b).mapError fun e => .mk "service-port peer services/%s: %w" [.str w] [e]).map fun s =>
      some (s.workload.ports.rows.foldl (fun ports p => ports.set p.1 p.2.port) Table.empty)

def Readers.peers (src : Source) (name env : String) (out : Dict String (Dict String ℤ)) :
    List (String × Resource) → Except Message (Dict String (Dict String ℤ))
  | [] => .ok out
  | (_, res) :: rest => do
    let w := Value.text (res.params.get "workload")
    if res.type ≠ "service-port" || w = "" || w = name || (lookup out w).isSome then
      Readers.peers src name env out rest
    else
      match ← r.peer src env w with
      | none => Readers.peers src name env out rest
      | some ports => Readers.peers src name env (out.insertNew (w, ports)) rest

/-- What is read and rendered before the gate is asked. -/
structure Prepared where
  bundle : Bundle
  target : Target
  spec : Spec
  result : Result

def Readers.prepare (src : Source) (service envName : String) : Except Message Prepared := do
  let b ← (src service envName).mapError LoadError.message
  let t ← (r.parse b.defaults).mapError fun e => .mk "environments/%s/_defaults.yaml: %w" [.str envName] [e]
  failIf (t.env.name ≠ envName)
    (.mk "environments/%s/_defaults.yaml names environment %q" [.str envName, .str t.env.name] [])
  let s ← (r.load b).mapError fun e => .mk "services/%s: %w" [.str service] [e]
  failIf (s.workload.name ≠ service)
    (.mk "services/%s/score.yaml: metadata.name is %q; it must be the folder's name"
      [.str service, .str s.workload.name] [])
  let peers ← r.peers src s.workload.name t.env.name Table.empty s.workload.resources.rows
  let res ← (render r.lib r.yaml ⟨s.workload, s.ext, s.notes, t.env, peers, b.patches, b.raw⟩).mapError fun errs =>
    .mk "services/%s in %s: %w" [.str service, .str envName] errs
  pure ⟨b, t, s, res⟩

structure Plan where
  service : String
  env : String
  revision : String
  result : Result
  report : Report

def Plan.blocked (p : Plan) : Bool := p.report.blocked

/-- What a build is asked for, and what it meets. -/
structure Request where
  service : String
  envName : String
  approved : String → Bool
  source : Source
  machine : Machine

/-- The plan that a gate leads to. -/
def Prepared.plan (x : Prepared) (tables : CharTables) (q : Request) (g : Gate) : Except Message Plan :=
  (g.check tables (x.result.objects ++ x.result.clusterScoped) x.spec.ext.policyExceptions q.approved).map
    fun rep => ⟨q.service, q.envName, x.bundle.revision, x.result, rep⟩

/-- `Build`. -/
def Planner.build (p : Planner) (q : Request) : Except Message Plan × Planner :=
  match r.prepare q.source q.service q.envName with
  | .error e => (.error e, p)
  | .ok x =>
    match p.gate r.tables q.machine x.target x.bundle with
    | (.error e, p') => (.error e, p')
    | (.ok g, p') => (x.plan r.tables q g, p')

inductive Call
  | build (q : Request)
  | close

def step (p : Planner) : Call → Planner
  | .build q => (p.build r q).2
  | .close => p.close

end Build
section Reports
variable {g : Gate} {exceptions exceptions' : List String} {approved : String → Bool} {raw raw' : List Raw}
  {f f' : Raw} {a b : Finding}

/-- The order of the findings, as one key. -/
def Finding.place (f : Finding) : String ×ₗ String ×ₗ String ×ₗ String :=
  toLex (f.kind, toLex (f.name, toLex (f.rule, f.message)))

theorem Finding.less_iff : a.less b = true ↔ a.place < b.place := by
  simp only [less, place, Prod.Lex.toLex_lt_toLex]
  split_ifs <;> simp_all

/-- Everything but the text of a finding follows from its rule. -/
theorem Gate.judge_eq_some (h : g.judge exceptions approved f = some a) :
    g.mode f.rule ≠ .off ∧ a.rule = f.rule ∧ a.mode = g.mode f.rule ∧
      a.excepted = (decide (f.rule ∈ exceptions) && (g.mode f.rule = .warn || approved f.rule)) ∧
      a.waiting = (decide (f.rule ∈ exceptions) && !(g.mode f.rule = .warn || approved f.rule)) := by
  unfold judge at h
  split_ifs at h with hoff hasked hexcepted
  all_goals
    obtain rfl := Option.some.inj h
    simp_all
  tauto

/-- Findings of one place in the order are the same finding. -/
theorem Gate.judge_inj (h : g.judge exceptions approved f = some a) (h' : g.judge exceptions approved f' = some b)
    (hplace : a.place = b.place) : a = b := by
  obtain ⟨-, hrule, hmode, hexcepted, hwaiting⟩ := judge_eq_some h
  obtain ⟨-, hrule', hmode', hexcepted', hwaiting'⟩ := judge_eq_some h'
  simp only [Finding.place, toLex_inj, Prod.mk.injEq] at hplace
  obtain ⟨hkind, hname, hsame, hmessage⟩ := hplace
  have hf : f.rule = f'.rule := by rw [← hrule, hsame, hrule']
  cases a
  cases b
  simp_all

theorem Gate.judge_congr (h : exceptions.Perm exceptions') :
    g.judge exceptions approved = g.judge exceptions' approved := by
  funext f
  simp only [judge, h.mem_iff]

theorem pairwise_less (l : List Finding) :
    (l.insertionSort fun a b => !b.less a).Pairwise fun a b => b.less a = false := by
  have hle (a b : Finding) : (!b.less a) = true ↔ a.place ≤ b.place := by
    rw [Bool.not_eq_true', ← Bool.not_eq_true, Finding.less_iff, not_lt]
  have : Std.Total fun a b : Finding => (!b.less a) = true := ⟨fun a b => by simp only [hle, le_total]⟩
  have : IsTrans Finding fun a b => (!b.less a) = true := ⟨fun a b c => by simpa only [hle] using le_trans⟩
  exact (List.pairwise_insertionSort (fun a b : Finding => (!b.less a) = true) l).imp (by simp)

theorem Gate.unused_perm (g : Gate) (hraw : raw.Perm raw') (hexceptions : exceptions.Perm exceptions') :
    (g.unused exceptions raw).Perm (g.unused exceptions' raw') := by
  have hany (p : Raw → Bool) : raw.any p = raw'.any p := hraw.any_eq
  simp only [unused, hany]
  exact hexceptions.filter _

/-- However the findings were found and the exceptions listed, and however the sort places equal findings, the
report is the same one; and it blocks exactly where a rule that enforces is broken and not excepted. -/
theorem report_settled (g : Gate) (tables : CharTables) (approved : String → Bool) (hraw : raw.Perm raw')
    (hexceptions : exceptions.Perm exceptions') :
    (∀ sorted : List Finding, sorted.Perm (raw'.filterMap (g.judge exceptions' approved)) →
      sorted.Pairwise (fun a b => b.less a = false) →
      (⟨sorted, (g.report tables exceptions' approved raw').notes⟩ : Report) =
        g.report tables exceptions approved raw) ∧
      ((g.report tables exceptions approved raw).blocked = true ↔
        ∃ f ∈ raw, g.mode f.rule = .enforce ∧ ¬(f.rule ∈ exceptions ∧ approved f.rule = true)) := by
  constructor
  · intro sorted hperm hsorted
    have hjudged : (raw.filterMap (g.judge exceptions approved)).Perm sorted := by
      rw [Gate.judge_congr hexceptions]
      exact (hraw.filterMap _).trans hperm.symm
    have hsame (a b : Finding) (ha : a ∈ sorted) (hb : b ∈ (g.report tables exceptions approved raw).findings)
        (hab : b.less a = false) (hba : a.less b = false) : a = b := by
      obtain ⟨f, -, hf⟩ := List.mem_filterMap.mp (hjudged.mem_iff.mpr ha)
      obtain ⟨f', -, hf'⟩ := List.mem_filterMap.mp ((List.mem_insertionSort _).mp hb)
      rw [← Bool.not_eq_true, Finding.less_iff, not_lt] at hab hba
      exact Gate.judge_inj hf hf' (le_antisymm hab hba)
    have hfindings : sorted = (g.report tables exceptions approved raw).findings :=
      List.Perm.eq_of_pairwise hsame hsorted (pairwise_less _)
        (hjudged.symm.trans (List.perm_insertionSort _ _).symm)
    have hnotes : (g.report tables exceptions' approved raw').notes =
        (g.report tables exceptions approved raw).notes :=
      Text.sortStrings_congr ((g.unused_perm hraw hexceptions).symm.map _)
    rw [hfindings, hnotes]
  · simp only [Report.blocked, Gate.report, List.any_eq_true, List.mem_insertionSort, List.mem_filterMap]
    constructor
    · rintro ⟨a, ⟨f, hf, ha⟩, hblocks⟩
      obtain ⟨-, -, hmode, hexcepted, -⟩ := Gate.judge_eq_some ha
      refine ⟨f, hf, ?_⟩
      simp_all [Finding.blocks]
      tauto
    · rintro ⟨f, hf, hmode, hnot⟩
      cases ha : g.judge exceptions approved f with
      | none => simp [Gate.judge, hmode] at ha; split_ifs at ha
      | some a =>
        obtain ⟨-, -, hmode', hexcepted, -⟩ := Gate.judge_eq_some ha
        refine ⟨a, ⟨f, hf, ha⟩, ?_⟩
        simp_all [Finding.blocks]
        tauto

def rootGate : Gate := ⟨⟨"", [], [], [], Table.empty⟩, defaultModes, fun _ => .valid, fun _ _ => .ok [], 0⟩

def rootFinding : Raw := ⟨"root", "Deployment", "web", "runs as root"⟩

def tagFinding : Raw := ⟨"tag", "Deployment", "web", "has no tag"⟩

/-- Of two exceptions one is approved. -/
theorem report_settled_excepted :
    rootGate.report .ascii ["tag", "root"] (· = "root") [tagFinding, rootFinding] =
        rootGate.report .ascii ["root", "tag"] (· = "root") [rootFinding, tagFinding] ∧
      (rootGate.report .ascii ["root", "tag"] (· = "root") [rootFinding, tagFinding]).blocked = true := by
  have hraw : [rootFinding, tagFinding].Perm [tagFinding, rootFinding] := .swap _ _ _
  have hexceptions : ["root", "tag"].Perm ["tag", "root"] := .swap _ _ _
  obtain ⟨hsame, hblocked⟩ := report_settled rootGate .ascii (· = "root") hraw hexceptions
  exact ⟨hsame _ (List.perm_insertionSort _ _) (pairwise_less _),
    hblocked.mpr ⟨tagFinding, by decide, by decide, by decide⟩⟩

end Reports

section Keys
open Utf8 Sha256
variable {b b' : Bundle}

/-- Files of text, under names without NUL. -/
structure Bundle.Plain (b : Bundle) : Prop where
  defaults : 0 ∉ b.defaults
  names : ∀ f ∈ b.policies, 0 ∉ bytes f.name

theorem fileTexts_inj {fs fs' : List File} (hfs : ∀ f ∈ fs, 0 ∉ bytes f.name) (hfs' : ∀ f ∈ fs', 0 ∉ bytes f.name)
    (h : fs.flatMap fileText = fs'.flatMap fileText) : fs = fs' := by
  induction fs generalizing fs' with
  | nil =>
    cases fs' with
    | nil => rfl
    | cons f' fs' => simp [fileText] at h
  | cons f fs ih =>
    cases fs' with
    | nil => simp [fileText] at h
    | cons f' fs' =>
      have hdigits (n : ℕ) : (0 : UInt8) ∉ bytes (toString n) :=
        notMem_bytes (c := '\x00') (by decide) (Text.notMem_toString rfl n)
      simp only [List.flatMap_cons, fileText, List.cons_append, List.append_assoc, List.cons.injEq, true_and] at h
      obtain ⟨hname, hrest⟩ := Text.append_cons_inj (hfs f (by simp)) (hfs' f' (by simp)) h
      obtain ⟨hlen, hdata⟩ := Text.append_cons_inj (hdigits _) (hdigits _) hrest
      have hlength : f.data.length = f'.data.length :=
        Text.toString_inj (congrArg String.toList (bytes_injective hlen))
      obtain ⟨hdata, hmore⟩ := List.append_inj hdata hlength
      have hf : f = f' := by
        cases f
        cases f'
        simp_all [bytes_injective.eq_iff]
      rw [hf, ih (fun x hx => hfs x (by simp [hx])) (fun x hx => hfs' x (by simp [hx])) hmore]

/-- What is hashed tells the defaults and the policies. -/
theorem Bundle.keyText_inj (hb : b.Plain) (hb' : b'.Plain) (h : b.keyText = b'.keyText) :
    b.defaults = b'.defaults ∧ b.policies = b'.policies := by
  have hcut (fs : List File) : ∃ u, fs.flatMap fileText ++ [0] = 0 :: u := by
    cases fs <;> simp [fileText]
  obtain ⟨u, hu⟩ := hcut b.policies
  obtain ⟨u', hu'⟩ := hcut b'.policies
  have hended : b.defaults ++ 0 :: u = b'.defaults ++ 0 :: u' := by
    rw [← hu, ← hu', ← List.append_assoc, ← List.append_assoc]
    exact congrArg (· ++ [0]) h
  obtain ⟨hdefaults, rfl⟩ := Text.append_cons_inj hb.defaults hb'.defaults hended
  have htexts := List.append_cancel_right (hu.trans hu'.symm)
  exact ⟨hdefaults, fileTexts_inj hb.names hb'.names htexts⟩

/-- Where the hash does not collide, bundles of one key have the same defaults and the same policies. -/
theorem Bundle.key_inj (hb : b.Plain) (hb' : b'.Plain)
    (hfree : sha256 b.keyText = sha256 b'.keyText → b.keyText = b'.keyText) (h : b.key = b'.key) :
    b.defaults = b'.defaults ∧ b.policies = b'.policies := by
  have hdecode := congrArg Hex.decode h
  simp only [Bundle.key, Hex.decode_encode] at hdecode
  exact keyText_inj hb hb' (hfree hdecode)

end Keys

section Held
variable {tables : CharTables} {p : Planner} {m : Machine} {cfg : Config} {t : Target} {b : Bundle} {g : Gate}
  {modes : Dict String Mode} {dir : ℕ} {name : String} {e : GateEntry}

/-- The gate is what a machine sets up from a configuration. -/
structure Gate.SetUpBy (g : Gate) (tables : CharTables) (m : Machine) (cfg : Config) : Prop where
  modes : setModes defaultModes cfg.modes.rows = .ok g.modes
  made : m.setUp tables cfg g.modes g.dir = .ok g

theorem lookup_eq_some : lookup p.gates name = some e ↔ (name, e) ∈ p.gates.rows :=
  (Dict.mem_rows (x := (name, e))).symm

theorem setUp_eq_ok (h : m.setUp tables cfg modes dir = .ok g) : g.dir = dir ∧ g.modes = modes := by
  simp only [Machine.setUp, bind_eq_ok] at h
  obtain ⟨validate, -, query, -, rep, -, hg⟩ := h
  obtain rfl := Except.ok.inj hg
  exact ⟨rfl, rfl⟩

theorem newGate_cases (tables : CharTables) (m : Machine) (cfg : Config) {disk : Disk}
    (hbelow : ∀ d ∈ disk.dirs, d < disk.next) :
    (∃ g : Gate, m.newGate tables cfg disk = (.ok g, disk.mkdirTemp.2) ∧ g.dir = disk.next ∧ g.SetUpBy tables m cfg) ∨
      ∃ err next, disk.next ≤ next ∧ m.newGate tables cfg disk = (.error err, ⟨disk.dirs, next⟩) := by
  have hremoved : disk.mkdirTemp.2.removeAll disk.mkdirTemp.1 = ⟨disk.dirs, disk.next + 1⟩ := by
    simp only [Disk.mkdirTemp, Disk.removeAll, Disk.mk.injEq, and_true]
    rw [List.filter_cons_of_neg (by simp), List.filter_eq_self]
    intro d hd
    exact decide_eq_true (hbelow d hd).ne
  unfold Machine.newGate
  split
  · exact .inr ⟨_, disk.next, le_rfl, rfl⟩
  · exact .inr ⟨_, disk.next, le_rfl, rfl⟩
  · next modes hmodes _ =>
    split
    · next err _ => exact .inr ⟨err, disk.next + 1, by omega, by rw [hremoved]⟩
    · next g hg =>
      obtain ⟨hdir, rfl⟩ := setUp_eq_ok hg
      exact .inl ⟨g, rfl, hdir, hmodes, hdir ▸ hg⟩

/-- The directories are those of the gates that are held, each gate with its own. -/
structure Sound (p : Planner) : Prop where
  held : (p.gates.rows.map fun r => r.2.gate.dir).Perm p.disk.dirs
  nodup : p.disk.dirs.Nodup
  below : ∀ d ∈ p.disk.dirs, d < p.disk.next

theorem sound_new : Sound .new := ⟨.refl _, List.nodup_nil, by simp [Planner.new]⟩

theorem Sound.mem_dirs (h : Sound p) (he : lookup p.gates name = some e) : e.gate.dir ∈ p.disk.dirs :=
  h.held.mem_iff.mp (List.mem_map_of_mem (f := fun r => r.2.gate.dir) (lookup_eq_some.mp he))

theorem Sound.drop (h : Sound p) (he : lookup p.gates name = some e) : Sound (p.drop name e) := by
  have hmem := lookup_eq_some.mp he
  have hdirs : (p.gates.rows.map fun r => r.2.gate.dir).Nodup := h.held.nodup_iff.mpr h.nodup
  have hsame (r : String × GateEntry) (hr : r ∈ p.gates.rows) : r.1 = name ↔ r.2.gate.dir = e.gate.dir := by
    constructor
    · rintro rfl
      rw [Table.eq_of_key_eq hr hmem rfl]
    · intro hdir
      rw [List.inj_on_of_nodup_map hdirs hr hmem hdir]
  refine ⟨?_, h.nodup.filter _, fun d hd => h.below d (List.mem_of_mem_filter hd)⟩
  have hrows : ((p.drop name e).gates.rows.map fun r => r.2.gate.dir) =
      (p.gates.rows.map fun r => r.2.gate.dir).filter fun x => x ≠ e.gate.dir := by
    rw [List.filter_map]
    apply congrArg (List.map _)
    apply List.filter_congr
    intro r hr
    simp [hsame r hr]
  rw [hrows]
  exact h.held.filter _

theorem lookup_drop_self : lookup (p.drop name e).gates name = none := by
  have hnone : (p.drop name e).gates.get name = none := Table.get_eq_none.mpr fun r hr => by
    simpa using (Table.mem_delete.mp hr).2
  rw [lookup, hnone]
  rfl

theorem lookup_drop_ne {other : String} (h : other ≠ name) :
    lookup (p.drop name e).gates other = lookup p.gates other := by
  have hget : (p.drop name e).gates.get other = p.gates.get other := by
    rw [Planner.drop, Table.get_delete]
    cases hr : p.gates.get other with
    | none => rfl
    | some r => simp [Table.key_of_get hr, h]
  rw [lookup, hget, lookup]

/-- What setting up a gate does to a planner that has none for the environment. -/
theorem make_spec (h : Sound p) (hnone : lookup p.gates t.env.name = none) (tables : CharTables) (m : Machine)
    (b : Bundle) :
    Sound (p.make tables m t b).2 ∧
      (∀ name ≠ t.env.name, lookup (p.make tables m t b).2.gates name = lookup p.gates name) ∧
      ((∃ g : Gate, (p.make tables m t b).1 = .ok g ∧ g.SetUpBy tables m (configFor t b.policies) ∧
          lookup (p.make tables m t b).2.gates t.env.name = some ⟨b.key, g⟩) ∨
        ∃ err, (p.make tables m t b).1 = .error err ∧ lookup (p.make tables m t b).2.gates t.env.name = none) := by
  have hget : p.gates.get t.env.name = none := by simpa [lookup] using hnone
  unfold Planner.make
  rcases newGate_cases tables m (configFor t b.policies) h.below with ⟨g, hnew, hdir, hg⟩ | ⟨err, next, hnext, hnew⟩
  · simp only [hnew]
    have hfresh : p.disk.next ∉ p.disk.dirs := fun hmem => lt_irrefl _ (h.below _ hmem)
    have hrows : (p.gates.insertNew (t.env.name, ⟨b.key, g⟩)).rows = (t.env.name, ⟨b.key, g⟩) :: p.gates.rows := by
      simp [Table.insertNew, hget, Table.insert]
    refine ⟨⟨?_, List.nodup_cons.mpr ⟨hfresh, h.nodup⟩, ?_⟩, ?_, .inl ⟨g, rfl, hg, ?_⟩⟩
    · rw [hrows, List.map_cons, hdir]
      exact h.held.cons _
    · simp only [Disk.mkdirTemp, List.forall_mem_cons]
      exact ⟨by omega, fun d hd => (h.below d hd).trans (by omega)⟩
    · intro name hname
      rw [lookup, Table.get_insertNew, if_neg hname.symm, lookup]
    · simp [lookup, Table.get_insertNew, hget]
  · simp only [hnew]
    exact ⟨⟨h.held, h.nodup, fun d hd => (h.below d hd).trans_le hnext⟩, by simp, .inr ⟨_, rfl, hnone⟩⟩

/-- A gate is the one that is held where its key is the bundle's, and is set up from the bundle elsewhere. -/
theorem gate_spec (h : Sound p) (tables : CharTables) (m : Machine) (t : Target) (b : Bundle) :
    Sound (p.gate tables m t b).2 ∧
      (∀ name ≠ t.env.name, lookup (p.gate tables m t b).2.gates name = lookup p.gates name) ∧
      ((∃ e, lookup p.gates t.env.name = some e ∧ e.key = b.key ∧ p.gate tables m t b = (.ok e.gate, p)) ∨
        (∀ e, lookup p.gates t.env.name = some e → e.key ≠ b.key) ∧
          ((∃ g : Gate, (p.gate tables m t b).1 = .ok g ∧ g.SetUpBy tables m (configFor t b.policies) ∧
              lookup (p.gate tables m t b).2.gates t.env.name = some ⟨b.key, g⟩) ∨
            ∃ err, (p.gate tables m t b).1 = .error err ∧
              lookup (p.gate tables m t b).2.gates t.env.name = none)) := by
  cases he : lookup p.gates t.env.name with
  | none =>
    have hgate : p.gate tables m t b = p.make tables m t b := by rw [Planner.gate, he]
    obtain ⟨hsound, hothers, hmade⟩ := make_spec h he tables m b
    rw [hgate]
    exact ⟨hsound, hothers, .inr ⟨by simp, hmade⟩⟩
  | some e =>
    by_cases hkey : e.key = b.key
    · have hgate : p.gate tables m t b = (.ok e.gate, p) := by simp only [Planner.gate, he, if_pos hkey]
      rw [hgate]
      exact ⟨h, fun _ _ => rfl, .inl ⟨e, rfl, hkey, rfl⟩⟩
    · have hgate : p.gate tables m t b = (p.drop t.env.name e).make tables m t b := by
        simp only [Planner.gate, he, if_neg hkey]
      obtain ⟨hsound, hothers, hmade⟩ := make_spec (h.drop he) lookup_drop_self tables m b
      rw [hgate]
      refine ⟨hsound, fun name hname => (hothers name hname).trans (lookup_drop_ne hname), .inr ⟨?_, hmade⟩⟩
      rintro _ ⟨⟩
      exact hkey

/-- Gates are let go of one after the other. -/
theorem Sound.foldl_drop {l : List (String × GateEntry)} (h : Sound p) (hl : (l.map Prod.fst).Nodup)
    (hheld : ∀ r ∈ l, lookup p.gates r.1 = some r.2) :
    Sound (l.foldl (fun p r => p.drop r.1 r.2) p) ∧
      ∀ r ∈ (l.foldl (fun p r => p.drop r.1 r.2) p).gates.rows, r ∈ p.gates.rows ∧ r.1 ∉ l.map Prod.fst := by
  induction l generalizing p with
  | nil => exact ⟨h, fun r hr => ⟨hr, List.not_mem_nil⟩⟩
  | cons x l ih =>
    obtain ⟨hx, hrest⟩ := List.nodup_cons.mp hl
    have hheld' (r : String × GateEntry) (hr : r ∈ l) : lookup (p.drop x.1 x.2).gates r.1 = some r.2 := by
      have hne : r.1 ≠ x.1 := fun heq => hx (heq ▸ List.mem_map_of_mem hr)
      rw [lookup_drop_ne hne, hheld r (by simp [hr])]
    obtain ⟨hsound, hrows⟩ := ih (h.drop (hheld x (by simp))) hrest hheld'
    refine ⟨hsound, fun r hr => ?_⟩
    obtain ⟨hmem, hnot⟩ := hrows r hr
    simp only [Planner.drop, Table.mem_delete, decide_eq_false_iff_not] at hmem
    exact ⟨hmem.1, by simp_all⟩

/-- Closing lets go of all gates. -/
theorem close_spec (h : Sound p) : Sound p.close ∧ p.close.gates.rows = [] := by
  have hheld (r : String × GateEntry) (hr : r ∈ p.gates.rows) : lookup p.gates r.1 = some r.2 :=
    lookup_eq_some.mpr hr
  obtain ⟨hsound, hrows⟩ := h.foldl_drop p.gates.nodup hheld
  refine ⟨hsound, List.eq_nil_iff_forall_not_mem.mpr fun r hr => ?_⟩
  obtain ⟨hmem, hnot⟩ := hrows r hr
  exact hnot (List.mem_map_of_mem hmem)

end Held

section Runs
open Sha256
variable {r : Readers} {p : Planner} {calls : List Call} {q : Request} {x : Prepared} {name : String} {e : GateEntry}

def Call.request : Call → Option Request
  | .build q => some q
  | .close => none

def requests (calls : List Call) : List Request := calls.filterMap Call.request

/-- The bundles that are rendered. -/
def asked (r : Readers) (calls : List Call) : List Bundle :=
  (requests calls).filterMap fun q => (r.prepare q.source q.service q.envName).toOption.map Prepared.bundle

/-- Each gate that is held was set up, in a build of its environment, from that build's bundle. -/
def Current (r : Readers) (calls : List Call) (p : Planner) : Prop :=
  ∀ name e, lookup p.gates name = some e → ∃ q ∈ requests calls, ∃ x,
    r.prepare q.source q.service q.envName = .ok x ∧ x.target.env.name = name ∧ e.key = x.bundle.key ∧
      e.gate.SetUpBy r.tables q.machine (configFor x.target x.bundle.policies)

theorem prepare_read (h : r.prepare q.source q.service q.envName = .ok x) :
    q.source q.service q.envName = .ok x.bundle ∧ r.parse x.bundle.defaults = .ok x.target := by
  simp only [Readers.prepare, bind_eq_ok, mapError_eq_ok] at h
  obtain ⟨b, hb, t, ht, -, -, s, -, -, -, peers, -, res, -, hx⟩ := h
  obtain rfl := Except.ok.inj hx
  exact ⟨hb, ht⟩

theorem build_of_error {err : Message} (h : r.prepare q.source q.service q.envName = .error err) :
    p.build r q = (.error err, p) := by rw [Planner.build, h]

theorem mem_asked_iff {b : Bundle} : b ∈ asked r calls ↔
    ∃ q ∈ requests calls, ∃ x, r.prepare q.source q.service q.envName = .ok x ∧ x.bundle = b := by
  have hok (res : Except Message Prepared) (x : Prepared) : res.toOption = some x ↔ res = .ok x := by
    cases res <;> simp [Except.toOption]
  simp only [asked, List.mem_filterMap, Option.map_eq_some_iff, hok]

theorem mem_asked (hq : q ∈ requests calls) (h : r.prepare q.source q.service q.envName = .ok x) :
    x.bundle ∈ asked r calls :=
  mem_asked_iff.mpr ⟨q, hq, x, h, rfl⟩

theorem asked_append (calls more : List Call) : asked r (calls ++ more) = asked r calls ++ asked r more := by
  simp [asked, requests]

theorem build_of_ok (h : r.prepare q.source q.service q.envName = .ok x) :
    (p.build r q).2 = (p.gate r.tables q.machine x.target x.bundle).2 := by
  simp only [Planner.build, h]
  split <;> simp_all

theorem step_sound (h : Sound p) (c : Call) : Sound (step r p c) := by
  cases c with
  | close => exact (close_spec h).1
  | build q =>
    cases hx : r.prepare q.source q.service q.envName with
    | error err => simpa only [step, build_of_error hx] using h
    | ok x => simpa only [step, build_of_ok hx] using (gate_spec h r.tables q.machine x.target x.bundle).1

theorem step_current (h : Current r calls p) (hsound : Sound p) (c : Call) : Current r (calls ++ [c]) (step r p c) := by
  have hmore {q : Request} (hq : q ∈ requests calls) : q ∈ requests (calls ++ [c]) := by
    simp only [requests, List.filterMap_append, List.mem_append]
    exact .inl hq
  have hkept (name : String) (e : GateEntry) (he : lookup p.gates name = some e) :=
    (h name e he).imp fun q hq => And.imp_left hmore hq
  cases c with
  | close =>
    intro name e he
    have hnil : p.close.gates.rows = [] := (close_spec hsound).2
    rw [step, lookup_eq_some, hnil] at he
    cases he
  | build q =>
    cases hx : r.prepare q.source q.service q.envName with
    | error err =>
      rw [step, build_of_error hx]
      exact hkept
    | ok x =>
      simp only [step, build_of_ok hx]
      obtain ⟨-, hothers, hgate⟩ := gate_spec hsound r.tables q.machine x.target x.bundle
      intro name e he
      by_cases hname : name = x.target.env.name
      · subst hname
        rcases hgate with ⟨e', he', hkey, hgate⟩ | ⟨-, ⟨g, -, hg, hheld⟩ | ⟨err, -, hnone⟩⟩
        · rw [hgate] at he
          exact hkept _ e he
        · obtain rfl : e = ⟨x.bundle.key, g⟩ := Option.some.inj (he.symm.trans hheld)
          exact ⟨q, by simp [requests, Call.request], x, hx, rfl, rfl, hg⟩
        · rw [hnone] at he
          cases he
      · rw [hothers name hname] at he
        exact hkept name e he

theorem run_sound (calls : List Call) : Sound (exec (step r) .new calls) :=
  exec_invariant (G := fun _ _ => True) (fun _ c h _ => step_sound h c) sound_new (.of_forall fun _ _ => trivial)

theorem run_current (calls : List Call) : Current r calls (exec (step r) .new calls) := by
  induction calls using List.reverseRecOn with
  | nil => exact fun name e he => by cases he
  | append_singleton calls c ih =>
    rw [exec_append]
    exact step_current ih (run_sound calls) c

/-- Whatever was built before, a plan is checked by a gate that was set up from the environment's defaults and
the policies as they are now. -/
theorem build_current (calls : List Call) (q : Request) {plan : Plan}
    (hplain : ∀ b ∈ asked r (calls ++ [.build q]), b.Plain)
    (hfree : ∀ b ∈ asked r calls, ∀ b' ∈ asked r [.build q],
      sha256 b.keyText = sha256 b'.keyText → b.keyText = b'.keyText)
    (h : ((exec (step r) .new calls).build r q).1 = .ok plan) :
    ∃ x, r.prepare q.source q.service q.envName = .ok x ∧ ∃ q' ∈ requests (calls ++ [.build q]), ∃ g : Gate,
      g.SetUpBy r.tables q'.machine (configFor x.target x.bundle.policies) ∧
        g.dir ∈ (exec (step r) .new (calls ++ [.build q])).disk.dirs ∧ x.plan r.tables q g = .ok plan := by
  have hsound : Sound (exec (step r) .new calls) := run_sound calls
  have hcurrent : Current r calls (exec (step r) .new calls) := run_current calls
  rw [exec_append]
  generalize exec (step r) .new calls = p at *
  cases hx : r.prepare q.source q.service q.envName with
  | error err =>
    rw [build_of_error hx] at h
    cases h
  | ok x =>
    have hq : q ∈ requests (calls ++ [.build q]) := by simp [requests, Call.request]
    have hlater : (exec (step r) p [.build q]).disk = (p.gate r.tables q.machine x.target x.bundle).2.disk := by
      rw [exec_cons, exec_nil, step, build_of_ok hx]
    rw [hlater]
    obtain ⟨hafter, -, hgate⟩ := gate_spec hsound r.tables q.machine x.target x.bundle
    simp only [Planner.build, hx] at h
    rcases hgate with ⟨e, he, hkey, hgate⟩ | ⟨-, ⟨g, hmade, hg, hheld⟩ | ⟨err, hfailed, -⟩⟩
    · rw [hgate] at h ⊢
      obtain ⟨q', hq', x', hx', -, hkey', hsetUp⟩ := hcurrent _ e he
      have hq'' : q' ∈ requests (calls ++ [.build q]) := by
        simp only [requests, List.filterMap_append, List.mem_append]
        exact .inl hq'
      have hnow : x.bundle ∈ asked r [.build q] := mem_asked (by simp [requests, Call.request]) hx
      obtain ⟨hdefaults, hpolicies⟩ := Bundle.key_inj (hplain _ (mem_asked hq'' hx')) (hplain _ (mem_asked hq hx))
        (hfree _ (mem_asked hq' hx') _ hnow) (hkey'.symm.trans hkey)
      have htarget : x'.target = x.target := by
        have hparse := (prepare_read hx').2
        rw [hdefaults, (prepare_read hx).2] at hparse
        exact (Except.ok.inj hparse).symm
      rw [htarget, hpolicies] at hsetUp
      exact ⟨x, rfl, q', hq'', e.gate, hsetUp, hsound.mem_dirs he, h⟩
    · generalize p.gate r.tables q.machine x.target x.bundle = res at *
      obtain ⟨_, p'⟩ := res
      obtain rfl := hmade
      exact ⟨x, rfl, q, hq, g, hg, hafter.mem_dirs hheld, h⟩
    · generalize p.gate r.tables q.machine x.target x.bundle = res at *
      obtain ⟨_, p'⟩ := res
      obtain rfl := hfailed
      cases h

/-- Readers of files that hold one byte, the environment's file saying whether a rule enforces. -/
def smallReaders : Readers where
  parse d := .ok ⟨smallEnv.filled, ⟨⟨[("host-users", if d = [1] then "warn" else "enforce")], by simp⟩, [], [], ""⟩⟩
  spec _ _ _ := .ok ⟨smallInput.workload, plainExt, []⟩
  lib := mapsLib
  yaml := smallYaml
  tables := .ascii

def smallBundle (defaults : Bytes) : Bundle where
  revision := "1"
  score := []
  overrides := none
  defaults := defaults
  patches := smallInput.patches
  raw := smallInput.raw
  policies := [⟨"rules.rego", [7]⟩]
  files _ := none

def smallRequest (defaults : Bytes) : Request where
  service := "web"
  envName := "alpha"
  approved _ := false
  source _ _ := .ok (smallBundle defaults)
  machine := ⟨.ok (), fun _ _ _ => .ok fun _ => .valid, fun _ => .ok fun _ _ => .ok []⟩

theorem build_current_edited : ∃ plan x, smallReaders.prepare (smallRequest [2]).source "web" "alpha" = .ok x ∧
    ∃ q' ∈ requests [.build (smallRequest [1]), .build (smallRequest [2])], ∃ g : Gate,
      g.SetUpBy smallReaders.tables q'.machine (configFor x.target x.bundle.policies) ∧
        g.dir ∈ (exec (step smallReaders) .new [.build (smallRequest [1]), .build (smallRequest [2])]).disk.dirs ∧
          x.plan smallReaders.tables (smallRequest [2]) g = .ok plan := by
  have hok : ((exec (step smallReaders) .new [.build (smallRequest [1])]).build smallReaders
      (smallRequest [2])).1.isOk = true := by decide +kernel
  have hbundle (d : Bytes) (b : Bundle) (h : b ∈ asked smallReaders [.build (smallRequest d)]) : b = smallBundle d := by
    obtain ⟨q, hq, x, hx, rfl⟩ := mem_asked_iff.mp h
    obtain rfl : q = smallRequest d := by simpa [requests, Call.request] using hq
    exact Except.ok.inj (prepare_read hx).1.symm
  have hplain (d : Bytes) (hd : 0 ∉ d) (b : Bundle) (h : b ∈ asked smallReaders [.build (smallRequest d)]) :
      b.Plain := by
    rw [hbundle d b h]
    refine ⟨hd, fun f hf => ?_⟩
    obtain rfl := List.mem_singleton.mp hf
    decide +kernel
  have hhash : Sha256.sha256 (smallBundle [1]).keyText ≠ Sha256.sha256 (smallBundle [2]).keyText := by decide +kernel
  have hplains : ∀ b ∈ asked smallReaders ([.build (smallRequest [1])] ++ [.build (smallRequest [2])]), b.Plain := by
    intro b hb
    rw [asked_append] at hb
    rcases List.mem_append.mp hb with hb | hb
    · exact hplain [1] (by decide) b hb
    · exact hplain [2] (by decide) b hb
  cases h : ((exec (step smallReaders) .new [.build (smallRequest [1])]).build smallReaders (smallRequest [2])).1 with
  | error e =>
    rw [h] at hok
    cases hok
  | ok plan =>
    have hcurrent := build_current [.build (smallRequest [1])] (smallRequest [2]) hplains
      (fun b hb b' hb' hsame => absurd (hbundle [1] b hb ▸ hbundle [2] b' hb' ▸ hsame) hhash) h
    rw [List.singleton_append] at hcurrent
    exact ⟨plan, hcurrent⟩

/-- The call keeps the gate of an environment that has a key: it builds the environment with that key only. -/
def Call.Keeps (r : Readers) (name key : String) : Call → Prop
  | .build q => ∀ x, r.prepare q.source q.service q.envName = .ok x → x.target.env.name = name → x.bundle.key = key
  | .close => False

theorem step_keeps {c : Call} (h : Sound p) (he : lookup p.gates name = some e) (hc : c.Keeps r name e.key) :
    lookup (step r p c).gates name = some e := by
  cases c with
  | close => exact hc.elim
  | build q =>
    cases hx : r.prepare q.source q.service q.envName with
    | error err =>
      rw [step, build_of_error hx]
      exact he
    | ok x =>
      rw [step, build_of_ok hx]
      obtain ⟨-, hothers, hgate⟩ := gate_spec h r.tables q.machine x.target x.bundle
      by_cases hname : name = x.target.env.name
      · subst hname
        have hkey : x.bundle.key = e.key := hc x hx rfl
        rcases hgate with ⟨e', -, -, hgate⟩ | ⟨hother, -⟩
        · rw [hgate]
          exact he
        · exact absurd hkey.symm (hother e he)
      · rw [hothers name hname]
        exact he

/-- In every run of builds, failed ones too, and closings, the directories on the disk are those of the gates that
are held, each gate with its own; a gate stays until its environment is built with another key; and closing frees
every directory. -/
theorem gates_held (r : Readers) (calls more : List Call) :
    Sound (exec (step r) .new calls) ∧ (exec (step r) .new (calls ++ [.close])).disk.dirs = [] ∧
      ∀ name e, lookup (exec (step r) .new calls).gates name = some e → (∀ c ∈ more, c.Keeps r name e.key) →
        lookup (exec (step r) .new (calls ++ more)).gates name = some e := by
  have hsound : Sound (exec (step r) .new calls) := run_sound calls
  refine ⟨hsound, ?_, ?_⟩
  · obtain ⟨hclosed, hnil⟩ := close_spec hsound
    have hheld := hclosed.held
    rw [hnil, List.map_nil] at hheld
    rw [exec_append]
    exact hheld.nil_eq.symm
  · intro name e he hmore
    rw [exec_append]
    generalize exec (step r) .new calls = p at *
    induction more generalizing p with
    | nil => exact he
    | cons c more ih =>
      rw [List.forall_mem_cons] at hmore
      exact ih hmore.2 _ (step_sound hsound c) (step_keeps hsound he hmore.1)

end Runs

end Kubeast.Plans
