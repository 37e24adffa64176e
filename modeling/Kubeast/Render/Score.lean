import Kubeast.Foundation.Sorted
import Kubeast.Foundation.Table
import Kubeast.Foundation.Value
import Mathlib.Data.String.Basic

/-! What the renderer works on: a Score workload, its environment, and what the library that reads
Score files does for it (`internal/render/render.go`, `internal/target/env.go`,
`internal/spec/ext.go`). -/
namespace Kubeast.Render
open Sorted

/-- The entries of a map in the order of their keys: the loops over `sortedKeys`. -/
def sortedRows {V : Type} (m : Dict String V) : List (String × V) := sortBy Prod.fst m.rows

def sortedKeys {V : Type} (m : Dict String V) : List String := (sortedRows m).map Prod.fst

def lookup {K V : Type} [DecidableEq K] (m : Dict K V) (k : K) : Option V := (m.get k).map Prod.snd

section Messages

/-- What `fmt.Errorf` and `fmt.Sprintf` are given: a format, the values it writes, and the errors
it wraps. -/
inductive Message
  | mk (format : String) (args : List Value) (causes : List Message)

/-- A piece of a text that may refer to other values. -/
inductive Piece
  | text (s : String)
  | ref (path : List String)

/-- A value in a text: a text as it is, anything else as it is written. -/
def asText (write : Value → String) : Value → String
  | .str s => s
  | v => write v

/-- What the renderer has from score-go. -/
structure ScoreGo where
  /-- How `SubstituteString` reads a text, `$$` being a dollar. -/
  scan : String → List Piece
  /-- `Substitute` over a resource's params. -/
  substitute : (List String → Except Message String) → Value → Except Message Value
  /-- How a value is written into a text. -/
  write : Value → String
  /-- `BuildSubstitutionFunction`: what a reference gives, from the metadata and the resources' outputs. -/
  build : Value → (String → Option (List String → Except Message Value)) → List String → Except Message String
  /-- A reference to an output of a resource gives that output. -/
  build_output : ∀ metadata outputs id get key keys, outputs id = some get →
    build metadata outputs ("resources" :: id :: key :: keys) = (get (key :: keys)).map (asText write)
  /-- The memory that `ParseResourceLimits` reads, in bytes. -/
  memory : String → Except Message ℕ
  /-- `ParseDotPathParts`. -/
  dotPath : String → List String
  /-- `OverridePathInMap`. -/
  override : Value → List String → Bool → Value → Except Message Value

end Messages

section Workload

structure ContainerFile where
  content : Option String
  binaryContent : Option String
  mode : Option String
  noExpand : Option Bool

structure ContainerVolume where
  source : String
  path : Option String
  readOnly : Option Bool

structure ResourcesLimits where
  cpu : Option String
  memory : Option String

structure ContainerResources where
  limits : Option ResourcesLimits
  requests : Option ResourcesLimits

structure HttpProbe where
  host : Option String
  httpHeaders : List (String × String)
  path : String
  port : ℤ
  scheme : Option String

structure ContainerProbe where
  httpGet : Option HttpProbe
  exec : Option (List String)

structure Container where
  image : String
  command : List String
  args : List String
  vars : Dict String String
  files : Dict String ContainerFile
  volumes : Dict String ContainerVolume
  resources : Option ContainerResources
  livenessProbe : Option ContainerProbe
  readinessProbe : Option ContainerProbe

structure ServicePort where
  port : ℤ
  protocol : Option String
  targetPort : Option ℤ

structure Resource where
  type : String
  class_ : Option String
  params : Value

/-- Lower-case letters, digits and dashes: what the Score schema admits in names. -/
def labelChar (c : Char) : Bool := c.isLower || c.isDigit || c == '-'

structure Workload where
  metadata : Value
  containers : Dict String Container
  /-- `service.ports`. -/
  ports : Dict String ServicePort
  resources : Dict String Resource
  /-- The Score schema names resources by labels. -/
  labels : ∀ r ∈ resources.rows, r.1 ≠ "" ∧ r.1.toList.all labelChar = true

/-- `metadata.name`. -/
def Workload.name (w : Workload) : String :=
  match w.metadata.get "name" with
  | some (.str name) => name
  | _ => ""

structure Autoscale where
  min : ℤ
  max : ℤ
  resource : String
  target : ℤ

inductive PDB
  | auto
  | off
  | maxUnavailable (value : ℤ)
  | minAvailable (value : ℤ)

structure Scrape where
  port : String
  path : String

/-- What the `kubeast.io/*` annotations ask for. -/
structure Ext where
  replicas : Option ℤ
  autoscale : Option Autoscale
  pdb : PDB
  readOnlyRoot : Bool
  readOnlyRootReason : String
  runAsUser : Option ℤ
  hostUsers : Option Bool
  /-- `none` for the environment's default, empty for none. -/
  spread : Option (List String)
  scrape : Option Scrape
  profile : String
  policyExceptions : List String
  policyExceptionReason : String

end Workload

section Environment

structure Quantities where
  cpu : String
  memory : String

structure ParentRef where
  name : String
  namespace_ : String
  sectionName : String

structure SecretStore where
  kind : String
  name : String
  refreshInterval : String

structure Toleration where
  key : String
  operator : String
  value : String
  effect : String
  tolerationSeconds : Option ℤ

structure Profile where
  nodeSelector : Dict String String
  tolerations : List Toleration

structure Capabilities where
  gatewayAPI : Bool
  externalSecrets : Bool
  serviceMonitor : Bool

/-- An environment's defaults, filled. -/
structure Env where
  name : String
  /-- A pattern: `{service}` and `{env}` are replaced. -/
  namespace_ : String
  replicas : ℤ
  requests : Quantities
  limits : Quantities
  hostUsers : Bool
  spread : List String
  maxSurge : String
  tmpSize : String
  readinessFromPort : Bool
  gateway : Option ParentRef
  domain : String
  secretStore : Option SecretStore
  serviceAccountClass : String
  profiles : Dict String Profile
  defaultProfile : String
  capabilities : Capabilities

end Environment

section Building

/-- What a step of the renderer leaves behind besides its value. -/
structure Effects where
  objects : List Value
  notes : List Message
  errs : List Message
  /-- The secret outputs looked up: resource and key. -/
  used : List (String × String)
  /-- The volume resources mounted. -/
  usedVolumes : List String
  needTmp : Bool

namespace Effects

def none : Effects := ⟨[], [], [], [], [], false⟩

def append (e e' : Effects) : Effects :=
  ⟨e.objects ++ e'.objects, e.notes ++ e'.notes, e.errs ++ e'.errs, e.used ++ e'.used,
    e.usedVolumes ++ e'.usedVolumes, e.needTmp || e'.needTmp⟩

instance : Append Effects := ⟨append⟩

end Effects

structure Built (α : Type) where
  value : α
  effects : Effects

namespace Built
variable {α β : Type}

instance : Monad Built where
  pure a := ⟨a, Effects.none⟩
  bind x f := ⟨(f x.value).value, x.effects ++ (f x.value).effects⟩

/-- `r.fail`. -/
def fail (format : String) (args : List Value) (causes : List Message) : Built Unit :=
  ⟨(), { Effects.none with errs := [.mk format args causes] }⟩

/-- `r.note`. -/
def note (format : String) (args : List Value) : Built Unit :=
  ⟨(), { Effects.none with notes := [.mk format args []] }⟩

def object (o : Value) : Built Unit := ⟨(), { Effects.none with objects := [o] }⟩

/-- A step that fails as a whole, with its errors. -/
def ofExcept : Except (List Message) α → Built (Option α)
  | .ok a => ⟨some a, Effects.none⟩
  | .error errs => ⟨Option.none, { Effects.none with errs := errs }⟩

/-- A step with what it leaves behind. -/
def listen (x : Built α) : Built (α × Effects) := ⟨(x.value, x.effects), x.effects⟩

/-- A loop that appends what each turn gives, if it gives anything. -/
def forEach (l : List α) (f : α → Built (Option β)) : Built (List β) :=
  match l with
  | [] => pure []
  | a :: l => do
    let b ← f a
    let bs ← forEach l f
    pure (b.toList ++ bs)

end Built

section Projections
variable {α β : Type} {x : Built α} {f : α → Built β} {a : α} {e e' : Effects} {format : String}
  {args : List Value} {causes : List Message} {o : Value}

@[simp] theorem append_objects : (e ++ e').objects = e.objects ++ e'.objects := rfl
@[simp] theorem append_errs : (e ++ e').errs = e.errs ++ e'.errs := rfl
@[simp] theorem append_used : (e ++ e').used = e.used ++ e'.used := rfl
@[simp] theorem append_usedVolumes : (e ++ e').usedVolumes = e.usedVolumes ++ e'.usedVolumes := rfl
@[simp] theorem append_needTmp : (e ++ e').needTmp = (e.needTmp || e'.needTmp) := rfl

@[simp] theorem pure_value : (pure a : Built α).value = a := rfl
@[simp] theorem pure_effects : (pure a : Built α).effects = Effects.none := rfl
@[simp] theorem bind_value : (x >>= f).value = (f x.value).value := rfl
@[simp] theorem bind_effects : (x >>= f).effects = x.effects ++ (f x.value).effects := rfl
@[simp] theorem fail_errs : (Built.fail format args causes).effects.errs = [.mk format args causes] := rfl
@[simp] theorem note_errs : (Built.note format args).effects.errs = [] := rfl
@[simp] theorem listen_value : (Built.listen x).value = (x.value, x.effects) := rfl
@[simp] theorem listen_effects : (Built.listen x).effects = x.effects := rfl
@[simp] theorem object_objects : (Built.object o).effects.objects = [o] := rfl
@[simp] theorem object_errs : (Built.object o).effects.errs = [] := rfl

end Projections

section Loops
variable {α β : Type} {l : List α} {f : α → Built (Option β)} {a : α}

attribute [local simp] Built.forEach

theorem forEach_value : (Built.forEach l f).value = l.flatMap fun a => (f a).value.toList := by
  induction l with
  | nil => rfl
  | cons a l ih => rw [Built.forEach, List.flatMap_cons, ← ih]; rfl

theorem forEach_errs : (Built.forEach l f).effects.errs = l.flatMap fun a => (f a).effects.errs := by
  induction l with
  | nil => rfl
  | cons a l ih =>
    rw [Built.forEach, List.flatMap_cons, ← ih]
    simp [Effects.none]

theorem forEach_objects :
    (Built.forEach l f).effects.objects = l.flatMap fun a => (f a).effects.objects := by
  induction l with
  | nil => rfl
  | cons a l ih =>
    rw [Built.forEach, List.flatMap_cons, ← ih]
    simp [Effects.none]

theorem forEach_used : (Built.forEach l f).effects.used = l.flatMap fun a => (f a).effects.used := by
  induction l with
  | nil => rfl
  | cons a l ih =>
    rw [Built.forEach, List.flatMap_cons, ← ih]
    simp [Effects.none]

theorem forEach_usedVolumes :
    (Built.forEach l f).effects.usedVolumes = l.flatMap fun a => (f a).effects.usedVolumes := by
  induction l with
  | nil => rfl
  | cons a l ih =>
    rw [Built.forEach, List.flatMap_cons, ← ih]
    simp [Effects.none]

/-- What one turn needs the loop needs. -/
theorem needTmp_forEach (ha : a ∈ l) (h : (f a).effects.needTmp = true) :
    (Built.forEach l f).effects.needTmp = true := by
  induction l with
  | nil => cases ha
  | cons b l ih =>
    rw [Built.forEach]
    rcases List.mem_cons.mp ha with rfl | ha
    · simp [h]
    · simp [ih ha]

/-- A loop without errors has none in any turn. -/
theorem errs_of_forEach (h : (Built.forEach l f).effects.errs = []) (ha : a ∈ l) :
    (f a).effects.errs = [] := by
  rw [forEach_errs, List.flatMap_eq_nil_iff] at h
  exact h a ha

end Loops
end Building
end Kubeast.Render
