import Kubeast.Foundation.Text
import Kubeast.Render.Score

/-! An environment's defaults, and where a workload goes (`internal/target/env.go`). -/
namespace Kubeast.Render

section Names

/-- A character inside a DNS label; it does not start or end one when it is a dash. -/
def dnsChar (c : Char) : Bool := ('a' ≤ c && c ≤ 'z') || c.isDigit || c == '-'

def dnsLabelChars (s : List Char) : Bool :=
  s ≠ [] && s.all dnsChar && s.head? != some '-' && s.getLast? != some '-'

/-- `dnsLabel`. -/
def dnsLabel (s : String) : Bool := dnsLabelChars s.toList

/-- `hostname`: labels with dots between. -/
def hostname (s : String) : Bool := (s.toList.splitOn '.').all dnsLabelChars

/-- The bytes of a text. -/
def byteLength (s : String) : ℕ := s.utf8ByteSize

/-- `surge`: a number or a percentage. -/
def surge (s : String) : Bool :=
  let digits := if s.toList.getLast? = some '%' then s.toList.dropLast else s.toList
  digits ≠ [] && digits.all Char.isDigit

end Names

section Fill

/-- An environment as its file gives it. -/
structure EnvFile where
  name : String
  namespace_ : String
  replicas : ℤ
  requests : Quantities
  limits : Quantities
  hostUsers : Bool
  spread : Option (List String)
  maxSurge : String
  tmpSize : String
  readinessFromPort : Option Bool
  gateway : Option ParentRef
  domain : String
  secretStore : Option SecretStore
  serviceAccountClass : String
  profiles : Dict String Profile
  defaultProfile : String
  capabilities : Capabilities
  /-- `policy.modes`. -/
  modes : Dict String String

def orDefault (s default : String) : String := if s = "" then default else s

def refuse (bad : Bool) (format : String) (args : List Value) : List Message :=
  if bad then [.mk format args []] else []

def SecretStore.fill (s : SecretStore) : SecretStore where
  kind := orDefault s.kind "ClusterSecretStore"
  name := s.name
  refreshInterval := orDefault s.refreshInterval "1h"

/-- What is wrong with a filled environment. -/
def EnvFile.problems (f : EnvFile) (e : Env) : List Message :=
  refuse (!dnsLabel e.name || byteLength e.name > 63) "environment name %q is not a DNS label"
    [.str e.name] ++
  (e.spread.flatMap fun s => refuse (s ≠ "zone" && s ≠ "hostname")
    "environment spread %q: zone or hostname" [.str s]) ++
  refuse (!surge e.maxSurge) "environment maxSurge %q: a number or a percentage" [.str e.maxSurge] ++
  refuse (e.secretStore.any fun s => s.name = "") "environment secretStore needs a name" [] ++
  refuse (e.gateway.any fun g => g.name = "") "environment gateway needs a name" [] ++
  refuse (e.serviceAccountClass ≠ "none" && e.serviceAccountClass ≠ "aws-irsa")
    "environment serviceAccountClass %q: none or aws-irsa" [.str e.serviceAccountClass] ++
  ((sortedRows f.modes).flatMap fun m => refuse (m.2 ∉ ["enforce", "warn", "off"])
    "environment policy mode %s: %q is not enforce, warn or off" [.str m.1, .str m.2]) ++
  refuse (e.defaultProfile ≠ "" && (lookup e.profiles e.defaultProfile).isNone)
    "environment defaultProfile %q is not in profiles (%s)"
    [.str e.defaultProfile, .str (", ".intercalate (sortedKeys e.profiles))]

def EnvFile.filled (f : EnvFile) : Env where
  name := f.name
  namespace_ := orDefault f.namespace_ "\x7bservice\x7d-\x7benv\x7d"
  replicas := if f.replicas = 0 then 1 else f.replicas
  requests := ⟨orDefault f.requests.cpu "100m", orDefault f.requests.memory "128Mi"⟩
  limits := ⟨f.limits.cpu, orDefault f.limits.memory "256Mi"⟩
  hostUsers := f.hostUsers
  spread := f.spread.getD ["zone", "hostname"]
  maxSurge := orDefault f.maxSurge "25%"
  tmpSize := orDefault f.tmpSize "64Mi"
  readinessFromPort := f.readinessFromPort.getD true
  gateway := f.gateway
  domain := f.domain
  secretStore := f.secretStore.map SecretStore.fill
  serviceAccountClass := orDefault f.serviceAccountClass "none"
  profiles := f.profiles
  defaultProfile := f.defaultProfile
  capabilities := f.capabilities

/-- `fill`, the last step of `Parse`. -/
def fill (f : EnvFile) : Except (List Message) Env :=
  if f.problems f.filled = [] then .ok f.filled else .error (f.problems f.filled)

end Fill

section Placement

def Env.expand (e : Env) (pattern service resource : String) : String :=
  String.ofList (Text.replace [("\x7bservice\x7d".toList, service.toList),
    ("\x7benv\x7d".toList, e.name.toList), ("\x7bresource\x7d".toList, resource.toList)] 0 pattern.toList)

/-- `NamespaceFor`. -/
def Env.namespaceFor (e : Env) (service : String) : Except Message String :=
  let ns := e.expand e.namespace_ service ""
  if !dnsLabel ns || byteLength ns > 63 then
    .error (.mk "namespace %q (from %q) is not a DNS label" [.str ns, .str e.namespace_] [])
  else .ok ns

/-- `HostFor`: nothing where the environment has no domain. -/
def Env.hostFor (e : Env) (service resource : String) : String :=
  if e.domain = "" then "" else e.expand e.domain service resource

end Placement
end Kubeast.Render
