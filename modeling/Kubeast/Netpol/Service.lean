import Kubeast.Foundation.Table
import Kubeast.Foundation.Text
import Kubeast.Netpol.Check

/-! The check of a connection to a Service (`k8s-service-go/internal/k8s/netpol_check.go`): its pods
are read as the user, and those that the policies see alike are decided as one. -/
namespace Kubeast.Netpol
open Netip Text

structure Container where
  restartPolicy : Option String
  ports : List ContainerPort

/-- What a label key or value consists of. -/
def isLabelChar (c : Char) : Bool := c.isAlphanum || ['-', '_', '.', '/'].contains c

/-- `corev1.Pod`, with labels that the API server accepts; `deleted` says that it has a deletion
timestamp. -/
structure Pod where
  name : String
  labels : Dict String String
  phase : String
  deleted : Bool
  initContainers : List Container
  containers : List Container
  podIPs : List String
  hostNetwork : Bool
  labels_valid : ∀ x ∈ labels.rows, x.1.toList.all isLabelChar = true ∧ x.2.toList.all isLabelChar = true

/-- `r.pods`: the running pods by name, no more than the cap, and whether there are more. -/
def netpolMaxPods : ℕ := 50

def Pod.running (p : Pod) : Bool := !(p.phase == "Succeeded" || p.phase == "Failed" || p.deleted)

def runningPods (listed : Table Pod.name) : List Pod :=
  (listed.select Pod.running).insertionSort fun p q => p.name ≤ q.name

def readPods (listed : Table Pod.name) : List Pod × Bool :=
  if netpolMaxPods < (runningPods listed).length then ((runningPods listed).take netpolMaxPods, true)
  else (runningPods listed, false)

/-- The ports of the sidecars and the containers. -/
def podPorts (p : Pod) : List ContainerPort :=
  (p.initContainers.filter fun c => c.restartPolicy = some "Always").flatMap Container.ports ++
    p.containers.flatMap Container.ports

def netpolPodEndpoint (ns : String) (nsLabels : Option Labels) (p : Pod) : Endpoint where
  ns := ns
  namespaceLabels := nsLabels
  pod := p.name
  labels := fun k => (p.labels.get k).map Prod.snd
  ports := podPorts p
  ips := p.podIPs.filterMap parseAddr
  hostNetwork := p.hostNetwork
  external := false

def portText (cp : ContainerPort) : String :=
  cp.name ++ ":" ++ toString cp.containerPort ++ "/" ++ cp.protocol

def podGroupKey (p : Pod) : String :=
  String.ofList (joined ',' (sortStrings (p.labels.rows.map fun x => x.1 ++ "=" ++ x.2)) ++
    '|' :: (joined ',' (sortStrings ((podPorts p).map portText)) ++
      '|' :: (if p.hostNetwork then "true" else "false").toList))

/-- Pods that the policies see alike. -/
structure Group where
  ep : Endpoint
  pods : List String

structure ServicePort where
  name : String
  port : ℤ
  protocol : String
  targetPort : IntOrString

structure Service where
  ns : String
  name : String
  selector : Dict String String
  ports : List ServicePort

structure NetpolEnd where
  ref : String
  kind : String
  ns : String
  name : String
  ips : List String
  pods : List String
  namespaceLabelsKnown : Bool

structure Resolved where
  desc : NetpolEnd
  groups : List Group
  service : Option Service
  truncated : Bool

inductive CheckError
  | noSelector (ns name : String)
  | noPods (ns name : String)
  | noServicePort (ns name portSpec : String)
  | portOfAddress
  | portRange (n : ℤ)
  | nameOfAddress
  | noNamedPort (protocol portSpec : String)
  | nothing
deriving DecidableEq

def CheckError.text (tables : CharTables) : CheckError → String
  | .noSelector ns name =>
      "service " ++ ns ++ "/" ++ name ++ " has no selector: check its pods or address instead"
  | .noPods ns name => "service " ++ ns ++ "/" ++ name ++ " selects no running pods"
  | .noServicePort ns name portSpec =>
      "service " ++ ns ++ "/" ++ name ++ " has no port " ++ quote tables portSpec
  | .portOfAddress => "give a port for an address"
  | .portRange n => "port " ++ toString n ++ " is outside 1-65535"
  | .nameOfAddress => "an address has no named ports: give a number"
  | .noNamedPort protocol portSpec =>
      "the destination declares no " ++ protocol ++ " port named " ++ quote tables portSpec
  | .nothing =>
      "nothing to check: the destination declares no port of that protocol — give a port"

/-- A pod joins the group of its key, or starts it. -/
def joinGroup (ns : String) (nsLabels : Option Labels) (acc : Dict String ℕ × List Group) (p : Pod) :
    Dict String ℕ × List Group :=
  let ep := netpolPodEndpoint ns nsLabels p
  match acc.1.get (podGroupKey p) with
  | some x => (acc.1, acc.2.modify x.2 fun g =>
      { g with pods := g.pods ++ [p.name], ep := { g.ep with ips := g.ep.ips ++ ep.ips } })
  | none => (acc.1.set (podGroupKey p) acc.2.length, acc.2 ++ [⟨{ ep with pod := "" }, [p.name]⟩])

def groupsOf (ns : String) (nsLabels : Option Labels) (pods : List Pod) : List Group :=
  (pods.foldl (joinGroup ns nsLabels) (Table.empty, [])).2

/-- `resolve` of a Service whose pods the API server lists. -/
def resolveService (nsLabels : Option Labels) (svc : Service) (listed : Table Pod.name) :
    Except CheckError Resolved :=
  if svc.selector.rows = [] then .error (.noSelector svc.ns svc.name)
  else
    let (pods, truncated) := readPods listed
    if pods = [] then .error (.noPods svc.ns svc.name)
    else .ok
      { desc :=
          { ref := "service/" ++ svc.ns ++ "/" ++ svc.name
            kind := "Service"
            ns := svc.ns
            name := svc.name
            ips := pods.flatMap Pod.podIPs
            pods := pods.map Pod.name
            namespaceLabelsKnown := nsLabels.isSome }
        groups := groupsOf svc.ns nsLabels pods
        service := some svc
        truncated := truncated }

/-- A port to check; `missing` says why the pod cannot take the Service port. -/
structure Target where
  port : ℤ
  protocol : String
  servicePort : String
  missing : String

def noteTargetPortMissing : String := "target_port_not_on_pod"

def noteDNSEgressDenied : String := "dns_egress_denied"

def orTCP (protocol : String) : String := if protocol = "" then "TCP" else protocol

/-- The ports of a Service that the caller asks about. -/
def ServicePort.asked (portSpec protocol : String) (sp : ServicePort) : Bool :=
  (protocol == "" || orTCP sp.protocol == protocol) &&
    (portSpec == "" || portSpec == toString sp.port || portSpec == sp.name)

def ServicePort.text (sp : ServicePort) : String :=
  let text := toString sp.port ++ "/" ++ orTCP sp.protocol
  if sp.name = "" then text else sp.name ++ " " ++ text

def ServicePort.target (ports : List ContainerPort) (sp : ServicePort) : Target :=
  match sp.targetPort with
  | .str name => match namedPort ports name (orTCP sp.protocol) with
    | some n => ⟨n, orTCP sp.protocol, sp.text, ""⟩
    | none => ⟨0, orTCP sp.protocol, sp.text, noteTargetPortMissing⟩
  | .int n => ⟨if n ≠ 0 then n else sp.port, orTCP sp.protocol, sp.text, ""⟩

/-- `dstKind` is the kind of the destination as the caller names it. -/
def netpolTargets (ep : Endpoint) (dstKind : String) (svc : Option Service) (portSpec protocol : String) :
    Except CheckError (List Target) :=
  let portSpec := trimSpace portSpec
  match svc with
  | some svc =>
      let out := (svc.ports.filter (ServicePort.asked portSpec protocol)).map (ServicePort.target ep.ports)
      if out = [] then .error (.noServicePort svc.ns svc.name portSpec) else .ok out
  | none =>
      if portSpec = "" then
        if dstKind = "ip" then .error .portOfAddress
        else .ok ((ep.ports.filter fun cp => protocol == "" || orTCP cp.protocol == protocol).map fun cp =>
          ⟨cp.containerPort, orTCP cp.protocol, "", ""⟩)
      else match atoi portSpec with
        | some n =>
            if n < 1 ∨ 65535 < n then .error (.portRange n) else .ok [⟨n, orTCP protocol, "", ""⟩]
        | none =>
            if dstKind = "ip" then .error .nameOfAddress
            else match namedPort ep.ports portSpec (orTCP protocol) with
              | none => .error (.noNamedPort (orTCP protocol) portSpec)
              | some n => .ok [⟨n, orTCP protocol, "", ""⟩]

/-- A verdict of the policies, or the note of a check that never reaches them. -/
inductive Judged
  | missing (note : String)
  | verdict (v : Verdict)
deriving DecidableEq

def Judged.result : Judged → Result
  | .missing _ => .unknown
  | .verdict v => v.result

structure NetpolCheck where
  pods : List String
  port : ℤ
  protocol : String
  servicePort : String
  judged : Judged
deriving DecidableEq

structure NetpolCheckResult where
  destination : NetpolEnd
  result : String
  checks : List NetpolCheck
  notes : List String
  truncated : Bool

section Answer
variable (K : Apimachinery) (policies : List NetworkPolicy) (src : Endpoint)

/-- Whether the source may not ask the cluster's DNS. -/
def dnsEgressDenied (dnsLabels : Option Labels) : Bool :=
  let dns : Endpoint :=
    { ns := "kube-system"
      namespaceLabels := dnsLabels
      pod := ""
      labels := fun k => if k = "k8s-app" then some "kube-dns" else none
      ports := [⟨"dns", 53, "UDP"⟩, ⟨"dns-tcp", 53, "TCP"⟩]
      ips := []
      hostNetwork := false
      external := false }
  (check K policies src dns "UDP" 53).egress.any fun s => s.result = .denied

def netpolCheck (dstKind : String) (g : Group) (t : Target) : NetpolCheck where
  pods := if dstKind ≠ "pod" ∧ dstKind ≠ "ip" then g.pods else []
  port := t.port
  protocol := t.protocol
  servicePort := t.servicePort
  judged :=
    if t.missing ≠ "" then .missing t.missing else .verdict (check K policies src g.ep t.protocol t.port)

/-- The checks of one group. -/
def groupChecks (dstKind : String) (svc : Option Service) (portSpec protocol : String) (g : Group) :
    Except CheckError (List NetpolCheck) := do
  let targets ← netpolTargets g.ep dstKind svc portSpec protocol
  return targets.map (netpolCheck K policies src dstKind g)

/-- The answer of all checks, where there are any. -/
def answer (dstKind : String) (dst : Resolved) (truncated : Bool) (dnsLabels : Option Labels) :
    List NetpolCheck → Except CheckError NetpolCheckResult
  | [] => .error .nothing
  | c :: rest => .ok
      { destination := dst.desc
        result := if rest.any (fun c' => c'.judged.result ≠ c.judged.result) then "mixed"
          else c.judged.result.text
        checks := c :: rest
        notes := if dstKind = "service" ∧ dnsEgressDenied K policies src dnsLabels = true then
          [noteDNSEgressDenied] else []
        truncated := truncated || dst.truncated }

/-- `check`, once both ends are resolved and the policies of their namespaces read. -/
def checkResolved (dstKind : String) (dst : Resolved) (truncated : Bool) (dnsLabels : Option Labels)
    (portSpec protocol : String) : Except CheckError NetpolCheckResult := do
  let checks ← dst.groups.mapM (groupChecks K policies src dstKind dst.service portSpec protocol)
  answer K policies src dstKind dst truncated dnsLabels checks.flatten

end Answer
end Kubeast.Netpol
