import Kubeast.AuditChain.Anchor
import Kubeast.Foundation.Compare
import Kubeast.Foundation.Utf8
import Mathlib.Algebra.Order.Ring.Rat
import Mathlib.Data.List.Dedup
import Mathlib.Data.List.Lex

/-! One page of the Pods list (`k8s-service-go/internal/k8s/pods_page.go`). A text is its bytes, a time its seconds
since 1970. -/
namespace Kubeast.PodsPage
open Utf8 Compare

def podPageMaxLimit : ℤ := 500

/-- `podRow`. -/
structure Row where
  name : Bytes
  ns : Bytes
  node : Bytes
  phase : Bytes
  status : Bytes
  podIP : Bytes
  runtimeClass : Bytes
  priorityClass : Bytes
  serviceAccount : Bytes
  labels : Bytes
  created : ℤ
  deleted : ℤ
  ready : UInt16
  containers : UInt16
  restarts : Int32
  health : UInt8
deriving DecidableEq

/-- `PodPageQuery`, with its label selector as what it selects. -/
structure Query where
  search : Bytes
  sort : String
  desc : Bool
  offset : ℤ
  limit : ℤ
  health : String
  phase : Bytes
  runtimeClass : Bytes
  priorityClass : Bytes
  serviceAccounts : List Bytes
  tokens : Bool
  groups : Bool
  groupTop : ℤ
  labelSelector : Option (Bytes → Bool)

/-- What Go's `strings` takes from the tables of Unicode. -/
structure Tables where
  toLower : Bytes → Bytes
  trimSpace : Bytes → Bytes
  equalFold : Bytes → Bytes → Bool

section Order

/-- The bytes as numbers. -/
def nums (s : Bytes) : List ℕ := s.map UInt8.toNat

/-- `strings.Compare`. -/
def compare (a b : Bytes) : ℤ := ordered (nums a) (nums b)

def lowerASCII (c : UInt8) : UInt8 := if 0x41 ≤ c ∧ c ≤ 0x5A then c + 0x20 else c

/-- The loop of `foldCompare`, none where it finds no difference. -/
def foldLoop : Bytes → Bytes → Option ℤ
  | c :: a, d :: b =>
    if lowerASCII c ≠ lowerASCII d then some (ordered (lowerASCII c).toNat (lowerASCII d).toNat) else foldLoop a b
  | _, _ => none

def foldCompare (a b : Bytes) : ℤ :=
  match foldLoop a b with
  | some c => c
  | none => if a.length ≠ b.length then ordered a.length b.length else compare a b

def slash : UInt8 := 0x2F

def apiOrder (a b : Row) : ℤ :=
  if a.ns = b.ns then compare a.name b.name
  else if a.ns.isPrefixOf b.ns then ordered slash.toNat (b.ns.getD a.ns.length 0).toNat
  else if b.ns.isPrefixOf a.ns then ordered (a.ns.getD b.ns.length 0).toNat slash.toNat
  else compare a.ns b.ns

variable (tables : Tables)

def findScore (r : Row) : ℤ :=
  (if tables.equalFold r.status (bytes "running") ∧ (r.containers = 0 ∨ r.ready = r.containers) then 10 else 0) +
    if 0 < r.containers ∧ r.ready = r.containers then 1 else 0

def age (now : ℤ) (r : Row) : ℤ := if r.created = 0 then 0 else max 0 ((now - r.created).bmod (2 ^ 64))

/-- Two quotients of 16-bit numbers that differ still do so when rounded. -/
def ratio (r : Row) : ℚ := if r.containers = 0 then 0 else r.ready.toNat / r.containers.toNat

/-- What the column says of two rows, before the direction. -/
def column (sort : String) (now : ℤ) (a b : Row) : ℤ :=
  match sort with
  | "name" => foldCompare a.name b.name
  | "ready" => ordered (ratio a) (ratio b)
  | "status" => foldCompare a.status b.status
  | "restarts" => ordered a.restarts.toInt b.restarts.toInt
  | "pod_ip" => foldCompare a.podIP b.podIP
  | "node_name" => foldCompare a.node b.node
  | "age" => ordered (age now a) (age now b)
  | "health" => ordered b.health.toNat a.health.toNat
  | "find" =>
    let c := ordered (findScore tables b) (findScore tables a)
    if c ≠ 0 then c else ordered a.restarts.toInt b.restarts.toInt
  | _ => 0

def rowOrder (sort : String) (desc : Bool) (now : ℤ) (a b : Row) : ℤ :=
  let c := column tables sort now a b
  if c ≠ 0 then c * (if desc then -1 else 1) else apiOrder a b

end Order

section Search
variable (tables : Tables)

/-- `strings.Contains`. -/
def contains (s needle : Bytes) : Bool := s.tails.any needle.isPrefixOf

def searchWords (q : Bytes) : List Bytes :=
  ((tables.toLower q).splitOnP fun c => !((0x61 ≤ c && c ≤ 0x7A) || (0x30 ≤ c && c ≤ 0x39))).filter fun w => w ≠ []

/-- `strings.Join(words, " ")`. -/
def normalizeWords (s : Bytes) : Bytes := [0x20].intercalate (searchWords tables s)

/-- `strings.Replace(pair, "\x1f", " ", 1)`. -/
def spaced (pair : Bytes) : Bytes :=
  match pair.dropWhile fun c => c ≠ 0x1F with
  | [] => pair
  | _ :: rest => pair.takeWhile (fun c => c ≠ 0x1F) ++ 0x20 :: rest

def wordsMatchPod (words : List Bytes) (r : Row) : Bool :=
  let all (hay : Bytes) : Bool := words.all fun w => contains hay w
  all (normalizeWords tables r.name) ||
    (r.labels ≠ [] && (r.labels.splitOn 0x1E).any fun pair => all (normalizeWords tables (spaced pair)))

def needleMatchesPod (needle : Bytes) (r : Row) : Bool :=
  contains r.name needle || contains r.ns needle || contains r.node needle || contains (tables.toLower r.podIP) needle

end Search

section Counts
variable (tables : Tables)

def statusNamesError (status : Bytes) : Bool :=
  ["error", "failed", "backoff", "errimagepull", "oomkilled"].any fun w => contains (tables.toLower status) (bytes w)

/-- The summary card a pod counts in. -/
inductive Card
  | ready
  | notReady
  | pending
  | terminating
  | error
  | completed
deriving DecidableEq

def cardOf (r : Row) : Card :=
  let phase := if r.phase = [] then r.status else r.phase
  if phase = bytes "Failed" ∨ statusNamesError tables r.status = true then .error
  else if r.status = bytes "Terminating" then .terminating
  else if phase = bytes "Pending" then .pending
  else if phase = bytes "Succeeded" then .completed
  else if phase = bytes "Running" ∧ r.deleted = 0 ∧ 0 < r.containers ∧ r.ready = r.containers then .ready
  else .notReady

structure Stats where
  total : ℕ
  cards : Card → ℕ
  restarted : ℕ
  healthOK : ℕ
  healthWarn : ℕ
  healthError : ℕ
  topReasons : List (Bytes × ℕ)

/-- A status and the first of its rows in the API's order. -/
structure Reason where
  status : Bytes
  count : ℕ
  first : Row

def reasonOf (rows : List Row) (r : Row) : Reason :=
  let own := rows.filter fun x => x.status = r.status
  ⟨r.status, own.length, own.foldl (fun first x => if apiOrder x first < 0 then x else first) r⟩

def podStats (rows : List Row) : Stats :=
  let reasons := (rows.map Row.status).dedup.filterMap fun s => (rows.find? fun r => r.status = s).map (reasonOf rows)
  let byCount (a b : Reason) : ℤ :=
    let d : ℤ := b.count - a.count
    if d ≠ 0 then d else apiOrder a.first b.first
  { total := rows.length
    cards := fun c => rows.countP fun r => cardOf tables r = c
    restarted := rows.countP fun r => 0 < r.restarts
    healthOK := rows.countP fun r => r.health = 0
    healthWarn := rows.countP fun r => r.health = 1
    healthError := rows.countP fun r => r.health ≠ 0 ∧ r.health ≠ 1
    topReasons := ((sortFunc byCount reasons).take 4).map fun reason => (reason.status, reason.count) }

def podGroupTop : ℤ := 20

def podGroupCounts (rows : List Row) (top : ℤ) (key : Row → Bytes) : List (Bytes × ℕ) :=
  let out := (rows.map key).dedup.map fun k =>
    (if k = [] then bytes "(none)" else k, rows.countP fun r => key r = k)
  let out := sortFunc (fun a b => if a.2 ≠ b.2 then (b.2 : ℤ) - a.2 else compare a.1 b.1) out
  if top < out.length then
    out.take top.toNat ++ [(bytes "(other)", ((out.drop top.toNat).map Prod.snd).sum)]
  else out

end Counts

section Page
variable (tables : Tables)

/-- `PodListItem`. -/
structure Item where
  name : Bytes
  ns : Bytes
  status : Bytes
  phase : Bytes
  ready : String
  restartCount : Int32
  nodeName : Bytes
  podIP : Bytes
  createdAt : String
  deletionTimestamp : String
  serviceAccount : Bytes
deriving DecidableEq

def timeText (seconds : ℤ) : String := if seconds ≠ 0 then AuditChain.rfc3339 (seconds * 1000000) else ""

def Row.item (r : Row) : Item where
  name := r.name
  ns := r.ns
  status := r.status
  phase := r.phase
  ready := toString r.ready.toNat ++ "/" ++ toString r.containers.toNat
  restartCount := r.restarts
  nodeName := r.node
  podIP := r.podIP
  createdAt := timeText r.created
  deletionTimestamp := timeText r.deleted
  serviceAccount := r.serviceAccount

structure Page where
  byNamespace : List (Bytes × ℕ)
  byNode : List (Bytes × ℕ)
  byPhase : List (Bytes × ℕ)
  items : List Item
  total : ℕ
  stats : Stats

/-- The caller's array, and `matched`: its own array, or none while it is the caller's. -/
structure Arrays where
  input : List (Option Row)
  own : Option (List Row)

def Arrays.matched (s : Arrays) : List Row := s.own.getD (s.input.filterMap id)

/-- What stands in the array of `matched` is replaced, and the rest of the array is cleared. -/
def Arrays.write (s : Arrays) (l : List Row) : Arrays :=
  match s.own with
  | some _ => { s with own := some l }
  | none => { s with input := l.map some ++ List.replicate (s.input.length - l.length) none }

/-- `slices.DeleteFunc`. -/
def Arrays.deleteFunc (s : Arrays) (del : Row → Bool) : Arrays := s.write (s.matched.filter fun r => !del r)

def Arrays.sort (s : Arrays) (cmp : Row → Row → ℤ) : Arrays := s.write (sortFunc cmp s.matched)

/-- The search, into an array of its own. -/
def Arrays.search (s : Arrays) (q : Query) (rows : List Row) : Arrays :=
  let words := searchWords tables q.search
  let needle := tables.toLower (tables.trimSpace q.search)
  if q.tokens = true ∧ words ≠ [] then { s with own := some (rows.filter (wordsMatchPod tables words)) }
  else if needle ≠ [] then { s with own := some (rows.filter (needleMatchesPod tables needle)) }
  else { s with own := some rows }

def podHealthNames : List String := ["ok", "warn", "error"]

/-- The filters behind the search, each one's query value and what it deletes. -/
def deletions (q : Query) : List (Bool × (Row → Bool)) :=
  [(podHealthNames.contains q.health, fun r => r.health.toNat ≠ podHealthNames.idxOf q.health),
    (q.phase ≠ [], fun r => r.phase ≠ q.phase && !(q.phase = bytes "Unknown" && r.phase = [])),
    (q.runtimeClass ≠ [], fun r => r.runtimeClass ≠ q.runtimeClass),
    (q.priorityClass ≠ [], fun r => r.priorityClass ≠ q.priorityClass),
    (q.serviceAccounts ≠ [], fun r =>
      r.serviceAccount = [] || !q.serviceAccounts.contains (r.ns ++ slash :: r.serviceAccount)),
    (q.labelSelector.isSome, fun r => !(q.labelSelector.all fun selects => selects r.labels))]

/-- `buildPodPage`, and what the caller's array holds afterwards. -/
def buildPodPage (rows : List Row) (q : Query) (now : ℤ) : Page × List (Option Row) :=
  let s : Arrays := ⟨rows.map some, none⟩
  let s := s.search tables q rows
  let s := (deletions q).foldl (fun s d => if d.1 then s.deleteFunc d.2 else s) s
  let top := if q.groupTop ≤ 0 then podGroupTop else q.groupTop
  let grouped (key : Row → Bytes) := if q.groups then podGroupCounts s.matched top key else []
  let sorted := s.sort (rowOrder tables q.sort q.desc now)
  let limit := if q.limit ≤ 0 ∨ podPageMaxLimit < q.limit then podPageMaxLimit else q.limit
  let start := min (max q.offset 0) sorted.matched.length
  let stop := min (start + limit) sorted.matched.length
  ({ byNamespace := grouped Row.ns
     byNode := grouped Row.node
     byPhase := grouped Row.phase
     items := ((sorted.matched.take stop.toNat).drop start.toNat).map Row.item
     total := sorted.matched.length
     stats := podStats tables rows }, sorted.input)

end Page
end Kubeast.PodsPage
