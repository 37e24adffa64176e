import Kubeast.Foundation.JsonParser
import Kubeast.Foundation.JsonStrings
import Mathlib.Order.MinMax

/-! `jsontext.go`: the redaction of a text that is one JSON object or array. The rules of `Text` on
one string, and those on keys and values, are parameters. -/
namespace Kubeast.Redact
open Symbols Json

section Options

structure Options where
  enabled : Bool
  pii : Bool
  disabled : String → Bool

def Options.on (o : Options) (rule : String) : Bool := o.enabled && !o.disabled rule

/-- The rules that the rewriter asks. -/
structure Rules where
  text : Options → List Char → List Char
  /-- The rules of `redactPII` on what the options leave on. -/
  piiRules : Options → List Char → List Char
  keyIsSensitive : List Char → Bool
  valueStays : List Char → List Char → Bool
  /-- `credentialLastWord` on the normalized key. -/
  lastWordIsCredential : List Char → Bool

def Rules.redactPII (r : Rules) (o : Options) (s : List Char) : List Char :=
  if !o.pii then s else r.piiRules o s

def Rules.holdsCredential (r : Rules) (key value : List Char) (isString isNumber : Bool) : Bool :=
  if !r.keyIsSensitive key then false
  else if isString then !r.valueStays key value
  else if isNumber then r.lastWordIsCredential key
  else false

def secretPlaceholder : List Char := "<REDACTED:secret>".toList

def lastAppliedName : List Char := "kubectl.kubernetes.io/last-applied-configuration".toList

def secretValueFields : List (List Char) :=
  ["data".toList, "stringData".toList, "data_values".toList]

def keyPlaceholder (key : List Char) : List Char := "<REDACTED:".toList ++ key ++ ['>']

def isPlaceholderValue (v : List Char) : Bool := "<REDACTED".toList.isPrefixOf v

def startsNumber (c : Char) : Bool := c = '-' || isDigitChar c

end Options

section Scanner
variable {α : Type*} [Symbol α]

/-- The index after the value that starts at `i`. -/
def jsonValueEnd (s : List α) (i : ℕ) : Option ℕ := (valueLen (s.drop i)).map (i + ·)

def slice (s : List α) (start stop : ℕ) : List α := (s.take stop).drop start

def skipSpace (s : List α) (i : ℕ) : ℕ :=
  i + ((s.drop i).takeWhile fun a => isSpaceChar (char a)).length

end Scanner

/-- A literal without a backslash is not decoded. -/
def decodeJSONString (lit : List Char) : List Char :=
  if lit.contains '\\' then unescape (slice lit 1 (lit.length - 1))
  else slice lit 1 (lit.length - 1)

def jsonString (s : List Char) : List Char := '"' :: (escape s ++ ['"'])

/-- A line feed before an opening bracket, and where the bracket is. -/
def opensLine : ℕ → List Char → Option ℕ
  | i, a :: b :: s =>
      if a = '\n' ∧ (b = '{' ∨ b = '[') then some (i + 1) else opensLine (i + 1) (b :: s)
  | _, _ => none

def jsonStart (s : List Char) : Option ℕ :=
  let first := skipSpace s 0
  if s[first]? = some '{' ∨ s[first]? = some '[' then some first else opensLine 0 s

/-- `out` and how far the source has been copied to it. -/
structure JsonRewriter where
  out : List Char
  pos : ℕ

structure JsonMember where
  key : List Char
  keyStart : ℕ
  keyEnd : ℕ
  valueStart : ℕ
  valEnd : ℕ
deriving DecidableEq

section Rewriter
variable (r : Rules) (o : Options) (src : List Char)

def replace (start stop : ℕ) (text : List Char) (w : JsonRewriter) : JsonRewriter :=
  ⟨w.out ++ slice src w.pos start ++ text, stop⟩

/-- Past the comma after a value, and the space around it. -/
def afterValue (stop i : ℕ) : ℕ :=
  let next := skipSpace src i
  if next < stop - 1 ∧ src[next]? = some ',' then skipSpace src (next + 1) else next

/-- The members from `i` on; no result where an index leaves the text. -/
def membersFrom (stop : ℕ) : ℕ → ℕ → Option (List JsonMember)
  | 0, _ => none
  | fuel + 1, i =>
    if i < stop - 1 then do
      let keyEnd ← jsonValueEnd src i
      -- the colon is between the two
      let valueStart := skipSpace src (skipSpace src keyEnd + 1)
      let valEnd ← jsonValueEnd src valueStart
      let ms ← membersFrom stop fuel (afterValue src stop valEnd)
      return ⟨decodeJSONString (slice src i keyEnd), i, keyEnd, valueStart, valEnd⟩ :: ms
    else some []

def members (start stop : ℕ) : Option (List JsonMember) :=
  membersFrom src stop stop (skipSpace src (start + 1))

def elementsFrom (stop : ℕ) : ℕ → ℕ → Option (List (ℕ × ℕ))
  | 0, _ => none
  | fuel + 1, i =>
    if i < stop - 1 then do
      let e ← jsonValueEnd src i
      let es ← elementsFrom stop fuel (afterValue src stop e)
      return (i, e) :: es
    else some []

def elements (start stop : ℕ) : Option (List (ℕ × ℕ)) :=
  elementsFrom src stop stop (skipSpace src (start + 1))

def stringOf (start stop : ℕ) : List Char × Bool :=
  if src[start]? = some '"' then (decodeJSONString (slice src start stop), true) else ([], false)

/-- The rules of `Text` on one string. -/
def text (start stop : ℕ) (w : JsonRewriter) : JsonRewriter :=
  let s := decodeJSONString (slice src start stop)
  if r.text o s ≠ s then replace src start stop (jsonString (r.text o s)) w else w

/-- One value of an object that holds a Secret's values. -/
def secretValue (start stop : ℕ) (w : JsonRewriter) : JsonRewriter :=
  let (value, isString) := stringOf src start stop
  if isString && isPlaceholderValue value then w
  else replace src start stop ('"' :: (secretPlaceholder ++ ['"'])) w

def secretField (start stop : ℕ) (w : JsonRewriter) : Option JsonRewriter :=
  let raw := slice src start stop
  if raw = "null".toList ∨ raw = ['"', '"'] then some w
  else if raw.head? = some '{' then do
    let ms ← members src start stop
    return ms.foldl (fun w m =>
      secretValue src m.valueStart m.valEnd (text r o src m.keyStart m.keyEnd w)) w
  else some (replace src start stop ('"' :: (secretPlaceholder ++ ['"'])) w)

def memberIsSecretKind (m : JsonMember) : Bool :=
  m.key = "kind".toList && stringOf src m.valueStart m.valEnd = ("Secret".toList, true)

/-- The name of a container's environment entry decides about its value. -/
def envSecretOf (ms : List JsonMember) : List Char :=
  ms.foldl (fun env m =>
    let (value, isString) := stringOf src m.valueStart m.valEnd
    if m.key = "name".toList && isString && o.on "key_name" && r.keyIsSensitive value then value
    else env) []

mutual

def value : ℕ → Bool → ℕ → ℕ → JsonRewriter → Option JsonRewriter
  | 0, _, _, _, _ => none
  | fuel + 1, secret, start, stop, w =>
    if src[start]? = some '{' then object fuel secret start stop w
    else if src[start]? = some '[' then do
      let es ← elements src start stop
      es.foldlM (fun w e => value fuel secret e.1 e.2 w) w
    else if src[start]? = some '"' then some (text r o src start stop w)
    else some w

def object : ℕ → Bool → ℕ → ℕ → JsonRewriter → Option JsonRewriter
  | 0, _, _, _, _ => none
  | fuel + 1, secret, start, stop, w => do
    let ms ← members src start stop
    let secret := secret || ms.any (memberIsSecretKind src)
    ms.foldlM (fun w m => member fuel secret (envSecretOf r o src ms) m.key m.valueStart m.valEnd
      (text r o src m.keyStart m.keyEnd w)) w

/-- The value of a member whose key has been written. -/
def member : ℕ → Bool → List Char → List Char → ℕ → ℕ → JsonRewriter → Option JsonRewriter
  | 0, _, _, _, _, _, _ => none
  | fuel + 1, secret, envSecret, key, start, stop, w =>
    let (val, isString) := stringOf src start stop
    let isNumber := src[start]?.any startsNumber
    if secret && secretValueFields.contains key then secretField r o src start stop w
    else if secret && key = lastAppliedName && !isPlaceholderValue val then
      some (replace src start stop ('"' :: (secretPlaceholder ++ ['"'])) w)
    else if o.on "key_name" && r.holdsCredential key val isString isNumber then
      some (replace src start stop (jsonString (keyPlaceholder key)) w)
    else if key = "value".toList && envSecret ≠ [] &&
        r.holdsCredential envSecret val isString isNumber then
      some (replace src start stop (jsonString (keyPlaceholder envSecret)) w)
    else if o.on "key_name" && src[start]? = some '[' && r.keyIsSensitive key then
      credentialList fuel secret key start stop w
    else value fuel secret start stop w

/-- Each item of a list under a credential's key. -/
def credentialList : ℕ → Bool → List Char → ℕ → ℕ → JsonRewriter → Option JsonRewriter
  | 0, _, _, _, _, _ => none
  | fuel + 1, secret, key, start, stop, w => do
    let es ← elements src start stop
    es.foldlM (fun w e =>
      let (val, isString) := stringOf src e.1 e.2
      if r.holdsCredential key val isString (src[e.1]?.any startsNumber) then
        some (replace src e.1 e.2 (jsonString (keyPlaceholder key)) w)
      else value fuel secret e.1 e.2 w) w

end

/-- The redacted text, if it is a JSON object or array after lines of other text. -/
def json (s : List Char) : Option (List Char) := do
  let start ← jsonStart s
  if valid (s.drop start) then do
    -- the rules on personal data run once over the whole text
    let each := { o with pii := false }
    let stop ← jsonValueEnd s start
    let w ← value r each s (4 * s.length) false start stop ⟨[], 0⟩
    let out := w.out ++ s.drop w.pos
    return r.text o (s.take start) ++ r.redactPII o (out.drop start)
  else none

end Rewriter

end Kubeast.Redact

/-! What the redaction of a JSON text may change: a relation between the tree that it reads and the
tree that it writes. -/
namespace Kubeast.Redact
open Json

section Pieces

def IsPlaceholder (v : Node Char) : Prop :=
  ∃ b : Body Char, v = .str b ∧ isPlaceholderValue b.decoded = true

/-- The space after a value stays, unless a number or a word was replaced: spaces and tabs right
after it may go with it. -/
def KeepsSpace (v v' : Node Char) (post post' : Space Char) : Prop :=
  post' = post ∨ v.isScalar = true ∧ IsPlaceholder v' ∧
    ∃ blanks, post.text = blanks ++ post'.text ∧ ∀ c ∈ blanks, c = ' ' ∨ c = '\t'

/-- The same elements in the same order, each value related to the one in its place. -/
inductive ElemsRewrite (P : Node Char → Node Char → Prop) : Elems Char → Elems Char → Prop
  | one {pre v v' post post'} (hv : P v v') (hpost : KeepsSpace v v' post post') :
      ElemsRewrite P (.one pre v post) (.one pre v' post')
  | cons {pre v v' post post' rest rest'} (hv : P v v') (hpost : KeepsSpace v v' post post')
      (hrest : ElemsRewrite P rest rest') :
      ElemsRewrite P (.cons pre v post rest) (.cons pre v' post' rest')

/-- The same members in the same order, with the rules applied to the keys. -/
inductive MembersRewrite (T : List Char → List Char)
    (P : Body Char → Node Char → Node Char → Prop) : Members Char → Members Char → Prop
  | one {pre key key' mid mid' v v' post post'} (hkey : key'.decoded = T key.decoded)
      (hv : P key v v') (hpost : KeepsSpace v v' post post') :
      MembersRewrite T P (.one pre key mid mid' v post) (.one pre key' mid mid' v' post')
  | cons {pre key key' mid mid' v v' post post' rest rest'}
      (hkey : key'.decoded = T key.decoded) (hv : P key v v')
      (hpost : KeepsSpace v v' post post') (hrest : MembersRewrite T P rest rest') :
      MembersRewrite T P (.cons pre key mid mid' v post rest)
        (.cons pre key' mid mid' v' post' rest')

theorem ElemsRewrite.depth_le {P : Node Char → Node Char → Prop}
    (h : ∀ v v', P v v' → v'.depth ≤ v.depth) {es es' : Elems Char} (hes : ElemsRewrite P es es') :
    es'.depth ≤ es.depth := by
  induction hes with
  | one hv _ => exact h _ _ hv
  | cons hv _ _ ih => exact max_le_max (h _ _ hv) ih

theorem MembersRewrite.depth_le {T : List Char → List Char}
    {P : Body Char → Node Char → Node Char → Prop} (h : ∀ key v v', P key v v' → v'.depth ≤ v.depth)
    {ms ms' : Members Char} (hms : MembersRewrite T P ms ms') : ms'.depth ≤ ms.depth := by
  induction hms with
  | one _ hv _ => exact h _ _ _ hv
  | cons _ hv _ _ ih => exact max_le_max (h _ _ _ hv) ih

theorem IsPlaceholder.depth {v : Node Char} (h : IsPlaceholder v) : v.depth = 0 := by
  obtain ⟨b, rfl, -⟩ := h
  rfl

end Pieces

section Masked

/-- The keys and values of an object. -/
def pairs : Members Char → List (Body Char × Node Char)
  | .one _ key _ _ v _ => [(key, v)]
  | .cons _ key _ _ v _ rest => (key, v) :: pairs rest

def values : Elems Char → List (Node Char)
  | .one _ v _ => [v]
  | .cons _ v _ rest => v :: values rest

/-- The string that a value is, as the rewriter asks for it. -/
def nodeString : Node Char → List Char × Bool
  | .str b => (b.decoded, true)
  | _ => ([], false)

def isSecretKind (p : Body Char × Node Char) : Bool :=
  p.1.decoded = "kind".toList && nodeString p.2 = ("Secret".toList, true)

def hasSecretKind (ms : Members Char) : Bool := (pairs ms).any isSecretKind

def isLeaf : Node Char → Bool
  | .scalar _ | .str _ => true
  | _ => false

variable (T : List Char → List Char)

/-- A field that holds a Secret's values: each value of an object is a placeholder, anything else
is one as a whole, save `null` and the empty string. -/
inductive MaskedField : Node Char → Node Char → Prop
  | kept {v} (h : v.text = "null".toList ∨ v.text = ['"', '"']) : MaskedField v v
  | emptyObj (ws) : MaskedField (.emptyObj ws) (.emptyObj ws)
  | obj {ms ms'} (h : MembersRewrite T (fun _ _ v' => IsPlaceholder v') ms ms') :
      MaskedField (.obj ms) (.obj ms')
  | whole {v v'} (hv : ∀ ms, v ≠ .obj ms) (h : IsPlaceholder v') : MaskedField v v'

mutual

/-- A value, under a Secret or not, and what is written for it. -/
inductive Masked : Bool → Node Char → Node Char → Prop
  | scalar {secret} (t) : Masked secret (.scalar t) (.scalar t)
  | str {secret b b'} (h : b'.decoded = T b.decoded) : Masked secret (.str b) (.str b')
  | hidden {secret v v'} (hv : isLeaf v = true) (h : IsPlaceholder v') : Masked secret v v'
  | emptyArr {secret} (ws) : Masked secret (.emptyArr ws) (.emptyArr ws)
  | arr {secret es es' P} (h : ElemsRewrite P es es') (hP : ∀ v v', P v v' → Masked secret v v') :
      Masked secret (.arr es) (.arr es')
  | emptyObj {secret} (ws) : Masked secret (.emptyObj ws) (.emptyObj ws)
  | obj {secret ms ms' P} (h : MembersRewrite T P ms ms')
      (hP : ∀ key v v', P key v v' → MaskedMember (secret || hasSecretKind ms) key v v') :
      Masked secret (.obj ms) (.obj ms')

/-- The value of a member, and what is written for it. -/
inductive MaskedMember : Bool → Body Char → Node Char → Node Char → Prop
  | field {key v v'} (hkey : key.decoded ∈ secretValueFields) (h : MaskedField T v v') :
      MaskedMember true key v v'
  | lastApplied {key v v'} (hkey : key.decoded = lastAppliedName) (h : IsPlaceholder v') :
      MaskedMember true key v v'
  | other {secret key v v'} (hfield : secret = true → key.decoded ∉ secretValueFields)
      (hlast : secret = true → key.decoded = lastAppliedName → IsPlaceholder v)
      (h : Masked secret v v') : MaskedMember secret key v v'

end

end Masked

end Kubeast.Redact
