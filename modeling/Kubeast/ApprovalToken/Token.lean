import Kubeast.Foundation.JsonDumps
import Kubeast.Foundation.Text
import Kubeast.Foundation.Base64
import Mathlib.Data.Bool.AllAny

/-! The text both services hash for the arguments of a write tool: `canonicalArgs`
(`tool-server/approval_token.go`) and `canonical_args` (`ai-service/app/services/approval_token.py`). -/
namespace Kubeast.ApprovalToken
open Json Sorted Text

/-- The arguments of a call: an object, no part of which holds a key twice. -/
structure Args where
  members : List (String × Data)
  distinct : (Data.obj members).Distinct

/-- What is left without the routing key. -/
def withoutCluster (ms : List (String × Data)) : List (String × Data) := ms.filter fun m => m.1 ≠ "cluster"

/-- `canonical_args`. -/
def canonicalArgsPy (args : Args) : List Char := (Data.obj (withoutCluster args.members)).dumps ⟨true, true, true⟩

def writeCanonicalRune (c : Char) : List Char :=
  if c = '"' then ['\\', '"']
  else if c = '\\' then ['\\', '\\']
  else if c = '\x08' then ['\\', 'b']
  else if c = '\x0c' then ['\\', 'f']
  else if c = '\n' then ['\\', 'n']
  else if c = '\r' then ['\\', 'r']
  else if c = '\t' then ['\\', 't']
  else if 0x20 ≤ c.toNat ∧ c.toNat ≤ 0x7e then [c]
  else if c.toNat > 0xffff then
    unicodeEscape (highSurrogate c.toNat) ++ unicodeEscape (lowSurrogate c.toNat)
  else unicodeEscape c.toNat

def writeCanonicalString (s : String) : List Char :=
  '"' :: (s.toList.flatMap writeCanonicalRune ++ ['"'])

/-- The text of a key in what has been written of a map. -/
def writtenFor (written : List (String × List Char)) (k : String) : List Char :=
  ((written.find? fun m => m.1 = k).map Prod.snd).getD []

mutual

/-- A decoder with `UseNumber` gives no other kinds of values. The values of a map are written
and then put in the order of the keys. -/
def writeCanonical : Data → List Char
  | .null => nullText
  | .bool b => boolText b
  | .num n => n.text
  | .str s => writeCanonicalString s
  | .arr items => '[' :: ([','].intercalate (writeItems items) ++ [']'])
  | .obj ms =>
      '{' :: ([','].intercalate ((sortStrings ((writeMembers ms).map Prod.fst)).map fun k =>
        writeCanonicalString k ++ ':' :: writtenFor (writeMembers ms) k) ++ ['}'])

def writeItems : List Data → List (List Char)
  | [] => []
  | d :: ds => writeCanonical d :: writeItems ds

def writeMembers : List (String × Data) → List (String × List Char)
  | [] => []
  | (k, d) :: ms => (k, writeCanonical d) :: writeMembers ms

end

/-- `canonicalArgs`. -/
def canonicalArgs (args : Args) : List Char := writeCanonical (.obj (withoutCluster args.members))

section Strings

theorem writeCanonicalRune_eq (c : Char) : writeCanonicalRune c = dumpsChar true c := by
  unfold writeCanonicalRune dumpsChar
  by_cases h₁ : c = '"'
  · rw [if_pos h₁, if_pos h₁]
  by_cases h₂ : c = '\\'
  · rw [if_neg h₁, if_neg h₁, if_pos h₂, if_pos h₂]
  by_cases h₃ : c ∈ ['\x08', '\x0c', '\n', '\r', '\t']
  · simp only [List.mem_cons, List.not_mem_nil, or_false] at h₃
    rcases h₃ with rfl | rfl | rfl | rfl | rfl <;> rfl
  · simp only [List.mem_cons, List.not_mem_nil, or_false, not_or] at h₃
    simp only [h₁, h₂, h₃, if_false, true_and]
    split_ifs with h₄ h₅ h₆ h₇ h₈ <;> first | rfl | omega

theorem writeCanonicalString_eq (s : String) : writeCanonicalString s = dumpsString true s := by
  have hrune : writeCanonicalRune = dumpsChar true := funext writeCanonicalRune_eq
  rw [writeCanonicalString, hrune]
  rfl

end Strings

section Agreement
variable {ms : List (String × Data)} {d : Data}

theorem writeItems_eq (ds : List Data) : writeItems ds = ds.map writeCanonical := by
  induction ds with
  | nil => rfl
  | cons d ds ih => rw [writeItems, ih, List.map_cons]

theorem writeMembers_eq (ms : List (String × Data)) :
    writeMembers ms = ms.map fun m => (m.1, writeCanonical m.2) := by
  induction ms with
  | nil => rfl
  | cons m ms ih => rw [writeMembers, ih, List.map_cons]

theorem writtenFor_of_mem {written : List (String × List Char)} {m : String × List Char}
    (hkeys : (written.map Prod.fst).Nodup) (hm : m ∈ written) : writtenFor written m.1 = m.2 := by
  have hfind : written.find? (fun n => n.1 = m.1) = some m := by
    cases hfind : written.find? (fun n => n.1 = m.1) with
    | none =>
      have hnone := List.find?_eq_none.mp hfind m hm
      simp at hnone
    | some n =>
      have hkey : n.1 = m.1 := by simpa using List.find?_some hfind
      exact congrArg some (List.inj_on_of_nodup_map hkeys (List.mem_of_find?_eq_some hfind) hm hkey)
  rw [writtenFor, hfind]
  rfl

/-- Looking the sorted keys up gives the members sorted by key. -/
theorem map_sortStrings {β : Type*} {written : List (String × List Char)}
    (hkeys : (written.map Prod.fst).Nodup) (f : String → List Char → β) :
    (sortStrings (written.map Prod.fst)).map (fun k => f k (writtenFor written k)) =
      (sortBy Prod.fst written).map fun m => f m.1 m.2 := by
  have hsort : sortStrings (written.map Prod.fst) = (sortBy Prod.fst written).map Prod.fst :=
    (Data.keys_sortBy written).symm
  rw [hsort, List.map_map]
  apply List.map_congr_left
  intro m hm
  show f m.1 (writtenFor written m.1) = f m.1 m.2
  rw [writtenFor_of_mem hkeys (mem_sortBy.mp hm)]

/-- Both services write the same text for a value. -/
theorem writeCanonical_eq (h : d.Distinct) : writeCanonical d = d.dumps ⟨true, true, true⟩ := by
  induction d using Data.nested with
  | null | bool _ | num _ => rfl
  | str s => exact writeCanonicalString_eq s
  | arr items ih =>
    have hitems := Data.distinctItems_iff.mp h
    have htexts : items.map writeCanonical = items.map (Data.dumps ⟨true, true, true⟩) :=
      List.map_congr_left fun d hd => ih d hd (hitems d hd)
    rw [writeCanonical, Data.dumps, writeItems_eq, dumpsItems_eq, htexts]
    rfl
  | obj ms ih =>
    obtain ⟨hkeys, hms⟩ := h
    rw [Data.distinctMembers_iff] at hms
    have htexts : writeMembers ms = dumpsMembers ⟨true, true, true⟩ ms := by
      rw [writeMembers_eq, dumpsMembers_eq]
      exact List.map_congr_left fun m hm => by rw [ih m hm (hms m hm)]
    have hkeys' : ((dumpsMembers ⟨true, true, true⟩ ms).map Prod.fst).Nodup := by
      rw [dumpsMembers_eq, List.map_map]
      exact hkeys
    have hwritten := map_sortStrings hkeys' fun k text => writeCanonicalString k ++ ':' :: text
    rw [writeCanonical, Data.dumps, htexts, hwritten]
    simp only [writeCanonicalString_eq]
    rfl

theorem distinct_withoutCluster (args : Args) : (Data.obj (withoutCluster args.members)).Distinct := by
  obtain ⟨hkeys, hms⟩ := args.distinct
  rw [Data.distinctMembers_iff] at hms
  refine ⟨hkeys.sublist (List.filter_sublist.map _), ?_⟩
  rw [Data.distinctMembers_iff]
  exact fun m hm => hms m (List.mem_of_mem_filter hm)

theorem canonicalArgs_eq (args : Args) : canonicalArgs args = canonicalArgsPy args :=
  writeCanonical_eq (distinct_withoutCluster args)

/-- The same JSON value, but for a member named cluster. -/
def SameArgs (args args' : Args) : Prop :=
  (Data.obj (withoutCluster args.members)).Same (.obj (withoutCluster args'.members))

/-- The text is that of one value. -/
theorem same_of_canonicalArgs {args args' : Args} (h : canonicalArgsPy args = canonicalArgs args') :
    SameArgs args args' := by
  rw [canonicalArgs_eq] at h
  have hsorted := dumps_sortKeys (o := ⟨true, true, true⟩) (.obj (withoutCluster args.members))
  have hsorted' := dumps_sortKeys (o := ⟨true, true, true⟩) (.obj (withoutCluster args'.members))
  apply dumps_injective (o := ⟨false, true, true⟩) rfl (distinct_withoutCluster args).sorted
    (distinct_withoutCluster args').sorted
  exact hsorted.symm.trans (h.trans hsorted')

end Agreement

end Kubeast.ApprovalToken

/-! Approval tokens: `sign` (`ai-service/app/services/approval_token.py`) and `verifyApprovalToken`
(`tool-server/approval_token.go`). A string of Go is its bytes. -/
namespace Kubeast.ApprovalToken
open Json Text Sha256 Utf8 Base64 Fields

/-- `int(time.time())`, of a clock that counts nanoseconds in 64 bits. -/
structure Clock where
  seconds : ℤ
  valid : -2 ^ 63 ≤ 1000000000 * seconds ∧ 1000000000 * seconds < 2 ^ 63

/-- A call of `sign`, and when it is made. -/
structure SignCall where
  approvalId : String
  userId : String
  cluster : String
  tool : String
  args : Args
  time : Clock

/-- No caller gives another lifetime. -/
def ttlSeconds : ℤ := 120

def bar : UInt8 := 0x7c

def dot : UInt8 := 0x2e

def argsDigest (args : Args) : String :=
  Hex.encode (sha256 (bytes (String.ofList (canonicalArgsPy args))))

/-- The MAC of a text in hexadecimal. -/
def signature (key text : Bytes) : Bytes := bytes (Hex.encode (hmac key text))

namespace SignCall

def exp (c : SignCall) : ℤ := c.time.seconds + ttlSeconds

def fields (c : SignCall) : List String :=
  [c.approvalId, c.userId, c.cluster, c.tool, argsDigest c.args, toString c.exp]

def payload (c : SignCall) : String := "|".intercalate c.fields

def b64 (c : SignCall) : Bytes := rstrip (urlsafeB64encode (bytes c.payload))

end SignCall

def sign (key : String) (c : SignCall) : Except String Bytes :=
  if key = "" then .error "AI_APPROVAL_SECRET is not configured"
  else .ok (c.b64 ++ dot :: signature (bytes key) c.b64)

def refused (detail : String) : Except String Unit := .error ("approval token: " ++ detail)

/-- `strconv.ParseInt(s, 10, 64)`. -/
def parseInt (s : Bytes) : Option ℤ := atoi (String.ofList (s.map fun b => Char.ofNat b.toNat))

/-- What `verifyApprovalToken` checks once the payload is decoded. -/
def checkFields (fields : List Bytes) (approvalId userId cluster tool : Bytes) (args : Args)
    (now : ℤ) : Except String Unit :=
  match fields with
  | [f₀, f₁, f₂, f₃, f₄, f₅] =>
      match parseInt f₅ with
      | none => refused "expired"
      | some exp =>
          if now > exp then refused "expired"
          else if f₀ ≠ approvalId then refused "approval id mismatch"
          else if f₁ ≠ userId then refused "user mismatch"
          else if f₂ ≠ cluster then refused "cluster mismatch"
          else if f₃ ≠ tool then refused "tool mismatch"
          else if f₄ ≠ bytes (Hex.encode (sha256 (bytes (String.ofList (canonicalArgs args))))) then
            refused "arguments differ from the approved ones"
          else .ok ()
  | _ => refused "malformed payload"

def verifyApprovalToken (secret token approvalId userId cluster tool : Bytes) (args : Args)
    (now : ℤ) : Except String Unit :=
  if secret = [] then refused "verification is not configured (AI_APPROVAL_SECRET)"
  else match splitLast dot token with
    | none => refused "malformed"
    | some (payloadB64, sig) =>
        if payloadB64 = [] ∨ sig = [] then refused "malformed"
        else if signature secret payloadB64 ≠ sig then refused "bad signature"
        else match decodeRaw payloadB64 with
          | none => refused "malformed payload"
          | some raw => checkFields (raw.splitOn bar) approvalId userId cluster tool args now

section Texts
variable {c : SignCall}

theorem digit_ascii (n : ℕ) : (Hex.digit n).toNat < 0x80 ∧ Hex.digit n ≠ '|' ∧ Hex.digit n ≠ '.' := by
  have hall : ∀ d ∈ '0' :: "0123456789abcdef".toList, d.toNat < 0x80 ∧ d ≠ '|' ∧ d ≠ '.' :=
    List.all_iff_forall_prop.mp (by decide)
  apply hall
  unfold Hex.digit
  rw [List.getD_eq_getElem?_getD]
  cases h : "0123456789abcdef".toList[n]? with
  | none => exact List.mem_cons_self
  | some d => exact List.mem_cons_of_mem _ (List.mem_of_getElem? h)

theorem mem_hexEncode {d : Char} {m : Bytes} (h : d ∈ (Hex.encode m).toList) :
    d.toNat < 0x80 ∧ d ≠ '|' ∧ d ≠ '.' := by
  rw [Hex.encode, String.toList_ofList, List.mem_flatMap] at h
  obtain ⟨x, -, hd⟩ := h
  simp only [List.mem_cons, List.not_mem_nil, or_false] at hd
  rcases hd with rfl | rfl <;> exact digit_ascii _

theorem notMem_signature (key text : Bytes) : dot ∉ signature key text :=
  notMem_bytes (c := '.') (by decide) fun h => (mem_hexEncode h).2.2 rfl

theorem hexEncode_ne_nil {m : Bytes} (h : m ≠ []) : bytes (Hex.encode m) ≠ [] := by
  intro hnil
  have hempty : Hex.encode m = "" := bytes_injective hnil
  have hlist := congrArg String.toList hempty
  rw [Hex.encode, String.toList_ofList] at hlist
  cases m with
  | nil => exact h rfl
  | cons x m => simp at hlist

theorem signature_ne_nil (key text : Bytes) : signature key text ≠ [] := by
  apply hexEncode_ne_nil
  intro hnil
  have hlen := congrArg List.length hnil
  unfold hmac at hlen
  rw [length_sha256] at hlen
  cases hlen

/-- The characters of a number that is written. -/
theorem mem_toString {z : ℤ} {d : Char} (h : d ∈ (toString z).toList) :
    d.toNat < 0x80 ∧ d ≠ '|' := by
  have hdigit (n : ℕ) (hd : d ∈ Nat.toDigits 10 n) : d.toNat < 0x80 ∧ d ≠ '|' := by
    have hd := isDigit_toDigits hd
    have hrange : '0'.toNat ≤ d.toNat ∧ d.toNat ≤ '9'.toNat := by
      simpa [Char.isDigit, Char.le_def, UInt32.le_iff_toNat_le] using hd
    have hnine : '9'.toNat = 57 := rfl
    refine ⟨by omega, ?_⟩
    rintro rfl
    exact absurd hd (by decide)
  cases z with
  | ofNat n => exact hdigit n (Nat.toList_repr ▸ h)
  | negSucc n =>
    have htext : (toString (Int.negSucc n)).toList = '-' :: Nat.toDigits 10 (n + 1) := by
      show ("-" ++ (n + 1).repr).toList = _
      rw [String.toList_append, Nat.toList_repr]
      rfl
    rw [htext] at h
    rcases List.mem_cons.mp h with rfl | h
    · decide
    · exact hdigit _ h

theorem bytes_intercalate (fields : List String) :
    bytes ("|".intercalate fields) = [bar].intercalate (fields.map bytes) := by
  induction fields with
  | nil => rfl
  | cons f fields ih =>
    cases fields with
    | nil => simp
    | cons g fields =>
      rw [String.intercalate_cons_cons, bytes_append, bytes_append, ih, List.map_cons,
        List.map_cons, List.map_cons, List.intercalate_cons_cons]
      rfl

theorem parseInt_toString {z : ℤ} (h : -2 ^ 63 ≤ z ∧ z < 2 ^ 63) :
    parseInt (bytes (toString z)) = some z := by
  have hascii : ∀ d ∈ (toString z).toList, d.toNat < 0x80 := fun d hd => (mem_toString hd).1
  have hback : ((toString z).toList.map fun d => UInt8.ofNat d.toNat).map
      (fun b => Char.ofNat b.toNat) = (toString z).toList := by
    rw [List.map_map]
    conv_rhs => rw [← List.map_id' (toString z).toList]
    apply List.map_congr_left
    intro d hd
    have hlt := hascii d hd
    have hbyte : (UInt8.ofNat d.toNat).toNat = d.toNat := by
      rw [UInt8.toNat_ofNat']
      omega
    show Char.ofNat (UInt8.ofNat d.toNat).toNat = d
    rw [hbyte, Char.ofNat_toNat]
  rw [parseInt, bytes_ascii hascii, hback, String.ofList_toList]
  exact atoi_toString h

end Texts

end Kubeast.ApprovalToken
