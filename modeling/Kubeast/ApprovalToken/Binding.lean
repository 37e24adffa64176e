import Kubeast.ApprovalToken.Token

/-! An approval is for one call: what is signed is accepted, and what is accepted was signed. -/
namespace Kubeast.ApprovalToken
open Json Sha256 Utf8 Base64 Fields

def SignCall.names (c : SignCall) : List String := [c.approvalId, c.userId, c.cluster, c.tool]

/-- What is hashed for the arguments of a call. -/
def argsText (args : Args) : Bytes := bytes (String.ofList (canonicalArgsPy args))

/-- A text that comes with its MAC is one of those that were signed. -/
def Unforged (calls : List SignCall) (secret token : Bytes) : Prop :=
  ∀ text mac, splitLast dot token = some (text, mac) → mac = signature secret text →
    ∃ c ∈ calls, text = c.b64

/-- Arguments that were signed and others with the same hash have the same text. -/
def NoCollision (calls : List SignCall) (args : Args) : Prop :=
  ∀ c ∈ calls, sha256 (argsText c.args) = sha256 (argsText args) →
    argsText c.args = argsText args

section Signing
variable {c : SignCall} {key : String} {token : Bytes}

theorem SignCall.b64_eq (c : SignCall) : c.b64 = encodeRaw (bytes c.payload) :=
  rstrip_urlsafeB64encode _

theorem SignCall.b64_ne_nil (c : SignCall) : c.b64 ≠ [] := by
  rw [c.b64_eq]
  apply encodeRaw_ne_nil
  rw [SignCall.payload, bytes_intercalate]
  intro hnil
  have hlen := congrArg List.length hnil
  simp [SignCall.fields, List.intercalate_cons_cons] at hlen

/-- A signed token falls apart into what was signed and its MAC. -/
theorem splitLast_signed (key text : Bytes) :
    splitLast dot (text ++ dot :: signature key text) = some (text, signature key text) :=
  splitLast_append (notMem_signature key text)

theorem SignCall.exp_range (c : SignCall) : -2 ^ 63 ≤ c.exp ∧ c.exp < 2 ^ 63 := by
  have := c.time.valid
  unfold SignCall.exp ttlSeconds
  omega

theorem notMem_fields (h : ∀ n ∈ c.names, '|' ∉ n.toList) : ∀ f ∈ c.fields.map bytes, bar ∉ f := by
  intro f hf
  obtain ⟨s, hs, rfl⟩ := List.mem_map.mp hf
  apply notMem_bytes (c := '|') (by decide)
  have hfields : c.fields = c.names ++ [argsDigest c.args, toString c.exp] := rfl
  rw [hfields, List.mem_append] at hs
  rcases hs with hs | hs
  · exact h s hs
  · simp only [List.mem_cons, List.not_mem_nil, or_false] at hs
    rcases hs with rfl | rfl
    · exact fun hbar => (mem_hexEncode hbar).2.1 rfl
    · exact fun hbar => (mem_toString hbar).2 rfl

theorem checkFields_signed {now : ℤ} (hnow : now ≤ c.exp) :
    checkFields (c.fields.map bytes) (bytes c.approvalId) (bytes c.userId) (bytes c.cluster)
      (bytes c.tool) c.args now = .ok () := by
  have hparse : parseInt (bytes (toString c.exp)) = some c.exp := parseInt_toString c.exp_range
  simp only [SignCall.fields, List.map_cons, List.map_nil, checkFields, hparse, canonicalArgs_eq,
    argsDigest, ne_eq, not_true_eq_false, if_false]
  rw [if_neg (by omega)]

/-- What is signed is accepted for the call it was signed for. -/
theorem verify_sign {now : ℤ} (hsign : sign key c = .ok token)
    (hbar : ∀ n ∈ c.names, '|' ∉ n.toList) (hnow : now ≤ c.exp) :
    verifyApprovalToken (bytes key) token (bytes c.approvalId) (bytes c.userId) (bytes c.cluster)
      (bytes c.tool) c.args now = .ok () := by
  unfold sign at hsign
  split at hsign
  · cases hsign
  next hkey =>
  obtain rfl := Except.ok.inj hsign
  have hsecret : bytes key ≠ [] := fun h => hkey (bytes_injective h)
  have hraw : decodeRaw c.b64 = some ([bar].intercalate (c.fields.map bytes)) := by
    rw [c.b64_eq, decodeRaw_encodeRaw, SignCall.payload, bytes_intercalate]
  have hsplit : ([bar].intercalate (c.fields.map bytes)).splitOn bar = c.fields.map bytes := by
    apply List.splitOn_intercalate bar _ (by simp [SignCall.fields])
    exact notMem_fields hbar
  simp only [verifyApprovalToken, splitLast_signed, hraw, hsplit, hsecret, c.b64_ne_nil,
    signature_ne_nil, ne_eq, not_true_eq_false, or_self, if_false]
  exact checkFields_signed hnow

end Signing

section Accepting
variable {calls : List SignCall} {secret token approvalId userId cluster tool : Bytes} {args : Args}
  {now : ℤ}

theorem checkFields_ok {fields : List Bytes}
    (h : checkFields fields approvalId userId cluster tool args now = .ok ()) :
    ∃ exp, fields = [approvalId, userId, cluster, tool,
      bytes (Hex.encode (sha256 (bytes (String.ofList (canonicalArgs args))))), exp] := by
  unfold checkFields at h
  split at h
  · next f₀ f₁ f₂ f₃ f₄ f₅ =>
    split at h
    · cases h
    next exp hexp =>
    by_cases hold : now > exp
    · rw [if_pos hold] at h
      cases h
    rw [if_neg hold] at h
    by_cases hsame : f₀ = approvalId ∧ f₁ = userId ∧ f₂ = cluster ∧ f₃ = tool ∧
        f₄ = bytes (Hex.encode (sha256 (bytes (String.ofList (canonicalArgs args)))))
    · obtain ⟨rfl, rfl, rfl, rfl, rfl⟩ := hsame
      exact ⟨f₅, rfl⟩
    · exfalso
      simp only [ne_eq, ite_not] at h
      grind [refused]
  · cases h

/-- A token that is accepted carries its MAC, and its payload passes. -/
theorem verify_ok (h : verifyApprovalToken secret token approvalId userId cluster tool args now = .ok ()) :
    ∃ text raw, splitLast dot token = some (text, signature secret text) ∧ decodeRaw text = some raw ∧
      checkFields (raw.splitOn bar) approvalId userId cluster tool args now = .ok () := by
  unfold verifyApprovalToken at h
  split at h
  · cases h
  split at h
  · cases h
  next text sig hsplit =>
  split at h
  · cases h
  split at h
  · cases h
  next hsig =>
  rw [ne_eq, not_not] at hsig
  split at h
  · cases h
  next raw hraw => exact ⟨text, raw, hsig ▸ hsplit, hraw, h⟩

/-- The fields of a payload with six of them are those that were signed. -/
theorem fields_signed {c : SignCall} {fields : List Bytes} {raw : Bytes} (hraw : decodeRaw c.b64 = some raw)
    (hfields : raw.splitOn bar = fields) (hlen : fields.length = 6) : fields = c.fields.map bytes := by
  rw [c.b64_eq, decodeRaw_encodeRaw, SignCall.payload, bytes_intercalate, Option.some_inj] at hraw
  subst hraw
  rw [← hfields]
  apply splitOn_intercalate_of_length (by simp [SignCall.fields])
  rw [hfields, hlen]
  rfl

/-- What is accepted was signed for the same names and the same arguments. -/
theorem signed_of_verify (hmac : Unforged calls secret token) (hfree : NoCollision calls args)
    (h : verifyApprovalToken secret token approvalId userId cluster tool args now = .ok ()) :
    ∃ c ∈ calls, c.names.map bytes = [approvalId, userId, cluster, tool] ∧ SameArgs c.args args := by
  obtain ⟨text, raw, hsplit, hraw, hcheck⟩ := verify_ok h
  obtain ⟨c, hc, htext⟩ := hmac text _ hsplit rfl
  obtain ⟨exp, hfields⟩ := checkFields_ok hcheck
  rw [htext] at hraw
  have hsigned := fields_signed hraw hfields rfl
  simp only [SignCall.fields, List.map_cons, List.map_nil, List.cons.injEq, and_true] at hsigned
  obtain ⟨rfl, rfl, rfl, rfl, hdigest, -⟩ := hsigned
  refine ⟨c, hc, rfl, ?_⟩
  have hhex : Hex.encode (sha256 (bytes (String.ofList (canonicalArgs args)))) = argsDigest c.args :=
    bytes_injective hdigest
  have hhash : sha256 (argsText c.args) = sha256 (argsText args) := by
    have hdecode := congrArg Hex.decode hhex
    rw [argsDigest, Hex.decode_encode, Hex.decode_encode, canonicalArgs_eq] at hdecode
    exact hdecode.symm
  have htext : String.ofList (canonicalArgsPy c.args) = String.ofList (canonicalArgsPy args) :=
    bytes_injective (hfree c hc hhash)
  apply same_of_canonicalArgs
  rw [canonicalArgs_eq]
  exact String.ofList_injective htext

end Accepting

section OneCall

/-- Agreement and binding. Texts are decoded for arguments nested at most as deep as the decoder
goes. -/
theorem approval_is_for_one_call (key : String) {o : DumpsOptions} (ho : o.sortKeys = false) :
    (∀ args : Args, (Data.obj args.members).depth ≤ maxNestingDepth →
      decode ((Data.obj args.members).dumps o) = some (.obj args.members) ∧
        canonicalArgs args = canonicalArgsPy args) ∧
      (∀ (c : SignCall) (token : Bytes) (now : ℤ), sign key c = .ok token →
        (∀ n ∈ c.names, '|' ∉ n.toList) → now ≤ c.exp →
          verifyApprovalToken (bytes key) token (bytes c.approvalId) (bytes c.userId)
            (bytes c.cluster) (bytes c.tool) c.args now = .ok ()) ∧
      ∀ (calls : List SignCall) (token approvalId userId cluster tool : Bytes) (args : Args) (now : ℤ),
        Unforged calls (bytes key) token → NoCollision calls args →
          verifyApprovalToken (bytes key) token approvalId userId cluster tool args now = .ok () →
            ∃ c ∈ calls, c.names.map bytes = [approvalId, userId, cluster, tool] ∧
              SameArgs c.args args := by
  refine ⟨fun args hdepth => ⟨?_, canonicalArgs_eq args⟩, fun c token now => verify_sign, ?_⟩
  · rw [decode_dumps ho args.distinct, if_pos hdepth]
  · exact fun calls token approvalId userId cluster tool args now => signed_of_verify

def scaleCall : SignCall where
  approvalId := "ap1"
  userId := "u1"
  cluster := "prod"
  tool := "k8s_scale"
  args := ⟨[("replicas", .num ⟨"3".toList, by decide⟩), ("cluster", .str "prod")], by
    simp [Data.Distinct, Data.DistinctMembers]⟩
  time := ⟨1700000000, by decide⟩

/-- The token of a call is accepted for its arguments, and was signed for them. -/
theorem approval_is_for_one_call_scale :
    (∃ token, sign "s3cret" scaleCall = .ok token ∧
      verifyApprovalToken (bytes "s3cret") token (bytes "ap1") (bytes "u1") (bytes "prod")
        (bytes "k8s_scale") scaleCall.args 1700000100 = .ok ()) ∧
      ∃ c ∈ [scaleCall], c.names.map bytes = [bytes "ap1", bytes "u1", bytes "prod", bytes "k8s_scale"] ∧
        SameArgs c.args scaleCall.args := by
  obtain ⟨-, haccept, hbind⟩ := approval_is_for_one_call "s3cret" (o := ⟨false, true, true⟩) rfl
  have hsign : sign "s3cret" scaleCall = .ok (scaleCall.b64 ++
      dot :: signature (bytes "s3cret") scaleCall.b64) := by
    rw [sign, if_neg (by decide)]
  have hnames : ∀ n ∈ scaleCall.names, '|' ∉ n.toList := by
    simp [SignCall.names, scaleCall]
  have hexp : scaleCall.exp = 1700000000 + 120 := rfl
  have hok := haccept scaleCall _ 1700000100 hsign hnames (by rw [hexp]; omega)
  refine ⟨⟨_, hsign, hok⟩, hbind [scaleCall] _ _ _ _ _ _ _ ?_ ?_ hok⟩
  · intro text mac hsplit _
    rw [splitLast_signed] at hsplit
    obtain ⟨htext, -⟩ := Prod.mk.inj (Option.some.inj hsplit)
    exact ⟨scaleCall, List.mem_singleton_self _, htext.symm⟩
  · intro c hc _
    obtain rfl := List.mem_singleton.mp hc
    rfl

def nestedLists : ℕ → Data
  | 0 => .null
  | n + 1 => .arr [nestedLists n]

theorem nestedLists_depth (n : ℕ) : (nestedLists n).depth = n := by
  induction n with
  | zero => rfl
  | succ n ih => simp [nestedLists, Data.depth, Data.depthItems, ih]

theorem nestedLists_distinct (n : ℕ) : (nestedLists n).Distinct := by
  induction n with
  | zero => trivial
  | succ n ih => exact ⟨ih, trivial⟩

def nestedArgs (n : ℕ) : Args := ⟨[("spec", nestedLists n)], by
  simp [Data.Distinct, Data.DistinctMembers, nestedLists_distinct]⟩

theorem nestedArgs_depth (n : ℕ) : (Data.obj (nestedArgs n).members).depth = n + 1 := by
  simp [nestedArgs, Data.depth, Data.depthMembers, nestedLists_depth]

theorem decode_nestedArgs {n : ℕ} (h : maxNestingDepth ≤ n) :
    decode ((Data.obj (nestedArgs n).members).dumps ⟨false, true, true⟩) = none := by
  rw [decode_dumps rfl (nestedArgs n).distinct, nestedArgs_depth, if_neg (by omega)]

/-- One list more than the decoder goes into: the text that was written is refused. -/
theorem deep_args_not_decoded : ¬∃ args : Args,
    decode ((Data.obj (nestedArgs 10000).members).dumps ⟨false, true, true⟩) = some (.obj args.members) ∧
      canonicalArgs args = canonicalArgsPy (nestedArgs 10000) := by
  rintro ⟨args, hdecode, -⟩
  have hnone := decode_nestedArgs (show maxNestingDepth ≤ 10000 from le_refl _)
  rw [hnone] at hdecode
  cases hdecode

end OneCall

end Kubeast.ApprovalToken
