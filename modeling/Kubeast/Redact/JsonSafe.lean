import Kubeast.Redact.Rewriter
import Mathlib.Data.Bool.AllAny

/-! The redaction of a JSON text rewrites keys and values, and its result is a JSON text. -/
namespace Kubeast.Redact
open Symbols Json

section Fields
variable {r : Rules} {o : Options} {src : List Char}

/-- What is shown of the rewriting of a value. -/
def Safe (T : List Char → List Char) (secret : Bool) (v v' : Node Char) : Prop :=
  Masked T secret v v' ∧ v'.depth ≤ v.depth

def SafeField (T : List Char → List Char) (v v' : Node Char) : Prop :=
  MaskedField T v v' ∧ v'.depth ≤ v.depth

def SafeMember (T : List Char → List Char) (secret : Bool) (key : Body Char) (v v' : Node Char) :
    Prop :=
  MaskedMember T secret key v v' ∧ v'.depth ≤ v.depth

theorem IsPlaceholder.depth_le {v' : Node Char} (h : IsPlaceholder v') (v : Node Char) :
    v'.depth ≤ v.depth := by
  rw [h.depth]
  exact Nat.zero_le _

theorem isPlaceholder_of_nodeString {v : Node Char} (h : isPlaceholderValue (nodeString v).1 = true) :
    IsPlaceholder v := by
  have hnil : isPlaceholderValue [] = false := by decide
  cases v with
  | str b => exact ⟨b, rfl, h⟩
  | scalar t => cases hnil.symm.trans h
  | emptyArr ws => cases hnil.symm.trans h
  | arr es => cases hnil.symm.trans h
  | emptyObj ws => cases hnil.symm.trans h
  | obj ms => cases hnil.symm.trans h

theorem jsonString_secretPlaceholder :
    jsonString secretPlaceholder = '"' :: (secretPlaceholder ++ ['"']) :=
  rfl

theorem secretPlaceholder_isPlaceholder : isPlaceholderValue secretPlaceholder = true := by
  decide

theorem keyPlaceholder_isPlaceholder (key : List Char) :
    isPlaceholderValue (keyPlaceholder key) = true := by
  have hcolon : "<REDACTED:".toList = "<REDACTED".toList ++ [':'] := rfl
  unfold isPlaceholderValue keyPlaceholder
  rw [hcolon]
  generalize "<REDACTED".toList = start
  rw [List.isPrefixOf_iff_prefix, List.append_assoc, List.append_assoc]
  exact List.prefix_append _ _

theorem secretValue_runs (v : Node Char) :
    Runs src (fun start stop w => some (secretValue src start stop w))
      (fun _ v' => IsPlaceholder v') v := by
  intro i post w t hslot hw
  unfold secretValue
  dsimp only
  rw [hslot.stringOf]
  split_ifs with hkeep
  · rw [Bool.and_eq_true] at hkeep
    obtain ⟨w', v', post', hrun, rfl, hpost, hw'⟩ := runs_keep v hslot hw
    exact ⟨w', v', post', hrun, isPlaceholder_of_nodeString hkeep.2, hpost, hw'⟩
  · rw [← jsonString_secretPlaceholder]
    exact runs_replace v secretPlaceholder_isPlaceholder hslot hw

theorem trailing_space (v : Node Char) (post : Space Char) :
    ∀ c ∈ trailing v post, isSpaceChar c = true := by
  intro c hc
  apply spaceChars post
  rw [← trailing_append v post]
  exact List.mem_append_left _ hc

/-- A span without spaces is the text of its value. -/
theorem text_of_span {v : Node Char} {post : Space Char} {x : List Char}
    (hx : ∀ c ∈ x, isSpaceChar c = false) (h : v.text ++ trailing v post = x) : v.text = x := by
  have hnil : trailing v post = [] := by
    rw [List.eq_nil_iff_forall_not_mem]
    intro c hc
    have hfalse := hx c (h ▸ List.mem_append_right _ hc)
    rw [trailing_space v post c hc] at hfalse
    cases hfalse
  rwa [hnil, List.append_nil] at h

theorem span_head? (v : Node Char) (post : Space Char) :
    (v.text ++ trailing v post).head? = v.text.head? := by
  obtain ⟨c, s, hs, -⟩ := v.head
  rw [hs]
  rfl

theorem valueStop_obj (i : ℕ) (ms : Members Char) (post : Space Char) :
    valueStop i (.obj ms) post = i + 1 + ms.text.length + 1 := by
  have htrail : trailing (.obj ms) post = [] := rfl
  simp [valueStop, htrail, Node.text]
  omega

theorem valueStop_arr (i : ℕ) (es : Elems Char) (post : Space Char) :
    valueStop i (.arr es) post = i + 1 + es.text.length + 1 := by
  have htrail : trailing (.arr es) post = [] := rfl
  simp [valueStop, htrail, Node.text]
  omega

theorem valueStop_emptyObj (i : ℕ) (ws post : Space Char) :
    valueStop i (.emptyObj ws) post = i + 1 + ws.text.length + 1 := by
  have htrail : trailing (.emptyObj ws) post = [] := rfl
  simp [valueStop, htrail, Node.text]
  omega

theorem valueStop_emptyArr (i : ℕ) (ws post : Space Char) :
    valueStop i (.emptyArr ws) post = i + 1 + ws.text.length + 1 := by
  have htrail : trailing (.emptyArr ws) post = [] := rfl
  simp [valueStop, htrail, Node.text]
  omega

theorem members_emptyObj {i : ℕ} {ws post : Space Char} (h : SlotAt src i (.emptyObj ws) post) :
    members src i (valueStop i (.emptyObj ws) post) = some [] := by
  obtain ⟨rest, -, h⟩ := h
  simp only [Node.text, List.cons_append, List.append_assoc, lit_self] at h
  have hskip := skipSpace_of_drop (drop_succ h) (spaceChars ws) (NotFirst.cons (by decide))
  rw [valueStop_emptyObj, members, hskip, membersFrom, if_neg (by omega)]

theorem elements_emptyArr {i : ℕ} {ws post : Space Char} (h : SlotAt src i (.emptyArr ws) post) :
    elements src i (valueStop i (.emptyArr ws) post) = some [] := by
  obtain ⟨rest, -, h⟩ := h
  simp only [Node.text, List.cons_append, List.append_assoc, lit_self] at h
  have hskip := skipSpace_of_drop (drop_succ h) (spaceChars ws) (NotFirst.cons (by decide))
  rw [valueStop_emptyArr, elements, hskip, elementsFrom, if_neg (by omega)]

/-- A step on the members of an object writes the object. -/
theorem object_run {ms : Members Char} {f : List Char → ℕ → ℕ → JsonRewriter → Option JsonRewriter}
    {P : Body Char → Node Char → Node Char → Prop} {i : ℕ} {post : Space Char} {w : JsonRewriter}
    {t : List Char} (hf : ∀ key v, (key, v) ∈ pairs ms → Runs src (f key.decoded) (P key) v)
    (hslot : SlotAt src i (.obj ms) post) (hw : w.Wrote src i t) :
    members src i (valueStop i (.obj ms) post) = some (memberSpans (i + 1) ms) ∧
    ∃ w' ms', (memberSpans (i + 1) ms).foldlM (fun w m =>
        f m.key m.valueStart m.valEnd (text r o src m.keyStart m.keyEnd w)) w = some w' ∧
      MembersRewrite (r.text o) P ms ms' ∧
      w'.Wrote src (i + (Node.obj ms).text.length + post.text.length)
        (t ++ ((Node.obj ms').text ++ post.text)) := by
  obtain ⟨rest, -, h⟩ := hslot
  simp only [Node.text, List.cons_append, List.append_assoc, lit_self] at h
  have hopen := hw.copy (u := ['{']) h
  have hms := drop_succ h
  refine ⟨members_obj hms (valueStop_obj i ms post), ?_⟩
  obtain ⟨w', ms', hfold, hrel, hw'⟩ := members_run ms hf hms hopen
  refine ⟨w', ms', hfold, hrel, ?_⟩
  have hclose := hw'.copy (u := '}' :: post.text) (drop_add hms)
  simpa [Node.text, Nat.add_assoc, Nat.add_comm 1, Nat.add_comm 2] using hclose

theorem quote_ne_space : ∀ c ∈ ['"', '"'], isSpaceChar c = false :=
  List.all_iff_forall_prop.mp (by decide)

theorem null_ne_space : ∀ c ∈ "null".toList, isSpaceChar c = false :=
  List.all_iff_forall_prop.mp (by decide)

theorem secretField_runs (v : Node Char) :
    Runs src (secretField r o src) (SafeField (r.text o)) v := by
  intro i post w t hslot hw
  unfold secretField
  dsimp only
  rw [hslot.slice, span_head?]
  split_ifs with hraw hopen
  · have hkept : v.text = "null".toList ∨ v.text = ['"', '"'] :=
      hraw.imp (text_of_span null_ne_space) (text_of_span quote_ne_space)
    obtain ⟨w', v', post', hrun, rfl, hpost, hw'⟩ := runs_keep v hslot hw
    exact ⟨w', v', post', hrun, ⟨.kept hkept, le_rfl⟩, hpost, hw'⟩
  · cases v with
    | scalar t' => exact absurd (by rw [hopen]; decide) (scalar_head t')
    | str b => cases hopen
    | emptyArr ws => cases hopen
    | arr es => cases hopen
    | emptyObj ws =>
      obtain ⟨w', v', post', hrun, rfl, hpost, hw'⟩ := runs_keep (.emptyObj ws) hslot hw
      rw [members_emptyObj hslot]
      exact ⟨w', _, post', hrun, ⟨.emptyObj ws, le_rfl⟩, hpost, hw'⟩
    | obj ms =>
      obtain ⟨hms, w', ms', hfold, hrel, hw'⟩ := object_run (r := r) (o := o)
        (f := fun _ start stop w => some (secretValue src start stop w))
        (P := fun _ _ v' => IsPlaceholder v') (fun _ v _ => secretValue_runs v) hslot hw
      rw [hms]
      refine ⟨w', .obj ms', post, ?_, ⟨.obj hrel, ?_⟩, Or.inl rfl, hw'⟩
      · rw [← hfold]
        exact (List.foldlM_pure (m := Option)).symm
      · exact Nat.succ_le_succ (hrel.depth_le fun _ v _ h => h.depth_le v)
  · obtain ⟨w', v', post', hrun, hP, hpost, hw'⟩ :=
      runs_replace v secretPlaceholder_isPlaceholder hslot hw
    rw [jsonString_secretPlaceholder] at hrun
    refine ⟨w', v', post', hrun, ⟨.whole ?_ hP, hP.depth_le v⟩, hpost, hw'⟩
    rintro ms rfl
    exact hopen rfl

/-- A step on the elements of an array writes the array. -/
theorem array_run {es : Elems Char} {f : ℕ → ℕ → JsonRewriter → Option JsonRewriter}
    {P : Node Char → Node Char → Prop} {i : ℕ} {post : Space Char} {w : JsonRewriter}
    {t : List Char} (hf : ∀ v ∈ values es, Runs src f P v)
    (hslot : SlotAt src i (.arr es) post) (hw : w.Wrote src i t) :
    elements src i (valueStop i (.arr es) post) = some (elementSpans (i + 1) es) ∧
    ∃ w' es', (elementSpans (i + 1) es).foldlM (fun w e => f e.1 e.2 w) w = some w' ∧
      ElemsRewrite P es es' ∧
      w'.Wrote src (i + (Node.arr es).text.length + post.text.length)
        (t ++ ((Node.arr es').text ++ post.text)) := by
  obtain ⟨rest, -, h⟩ := hslot
  simp only [Node.text, List.cons_append, List.append_assoc, lit_self] at h
  have hopen := hw.copy (u := ['[']) h
  have hes := drop_succ h
  refine ⟨elements_arr hes (valueStop_arr i es post), ?_⟩
  obtain ⟨w', es', hfold, hrel, hw'⟩ := elements_run es hf hes hopen
  refine ⟨w', es', hfold, hrel, ?_⟩
  have hclose := hw'.copy (u := ']' :: post.text) (drop_add hes)
  simpa [Node.text, Nat.add_assoc, Nat.add_comm 1, Nat.add_comm 2] using hclose

end Fields

section Values
variable {r : Rules} {o : Options} {src : List Char}

theorem memberIsSecretKind_memberAt {i : ℕ} {key : Body Char} {mid mid' : Space Char}
    {v : Node Char} {post : Space Char} {c : Char} {rest : List Char} (hc : c ∈ [',', '}', ']'])
    (h : src.drop i = key.quoted ++ (mid.text ++ ':' :: (mid'.text ++ (v.text ++
      (post.text ++ c :: rest))))) :
    memberIsSecretKind src (memberAt i key mid mid' v post) = isSecretKind (key, v) := by
  obtain ⟨-, -, -, hslot⟩ := member_drops hc h
  unfold memberIsSecretKind isSecretKind memberAt
  dsimp only
  rw [hslot.stringOf]

/-- The kind is found wherever it stands among the members. -/
theorem any_secretKind : ∀ (ms : Members Char) {i : ℕ} {rest : List Char},
    src.drop i = ms.text ++ '}' :: rest →
    (memberSpans i ms).any (memberIsSecretKind src) = hasSecretKind ms
  | .one pre key mid mid' v post, i, rest, h => by
    simp only [Members.text, List.append_assoc, List.cons_append, lit_self] at h
    rw [memberSpans, List.any_cons, memberIsSecretKind_memberAt (by simp) (drop_add h)]
    rfl
  | .cons pre key mid mid' v post ms, i, rest, h => by
    simp only [Members.text, List.append_assoc, List.cons_append, lit_self] at h
    have hms := any_secretKind ms (drop_succ (member_after (drop_add h)))
    rw [memberSpans, List.any_cons, memberIsSecretKind_memberAt (by simp) (drop_add h), hms]
    rfl

theorem fuel_of_mem_values : ∀ {es : Elems Char} {v : Node Char}, v ∈ values es → v.fuel < es.fuel
  | .one _ v _, _, h => by
    simp only [values, List.mem_singleton] at h
    simp [h, Elems.fuel]
  | .cons _ v _ rest, _, h => by
    simp only [values, List.mem_cons] at h
    simp only [Elems.fuel]
    rcases h with rfl | h
    · omega
    · have hrest := fuel_of_mem_values h
      omega

theorem fuel_of_mem_pairs : ∀ {ms : Members Char} {key : Body Char} {v : Node Char},
    (key, v) ∈ pairs ms → v.fuel < ms.fuel
  | .one _ _ _ _ v _, _, _, h => by
    simp only [pairs, List.mem_singleton, Prod.mk.injEq] at h
    simp [h.2, Members.fuel]
  | .cons _ _ _ _ v _ rest, _, _, h => by
    simp only [pairs, List.mem_cons, Prod.mk.injEq] at h
    simp only [Members.fuel]
    rcases h with ⟨-, rfl⟩ | h
    · omega
    · have hrest := fuel_of_mem_pairs h
      omega

/-- Only strings and numbers are credentials by their key. -/
theorem holdsCredential_isLeaf {key : List Char} {v : Node Char}
    (h : r.holdsCredential key (nodeString v).1 (nodeString v).2
      (v.text.head?.any startsNumber) = true) : isLeaf v = true := by
  unfold Rules.holdsCredential at h
  cases v with
  | scalar t => rfl
  | str b => rfl
  | emptyArr ws => simp [nodeString, Node.text, startsNumber, isDigitChar] at h
  | arr es => simp [nodeString, Node.text, startsNumber, isDigitChar] at h
  | emptyObj ws => simp [nodeString, Node.text, startsNumber, isDigitChar] at h
  | obj ms => simp [nodeString, Node.text, startsNumber, isDigitChar] at h

theorem hidden_runs (secret : Bool) {v : Node Char} (hv : isLeaf v = true) (key : List Char) :
    Runs src (fun start stop w => some (replace src start stop (jsonString (keyPlaceholder key)) w))
      (Safe (r.text o) secret) v :=
  (runs_replace v (keyPlaceholder_isPlaceholder key)).imp fun _ h => ⟨.hidden hv h, h.depth_le v⟩

/-- What a call of `value` with this fuel does on the values that it suffices for. -/
def ValueRuns (r : Rules) (o : Options) (src : List Char) (n : ℕ) : Prop :=
  ∀ (v : Node Char) (secret : Bool), 2 * v.fuel ≤ n →
    Runs src (value r o src n secret) (Safe (r.text o) secret) v

theorem credentialList_runs {n : ℕ} (hn : ValueRuns r o src n) {es : Elems Char}
    (hfuel : 2 * (Node.arr es).fuel ≤ n + 1) (secret : Bool) (key : List Char) :
    Runs src (credentialList r o src (n + 1) secret key) (Safe (r.text o) secret) (.arr es) := by
  intro i post w t hslot hw
  have hitem : ∀ v ∈ values es, Runs src (fun start stop w =>
      if r.holdsCredential key (stringOf src start stop).1 (stringOf src start stop).2
          (src[start]?.any startsNumber) then
        some (replace src start stop (jsonString (keyPlaceholder key)) w)
      else value r o src n secret start stop w) (Safe (r.text o) secret) v := by
    intro v hv i' post' w' t' hslot' hw'
    dsimp only
    rw [hslot'.stringOf, hslot'.getElem?]
    have hmem := fuel_of_mem_values hv
    split_ifs with hholds
    · exact hidden_runs secret (holdsCredential_isLeaf hholds) key hslot' hw'
    · exact hn v secret (by simp only [Node.fuel] at hfuel; omega) hslot' hw'
  obtain ⟨hes, w', es', hfold, hrel, hw'⟩ := array_run hitem hslot hw
  rw [credentialList, hes]
  exact ⟨w', .arr es', post, hfold, ⟨.arr hrel fun _ _ h => h.1,
    Nat.succ_le_succ (hrel.depth_le fun _ _ h => h.2)⟩, Or.inl rfl, hw'⟩

theorem member_runs {n : ℕ} (hn : ValueRuns r o src n) (hn' : ValueRuns r o src (n - 1))
    {v : Node Char} (hfuel : 2 * v.fuel ≤ n) (secret : Bool) (envSecret : List Char)
    (key : Body Char) :
    Runs src (member r o src (n + 1) secret envSecret key.decoded)
      (SafeMember (r.text o) secret key) v := by
  intro i post w t hslot hw
  rw [member, hslot.stringOf, hslot.getElem?]
  dsimp only
  by_cases hfield : (secret && secretValueFields.contains key.decoded) = true
  · rw [if_pos hfield]
    rw [Bool.and_eq_true, List.contains_iff_mem] at hfield
    obtain ⟨rfl, hkey⟩ := hfield
    exact (secretField_runs (r := r) (o := o) v).imp (fun _ h => ⟨.field hkey h.1, h.2⟩) hslot hw
  rw [if_neg hfield]
  by_cases hlast : (secret && decide (key.decoded = lastAppliedName) &&
      !isPlaceholderValue (nodeString v).1) = true
  · rw [if_pos hlast, ← jsonString_secretPlaceholder]
    simp only [Bool.and_eq_true, decide_eq_true_eq] at hlast
    obtain ⟨⟨rfl, hkey⟩, -⟩ := hlast
    exact (runs_replace v secretPlaceholder_isPlaceholder).imp
      (fun _ h => ⟨.lastApplied hkey h, h.depth_le v⟩) hslot hw
  rw [if_neg hlast]
  -- no field of a Secret: the member is what its value is
  have hother : ∀ v', Safe (r.text o) secret v v' →
      SafeMember (r.text o) secret key v v' := by
    intro v' h
    refine ⟨.other ?_ ?_ h.1, h.2⟩
    · rintro rfl hmem
      exact hfield (by simpa using hmem)
    · rintro rfl hkey
      apply isPlaceholder_of_nodeString
      simpa [hkey] using hlast
  split_ifs with hholds henv hlist
  · rw [Bool.and_eq_true] at hholds
    exact (hidden_runs (r := r) (o := o) secret (holdsCredential_isLeaf hholds.2) _).imp hother hslot hw
  · simp only [Bool.and_eq_true] at henv
    exact (hidden_runs (r := r) (o := o) secret (holdsCredential_isLeaf henv.2) _).imp hother hslot hw
  · simp only [Bool.and_eq_true, decide_eq_true_eq] at hlist
    cases v with
    | scalar t' => exact absurd (by rw [hlist.1.2]; decide) (scalar_head t')
    | str b => cases hlist.1.2
    | emptyArr ws =>
      cases n with
      | zero => simp [Node.fuel] at hfuel
      | succ n =>
        obtain ⟨w', v', post', hrun, rfl, hpost, hw'⟩ := runs_keep (.emptyArr ws) hslot hw
        rw [credentialList, elements_emptyArr hslot]
        exact ⟨w', _, post', hrun, hother _ ⟨.emptyArr ws, le_rfl⟩, hpost, hw'⟩
    | arr es =>
      cases n with
      | zero => simp [Node.fuel] at hfuel
      | succ n =>
        exact (credentialList_runs hn' hfuel secret key.decoded).imp hother hslot hw
    | emptyObj ws => cases hlist.1.2
    | obj ms => cases hlist.1.2
  · exact (hn v secret hfuel).imp hother hslot hw

theorem fuel_pos (v : Node Char) : 0 < v.fuel := by
  cases v <;> simp [Node.fuel]

theorem fuel_of_pair {ms : Members Char} {key : Body Char} {v : Node Char}
    (h : (key, v) ∈ pairs ms) : v.fuel + 2 ≤ (Node.obj ms).fuel := by
  have hlt := fuel_of_mem_pairs h
  simp only [Node.fuel]
  omega

theorem object_runs {n : ℕ} (hn : ∀ m ≤ n, ValueRuns r o src m) {ms : Members Char}
    (hfuel : 2 * (Node.obj ms).fuel ≤ n + 3) (secret : Bool) :
    Runs src (object r o src (n + 2) secret) (Safe (r.text o) secret) (.obj ms) := by
  intro i post w t hslot hw
  have hmember : ∀ key v, (key, v) ∈ pairs ms →
      Runs src (member r o src (n + 1) (secret || hasSecretKind ms)
        (envSecretOf r o src (memberSpans (i + 1) ms)) key.decoded)
        (SafeMember (r.text o) (secret || hasSecretKind ms) key) v := by
    intro key v hmem
    have hpair := fuel_of_pair hmem
    exact member_runs (hn n le_rfl) (hn (n - 1) (Nat.sub_le n 1)) (by omega) _ _ key
  obtain ⟨hms, w', ms', hfold, hrel, hw'⟩ := object_run hmember hslot hw
  have hkind : (memberSpans (i + 1) ms).any (memberIsSecretKind src) = hasSecretKind ms := by
    obtain ⟨rest, -, h⟩ := hslot
    simp only [Node.text, List.cons_append, List.append_assoc, lit_self] at h
    exact any_secretKind ms (drop_succ h)
  rw [object, hms]
  simp only [Option.bind_eq_bind, Option.bind_some]
  rw [hkind]
  exact ⟨w', .obj ms', post, hfold, ⟨.obj hrel fun _ _ _ h => h.1,
    Nat.succ_le_succ (hrel.depth_le fun _ _ _ h => h.2)⟩, Or.inl rfl, hw'⟩

theorem value_scalar {n : ℕ} {secret : Bool} {t' : Scalar Char} {i : ℕ} {post : Space Char}
    (hslot : SlotAt src i (.scalar t') post) (stop : ℕ) (w : JsonRewriter) :
    value r o src (n + 1) secret i stop w = some w := by
  have hhead := scalar_head t'
  rw [← hslot.getElem?] at hhead
  simp only [List.mem_cons, List.not_mem_nil, or_false, not_or] at hhead
  rw [value, if_neg hhead.2.1, if_neg hhead.2.2, if_neg hhead.1]

/-- The rewriter on a value of the tree, by induction on how deep its calls may go. -/
theorem value_runs (n : ℕ) : ValueRuns r o src n := by
  induction n using Nat.strong_induction_on with
  | _ n ih =>
    intro v secret hfuel
    have hpos := fuel_pos v
    obtain ⟨n, rfl⟩ : ∃ m, n = m + 1 := ⟨n - 1, by omega⟩
    intro i post w t hslot hw
    cases v with
    | scalar t' =>
      obtain ⟨w', v', post', hrun, rfl, hpost, hw'⟩ := runs_keep (.scalar t') hslot hw
      rw [value_scalar hslot]
      exact ⟨w', _, post', hrun, ⟨.scalar t', le_rfl⟩, hpost, hw'⟩
    | str b =>
      obtain ⟨rest, -, h⟩ := hslot
      have hquote : src[i]? = some '"' := getElem?_of_drop h
      obtain ⟨b', hb', hw'⟩ := text_wrote r o h hw
      have hstop : valueStop i (.str b) post = i + b.quoted.length := by
        have htrail : trailing (.str b) post = [] := rfl
        simp [valueStop, htrail, Node.text]
      rw [value, hquote, hstop]
      refine ⟨_, .str b', post, rfl, ⟨.str hb', le_rfl⟩, Or.inl rfl, ?_⟩
      have hcopy := hw'.copy (drop_add h)
      rwa [List.append_assoc] at hcopy
    | emptyArr ws =>
      obtain ⟨w', v', post', hrun, rfl, hpost, hw'⟩ := runs_keep (.emptyArr ws) hslot hw
      have hopen : src[i]? = some '[' := hslot.getElem?
      rw [value, hopen, elements_emptyArr hslot]
      exact ⟨w', _, post', hrun, ⟨.emptyArr ws, le_rfl⟩, hpost, hw'⟩
    | arr es =>
      have hopen : src[i]? = some '[' := hslot.getElem?
      have hitem : ∀ v ∈ values es, Runs src (value r o src n secret) (Safe (r.text o) secret) v := by
        intro v hv
        have hlt := fuel_of_mem_values hv
        exact ih n (by omega) v secret (by simp only [Node.fuel] at hfuel; omega)
      obtain ⟨hes, w', es', hfold, hrel, hw'⟩ := array_run hitem hslot hw
      rw [value, hopen, hes]
      exact ⟨w', .arr es', post, hfold, ⟨.arr hrel fun _ _ h => h.1,
        Nat.succ_le_succ (hrel.depth_le fun _ _ h => h.2)⟩, Or.inl rfl, hw'⟩
    | emptyObj ws =>
      obtain ⟨w', v', post', hrun, rfl, hpost, hw'⟩ := runs_keep (.emptyObj ws) hslot hw
      have hopen : src[i]? = some '{' := hslot.getElem?
      obtain ⟨n, rfl⟩ : ∃ m, n = m + 1 := ⟨n - 1, by simp only [Node.fuel] at hfuel; omega⟩
      rw [value, hopen, object, members_emptyObj hslot]
      exact ⟨w', _, post', hrun, ⟨.emptyObj ws, le_rfl⟩, hpost, hw'⟩
    | obj ms =>
      have hopen : src[i]? = some '{' := hslot.getElem?
      have hms : 1 ≤ ms.fuel := by cases ms <;> simp [Members.fuel]
      obtain ⟨n, rfl⟩ : ∃ m, n = m + 2 := ⟨n - 2, by simp only [Node.fuel] at hfuel; omega⟩
      have hrun := object_runs (n := n) (fun m hm => ih m (by omega)) (by omega) secret hslot hw
      rw [value, hopen]
      exact hrun

end Values

section Json
variable {s : List Char}

theorem opensLine_opens : ∀ (t : List Char) {i n : ℕ}, s.drop i = t → opensLine i t = some n →
    s[n]? = some '{' ∨ s[n]? = some '['
  | [], _, _, _, h => by cases h
  | [_], _, _, _, h => by cases h
  | a :: b :: t, i, n, hs, h => by
    rw [opensLine] at h
    split_ifs at h with hopen
    · cases h
      rw [getElem?_of_drop (drop_succ hs), Option.some.injEq, Option.some.injEq]
      exact hopen.2
    · exact opensLine_opens (b :: t) (drop_succ hs) h

theorem jsonStart_opens {n : ℕ} (h : jsonStart s = some n) : s[n]? = some '{' ∨ s[n]? = some '[' := by
  unfold jsonStart at h
  dsimp only at h
  split_ifs at h with hfirst
  · cases h
    exact hfirst
  · exact opensLine_opens s rfl h

/-- The part from `jsonStart` on has no space before its value, which is an object or an array. -/
theorem document_of_start {n : ℕ} {d : Document} (h : jsonStart s = some n)
    (hd : s.drop n = d.text) : d.pre.text = [] ∧ d.value.isScalar = false := by
  have hopen := jsonStart_opens h
  rw [← List.head?_drop, hd, Document.text] at hopen
  have hpre : d.pre.text = [] := by
    cases hpre : d.pre.text with
    | nil => rfl
    | cons c t =>
      have hspace := spaceChars d.pre c (by simp [hpre])
      rw [hpre] at hopen
      simp only [List.cons_append, List.head?_cons, Option.some.injEq] at hopen
      rcases hopen with rfl | rfl <;> exact absurd hspace (by decide)
  refine ⟨hpre, ?_⟩
  rw [hpre, List.nil_append] at hopen
  cases hv : d.value with
  | scalar t =>
    have hhead := scalar_head t
    obtain ⟨a, u, hu⟩ := t.exists_cons
    simp only [hv, Node.text, hu, List.cons_append, List.head?_cons] at hopen hhead
    rcases hopen with h | h <;> rw [h] at hhead <;> exact absurd (by decide) hhead
  | _ => rfl

/-- The redaction of a JSON text keeps it one: the same tree but for what `Masked` says, before the
rules on personal data, which run over the text as a whole. -/
theorem json_rewrites_values (r : Rules) (o : Options) (s : List Char) (start : ℕ)
    (hstart : jsonStart s = some start) (hvalid : valid (s.drop start) = true) :
    ∃ d d' : Document, s.drop start = d.text ∧
      json r o s = some (r.text o (s.take start) ++ r.redactPII o d'.text) ∧
      valid d'.text = true ∧ d'.pre = d.pre ∧ d'.post = d.post ∧
      Masked (r.text { o with pii := false }) false d.value d'.value := by
  obtain ⟨d, hd, hdepth⟩ := valid_iff.mp hvalid
  obtain ⟨hpre, hscalar⟩ := document_of_start hstart hd
  have hdrop : s.drop start = d.value.text ++ (d.post.text ++ []) := by
    rw [hd, Document.text, hpre, List.nil_append, List.append_nil]
  have hslot : SlotAt s start d.value d.post := ⟨[], Ends.nil, hdrop⟩
  have hinit : (⟨[], 0⟩ : JsonRewriter).Wrote s start (s.take start) := ⟨Nat.zero_le _, rfl⟩
  have hlen : s.length - start = d.value.text.length + d.post.text.length := by
    rw [← List.length_drop, hdrop, List.append_nil, List.length_append]
  have hpos := node_length_pos d.value
  have hfuel : 2 * d.value.fuel ≤ 4 * s.length := by
    have hlt := d.value.fuel_lt
    omega
  obtain ⟨w, v', post', hrun, ⟨hmasked, hdepth'⟩, hpost, -, hw⟩ :=
    value_runs (r := r) (o := { o with pii := false }) _ d.value false hfuel hslot hinit
  have hpost' : post' = d.post := by
    rcases hpost with h | ⟨h, -⟩
    · exact h
    · rw [hscalar] at h
      cases h
  subst hpost'
  refine ⟨d, ⟨d.pre, v', d.post⟩, hd, ?_, ?_, rfl, rfl, hmasked⟩
  · have hend : start + d.value.text.length + d.post.text.length = s.length := by omega
    have hout : w.out ++ s.drop w.pos = s.take start ++ (v'.text ++ d.post.text) := by
      rw [hend, slice, List.take_length] at hw
      exact hw
    have hrest : (w.out ++ s.drop w.pos).drop start = v'.text ++ d.post.text := by
      rw [hout, List.drop_append_of_le_length (by rw [List.length_take]; omega),
        List.drop_eq_nil_of_le (by rw [List.length_take]; omega), List.nil_append]
    unfold json
    rw [hstart]
    simp only [Option.bind_eq_bind, Option.bind_some, hvalid, if_true, hslot.jsonValueEnd]
    rw [hrun]
    simp only [Option.bind_some]
    rw [hrest, Document.text, hpre, List.nil_append]
    rfl
  · exact valid_iff.mpr ⟨⟨d.pre, v', d.post⟩, rfl, hdepth'.trans hdepth⟩

/-- Rules that leave every string as it is and know one credential's name. -/
def plainRules : Rules where
  text _ s := s
  piiRules _ s := s
  keyIsSensitive key := key = "password".toList
  valueStays _ _ := false
  lastWordIsCredential key := key = "password".toList

def defaultOptions : Options := ⟨true, false, fun _ => false⟩

/-- A number under a credential's name, and a Secret whose kind comes after its values. -/
def secretText : List Char :=
  "\x7b\"password\":12 ,\"data\":\x7b\"k\":\"v\"\x7d,\"kind\":\"Secret\"\x7d".toList

theorem json_rewrites_values_secret : ∃ d d' : Document, secretText.drop 0 = d.text ∧
    json plainRules defaultOptions secretText =
      some (plainRules.text defaultOptions (secretText.take 0) ++
        plainRules.redactPII defaultOptions d'.text) ∧
    valid d'.text = true ∧ d'.pre = d.pre ∧ d'.post = d.post ∧
    Masked (plainRules.text { defaultOptions with pii := false }) false d.value d'.value :=
  json_rewrites_values plainRules defaultOptions secretText 0 (by decide)
    (by decide +kernel)

mutual

/-- Objects and arrays of the same form; a leaf may be any leaf. -/
def sameShape : Node Char → Node Char → Bool
  | .arr es, .arr es' => sameElems es es'
  | .obj ms, .obj ms' => sameMembers ms ms'
  | .emptyArr _, .emptyArr _ | .emptyObj _, .emptyObj _ => true
  | v, v' => isLeaf v && isLeaf v'

def sameElems : Elems Char → Elems Char → Bool
  | .one _ v _, .one _ v' _ => sameShape v v'
  | .cons _ v _ rest, .cons _ v' _ rest' => sameShape v v' && sameElems rest rest'
  | _, _ => false

def sameMembers : Members Char → Members Char → Bool
  | .one _ _ _ _ v _, .one _ _ _ _ v' _ => sameShape v v'
  | .cons _ _ _ _ v _ rest, .cons _ _ _ _ v' _ rest' => sameShape v v' && sameMembers rest rest'
  | _, _ => false

end

/-- A list under `data` of a Secret. -/
def secretList : List Char :=
  "\x7b\"kind\":\"Secret\",\"data\":[\"x\"]\x7d".toList

/-- It is replaced by one string: the result is JSON of another shape. -/
theorem secretList_shape : jsonStart secretList = some 0 ∧ valid secretList = true ∧
    (json plainRules defaultOptions secretList).any (fun out =>
      (parse secretList).any fun d => (parse out).any fun d' =>
        !sameShape d.value d'.value) = true := by
  decide +kernel

end Json

end Kubeast.Redact
