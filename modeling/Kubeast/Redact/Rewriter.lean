import Kubeast.Redact.JsonText
import Mathlib.Data.Bool.AllAny

/-! What the rewriter writes for a piece of the source, in terms of the tree of that piece. -/
namespace Kubeast.Redact
open Symbols Json

section Positions
variable {src : List Char}

theorem drop_add {i : ℕ} {u rest : List Char} (h : src.drop i = u ++ rest) :
    src.drop (i + u.length) = rest := by
  rw [← List.drop_drop, h, List.drop_left]

theorem drop_succ {i : ℕ} {c : Char} {rest : List Char} (h : src.drop i = c :: rest) :
    src.drop (i + 1) = rest :=
  drop_add (u := [c]) h

theorem getElem?_of_drop {i : ℕ} {c : Char} {rest : List Char} (h : src.drop i = c :: rest) :
    src[i]? = some c := by
  rw [← List.head?_drop, h]
  rfl

theorem slice_of_drop {i : ℕ} {u rest : List Char} (h : src.drop i = u ++ rest) :
    slice src i (i + u.length) = u := by
  rw [slice, List.drop_take, Nat.add_sub_cancel_left, h, List.take_left]

theorem skipSpace_of_drop {i : ℕ} {u rest : List Char} (h : src.drop i = u ++ rest)
    (hu : ∀ c ∈ u, isSpaceChar c = true) (hrest : NotFirst isSpaceChar rest) :
    skipSpace src i = i + u.length := by
  unfold skipSpace
  rw [h]
  have htake := (takeWhile_of_notFirst (p := fun c : Char => isSpaceChar (char c)) hu hrest).1
  rw [htake]

theorem spaceChars (ws : Space Char) : ∀ c ∈ ws.text, isSpaceChar c = true := by
  have h := ws.valid
  rwa [map_char_self, List.all_eq_true] at h

end Positions

section Wrote
variable {src : List Char}

/-- `t` has been written for the source up to `i`. -/
def JsonRewriter.Wrote (w : JsonRewriter) (src : List Char) (i : ℕ) (t : List Char) : Prop :=
  w.pos ≤ i ∧ w.out ++ slice src w.pos i = t

theorem JsonRewriter.Wrote.copy {w : JsonRewriter} {i : ℕ} {t u rest : List Char}
    (hw : w.Wrote src i t) (h : src.drop i = u ++ rest) : w.Wrote src (i + u.length) (t ++ u) := by
  obtain ⟨hpos, rfl⟩ := hw
  refine ⟨by omega, ?_⟩
  have htake : src.take (i + u.length) = src.take i ++ u := by
    rw [List.take_add, h, List.take_left]
  have hdrop : (src.take i ++ u).drop w.pos = (src.take i).drop w.pos ++ u := by
    by_cases hi : i ≤ src.length
    · exact List.drop_append_of_le_length (by rw [List.length_take]; omega)
    · have hu : u = [] := by
        rw [List.drop_eq_nil_of_le (by omega)] at h
        exact (List.append_eq_nil_iff.mp h.symm).1
      simp [hu]
  unfold slice
  rw [htake, hdrop, List.append_assoc]

theorem JsonRewriter.Wrote.replace {w : JsonRewriter} {i : ℕ} {t : List Char}
    (hw : w.Wrote src i t) (stop : ℕ) (x : List Char) :
    (replace src i stop x w).Wrote src stop (t ++ x) := by
  obtain ⟨-, rfl⟩ := hw
  refine ⟨le_rfl, ?_⟩
  simp [Redact.replace, slice]

end Wrote

section Slots
variable {src : List Char}

/-- The span of a number or a word takes the spaces and tabs after it. -/
def trailing (v : Node Char) (post : Space Char) : List Char :=
  if v.isScalar then post.text.takeWhile inScalar else []

/-- What is left of the space after a value that has been replaced. -/
def restSpace (v : Node Char) (post : Space Char) : Space Char :=
  ⟨if v.isScalar then post.text.dropWhile inScalar else post.text, by
    rw [map_char_self, List.all_eq_true]
    intro c hc
    split_ifs at hc
    · exact spaceChars post c ((List.dropWhile_sublist _).mem hc)
    · exact spaceChars post c hc⟩

theorem trailing_append (v : Node Char) (post : Space Char) :
    trailing v post ++ (restSpace v post).text = post.text := by
  unfold trailing restSpace
  dsimp only
  split_ifs
  · exact List.takeWhile_append_dropWhile
  · rfl

def valueStop (i : ℕ) (v : Node Char) (post : Space Char) : ℕ :=
  i + (v.text ++ trailing v post).length

/-- What may come after a value and the space after it. -/
def Ends (rest : List Char) : Prop := ∀ c, rest.head? = some c → c ∈ [',', '}', ']']

theorem Ends.nil : Ends [] := fun _ h => by cases h

theorem Ends.cons {c : Char} (hc : c ∈ [',', '}', ']']) (rest : List Char) : Ends (c :: rest) := by
  intro d hd
  cases hd
  exact hc

theorem Ends.notFirst {rest : List Char} (h : Ends rest) :
    NotFirst inScalar rest ∧ NotFirst isSpaceChar rest := by
  have hclose : ∀ c ∈ [',', '}', ']'], inScalar c = false ∧ isSpaceChar c = false :=
    List.all_iff_forall_prop.mp (by decide)
  exact ⟨fun c hc => (hclose c (h c hc)).1, fun c hc => (hclose c (h c hc)).2⟩

/-- A value at `i`, the space after it and the end of both. -/
def SlotAt (src : List Char) (i : ℕ) (v : Node Char) (post : Space Char) : Prop :=
  ∃ rest, Ends rest ∧ src.drop i = v.text ++ (post.text ++ rest)

theorem takeWhile_stop {p : Char → Bool} (u : List Char) {rest : List Char} (h : NotFirst p rest) :
    (u ++ rest).takeWhile p = u.takeWhile p := by
  induction u with
  | nil =>
    cases rest with
    | nil => rfl
    | cons c rest => simp [h c rfl]
  | cons a u ih =>
    by_cases ha : p a = true
    · simp [ha, ih]
    · simp [ha]

theorem SlotAt.jsonValueEnd {i : ℕ} {v : Node Char} {post : Space Char} (h : SlotAt src i v post) :
    jsonValueEnd src i = some (valueStop i v post) := by
  obtain ⟨rest, hends, h⟩ := h
  unfold Redact.jsonValueEnd valueStop trailing
  rw [h]
  cases hv : v.isScalar with
  | false =>
    rw [valueLen_node hv]
    simp
  | true =>
    cases v with
    | scalar t =>
      rw [Node.text, valueLen_scalar, takeWhile_stop _ hends.notFirst.1]
      simp
    | str b => cases hv
    | emptyArr ws => cases hv
    | arr es => cases hv
    | emptyObj ws => cases hv
    | obj ms => cases hv

theorem SlotAt.split {i : ℕ} {v : Node Char} {post : Space Char} (h : SlotAt src i v post) :
    ∃ rest, Ends rest ∧
      src.drop i = (v.text ++ trailing v post) ++ ((restSpace v post).text ++ rest) := by
  obtain ⟨rest, hends, h⟩ := h
  refine ⟨rest, hends, ?_⟩
  rw [h, List.append_assoc, ← List.append_assoc (trailing v post), trailing_append]

theorem valueStop_add (i : ℕ) (v : Node Char) (post : Space Char) :
    valueStop i v post + (restSpace v post).text.length =
      i + v.text.length + post.text.length := by
  rw [valueStop, Nat.add_assoc, ← List.length_append, List.append_assoc, trailing_append,
    List.length_append, Nat.add_assoc]

theorem SlotAt.skipSpace {i : ℕ} {v : Node Char} {post : Space Char} (h : SlotAt src i v post) :
    skipSpace src (valueStop i v post) = i + v.text.length + post.text.length := by
  obtain ⟨rest, hends, h⟩ := h.split
  have hskip := skipSpace_of_drop (drop_add h) (spaceChars _) hends.notFirst.2
  rwa [← valueStop, valueStop_add] at hskip

/-- The span of a value is its text, with the spaces and tabs after a number or a word. -/
theorem SlotAt.slice {i : ℕ} {v : Node Char} {post : Space Char} (h : SlotAt src i v post) :
    slice src i (valueStop i v post) = v.text ++ trailing v post := by
  obtain ⟨rest, -, h⟩ := h.split
  exact slice_of_drop h

theorem keepsSpace_restSpace {v v' : Node Char} (hv' : IsPlaceholder v') (post : Space Char) :
    KeepsSpace v v' post (restSpace v post) := by
  cases hv : v.isScalar with
  | false =>
    left
    simp [restSpace, hv]
  | true =>
    refine Or.inr ⟨hv, hv', trailing v post, (trailing_append v post).symm, ?_⟩
    intro c hc
    unfold trailing at hc
    rw [if_pos hv] at hc
    have hspace := spaceChars post c ((List.takeWhile_sublist _).mem hc)
    have hin : inScalar c = true := List.mem_takeWhile_imp hc
    simp only [isSpaceChar, Bool.or_eq_true, decide_eq_true_eq] at hspace
    rcases hspace with ((h | h) | h) | h
    · exact Or.inl h
    · exact Or.inr h
    · rw [h] at hin
      exact absurd hin (by decide)
    · rw [h] at hin
      exact absurd hin (by decide)

end Slots

section Reading
variable {src : List Char}

theorem SlotAt.getElem? {i : ℕ} {v : Node Char} {post : Space Char} (h : SlotAt src i v post) :
    src[i]? = v.text.head? := by
  obtain ⟨rest, -, h⟩ := h
  obtain ⟨d, s, hs, -, -, -⟩ := v.head
  rw [hs] at h ⊢
  exact getElem?_of_drop h

theorem scalar_head (t : Scalar Char) :
    (Node.scalar t).text.head? ∉ [some '"', some '{', some '['] := by
  obtain ⟨a, s, hs⟩ := t.exists_cons
  have ha : isScalarChar a = true := t.isScalarChar a (by simp [hs])
  rw [Node.text, hs]
  simp only [List.head?_cons, List.mem_cons, Option.some.injEq, List.not_mem_nil, or_false, not_or]
  refine ⟨?_, ?_, ?_⟩ <;> rintro rfl <;> exact absurd ha (by decide)

theorem decodeJSONString_quoted (b : Body Char) : decodeJSONString b.quoted = b.decoded := by
  have hbody : slice b.quoted 1 (b.quoted.length - 1) = b.text := by
    simp [slice, Body.quoted]
  unfold decodeJSONString
  rw [hbody]
  split_ifs with hslash
  · rfl
  · have hslash' : '\\' ∉ b.text := by
      simp [Body.quoted] at hslash
      exact hslash
    exact (unescape_of_no_slash hslash').symm

theorem SlotAt.stringOf {i : ℕ} {v : Node Char} {post : Space Char} (h : SlotAt src i v post) :
    stringOf src i (valueStop i v post) = nodeString v := by
  unfold Redact.stringOf
  rw [h.getElem?, h.slice]
  cases v with
  | scalar t =>
    have hhead := scalar_head t
    simp only [List.mem_cons, not_or] at hhead
    rw [if_neg hhead.1]
    rfl
  | str b =>
    have htrail : trailing (.str b) post = [] := rfl
    rw [htrail, List.append_nil, Node.text, decodeJSONString_quoted]
    rfl
  | emptyArr ws => rfl
  | arr es => rfl
  | emptyObj ws => rfl
  | obj ms => rfl

end Reading

section Runs
variable {src : List Char}

/-- On the value `v` the function writes one that is related to it, and leaves the rest to be
copied. -/
def Runs (src : List Char) (f : ℕ → ℕ → JsonRewriter → Option JsonRewriter)
    (P : Node Char → Node Char → Prop) (v : Node Char) : Prop :=
  ∀ ⦃i post w t⦄, SlotAt src i v post → w.Wrote src i t →
    ∃ w' v' post', f i (valueStop i v post) w = some w' ∧ P v v' ∧ KeepsSpace v v' post post' ∧
      w'.Wrote src (i + v.text.length + post.text.length) (t ++ (v'.text ++ post'.text))

theorem runs_keep (v : Node Char) : Runs src (fun _ _ w => some w) (fun v v' => v' = v) v := by
  rintro i post w t ⟨rest, -, h⟩ hw
  refine ⟨w, v, post, rfl, rfl, Or.inl rfl, ?_⟩
  have hcopy := hw.copy (u := v.text ++ post.text) (by rw [h, List.append_assoc])
  rwa [List.length_append, ← Nat.add_assoc] at hcopy

theorem runs_replace (v : Node Char) {x : List Char} (hx : isPlaceholderValue x = true) :
    Runs src (fun start stop w => some (replace src start stop (jsonString x) w))
      (fun _ v' => IsPlaceholder v') v := by
  intro i post w t h hw
  have hx' : IsPlaceholder (.str (Body.ofString x)) :=
    ⟨Body.ofString x, rfl, by rw [Body.decoded_ofString, hx]⟩
  refine ⟨_, _, restSpace v post, rfl, hx', keepsSpace_restSpace hx' post, ?_⟩
  obtain ⟨rest, -, h⟩ := h.split
  have hcopy := (hw.replace (valueStop i v post) (jsonString x)).copy (drop_add h)
  rwa [valueStop_add, List.append_assoc] at hcopy

/-- The rules of `Text` on a key or a string value. -/
theorem text_wrote (r : Rules) (o : Options) {i : ℕ} {b : Body Char} {rest t : List Char}
    {w : JsonRewriter} (h : src.drop i = b.quoted ++ rest) (hw : w.Wrote src i t) :
    ∃ b' : Body Char, b'.decoded = r.text o b.decoded ∧
      (text r o src i (i + b.quoted.length) w).Wrote src (i + b.quoted.length)
        (t ++ b'.quoted) := by
  unfold text
  rw [slice_of_drop h, decodeJSONString_quoted]
  dsimp only
  split_ifs with hchange
  · exact ⟨Body.ofString _, Body.decoded_ofString _, hw.replace _ _⟩
  · rw [not_not] at hchange
    exact ⟨b, hchange.symm, hw.copy h⟩

theorem Runs.imp {f : ℕ → ℕ → JsonRewriter → Option JsonRewriter} {P Q : Node Char → Node Char → Prop}
    {v : Node Char} (hf : Runs src f P v) (h : ∀ v', P v v' → Q v v') : Runs src f Q v := by
  intro i post w t hslot hw
  obtain ⟨w', v', post', hrun, hP, hpost, hw'⟩ := hf hslot hw
  exact ⟨w', v', post', hrun, h v' hP, hpost, hw'⟩

end Runs

section Elements
variable {src : List Char}

def elementSpans : ℕ → Elems Char → List (ℕ × ℕ)
  | i, .one pre v post => [(i + pre.text.length, valueStop (i + pre.text.length) v post)]
  | i, .cons pre v post rest =>
      (i + pre.text.length, valueStop (i + pre.text.length) v post) ::
        elementSpans (i + pre.text.length + v.text.length + post.text.length + 1) rest

theorem node_length_pos (v : Node Char) : 0 < v.text.length := by
  obtain ⟨c, s, hs, -⟩ := v.head
  simp [hs]

theorem skipSpace_value {i : ℕ} {pre : Space Char} {v : Node Char} {rest : List Char}
    (h : src.drop i = pre.text ++ (v.text ++ rest)) : skipSpace src i = i + pre.text.length :=
  skipSpace_of_drop h (spaceChars pre) (v.notFirst rest)

/-- After the last value of a container. -/
theorem afterValue_last {i stop : ℕ} {v : Node Char} {post : Space Char} (h : SlotAt src i v post)
    (hstop : stop = i + v.text.length + post.text.length + 1) :
    afterValue src stop (valueStop i v post) = stop - 1 := by
  unfold afterValue
  rw [h.skipSpace]
  dsimp only
  rw [if_neg (by omega)]
  omega

/-- After a value that a comma follows. -/
theorem afterValue_comma {i stop : ℕ} {v : Node Char} {post : Space Char} {rest : List Char}
    (h : src.drop i = v.text ++ (post.text ++ ',' :: rest))
    (hstop : i + v.text.length + post.text.length + 1 < stop) :
    afterValue src stop (valueStop i v post) =
      skipSpace src (i + v.text.length + post.text.length + 1) := by
  have hslot : SlotAt src i v post := ⟨_, Ends.cons (by simp) rest, h⟩
  have hcomma := getElem?_of_drop (drop_add (drop_add h))
  unfold afterValue
  rw [hslot.skipSpace]
  dsimp only
  rw [if_pos ⟨by omega, hcomma⟩]

theorem elementsFrom_spans (stop : ℕ) : ∀ (es : Elems Char) {i fuel : ℕ} {rest : List Char},
    src.drop i = es.text ++ ']' :: rest → stop = i + es.text.length + 1 →
    es.text.length + 1 ≤ fuel →
    elementsFrom src stop fuel (skipSpace src i) = some (elementSpans i es)
  | .one pre v post, i, fuel, rest, h, hstop, hfuel => by
    have hv := node_length_pos v
    simp only [Elems.text, List.append_assoc, List.length_append] at h hstop hfuel
    have hslot : SlotAt src (i + pre.text.length) v post := ⟨_, Ends.cons (by simp) rest, drop_add h⟩
    obtain ⟨fuel, rfl⟩ : ∃ n, fuel = n + 2 := ⟨fuel - 2, by omega⟩
    rw [skipSpace_value h, elementsFrom, if_pos (by omega), hslot.jsonValueEnd]
    simp only [Option.bind_eq_bind, Option.bind_some]
    rw [afterValue_last hslot (by omega), elementsFrom, if_neg (by omega)]
    rfl
  | .cons pre v post es, i, fuel, rest, h, hstop, hfuel => by
    have hv := node_length_pos v
    simp only [Elems.text, List.append_assoc, List.length_append, List.cons_append,
      List.length_cons, lit_self] at h hstop hfuel
    have hslot : SlotAt src (i + pre.text.length) v post := ⟨_, Ends.cons (by simp) _, drop_add h⟩
    have hrest : src.drop (i + pre.text.length + v.text.length + post.text.length + 1) =
        es.text ++ ']' :: rest := drop_succ (drop_add (drop_add (drop_add h)))
    obtain ⟨fuel, rfl⟩ : ∃ n, fuel = n + 1 := ⟨fuel - 1, by omega⟩
    have hes : elementsFrom src stop fuel _ = _ :=
      elementsFrom_spans stop es hrest (by omega) (by omega)
    rw [skipSpace_value h, elementsFrom, if_pos (by omega), hslot.jsonValueEnd]
    simp only [Option.bind_eq_bind, Option.bind_some]
    rw [afterValue_comma (drop_add h) (by omega), hes]
    rfl

theorem elements_arr {start stop : ℕ} {es : Elems Char} {rest : List Char}
    (h : src.drop (start + 1) = es.text ++ ']' :: rest)
    (hstop : stop = start + 1 + es.text.length + 1) :
    elements src start stop = some (elementSpans (start + 1) es) :=
  elementsFrom_spans stop es h hstop (by omega)

/-- A step that writes each element writes the elements. -/
theorem elements_run {f : ℕ → ℕ → JsonRewriter → Option JsonRewriter}
    {P : Node Char → Node Char → Prop} : ∀ (es : Elems Char) {i : ℕ} {w : JsonRewriter}
    {t rest : List Char}, (∀ v ∈ values es, Runs src f P v) → src.drop i = es.text ++ ']' :: rest →
    w.Wrote src i t → ∃ w' es', (elementSpans i es).foldlM (fun w e => f e.1 e.2 w) w = some w' ∧
      ElemsRewrite P es es' ∧ w'.Wrote src (i + es.text.length) (t ++ es'.text)
  | .one pre v post, i, w, t, rest, hf, h, hw => by
    simp only [Elems.text, List.append_assoc] at h
    have hslot : SlotAt src (i + pre.text.length) v post := ⟨_, Ends.cons (by simp) rest, drop_add h⟩
    obtain ⟨w', v', post', hrun, hP, hpost, hw'⟩ := hf v (by simp [values]) hslot (hw.copy h)
    refine ⟨w', .one pre v' post', ?_, .one hP hpost, ?_⟩
    · simp [elementSpans, hrun]
    · simpa [Elems.text, Nat.add_assoc] using hw'
  | .cons pre v post es, i, w, t, rest, hf, h, hw => by
    simp only [Elems.text, List.append_assoc, List.cons_append, lit_self] at h
    have hslot : SlotAt src (i + pre.text.length) v post := ⟨_, Ends.cons (by simp) _, drop_add h⟩
    have hcomma := drop_add (drop_add (drop_add h))
    obtain ⟨w₁, v', post', hrun, hP, hpost, hw₁⟩ := hf v (by simp [values]) hslot (hw.copy h)
    have hw₁' := hw₁.copy (u := [',']) hcomma
    obtain ⟨w', es', hfold, hes, hw'⟩ := elements_run es
      (fun v' hv' => hf v' (by simp [values, hv'])) (drop_succ hcomma) hw₁'
    refine ⟨w', .cons pre v' post' es', ?_, .cons hP hpost hes, ?_⟩
    · simpa [elementSpans, hrun] using hfold
    · simpa [Elems.text, Nat.add_assoc, Nat.add_comm 1] using hw'

end Elements

section Members
variable {src : List Char}

/-- A member whose key stands at `i`. -/
def memberAt (i : ℕ) (key : Body Char) (mid mid' : Space Char) (v : Node Char) (post : Space Char) :
    JsonMember :=
  let valueStart := i + key.quoted.length + mid.text.length + 1 + mid'.text.length
  ⟨key.decoded, i, i + key.quoted.length, valueStart, valueStop valueStart v post⟩

def memberLen (key : Body Char) (mid mid' : Space Char) (v : Node Char) (post : Space Char) : ℕ :=
  key.quoted.length + mid.text.length + 1 + mid'.text.length + v.text.length + post.text.length

def memberSpans : ℕ → Members Char → List JsonMember
  | i, .one pre key mid mid' v post => [memberAt (i + pre.text.length) key mid mid' v post]
  | i, .cons pre key mid mid' v post rest =>
      memberAt (i + pre.text.length) key mid mid' v post ::
        memberSpans (i + pre.text.length + memberLen key mid mid' v post + 1) rest

/-- The parts of a member where they stand in the source. -/
theorem member_drops {i : ℕ} {key : Body Char} {mid mid' : Space Char} {v : Node Char}
    {post : Space Char} {c : Char} {rest : List Char} (hc : c ∈ [',', '}', ']'])
    (h : src.drop i = key.quoted ++ (mid.text ++ ':' :: (mid'.text ++ (v.text ++
      (post.text ++ c :: rest))))) :
    skipSpace src (i + key.quoted.length) = i + key.quoted.length + mid.text.length ∧
    skipSpace src (i + key.quoted.length + mid.text.length + 1) =
      i + key.quoted.length + mid.text.length + 1 + mid'.text.length ∧
    src.drop (i + key.quoted.length + mid.text.length + 1) =
      mid'.text ++ (v.text ++ (post.text ++ c :: rest)) ∧
    SlotAt src (i + key.quoted.length + mid.text.length + 1 + mid'.text.length) v post := by
  have hkey := drop_add h
  have hcolon := drop_succ (drop_add hkey)
  exact ⟨skipSpace_of_drop hkey (spaceChars mid) (NotFirst.cons (by decide)), skipSpace_value hcolon,
    hcolon, _, Ends.cons hc rest, drop_add hcolon⟩

theorem member_after {i : ℕ} {key : Body Char} {mid mid' : Space Char} {v : Node Char}
    {post : Space Char} {rest : List Char}
    (h : src.drop i = key.quoted ++ (mid.text ++ ':' :: (mid'.text ++ (v.text ++
      (post.text ++ rest))))) :
    src.drop (i + memberLen key mid mid' v post) = rest := by
  have hdrop := drop_add (drop_add (drop_add (drop_succ (drop_add (drop_add h)))))
  simpa [memberLen, Nat.add_assoc] using hdrop

theorem jsonValueEnd_key {i : ℕ} {key : Body Char} {rest : List Char}
    (h : src.drop i = key.quoted ++ rest) :
    jsonValueEnd src i = some (i + key.quoted.length) := by
  unfold jsonValueEnd
  rw [h, valueLen_body]
  rfl

theorem skipSpace_key {i : ℕ} {pre : Space Char} {key : Body Char} {rest : List Char}
    (h : src.drop i = pre.text ++ (key.quoted ++ rest)) :
    skipSpace src i = i + pre.text.length :=
  skipSpace_of_drop h (spaceChars pre) (NotFirst.cons (by decide))

/-- One round of the loop over members. -/
theorem membersFrom_member {i stop fuel : ℕ} {key : Body Char} {mid mid' : Space Char}
    {v : Node Char} {post : Space Char} {c : Char} {rest : List Char} (hc : c ∈ [',', '}', ']'])
    (h : src.drop i = key.quoted ++ (mid.text ++ ':' :: (mid'.text ++ (v.text ++
      (post.text ++ c :: rest))))) (hi : i < stop - 1) :
    membersFrom src stop (fuel + 1) i =
      (membersFrom src stop fuel (afterValue src stop (memberAt i key mid mid' v post).valEnd)).map
        (memberAt i key mid mid' v post :: ·) := by
  obtain ⟨hmid, hmid', -, hslot⟩ := member_drops hc h
  rw [membersFrom, if_pos hi, jsonValueEnd_key h]
  simp only [Option.bind_eq_bind, Option.bind_some]
  rw [hmid, hmid', hslot.jsonValueEnd, slice_of_drop h, decodeJSONString_quoted]
  simp only [Option.bind_some]
  rw [Option.map_eq_bind]
  rfl

theorem membersFrom_spans (stop : ℕ) : ∀ (ms : Members Char) {i fuel : ℕ} {rest : List Char},
    src.drop i = ms.text ++ '}' :: rest → stop = i + ms.text.length + 1 →
    ms.text.length + 1 ≤ fuel →
    membersFrom src stop fuel (skipSpace src i) = some (memberSpans i ms)
  | .one pre key mid mid' v post, i, fuel, rest, h, hstop, hfuel => by
    have hv := node_length_pos v
    simp only [Members.text, List.append_assoc, List.length_append, List.cons_append,
      List.length_cons, lit_self] at h hstop hfuel
    obtain ⟨fuel, rfl⟩ : ∃ n, fuel = n + 2 := ⟨fuel - 2, by omega⟩
    obtain ⟨-, -, -, hslot⟩ := member_drops (by simp) (drop_add h)
    rw [skipSpace_key h, membersFrom_member (by simp) (drop_add h) (by omega), memberAt]
    dsimp only
    rw [afterValue_last hslot (by omega), membersFrom, if_neg (by omega)]
    rfl
  | .cons pre key mid mid' v post ms, i, fuel, rest, h, hstop, hfuel => by
    have hv := node_length_pos v
    simp only [Members.text, List.append_assoc, List.length_append, List.cons_append,
      List.length_cons, lit_self] at h hstop hfuel
    obtain ⟨fuel, rfl⟩ : ∃ n, fuel = n + 1 := ⟨fuel - 1, by omega⟩
    obtain ⟨-, -, hcolon, -⟩ := member_drops (by simp) (drop_add h)
    have hrest := drop_succ (drop_add (drop_add (drop_add hcolon)))
    have hlen : i + pre.text.length + memberLen key mid mid' v post + 1 =
        i + pre.text.length + key.quoted.length + mid.text.length + 1 + mid'.text.length +
          v.text.length + post.text.length + 1 := by
      simp only [memberLen]
      omega
    have hms : membersFrom src stop fuel _ = _ :=
      membersFrom_spans stop ms hrest (by omega) (by omega)
    rw [skipSpace_key h, membersFrom_member (by simp) (drop_add h) (by omega), memberAt]
    dsimp only
    rw [afterValue_comma (drop_add hcolon) (by omega), hms, memberSpans, hlen]
    rfl

theorem members_obj {start stop : ℕ} {ms : Members Char} {rest : List Char}
    (h : src.drop (start + 1) = ms.text ++ '}' :: rest)
    (hstop : stop = start + 1 + ms.text.length + 1) :
    members src start stop = some (memberSpans (start + 1) ms) :=
  membersFrom_spans stop ms h hstop (by omega)

/-- A step that writes the value of a member, once the key is written, writes the member. -/
theorem member_run {r : Rules} {o : Options}
    {f : List Char → ℕ → ℕ → JsonRewriter → Option JsonRewriter} {P : Node Char → Node Char → Prop}
    {i : ℕ} {key : Body Char} {mid mid' : Space Char} {v : Node Char} {post : Space Char} {c : Char}
    {w : JsonRewriter} {t rest : List Char} (hc : c ∈ [',', '}', ']'])
    (hf : Runs src (f key.decoded) P v)
    (h : src.drop i = key.quoted ++ (mid.text ++ ':' :: (mid'.text ++ (v.text ++
      (post.text ++ c :: rest))))) (hw : w.Wrote src i t) :
    ∃ w' key' v' post', f key.decoded (memberAt i key mid mid' v post).valueStart
        (memberAt i key mid mid' v post).valEnd
        (text r o src i (i + key.quoted.length) w) = some w' ∧
      key'.decoded = r.text o key.decoded ∧ P v v' ∧ KeepsSpace v v' post post' ∧
      w'.Wrote src (i + memberLen key mid mid' v post) (t ++ (Body.quoted key' ++
        (mid.text ++ ':' :: (mid'.text ++ (v'.text ++ post'.text))))) := by
  obtain ⟨-, -, -, hslot⟩ := member_drops hc h
  obtain ⟨key', hkey, hw₁⟩ := text_wrote r o h hw
  have hmid := hw₁.copy (drop_add h)
  have hcolon := hmid.copy (u := [':']) (drop_add (drop_add h))
  have hmid' := hcolon.copy (drop_succ (drop_add (drop_add h)))
  obtain ⟨w', v', post', hrun, hP, hpost, hw'⟩ := hf hslot hmid'
  refine ⟨w', key', v', post', hrun, hkey, hP, hpost, ?_⟩
  simpa [memberLen, Nat.add_assoc] using hw'

/-- Such a step writes the members. -/
theorem members_run {r : Rules} {o : Options}
    {f : List Char → ℕ → ℕ → JsonRewriter → Option JsonRewriter}
    {P : Body Char → Node Char → Node Char → Prop} : ∀ (ms : Members Char) {i : ℕ}
    {w : JsonRewriter} {t rest : List Char},
    (∀ key v, (key, v) ∈ pairs ms → Runs src (f key.decoded) (P key) v) →
    src.drop i = ms.text ++ '}' :: rest → w.Wrote src i t →
    ∃ w' ms', (memberSpans i ms).foldlM (fun w m =>
        f m.key m.valueStart m.valEnd (text r o src m.keyStart m.keyEnd w)) w = some w' ∧
      MembersRewrite (r.text o) P ms ms' ∧ w'.Wrote src (i + ms.text.length) (t ++ ms'.text)
  | .one pre key mid mid' v post, i, w, t, rest, hf, h, hw => by
    simp only [Members.text, List.append_assoc, List.cons_append, lit_self] at h
    obtain ⟨w', key', v', post', hrun, hkey, hP, hpost, hw'⟩ :=
      member_run (by simp) (hf key v (by simp [pairs])) (drop_add h) (hw.copy h)
    refine ⟨w', .one pre key' mid mid' v' post', ?_, .one hkey hP hpost, ?_⟩
    · simpa [memberSpans, memberAt] using hrun
    · simpa [Members.text, memberLen, Nat.add_assoc, Nat.add_comm 1] using hw'
  | .cons pre key mid mid' v post ms, i, w, t, rest, hf, h, hw => by
    simp only [Members.text, List.append_assoc, List.cons_append, lit_self] at h
    obtain ⟨w₁, key', v', post', hrun, hkey, hP, hpost, hw₁⟩ :=
      member_run (by simp) (hf key v (by simp [pairs])) (drop_add h) (hw.copy h)
    have hcomma := member_after (drop_add h)
    obtain ⟨w', ms', hfold, hms, hw'⟩ := members_run ms
      (fun key' v' h' => hf key' v' (by simp [pairs, h'])) (drop_succ hcomma)
      (hw₁.copy (u := [',']) hcomma)
    refine ⟨w', .cons pre key' mid mid' v' post' ms', ?_, .cons hkey hP hpost hms, ?_⟩
    · rw [memberSpans, List.foldlM_cons]
      simp only [memberAt] at hrun ⊢
      rw [hrun]
      exact hfold
    · simpa [Members.text, memberLen, Nat.add_assoc, Nat.add_comm 1, Nat.add_comm 2] using hw'

end Members

end Kubeast.Redact
