import Kubeast.Foundation.Json
import Mathlib.Data.List.TakeWhile

/-! A parser for JSON texts. It accepts what is the text of a tree, and nothing else. -/
namespace Json
open Symbols

section Parse

def takeSpace (s : List Char) : Space Char × List Char :=
  (⟨s.takeWhile isSpaceChar, by
    rw [map_char_self]
    exact List.all_takeWhile⟩, s.dropWhile isSpaceChar)

/-- A number or a word. -/
def takeScalar (s : List Char) : Option (Scalar Char × List Char) :=
  if h : isScalar ((s.takeWhile isScalarChar).map char) = true then
    some (⟨s.takeWhile isScalarChar, h⟩, s.dropWhile isScalarChar)
  else none

/-- A string whose opening quote has been read. -/
def takeBody (s : List Char) : Option (Body Char × List Char) := do
  let n ← stringLen s
  if h : isBody ((s.take (n - 1)).map char) = true then some (⟨s.take (n - 1), h⟩, s.drop n)
  else none

/-- The text after a character that has to come first. -/
def expect (c : Char) : List Char → Option (List Char)
  | [] => none
  | d :: s => if c = d then some s else none

mutual

def parseNode : ℕ → List Char → Option (Node Char × List Char)
  | 0, _ => none
  | n + 1, s =>
    if s.head? = some '"' then do
      let (b, t) ← takeBody s.tail
      return (.str b, t)
    else if s.head? = some '[' then
      if (takeSpace s.tail).2.head? = some ']' then
        some (.emptyArr (takeSpace s.tail).1, (takeSpace s.tail).2.tail)
      else do
        let (es, t) ← parseElems n s.tail
        let t ← expect ']' t
        return (.arr es, t)
    else if s.head? = some '{' then
      if (takeSpace s.tail).2.head? = some '}' then
        some (.emptyObj (takeSpace s.tail).1, (takeSpace s.tail).2.tail)
      else do
        let (ms, t) ← parseMembers n s.tail
        let t ← expect '}' t
        return (.obj ms, t)
    else do
      let (x, t) ← takeScalar s
      return (.scalar x, t)

def parseElems : ℕ → List Char → Option (Elems Char × List Char)
  | 0, _ => none
  | n + 1, s => do
    let (v, t) ← parseNode n (takeSpace s).2
    if (takeSpace t).2.head? = some ',' then do
      let (rest, t') ← parseElems n (takeSpace t).2.tail
      return (.cons (takeSpace s).1 v (takeSpace t).1 rest, t')
    else return (.one (takeSpace s).1 v (takeSpace t).1, (takeSpace t).2)

def parseMembers : ℕ → List Char → Option (Members Char × List Char)
  | 0, _ => none
  | n + 1, s => do
    let s₁ ← expect '"' (takeSpace s).2
    let (key, s₂) ← takeBody s₁
    let s₃ ← expect ':' (takeSpace s₂).2
    let (v, t) ← parseNode n (takeSpace s₃).2
    if (takeSpace t).2.head? = some ',' then do
      let (rest, t') ← parseMembers n (takeSpace t).2.tail
      return (.cons (takeSpace s).1 key (takeSpace s₂).1 (takeSpace s₃).1 v (takeSpace t).1 rest, t')
    else return (.one (takeSpace s).1 key (takeSpace s₂).1 (takeSpace s₃).1 v (takeSpace t).1,
      (takeSpace t).2)

end

end Parse

section Sound

theorem takeSpace_text (s : List Char) : (takeSpace s).1.text ++ (takeSpace s).2 = s :=
  List.takeWhile_append_dropWhile

theorem takeScalar_text {s r : List Char} {t : Scalar Char} (h : takeScalar s = some (t, r)) :
    s = t.text ++ r := by
  unfold takeScalar at h
  split_ifs at h
  cases h
  exact List.takeWhile_append_dropWhile.symm

theorem expect_eq_some {c : Char} {s r : List Char} : expect c s = some r ↔ s = c :: r := by
  cases s with
  | nil => simp [expect]
  | cons d s =>
    by_cases h : c = d
    · simp [expect, h]
    · simp [expect, h, Ne.symm h]

theorem stringLen_eq_some {s : List Char} {n : ℕ} (h : stringLen s = some n) :
    ∃ t, n = t.length + 1 ∧ s = t ++ '"' :: s.drop n := by
  rw [stringLen.eq_def] at h
  split at h
  · cases h
  · next a s =>
    split_ifs at h with hquote hslash
    · cases h
      exact ⟨[], rfl, by simpa using hquote⟩
    · split at h
      · cases h
      · next b s =>
        obtain ⟨m, hm, rfl⟩ := Option.map_eq_some_iff.mp h
        obtain ⟨t, rfl, ht⟩ := stringLen_eq_some hm
        refine ⟨a :: b :: t, rfl, ?_⟩
        conv_lhs => rw [ht]
        rfl
    · obtain ⟨m, hm, rfl⟩ := Option.map_eq_some_iff.mp h
      obtain ⟨t, rfl, ht⟩ := stringLen_eq_some hm
      refine ⟨a :: t, rfl, ?_⟩
      conv_lhs => rw [ht]
      rfl
termination_by s.length

theorem takeBody_text {s r : List Char} {b : Body Char} (h : takeBody s = some (b, r)) :
    '"' :: s = b.quoted ++ r := by
  unfold takeBody at h
  obtain ⟨n, hn, h⟩ := Option.bind_eq_some_iff.mp h
  obtain ⟨t, rfl, hs⟩ := stringLen_eq_some hn
  split_ifs at h
  cases h
  have htake : s.take t.length = t := by
    rw [hs]
    exact List.take_left
  rw [Body.quoted]
  simp only [Nat.add_sub_cancel, htake, lit_self]
  conv_lhs => rw [hs]
  simp

theorem takeSpace_of_head? {s : List Char} {c : Char} (h : (takeSpace s).2.head? = some c) :
    s = (takeSpace s).1.text ++ c :: (takeSpace s).2.tail := by
  conv_lhs => rw [← takeSpace_text s]
  rw [← List.cons_head?_tail h]
  rfl

mutual

theorem parseNode_text {n : ℕ} {s r : List Char} {v : Node Char}
    (h : parseNode n s = some (v, r)) : s = v.text ++ r := by
  cases n with
  | zero => cases h
  | succ n =>
    rw [parseNode] at h
    split_ifs at h with hstr harr hempty hobj hempty'
    · obtain ⟨⟨b, t⟩, hb, h⟩ := Option.bind_eq_some_iff.mp h
      cases h
      rw [← List.cons_head?_tail hstr]
      exact takeBody_text hb
    · cases h
      rw [← List.cons_head?_tail harr]
      have hspace := takeSpace_of_head? hempty
      conv_lhs => rw [hspace]
      simp [Node.text]
    · obtain ⟨⟨es, t⟩, hes, h⟩ := Option.bind_eq_some_iff.mp h
      obtain ⟨t', hexpect, h⟩ := Option.bind_eq_some_iff.mp h
      cases h
      rw [← List.cons_head?_tail harr, parseElems_text hes, expect_eq_some.mp hexpect]
      simp [Node.text]
    · cases h
      rw [← List.cons_head?_tail hobj]
      have hspace := takeSpace_of_head? hempty'
      conv_lhs => rw [hspace]
      simp [Node.text]
    · obtain ⟨⟨ms, t⟩, hms, h⟩ := Option.bind_eq_some_iff.mp h
      obtain ⟨t', hexpect, h⟩ := Option.bind_eq_some_iff.mp h
      cases h
      rw [← List.cons_head?_tail hobj, parseMembers_text hms, expect_eq_some.mp hexpect]
      simp [Node.text]
    · obtain ⟨⟨x, t⟩, hx, h⟩ := Option.bind_eq_some_iff.mp h
      cases h
      exact takeScalar_text hx

theorem parseElems_text {n : ℕ} {s r : List Char} {es : Elems Char}
    (h : parseElems n s = some (es, r)) : s = es.text ++ r := by
  cases n with
  | zero => cases h
  | succ n =>
    rw [parseElems] at h
    obtain ⟨⟨v, t⟩, hv, h⟩ := Option.bind_eq_some_iff.mp h
    have hpre := takeSpace_text s
    rw [parseNode_text hv] at hpre
    dsimp only at h
    split_ifs at h with hcomma
    · obtain ⟨⟨rest, t'⟩, hrest, h⟩ := Option.bind_eq_some_iff.mp h
      cases h
      have hpost := takeSpace_of_head? hcomma
      rw [parseElems_text hrest] at hpost
      conv_lhs => rw [← hpre, hpost]
      simp [Elems.text]
    · cases h
      conv_lhs => rw [← hpre, ← takeSpace_text t]
      simp [Elems.text]

theorem parseMembers_text {n : ℕ} {s r : List Char} {ms : Members Char}
    (h : parseMembers n s = some (ms, r)) : s = ms.text ++ r := by
  cases n with
  | zero => cases h
  | succ n =>
    rw [parseMembers] at h
    obtain ⟨s₁, hquote, h⟩ := Option.bind_eq_some_iff.mp h
    obtain ⟨⟨key, s₂⟩, hkey, h⟩ := Option.bind_eq_some_iff.mp h
    obtain ⟨s₃, hcolon, h⟩ := Option.bind_eq_some_iff.mp h
    obtain ⟨⟨v, t⟩, hv, h⟩ := Option.bind_eq_some_iff.mp h
    have hpre := takeSpace_text s
    have hmid := takeSpace_text s₂
    have hmid' := takeSpace_text s₃
    rw [expect_eq_some.mp hquote, takeBody_text hkey] at hpre
    rw [expect_eq_some.mp hcolon] at hmid
    rw [parseNode_text hv] at hmid'
    dsimp only at h
    split_ifs at h with hcomma
    · obtain ⟨⟨rest, t'⟩, hrest, h⟩ := Option.bind_eq_some_iff.mp h
      cases h
      have hpost := takeSpace_of_head? hcomma
      rw [parseMembers_text hrest] at hpost
      conv_lhs => rw [← hpre, ← hmid, ← hmid', hpost]
      simp [Members.text]
    · cases h
      conv_lhs => rw [← hpre, ← hmid, ← hmid', ← takeSpace_text t]
      simp [Members.text]

end

end Sound
section Complete

/-- The text does not begin with a character of `p`. -/
def NotFirst (p : Char → Bool) (s : List Char) : Prop := ∀ c, s.head? = some c → p c = false

theorem NotFirst.cons {p : Char → Bool} {c : Char} {s : List Char} (h : p c = false) :
    NotFirst p (c :: s) := by
  intro d hd
  cases hd
  exact h

theorem NotFirst.nil {p : Char → Bool} : NotFirst p [] := fun _ h => by cases h

theorem takeWhile_of_notFirst {p : Char → Bool} {t r : List Char} (ht : ∀ c ∈ t, p c = true)
    (hr : NotFirst p r) : (t ++ r).takeWhile p = t ∧ (t ++ r).dropWhile p = r := by
  rw [List.takeWhile_append_of_pos ht, List.dropWhile_append_of_pos ht]
  cases r with
  | nil => simp
  | cons c r => simp [hr c rfl]

theorem takeSpace_append (ws : Space Char) {r : List Char} (hr : NotFirst isSpaceChar r) :
    takeSpace (ws.text ++ r) = (ws, r) := by
  have hws := ws.valid
  rw [map_char_self, List.all_eq_true] at hws
  obtain ⟨htake, hdrop⟩ := takeWhile_of_notFirst hws hr
  cases ws
  simp [takeSpace, htake, hdrop]

theorem takeScalar_append (x : Scalar Char) {r : List Char} (hr : NotFirst isScalarChar r) :
    takeScalar (x.text ++ r) = some (x, r) := by
  obtain ⟨htake, hdrop⟩ := takeWhile_of_notFirst x.isScalarChar hr
  have hvalid := x.valid
  cases x
  simp_all [takeScalar]

theorem takeBody_append (b : Body Char) (r : List Char) :
    takeBody (b.text ++ '"' :: r) = some (b, r) := by
  have hvalid := b.valid
  have hlen := stringLen_body b.text r hvalid
  cases b
  simp_all [takeBody]

/-- A value begins with a character that is no space and ends no container. -/
theorem Node.head (v : Node Char) : ∃ c s, v.text = c :: s ∧ isSpaceChar c = false ∧
    c ≠ ']' ∧ c ≠ '}' := by
  cases v with
  | scalar t =>
    obtain ⟨a, s, hs⟩ := t.exists_cons
    have ha := t.isScalarChar a (by simp [hs])
    refine ⟨a, s, hs, ?_, ?_, ?_⟩
    · rw [Bool.eq_false_iff]
      intro h
      simp only [isSpaceChar, Bool.or_eq_true, decide_eq_true_eq] at h
      rcases h with ((h | h) | h) | h <;> rw [h] at ha <;> exact absurd ha (by decide)
    · rintro rfl
      exact absurd ha (by decide)
    · rintro rfl
      exact absurd ha (by decide)
  | str b => exact ⟨_, _, rfl, by decide, by decide, by decide⟩
  | emptyArr ws => exact ⟨_, _, rfl, by decide, by decide, by decide⟩
  | arr es => exact ⟨_, _, rfl, by decide, by decide, by decide⟩
  | emptyObj ws => exact ⟨_, _, rfl, by decide, by decide, by decide⟩
  | obj ms => exact ⟨_, _, rfl, by decide, by decide, by decide⟩

theorem Node.notFirst (v : Node Char) (r : List Char) : NotFirst isSpaceChar (v.text ++ r) := by
  obtain ⟨c, s, hs, hspace, -, -⟩ := v.head
  rw [hs]
  exact NotFirst.cons hspace

theorem Space.notFirst (ws : Space Char) {c : Char} {r : List Char} (hc : isScalarChar c = false) :
    NotFirst isScalarChar (ws.text ++ c :: r) := by
  have hws := ws.valid
  rw [map_char_self, List.all_eq_true] at hws
  cases h : ws.text with
  | nil => exact NotFirst.cons hc
  | cons d s =>
    apply NotFirst.cons
    rw [Bool.eq_false_iff]
    intro hd
    have hspace := hws d (by simp [h])
    simp only [isSpaceChar, Bool.or_eq_true, decide_eq_true_eq] at hspace
    rcases hspace with ((h | h) | h) | h <;> rw [h] at hd <;> exact absurd hd (by decide)

theorem Space.notFirst_nil (ws : Space Char) : NotFirst isScalarChar ws.text := by
  intro c hc
  have hfirst := ws.notFirst (c := '}') (r := []) (by decide)
  apply hfirst
  rw [List.head?_append, hc]
  rfl

mutual

/-- How deep the calls of the parser go on a value. -/
def Node.fuel : Node Char → ℕ
  | .arr es => es.fuel + 1
  | .obj ms => ms.fuel + 1
  | _ => 1

def Elems.fuel : Elems Char → ℕ
  | .one _ v _ => v.fuel + 1
  | .cons _ v _ rest => max v.fuel rest.fuel + 1

def Members.fuel : Members Char → ℕ
  | .one _ _ _ _ v _ => v.fuel + 1
  | .cons _ _ _ _ v _ rest => max v.fuel rest.fuel + 1

end

mutual

theorem parseNode_append : ∀ (v : Node Char) {n : ℕ} {r : List Char}, v.fuel ≤ n →
    NotFirst isScalarChar r → parseNode n (v.text ++ r) = some (v, r)
  | .scalar t, 0, _, hn, _ | .str b, 0, _, hn, _ | .emptyArr ws, 0, _, hn, _
  | .emptyObj ws, 0, _, hn, _ | .arr es, 0, _, hn, _ | .obj ms, 0, _, hn, _ => by
    simp [Node.fuel] at hn
  | .scalar t, n + 1, r, _, hr => by
    obtain ⟨a, s, hs⟩ := t.exists_cons
    have ha : isScalarChar a = true := t.isScalarChar a (by simp [hs])
    have hopen : a ≠ '"' ∧ a ≠ '[' ∧ a ≠ '{' := by
      refine ⟨?_, ?_, ?_⟩ <;> rintro rfl <;> exact absurd ha (by decide)
    have htake := takeScalar_append t hr
    rw [hs] at htake
    rw [Node.text, hs, parseNode]
    simp only [List.cons_append, List.head?_cons, Option.some.injEq, hopen, if_false]
    rw [← List.cons_append, htake]
    rfl
  | .str b, n + 1, r, _, _ => by
    rw [parseNode]
    simp [Node.text, Body.quoted, takeBody_append]
  | .emptyArr ws, n + 1, r, _, _ => by
    have hspace := takeSpace_append ws (r := ']' :: r) (NotFirst.cons (by decide))
    rw [parseNode]
    simp [Node.text, hspace]
  | .emptyObj ws, n + 1, r, _, _ => by
    have hspace := takeSpace_append ws (r := '}' :: r) (NotFirst.cons (by decide))
    rw [parseNode]
    simp [Node.text, hspace]
  | .arr es, n + 1, r, hn, _ => by
    have hes := parseElems_append es (n := n) (r := r) (by simp [Node.fuel] at hn; omega)
    rw [parseNode]
    simp [Node.text, hes.2, hes.1, expect]
  | .obj ms, n + 1, r, hn, _ => by
    have hms := parseMembers_append ms (n := n) (r := r) (by simp [Node.fuel] at hn; omega)
    rw [parseNode]
    simp [Node.text, hms.2, hms.1, expect]

theorem parseElems_append : ∀ (es : Elems Char) {n : ℕ} {r : List Char}, es.fuel ≤ n →
    (takeSpace (es.text ++ ']' :: r)).2.head? ≠ some ']' ∧
    parseElems n (es.text ++ ']' :: r) = some (es, ']' :: r)
  | .one pre v post, 0, _, hn | .cons pre v post rest, 0, _, hn => by simp [Elems.fuel] at hn
  | .one pre v post, n + 1, r, hn => by
    have hv := parseNode_append v (n := n) (r := post.text ++ ']' :: r)
      (by simp [Elems.fuel] at hn; omega) (post.notFirst (by decide))
    have hpre := takeSpace_append pre (v.notFirst (post.text ++ ']' :: r))
    have hpost := takeSpace_append post (r := ']' :: r) (NotFirst.cons (by decide))
    obtain ⟨c, s, hs, -, hclose, -⟩ := v.head
    rw [parseElems]
    simp only [Elems.text, List.append_assoc, hpre]
    refine ⟨by simp [hs, hclose], ?_⟩
    simp [hv, hpost]
  | .cons pre v post rest, n + 1, r, hn => by
    have hrest := parseElems_append rest (n := n) (r := r) (by simp [Elems.fuel] at hn; omega)
    have hv := parseNode_append v (n := n) (r := post.text ++ ',' :: (rest.text ++ ']' :: r))
      (by simp [Elems.fuel] at hn; omega) (post.notFirst (by decide))
    have hpre := takeSpace_append pre (v.notFirst (post.text ++ ',' :: (rest.text ++ ']' :: r)))
    have hpost := takeSpace_append post (r := ',' :: (rest.text ++ ']' :: r))
      (NotFirst.cons (by decide))
    obtain ⟨c, s, hs, -, hclose, -⟩ := v.head
    rw [parseElems]
    simp only [Elems.text, List.append_assoc, List.cons_append, lit_self, hpre]
    refine ⟨by simp [hs, hclose], ?_⟩
    simp [hv, hpost, hrest.2]

theorem parseMembers_append : ∀ (ms : Members Char) {n : ℕ} {r : List Char}, ms.fuel ≤ n →
    (takeSpace (ms.text ++ '}' :: r)).2.head? ≠ some '}' ∧
    parseMembers n (ms.text ++ '}' :: r) = some (ms, '}' :: r)
  | .one pre key mid mid' v post, 0, _, hn | .cons pre key mid mid' v post rest, 0, _, hn => by
    simp [Members.fuel] at hn
  | .one pre key mid mid' v post, n + 1, r, hn => by
    have hv := parseNode_append v (n := n) (r := post.text ++ '}' :: r)
      (by simp [Members.fuel] at hn; omega) (post.notFirst (by decide))
    have hpre := takeSpace_append pre (r := key.quoted ++ (mid.text ++ ':' :: (mid'.text ++
      (v.text ++ (post.text ++ '}' :: r))))) (NotFirst.cons (by decide))
    have hmid := takeSpace_append mid (r := ':' :: (mid'.text ++ (v.text ++ (post.text ++ '}' :: r))))
      (NotFirst.cons (by decide))
    have hmid' := takeSpace_append mid' (v.notFirst (post.text ++ '}' :: r))
    have hpost := takeSpace_append post (r := '}' :: r) (NotFirst.cons (by decide))
    rw [parseMembers]
    simp only [Members.text, List.append_assoc, List.cons_append, lit_self, hpre]
    refine ⟨by simp [Body.quoted], ?_⟩
    simp [Body.quoted, expect, takeBody_append, hmid, hmid', hv, hpost]
  | .cons pre key mid mid' v post rest, n + 1, r, hn => by
    have hrest := parseMembers_append rest (n := n) (r := r) (by simp [Members.fuel] at hn; omega)
    have hv := parseNode_append v (n := n) (r := post.text ++ ',' :: (rest.text ++ '}' :: r))
      (by simp [Members.fuel] at hn; omega) (post.notFirst (by decide))
    have hpre := takeSpace_append pre (r := key.quoted ++ (mid.text ++ ':' :: (mid'.text ++
      (v.text ++ (post.text ++ ',' :: (rest.text ++ '}' :: r)))))) (NotFirst.cons (by decide))
    have hmid := takeSpace_append mid (r := ':' :: (mid'.text ++ (v.text ++ (post.text ++
      ',' :: (rest.text ++ '}' :: r))))) (NotFirst.cons (by decide))
    have hmid' := takeSpace_append mid' (v.notFirst (post.text ++ ',' :: (rest.text ++ '}' :: r)))
    have hpost := takeSpace_append post (r := ',' :: (rest.text ++ '}' :: r))
      (NotFirst.cons (by decide))
    rw [parseMembers]
    simp only [Members.text, List.append_assoc, List.cons_append, lit_self, hpre]
    refine ⟨by simp [Body.quoted], ?_⟩
    simp [Body.quoted, expect, takeBody_append, hmid, hmid', hv, hpost, hrest.2]

end

mutual

theorem Node.fuel_lt : ∀ v : Node Char, v.fuel < 2 * v.text.length
  | .scalar t => by
    obtain ⟨a, s, hs⟩ := t.exists_cons
    simp [Node.fuel, Node.text, hs]
    omega
  | .str b => by
    simp [Node.fuel, Node.text, Body.quoted]
    omega
  | .emptyArr ws | .emptyObj ws => by
    simp [Node.fuel, Node.text]
    omega
  | .arr es => by
    have h := es.fuel_le
    simp only [Node.fuel, Node.text, List.length_cons, List.length_append]
    omega
  | .obj ms => by
    have h := ms.fuel_le
    simp only [Node.fuel, Node.text, List.length_cons, List.length_append]
    omega

theorem Elems.fuel_le : ∀ es : Elems Char, es.fuel ≤ 2 * es.text.length
  | .one pre v post => by
    have h := v.fuel_lt
    simp only [Elems.fuel, Elems.text, List.length_append]
    omega
  | .cons pre v post rest => by
    have h := v.fuel_lt
    have h' := rest.fuel_le
    simp only [Elems.fuel, Elems.text, List.length_append, List.length_cons]
    omega

theorem Members.fuel_le : ∀ ms : Members Char, ms.fuel ≤ 2 * ms.text.length
  | .one pre key mid mid' v post => by
    have h := v.fuel_lt
    simp only [Members.fuel, Members.text, List.length_append, List.length_cons]
    omega
  | .cons pre key mid mid' v post rest => by
    have h := v.fuel_lt
    have h' := rest.fuel_le
    simp only [Members.fuel, Members.text, List.length_append, List.length_cons]
    omega

end

end Complete

section Document

/-- A value and the space around it. -/
structure Document where
  pre : Space Char
  value : Node Char
  post : Space Char

def Document.text (d : Document) : List Char := d.pre.text ++ (d.value.text ++ d.post.text)

def parse (s : List Char) : Option Document := do
  let (v, t) ← parseNode (2 * s.length) (takeSpace s).2
  if (takeSpace t).2 = [] then some ⟨(takeSpace s).1, v, (takeSpace t).1⟩ else none

/-- The parser accepts the texts of documents, and reads each as the one document it is the text
of. -/
theorem parse_eq_some {s : List Char} {d : Document} : parse s = some d ↔ s = d.text := by
  constructor
  · intro h
    obtain ⟨⟨v, t⟩, hv, h⟩ := Option.bind_eq_some_iff.mp h
    dsimp only at h
    split_ifs at h with hend
    cases h
    have hpre := takeSpace_text s
    have hpost := takeSpace_text t
    rw [hend, List.append_nil] at hpost
    rw [parseNode_text hv, ← hpost] at hpre
    exact hpre.symm
  · rintro rfl
    have hpre := takeSpace_append d.pre (d.value.notFirst d.post.text)
    have hpost : takeSpace d.post.text = (d.post, []) := by
      simpa using takeSpace_append d.post NotFirst.nil
    have hfuel : d.value.fuel ≤ 2 * d.text.length := by
      have h := d.value.fuel_lt
      simp only [Document.text, List.length_append]
      omega
    have hv := parseNode_append d.value hfuel d.post.notFirst_nil
    have hparse : parseNode (2 * d.text.length) (takeSpace d.text).2 =
        some (d.value, d.post.text) := by
      rw [← hv, Document.text, hpre]
    unfold parse
    rw [hparse, Document.text, hpre]
    simp [hpost]

theorem Document.text_injective : Function.Injective Document.text := by
  intro d d' h
  have hd := parse_eq_some.mpr (rfl : d.text = d.text)
  rw [h, parse_eq_some.mpr rfl] at hd
  exact (Option.some.inj hd).symm

mutual

/-- How deep objects and arrays are nested. -/
def Node.depth : Node Char → ℕ
  | .scalar _ | .str _ => 0
  | .emptyArr _ | .emptyObj _ => 1
  | .arr es => es.depth + 1
  | .obj ms => ms.depth + 1

def Elems.depth : Elems Char → ℕ
  | .one _ v _ => v.depth
  | .cons _ v _ rest => max v.depth rest.depth

def Members.depth : Members Char → ℕ
  | .one _ _ _ _ v _ => v.depth
  | .cons _ _ _ _ v _ rest => max v.depth rest.depth

end

/-- Deeper texts are refused. -/
def maxNestingDepth : ℕ := 10000

def valid (s : List Char) : Bool := (parse s).any fun d => d.value.depth ≤ maxNestingDepth

theorem valid_iff {s : List Char} :
    valid s = true ↔ ∃ d : Document, s = d.text ∧ d.value.depth ≤ maxNestingDepth := by
  simp [valid, Option.any_eq_true, parse_eq_some]

end Document

end Json
