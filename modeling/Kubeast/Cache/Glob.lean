import Kubeast.Foundation.Glob

/-! The patterns of the in-memory cache (`internal/cache/glob.go`): the glob of Redis over bytes. A read
that misses the pattern or the key, where the program would stop, is `none`. -/
namespace Kubeast.Cache
open Gaps

abbrev Bytes := List UInt8

variable {pattern key : Bytes} {p k : ℕ} {b c : UInt8} {r : Bytes}

section Code

/-- `i < len(pattern) && pattern[j] == c`. -/
def reads (pattern : Bytes) (i j : ℕ) (c : UInt8) : Option Bool :=
  if i < pattern.length then pattern[j]?.map (· == c) else some false

/-- The loop of `matchSet` over the members of a set. -/
def scanSet (pattern : Bytes) (b : UInt8) (p : ℕ) (found : Bool) : Option (ℕ × Bool) :=
  if _h : p < pattern.length then do
    let c ← pattern[p]?
    if c = ']'.toUInt8 then some (p, found)
    else if c = '\\'.toUInt8 ∧ p + 1 < pattern.length then do
      let d ← pattern[p + 1]?
      scanSet pattern b (p + 2) (found || d == b)
    else do
      let range ← reads pattern (p + 2) (p + 1) '-'.toUInt8
      if range then do
        let d ← pattern[p + 2]?
        let (lo, hi) := if d < c then (d, c) else (c, d)
        scanSet pattern b (p + 3) (found || (lo ≤ b && b ≤ hi))
      else scanSet pattern b (p + 1) (found || c == b)
  else some (p, found)
termination_by pattern.length - p

def matchSet (pattern : Bytes) (p : ℕ) (b : UInt8) : Option (ℕ × Bool) := do
  let negate ← reads pattern p p '^'.toUInt8
  let (p, found) ← scanSet pattern b (if negate then p + 1 else p) false
  some (if p < pattern.length then p + 1 else p, found != negate)

def matchByte (pattern : Bytes) (p : ℕ) (b : UInt8) : Option (ℕ × Bool) := do
  let c ← pattern[p]?
  if c = '?'.toUInt8 then some (p + 1, true)
  else if c = '['.toUInt8 then matchSet pattern (p + 1) b
  else
    let p := if c = '\\'.toUInt8 ∧ p + 1 < pattern.length then p + 1 else p
    let d ← pattern[p]?
    some (p + 1, d == b)

end Code

section Reading

/-- A byte of a set, or two bytes with all that is between them. -/
inductive Member
  | byte (c : UInt8)
  | range (c d : UInt8)

def Member.takes : Member → UInt8 → Bool
  | .byte c, b => c == b
  | .range c d, b => (c ≤ b && b ≤ d) || (d ≤ b && b ≤ c)

/-- The members of a set up to its `]`, and the pattern behind it. -/
def members : Bytes → List Member × Bytes
  | [] => ([], [])
  | [c] => if c = ']'.toUInt8 then ([], []) else ([.byte c], [])
  | [c, d] =>
    if c = ']'.toUInt8 then ([], [d])
    else if c = '\\'.toUInt8 then ([.byte d], [])
    else (.byte c :: (members [d]).1, (members [d]).2)
  | c :: d :: e :: r =>
    if c = ']'.toUInt8 then ([], d :: e :: r)
    else if c = '\\'.toUInt8 then (.byte d :: (members (e :: r)).1, (members (e :: r)).2)
    else if d = '-'.toUInt8 then (.range c e :: (members r).1, (members r).2)
    else (.byte c :: (members (d :: e :: r)).1, (members (d :: e :: r)).2)

/-- `[..]` and `[^..]` by what stands behind the `[`. -/
def set (r : Bytes) : Element UInt8 × Bytes :=
  let negate := r.head? == some '^'.toUInt8
  let body := members (if negate then r.tail else r)
  (.one fun b => body.1.any (·.takes b) != negate, body.2)

/-- The first element of a pattern that begins with `c`, and the pattern behind it. -/
def element (c : UInt8) (r : Bytes) : Element UInt8 × Bytes :=
  if c = '*'.toUInt8 then (.gap, r)
  else if c = '?'.toUInt8 then (.one fun _ => true, r)
  else if c = '['.toUInt8 then set r
  else if c = '\\'.toUInt8 then
    match r with
    | d :: r => (.one (d == ·), r)
    | [] => (.one (c == ·), [])
  else (.one (c == ·), r)

theorem members_length (r : Bytes) : (members r).2.length ≤ r.length := by
  induction r using members.induct with
  | case1 => exact le_rfl
  | _ => simp_all [members] <;> omega

theorem element_length (c : UInt8) (r : Bytes) : (element c r).2.length ≤ r.length := by
  unfold element
  split_ifs
  · exact le_rfl
  · exact le_rfl
  · unfold set
    refine (members_length _).trans ?_
    split
    · exact List.length_tail ▸ Nat.sub_le _ _
    · exact le_rfl
  · cases r with
    | nil => exact le_rfl
    | cons d r => exact Nat.le_succ _
  · exact le_rfl

/-- A pattern as the elements that it stands for. -/
def elements : Bytes → List (Element UInt8)
  | [] => []
  | c :: r => (element c r).1 :: elements (element c r).2
termination_by r => r.length
decreasing_by exact Nat.lt_succ_of_le (element_length c r)

end Reading

section Spec

theorem read_of_drop (h : pattern.drop p = r) (i : ℕ) : pattern[p + i]? = r[i]? := by
  rw [← h, List.getElem?_drop]

theorem length_of_drop (h : pattern.drop p = c :: r) : pattern.length = p + r.length + 1 := by
  have hlen := congrArg List.length h
  rw [List.length_drop, List.length_cons] at hlen
  omega

theorem drop_succ (h : pattern.drop p = c :: r) : pattern.drop (p + 1) = r := by
  rw [← List.drop_drop, h, List.drop_one, List.tail_cons]

/-- A range takes what is between its two bytes, whichever comes first. -/
theorem takes_range (c d b : UInt8) : (Member.range c d).takes b =
    ((if d < c then d else c) ≤ b && b ≤ if d < c then c else d) := by
  have hle (x y : UInt8) : x ≤ y ↔ x.toNat ≤ y.toNat := UInt8.le_iff_toNat_le
  have hlt (x y : UInt8) : x < y ↔ x.toNat < y.toNat := UInt8.lt_iff_toNat_lt
  rw [Bool.eq_iff_iff]
  split_ifs with hdc <;> simp only [Member.takes, Bool.or_eq_true, Bool.and_eq_true, decide_eq_true_eq, hle]
  all_goals
    rw [hlt] at hdc
    omega

variable {found : Bool} {d e : UInt8}

theorem scanSet_end (h : pattern.drop p = []) : scanSet pattern b p found = some (p, found) := by
  rw [scanSet, dif_neg (Nat.not_lt.mpr (List.drop_eq_nil_iff.mp h))]

/-- A turn of the loop by what is left of the pattern. -/
theorem scanSet_cons (h : pattern.drop p = c :: r) : scanSet pattern b p found =
    if c = ']'.toUInt8 then some (p, found)
    else if c = '\\'.toUInt8 ∧ r ≠ [] then scanSet pattern b (p + 2) (found || r.head? == some b)
    else if 1 < r.length ∧ r.head? = some '-'.toUInt8 then
      scanSet pattern b (p + 3) (found || r[1]?.any fun d => (Member.range c d).takes b)
    else scanSet pattern b (p + 1) (found || c == b) := by
  have hlen := length_of_drop h
  have h0 : pattern[p]? = some c := read_of_drop h 0
  have h1 : pattern[p + 1]? = r[0]? := read_of_drop h 1
  have h2 : pattern[p + 2]? = r[1]? := read_of_drop h 2
  have hdash : reads pattern (p + 2) (p + 1) '-'.toUInt8 =
      some (decide (1 < r.length ∧ r.head? = some '-'.toUInt8)) := by
    rw [reads, h1, List.head?_eq_getElem?]
    split_ifs with hmore
    · have hlong : 1 < r.length := by omega
      rw [List.getElem?_eq_getElem (Nat.zero_lt_of_lt hlong)]
      simp [hlong, beq_eq_decide]
    · have hshort : ¬ 1 < r.length := by omega
      rw [decide_eq_false fun hboth => hshort hboth.1]
  rw [scanSet, dif_pos (by omega), h0, h1, h2, hdash]
  rcases r with _ | ⟨d, _ | ⟨e, r⟩⟩
  · simp [hlen]
  · simp [hlen]
  · have hswap : (if e < c then (e, c) else (c, e)) = (if e < c then e else c, if e < c then c else e) := by
      split_ifs <;> rfl
    simp [hlen, takes_range, hswap]

theorem members_cons (c : UInt8) (r : Bytes) : members (c :: r) =
    if c = ']'.toUInt8 then ([], r)
    else if c = '\\'.toUInt8 ∧ r ≠ [] then
      (.byte (r.headD c) :: (members r.tail).1, (members r.tail).2)
    else if 1 < r.length ∧ r.head? = some '-'.toUInt8 then
      (.range c (r.getD 1 c) :: (members (r.drop 2)).1, (members (r.drop 2)).2)
    else (.byte c :: (members r).1, (members r).2) := by
  rcases r with _ | ⟨d, _ | ⟨e, r⟩⟩ <;> simp [members]

/-- Where a set is closed the scan stands at its `]`, which the caller steps over. -/
def behindSet (pattern : Bytes) (q : ℕ) : ℕ := if q < pattern.length then q + 1 else q

/-- The loop reads the members of the set and stops at its `]`, or where the pattern ends. -/
theorem scanSet_spec (pattern : Bytes) (b : UInt8) (p : ℕ) (found : Bool) (hp : p ≤ pattern.length) :
    ∃ q, p ≤ q ∧ q ≤ pattern.length ∧ pattern.drop (behindSet pattern q) = (members (pattern.drop p)).2 ∧
      scanSet pattern b p found = some (q, found || (members (pattern.drop p)).1.any (·.takes b)) := by
  generalize hn : pattern.length - p = n
  induction n using Nat.strong_induction_on generalizing p found with
  | _ n ih =>
    cases hr : pattern.drop p with
    | nil =>
      have hlen : pattern.length ≤ p := List.drop_eq_nil_iff.mp hr
      refine ⟨p, le_rfl, hp, ?_, ?_⟩
      · rw [behindSet, if_neg (Nat.not_lt.mpr hlen), hr]
        rfl
      · rw [scanSet_end hr]
        simp [members]
    | cons c r =>
      have hlen := length_of_drop hr
      have hdrop (i : ℕ) : pattern.drop (p + (i + 1)) = r.drop i := by
        rw [← List.drop_drop, hr, List.drop_succ_cons]
      -- what follows is read by the loop from a later place
      have hrest (i : ℕ) (f : Bool) (hi : i ≤ r.length) : ∃ q, p ≤ q ∧ q ≤ pattern.length ∧
          pattern.drop (behindSet pattern q) = (members (r.drop i)).2 ∧
          scanSet pattern b (p + (i + 1)) f = some (q, f || (members (r.drop i)).1.any (·.takes b)) := by
        obtain ⟨q, hq, hle, hbehind, hscan⟩ :=
          ih (pattern.length - (p + (i + 1))) (by omega) (p + (i + 1)) f (by omega) rfl
        rw [hdrop] at hbehind hscan
        exact ⟨q, by omega, hle, hbehind, hscan⟩
      rw [scanSet_cons hr, members_cons]
      split_ifs with hclose hescape hrange
      · refine ⟨p, le_rfl, hp, ?_, ?_⟩
        · rw [behindSet, if_pos (by omega), drop_succ hr]
        · simp
      · obtain ⟨d, r, rfl⟩ := List.exists_cons_of_ne_nil hescape.2
        obtain ⟨q, hq, hle, hbehind, hscan⟩ := hrest 1 (found || d == b) (Nat.le_add_left 1 _)
        refine ⟨q, hq, hle, hbehind, ?_⟩
        have hhead : ((d :: r).head? == some b) = (d == b) := Option.some_beq_some
        rw [hhead]
        rw [hscan]
        simp [Member.takes, Bool.or_assoc]
      · obtain ⟨q, hq, hle, hbehind, hscan⟩ :=
          hrest 2 (found || r[1]?.any fun d => (Member.range c d).takes b) hrange.1
        refine ⟨q, hq, hle, hbehind, ?_⟩
        have hread : r[1]? = some (r.getD 1 c) := by
          rw [List.getD_eq_getElem?_getD, List.getElem?_eq_getElem hrange.1, Option.getD_some]
        rw [hscan, hread, List.any_cons, Option.any_some, Bool.or_assoc]
      · obtain ⟨q, hq, hle, hbehind, hscan⟩ := hrest 0 (found || c == b) (Nat.zero_le _)
        refine ⟨q, hq, hle, hbehind, ?_⟩
        rw [hscan, List.any_cons, Bool.or_assoc]
        rfl

theorem matchSet_spec (pattern : Bytes) (p : ℕ) (b : UInt8) (hp : p ≤ pattern.length) :
    ∃ s next, p ≤ next ∧ next ≤ pattern.length ∧
      set (pattern.drop p) = (.one s, pattern.drop next) ∧ matchSet pattern p b = some (next, s b) := by
  have hnegate : reads pattern p p '^'.toUInt8 = some ((pattern.drop p).head? == some '^'.toUInt8) := by
    rw [reads, List.head?_drop]
    split_ifs with hlt
    · rw [List.getElem?_eq_getElem hlt]
      rfl
    · rw [List.getElem?_eq_none (Nat.not_lt.mp hlt)]
      rfl
  have hbody (n : Bool) : (if n then (pattern.drop p).tail else pattern.drop p) =
      pattern.drop (if n then p + 1 else p) := by
    cases n
    · rfl
    · exact List.tail_drop
  rw [matchSet, set, hnegate, hbody]
  have hbegin : (if (pattern.drop p).head? == some '^'.toUInt8 then p + 1 else p) ≤ pattern.length := by
    split_ifs with hneg
    · refine Nat.lt_of_le_of_ne hp ?_
      rintro rfl
      rw [List.drop_length] at hneg
      cases hneg
    · exact hp
  obtain ⟨q, hq, hle, hbehind, hscan⟩ := scanSet_spec pattern b
    (if (pattern.drop p).head? == some '^'.toUInt8 then p + 1 else p) false hbegin
  have hpq : p ≤ q := le_trans (by split_ifs <;> omega) hq
  refine ⟨_, behindSet pattern q, ?_, ?_, Prod.ext rfl hbehind.symm, ?_⟩
  · unfold behindSet
    split_ifs <;> omega
  · unfold behindSet
    split_ifs <;> omega
  · simp only [Option.bind_eq_bind, Option.bind_some, hscan, Bool.false_or]
    rfl

/-- An element of the pattern against a byte; the walk goes on behind the element. -/
theorem matchByte_spec (h : pattern.drop p = c :: r) (hc : c ≠ '*'.toUInt8) (b : UInt8) :
    ∃ s next, p < next ∧ next ≤ pattern.length ∧ element c r = (.one s, pattern.drop next) ∧
      matchByte pattern p b = some (next, s b) := by
  have hlen := length_of_drop h
  have h0 : pattern[p]? = some c := read_of_drop h 0
  have h1 : pattern[p + 1]? = r[0]? := read_of_drop h 1
  have hlt : p + 1 ≤ pattern.length := by omega
  have hdrop := drop_succ h
  unfold element matchByte
  rw [if_neg hc, h0]
  simp only [Option.bind_eq_bind, Option.bind_some]
  split_ifs with hone hset hescape hmore hmore
  · exact ⟨_, p + 1, Nat.lt_succ_self p, hlt, by rw [hdrop], rfl⟩
  · obtain ⟨s, next, hnext, hle, hs, hmatch⟩ := matchSet_spec pattern (p + 1) b hlt
    exact ⟨s, next, hnext, hle, hdrop ▸ hs, hmatch⟩
  · cases r with
    | nil => exact absurd hmore.2 (by rw [hlen]; simp)
    | cons d r =>
      rw [h1]
      exact ⟨_, p + 2, by omega, hmore.2, by rw [drop_succ hdrop], rfl⟩
  · cases r with
    | nil =>
      rw [h0]
      exact ⟨_, p + 1, Nat.lt_succ_self p, hlt, by rw [hdrop], rfl⟩
    | cons d r => exact absurd ⟨hescape, by rw [hlen, List.length_cons]; omega⟩ hmore
  · exact absurd hmore.1 hescape
  · rw [h0]
    exact ⟨_, p + 1, Nat.lt_succ_self p, hlt, by rw [hdrop], rfl⟩

end Spec

section Loop

/-- The variables of `globMatch`; `afterStar` is none for `-1`. -/
structure Place (pattern key : Bytes) where
  p : ℕ
  k : ℕ
  afterStar : Option ℕ
  starKey : ℕ
  k_le : k ≤ key.length
  afterStar_le : ∀ s ∈ afterStar, s ≤ p
  starKey_le : starKey ≤ k

theorem drop_of_read (h : pattern[p]? = some c) : pattern.drop p = c :: pattern.drop (p + 1) := by
  obtain ⟨hp, rfl⟩ := List.getElem?_eq_some_iff.mp h
  exact List.drop_eq_getElem_cons hp

theorem matchByte_lt {next : ℕ} {ok : Bool} (hc : pattern[p]? = some c) (hstar : c ≠ '*'.toUInt8)
    (h : matchByte pattern p b = some (next, ok)) : p < next := by
  obtain ⟨s, next', hlt, -, -, hmatch⟩ := matchByte_spec (drop_of_read hc) hstar b
  obtain ⟨rfl, -⟩ := Prod.mk.inj (Option.some.inj (hmatch.symm.trans h))
  exact hlt

namespace Place

def begin (pattern key : Bytes) : Place pattern key := ⟨0, 0, none, 0, Nat.zero_le _, nofun, le_rfl⟩

/-- The pattern has a `*` at `p`. -/
def atStar (w : Place pattern key) : Place pattern key :=
  ⟨w.p + 1, w.k, some (w.p + 1), w.k, w.k_le, fun _ hs => (Option.mem_some_iff.mp hs).symm.le, le_rfl⟩

/-- The element at `p` matches the byte at `k`, the next one is at `next`. -/
def step (w : Place pattern key) (next : ℕ) (hnext : w.p < next) (hk : w.k < key.length) : Place pattern key :=
  ⟨next, w.k + 1, w.afterStar, w.starKey, hk, fun s hs => (w.afterStar_le s hs).trans hnext.le,
    w.starKey_le.trans (Nat.le_succ _)⟩

/-- The last `*` takes one more byte; none where there is no `*`. -/
def goBack (w : Place pattern key) (hk : w.k < key.length) : Option (Place pattern key) :=
  w.afterStar.map fun s =>
    ⟨s, w.starKey + 1, some s, w.starKey + 1, Nat.succ_le_of_lt (w.starKey_le.trans_lt hk),
      fun _ hs => (Option.mem_some_iff.mp hs).symm.le, le_rfl⟩

/-- A turn of the loop: where it goes on, or that it returns false. -/
def turn (w : Place pattern key) (hk : w.k < key.length) : Option (Option (Place pattern key)) :=
  if w.p < pattern.length then
    match hc : pattern[w.p]? with
    | none => none
    | some c =>
      if hstar : c = '*'.toUInt8 then some (some w.atStar)
      else
        match key[w.k]? with
        | none => none
        | some b =>
          match hmatch : matchByte pattern w.p b with
          | none => none
          | some (next, ok) =>
            if ok then some (some (w.step next (matchByte_lt hc hstar hmatch) hk)) else some (w.goBack hk)
  else some (w.goBack hk)

/-- How much of the pattern is behind the last `*`. -/
def height (w : Place pattern key) : ℕ := w.afterStar.elim (pattern.length + 1) fun s => pattern.length - s

theorem goBack_eq_some {w w' : Place pattern key} {hk : w.k < key.length} (h : w.goBack hk = some w') :
    w'.height = w.height ∧ w'.starKey = w.starKey + 1 := by
  obtain ⟨s, hs, rfl⟩ := Option.map_eq_some_iff.mp h
  exact ⟨by rw [height, height, hs], rfl⟩

/-- Either the last `*` is a later one, or it takes more, or the key is read further. -/
theorem turn_decreases {w w' : Place pattern key} {hk : w.k < key.length} (h : w.turn hk = some (some w')) :
    Prod.Lex (· < ·) (Prod.Lex (· < ·) (· < ·)) (w'.height, key.length - w'.starKey, key.length - w'.k)
      (w.height, key.length - w.starKey, key.length - w.k) := by
  have hstart := w.starKey_le
  have hback (hb : w.goBack hk = some w') :
      Prod.Lex (· < ·) (Prod.Lex (· < ·) (· < ·)) (w'.height, key.length - w'.starKey, key.length - w'.k)
        (w.height, key.length - w.starKey, key.length - w.k) := by
    obtain ⟨hheight, hkey⟩ := goBack_eq_some hb
    rw [hheight, hkey]
    exact .right _ (.left _ _ (by omega))
  unfold turn at h
  split at h
  · next hp =>
    split at h
    · cases h
    · split at h
      · obtain rfl := Option.some.inj (Option.some.inj h)
        refine .left _ _ ?_
        show pattern.length - (w.p + 1) < w.height
        unfold height
        cases hs : w.afterStar with
        | none =>
          rw [Option.elim_none]
          omega
        | some s =>
          have hle := w.afterStar_le s hs
          rw [Option.elim_some]
          omega
      · split at h
        · cases h
        · split at h
          · cases h
          · split at h
            · obtain rfl := Option.some.inj (Option.some.inj h)
              exact .right _ (.right _ (by show key.length - (w.k + 1) < _; omega))
            · exact hback (Option.some.inj h)
  · exact hback (Option.some.inj h)

end Place

/-- What is left of the pattern when the key is read: the loop that skips `*`. -/
def skipStars (pattern : Bytes) (p : ℕ) : Option ℕ :=
  if _h : p < pattern.length then do
    let c ← pattern[p]?
    if c = '*'.toUInt8 then skipStars pattern (p + 1) else some p
  else some p
termination_by pattern.length - p

/-- The loop of `globMatch`. -/
def Place.run (w : Place pattern key) : Option Bool :=
  if hk : w.k < key.length then
    match _h : w.turn hk with
    | none => none
    | some none => some false
    | some (some w') => w'.run
  else (skipStars pattern w.p).map (· == pattern.length)
termination_by (w.height, key.length - w.starKey, key.length - w.k)
decreasing_by exact Place.turn_decreases _h

def globMatch (pattern key : Bytes) : Option Bool := (Place.begin pattern key).run

end Loop

section Refines
variable {w w' : Place pattern key} {v : Walk UInt8}

theorem elements_cons (c : UInt8) (r : Bytes) :
    elements (c :: r) = (element c r).1 :: elements (element c r).2 := by
  rw [elements]

theorem isGap_element : (element c r).1.isGap = true ↔ c = '*'.toUInt8 := by
  unfold element
  split_ifs with hstar hone hset hescape
  · exact iff_of_true rfl hstar
  · exact iff_of_false Bool.false_ne_true hstar
  · exact iff_of_false Bool.false_ne_true hstar
  · cases r <;> exact iff_of_false Bool.false_ne_true hstar
  · exact iff_of_false Bool.false_ne_true hstar

/-- When the key is read, only `*` may be left of the pattern. -/
theorem skipStars_eq (pattern : Bytes) (p : ℕ) (hp : p ≤ pattern.length) :
    (skipStars pattern p).map (· == pattern.length) = some ((elements (pattern.drop p)).all Element.isGap) := by
  induction p using skipStars.induct pattern with
  | case1 p hlt ih =>
    have hread : pattern[p]? = some pattern[p] := List.getElem?_eq_getElem hlt
    rw [skipStars, dif_pos hlt, hread, drop_of_read hread, elements_cons, List.all_cons]
    simp only [Option.bind_eq_bind, Option.bind_some]
    split_ifs with hstar
    · have hgap : element pattern[p] (pattern.drop (p + 1)) = (.gap, pattern.drop (p + 1)) := if_pos hstar
      rw [ih hlt, hgap]
      rfl
    · have hone : (element pattern[p] (pattern.drop (p + 1))).1.isGap = false :=
        Bool.eq_false_iff.mpr (mt isGap_element.mp hstar)
      rw [hone, Bool.false_and]
      exact congrArg some (beq_eq_false_iff_ne.mpr hlt.ne)
  | case2 p hend =>
    rw [skipStars, dif_neg hend, List.drop_eq_nil_of_le (Nat.not_lt.mp hend), elements]
    exact congrArg some (beq_iff_eq.mpr (le_antisymm hp (Nat.not_lt.mp hend)))

/-- A place of the loop as a place of the walk along the elements of the pattern. -/
structure Place.Shows (w : Place pattern key) (v : Walk UInt8) : Prop where
  p_le : w.p ≤ pattern.length
  star_le : ∀ s ∈ w.afterStar, s ≤ pattern.length
  spelled : v.pattern = elements (pattern.drop w.p)
  text : v.text = key.drop w.k
  back : v.back = w.afterStar.map fun s => (elements (pattern.drop s), key.drop w.starKey)

theorem begin_shows (pattern key : Bytes) :
    (Place.begin pattern key).Shows (Walk.start (elements pattern) key) :=
  ⟨Nat.zero_le _, nofun, rfl, rfl, rfl⟩

/-- The loop and the walk both end, or go on at the same place. -/
inductive Beside : Option (Option (Place pattern key)) → Option (Walk UInt8) → Prop
  | ends : Beside (some none) none
  | moves {w : Place pattern key} {v : Walk UInt8} (h : w.Shows v) : Beside (some (some w)) (some v)

theorem goBack_beside (h : w.Shows v) (hk : w.k < key.length) : Beside (some (w.goBack hk)) v.widen := by
  have hkey : key.drop w.starKey = key.get ⟨w.starKey, w.starKey_le.trans_lt hk⟩ :: key.drop (w.starKey + 1) :=
    List.drop_eq_getElem_cons _
  unfold Place.goBack Walk.widen
  rw [h.back, hkey]
  cases hs : w.afterStar with
  | none => exact .ends
  | some s =>
    have hle := h.star_le s hs
    refine .moves ⟨hle, fun r hr => ?_, rfl, rfl, rfl⟩
    exact Option.mem_some_iff.mp hr ▸ hle

/-- The loop and the walk take the same turns. -/
theorem turn_beside (h : w.Shows v) (hk : w.k < key.length) {b : UInt8} {t : Bytes} (ht : v.text = b :: t) :
    Beside (w.turn hk) (v.next ht) := by
  have hkey : key[w.k]? = some b := by
    have hdrop := h.text.symm.trans ht
    simpa using read_of_drop hdrop 0
  unfold Place.turn
  cases hr : pattern.drop w.p with
  | nil =>
    have hstops : v.Stops b := Or.inl (by rw [h.spelled, hr, elements])
    rw [if_neg (Nat.not_lt.mpr (List.drop_eq_nil_iff.mp hr)), Walk.next_stops ht hstops]
    exact goBack_beside h hk
  | cons c r =>
    have hread : pattern[w.p]? = some c := read_of_drop hr 0
    have hlt : w.p < pattern.length := (List.getElem?_eq_some_iff.mp hread).1
    rw [if_pos hlt]
    have hpattern : v.pattern = (element c r).1 :: elements (element c r).2 := by
      rw [h.spelled, hr, elements_cons]
    split
    · next hnone => rw [hread] at hnone; cases hnone
    · next c' hc =>
      obtain rfl : c = c' := Option.some.inj (hread.symm.trans hc)
      split
      · next hstar =>
        have hgap : element c r = (.gap, r) := if_pos hstar
        rw [hgap] at hpattern
        rw [Walk.next_gap ht hpattern]
        refine .moves ⟨hlt, fun s hs => Option.mem_some_iff.mp hs ▸ hlt, ?_, h.text, ?_⟩
        · exact congrArg elements (drop_succ hr).symm
        · exact congrArg some (Prod.ext (congrArg elements (drop_succ hr).symm) h.text)
      · next hstar =>
        obtain ⟨s, next, -, hle, hs, hmatch⟩ := matchByte_spec hr hstar b
        rw [hs] at hpattern
        rw [hkey]
        dsimp only
        split
        · next hnone => rw [hmatch] at hnone; cases hnone
        · next next' ok hmatch' =>
          obtain ⟨rfl, rfl⟩ := Prod.mk.inj (Option.some.inj (hmatch.symm.trans hmatch'))
          split
          · next ha =>
            rw [Walk.next_one ht hpattern ha]
            refine .moves ⟨hle, h.star_le, rfl, ?_, h.back⟩
            exact (drop_succ (h.text.symm.trans ht)).symm
          · next ha =>
            have hstops : v.Stops b := Or.inr ⟨s, _, hpattern, Bool.eq_false_iff.mpr ha⟩
            rw [Walk.next_stops ht hstops]
            exact goBack_beside h hk

theorem Place.Shows.k_lt (h : w.Shows v) {t : Bytes} (ht : v.text = b :: t) : w.k < key.length := by
  refine Nat.lt_of_not_le fun hle => ?_
  cases (h.text.trans (List.drop_eq_nil_of_le hle)).symm.trans ht

theorem run_of_turn {hk : w.k < key.length} (h : w.turn hk = some (some w')) : w.run = w'.run := by
  rw [Place.run, dif_pos hk]
  split
  · next h' => cases h.symm.trans h'
  · next h' => cases h.symm.trans h'
  · next w'' h' => rw [Option.some.inj (Option.some.inj (h.symm.trans h'))]

theorem run_of_turn_none {hk : w.k < key.length} (h : w.turn hk = some none) : w.run = some false := by
  rw [Place.run, dif_pos hk]
  split
  · next h' => cases h.symm.trans h'
  · rfl
  · next h' => cases h.symm.trans h'

/-- The loop ends as the walk does. -/
theorem run_eq (h : w.Shows v) : w.run = some v.run := by
  induction v using Walk.run.induct generalizing w with
  | case1 v ht =>
    have hend : ¬ w.k < key.length := Nat.not_lt.mpr (List.drop_eq_nil_iff.mp (h.text.symm.trans ht))
    rw [Place.run, dif_neg hend, Walk.run_of_end ht, h.spelled, skipStars_eq _ _ h.p_le]
  | case2 v b t ht v' hv ih =>
    have hk : w.k < key.length := h.k_lt ht
    have hturn := turn_beside h hk ht
    rw [hv] at hturn
    rw [Walk.run_of_next hv]
    generalize ho : w.turn hk = o at hturn
    cases hturn with
    | moves h' => rw [run_of_turn ho, ih h']
  | case3 v b t ht hv =>
    have hk : w.k < key.length := h.k_lt ht
    have hturn := turn_beside h hk ht
    rw [hv] at hturn
    rw [Walk.run_of_next_none hv]
    generalize ho : w.turn hk = o at hturn
    cases hturn with
    | ends => rw [run_of_turn_none ho]

/-- The cache's patterns are globs: for any pattern and key the loop ends, with no read past either, and
finds a match exactly where the key can be split as the elements say; to go back to an earlier `*` would
find no other. -/
theorem globMatch_eq (pattern key : Bytes) : ∃ found, globMatch pattern key = some found ∧
    (found = true ↔ Matches (elements pattern) key) ∧ found = tryAll (elements pattern) key := by
  refine ⟨_, run_eq (begin_shows pattern key), Walk.run_start _ _, ?_⟩
  rw [Bool.eq_iff_iff, Walk.run_start, tryAll_iff]

end Refines
end Kubeast.Cache
