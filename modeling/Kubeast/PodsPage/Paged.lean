import Kubeast.PodsPage.Page
import Kubeast.Foundation.Text
import Mathlib.Algebra.Order.Ring.Cast

/-! The pages of one query show each pod that matches once, in one order. -/
namespace Kubeast.PodsPage
open Utf8 Compare

section Texts
variable {P : Bytes → Prop} {a b x y : Bytes}

/-- Letters without case first, then exactly. -/
def foldKey (s : Bytes) : Lex (List ℕ × List ℕ) := toLex (nums (s.map lowerASCII), nums s)

theorem nums_injective : Function.Injective nums := List.map_injective_iff.mpr fun _ _ => UInt8.toNat_inj.mp

@[simp] theorem nums_cons (c : UInt8) (s : Bytes) : nums (c :: s) = c.toNat :: nums s := rfl

theorem nums_append (s t : Bytes) : nums (s ++ t) = nums s ++ nums t := List.map_append

/-- What the loop finds is the order of the letters without case; where it finds nothing the lengths tell. -/
theorem foldLoop_spec (a b : Bytes) :
    match foldLoop a b with
    | some c => c ≠ 0 ∧ (c < 0 ↔ nums (a.map lowerASCII) < nums (b.map lowerASCII)) ∧
        (0 < c ↔ nums (b.map lowerASCII) < nums (a.map lowerASCII))
    | none => (a.length < b.length ↔ nums (a.map lowerASCII) < nums (b.map lowerASCII)) ∧
        (b.length < a.length ↔ nums (b.map lowerASCII) < nums (a.map lowerASCII)) ∧
        (a.length = b.length → a.map lowerASCII = b.map lowerASCII) := by
  induction a generalizing b with
  | nil => cases b <;> simp [foldLoop, nums]
  | cons c a ih =>
    cases b with
    | nil => simp [foldLoop, nums]
    | cons d b =>
      by_cases hcd : lowerASCII c = lowerASCII d
      · have hstep : foldLoop (c :: a) (d :: b) = foldLoop a b := by rw [foldLoop, if_neg (not_not.mpr hcd)]
        have hrest := ih b
        rw [hstep]
        cases hloop : foldLoop a b with
        | some c => simpa [hloop, hcd, List.cons_lt_cons_iff] using hrest
        | none => simpa [hloop, hcd, List.cons_lt_cons_iff] using hrest
      · have hstep : foldLoop (c :: a) (d :: b) = some (ordered (lowerASCII c).toNat (lowerASCII d).toNat) := by
          rw [foldLoop, if_pos hcd]
        have hne : (lowerASCII c).toNat ≠ (lowerASCII d).toNat := fun h => hcd (UInt8.toNat_inj.mp h)
        have hzero : ordered (lowerASCII c).toNat (lowerASCII d).toNat ≠ 0 := fun h =>
          hne (((ordered_signs (P := fun _ => True) id).eq_zero trivial trivial).mp h)
        rw [hstep]
        refine ⟨hzero, ?_, ?_⟩
        · simp [ordered_lt, List.cons_lt_cons_iff, hne]
        · simp [ordered_gt, List.cons_lt_cons_iff, Ne.symm hne]

theorem foldKey_lt (h : nums (a.map lowerASCII) ≠ nums (b.map lowerASCII)) :
    foldKey a < foldKey b ↔ nums (a.map lowerASCII) < nums (b.map lowerASCII) := by
  rw [foldKey, foldKey, Prod.Lex.toLex_lt_toLex]
  simp [h]

theorem foldCompare_signs : Signs P foldCompare foldKey := by
  have hboth : ∀ a b,
      (foldCompare a b < 0 ↔ foldKey a < foldKey b) ∧ (0 < foldCompare a b ↔ foldKey b < foldKey a) := by
    intro a b
    have hspec := foldLoop_spec a b
    unfold foldCompare
    cases hloop : foldLoop a b with
    | some c =>
      rw [hloop] at hspec
      obtain ⟨hzero, hneg, hpos⟩ := hspec
      have hne : nums (a.map lowerASCII) ≠ nums (b.map lowerASCII) := by
        intro heq
        rw [heq] at hneg hpos
        have hlt := hneg.not.mpr (lt_irrefl _)
        have hgt := hpos.not.mpr (lt_irrefl _)
        omega
      exact ⟨hneg.trans (foldKey_lt hne).symm, hpos.trans (foldKey_lt hne.symm).symm⟩
    | none =>
      rw [hloop] at hspec
      obtain ⟨hlt, hgt, heq⟩ := hspec
      by_cases hlen : a.length = b.length
      · simp only [hlen, ne_eq, not_true_eq_false, if_false]
        have hfold : a.map lowerASCII = b.map lowerASCII := heq hlen
        rw [foldKey, foldKey, Prod.Lex.toLex_lt_toLex, Prod.Lex.toLex_lt_toLex, hfold]
        simp [compare, ordered_lt, ordered_gt]
      · have hne : nums (a.map lowerASCII) ≠ nums (b.map lowerASCII) := by
          intro h
          have hlengths := congrArg List.length h
          exact hlen (by simpa [nums] using hlengths)
        simp only [hlen, ne_eq, not_false_eq_true, if_true, ordered_lt, ordered_gt]
        exact ⟨hlt.trans (foldKey_lt hne).symm, hgt.trans (foldKey_lt hne.symm).symm⟩
  exact ⟨fun {a b} _ _ => (hboth a b).1, fun {a b} _ _ => (hboth a b).2⟩

end Texts

section Api
variable {a b : Row}

/-- The key the API's store has for the pod. -/
def storeKey (r : Row) : List ℕ := nums (r.ns ++ slash :: r.name)

/-- No slash in the namespace nor in the name. -/
def Plain (r : Row) : Prop := slash ∉ r.ns ∧ slash ∉ r.name

theorem append_lt_append_iff (p x y : List ℕ) : p ++ x < p ++ y ↔ x < y := by
  induction p with
  | nil => rfl
  | cons c p ih => simp [ih]

/-- Namespaces against each other, with the slash that follows each. -/
def nsOrder (na nb : Bytes) : ℤ :=
  if na.isPrefixOf nb then ordered slash.toNat (nb.getD na.length 0).toNat
  else if nb.isPrefixOf na then ordered (na.getD nb.length 0).toNat slash.toNat
  else compare na nb

theorem nsOrder_cons (c : UInt8) (na nb : Bytes) : nsOrder (c :: na) (c :: nb) = nsOrder na nb := by
  have hcompare : compare (c :: na) (c :: nb) = compare na nb :=
    ordered_congr (by simp) (by simp)
  simp [nsOrder, hcompare]

theorem nsOrder_spec {na nb : Bytes} (x y : Bytes) (ha : slash ∉ na) (hb : slash ∉ nb) (hne : na ≠ nb) :
    (nsOrder na nb < 0 ↔ nums (na ++ slash :: x) < nums (nb ++ slash :: y)) ∧
      (0 < nsOrder na nb ↔ nums (nb ++ slash :: y) < nums (na ++ slash :: x)) := by
  induction na generalizing nb with
  | nil =>
    cases nb with
    | nil => exact absurd rfl hne
    | cons d nb =>
      have hd : slash.toNat ≠ d.toNat := fun h => hb (by simp [UInt8.toNat_inj.mp h])
      simp [nsOrder, ordered_lt, ordered_gt, List.cons_lt_cons_iff, hd, Ne.symm hd]
  | cons c na ih =>
    cases nb with
    | nil =>
      have hc : c.toNat ≠ slash.toNat := fun h => ha (by simp [UInt8.toNat_inj.mp h])
      simp [nsOrder, ordered_lt, ordered_gt, List.cons_lt_cons_iff, hc, Ne.symm hc]
    | cons d nb =>
      by_cases hcd : c = d
      · subst hcd
        have hrest := ih (fun h => ha (List.mem_cons_of_mem _ h)) (fun h => hb (List.mem_cons_of_mem _ h))
          (fun h => hne (congrArg (c :: ·) h))
        rw [nsOrder_cons]
        simpa [List.cons_lt_cons_iff] using hrest
      · have hnums : c.toNat ≠ d.toNat := fun h => hcd (UInt8.toNat_inj.mp h)
        simp [nsOrder, hcd, Ne.symm hcd, compare, ordered_lt, ordered_gt, List.cons_lt_cons_iff, hnums, Ne.symm hnums]

theorem apiOrder_signs : Signs Plain apiOrder storeKey := by
  have hboth : ∀ {a b}, Plain a → Plain b → (apiOrder a b < 0 ↔ storeKey a < storeKey b) ∧
      (0 < apiOrder a b ↔ storeKey b < storeKey a) := by
    intro a b ha hb
    unfold apiOrder storeKey
    by_cases hns : a.ns = b.ns
    · rw [if_pos hns, hns]
      simp [compare, ordered_lt, ordered_gt, nums_append, append_lt_append_iff]
    · rw [if_neg hns]
      exact nsOrder_spec a.name b.name ha.1 hb.1 hns
  exact ⟨fun ha hb => (hboth ha hb).1, fun ha hb => (hboth ha hb).2⟩

theorem storeKey_inj (ha : Plain a) (hb : Plain b) (h : storeKey a = storeKey b) : (a.ns, a.name) = (b.ns, b.name) := by
  obtain ⟨hns, hname⟩ := Text.append_cons_inj ha.1 hb.1 (nums_injective h)
  rw [hns, hname]

end Api

section Columns
variable {P : Row → Prop} {tables : Tables} {sort : String} {desc : Bool} {now : ℤ} {a b : Row}

/-- What a column sorts by: two numbers, then a text. -/
abbrev Rank := Lex (ℚ × Lex (ℚ × Lex (List ℕ × List ℕ)))

def Rank.ofNumber (q : ℚ) : Rank := toLex (q, toLex (0, toLex ([], [])))

def Rank.ofText (s : Bytes) : Rank := toLex (0, toLex (0, foldKey s))

/-- What each column sorts by; a name that is no column's sorts by nothing. -/
def rank (tables : Tables) (sort : String) (now : ℤ) (r : Row) : Rank :=
  match sort with
  | "name" => .ofText r.name
  | "ready" => .ofNumber (ratio r)
  | "status" => .ofText r.status
  | "restarts" => .ofNumber r.restarts.toInt
  | "pod_ip" => .ofText r.podIP
  | "node_name" => .ofText r.node
  | "age" => .ofNumber (age now r)
  | "health" => .ofNumber (-r.health.toNat)
  | "find" => toLex (-findScore tables r, toLex (r.restarts.toInt, toLex ([], [])))
  | _ => .ofNumber 0

theorem ofNumber_lt {p q : ℚ} : Rank.ofNumber p < .ofNumber q ↔ p < q := by
  simp [Rank.ofNumber, Prod.Lex.toLex_lt_toLex]

theorem ofText_lt {s t : Bytes} : Rank.ofText s < .ofText t ↔ foldKey s < foldKey t := by
  simp [Rank.ofText, Prod.Lex.toLex_lt_toLex]

theorem text_signs (field : Row → Bytes) :
    Signs P (fun a b => foldCompare (field a) (field b)) fun r => Rank.ofText (field r) := by
  have hfold := @foldCompare_signs fun _ => True
  exact ⟨fun _ _ => (hfold.neg trivial trivial).trans ofText_lt.symm,
    fun _ _ => (hfold.pos trivial trivial).trans ofText_lt.symm⟩

theorem number_signs {K : Type} [LinearOrder K] (field : Row → K) (value : Row → ℚ)
    (h : ∀ a b, field a < field b ↔ value a < value b) :
    Signs P (fun a b => ordered (field a) (field b)) fun r => Rank.ofNumber (value r) :=
  ⟨fun _ _ => ordered_lt.trans ((h _ _).trans ofNumber_lt.symm),
    fun _ _ => ordered_gt.trans ((h _ _).trans ofNumber_lt.symm)⟩

theorem find_signs (now : ℤ) : Signs P (column tables "find" now) (rank tables "find" now) := by
  have hscore : Signs P (fun a b => ordered (findScore tables b) (findScore tables a)) fun r => -findScore tables r :=
    ⟨fun _ _ => ordered_lt.trans neg_lt_neg_iff.symm, fun _ _ => ordered_gt.trans neg_lt_neg_iff.symm⟩
  have hboth := hscore.thenBy (ordered_signs (P := P) fun r : Row => r.restarts.toInt)
  refine hboth.rekey fun a b => ?_
  simp [rank, Prod.Lex.toLex_lt_toLex]

theorem column_signs : Signs P (column tables sort now) (rank tables sort now) := by
  unfold column rank
  split
  · exact text_signs _
  · exact number_signs _ _ fun _ _ => Iff.rfl
  · exact text_signs _
  · exact number_signs _ _ fun _ _ => Int.cast_lt.symm
  · exact text_signs _
  · exact text_signs _
  · exact number_signs _ _ fun _ _ => Int.cast_lt.symm
  · refine number_signs (fun r => OrderDual.toDual r.health.toNat) _ fun a b => ?_
    simp
  · exact find_signs now
  · exact ⟨fun _ _ => by simp, fun _ _ => by simp⟩

end Columns
section Order
variable {tables : Tables} {q : Query} {sort : String} {desc : Bool} {now : ℤ} {a b : Row}

/-- By the column, in the direction that is asked for, then by the store's key. -/
def Before (tables : Tables) (q : Query) (now : ℤ) (a b : Row) : Prop :=
  (if q.desc = true then rank tables q.sort now b < rank tables q.sort now a
    else rank tables q.sort now a < rank tables q.sort now b) ∨
  rank tables q.sort now a = rank tables q.sort now b ∧ storeKey a < storeKey b

/-- The comparison puts the rows in the order of one key, which tells rows of different names apart. -/
theorem rowOrder_signs (tables : Tables) (q : Query) (now : ℤ) :
    ∃ (K : Type) (_ : LinearOrder K) (key : Row → K), Signs Plain (rowOrder tables q.sort q.desc now) key ∧
      (∀ a b, key a < key b ↔ Before tables q now a b) ∧ ∀ a b, key a = key b → storeKey a = storeKey b := by
  have hcolumn : Signs Plain (column tables q.sort now) (rank tables q.sort now) := column_signs
  cases hdesc : q.desc with
  | false =>
    refine ⟨_, _, _, (hcolumn.thenBy apiOrder_signs).congr fun a b => ?_, fun a b => ?_, fun a b h => ?_⟩
    · simp [rowOrder]
    · rw [Prod.Lex.toLex_lt_toLex]
      simp [Before, hdesc]
    · exact congrArg Prod.snd (toLex.injective h)
  | true =>
    refine ⟨_, _, _, (hcolumn.negated.thenBy apiOrder_signs).congr fun a b => ?_, fun a b => ?_, fun a b h => ?_⟩
    · simp [rowOrder]
    · rw [Prod.Lex.toLex_lt_toLex]
      simp [Before, hdesc]
    · exact congrArg Prod.snd (toLex.injective h)

end Order

section Filters
variable {tables : Tables} {q : Query} {r : Row} {rows l : List Row} {input : List (Option Row)}

/-- The search's words, each of them in the name or in one label, or else its text in a name or an address. -/
def found (tables : Tables) (q : Query) (r : Row) : Bool :=
  if q.tokens = true ∧ searchWords tables q.search ≠ [] then wordsMatchPod tables (searchWords tables q.search) r
  else needleMatchesPod tables (tables.toLower (tables.trimSpace q.search)) r

/-- What the filters ask for, each where the query has a value for it. -/
structure Matches (tables : Tables) (q : Query) (r : Row) : Prop where
  search : found tables q r = true
  health : q.health ∈ podHealthNames → r.health.toNat = podHealthNames.idxOf q.health
  phase : q.phase ≠ [] → r.phase = q.phase ∨ q.phase = bytes "Unknown" ∧ r.phase = []
  runtimeClass : q.runtimeClass ≠ [] → r.runtimeClass = q.runtimeClass
  priorityClass : q.priorityClass ≠ [] → r.priorityClass = q.priorityClass
  serviceAccount : q.serviceAccounts ≠ [] →
    r.serviceAccount ≠ [] ∧ r.ns ++ slash :: r.serviceAccount ∈ q.serviceAccounts
  labels : ∀ selects, q.labelSelector = some selects → selects r.labels = true

/-- No filter deletes the row. -/
def kept (q : Query) (r : Row) : Bool := (deletions q).all fun d => !(d.1 && d.2 r)

theorem needleMatchesPod_nil (r : Row) : needleMatchesPod tables [] r = true := by
  have hname : contains r.name [] = true := by
    cases hname : r.name <;> simp [contains]
  simp [needleMatchesPod, hname]

theorem kept_iff : kept q r = true ↔ (q.health ∈ podHealthNames → r.health.toNat = podHealthNames.idxOf q.health) ∧
    (q.phase ≠ [] → r.phase = q.phase ∨ q.phase = bytes "Unknown" ∧ r.phase = []) ∧
    (q.runtimeClass ≠ [] → r.runtimeClass = q.runtimeClass) ∧
    (q.priorityClass ≠ [] → r.priorityClass = q.priorityClass) ∧
    (q.serviceAccounts ≠ [] → r.serviceAccount ≠ [] ∧ r.ns ++ slash :: r.serviceAccount ∈ q.serviceAccounts) ∧
    ∀ selects, q.labelSelector = some selects → selects r.labels = true := by
  have hlabels : (!(q.labelSelector.isSome && !(q.labelSelector.all fun selects => selects r.labels))) = true ↔
      ∀ selects, q.labelSelector = some selects → selects r.labels = true := by
    cases q.labelSelector <;> simp
  rw [← hlabels, kept, deletions]
  simp only [List.all_cons, List.all_nil, Bool.and_true, Bool.and_eq_true]
  refine and_congr ?_ (and_congr ?_ (and_congr ?_ (and_congr ?_ (and_congr ?_ Iff.rfl))))
  · simp [imp_iff_not_or]
  · simp [imp_iff_not_or]
  · simp [imp_iff_not_or]
  · simp [imp_iff_not_or]
  · simp [imp_iff_not_or]

theorem found_kept : (found tables q r && kept q r) = true ↔ Matches tables q r := by
  rw [Bool.and_eq_true, kept_iff]
  constructor
  · rintro ⟨hfound, hhealth, hphase, hruntime, hpriority, haccount, hlabels⟩
    exact ⟨hfound, hhealth, hphase, hruntime, hpriority, haccount, hlabels⟩
  · intro h
    exact ⟨h.search, h.health, h.phase, h.runtimeClass, h.priorityClass, h.serviceAccount, h.labels⟩

instance : DecidablePred (Matches tables q) := fun _ => decidable_of_iff _ found_kept

theorem search_eq : (Arrays.search tables ⟨input, none⟩ q rows) = ⟨input, some (rows.filter (found tables q))⟩ := by
  unfold Arrays.search found
  by_cases hwords : q.tokens = true ∧ searchWords tables q.search ≠ []
  · simp only [hwords, ne_eq, not_false_eq_true, and_self, if_true]
  · simp only [hwords, if_false]
    split_ifs with hneedle
    · rfl
    · rw [not_not.mp hneedle, funext needleMatchesPod_nil, List.filter_true]

theorem foldl_deletions (ds : List (Bool × (Row → Bool))) :
    ds.foldl (fun s d => if d.1 then s.deleteFunc d.2 else s) (⟨input, some l⟩ : Arrays) =
      ⟨input, some (l.filter fun r => ds.all fun d => !(d.1 && d.2 r))⟩ := by
  induction ds generalizing l with
  | nil => simp
  | cons d ds ih =>
    rw [List.foldl_cons]
    cases hd : d.1 with
    | false =>
      rw [if_neg (by simp), ih]
      simp [hd]
    | true =>
      have hstep : Arrays.deleteFunc ⟨input, some l⟩ d.2 = ⟨input, some (l.filter fun r => !d.2 r)⟩ := rfl
      rw [if_pos rfl, hstep, ih, List.filter_filter]
      simp [hd, Bool.and_comm]

/-- The rows that match, in order. -/
def shownRows (tables : Tables) (q : Query) (now : ℤ) (rows : List Row) : List Row :=
  sortFunc (rowOrder tables q.sort q.desc now) (rows.filter fun r => found tables q r && kept q r)

theorem matched_eq : (deletions q).foldl (fun s d => if d.1 then s.deleteFunc d.2 else s)
    (Arrays.search tables ⟨input, none⟩ q rows) =
      ⟨input, some (rows.filter fun r => found tables q r && kept q r)⟩ := by
  rw [search_eq, foldl_deletions, List.filter_filter]
  exact congrArg (fun l => (⟨input, some l⟩ : Arrays)) (List.filter_congr fun r _ => Bool.and_comm _ _)

end Filters

section Pages
variable {α : Type*} {tables : Tables} {q : Query} {now : ℤ} {rows rows' : List Row}

/-- Windows that follow each other. -/
theorem flatMap_windows (l : List α) (k n : ℕ) :
    (List.range n).flatMap (fun i => (l.take ((i + 1) * k)).drop (i * k)) = l.take (n * k) := by
  induction n with
  | zero => simp
  | succ n ih =>
    have hfront : l.take (n * k) = (l.take ((n + 1) * k)).take (n * k) := by
      rw [List.take_take, min_eq_left (Nat.mul_le_mul_right k (Nat.le_succ n))]
    rw [List.range_succ, List.flatMap_append, ih, List.flatMap_singleton, hfront, List.take_append_drop]

/-- What `matched[start:end]` is for the page at a multiple of the limit. -/
theorem window_eq (l : List α) (i k : ℕ) :
    (l.take (min (min (max (i * k : ℤ) 0) l.length + k) l.length).toNat).drop (min (max (i * k : ℤ) 0) l.length).toNat =
      (l.take ((i + 1) * k)).drop (i * k) := by
  have hmax : max ((i : ℤ) * k) 0 = ((i * k : ℕ) : ℤ) := by
    rw [← Nat.cast_mul]
    exact max_eq_left (Int.natCast_nonneg _)
  rw [hmax]
  rcases le_total (i * k) l.length with hle | hle
  · have hstart : (min ((i * k : ℕ) : ℤ) l.length).toNat = i * k := by omega
    have hstop : (min (min ((i * k : ℕ) : ℤ) l.length + k) l.length).toNat = min ((i + 1) * k) l.length := by
      rw [Nat.add_mul, Nat.one_mul]
      omega
    rw [hstart, hstop, ← List.take_eq_take_min]
  · have hstart : (min ((i * k : ℕ) : ℤ) l.length).toNat = l.length := by omega
    rw [hstart, List.drop_eq_nil_of_le (List.length_take_le' _ _), List.drop_eq_nil_of_le]
    exact (List.length_take_le' _ _).trans hle

theorem buildPodPage_eq (tables : Tables) (rows : List Row) (q : Query) (now : ℤ) :
    let l := shownRows tables q now rows
    let limit := if q.limit ≤ 0 ∨ podPageMaxLimit < q.limit then podPageMaxLimit else q.limit
    let start := min (max q.offset 0) l.length
    (buildPodPage tables rows q now).1.items =
        ((l.take (min (start + limit) l.length).toNat).drop start.toNat).map Row.item ∧
      (buildPodPage tables rows q now).1.total = l.length ∧ (buildPodPage tables rows q now).2 = rows.map some := by
  unfold buildPodPage
  dsimp only
  rw [matched_eq]
  exact ⟨rfl, rfl, rfl⟩

/-- The page at a multiple of the limit. -/
theorem items_page (hlimit : 0 < q.limit) (hmax : q.limit ≤ podPageMaxLimit) (i : ℕ) :
    (buildPodPage tables rows { q with offset := i * q.limit } now).1.items =
      (((shownRows tables q now rows).take ((i + 1) * q.limit.toNat)).drop (i * q.limit.toNat)).map Row.item := by
  obtain ⟨hitems, -⟩ := buildPodPage_eq tables rows { q with offset := i * q.limit } now
  have hk : (q.limit.toNat : ℤ) = q.limit := Int.toNat_of_nonneg hlimit.le
  rw [if_neg (not_or.mpr ⟨not_le.mpr hlimit, not_lt.mpr hmax⟩)] at hitems
  rw [hitems, ← window_eq, hk]
  rfl

/-- Rows of different names have different keys. -/
theorem nodup_keys {K : Type} {key : Row → K} (hkey : ∀ a b, key a = key b → storeKey a = storeKey b)
    (hplain : ∀ r ∈ rows, Plain r) (hnames : (rows.map fun r => (r.ns, r.name)).Nodup) : (rows.map key).Nodup := by
  refine List.Nodup.map_on (fun a ha b hb h => ?_) (List.Nodup.of_map _ hnames)
  exact List.inj_on_of_nodup_map hnames ha hb (storeKey_inj (hplain a ha) (hplain b hb) (hkey a b h))

/-- The items of so many pages. -/
def pageItems (tables : Tables) (rows : List Row) (q : Query) (now : ℤ) (n : ℕ) : List Item :=
  (List.range n).flatMap fun i : ℕ => (buildPodPage tables rows { q with offset := i * q.limit } now).1.items

theorem pageItems_eq (hlimit : 0 < q.limit) (hmax : q.limit ≤ podPageMaxLimit) (n : ℕ) :
    pageItems tables rows q now n = ((shownRows tables q now rows).take (n * q.limit.toNat)).map Row.item := by
  rw [pageItems, ← flatMap_windows, List.map_flatMap]
  exact List.flatMap_congr fun i _ => items_page hlimit hmax i

/-- Paging by any limit shows every row that matches once, in one order, whatever order the rows are in. -/
theorem pages_once (hplain : ∀ r ∈ rows, Plain r) (hnames : (rows.map fun r => (r.ns, r.name)).Nodup)
    (hlimit : 0 < q.limit) (hmax : q.limit ≤ podPageMaxLimit) :
    ∃ shown : List Row, shown.Perm (rows.filter fun r => Matches tables q r) ∧ shown.Pairwise (Before tables q now) ∧
      (∀ rows', rows'.Perm rows →
        (∀ n, shown.length ≤ n * q.limit.toNat → pageItems tables rows' q now n = shown.map Row.item) ∧
        ∀ offset, (buildPodPage tables rows' { q with offset := offset } now).1.total = shown.length ∧
          (buildPodPage tables rows' { q with offset := offset } now).2 = rows'.map some) ∧
      Signs Plain apiOrder storeKey := by
  obtain ⟨K, _, key, hsigns, hbefore, hkey⟩ := rowOrder_signs tables q now
  have hnodup : ((rows.filter fun r => Matches tables q r).map key).Nodup :=
    (nodup_keys hkey hplain hnames).sublist (List.filter_sublist.map key)
  have hincreasing := Sorted.increasing_sortBy hnodup
  refine ⟨Sorted.sortBy key (rows.filter fun r => Matches tables q r), Sorted.perm_sortBy key _, ?_, ?_, apiOrder_signs⟩
  · exact hincreasing.imp fun hlt => (hbefore _ _).mp hlt
  · intro rows' hperm
    have hshown : shownRows tables q now rows' = Sorted.sortBy key (rows.filter fun r => Matches tables q r) := by
      have hplain' : ∀ r ∈ rows'.filter fun r => found tables q r && kept q r, Plain r :=
        fun r hr => hplain r (hperm.mem_iff.mp (List.mem_of_mem_filter hr))
      have hfilter : (rows'.filter fun r => found tables q r && kept q r).Perm
          (rows.filter fun r => Matches tables q r) := by
        refine (hperm.filter _).trans (List.Perm.of_eq (List.filter_congr fun r _ => ?_))
        rw [Bool.eq_iff_iff, decide_eq_true_iff]
        exact found_kept
      rw [shownRows, hsigns.sortFunc_eq hplain']
      refine Sorted.Increasing.ext (Sorted.increasing_sortBy ((hfilter.map key).nodup_iff.mpr hnodup)) hincreasing ?_
      intro r
      rw [Sorted.mem_sortBy, Sorted.mem_sortBy, hfilter.mem_iff]
    constructor
    · intro n hn
      rw [pageItems_eq hlimit hmax, hshown, List.take_of_length_le hn]
    · intro offset
      obtain ⟨-, htotal, hinput⟩ := buildPodPage_eq tables rows' { q with offset := offset } now
      exact ⟨htotal.trans (congrArg List.length hshown), hinput⟩

instance : DecidablePred Plain := fun r => inferInstanceAs (Decidable (slash ∉ r.ns ∧ slash ∉ r.name))

/-- Text in ASCII. -/
def asciiTables : Tables where
  toLower := List.map lowerASCII
  trimSpace s := (s.dropWhile (· = 0x20)).rdropWhile (· = 0x20)
  equalFold a b := a.map lowerASCII = b.map lowerASCII

def podRow (ns name : String) : Row where
  name := bytes name
  ns := bytes ns
  node := bytes "node-1"
  phase := bytes "Running"
  status := bytes "Running"
  podIP := bytes "10.0.0.7"
  runtimeClass := []
  priorityClass := []
  serviceAccount := bytes "default"
  labels := []
  created := 1700000000
  deleted := 0
  ready := 1
  containers := 1
  restarts := 0
  health := 0

def byStatus : Query where
  search := bytes " EB-"
  sort := "status"
  desc := true
  offset := 0
  limit := 1
  health := "ok"
  phase := bytes "Running"
  runtimeClass := []
  priorityClass := []
  serviceAccounts := []
  tokens := false
  groups := true
  groupTop := 0
  labelSelector := none

/-- One namespace is the front of the other. -/
theorem pages_once_tied : ∃ shown : List Row,
    shown.Perm ([podRow "shop" "web-1", podRow "shop-eu" "web-1", podRow "shop" "db-0"].filter fun r =>
      Matches asciiTables byStatus r) ∧ shown.Pairwise (Before asciiTables byStatus 1700000060) ∧
      (∀ rows', rows'.Perm [podRow "shop" "web-1", podRow "shop-eu" "web-1", podRow "shop" "db-0"] →
        (∀ n, shown.length ≤ n * byStatus.limit.toNat →
          pageItems asciiTables rows' byStatus 1700000060 n = shown.map Row.item) ∧
        ∀ offset,
          (buildPodPage asciiTables rows' { byStatus with offset := offset } 1700000060).1.total = shown.length ∧
          (buildPodPage asciiTables rows' { byStatus with offset := offset } 1700000060).2 = rows'.map some) ∧
      Signs Plain apiOrder storeKey :=
  pages_once (by decide) (by decide) (by decide) (by decide)

example : (pageItems asciiTables [podRow "shop" "web-1", podRow "shop-eu" "web-1", podRow "shop" "db-0"] byStatus
    1700000060 3).map Item.ns = [bytes "shop-eu", bytes "shop"] := by decide

end Pages
end Kubeast.PodsPage
