import Mathlib.Algebra.Order.Ring.Int
import Mathlib.Tactic.Common

/-! Units that fill the line of the integers, units inside of units, and a search that goes on by units
of several sizes. -/

/-- Where the `k`-th unit starts, and which unit a point is in. -/
structure Ruler where
  mark : ℤ → ℤ
  index : ℤ → ℤ
  gc : ∀ k t, mark k ≤ t ↔ k ≤ index t
  index_mark : ∀ k, index (mark k) = k

namespace Ruler
variable {u v w : Ruler} {k s t : ℤ}

/-- The start of the unit that `t` is in. -/
def start (u : Ruler) (t : ℤ) : ℤ := u.mark (u.index t)

/-- The start of the unit after it. -/
def next (u : Ruler) (t : ℤ) : ℤ := u.mark (u.index t + 1)

theorem start_le : u.start t ≤ t := (u.gc _ t).mpr le_rfl

theorem lt_next : t < u.next t := by
  by_contra h
  have hindex := (u.gc _ _).mp (not_lt.mp h)
  omega

theorem start_mark (u : Ruler) (k : ℤ) : u.start (u.mark k) = u.mark k := by rw [start, u.index_mark]

theorem start_start (u : Ruler) (t : ℤ) : u.start (u.start t) = u.start t := u.start_mark _

theorem start_next (u : Ruler) (t : ℤ) : u.start (u.next t) = u.next t := u.start_mark _

theorem index_eq (h : u.mark k ≤ t) (h' : t < u.mark (k + 1)) : u.index t = k := by
  have hle := (u.gc _ _).mp h
  have hlt : ¬k + 1 ≤ u.index t := fun hindex => absurd ((u.gc _ _).mpr hindex) (not_le.mpr h')
  omega

theorem mark_mono {l : ℤ} (h : k ≤ l) : u.mark k ≤ u.mark l := (u.gc k _).mpr (h.trans (u.index_mark l).ge)

theorem index_mono (h : s ≤ t) : u.index s ≤ u.index t := (u.gc _ t).mp (start_le.trans h)

theorem start_mono (h : s ≤ t) : u.start s ≤ u.start t := mark_mono (index_mono h)

theorem index_start (u : Ruler) (t : ℤ) : u.index (u.start t) = u.index t := u.index_mark _

theorem next_start (u : Ruler) (t : ℤ) : u.next (u.start t) = u.next t := by rw [next, index_start, next]

/-- Marks that ascend, with the two around each point. -/
def ofMarks (mark index : ℤ → ℤ) (hmono : ∀ k l, mark k ≤ mark l ↔ k ≤ l) (hle : ∀ t, mark (index t) ≤ t)
    (hlt : ∀ t, t < mark (index t + 1)) : Ruler where
  mark := mark
  index := index
  gc k t := by
    have hnext := hlt t
    have hsucc := hmono (index t + 1) k
    exact ⟨fun h => by omega, fun h => ((hmono _ _).mpr h).trans (hle t)⟩
  index_mark k := by
    have hleft := (hmono _ _).mp (hle (mark k))
    have hright : ¬mark (index (mark k) + 1) ≤ mark k := not_le.mpr (hlt (mark k))
    rw [hmono] at hright
    omega

/-- Units of `n`, the marks moved by `shift`. -/
def every (n : ℤ) (hn : 0 < n) (shift : ℤ) : Ruler where
  mark k := k * n - shift
  index t := (t + shift) / n
  gc k t := by rw [Int.le_ediv_iff_mul_le hn, sub_le_iff_le_add]
  index_mark k := by rw [sub_add_cancel, Int.mul_ediv_cancel _ hn.ne']

/-- Every unit of `v` starts with one of `u`. -/
def Within (u v : Ruler) : Prop := ∀ k, ∃ j, v.mark k = u.mark j

theorem Within.refl (u : Ruler) : u.Within u := fun k => ⟨k, rfl⟩

theorem Within.trans (h : u.Within v) (h' : v.Within w) : u.Within w := by
  intro k
  obtain ⟨j, hj⟩ := h' k
  obtain ⟨i, hi⟩ := h j
  exact ⟨i, hj.trans hi⟩

/-- Units of the units of `u`. -/
def comp (v u : Ruler) : Ruler where
  mark k := u.mark (v.mark k)
  index t := v.index (u.index t)
  gc k t := (u.gc _ _).trans (v.gc _ _)
  index_mark k := by rw [u.index_mark, v.index_mark]

theorem comp_within (v u : Ruler) : u.Within (v.comp u) := fun k => ⟨v.mark k, rfl⟩

/-- Units of units start where the units do. -/
theorem comp_start_iff (hstart : u.start t = t) : (v.comp u).start t = t ↔ v.start (u.index t) = u.index t := by
  have hmark : (v.comp u).start t = u.mark (v.start (u.index t)) := rfl
  rw [hmark]
  constructor
  · intro h
    have hindex := congrArg u.index h
    rwa [u.index_mark] at hindex
  · intro h
    rw [h]
    exact hstart

theorem every_within {m n : ℤ} (hm : 0 < m) (hn : 0 < n) (shift : ℤ) (hmn : n ∣ m) :
    (every n hn shift).Within (every m hm shift) := by
  obtain ⟨c, rfl⟩ := hmn
  intro k
  have hmark : k * (n * c) - shift = k * c * n - shift := by rw [mul_comm n c, mul_assoc]
  exact ⟨k * c, hmark⟩

theorem Within.start_eq (h : u.Within v) (hv : v.start t = t) : u.start t = t := by
  obtain ⟨j, hj⟩ := h (v.index t)
  have hmark : u.mark j = t := hj.symm.trans hv
  rw [← hmark, start_mark]

theorem Within.start_le (h : u.Within v) : v.start t ≤ u.start t := by
  have hmono : u.start (v.start t) ≤ u.start t := start_mono Ruler.start_le
  rwa [h.start_eq (v.start_start t)] at hmono

theorem Within.next_le (h : u.Within v) : u.next t ≤ v.next t := by
  obtain ⟨j, hj⟩ := h (v.index t + 1)
  have hlt : t < u.mark j := hj ▸ lt_next (u := v)
  have hindex : ¬j ≤ u.index t := fun hle => absurd ((u.gc _ _).mpr hle) (not_le.mpr hlt)
  rw [next, next, hj]
  exact mark_mono (by omega)

/-- What is in one unit of `u` is in one of `v`. -/
theorem Within.index_eq (h : u.Within v) (hst : u.index s = u.index t) : v.index s = v.index t := by
  have hstart : u.start s = u.start t := congrArg u.mark hst
  have hnext : u.next s = u.next t := congrArg (fun k => u.mark (k + 1)) hst
  refine Ruler.index_eq (h.start_le.trans (hstart ▸ Ruler.start_le)) ?_
  exact lt_next.trans_le (hnext.le.trans h.next_le)

/-- The next unit of `u` is in the same unit of `v`, or it is the first one of the next. -/
theorem Within.next (h : u.Within v) (t : ℤ) : v.index (u.next t) = v.index t ∨ v.start (u.next t) = u.next t := by
  rcases h.next_le (t := t) |>.lt_or_eq with hlt | heq
  · exact .inl (Ruler.index_eq (Ruler.start_le.trans lt_next.le) hlt)
  · exact .inr (by rw [heq, start_next])

end Ruler

namespace Seek

/-- A loop of the search: while a reading is not `ok`, it goes back to the start of the unit, once in a
search, and on to the next; where that `wraps`, the search starts over. -/
structure Loop (W : Type) where
  ok : W → Bool
  reset : W → ℤ → Option ℤ
  advance : ℤ → Option (ℤ × W)
  wraps : W → Bool

/-- Where a search stands, and whether it has gone on before. -/
structure Place (W : Type) where
  t : ℤ
  w : W
  added : Bool

variable {W : Type}

/-- One turn of the loop. -/
def Loop.turn (l : Loop W) (p : Place W) : Option (ℤ × W) :=
  (if p.added then some p.t else l.reset p.w p.t).bind l.advance

/-- Whether the loop was passed, and where. -/
def Loop.run (l : Loop W) : ℕ → Place W → Option (Bool × Place W)
  | 0, _ => none
  | fuel + 1, p =>
    if l.ok p.w then some (true, p)
    else do
      let (t, w) ← l.turn p
      if l.wraps w then some (false, ⟨t, w, true⟩) else l.run fuel ⟨t, w, true⟩

/-- The loops one after the other. -/
def pass (fuel : ℕ) : List (Loop W) → Place W → Option (Bool × Place W)
  | [], p => some (true, p)
  | l :: ls, p => do
    let (passed, p) ← l.run fuel p
    if passed then pass fuel ls p else some (false, p)

/-- The search from `t`, which gives up where a reading has `ended`. -/
def search (clock : ℤ → Option W) (ended : W → Bool) (loops : List (Loop W)) (fuel : ℕ) :
    ℕ → ℤ → Bool → Option (Option ℤ)
  | 0, _, _ => none
  | n + 1, t, added => do
    let w ← clock t
    if ended w then some none
    else
      let (passed, p) ← pass fuel loops ⟨t, w, added⟩
      if passed then some (some p.t) else search clock ended loops fuel n p.t p.added

/-- A loop, and the units it goes by. -/
structure Level (W : Type) where
  loop : Loop W
  units : Ruler

/-- The loop goes by the units from `lo` to `hi`, and starts over with the units of the loop before. -/
structure Level.Moves (clock : ℤ → W) (lo hi : ℤ) (above : Ruler) (l : Level W) : Prop where
  within : l.units.Within above
  ok_congr : ∀ {s t}, l.units.index s = l.units.index t → l.loop.ok (clock s) = l.loop.ok (clock t)
  reset : ∀ {t}, lo ≤ t → t ≤ hi → l.loop.reset (clock t) t = some (l.units.start t)
  advance : ∀ {t}, lo ≤ t → l.units.start t = t → l.units.next t ≤ hi →
    l.loop.advance t = some (l.units.next t, clock (l.units.next t))
  wraps : ∀ {t}, lo ≤ t → t ≤ hi → l.units.start t = t → (l.loop.wraps (clock t) = true ↔ above.start t = t)

def Moves (clock : ℤ → W) (lo hi : ℤ) : Ruler → List (Level W) → Prop
  | _, [] => True
  | above, l :: ls => l.Moves clock lo hi above ∧ Moves clock lo hi l.units ls

section Least
variable {clock : ℤ → W} {read : ℤ → Option W} {ended : W → Bool} {above top : Ruler} {lo hi t₀ s t : ℤ}
  {l : Level W} {ls levels before after : List (Level W)} {p q : Place W} {fuel : ℕ}

theorem Moves.within (h : Moves clock lo hi above ls) : ∀ l ∈ ls, l.units.Within above := by
  induction ls generalizing above with
  | nil => exact List.forall_mem_nil _
  | cons l ls ih =>
    obtain ⟨hl, hls⟩ := h
    exact List.forall_mem_cons.mpr ⟨hl.within, fun x hx => (ih hls x hx).trans hl.within⟩

theorem Moves.ok_congr (h : Moves clock lo hi above ls) (hl : l ∈ ls) (hst : l.units.index s = l.units.index t) :
    l.loop.ok (clock s) = l.loop.ok (clock t) := by
  induction ls generalizing above with
  | nil => cases hl
  | cons x ls ih =>
    rcases List.mem_cons.mp hl with rfl | hl
    · exact h.1.ok_congr hst
    · exact ih h.2 hl

/-- No reading has `ended`, and these loops are passed. -/
structure Passed (clock : ℤ → W) (ended : W → Bool) (ls : List (Level W)) (t : ℤ) : Prop where
  notEnded : ended (clock t) = false
  ok : ∀ l ∈ ls, l.loop.ok (clock t) = true

/-- The search from `t₀` ends at `hi`: there the reading has `ended` or passes, and from `t₀` on none did before. -/
structure Ends (clock : ℤ → W) (read : ℤ → Option W) (ended : W → Bool) (top : Ruler) (levels : List (Level W))
    (lo hi t₀ : ℤ) : Prop where
  moves : Moves clock lo hi top levels
  read_eq : ∀ {t}, lo ≤ t → t ≤ hi → read t = some (clock t)
  ended_congr : ∀ {s t}, top.index s = top.index t → ended (clock s) = ended (clock t)
  aligned : ∀ l ∈ levels, l.units.start lo = lo
  lo_le : lo ≤ t₀
  le_hi : t₀ ≤ hi
  none_before : ∀ t, t₀ ≤ t → t < hi → ended (clock t) = false ∧ ¬Passed clock ended levels t
  here : ended (clock hi) = true ∨ Passed clock ended levels hi

/-- A place the search comes to. After it has gone on once, every unit starts there or has been passed. -/
structure Arrived (clock : ℤ → W) (levels : List (Level W)) (t₀ hi : ℤ) (p : Place W) : Prop where
  ge : t₀ ≤ p.t
  le : p.t ≤ hi
  reads : p.w = clock p.t
  settled : p.added = true → ∀ l ∈ levels, l.units.start p.t = p.t ∨ l.loop.ok (clock p.t) = true

/-- A loop stands in the row: the loops before it have larger units, those after it smaller ones. -/
structure Stands (clock : ℤ → W) (lo hi : ℤ) (top above : Ruler) (before : List (Level W)) (l : Level W)
    (after : List (Level W)) : Prop where
  moves : l.Moves clock lo hi above
  top : above.Within top
  before : ∀ b ∈ before, above.Within b.units
  after : ∀ a ∈ after, a.units.Within l.units

/-- The next unit does not go past the end. -/
theorem Ends.next_le (h : Ends clock read ended top levels lo hi t₀) (ha : Arrived clock levels t₀ hi p)
    (hl : l ∈ levels) (hended : ended (clock p.t) = false) (hok : l.loop.ok (clock p.t) = false) :
    l.units.next p.t ≤ hi := by
  by_contra hlt
  have hindex : l.units.index hi = l.units.index p.t :=
    Ruler.index_eq (Ruler.start_le.trans ha.le) (not_le.mp hlt)
  rcases h.here with hhi | hhi
  · rw [h.ended_congr ((h.moves.within l hl).index_eq hindex), hended] at hhi
    cases hhi
  · have hpassed := hhi.ok l hl
    rw [h.moves.ok_congr hl hindex, hok] at hpassed
    cases hpassed

/-- One turn of a loop. -/
theorem Ends.turn (h : Ends clock read ended top levels lo hi t₀) (ha : Arrived clock levels t₀ hi p)
    (hlevels : levels = before ++ l :: after) (hl : Stands clock lo hi top above before l after)
    (hpassed : Passed clock ended before p.t) (hok : l.loop.ok (clock p.t) = false) :
    l.loop.turn p = some (l.units.next p.t, clock (l.units.next p.t)) ∧
      Arrived clock levels t₀ hi ⟨l.units.next p.t, clock (l.units.next p.t), true⟩ ∧
      (l.loop.wraps (clock (l.units.next p.t)) = false → Passed clock ended before (l.units.next p.t)) := by
  have hmem : l ∈ levels := by simp [hlevels]
  have hle := h.next_le ha hmem hpassed.notEnded hok
  have hlo : lo ≤ p.t := h.lo_le.trans ha.ge
  have hstart : (if p.added then some p.t else l.loop.reset p.w p.t) = some (l.units.start p.t) := by
    split_ifs with hadded
    · rcases ha.settled hadded l hmem with hstart | hok'
      · rw [hstart]
      · rw [hok] at hok'
        cases hok'
    · rw [ha.reads]
      exact hl.moves.reset hlo ha.le
  have hloStart : lo ≤ l.units.start p.t := h.aligned l hmem ▸ Ruler.start_mono hlo
  refine ⟨?_, ⟨ha.ge.trans Ruler.lt_next.le, hle, rfl, fun _ x hx => ?_⟩, fun hwraps => ?_⟩
  · rw [Loop.turn, hstart, Option.bind_some,
      hl.moves.advance hloStart (l.units.start_start _) (by rw [Ruler.next_start]; exact hle), Ruler.next_start]
  · rw [hlevels, List.mem_append, List.mem_cons] at hx
    rcases hx with hx | rfl | hx
    · rcases (hl.moves.within.trans (hl.before x hx)).next p.t with hsame | hstart
      · exact .inr ((h.moves.ok_congr (by simp [hlevels, hx]) hsame).trans (hpassed.ok x hx))
      · exact .inl hstart
    · exact .inl (Ruler.start_next _ _)
    · exact .inl ((hl.after x hx).start_eq (Ruler.start_next _ _))
  · have hnot : ¬above.start (l.units.next p.t) = l.units.next p.t := fun hstart => by
      rw [(hl.moves.wraps (hlo.trans Ruler.lt_next.le) hle (Ruler.start_next _ _)).mpr hstart] at hwraps
      cases hwraps
    have hsame := (hl.moves.within.next p.t).resolve_right hnot
    exact ⟨(h.ended_congr (hl.top.index_eq hsame)).trans hpassed.notEnded, fun b hb =>
      (h.moves.ok_congr (by simp [hlevels, hb]) ((hl.before b hb).index_eq hsame)).trans (hpassed.ok b hb)⟩

/-- A loop is passed, or it starts over further on. -/
theorem Ends.run (h : Ends clock read ended top levels lo hi t₀) (hlevels : levels = before ++ l :: after)
    (hl : Stands clock lo hi top above before l after) (ha : Arrived clock levels t₀ hi p)
    (hpassed : Passed clock ended before p.t) (hfuel : (hi - p.t).toNat < fuel) :
    ∃ passed q, l.loop.run fuel p = some (passed, q) ∧ Arrived clock levels t₀ hi q ∧
      if passed then p.t ≤ q.t ∧ Passed clock ended (before ++ [l]) q.t else p.t < q.t := by
  induction fuel generalizing p with
  | zero => omega
  | succ fuel ih =>
    rw [Loop.run, ha.reads]
    cases hok : l.loop.ok (clock p.t) with
    | true =>
      refine ⟨true, p, if_pos rfl, ha, le_rfl, hpassed.notEnded, ?_⟩
      exact List.forall_mem_append.mpr ⟨hpassed.ok, List.forall_mem_singleton.mpr hok⟩
    | false =>
      obtain ⟨hturn, harrived, hunwrapped⟩ := h.turn ha hlevels hl hpassed hok
      have hlt : p.t < l.units.next p.t := Ruler.lt_next
      rw [if_neg Bool.false_ne_true, hturn, Option.bind_eq_bind, Option.bind_some]
      cases hwraps : l.loop.wraps (clock (l.units.next p.t)) with
      | true => exact ⟨false, _, if_pos hwraps, harrived, hlt⟩
      | false =>
        have hle := harrived.le
        obtain ⟨passed, q, hrun, hq, hend⟩ := ih harrived (hunwrapped hwraps) (by dsimp only at hle ⊢; omega)
        refine ⟨passed, q, (if_neg (ne_true_of_eq_false hwraps)).trans hrun, hq, ?_⟩
        cases passed with
        | true => exact ⟨hlt.le.trans hend.1, hend.2⟩
        | false => exact hlt.trans hend

/-- All loops are passed, or the search starts over further on. -/
theorem Ends.pass (h : Ends clock read ended top levels lo hi t₀) (hlevels : levels = before ++ ls)
    (hmoves : Moves clock lo hi above ls) (habove : above.Within top) (hbefore : ∀ b ∈ before, above.Within b.units)
    (ha : Arrived clock levels t₀ hi p) (hpassed : Passed clock ended before p.t)
    (hfuel : (hi - p.t).toNat < fuel) :
    ∃ passed q, Seek.pass fuel (ls.map Level.loop) p = some (passed, q) ∧ Arrived clock levels t₀ hi q ∧
      if passed then Passed clock ended levels q.t else p.t < q.t := by
  induction ls generalizing before above p with
  | nil => exact ⟨true, p, rfl, ha, by rw [hlevels, List.append_nil]; exact hpassed⟩
  | cons l ls ih =>
    obtain ⟨hl, hmoves⟩ := hmoves
    have hstands : Stands clock lo hi top above before l ls := ⟨hl, habove, hbefore, hmoves.within⟩
    obtain ⟨passed, q, hrun, hq, hend⟩ := h.run hlevels hstands ha hpassed hfuel
    rw [List.map_cons, Seek.pass, hrun, Option.bind_eq_bind, Option.bind_some]
    cases passed with
    | false => exact ⟨false, q, rfl, hq, hend⟩
    | true =>
      obtain ⟨hle, hpassed⟩ := hend
      have hsmaller : ∀ b ∈ before ++ [l], l.units.Within b.units :=
        List.forall_mem_append.mpr ⟨fun b hb => hl.within.trans (hbefore b hb),
          List.forall_mem_singleton.mpr (.refl _)⟩
      obtain ⟨passed, q', hpass, hq', hend⟩ := ih (by rw [hlevels, List.append_assoc]; rfl) hmoves
        (hl.within.trans habove) hsmaller hq hpassed (by omega)
      refine ⟨passed, q', hpass, hq', ?_⟩
      cases passed with
      | true => exact hend
      | false => exact hle.trans_lt hend

/-- The run of a search. -/
theorem Ends.search_from (h : Ends clock read ended top levels lo hi t₀) {added : Bool} {n : ℕ}
    (ha : Arrived clock levels t₀ hi ⟨t, clock t, added⟩) (hfuel : (hi - t₀).toNat < fuel)
    (hn : (hi - t).toNat < n) :
    search read ended (levels.map Level.loop) fuel n t added =
      some (if ended (clock hi) then none else some hi) := by
  induction n generalizing t added with
  | zero => omega
  | succ n ih =>
    have hge : t₀ ≤ t := ha.ge
    have hle : t ≤ hi := ha.le
    have hlast (hp : ended (clock t) = true ∨ Passed clock ended levels t) : t = hi := by
      by_contra hne
      obtain ⟨hended, hnot⟩ := h.none_before t hge (lt_of_le_of_ne hle hne)
      rcases hp with hp | hp
      · rw [hended] at hp
        cases hp
      · exact hnot hp
    rw [search, h.read_eq (h.lo_le.trans hge) hle, Option.bind_eq_bind, Option.bind_some]
    cases hended : ended (clock t) with
    | true =>
      obtain rfl := hlast (.inl hended)
      rw [hended]
      rfl
    | false =>
      have hmore : (hi - t).toNat < fuel := by omega
      obtain ⟨passed, q, hpass, hq, hend⟩ := h.pass (List.nil_append levels).symm h.moves (.refl top)
        (List.forall_mem_nil _) ha ⟨hended, List.forall_mem_nil _⟩ hmore
      rw [if_neg Bool.false_ne_true, hpass, Option.bind_eq_bind, Option.bind_some]
      cases passed with
      | true =>
        have hqhi : q.t = hi := by
          by_contra hne
          exact (h.none_before q.t hq.ge (lt_of_le_of_ne hq.le hne)).2 hend
        rw [← hqhi, hend.notEnded, hqhi]
        exact congrArg (fun x => some (some x)) hqhi
      | false =>
        have hqle := hq.le
        have hlt : t < q.t := hend
        exact ih ⟨hq.ge, hqle, rfl, hq.settled⟩ (by omega)

/-- With fuel enough the search says where it ends. -/
theorem Ends.search_eq (h : Ends clock read ended top levels lo hi t₀) :
    ∃ n, ∀ fuel ≥ n, search read ended (levels.map Level.loop) fuel fuel t₀ false =
      some (if ended (clock hi) then none else some hi) := by
  refine ⟨(hi - t₀).toNat + 1, fun fuel hfuel => ?_⟩
  exact h.search_from ⟨le_rfl, h.le_hi, rfl, fun hadded => by cases hadded⟩ (by omega) (by omega)

end Least
end Seek
