import Kubeast.BuildLog.Cut
import Mathlib.Algebra.Order.Ring.Int

/-! One build's logs stay within their limit: its steps are cut one after another from one budget,
whatever their logs, the writes these come in, and the answers of what they are written to. -/
namespace Kubeast.BuildLog
open Cut

section Limits

def minMaxBytes : ℤ := 4096

/-- How much of a build's logs is kept. -/
structure Limit where
  /-- From the start of the build's steps, in order. -/
  maxBytes : ℤ
  /-- The end of each step once the budget is spent; it comes on top. -/
  tail : ℤ

/-- `Validate`. -/
def Limit.validate (l : Limit) : Except String Unit :=
  if l.maxBytes < minMaxBytes then
    .error ("build log maxBytes must be at least " ++ toString minMaxBytes ++ " (got " ++
      toString l.maxBytes ++ ")")
  else if l.tail < 0 ∨ l.maxBytes < l.tail then
    .error ("build log tail must be between 0 and maxBytes (got " ++ toString l.tail ++ ")")
  else .ok ()

/-- `NewBudget`. -/
def Limit.newBudget (l : Limit) : Budget := ⟨l.maxBytes.toNat, l.tail.toNat⟩

/-- A step: what its log is written to, and its log in the writes that it comes in. -/
structure Step where
  sink : Sink
  chunks : List Bytes

def Step.log (s : Step) : Bytes := s.chunks.flatten

/-- A step, cut and closed. -/
def Budget.cutStep (b : Budget) (s : Step) : Cut := (close s.sink (writes s.sink b.step s.chunks)).1

/-- The steps of a build, one after another, each with its cut. -/
def Budget.cutSteps (b : Budget) : List Step → List (Step × Cut)
  | [] => []
  | s :: steps => (s, b.cutStep s) :: (b.cutStep s).budget.cutSteps steps

/-- Nothing of the step is head; it is at most the end of its log, after a note of the rest. -/
structure OnlyTail (tail : ℕ) (s : Step) (c : Cut) : Prop where
  head : c.head = 0
  kept_le : c.kept ≤ tail
  out : s.sink = takesAll → ∃ t, t <:+ s.log ∧ t.length = c.kept ∧
    c.out = (if c.kept < s.log.length then note 0 0 (s.log.length - c.kept) else []) ++ t

end Limits

section Spending
variable {w : Sink} {b : Budget} {c : Cut} {p : Bytes}

/-- What a step has taken of the budget `b` it was begun with, before it is closed. -/
structure Spending (b : Budget) (c : Cut) : Prop where
  keeps : c.budget.tail = b.tail
  kept_le : c.kept ≤ c.head
  head_le : c.head + c.budget.left ≤ b.left
  share : c.cut = false → c.head + c.budget.left = b.left
  spent : c.cut = true → c.budget.left = 0
  fits : c.cut = false → c.err = none → c.head + c.held.length ≤ b.left

theorem spending_step (b : Budget) : Spending b b.step where
  keeps := rfl
  kept_le := le_rfl
  head_le := (Nat.zero_add _).le
  share _ := Nat.zero_add _
  spent h := nomatch h
  fits _ _ := Nat.zero_le _

/-- What passing head bytes on that are there in the budget does to the budget. -/
structure Passed (c c' : Cut) (n : ℕ) (e : Option WriteError) : Prop where
  keeps : c'.budget.tail = c.budget.tail
  left : c'.budget.left = c.budget.left - n
  head : c'.head = c.head + n
  cut : c'.cut = c.cut
  held : c'.held = c.held
  kept : c'.kept ≤ c.kept + n
  err : c'.err = e.or c.err

theorem passed_passHead (w : Sink) (c : Cut) (hp : p.length ≤ c.budget.left) :
    Passed c (passHead w c p).1 p.length (passHead w c p).2 := by
  have hleft : (c.budget.take p.length).left = c.budget.left - p.length := by
    show c.budget.left - min p.length c.budget.left = _
    rw [Nat.min_eq_left hp]
  unfold passHead Cut.pass
  split
  · next hnil =>
    rw [hnil] at hleft ⊢
    exact ⟨rfl, hleft, rfl, rfl, rfl, le_rfl, rfl⟩
  · split
    · exact ⟨rfl, hleft, rfl, rfl, rfl, Nat.le_add_right _ _, rfl⟩
    · exact ⟨rfl, hleft, rfl, rfl, rfl, le_rfl, rfl⟩

/-- Head bytes are spent from the budget; an error leaves nothing more to fit. -/
theorem Spending.passed (h : Spending b c) {c' : Cut} {n : ℕ} {e : Option WriteError}
    (hpassed : Passed c c' n e) (hcut : c.cut = false) (hn : n ≤ c.budget.left)
    (hfits : e = none → c.head + n + c.held.length ≤ b.left) : Spending b c' := by
  have hshare := h.share hcut
  have hkept := h.kept_le
  refine ⟨hpassed.keeps.trans h.keeps, ?_, ?_, ?_, ?_, ?_⟩
  · have := hpassed.kept
    rw [hpassed.head]
    omega
  · rw [hpassed.head, hpassed.left]
    omega
  · intro
    rw [hpassed.head, hpassed.left]
    omega
  · rw [hpassed.cut, hcut]
    nofun
  · intro _ herr
    rw [hpassed.head, hpassed.held]
    refine hfits ?_
    rw [hpassed.err, Option.or_eq_none_iff] at herr
    exact herr.1

theorem Spending.write (h : Spending b c) (w : Sink) (p : Bytes) : Spending b (write w c p).1 := by
  unfold Cut.write
  split
  · exact h
  split
  · exact h
  next herr =>
  dsimp only
  split
  · exact ⟨h.keeps, h.kept_le, h.head_le, h.share, h.spent, h.fits⟩
  next hcut =>
  rw [Bool.not_eq_true] at hcut
  have hshare := h.share hcut
  have hfits := h.fits hcut herr
  have h₁ : Spending b { c with read := c.read + p.length } :=
    ⟨h.keeps, h.kept_le, h.head_le, h.share, h.spent, h.fits⟩
  obtain ⟨k, hk⟩ : ∃ k, k = if c.held = [] ∧ c.head < c.head + c.budget.left - lineWindow then
    min p.length (c.head + c.budget.left - lineWindow - c.head) else 0 := ⟨_, rfl⟩
  rw [← hk]
  have hkle : k ≤ p.length ∧ k ≤ c.budget.left ∧ c.head + k + c.held.length ≤ b.left := by
    split_ifs at hk with hgo
    · rw [hgo.1, List.length_nil]
      omega
    · omega
  have hlength : (p.take k).length = k := by
    rw [List.length_take]
    omega
  have hpassed := passed_passHead w { c with read := c.read + p.length } (p := p.take k)
    (by rw [hlength]; exact hkle.2.1)
  rw [hlength] at hpassed
  generalize passHead w _ (p.take k) = passed at hpassed ⊢
  obtain ⟨c₂, e⟩ := passed
  have h₂ : Spending b c₂ := h₁.passed hpassed hcut hkle.2.1 fun _ => hkle.2.2
  cases e with
  | some e => exact h₂
  | none =>
    have hcut₂ : c₂.cut = false := hpassed.cut.trans hcut
    have herr₂ : c₂.err = none := hpassed.err.trans herr
    have hshare₂ := h₂.share hcut₂
    have hfits₂ := h₂.fits hcut₂ herr₂
    dsimp only
    split
    · next hall =>
      refine ⟨h₂.keeps, h₂.kept_le, h₂.head_le, h₂.share, h₂.spent, fun _ _ => ?_⟩
      show c₂.head + (c₂.held ++ p.drop k).length ≤ b.left
      rw [List.length_append]
      omega
    · obtain ⟨win, hwin⟩ : ∃ win, win = c₂.held ++
        (p.drop k).take (c.head + c.budget.left - (c₂.head + c₂.held.length)) := ⟨_, rfl⟩
      rw [← hwin]
      generalize headLength win _ = j
      have hwindow : (win.take j).length ≤ c₂.budget.left := by
        rw [hwin, List.length_take, List.length_append, List.length_take]
        omega
      have hpassed₃ := passed_passHead w c₂ hwindow
      generalize passHead w c₂ (win.take j) = passed at hpassed₃
      obtain ⟨c₃, e⟩ := passed
      cases e with
      | some e => exact h₂.passed hpassed₃ hcut₂ hwindow nofun
      | none =>
        have hhead : c₃.head = _ := hpassed₃.head
        have hleft : c₃.budget.left = _ := hpassed₃.left
        have hkept : c₃.kept ≤ _ := hpassed₃.kept
        have hkept₂ := h₂.kept_le
        -- the head is over, and what is left of the budget is taken
        refine ⟨hpassed₃.keeps.trans h₂.keeps, ?_, ?_, nofun, fun _ => ?_, nofun⟩
        · show c₃.kept ≤ c₃.head
          omega
        · show c₃.head + (c₃.budget.left - min _ c₃.budget.left) ≤ b.left
          omega
        · show c₃.budget.left - min (c.head + c.budget.left - c₃.head) c₃.budget.left = 0
          omega

theorem Spending.writes (h : Spending b c) (w : Sink) (chunks : List Bytes) :
    Spending b (writes w c chunks) := by
  unfold Cut.writes
  induction chunks generalizing c with
  | nil => exact h
  | cons p chunks ih => exact ih (h.write w p)

/-- What a step that is closed has taken of the budget `b`, and what it has kept. -/
structure Spent (b : Budget) (c : Cut) : Prop where
  keeps : c.budget.tail = b.tail
  head_le : c.head + c.budget.left ≤ b.left
  spent : c.cut = true → c.budget.left = 0
  kept_le : c.kept ≤ c.head + if c.cut then b.tail else 0

theorem pass_frame (w : Sink) (c : Cut) (t : Bytes) :
    (Cut.pass w c t).1.budget = c.budget ∧ (Cut.pass w c t).1.head = c.head ∧
      (Cut.pass w c t).1.cut = c.cut ∧ (Cut.pass w c t).1.kept ≤ c.kept + t.length := by
  unfold Cut.pass
  split
  · exact ⟨rfl, rfl, rfl, Nat.le_add_right _ _⟩
  · split
    · exact ⟨rfl, rfl, rfl, Nat.le_add_right _ _⟩
    · exact ⟨rfl, rfl, rfl, le_rfl⟩

/-- Nothing but the tail is kept of a step that has been cut. -/
theorem Spending.tail (h : Spending b c) (hcut : c.cut = true) {c' : Cut} {t : Bytes}
    (hc' : c'.budget = c.budget ∧ c'.head = c.head ∧ c'.cut = c.cut ∧ c'.kept ≤ c.kept + t.length)
    (ht : t.length ≤ b.tail) : Spent b c' := by
  obtain ⟨hbudget, hhead, hsame, hkept⟩ := hc'
  have hkept_le := h.kept_le
  refine ⟨hbudget ▸ h.keeps, by rw [hhead, hbudget]; exact h.head_le, fun _ => hbudget ▸ h.spent hcut, ?_⟩
  rw [hsame, hcut, if_pos rfl]
  omega

theorem Spending.close (h : Spending b c) (w : Sink) : Spent b (close w c).1 := by
  have hkept := h.kept_le
  have hnow : Spent b { c with closed := true } :=
    ⟨h.keeps, h.head_le, h.spent, Nat.le_add_right_of_le hkept⟩
  unfold Cut.close
  by_cases hclosed : c.closed = true
  · rw [if_pos hclosed]
    exact ⟨h.keeps, h.head_le, h.spent, Nat.le_add_right_of_le hkept⟩
  rw [if_neg hclosed]
  dsimp only
  by_cases hopen : c.err = none ∧ ¬ c.cut = true
  · have hcut : c.cut = false := Bool.not_eq_true _ ▸ hopen.2
    have hshare := h.share hcut
    have hfits := h.fits hcut hopen.1
    have hpassed := passed_passHead w { c with closed := true } (p := c.held)
      (show c.held.length ≤ c.budget.left by omega)
    rw [if_pos hopen]
    generalize passHead w _ c.held = passed at hpassed ⊢
    obtain ⟨c', e⟩ := passed
    have hhead : c'.head = c.head + c.held.length := hpassed.head
    have hleft : c'.budget.left = c.budget.left - c.held.length := hpassed.left
    have hkept' : c'.kept ≤ c.kept + c.held.length := hpassed.kept
    have hcut' : c'.cut = false := hpassed.cut.trans hcut
    rw [if_pos (Or.inr (show ¬ c'.cut = true by rw [hcut']; decide))]
    refine ⟨hpassed.keeps.trans h.keeps, ?_, ?_, ?_⟩
    · show c'.head + c'.budget.left ≤ b.left
      omega
    · exact fun htrue => absurd (hcut'.symm.trans htrue) (by decide)
    · show c'.kept ≤ c'.head + _
      omega
  · rw [if_neg hopen]
    by_cases hstop : c.err ≠ none ∨ ¬ c.cut = true
    · rw [if_pos hstop]
      exact hnow
    rw [if_neg hstop]
    have hcut : c.cut = true := by
      by_contra hcut
      exact hstop (Or.inr hcut)
    -- the last bytes, and what is trimmed of them
    generalize ht : (if _ < c.read - c.kept then trimTail _ else _) = t
    have hlength : t.length ≤ b.tail := by
      have hlast : (c.buf.drop (c.buf.length - c.budget.tail)).length ≤ b.tail := by
        rw [List.length_drop, h.keeps]
        omega
      rw [← ht]
      split
      · exact (trimTail_isSuffix _).length_le.trans hlast
      · exact hlast
    split
    · exact h.tail hcut (pass_frame w { c with closed := true } t) hlength
    · split
      · exact ⟨hnow.keeps, hnow.head_le, hnow.spent, hnow.kept_le⟩
      · exact h.tail hcut (pass_frame w _ t) hlength

/-- What a step takes of the budget, whatever the writes and their answers. -/
theorem spent_cutStep (b : Budget) (s : Step) : Spent b (b.cutStep s) :=
  ((spending_step b).writes s.sink s.chunks).close s.sink

end Spending

section Steps
variable {b : Budget} {s : Step} {steps : List Step}

theorem cut_close (w : Sink) (c : Cut) : (close w c).1.cut = c.cut := by
  unfold close
  split
  · rfl
  dsimp only
  by_cases hopen : c.err = none ∧ ¬ c.cut = true
  · have hcut : (passHead w { c with closed := true } c.held).1.cut = c.cut :=
      (pass_frame w _ _).2.2.1
    rw [if_pos hopen, if_pos (Or.inr (by rw [hcut]; exact hopen.2))]
    exact hcut
  · rw [if_neg hopen]
    split
    · rfl
    generalize (if _ < c.read - c.kept then trimTail _ else _) = t
    split
    · exact (pass_frame w _ t).2.2.1
    · split
      · rfl
      · exact (pass_frame w _ t).2.2.1

/-- A step that is not cut is kept whole where all of it is taken. -/
theorem whole_cutStep (htakes : s.sink = takesAll) (hcut : (b.cutStep s).cut = false) :
    (b.cutStep s).out = s.log ∧ (b.cutStep s).kept = s.log.length := by
  unfold Budget.cutStep at hcut ⊢
  rw [cut_close] at hcut
  rw [htakes] at hcut ⊢
  rcases taken_writes b.left b.tail s.chunks with hwhole | hhalved
  · exact ⟨hwhole.closed_eq.1, hwhole.closed_eq.2.1⟩
  · exact absurd (hhalved.cut.symm.trans hcut) (by decide)

/-- A step that begins when the budget is spent. -/
theorem onlyTail_cutStep (b : Budget) (s : Step) (hspent : b.left = 0) :
    OnlyTail b.tail s (b.cutStep s) := by
  have hs := spent_cutStep b s
  have hhead : (b.cutStep s).head = 0 := by
    have := hs.head_le
    omega
  have hkept : (b.cutStep s).kept ≤ b.tail := by
    have := hs.kept_le
    split at this <;> omega
  refine ⟨hhead, hkept, fun htakes => ?_⟩
  obtain ⟨hout, hlength, -⟩ := closed_writes b.left b.tail s.chunks
  rw [← htakes] at hout hlength
  change (b.cutStep s).out = (cutLog s.log b.left b.tail).1 at hout
  change (b.cutStep s).kept = (cutLog s.log b.left b.tail).2 at hlength
  rw [hout, hlength, hspent, cutLog]
  split
  · next hempty =>
    refine ⟨s.log, List.suffix_rfl, rfl, ?_⟩
    rw [if_neg (lt_irrefl _), List.nil_append]
  · next hlong =>
    have hend : headEnd s.log 0 = 0 := Nat.le_zero.mp (headEnd_le (not_le.mp hlong))
    refine ⟨tailText s.log 0 b.tail, ?_, ?_, ?_⟩
    · exact (tailText_isSuffix _ _ _).trans (List.drop_suffix _ _)
    · simp [hend]
    · simp [hend]

/-- Once the budget is spent it stays spent. -/
theorem onlyTail_cutSteps (hspent : b.left = 0) {x : Step × Cut} (hx : x ∈ b.cutSteps steps) :
    OnlyTail b.tail x.1 x.2 := by
  induction steps generalizing b with
  | nil => nomatch hx
  | cons s steps ih =>
    rcases List.mem_cons.mp hx with rfl | hx
    · exact onlyTail_cutStep b s hspent
    · have hs := spent_cutStep b s
      have hleft : (b.cutStep s).budget.left = 0 := by
        have := hs.head_le
        omega
      rw [← hs.keeps]
      exact ih hleft hx

theorem onlyTail_after_cut (b : Budget) (steps : List Step) : (b.cutSteps steps).Pairwise
    fun earlier later => earlier.2.cut = true → OnlyTail b.tail later.1 later.2 := by
  induction steps generalizing b with
  | nil => exact List.Pairwise.nil
  | cons s steps ih =>
    have hs := spent_cutStep b s
    refine List.Pairwise.cons (fun x hx hcut => ?_) ?_
    · rw [← hs.keeps]
      exact onlyTail_cutSteps (hs.spent hcut) hx
    · rw [← hs.keeps]
      exact ih _

/-- The steps together are kept up to the budget, and a tail for each that is cut. -/
theorem kept_cutSteps (b : Budget) (steps : List Step) :
    ((b.cutSteps steps).map (·.2.kept)).sum ≤
      b.left + (b.cutSteps steps).countP (·.2.cut) * b.tail := by
  induction steps generalizing b with
  | nil => exact Nat.zero_le _
  | cons s steps ih =>
    have hs := spent_cutStep b s
    have hlater := ih (b.cutStep s).budget
    rw [hs.keeps] at hlater
    have hhead := hs.head_le
    have hkept := hs.kept_le
    rw [Budget.cutSteps, List.map_cons, List.sum_cons, List.countP_cons, Nat.add_mul]
    dsimp only
    split_ifs at hkept ⊢ <;> omega

theorem map_cutSteps (b : Budget) (steps : List Step) :
    (b.cutSteps steps).map Prod.fst = steps := by
  induction steps generalizing b with
  | nil => rfl
  | cons s steps ih => rw [Budget.cutSteps, List.map_cons, ih]

theorem whole_cutSteps {x : Step × Cut} (hx : x ∈ b.cutSteps steps) (hcut : x.2.cut = false)
    (htakes : x.1.sink = takesAll) : x.2.out = x.1.log ∧ x.2.kept = x.1.log.length := by
  induction steps generalizing b with
  | nil => nomatch hx
  | cons s steps ih =>
    rcases List.mem_cons.mp hx with rfl | hx
    · exact whole_cutStep htakes hcut
    · exact ih hx

end Steps

/-- The logs of a build's steps stay within their limit, whatever takes them: a step that is not cut
is kept whole, and behind the first that is cut there is no head any more. -/
theorem Limit.logs_within (l : Limit) (hl : l.validate = .ok ()) (steps : List Step) :
    (l.newBudget.cutSteps steps).map Prod.fst = steps ∧
    ((((l.newBudget.cutSteps steps).map (·.2.kept)).sum : ℕ) : ℤ) ≤
      l.maxBytes + ((l.newBudget.cutSteps steps).countP (·.2.cut) : ℤ) * l.tail ∧
    ((l.newBudget.cutSteps steps).Pairwise fun earlier later =>
      earlier.2.cut = true → OnlyTail l.tail.toNat later.1 later.2) ∧
    ∀ x ∈ l.newBudget.cutSteps steps, x.2.cut = false → x.1.sink = takesAll →
      x.2.out = x.1.log ∧ x.2.kept = x.1.log.length := by
  have hbounds : 0 ≤ l.maxBytes ∧ 0 ≤ l.tail := by
    unfold Limit.validate minMaxBytes at hl
    split_ifs at hl with hmax htail
    omega
  refine ⟨map_cutSteps _ _, ?_, onlyTail_after_cut l.newBudget steps, fun x hx => whole_cutSteps hx⟩
  have hkept := kept_cutSteps l.newBudget steps
  have hleft : (l.newBudget.left : ℤ) = l.maxBytes := Int.toNat_of_nonneg hbounds.1
  have htail : (l.newBudget.tail : ℤ) = l.tail := Int.toNat_of_nonneg hbounds.2
  rw [← hleft, ← htail]
  exact_mod_cast hkept

/-- Two steps under the least limit there is. -/
theorem Limit.logs_within_least : (((((Limit.newBudget ⟨4096, 8⟩).cutSteps
      [⟨takesAll, [[104, 105], [10]]⟩, ⟨takesAll, []⟩]).map (·.2.kept)).sum : ℕ) : ℤ) ≤
        (4096 : ℤ) + (((Limit.newBudget ⟨4096, 8⟩).cutSteps
          [⟨takesAll, [[104, 105], [10]]⟩, ⟨takesAll, []⟩]).countP (·.2.cut) : ℤ) * 8 :=
  (Limit.logs_within ⟨4096, 8⟩ (by decide) [⟨takesAll, [[104, 105], [10]]⟩, ⟨takesAll, []⟩]).2.1

end Kubeast.BuildLog
