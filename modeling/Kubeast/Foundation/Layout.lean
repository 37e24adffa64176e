import Mathlib.Data.List.Infix

/-! What stands at each path of a tree of folders, as a function. A file that is set makes the folders
above it; several files can be set when none stands above another. -/

inductive Layout.Entry (F : Type*)
  | folder
  | file (f : F)
deriving DecidableEq

abbrev Layout (N F : Type*) := List N → Option (Layout.Entry F)

namespace Layout
variable {N F : Type*} {t : Layout N F} {p q r : List N} {plain : F → Prop}

section Above
variable {a b : N}

/-- A path goes through all that stand above it. -/
def Above (q p : List N) : Prop := q <+: p ∧ q ≠ p

instance [DecidableEq N] : Decidable (Above q p) := inferInstanceAs (Decidable (_ ∧ _))

theorem nil_above : Above [] (a :: p) := ⟨List.nil_prefix, (List.cons_ne_nil a p).symm⟩

theorem not_above_nil : ¬Above q ([] : List N) := fun h => h.2 (List.prefix_nil.mp h.1)

theorem cons_above : Above (a :: q) (b :: p) ↔ a = b ∧ Above q p := by
  rw [Above, Above, List.cons_prefix_cons]
  constructor
  · rintro ⟨⟨rfl, hpre⟩, hne⟩
    exact ⟨rfl, hpre, fun h => hne (h ▸ rfl)⟩
  · rintro ⟨rfl, hpre, hne⟩
    exact ⟨⟨rfl, hpre⟩, fun h => hne (List.cons.inj h).2⟩

theorem not_above_self : ¬Above p p := fun h => h.2 rfl

theorem Above.trans (h : Above r q) (h' : Above q p) : Above r p := by
  refine ⟨h.1.trans h'.1, ?_⟩
  rintro rfl
  exact h.2 (h.1.eq_of_length (le_antisymm h.1.length_le h'.1.length_le))

end Above

section Set
variable [DecidableEq N] {f : Option (Entry F) → F}

/-- A file at a path; it may depend on what stood there. -/
def set (t : Layout N F) (p : List N) (f : Option (Entry F) → F) : Layout N F := fun q =>
  if q = p then some (.file (f (t p))) else if Above q p then some .folder else t q

@[simp] theorem set_self : t.set p f p = some (.file (f (t p))) := if_pos rfl

theorem set_above (h : Above q p) : t.set p f q = some .folder := (if_neg h.2).trans (if_pos h)

theorem set_of_not (hne : q ≠ p) (h : ¬Above q p) : t.set p f q = t q := (if_neg hne).trans (if_neg h)

/-- A file may be set: what stands above is a folder or can be one, and what stands there is a plain file
or nothing. -/
structure Fits (plain : F → Prop) (t : Layout N F) (p : List N) : Prop where
  above : ∀ q, Above q p → ∀ f, t q ≠ some (.file f)
  here : ∀ e, t p = some e → ∃ f, e = .file f ∧ plain f

/-- What fits behind a file that was set: what fitted before, without one standing above the other. -/
theorem fits_set_iff (hp : Fits plain t p) (hne : q ≠ p) :
    Fits plain (t.set p f) q ↔ Fits plain t q ∧ ¬Above p q ∧ ¬Above q p := by
  constructor
  · intro h
    have hpq : ¬Above p q := fun habove => h.above p habove _ set_self
    have hqp : ¬Above q p := fun habove => by
      obtain ⟨g, hg, -⟩ := h.here _ (set_above habove)
      exact nomatch hg
    refine ⟨⟨fun r hr g hfile => ?_, fun e he => ?_⟩, hpq, hqp⟩
    · by_cases hrp : Above r p
      · exact hp.above r hrp g hfile
      · have hne' : r ≠ p := fun heq => hpq (heq ▸ hr)
        exact h.above r hr g ((set_of_not hne' hrp).trans hfile)
    · exact h.here e ((set_of_not hne hqp).trans he)
  · rintro ⟨h, hpq, hqp⟩
    refine ⟨fun r hr g hfile => ?_, fun e he => ?_⟩
    · by_cases hrp : Above r p
      · rw [set_above hrp] at hfile
        exact nomatch hfile
      · have hne' : r ≠ p := fun heq => hpq (heq ▸ hr)
        exact h.above r hr g ((set_of_not hne' hrp).symm.trans hfile)
    · exact h.here e ((set_of_not hne hqp).symm.trans he)

end Set

section Under
variable {a b : N} {t' : Layout N F}

/-- What stands below a name. -/
def under (t : Layout N F) (a : N) : Layout N F := fun q => t (a :: q)

theorem fits_cons : Fits plain t (a :: p) ↔ (∀ f, t [] ≠ some (.file f)) ∧ Fits plain (t.under a) p := by
  constructor
  · intro h
    exact ⟨h.above [] nil_above, fun q hq => h.above (a :: q) (cons_above.mpr ⟨rfl, hq⟩), h.here⟩
  · rintro ⟨hnil, h⟩
    refine ⟨fun q hq => ?_, h.here⟩
    cases q with
    | nil => exact hnil
    | cons b q =>
      obtain ⟨rfl, hbelow⟩ := cons_above.mp hq
      exact h.above q hbelow

theorem fits_congr (h : ∀ q ≠ [], t q = t' q) (hnil : ∀ f, t [] ≠ some (.file f))
    (hnil' : ∀ f, t' [] ≠ some (.file f)) : Fits plain t (a :: p) ↔ Fits plain t' (a :: p) := by
  have hunder : t.under a = t'.under a := funext fun q => h (a :: q) (List.cons_ne_nil a q)
  rw [fits_cons, fits_cons, hunder, and_iff_right hnil, and_iff_right hnil']

variable [DecidableEq N] {f : Option (Entry F) → F}

theorem set_cons : t.set (a :: p) f (a :: q) = (t.under a).set p f q := by
  simp only [set, under, List.cons.injEq, cons_above, true_and]

theorem set_cons_ne (h : b ≠ a) : t.set (a :: p) f (b :: q) = t (b :: q) :=
  set_of_not (fun heq => h (List.cons.inj heq).1) fun habove => h (cons_above.mp habove).1

/-- A folder may as well not be there when a file is set below it. -/
theorem set_congr (h : ∀ q ≠ [], t q = t' q) : t.set (a :: p) f q = t'.set (a :: p) f q := by
  cases q with
  | nil => rw [set_above nil_above, set_above nil_above]
  | cons b q => rw [set, set, h (a :: p) (List.cons_ne_nil a p), h (b :: q) (List.cons_ne_nil b q)]

end Under

section Sets
variable [DecidableEq N] {l : List (List N × (Option (Entry F) → F))} {w : List N × (Option (Entry F) → F)}

/-- Several files, one after the other. -/
def sets (t : Layout N F) (l : List (List N × (Option (Entry F) → F))) : Layout N F :=
  l.foldl (fun t w => t.set w.1 w.2) t

/-- Each fits behind those before it. -/
def AllFit (plain : F → Prop) : Layout N F → List (List N × (Option (Entry F) → F)) → Prop
  | _, [] => True
  | t, w :: l => Fits plain t w.1 ∧ AllFit plain (t.set w.1 w.2) l

/-- Files at different paths fit one after the other when each fits and none stands above another. -/
theorem allFit_iff (hdistinct : (l.map Prod.fst).Nodup) : AllFit plain t l ↔
    (∀ w ∈ l, Fits plain t w.1) ∧ ∀ w ∈ l, ∀ w' ∈ l, ¬Above w.1 w'.1 := by
  induction l generalizing t with
  | nil => exact iff_of_true trivial ⟨nofun, nofun⟩
  | cons w l ih =>
    rw [List.map_cons, List.nodup_cons] at hdistinct
    have hne : ∀ w' ∈ l, w'.1 ≠ w.1 := fun w' hw' heq =>
      hdistinct.1 (List.mem_map.mpr ⟨w', hw', heq⟩)
    rw [AllFit, ih hdistinct.2]
    constructor
    · rintro ⟨hw, hl, hpairs⟩
      have hafter := fun w' hw' => (fits_set_iff hw (hne w' hw')).mp (hl w' hw')
      refine ⟨List.forall_mem_cons.mpr ⟨hw, fun w' hw' => (hafter w' hw').1⟩, ?_⟩
      intro x hx y hy
      rcases List.mem_cons.mp hx with rfl | hx'
      · rcases List.mem_cons.mp hy with rfl | hy'
        · exact not_above_self
        · exact (hafter y hy').2.1
      · rcases List.mem_cons.mp hy with rfl | hy'
        · exact (hafter x hx').2.2
        · exact hpairs x hx' y hy'
    · rintro ⟨hall, hpairs⟩
      obtain ⟨hw, hl⟩ := List.forall_mem_cons.mp hall
      refine ⟨hw, fun w' hw' => (fits_set_iff hw (hne w' hw')).mpr ⟨hl w' hw', ?_, ?_⟩,
        fun x hx y hy => hpairs x (List.mem_cons_of_mem _ hx) y (List.mem_cons_of_mem _ hy)⟩
      · exact hpairs w List.mem_cons_self w' (List.mem_cons_of_mem _ hw')
      · exact hpairs w' (List.mem_cons_of_mem _ hw') w List.mem_cons_self

/-- A path that no file is at or below keeps what stands there. -/
theorem sets_other (h : ∀ w ∈ l, q ≠ w.1 ∧ ¬Above q w.1) : t.sets l q = t q := by
  induction l generalizing t with
  | nil => rfl
  | cons w l ih =>
    obtain ⟨hw, hl⟩ := List.forall_mem_cons.mp h
    exact (ih hl).trans (set_of_not hw.1 hw.2)

/-- Each file is there. -/
theorem sets_mem (hdistinct : (l.map Prod.fst).Nodup) (hpairs : ∀ w ∈ l, ∀ w' ∈ l, ¬Above w.1 w'.1)
    (hw : w ∈ l) : t.sets l w.1 = some (.file (w.2 (t w.1))) := by
  induction l generalizing t with
  | nil => exact nomatch hw
  | cons x l ih =>
    rw [List.map_cons, List.nodup_cons] at hdistinct
    have htail : ∀ y ∈ l, ∀ z ∈ l, ¬Above y.1 z.1 := fun y hy z hz =>
      hpairs y (List.mem_cons_of_mem _ hy) z (List.mem_cons_of_mem _ hz)
    have hne : ∀ y ∈ l, x.1 ≠ y.1 := fun y hy heq => hdistinct.1 (List.mem_map.mpr ⟨y, hy, heq.symm⟩)
    rcases List.mem_cons.mp hw with rfl | hmem
    · have hothers : ∀ y ∈ l, w.1 ≠ y.1 ∧ ¬Above w.1 y.1 := fun y hy =>
        ⟨hne y hy, hpairs w List.mem_cons_self y (List.mem_cons_of_mem _ hy)⟩
      exact (sets_other hothers).trans set_self
    · have hsame : t.set x.1 x.2 w.1 = t w.1 :=
        set_of_not (hne w hmem).symm (hpairs w (List.mem_cons_of_mem _ hmem) x List.mem_cons_self)
      exact (ih hdistinct.2 htail hmem).trans (congrArg (fun e => some (Entry.file (w.2 e))) hsame)

theorem sets_folder (hq : t q = some .folder) (h : ∀ w ∈ l, q ≠ w.1) : t.sets l q = some .folder := by
  induction l generalizing t with
  | nil => exact hq
  | cons w l ih =>
    obtain ⟨hw, hl⟩ := List.forall_mem_cons.mp h
    refine ih ?_ hl
    by_cases habove : Above q w.1
    · exact set_above habove
    · exact (set_of_not hw habove).trans hq

/-- A path above a file is a folder's. -/
theorem sets_above (hpairs : ∀ w ∈ l, ∀ w' ∈ l, ¬Above w.1 w'.1) (hw : w ∈ l) (h : Above q w.1) :
    t.sets l q = some .folder := by
  have hne : ∀ x ∈ l, q ≠ x.1 := fun x hx heq => hpairs x hx w hw (heq ▸ h)
  clear hpairs
  induction l generalizing t with
  | nil => exact nomatch hw
  | cons x l ih =>
    obtain ⟨hx, hl⟩ := List.forall_mem_cons.mp hne
    rcases List.mem_cons.mp hw with rfl | hmem
    · exact sets_folder (t := t.set w.1 w.2) (set_above h) hl
    · exact ih hmem hl

end Sets
end Layout
