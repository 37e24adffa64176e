import Kubeast.Render.EnvReading

/-! When the variables of a container read as their texts. -/
namespace Kubeast.Render
open Words Sorted

section Entries

def EnvEntry.name : EnvEntry → String
  | .value name _ => name
  | .secret name _ => name

variable {e : EnvEntry} {es es' rest : List EnvEntry} {name : String} {w : Word Char Ref}
  {env : List (String × Word Char Ref)}

theorem readEnv_concat (es : List EnvEntry) (e : EnvEntry) :
    readEnv (es ++ [e]) = readEnv es ++ [readEntry (readEnv es) e] := by
  rw [readEnv, List.foldl_append]
  rfl

/-- Reading more entries leaves those before as they are. -/
theorem readEnv_append (es es' : List EnvEntry) : readEnv es <+: readEnv (es ++ es') := by
  induction es' using List.reverseRecOn with
  | nil => exact (List.append_nil es).symm ▸ List.prefix_rfl
  | append_singleton es' e ih =>
    rw [← List.append_assoc, readEnv_concat]
    exact ih.trans (List.prefix_append ..)

theorem names_readEnv (es : List EnvEntry) : (readEnv es).map Prod.fst = es.map EnvEntry.name := by
  induction es using List.reverseRecOn with
  | nil => rfl
  | append_singleton es e ih =>
    rw [readEnv_concat, List.map_append, List.map_append, ih]
    cases e <;> rfl

/-- An entry is read with the values of the entries before it. -/
theorem mem_readEnv (h : es = es' ++ e :: rest) : readEntry (readEnv es') e ∈ readEnv es := by
  rw [h, List.append_cons]
  apply (readEnv_append (es' ++ [e]) rest).subset
  rw [readEnv_concat]
  exact List.mem_append_right _ (List.mem_singleton_self _)

/-- Where each name is given once, its value is the one given. -/
theorem valueOf_eq (hnodup : (env.map Prod.fst).Nodup) (h : (name, w) ∈ env) :
    valueOf env name.toList = some w := by
  rw [valueOf]
  have hsome : (env.reverse.find? fun e => decide (e.1.toList = name.toList)).isSome = true := by
    rw [List.find?_isSome]
    exact ⟨(name, w), List.mem_reverse.mpr h, by simp⟩
  obtain ⟨e, he⟩ := Option.isSome_iff_exists.mp hsome
  have hfound := List.find?_some he
  have hname : e.1 = name := String.toList_inj.mp (of_decide_eq_true hfound)
  have hmem := List.mem_reverse.mp (List.mem_of_find?_eq_some he)
  rw [he, List.inj_on_of_nodup_map hnodup hmem h hname]
  rfl

end Entries

section Hidden
variable {refs : List Ref} {ref : Ref} {k : String}

theorem get_hiddenVars (refs : List Ref) (k : String) : (hiddenVars refs).get k =
    (refs.reverse.find? fun ref => decide (hiddenName ref = k)).map fun ref => (k, ref) := by
  induction refs using List.reverseRecOn with
  | nil => rfl
  | append_singleton refs ref ih =>
    rw [hiddenVars, List.foldl_append, List.foldl_cons, List.foldl_nil, List.reverse_append,
      List.reverse_singleton, List.singleton_append, List.find?_cons]
    by_cases hk : hiddenName ref = k
    · rw [decide_eq_true hk, ← hk]
      exact Dict.get_set_self
    · rw [decide_eq_false hk]
      exact (Dict.get_set_ne hk).trans ih

/-- The output that a generated name stands for. -/
def winner (refs : List Ref) (ref : Ref) : Ref :=
  (refs.reverse.find? fun other => decide (hiddenName other = hiddenName ref)).getD ref

theorem winner_spec (h : ref ∈ refs) : winner refs ref ∈ refs ∧
    hiddenName (winner refs ref) = hiddenName ref ∧
    (hiddenVars refs).get (hiddenName ref) = some (hiddenName ref, winner refs ref) := by
  have hsome : (refs.reverse.find? fun other => decide (hiddenName other = hiddenName ref)).isSome =
      true := by
    rw [List.find?_isSome]
    exact ⟨ref, List.mem_reverse.mpr h, by simp⟩
  obtain ⟨other, hother⟩ := Option.isSome_iff_exists.mp hsome
  have hname := List.find?_some hother
  rw [get_hiddenVars, winner, hother]
  exact ⟨List.mem_reverse.mp (List.mem_of_find?_eq_some hother), of_decide_eq_true hname, rfl⟩

theorem name_of_mem_hiddenVars {h : String × Ref} (hmem : h ∈ (hiddenVars refs).rows) :
    h.1 = hiddenName h.2 := by
  have hget := Table.get_of_mem hmem
  rw [get_hiddenVars] at hget
  obtain ⟨other, hother, heq⟩ := Option.map_eq_some_iff.mp hget
  have hname := List.find?_some hother
  rw [← heq]
  exact (of_decide_eq_true hname).symm

end Hidden

section Texts

/-- What a text means: its letters and the secrets it refers to. -/
def meaning : List Piece → Word Char Ref
  | [] => []
  | .text s :: ps => letters s.toList ++ meaning ps
  | .ref ["resources", id, key] :: ps => .inr ⟨id, key⟩ :: meaning ps
  | .ref _ :: ps => meaning ps

/-- Literal text, or a reference to a key of a secret output. -/
def secretPiece (r : Scope) : Piece → Bool
  | .text _ => true
  | .ref ["resources", id, _] =>
    match lookup r.outputs id with
    | some .secret => true
    | _ => false
  | .ref _ => false

/-- The text refers to secret outputs only. -/
def SecretRefs (r : Scope) (ps : List Piece) : Prop := ∀ p ∈ ps, secretPiece r p = true

instance (r : Scope) (ps : List Piece) : Decidable (SecretRefs r ps) :=
  inferInstanceAs (Decidable (∀ p ∈ ps, secretPiece r p = true))

/-- A reference as the Score schema and the lookup of a secret output admit it. -/
structure Referable (ref : Ref) : Prop where
  id : ref.id ≠ "" ∧ ref.id.toList.all labelChar = true
  key : isSecretKey ref.key = true

variable {r : Scope} {ps : List Piece} {ref : Ref} {w : Word Char Ref} {v : String} {c : Char}
  {s : List Char}

theorem secretPiece_ref {path : List String} (h : secretPiece r (.ref path) = true) :
    ∃ id key, path = ["resources", id, key] ∧ lookup r.outputs id = some .secret := by
  unfold secretPiece at h
  split at h
  · next heq => cases heq
  · next id key heq =>
    cases heq
    split at h
    · next hout => exact ⟨id, key, rfl, hout⟩
    · cases h
  · cases h

theorem Referable.notMem_id (h : Referable ref) (hc : labelChar c = false) : c ∉ ref.id.toList := by
  intro hmem
  have hlabel := List.all_eq_true.mp h.id.2 c hmem
  rw [hc] at hlabel
  cases hlabel

theorem Referable.notMem_key (h : Referable ref)
    (hc : (c == '-' || c == '.' || c == '_' || c.isAlphanum) = false) : c ∉ ref.key.toList := by
  intro hmem
  have hkey := (Bool.and_eq_true_iff.mp h.key).2
  have hchar := List.all_eq_true.mp hkey c hmem
  rw [hc] at hchar
  cases hchar

theorem Referable.clean (h : Referable ref) : Clean ref where
  id := ⟨h.id.1, h.notMem_id (by decide)⟩
  key := ⟨of_decide_eq_true (Bool.and_eq_true_iff.mp h.key).1, h.notMem_key (by decide)⟩

theorem Referable.notMem_marker (h : Referable ref) : '$' ∉ marker ref := by
  have hmark : '$' ∉ secretMark.toList := by decide
  have hid : '$' ∉ ref.id.toList := h.notMem_id (by decide)
  have hkey : '$' ∉ ref.key.toList := h.notMem_key (by decide)
  rw [marker_eq]
  simp [hmark, hid, hkey]

theorem substPieces_text : substPieces r (.text v :: ps) = (substPieces r ps).map (v ++ ·) := rfl

/-- Where the lookups succeed, the text is its letters with a marker for each secret. -/
theorem substPieces_secret (hids : ∀ o ∈ r.outputs.rows, o.1 ≠ "" ∧ o.1.toList.all labelChar = true)
    (hsecret : SecretRefs r ps) (hok : substPieces r ps = .ok v) :
    v.toList = fill marker (meaning ps) ∧ ∀ ref ∈ atoms (meaning ps), Referable ref := by
  induction ps generalizing v with
  | nil =>
    obtain rfl := Except.ok.inj hok
    exact ⟨rfl, fun ref hr => nomatch hr⟩
  | cons p ps ih =>
    have hrest : SecretRefs r ps := fun p hp => hsecret p (List.mem_cons_of_mem _ hp)
    cases p with
    | text t =>
      rw [substPieces_text] at hok
      cases hps : substPieces r ps with
      | error es => rw [hps] at hok; cases hok
      | ok u =>
        obtain ⟨hfill, hrefs⟩ := ih hrest hps
        rw [hps] at hok
        obtain rfl := Except.ok.inj hok
        constructor
        · rw [meaning, fill_append, fill_letters, ← hfill, String.toList_append]
        · intro ref hr
          apply hrefs ref
          rw [mem_atoms, meaning, List.mem_append] at hr
          rcases hr with hr | hr
          · obtain ⟨a, -, ha⟩ := List.mem_map.mp hr
            cases ha
          · exact mem_atoms.mpr hr
    | ref path =>
      obtain ⟨id, key, rfl, hout⟩ := secretPiece_ref (hsecret _ (List.mem_cons_self ..))
      have hlookup : r.lookup ["resources", id, key] =
          if isSecretKey key then .ok (secretMarker id key) else
            .error (.mk "a secret output is $\x7bresources.%s.<key>\x7d" [.str id] []) := by
        simp only [Scope.lookup_output hout, Output.get]
        split <;> rfl
      rw [substPieces, hlookup] at hok
      by_cases hkey : isSecretKey key = true
      · rw [if_pos hkey] at hok
        cases hps : substPieces r ps with
        | error es => rw [hps] at hok; cases hok
        | ok u =>
          obtain ⟨hfill, hrefs⟩ := ih hrest hps
          rw [hps] at hok
          obtain rfl := Except.ok.inj hok
          have href : Referable ⟨id, key⟩ := by
            obtain ⟨o, ho, -⟩ := Option.map_eq_some_iff.mp hout
            obtain ⟨hmem, rfl⟩ := Table.get_eq_some.mp ho
            exact ⟨hids o hmem, hkey⟩
          constructor
          · rw [meaning, fill_atom, ← hfill, String.toList_append]
            rfl
          · intro ref hr
            rcases List.mem_cons.mp (mem_atoms.mp hr) with heq | hr
            · exact Sum.inr.inj heq ▸ href
            · exact hrefs ref (mem_atoms.mpr hr)
      · rw [if_neg hkey] at hok
        cases hps : substPieces r ps with
        | error es => rw [hps] at hok; cases hok
        | ok u => rw [hps] at hok; cases hok

end Texts

section Literal
variable {ref : Ref} {w : Word Char Ref} {c : Char} {s : List Char}

/-- No secret's marker begins at a literal character. -/
def Unmarked : Word Char Ref → Prop
  | [] => True
  | .inl c :: w => (∀ ref, Clean ref → ¬ marker ref <+: c :: fill marker w) ∧ Unmarked w
  | .inr _ :: w => Unmarked w

/-- A written text is split into what was written where no literal text makes a marker. -/
theorem scan_written_iff (hrefs : ∀ ref ∈ atoms w, Clean ref) :
    scan matchRef 0 (fill marker w) = w ↔ Unmarked w := by
  induction w with
  | nil => exact ⟨fun _ => trivial, fun _ => rfl⟩
  | cons x w ih =>
    have ih := ih fun ref hr => hrefs ref (mem_atoms.mpr (List.mem_cons_of_mem _ (mem_atoms.mp hr)))
    cases x with
    | inl c =>
      rw [fill_letter, scan, Unmarked]
      cases hfind : matchRef (c :: fill marker w) with
      | none =>
        have hnone : ∀ ref, Clean ref → ¬ marker ref <+: c :: fill marker w := by
          rintro ref href ⟨t, ht⟩
          rw [← ht, matchRef_marker href] at hfind
          cases hfind
        dsimp only
        rw [List.cons_inj_right, ih]
        exact ⟨fun h => ⟨hnone, h⟩, And.right⟩
      | some found =>
        obtain ⟨⟨t, ht⟩, -, href⟩ := matchRef_eq_some hfind
        constructor
        · intro h
          cases (List.cons.inj h).1
        · intro h
          exact absurd ⟨t, ht.symm⟩ (h.1 found.1 href)
    | inr ref =>
      have href : Clean ref := hrefs ref (mem_atoms.mpr (List.mem_cons_self ..))
      obtain ⟨m, hm⟩ := secretMark_cons
      have hmarker : marker ref = '\x00' :: (marker ref).tail := by
        rw [marker_eq, hm]
        rfl
      have hfound := matchRef_marker href (fill marker w)
      rw [hmarker, List.cons_append] at hfound
      rw [fill_atom, hmarker, List.cons_append, scan, hfound, Unmarked]
      dsimp only
      rw [List.length_cons, Nat.add_sub_cancel, scan_append_left, List.cons_inj_right, ih]

/-- Written out, a plain word has no dollar before an opening parenthesis. -/
theorem isChain_fill (hplain : Plain w) (hrefs : ∀ ref ∈ atoms w, Referable ref) :
    (fill marker w).IsChain fun a b => ¬ (a = '$' ∧ b = '(') := by
  induction w with
  | nil => exact List.isChain_nil
  | cons x w ih =>
    have ih := ih hplain.tail fun ref hr =>
      hrefs ref (mem_atoms.mpr (List.mem_cons_of_mem _ (mem_atoms.mp hr)))
    cases x with
    | inl c =>
      rw [fill_letter, List.isChain_cons]
      constructor
      · rintro d hd ⟨rfl, rfl⟩
        cases w with
        | nil => cases hd
        | cons y w =>
          cases y with
          | inl d =>
            obtain rfl : d = '(' := Option.some.inj hd
            exact (List.isChain_cons_cons.mp hplain).1 ⟨rfl, rfl⟩
          | inr ref =>
            obtain ⟨m, hm⟩ := secretMark_cons
            rw [fill_atom, marker_eq, hm] at hd
            cases hd
      · exact ih
    | inr ref =>
      have hdollar := (hrefs ref (mem_atoms.mpr (List.mem_cons_self ..))).notMem_marker
      rw [fill_atom]
      apply List.IsChain.append _ ih
      · intro a ha b _ hab
        exact hdollar (hab.1 ▸ List.mem_of_getLast? ha)
      · generalize marker ref = m at hdollar
        induction m with
        | nil => exact List.isChain_nil
        | cons a m ihm =>
          rw [List.mem_cons, not_or] at hdollar
          rw [List.isChain_cons]
          exact ⟨fun b _ hab => hdollar.1 hab.1.symm, ihm hdollar.2⟩

theorem plain_of_fill (h : (fill marker w).IsChain fun a b => ¬ (a = '$' ∧ b = '(')) : Plain w := by
  induction w with
  | nil => exact List.isChain_nil
  | cons x w ih =>
    cases x with
    | inl c =>
      rw [fill_letter, List.isChain_cons] at h
      rw [Plain, List.isChain_cons]
      constructor
      · rintro y hy ⟨hc, rfl⟩
        cases w with
        | nil => cases hy
        | cons z w =>
          obtain rfl : z = .inl '(' := Option.some.inj hy
          exact h.1 '(' rfl ⟨Sum.inl.inj hc, rfl⟩
      · exact ih h.2
    | inr ref =>
      rw [fill_atom] at h
      rw [Plain, List.isChain_cons]
      constructor
      · rintro y _ ⟨hc, -⟩
        cases hc
      · exact ih h.right_of_append

end Literal

section Reading

/-- The secrets of a text that come through variables of their own. -/
def embedded : Word Char Ref → List Ref
  | [.inr _] => []
  | w => atoms w

/-- What a variable reads as, where its text was split into `w`. -/
def reading (win : Ref → Ref) : Word Char Ref → Word Char Ref
  | [.inr ref] => [.inr ref]
  | w => shown win w

variable {r : Scope} {container name text v : String} {vars : Dict String String} {w : Word Char Ref}
  {win : Ref → Ref} {env : List (String × Word Char Ref)} {ref ref' : Ref}

theorem single_or (w : Word Char Ref) : (∃ ref, w = [.inr ref]) ∨ ∀ ref, w ≠ [.inr ref] := by
  by_cases h : ∃ ref, w = [.inr ref]
  · exact Or.inl h
  · exact Or.inr fun ref heq => h ⟨ref, heq⟩

theorem embedded_eq (h : ∀ ref, w ≠ [.inr ref]) : embedded w = atoms w := by
  unfold embedded
  split
  · next ref => exact absurd rfl (h ref)
  · rfl

theorem reading_eq (h : ∀ ref, w ≠ [.inr ref]) : reading win w = shown win w := by
  unfold reading
  split
  · next ref => exact absurd rfl (h ref)
  · rfl

theorem envEntry_single (h : splitRefs v = [.inr ref]) : envEntry name v = ([], .secret name ref) := by
  rw [envEntry, h]

theorem envEntry_text (h : ∀ ref, splitRefs v ≠ [.inr ref]) :
    envEntry name v = (atoms (splitRefs v), .value name (String.ofList (fill dollarRef (splitRefs v)))) := by
  have hplain (hnone : atoms (splitRefs v) = []) :
      String.ofList (fill dollarRef (splitRefs v)) = v := by
    have hfill : fill dollarRef (splitRefs v) = fill marker (splitRefs v) := by
      apply fill_congr
      intro ref hr
      rw [← mem_atoms, hnone] at hr
      cases hr
    rw [hfill, fill_splitRefs, String.ofList_toList]
  unfold envEntry
  split
  · next ref heq => exact absurd heq (h ref)
  · split
    · next hnone => rw [hplain hnone, hnone]
    · rfl

theorem envEntry_fst : (envEntry name v).1 = embedded (splitRefs v) := by
  obtain ⟨ref, hsingle⟩ | htext := single_or (splitRefs v)
  · rw [envEntry_single hsingle, hsingle]
    rfl
  · rw [envEntry_text htext, embedded_eq htext]

theorem name_envEntry : (envEntry name v).2.name = name := by
  obtain ⟨ref, hsingle⟩ | htext := single_or (splitRefs v)
  · rw [envEntry_single hsingle]
    rfl
  · rw [envEntry_text htext]
    rfl

/-- An entry read where the generated names of its secrets are known. -/
theorem readEntry_envEntry (hplain : Plain (splitRefs v)) (henv : ∀ ref ∈ embedded (splitRefs v),
    valueOf env (hiddenName ref).toList = some [.inr (win ref)]) :
    readEntry env (envEntry name v).2 = (name, reading win (splitRefs v)) := by
  obtain ⟨ref, hsingle⟩ | htext := single_or (splitRefs v)
  · rw [envEntry_single hsingle, hsingle]
    rfl
  · rw [embedded_eq htext] at henv
    rw [envEntry_text htext, reading_eq htext, readEntry, String.toList_ofList,
      expand_written hplain henv]

/-- What a text is substituted by, where nothing fails. -/
def substituted (r : Scope) (text : String) : String :=
  (substPieces r (r.lib.scan text)).toOption.getD ""

/-- A variable that is accepted. -/
theorem envVar_accepted (h : (envVar r container name text).effects.errs = []) :
    substPieces r (r.lib.scan text) = .ok (substituted r text) ∧
    Text.hasPrefix name hiddenPrefix = false ∧
    (envVar r container name text).value = some (envEntry name (substituted r text)) := by
  cases hpre : Text.hasPrefix name hiddenPrefix with
  | true =>
    rw [envVar, if_pos hpre] at h
    cases h
  | false =>
    have hno : ¬ Text.hasPrefix name hiddenPrefix = true := by
      rw [hpre]
      exact Bool.false_ne_true
    rw [envVar, if_neg hno] at h ⊢
    cases hsubst : substPieces r (r.lib.scan text) with
    | error causes =>
      simp [subst, hsubst] at h
    | ok v =>
      have hv : substituted r text = v := by
        rw [substituted, hsubst]
        rfl
      rw [hv]
      refine ⟨rfl, rfl, ?_⟩
      simp [subst, hsubst]

end Reading

section Container
variable {r : Scope} {container : String} {vars : Dict String String} {v : String × String} {ref : Ref}

/-- The secrets embedded in a container's variables. -/
def embeddedRefs (r : Scope) (vars : Dict String String) : List Ref :=
  (sortedRows vars).flatMap fun v => embedded (splitRefs (substituted r v.2))

def hiddenEntries (refs : List Ref) : List EnvEntry :=
  (sortedRows (hiddenVars refs)).map fun h => .secret h.1 h.2

def entry (r : Scope) (v : String × String) : EnvEntry := (envEntry v.1 (substituted r v.2)).2

theorem mem_sortedRows {V : Type} {m : Dict String V} {v : String × V} :
    v ∈ sortedRows m ↔ v ∈ m.rows := (perm_sortBy Prod.fst m.rows).mem_iff

theorem nodup_sortedRows {V : Type} (m : Dict String V) : ((sortedRows m).map Prod.fst).Nodup :=
  (increasing_sortBy m.nodup).nodup_map

theorem accepted_of_envVars (hok : (envVars r container vars).effects.errs = []) (hv : v ∈ vars.rows) :
    (envVar r container v.1 v.2).effects.errs = [] := by
  have hloop : (Built.forEach (sortedRows vars) fun v => envVar r container v.1 v.2).effects.errs = [] := by
    simpa [envVars, Effects.none] using hok
  exact errs_of_forEach (a := v) hloop (mem_sortedRows.mpr hv)

/-- The entries of a container: the embedded secrets first, then its variables in order. -/
theorem envVars_value (hok : (envVars r container vars).effects.errs = []) :
    (envVars r container vars).value =
      hiddenEntries (embeddedRefs r vars) ++ (sortedRows vars).map (entry r) := by
  have hfound : (Built.forEach (sortedRows vars) fun v => envVar r container v.1 v.2).value =
      (sortedRows vars).map fun v => envEntry v.1 (substituted r v.2) := by
    rw [forEach_value]
    have hone : ∀ v ∈ sortedRows vars, (envVar r container v.1 v.2).value.toList =
        [envEntry v.1 (substituted r v.2)] := by
      intro v hv
      rw [(envVar_accepted (accepted_of_envVars hok (mem_sortedRows.mp hv))).2.2]
      rfl
    rw [List.flatMap_congr hone, ← List.map_eq_flatMap]
  have hvalue : (envVars r container vars).value =
      hiddenEntries ((Built.forEach (sortedRows vars) fun v => envVar r container v.1 v.2).value.flatMap
        Prod.fst) ++ (Built.forEach (sortedRows vars) fun v => envVar r container v.1 v.2).value.map
        Prod.snd := rfl
  rw [hvalue, hfound, List.map_map, List.flatMap_map]
  have hrefs : ((sortedRows vars).flatMap fun v => (envEntry v.1 (substituted r v.2)).1) =
      embeddedRefs r vars := List.flatMap_congr fun v _ => envEntry_fst
  rw [hrefs]
  rfl

theorem mem_hiddenEntries {refs : List Ref} (h : ref ∈ refs) :
    .secret (hiddenName ref) (winner refs ref) ∈ hiddenEntries refs := by
  obtain ⟨-, -, hget⟩ := winner_spec h
  apply List.mem_map.mpr
  exact ⟨_, mem_sortedRows.mpr (Table.mem_of_get hget), rfl⟩

theorem names_hiddenEntries (refs : List Ref) :
    (hiddenEntries refs).map EnvEntry.name = (sortedRows (hiddenVars refs)).map Prod.fst := by
  rw [hiddenEntries, List.map_map]
  rfl

theorem hasPrefix_hiddenName (ref : Ref) : Text.hasPrefix (hiddenName ref) hiddenPrefix = true := by
  rw [Text.hasPrefix_iff, hiddenName, String.toList_ofList, List.append_assoc]
  exact ⟨_, rfl⟩

/-- No name is given twice. -/
theorem nodup_names (hok : (envVars r container vars).effects.errs = []) :
    ((envVars r container vars).value.map EnvEntry.name).Nodup := by
  have hnames : ((sortedRows vars).map (entry r)).map EnvEntry.name = (sortedRows vars).map Prod.fst := by
    rw [List.map_map]
    exact List.map_congr_left fun v _ => name_envEntry
  rw [envVars_value hok, List.map_append, hnames, names_hiddenEntries]
  apply List.Nodup.append (nodup_sortedRows _) (nodup_sortedRows _)
  intro name hhidden hvar
  obtain ⟨h, hh, rfl⟩ := List.mem_map.mp hhidden
  obtain ⟨v, hv, hname⟩ := List.mem_map.mp hvar
  have hprefix := hasPrefix_hiddenName h.2
  rw [← name_of_mem_hiddenVars (mem_sortedRows.mp hh), ← hname,
    (envVar_accepted (accepted_of_envVars hok (mem_sortedRows.mp hv))).2.1] at hprefix
  cases hprefix

/-- What a variable of an accepted container reads as. -/
theorem valueOf_envVars (hok : (envVars r container vars).effects.errs = []) (hv : v ∈ vars.rows)
    (hplain : Plain (splitRefs (substituted r v.2))) :
    valueOf (readEnv (envVars r container vars).value) v.1.toList =
      some (reading (winner (embeddedRefs r vars)) (splitRefs (substituted r v.2))) := by
  obtain ⟨before, after, hsplit⟩ := List.append_of_mem (mem_sortedRows.mpr hv)
  have hvalue := envVars_value hok
  rw [hsplit, List.map_append, List.map_cons, ← List.append_assoc] at hvalue
  have hnodup := nodup_names hok
  have hread := mem_readEnv hvalue
  rw [entry, readEntry_envEntry hplain] at hread
  · rw [← names_readEnv] at hnodup
    exact valueOf_eq hnodup hread
  · intro ref href
    have hmem : ref ∈ embeddedRefs r vars := List.mem_flatMap.mpr ⟨v, mem_sortedRows.mpr hv, href⟩
    obtain ⟨es, rest, hes⟩ := List.append_of_mem (mem_hiddenEntries hmem)
    have hafter : hiddenEntries (embeddedRefs r vars) ++ before.map (entry r) =
        es ++ .secret (hiddenName ref) (winner (embeddedRefs r vars) ref) ::
          (rest ++ before.map (entry r)) := by
      rw [hes, List.append_assoc]
      rfl
    have hentry := mem_readEnv hafter
    apply valueOf_eq _ hentry
    rw [names_readEnv]
    rw [hvalue, List.map_append] at hnodup
    exact hnodup.of_append_left

/-- The variables of a container read as their texts: no literal text makes a secret's marker, no
dollar stands before a reference or another dollar, and secrets that come through one generated name
are the same. -/
structure Legible (r : Scope) (vars : Dict String String) : Prop where
  unmarked : ∀ v ∈ vars.rows, Unmarked (meaning (r.lib.scan v.2))
  undoubled : ∀ v ∈ vars.rows, Undoubled (meaning (r.lib.scan v.2))
  named : ∀ v ∈ vars.rows, ∀ v' ∈ vars.rows, ∀ ref ∈ embedded (meaning (r.lib.scan v.2)),
    ∀ ref' ∈ embedded (meaning (r.lib.scan v'.2)), hiddenName ref = hiddenName ref' → ref = ref'

theorem embedded_subset {w : Word Char Ref} (h : ref ∈ embedded w) : ref ∈ atoms w := by
  obtain ⟨ref', rfl⟩ | htext := single_or w
  · cases h
  · rwa [embedded_eq htext] at h

/-- What is found in a variable's text has the same markers as what the text means. -/
theorem splitRefs_substituted
    (hids : ∀ o ∈ r.outputs.rows, o.1 ≠ "" ∧ o.1.toList.all labelChar = true)
    (hsecret : SecretRefs r (r.lib.scan v.2)) (hplain : Plain (meaning (r.lib.scan v.2)))
    (hok : (envVar r container v.1 v.2).effects.errs = []) :
    fill marker (splitRefs (substituted r v.2)) = fill marker (meaning (r.lib.scan v.2)) ∧
      (∀ ref ∈ atoms (splitRefs (substituted r v.2)), Clean ref) ∧
      Plain (splitRefs (substituted r v.2)) ∧
      (splitRefs (substituted r v.2) = meaning (r.lib.scan v.2) ↔ Unmarked (meaning (r.lib.scan v.2))) := by
  obtain ⟨hfill, hrefs⟩ := substPieces_secret hids hsecret (envVar_accepted hok).1
  have hsame := (fill_splitRefs (substituted r v.2)).trans hfill
  refine ⟨hsame, fun ref hr => clean_of_mem_splitRefs hr, ?_, ?_⟩
  · apply plain_of_fill
    rw [hsame]
    exact isChain_fill hplain hrefs
  · rw [← scan_written_iff fun ref hr => (hrefs ref hr).clean, ← hfill]
    rfl

theorem hiddenName_winner {refs : List Ref} (h : ref ∈ refs) :
    (marker (winner refs ref)).length = (marker ref).length :=
  length_marker_of_hiddenName (winner_spec h).2.1

/-- Generated names that stand for one secret each stand for it. -/
theorem winner_eq {refs : List Ref} (h : ∀ ref ∈ refs, ∀ ref' ∈ refs, hiddenName ref = hiddenName ref' →
    ref = ref') (href : ref ∈ refs) : winner refs ref = ref := by
  obtain ⟨hmem, hname, -⟩ := winner_spec href
  exact h _ hmem _ href hname

theorem winner_congr {refs : List Ref} {ref' : Ref} (h : ref ∈ refs) (h' : ref' ∈ refs)
    (hname : hiddenName ref = hiddenName ref') : winner refs ref = winner refs ref' := by
  obtain ⟨-, -, hget⟩ := winner_spec h
  obtain ⟨-, -, hget'⟩ := winner_spec h'
  rw [hname, hget'] at hget
  exact (congrArg Prod.snd (Option.some.inj hget)).symm

/-- A text read as its meaning was split into it, has no doubled dollar, and its embedded secrets
are their own. -/
theorem of_reading_eq {f w : Word Char Ref} {refs : List Ref} (hsame : fill marker f = fill marker w)
    (hclean : ∀ ref ∈ atoms f, Clean ref) (hrefs : ∀ ref ∈ embedded f, ref ∈ refs)
    (hwinner : ∀ ref ∈ embedded f, Clean (winner refs ref)) (h : reading (winner refs) f = w) :
    f = w ∧ Undoubled w ∧ ∀ ref ∈ embedded w, winner refs ref = ref := by
  obtain ⟨ref, rfl⟩ | htext := single_or f
  · rw [← h]
    exact ⟨rfl, List.isChain_singleton _, fun ref hr => nomatch hr⟩
  · rw [embedded_eq htext] at hrefs hwinner
    rw [reading_eq htext] at h
    have hlength : ∀ ref ∈ atoms f, (marker (winner refs ref)).length = (marker ref).length :=
      fun ref hr => hiddenName_winner (hrefs ref hr)
    have hundoubled : Undoubled f := (length_shown hlength).2 (by rw [h, hsame])
    rw [shown_eq hundoubled] at h
    have hown : ∀ ref ∈ atoms f, winner refs ref = ref := by
      apply win_eq_of_fill hlength fun ref hr => ⟨hclean ref hr, hwinner ref hr⟩
      rw [h, hsame]
    have hmap : f.map (Sum.map id (winner refs)) = f := by
      conv_rhs => rw [← List.map_id f]
      apply List.map_congr_left
      intro x hx
      cases x with
      | inl c => rfl
      | inr ref => exact congrArg Sum.inr (hown ref (mem_atoms.mpr hx))
    rw [hmap] at h
    subst h
    exact ⟨rfl, hundoubled, fun ref hr => hown ref (embedded_subset hr)⟩

/-- A text split into its meaning reads as it. -/
theorem reading_of_own {w : Word Char Ref} {refs : List Ref} (h : Undoubled w)
    (hown : ∀ ref ∈ embedded w, winner refs ref = ref) : reading (winner refs) w = w := by
  obtain ⟨ref, rfl⟩ | htext := single_or w
  · rfl
  · rw [embedded_eq htext] at hown
    rw [reading_eq htext, shown_eq h]
    conv_rhs => rw [← List.map_id w]
    apply List.map_congr_left
    intro x hx
    cases x with
    | inl c => rfl
    | inr ref => exact congrArg Sum.inr (hown ref (mem_atoms.mpr hx))

/-- The variables of a container mean what the Score file says if and only if they are legible:
where the texts refer to secret outputs and hold no `$(`, and the renderer accepts them, Kubernetes
reads every variable as its text, whatever the secrets are. -/
theorem envVars_reads_iff
    (hids : ∀ o ∈ r.outputs.rows, o.1 ≠ "" ∧ o.1.toList.all labelChar = true)
    (hsecret : ∀ v ∈ vars.rows, SecretRefs r (r.lib.scan v.2))
    (hplain : ∀ v ∈ vars.rows, Plain (meaning (r.lib.scan v.2)))
    (hok : (envVars r container vars).effects.errs = []) :
    (∀ sec : Ref → List Char, ∀ v ∈ vars.rows,
      (valueOf (readEnv (envVars r container vars).value) v.1.toList).map (fill sec) =
        some (fill sec (meaning (r.lib.scan v.2)))) ↔ Legible r vars := by
  have hvar {v} (hv : v ∈ vars.rows) :=
    splitRefs_substituted hids (hsecret v hv) (hplain v hv) (accepted_of_envVars hok hv)
  have hread {v} (hv : v ∈ vars.rows) := valueOf_envVars hok hv (hvar hv).2.2.1
  have hmem {v} (hv : v ∈ vars.rows) : ∀ ref ∈ embedded (splitRefs (substituted r v.2)),
      ref ∈ embeddedRefs r vars :=
    fun ref hr => List.mem_flatMap.mpr ⟨v, mem_sortedRows.mpr hv, hr⟩
  constructor
  · intro h
    have hown {v} (hv : v ∈ vars.rows) : reading (winner (embeddedRefs r vars))
        (splitRefs (substituted r v.2)) = meaning (r.lib.scan v.2) := by
      have : Nontrivial Char := ⟨'a', 'b', by decide⟩
      apply eq_of_fill
      intro sec
      have hv' := h sec v hv
      rw [hread hv, Option.map_some] at hv'
      exact Option.some.inj hv'
    have hclean : ∀ ref ∈ embeddedRefs r vars, Clean ref := by
      intro ref hr
      obtain ⟨v, hv, hr⟩ := List.mem_flatMap.mp hr
      exact clean_of_mem_splitRefs (embedded_subset hr)
    have heach {v} (hv : v ∈ vars.rows) := of_reading_eq (hvar hv).1 (hvar hv).2.1 (hmem hv)
      (fun ref hr => hclean _ (winner_spec (hmem hv ref hr)).1) (hown hv)
    constructor
    · exact fun v hv => (hvar hv).2.2.2.mp (heach hv).1
    · exact fun v hv => (heach hv).2.1
    · intro v hv v' hv' ref hr ref' hr' hname
      have href : ref ∈ embeddedRefs r vars := hmem hv ref ((heach hv).1 ▸ hr)
      have href' : ref' ∈ embeddedRefs r vars := hmem hv' ref' ((heach hv').1 ▸ hr')
      rw [← (heach hv).2.2 ref hr, ← (heach hv').2.2 ref' hr']
      exact winner_congr href href' hname
  · intro h sec v hv
    have hsplit {v} (hv : v ∈ vars.rows) := (hvar hv).2.2.2.mpr (h.unmarked v hv)
    have hnames : ∀ ref ∈ embeddedRefs r vars, ∀ ref' ∈ embeddedRefs r vars,
        hiddenName ref = hiddenName ref' → ref = ref' := by
      intro ref hr ref' hr' hname
      obtain ⟨v, hv, hr⟩ := List.mem_flatMap.mp hr
      obtain ⟨v', hv', hr'⟩ := List.mem_flatMap.mp hr'
      have hv := mem_sortedRows.mp hv
      have hv' := mem_sortedRows.mp hv'
      rw [hsplit hv] at hr
      rw [hsplit hv'] at hr'
      exact h.named v hv v' hv' ref hr ref' hr' hname
    rw [hread hv, Option.map_some, hsplit hv]
    congr
    apply reading_of_own (h.undoubled v hv)
    intro ref hr
    exact winner_eq hnames (hmem hv ref ((hsplit hv).symm ▸ hr))

end Container

section Runs

/-- A text read as Score reads it: `$\x7bp.q\x7d` refers to `p.q`, `$$` is a dollar. -/
def scanText : ℕ → List Char → List Piece
  | _, [] => []
  | skip + 1, _ :: s => scanText skip s
  | 0, '$' :: '$' :: s => .text "$" :: scanText 1 ('$' :: s)
  | 0, '$' :: '{' :: s =>
    let path := s.takeWhile (· ≠ '}')
    if path.length < s.length then
      .ref ((path.splitOn '.').map String.ofList) :: scanText (path.length + 2) ('{' :: s)
    else .text "$" :: scanText 0 ('{' :: s)
  | 0, c :: s => .text (String.ofList [c]) :: scanText 0 s

/-- What a reference gives: a resource without a key is its own name. -/
def buildText (_ : Value) (outputs : String → Option (List String → Except Message Value))
    (path : List String) : Except Message String :=
  match path with
  | ["resources", id] => if (outputs id).isSome then .ok id else .error (.mk "no known resource %q" [.str id] [])
  | "resources" :: id :: keys =>
    match outputs id with
    | some get => (get keys).map (asText fun _ => "")
    | none => .error (.mk "no known resource %q" [.str id] [])
  | path => .error (.mk "invalid ref %q" [.list (path.map .str)] [])

theorem buildText_output (metadata : Value) (outputs : String → Option (List String → Except Message Value))
    (id : String) (get : List String → Except Message Value) (key : String) (keys : List String)
    (h : outputs id = some get) : buildText metadata outputs ("resources" :: id :: key :: keys) =
      (get (key :: keys)).map (asText fun _ => "") := by
  simp [buildText, h]

/-- A store `db` with secret outputs, and texts without other references. -/
def secretScope : Scope where
  lib := {
    scan := fun s => scanText 0 s.toList
    substitute := fun _ v => .ok v
    write := fun _ => ""
    build := buildText
    build_output := buildText_output
    memory := fun _ => .ok 0
    dotPath := fun s => [s]
    override := fun v _ _ _ => .ok v }
  name := "web"
  metadata := .map []
  outputs := ⟨[("db", .secret)], by decide⟩

def urlVars : Dict String String :=
  ⟨[("TOKEN", "$\x7bresources.db.token\x7d"), ("URL", "http://$\x7bresources.db.host\x7d/$x")], by decide⟩

theorem envVars_reads_iff_urlVars : (∀ sec : Ref → List Char, ∀ v ∈ urlVars.rows,
    (valueOf (readEnv (envVars secretScope "main" urlVars).value) v.1.toList).map (fill sec) =
      some (fill sec (meaning (secretScope.lib.scan v.2)))) ↔ Legible secretScope urlVars :=
  envVars_reads_iff (by decide) (by decide) (by decide) (by decide)

/-- Two outputs whose keys are cleaned to one name. -/
def clashVars : Dict String String :=
  ⟨[("A", "$\x7bresources.db.a-b\x7d!"), ("B", "$\x7bresources.db.a_b\x7d!")], by decide⟩

/-- Both variables read as the second output. -/
theorem clashVars_misread :
    (∀ o ∈ secretScope.outputs.rows, o.1 ≠ "" ∧ o.1.toList.all labelChar = true) ∧
    (∀ v ∈ clashVars.rows, SecretRefs secretScope (secretScope.lib.scan v.2)) ∧
    (∀ v ∈ clashVars.rows, Plain (meaning (secretScope.lib.scan v.2))) ∧
    (envVars secretScope "main" clashVars).effects.errs = [] ∧
    (valueOf (readEnv (envVars secretScope "main" clashVars).value) "A".toList).map
      (fill fun ref => ref.key.toList) = some "a_b!".toList ∧
    fill (fun ref => ref.key.toList) (meaning (secretScope.lib.scan "$\x7bresources.db.a-b\x7d!")) =
      "a-b!".toList := by
  decide

end Runs
end Kubeast.Render
