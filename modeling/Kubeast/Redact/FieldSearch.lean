import Kubeast.Redact.QuotedScan

/-! The search of the scan by strings: where a field begins, that the scan ends on every text, and
what it leaves of a part in which no field begins. -/
namespace Kubeast.Redact
open Symbols Json

section Starts
variable {name f s gap : List Char}

theorem IsField.spaces (hf : IsField name f) (hgap : ∀ c ∈ gap, isSpaceClass c = true) :
    IsField name (f ++ gap) := by
  obtain ⟨before, after, rfl, hbefore, hafter⟩ := hf
  exact ⟨before, after ++ gap, by simp, hbefore, List.forall_mem_append.mpr ⟨hafter, hgap⟩⟩

theorem notFirst_dropWhile {p : Char → Bool} (s : List Char) : NotFirst p (s.dropWhile p) := by
  intro c hc
  have hne : s.dropWhile p ≠ [] := by
    intro hnil
    rw [hnil] at hc
    cases hc
  have hhead := List.head_dropWhile_not p hne
  rwa [(List.head_eq_iff_head?_eq_some hne).mpr hc] at hhead

/-- The text begins with a field. -/
def Starts (s : List Char) : Prop := ∃ name ∈ jsonFieldNames, ∃ f, IsField name f ∧ f <+: s

theorem Starts.append (h : Starts s) (r : List Char) : Starts (s ++ r) := by
  obtain ⟨name, hname, f, hf, hprefix⟩ := h
  exact ⟨name, hname, f, hf, hprefix.trans (List.prefix_append _ _)⟩

theorem matchField_eq_none : matchField s = none ↔ ¬ Starts s := by
  constructor
  · rintro hnone ⟨name, hname, f, hf, rest, rfl⟩
    -- the field goes on over the spaces behind it
    have hspaces : ∀ c ∈ rest.takeWhile isSpaceClass, isSpaceClass c = true := fun c hc =>
      List.mem_takeWhile_imp hc
    have hrest := notFirst_dropWhile (p := isSpaceClass) rest
    have hmatch := matchField_field hname (hf.spaces hspaces) hrest
    rw [List.append_assoc, List.takeWhile_append_dropWhile, hnone] at hmatch
    cases hmatch
  · intro h
    cases hmatch : matchField s with
    | none => rfl
    | some p =>
      obtain ⟨hname, f, rest, rfl, hf, -⟩ := matchField_eq_some hmatch
      exact absurd ⟨p.1, hname, f, hf, rest, rfl⟩ h

theorem Starts.quote (h : Starts s) : ∃ s', s = '"' :: s' := by
  obtain ⟨name, -, f, ⟨before, after, rfl, -⟩, rest, rfl⟩ := h
  exact ⟨_, rfl⟩

/-- No field begins in the first text with the second behind it. -/
def Passed (t u : List Marked) : Prop := ∀ v, v <:+ t → v ≠ [] → ¬ Starts ((v ++ u).map char)

theorem Passed.before {t u p : List Marked} (h : Passed t u) (hp : p <+: t) : Passed p [] := by
  obtain ⟨q, rfl⟩ := hp
  intro v hv hne hstarts
  obtain ⟨w, rfl⟩ := hv
  refine h (v ++ q) ⟨w, by rw [List.append_assoc]⟩ (by simp [hne]) ?_
  rw [List.append_nil] at hstarts
  have hlonger := hstarts.append ((q ++ u).map char)
  rwa [← List.map_append, ← List.append_assoc] at hlonger

theorem findField_passed {t u : List Marked} (h : Passed t u) :
    findField (t ++ u) = (findField u).map fun p => (t ++ p.1, p.2) := by
  induction t with
  | nil => simp
  | cons a t ih =>
    have hnone := matchField_eq_none.mpr (h (a :: t) (List.suffix_refl _) (by simp))
    have hrest : Passed t u := fun v hv => h v (hv.trans (List.suffix_cons a t))
    rw [List.cons_append] at hnone ⊢
    rw [findField, hnone, ih hrest, Option.map_map]
    rfl

/-- The field that ends a text in which no other begins. -/
theorem findField_at {t f rest : List Marked} {name : List Char} (ht : Passed t (f ++ rest))
    (hname : name ∈ jsonFieldNames) (hf : IsField name (f.map char))
    (hrest : NotFirst isSpaceClass (rest.map char)) :
    findField (t ++ (f ++ rest)) = some (t ++ f, name, rest) := by
  have hmatch := matchField_field hname hf hrest
  rw [← List.map_append, List.length_map] at hmatch
  rw [findField_passed ht]
  cases f with
  | nil =>
    obtain ⟨before, after, hnil, -⟩ := hf
    cases hnil
  | cons a f =>
    rw [List.cons_append] at hmatch ⊢
    rw [findField, hmatch]
    simp

end Starts

section Ends
variable {α : Type*} [Symbol α] {s t : List α} {n fuel : ℕ}

theorem valueLen_quote_pos {a : α} (ha : char a = '"') (h : valueLen (a :: s) = some n) : 0 < n := by
  rw [valueLen, if_pos ha] at h
  obtain ⟨m, -, rfl⟩ := Option.map_eq_some_iff.mp h
  exact Nat.succ_pos _

theorem maskJSONValue_drop (h : (maskJSONValue s).2 = some t) :
    ∃ n, valueLen s = some n ∧ t = s.drop n := by
  unfold maskJSONValue at h
  cases hlen : valueLen s with
  | none =>
    rw [hlen] at h
    cases h
  | some n =>
    rw [hlen] at h
    dsimp only at h
    refine ⟨n, rfl, ?_⟩
    split_ifs at h <;> exact (Option.some.inj h).symm

theorem maskJSONValue_length (h : (maskJSONValue s).2 = some t) : t.length ≤ s.length := by
  obtain ⟨n, -, rfl⟩ := maskJSONValue_drop h
  exact (List.drop_sublist _ _).length_le

theorem maskJSONMember_length (hs : s ≠ []) (hlen : valueLen s = some n) (hn : 0 < n)
    (h : (maskJSONMember s n).2 = some t) : t.length < s.length := by
  have hpos := List.length_pos_iff.mpr hs
  have hself (hu : (maskJSONValue s).2 = some t) : t.length < s.length := by
    obtain ⟨m, hm, rfl⟩ := maskJSONValue_drop hu
    rw [hlen] at hm
    cases hm
    rw [List.length_drop]
    omega
  unfold maskJSONMember at h
  cases hrest : (s.drop n).dropWhile fun a => isSpaceChar (char a) with
  | nil =>
    rw [hrest] at h
    exact hself h
  | cons colon u =>
    rw [hrest] at h
    dsimp only at h
    split_ifs at h with hcolon
    · have hu := maskJSONValue_length h
      have hdrop : (colon :: u).length ≤ (s.drop n).length := hrest ▸ (List.dropWhile_sublist _).length_le
      have hdropped : (u.dropWhile fun a => isSpaceChar (char a)).length ≤ u.length :=
        (List.dropWhile_sublist _).length_le
      rw [List.length_drop, List.length_cons] at hdrop
      omega
    · exact hself h

/-- With more than as many rounds as symbols an object is scanned to its end. -/
theorem maskJSONMembers_fuel {fuel' : ℕ} (h : s.length < fuel) (h' : s.length < fuel') :
    maskJSONMembers fuel s = maskJSONMembers fuel' s := by
  induction fuel generalizing s fuel' with
  | zero => exact absurd h (Nat.not_lt_zero _)
  | succ fuel ih =>
    obtain ⟨fuel', rfl⟩ : ∃ k, fuel' = k + 1 := ⟨fuel' - 1, by omega⟩
    cases s with
    | nil => rfl
    | cons a s =>
      rw [List.length_cons] at h h'
      rw [maskJSONMembers, maskJSONMembers]
      split_ifs with hclose hquote
      · rfl
      · cases hlen : valueLen (a :: s) with
        | none => rfl
        | some n =>
          have hn := valueLen_quote_pos hquote hlen
          cases hmember : maskJSONMember (a :: s) n with
          | mk written next =>
            dsimp only
            rw [hmember]
            cases next with
            | none => rfl
            | some t =>
              have ht : t.length < (a :: s).length :=
                maskJSONMember_length (by simp) hlen hn (by rw [hmember])
              rw [List.length_cons] at ht
              dsimp only
              rw [ih (by omega) (by omega : t.length < fuel')]
      · rw [ih (by omega) (by omega : s.length < fuel')]

theorem maskJSONMembers_length (h : (maskJSONMembers fuel s).2 = some t) : t.length ≤ s.length := by
  induction fuel generalizing s with
  | zero => cases h
  | succ fuel ih =>
    cases s with
    | nil => cases h
    | cons a s =>
      rw [maskJSONMembers] at h
      split_ifs at h with hclose hquote
      · cases h
        exact Nat.le_succ _
      · cases hlen : valueLen (a :: s) with
        | none =>
          rw [hlen] at h
          cases h
        | some n =>
          have hn := valueLen_quote_pos hquote hlen
          rw [hlen] at h
          dsimp only at h
          cases hmember : maskJSONMember (a :: s) n with
          | mk written next =>
            rw [hmember] at h
            cases next with
            | none => cases h
            | some u =>
              have hu : u.length < (a :: s).length :=
                maskJSONMember_length (by simp) hlen hn (by rw [hmember])
              have hle := ih h
              omega
      · have hle := ih h
        exact hle.trans (Nat.le_succ _)

theorem maskField_length {name : List Char} (h : (maskField name s).2 = some t) :
    t.length ≤ s.length := by
  unfold maskField at h
  split_ifs at h with hobject
  · cases s with
    | nil => cases h
    | cons a s => exact (maskJSONMembers_length h).trans (Nat.le_succ _)
  · exact maskJSONValue_length h

theorem findField_length {copied rest : List α} {name : List Char}
    (h : findField s = some (copied, name, rest)) : rest.length < s.length := by
  induction s generalizing copied with
  | nil => cases h
  | cons a s ih =>
    rw [findField] at h
    cases hmatch : matchField ((a :: s).map char) with
    | some p =>
      obtain ⟨-, f, u, -, ⟨before, after, hf, -⟩, hlen⟩ := matchField_eq_some hmatch
      rw [hmatch] at h
      cases h
      have hpos : 0 < p.2 := by
        rw [hlen, hf]
        exact Nat.succ_pos _
      rw [List.length_drop, List.length_cons]
      omega
    | none =>
      rw [hmatch] at h
      obtain ⟨⟨copied', p⟩, hfind, h⟩ := Option.map_eq_some_iff.mp h
      cases h
      exact (ih hfind).trans (Nat.lt_succ_self _)

/-- With as many rounds as symbols the scan ends. -/
theorem stripSecretJSONFrom_fuel {fuel' : ℕ} (h : s.length ≤ fuel) (h' : s.length ≤ fuel') :
    stripSecretJSONFrom fuel s = stripSecretJSONFrom fuel' s := by
  have hnil (k : ℕ) : stripSecretJSONFrom k ([] : List α) = [] := by cases k <;> rfl
  induction fuel generalizing s fuel' with
  | zero =>
    rw [List.length_eq_zero_iff.mp (Nat.le_zero.mp h), hnil, hnil]
  | succ fuel ih =>
    cases fuel' with
    | zero => rw [List.length_eq_zero_iff.mp (Nat.le_zero.mp h'), hnil, hnil]
    | succ fuel' =>
      rw [stripSecretJSONFrom, stripSecretJSONFrom]
      cases hfind : findField s with
      | none => rfl
      | some p =>
        obtain ⟨copied, name, rest⟩ := p
        have hrest := findField_length hfind
        dsimp only
        cases hnext : (maskField name rest).2 with
        | none => rfl
        | some t =>
          have ht := maskField_length hnext
          dsimp only
          rw [ih (by omega) (by omega : t.length ≤ fuel')]

theorem stripSecretJSON_none (h : findField s = none) : stripSecretJSON s = s := by
  unfold stripSecretJSON
  cases s with
  | nil => rfl
  | cons a s => rw [List.length_cons, stripSecretJSONFrom, h]

/-- One round of the scan. -/
theorem stripSecretJSON_some {copied rest : List α} {name : List Char}
    (h : findField s = some (copied, name, rest)) : stripSecretJSON s =
      copied ++ ((maskField name rest).1 ++ (maskField name rest).2.elim [] stripSecretJSON) := by
  have hrest := findField_length h
  unfold stripSecretJSON
  cases s with
  | nil => cases h
  | cons a s =>
    rw [List.length_cons] at hrest ⊢
    rw [stripSecretJSONFrom, h]
    dsimp only
    cases hnext : (maskField name rest).2 with
    | none => rfl
    | some t =>
      have ht := maskField_length hnext
      dsimp only [Option.elim]
      rw [stripSecretJSONFrom_fuel (by omega) le_rfl]

/-- What no field begins in stays. -/
theorem stripSecretJSON_passed {t u : List Marked} (h : Passed t u) :
    stripSecretJSON (t ++ u) = t ++ stripSecretJSON u := by
  have hfind := findField_passed h
  cases hu : findField u with
  | none =>
    rw [hu, Option.map_none] at hfind
    rw [stripSecretJSON_none hfind, stripSecretJSON_none hu]
  | some p =>
    obtain ⟨copied, name, rest⟩ := p
    rw [hu, Option.map_some] at hfind
    rw [stripSecretJSON_some hfind, stripSecretJSON_some hu, List.append_assoc]

end Ends
end Kubeast.Redact
