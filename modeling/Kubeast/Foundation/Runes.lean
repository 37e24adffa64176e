import Kubeast.Foundation.Utf8

/-! Where a UTF-8 sequence stands in bytes that may end within one (`unicode/utf8`). -/
namespace Utf8

/-- The length a leading byte asks for; an invalid one stands alone. -/
def runeSize (c : UInt8) : ℕ :=
  if c < 0xC2 then 1 else if c ≤ 0xDF then 2 else if c ≤ 0xEF then 3 else if c ≤ 0xF4 then 4 else 1

/-- The second bytes a leading byte accepts. -/
def acceptRange (c : UInt8) : UInt8 × UInt8 :=
  if c = 0xE0 then (0xA0, 0xBF) else if c = 0xED then (0x80, 0x9F) else if c = 0xF0 then (0x90, 0xBF)
  else if c = 0xF4 then (0x80, 0x8F) else (0x80, 0xBF)

/-- `utf8.FullRune`: an encoding that is not valid is a full rune of one byte. -/
def fullRune : Bytes → Bool
  | [] => false
  | c :: rest =>
    if runeSize c ≤ rest.length + 1 then true
    else match rest with
      | [] => false
      | b :: rest =>
        if b < (acceptRange c).1 || (acceptRange c).2 < b then true
        else match rest with
          | [] => false
          | b :: _ => b < 0x80 || 0xBF < b

/-- A byte within a sequence. -/
def Continues (b : UInt8) : Prop := 0x80 ≤ b ∧ b ≤ 0xBF

/-- What stands in the encoding of a character: a byte alone, or a leading byte and those it asks for. -/
inductive Encoded : Bytes → Prop
  | ascii {c : UInt8} (h : c < 0x80) : Encoded [c]
  | multi {c b : UInt8} {rest : Bytes} (hc : 0xC0 ≤ c) (hsize : runeSize c = rest.length + 2)
      (hlow : (acceptRange c).1 ≤ b) (hhigh : b ≤ (acceptRange c).2) (hb : Continues b)
      (hrest : ∀ x ∈ rest, Continues x) : Encoded (c :: b :: rest)

section Numbers
variable {n : ℕ}

theorem toNat_ofNat (h : n < 256) : (UInt8.ofNat n).toNat = n := by
  rw [UInt8.toNat_ofNat']
  exact Nat.mod_eq_of_lt h

theorem runeSize_ofNat (h : n < 256) : runeSize (UInt8.ofNat n) =
    if n < 0xC2 then 1 else if n ≤ 0xDF then 2 else if n ≤ 0xEF then 3 else if n ≤ 0xF4 then 4 else 1 := by
  simp only [runeSize, UInt8.lt_iff_toNat_lt, UInt8.le_iff_toNat_le, toNat_ofNat h, UInt8.reduceToNat]

theorem acceptRange_fst_ofNat (h : n < 256) : (acceptRange (UInt8.ofNat n)).1.toNat =
    if n = 0xE0 then 0xA0 else if n = 0xF0 then 0x90 else 0x80 := by
  simp only [acceptRange, ← UInt8.toNat_inj, UInt8.reduceToNat, toNat_ofNat h]
  split_ifs <;> first | rfl | omega

theorem acceptRange_snd_ofNat (h : n < 256) : (acceptRange (UInt8.ofNat n)).2.toNat =
    if n = 0xED then 0x9F else if n = 0xF4 then 0x8F else 0xBF := by
  simp only [acceptRange, ← UInt8.toNat_inj, UInt8.reduceToNat, toNat_ofNat h]
  split_ifs <;> first | rfl | omega

end Numbers

/-- The same for bytes as numbers. -/
theorem encoded_multi {c b : ℕ} (rest : List ℕ) (hbytes : ∀ x ∈ c :: b :: rest, x < 256) (hc : 0xC0 ≤ c)
    (hsize : (if c < 0xC2 then 1 else if c ≤ 0xDF then 2 else if c ≤ 0xEF then 3 else if c ≤ 0xF4 then 4 else 1) =
      rest.length + 2)
    (hlow : (if c = 0xE0 then 0xA0 else if c = 0xF0 then 0x90 else 0x80) ≤ b)
    (hhigh : b ≤ if c = 0xED then 0x9F else if c = 0xF4 then 0x8F else 0xBF)
    (hrest : ∀ x ∈ b :: rest, 0x80 ≤ x ∧ x ≤ 0xBF) : Encoded ((c :: b :: rest).map UInt8.ofNat) := by
  have hlead : c < 256 := hbytes c (by simp)
  have hval : ∀ x ∈ c :: b :: rest, (UInt8.ofNat x).toNat = x := fun x hx => toNat_ofNat (hbytes x hx)
  have hcont : ∀ x ∈ b :: rest, Continues (UInt8.ofNat x) := fun x hx => by
    rw [Continues, UInt8.le_iff_toNat_le, UInt8.le_iff_toNat_le, hval x (List.mem_cons_of_mem c hx)]
    exact hrest x hx
  refine .multi ?_ ?_ ?_ ?_ (hcont b (by simp)) fun x hx => ?_
  · rw [UInt8.le_iff_toNat_le, hval c (by simp)]
    exact hc
  · rw [runeSize_ofNat hlead, hsize, List.length_map]
  · rw [UInt8.le_iff_toNat_le, acceptRange_fst_ofNat hlead, hval b (by simp)]
    exact hlow
  · rw [UInt8.le_iff_toNat_le, acceptRange_snd_ofNat hlead, hval b (by simp)]
    exact hhigh
  · obtain ⟨y, hy, rfl⟩ := List.mem_map.mp hx
    exact hcont y (by simp [hy])

theorem encoded_char (c : Char) : Encoded (String.utf8EncodeChar c) := by
  have hval : c.val.toNat = c.toNat := rfl
  have hvalid : c.toNat < 0xd800 ∨ 0xdfff < c.toNat ∧ c.toNat < 0x110000 := c.valid
  unfold String.utf8EncodeChar
  dsimp only
  rw [hval]
  split_ifs with h₁ h₂ h₃
  · exact .ascii (UInt8.lt_iff_toNat_lt.mpr (by simp; omega))
  · refine encoded_multi [] (by simp; omega) (by omega) ?_ ?_ ?_ (by simp; omega) <;> split_ifs <;>
      simp <;> omega
  · refine encoded_multi [_] (by simp; omega) (by omega) ?_ ?_ ?_ (by simp; omega) <;> split_ifs <;>
      simp <;> omega
  · refine encoded_multi [_, _] (by simp; omega) (by omega) ?_ ?_ ?_ (by simp; omega) <;> split_ifs <;>
      simp <;> omega

section Cut
variable {r part : Bytes}

theorem fullRune_of_encoded (h : Encoded r) : fullRune r = true := by
  cases h with
  | @ascii c h =>
    have hsize : runeSize c = 1 := if_pos (UInt8.lt_trans h (by decide))
    unfold fullRune
    exact if_pos (by simp [hsize])
  | multi hc hsize =>
    unfold fullRune
    exact if_pos (by simp [hsize])

/-- A part of an encoding is no full rune yet. -/
theorem not_fullRune (h : Encoded r) (hpart : part <+: r) (hlt : part.length < r.length) : fullRune part = false := by
  obtain ⟨t, rfl⟩ := hpart
  rcases part with _ | ⟨c, _ | ⟨b, _ | ⟨x, rest⟩⟩⟩
  · rfl
  all_goals simp only [List.cons_append, List.nil_append, List.length_cons, List.length_nil] at h hlt
  · cases h with
    | ascii => simp at hlt
    | multi hc hsize => simp [fullRune, hsize]
  · cases h with
    | multi hc hsize hlow hhigh =>
      have hsize' : ¬runeSize c ≤ 2 := by omega
      simp [fullRune, hsize', UInt8.not_lt.mpr hlow, UInt8.not_lt.mpr hhigh]
  · cases h with
    | multi hc hsize hlow hhigh hb hrest =>
      have hsize' : ¬runeSize c ≤ rest.length + 1 + 1 + 1 := by
        rw [hsize, List.length_cons]
        omega
      obtain ⟨hx, hx'⟩ := hrest x (by simp)
      simp [fullRune, hsize', UInt8.not_lt.mpr hlow, UInt8.not_lt.mpr hhigh, UInt8.not_lt.mpr hx,
        UInt8.not_lt.mpr hx']

theorem length_le_four (h : Encoded r) : r.length ≤ 4 := by
  cases h with
  | ascii => simp
  | @multi c b rest hc hsize =>
    have hle : runeSize c ≤ 4 := by
      unfold runeSize
      split_ifs <;> omega
    rw [List.length_cons, List.length_cons]
    omega

/-- The bytes of characters. -/
def encode (cs : List Char) : Bytes := cs.flatMap String.utf8EncodeChar

theorem encode_cons (c : Char) (cs : List Char) : encode (c :: cs) = String.utf8EncodeChar c ++ encode cs := rfl

theorem encode_append (cs ds : List Char) : encode (cs ++ ds) = encode cs ++ encode ds := List.flatMap_append

theorem encode_flatten (pieces : List (List Char)) : encode pieces.flatten = (pieces.map encode).flatten := by
  induction pieces with
  | nil => rfl
  | cons piece pieces ih => rw [List.flatten_cons, encode_append, ih, List.map_cons, List.flatten_cons]

@[simp] theorem encode_eq_nil {cs : List Char} : encode cs = [] ↔ cs = [] := by
  cases cs with
  | nil => simp [encode]
  | cons c cs => simp [encode_cons, String.utf8EncodeChar_ne_nil]

/-- A strict part of the character that is next, if anything. -/
def Begins (part : Bytes) (rest : List Char) : Prop :=
  part = [] ∨ ∃ c rest', rest = c :: rest' ∧ part <+: String.utf8EncodeChar c ∧
    part.length < (String.utf8EncodeChar c).length

/-- Whatever bytes of a text stand at its start, they are whole characters and a part of the next. -/
theorem exists_splits {rs : List Char} {data : Bytes} (h : data <+: encode rs) :
    ∃ done rest part, rs = done ++ rest ∧ data = encode done ++ part ∧ Begins part rest := by
  induction rs generalizing data with
  | nil =>
    obtain rfl := List.prefix_nil.mp h
    exact ⟨[], [], [], rfl, rfl, .inl rfl⟩
  | cons c rs ih =>
    rw [encode_cons] at h
    rcases Nat.lt_or_ge data.length (String.utf8EncodeChar c).length with hlt | hge
    · have hpart := List.prefix_of_prefix_length_le h (List.prefix_append _ _) (Nat.le_of_lt hlt)
      exact ⟨[], c :: rs, data, rfl, rfl, .inr ⟨c, rs, rfl, hpart, hlt⟩⟩
    · obtain ⟨data', rfl⟩ := List.prefix_of_prefix_length_le (List.prefix_append _ _) h hge
      obtain ⟨done, rest, part, rfl, rfl, hpart⟩ := ih ((List.prefix_append_right_inj _).mp h)
      exact ⟨c :: done, rest, part, rfl, by rw [encode_cons, List.append_assoc], hpart⟩

end Cut
end Utf8
