import Kubeast.StoreUrl.Check
import Mathlib.Tactic.NormNum

/-! Which addresses the rule refuses: all that an address carries, but for an ISATAP interface part
behind a Teredo or a 6to4 prefix. -/
namespace Kubeast.StoreUrl

section Bits
variable {a n : BitVec 128} {networks : List Prefix}

theorem contains_net6 {bits : ℕ} : (net6 n bits).contains (.v6 a "") = true ↔ upper a bits = upper n bits := by
  simp [Prefix.contains, net6]

theorem contains_teredo : teredo.contains (.v6 a "") = true ↔ Form.has a .teredo := contains_net6

theorem contains_sixToFour : sixToFour.contains (.v6 a "") = true ↔ Form.has a .sixToFour := contains_net6

theorem inAny_lowBits : inAny (.v6 a "") ipv4InLowBits = true ↔
    Form.has a .nat64 ∨ Form.has a .localNat64 ∨ Form.has a .translated ∨ Form.has a .compatible := by
  simp only [inAny, ipv4InLowBits, List.any_cons, List.any_nil, Bool.or_eq_true, contains_net6, Bool.or_false]
  rfl

theorem byteOf_toNat (a : BitVec 128) (i : ℕ) :
    (byteOf a i).toNat = a.toNat / 2 ^ (128 - 8 * (i + 1)) % 256 := by
  rw [byteOf, BitVec.extractLsb'_toNat, Nat.shiftRight_eq_div_pow]

/-- The byte whose two low bits are free. -/
theorem free_bits (b : BitVec 8) : (b &&& ~~~ 0x03 == 0) = true ↔ b.toNat < 4 := by
  revert b
  decide

theorem isatap_iff : isatap a = true ↔ Form.has a .isatap := by
  have hbyte (b c : BitVec 8) : (b == c) = true ↔ b.toNat = c.toNat := by
    rw [beq_iff_eq, BitVec.toNat_inj]
  -- the four bytes are those below the first 96 bits
  have hdiv (i : ℕ) (hi : i ≤ 11) : (byteOf a i).toNat = upper a 96 / 2 ^ (88 - 8 * i) % 256 := by
    rw [byteOf_toNat, upper, Nat.div_div_eq_div_mul, ← pow_add]
    congr 3
    omega
  simp only [isatap, Bool.and_eq_true, free_bits]
  simp only [hbyte, Form.has]
  rw [hdiv 8 (by omega), hdiv 9 (by omega), hdiv 10 (by omega), hdiv 11 (by omega)]
  simp only [BitVec.reduceToNat, Nat.reducePow, Nat.reduceMul, Nat.reduceSub]
  constructor
  · rintro ⟨⟨⟨h8, h9⟩, h10⟩, h11⟩
    exact ⟨_, h8, by omega⟩
  · rintro ⟨free, hfree, h⟩
    omega

theorem upper_upper {i j : ℕ} (hij : i ≤ j) (hj : j ≤ 128) : upper a i = upper a j / 2 ^ (j - i) := by
  rw [upper, upper, Nat.div_div_eq_div_mul, ← pow_add]
  congr 2
  omega

/-- A mapped address has no other form. -/
theorem eq_mapped {f : Form} (h : Form.has a .mapped) (hf : Form.has a f) : f = .mapped := by
  have h16 := upper_upper (a := a) (i := 16) (j := 96) (by decide) (by decide)
  have h32 := upper_upper (a := a) (i := 32) (j := 96) (by decide) (by decide)
  have h48 := upper_upper (a := a) (i := 48) (j := 96) (by decide) (by decide)
  cases f <;> simp only [Form.has] at h hf <;> simp <;> omega

/-- Behind a Teredo prefix stands no form but ISATAP's. -/
theorem eq_teredo {f : Form} (h : Form.has a .teredo) (hf : Form.has a f) : f = .teredo ∨ f = .isatap := by
  have h16 := upper_upper (a := a) (i := 16) (j := 32) (by decide) (by decide)
  have h48 := upper_upper (a := a) (i := 32) (j := 48) (by decide) (by decide)
  have h96 := upper_upper (a := a) (i := 32) (j := 96) (by decide) (by decide)
  cases f <;> simp only [Form.has] at h hf <;> simp <;> omega

theorem eq_sixToFour {f : Form} (h : Form.has a .sixToFour) (hf : Form.has a f) :
    f = .sixToFour ∨ f = .isatap := by
  have h32 := upper_upper (a := a) (i := 16) (j := 32) (by decide) (by decide)
  have h48 := upper_upper (a := a) (i := 16) (j := 48) (by decide) (by decide)
  have h96 := upper_upper (a := a) (i := 16) (j := 96) (by decide) (by decide)
  cases f <;> simp only [Form.has] at h hf <;> simp <;> omega

end Bits

section Seen
variable {a : BitVec 128} {x : BitVec 32} {zone : String} {networks : List Prefix}

theorem carried_low {f : Form} (ht : f ≠ .teredo) (hs : f ≠ .sixToFour) : f.carried a = [ipv4At a 12] := by
  cases f <;> first | rfl | contradiction

theorem shows_mapped (h : Form.has a .mapped) : Shows a x ↔ x = ipv4At a 12 := by
  constructor
  · rintro ⟨f, hf, -, hx⟩
    rw [eq_mapped h hf] at hx
    exact List.mem_singleton.mp hx
  · rintro rfl
    exact ⟨.mapped, h, nofun, List.mem_singleton_self _⟩

theorem shows_teredo (h : Form.has a .teredo) : Shows a x ↔ x = ipv4At a 4 ∨ x = ~~~ipv4At a 12 := by
  constructor
  · rintro ⟨f, hf, hopen, hx⟩
    obtain rfl | rfl := eq_teredo h hf
    · simpa [Form.carried] using hx
    · exact absurd ⟨rfl, hf, .inl h⟩ hopen
  · intro hx
    exact ⟨.teredo, h, nofun, by simpa [Form.carried] using hx⟩

theorem shows_sixToFour (h : Form.has a .sixToFour) : Shows a x ↔ x = ipv4At a 2 := by
  constructor
  · rintro ⟨f, hf, hopen, hx⟩
    obtain rfl | rfl := eq_sixToFour h hf
    · simpa [Form.carried] using hx
    · exact absurd ⟨rfl, hf, .inr h⟩ hopen
  · rintro rfl
    exact ⟨.sixToFour, h, nofun, List.mem_singleton_self _⟩

/-- The forms that are left carry their last 32 bits. -/
theorem shows_low (ht : ¬Form.has a .teredo) (hs : ¬Form.has a .sixToFour) :
    Shows a x ↔ (∃ f, Form.has a f) ∧ x = ipv4At a 12 := by
  constructor
  · rintro ⟨f, hf, -, hx⟩
    have hlow : f.carried a = [ipv4At a 12] := carried_low (fun h => ht (h ▸ hf)) fun h => hs (h ▸ hf)
    rw [hlow, List.mem_singleton] at hx
    exact ⟨⟨f, hf⟩, hx⟩
  · rintro ⟨⟨f, hf⟩, rfl⟩
    refine ⟨f, hf, fun h => h.2.2.elim ht hs, ?_⟩
    rw [carried_low (fun h => ht (h ▸ hf)) fun h => hs (h ▸ hf)]
    exact List.mem_singleton_self _

/-- The last case of the switch. -/
theorem exists_form (hm : ¬Form.has a .mapped) (ht : ¬Form.has a .teredo) (hs : ¬Form.has a .sixToFour) :
    (isatap a || inAny (.v6 a "") ipv4InLowBits) = true ↔ ∃ f, Form.has a f := by
  rw [Bool.or_eq_true, isatap_iff, inAny_lowBits]
  constructor
  · rintro (h | h | h | h | h) <;> exact ⟨_, h⟩
  · rintro ⟨f, hf⟩
    cases f with
    | mapped => exact absurd hf hm
    | teredo => exact absurd hf ht
    | sixToFour => exact absurd hf hs
    | _ => simp [hf]

/-- The switch reads the forms of an address, an ISATAP part behind a prefix left out. -/
theorem mem_reached (hm : ¬Form.has a .mapped) (r : Addr) :
    r ∈ reached (.v6 a zone) ↔ r = .v6 a "" ∨ ∃ x, Shows a x ∧ r = .v4 x := by
  have hun : unmap (.v6 a zone) = .v6 a zone := if_neg hm
  simp only [reached, hun]
  by_cases ht : Form.has a .teredo
  · rw [if_pos (contains_teredo.mpr ht)]
    simp only [shows_teredo ht]
    aesop
  · rw [if_neg fun h => ht (contains_teredo.mp h)]
    by_cases hs : Form.has a .sixToFour
    · rw [if_pos (contains_sixToFour.mpr hs)]
      simp [shows_sixToFour hs]
    · rw [if_neg fun h => hs (contains_sixToFour.mp h)]
      simp only [shows_low ht hs, ← exists_form hm ht hs]
      split_ifs with hlow <;> simp [hlow]

/-- No IPv6 prefix of the networks holds a mapped address. -/
def Apart (networks : List Prefix) : Prop :=
  ∀ a : BitVec 128, Form.has a .mapped → inAny (.v6 a "") networks = false

theorem isIn_iff (hapart : Apart networks) (addr : Addr) :
    isIn addr networks = true ↔ Within Shows networks addr := by
  rw [isIn, List.any_eq_true]
  cases addr with
  | v4 x => simp [reached, unmap, Within]
  | v6 a zone =>
    rw [Within]
    by_cases hm : Form.has a .mapped
    · have hun : unmap (.v6 a zone) = .v4 (ipv4At a 12) := if_pos hm
      simp [reached, hun, hapart a hm, shows_mapped hm]
    · simp only [mem_reached hm]
      constructor
      · rintro ⟨_, rfl | ⟨x, hx, rfl⟩, h⟩
        · exact .inl h
        · exact .inr ⟨x, hx, h⟩
      · rintro (h | ⟨x, hx, h⟩)
        · exact ⟨_, .inl rfl, h⟩
        · exact ⟨_, .inr ⟨x, hx, rfl⟩, h⟩

/-- What is carried shows, or is hidden. -/
theorem carries_iff : Carries a x ↔ Shows a x ∨ Behind a ∧ x = ipv4At a 12 := by
  constructor
  · rintro ⟨f, hf, hx⟩
    by_cases h : f = .isatap ∧ Behind a
    · obtain ⟨rfl, hb⟩ := h
      exact .inr ⟨hb, List.mem_singleton.mp hx⟩
    · exact .inl ⟨f, hf, h, hx⟩
  · rintro (⟨f, hf, -, hx⟩ | ⟨hb, rfl⟩)
    · exact ⟨f, hf, hx⟩
    · exact ⟨.isatap, hb.1, List.mem_singleton_self _⟩

theorem within_carries (addr : Addr) :
    Within Carries networks addr ↔ Within Shows networks addr ∨ Hidden networks addr := by
  cases addr with
  | v4 x => simp [Within, Hidden]
  | v6 a zone =>
    simp only [Within, Hidden, carries_iff, or_and_right, exists_or, or_assoc, and_assoc]
    simp

theorem upper_ofNat (n bits : ℕ) : upper (BitVec.ofNat 128 n) bits = n % 2 ^ 128 / 2 ^ (128 - bits) := by
  rw [upper, BitVec.toNat_ofNat]

theorem apart_metadata : Apart metadataNetworks := by
  intro a h
  have h10 := upper_upper (a := a) (i := 10) (j := 96) (by decide) (by decide)
  have h128 := upper_upper (a := a) (i := 96) (j := 128) (by decide) (by decide)
  simp only [Form.has] at h
  simp [metadataNetworks, inAny, Prefix.contains, net4, net6, upper_ofNat]
  omega

theorem apart_ownHost : Apart ownHostNetworks := by
  intro a h
  have h128 := upper_upper (a := a) (i := 96) (j := 128) (by decide) (by decide)
  simp only [Form.has] at h
  simp [ownHostNetworks, inAny, Prefix.contains, net4, net6, upper_ofNat]
  omega

theorem apart_noAnswer : Apart noAnswerNetworks := by
  intro a h
  have h8 := upper_upper (a := a) (i := 8) (j := 96) (by decide) (by decide)
  have h64 := upper_upper (a := a) (i := 64) (j := 96) (by decide) (by decide)
  simp only [Form.has] at h
  simp [noAnswerNetworks, inAny, Prefix.contains, net4, net6, upper_ofNat]
  omega

end Seen
end Kubeast.StoreUrl
