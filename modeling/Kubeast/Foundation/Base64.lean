import Kubeast.Foundation.Utf8
import Mathlib.Data.List.DropRight

/-! Base64 with the alphabet for URLs. -/
namespace Base64

def alphabet : Bytes :=
  Utf8.bytes "ABCDEFGHIJKLMNOPQRSTUVWXYZabcdefghijklmnopqrstuvwxyz0123456789-_"

def digit (n : ℕ) : UInt8 := alphabet.getD n 0

def value (c : UInt8) : Option ℕ := if alphabet.idxOf c < 64 then some (alphabet.idxOf c) else none

def pad : UInt8 := 0x3d

def encodeRaw : Bytes → Bytes
  | a :: b :: c :: rest =>
      digit (a.toNat / 4) :: digit (a.toNat % 4 * 16 + b.toNat / 16) ::
        digit (b.toNat % 16 * 4 + c.toNat / 64) :: digit (c.toNat % 64) :: encodeRaw rest
  | [a, b] =>
      [digit (a.toNat / 4), digit (a.toNat % 4 * 16 + b.toNat / 16), digit (b.toNat % 16 * 4)]
  | [a] => [digit (a.toNat / 4), digit (a.toNat % 4 * 16)]
  | [] => []

/-- `base64.urlsafe_b64encode`, which fills the last group up. -/
def urlsafeB64encode (m : Bytes) : Bytes :=
  encodeRaw m ++ List.replicate ((3 - m.length % 3) % 3) pad

/-- `rstrip(b"=")`. -/
def rstrip (m : Bytes) : Bytes := m.rdropWhile (· == pad)

/-- Groups of four digits give three bytes; bits left over in the last group are not looked at. -/
def decodeDigits : List ℕ → Option Bytes
  | a :: b :: c :: d :: rest => (decodeDigits rest).map fun m =>
      UInt8.ofNat (a * 4 + b / 16) :: UInt8.ofNat (b % 16 * 16 + c / 4) ::
        UInt8.ofNat (c % 4 * 64 + d) :: m
  | [a, b, c] => some [UInt8.ofNat (a * 4 + b / 16), UInt8.ofNat (b % 16 * 16 + c / 4)]
  | [a, b] => some [UInt8.ofNat (a * 4 + b / 16)]
  | [_] => none
  | [] => some []

/-- `base64.RawURLEncoding.DecodeString`: line ends are skipped. -/
def decodeRaw (s : Bytes) : Option Bytes :=
  ((s.filter fun c => c != 0x0a && c != 0x0d).mapM value).bind decodeDigits

theorem digit_spec : ∀ n < 64, value (digit n) = some n ∧ digit n ≠ pad ∧ digit n ≠ 0x0a ∧
    digit n ≠ 0x0d ∧ digit n ≠ 0x2e := by
  decide

/-- The digits of a text. -/
def digits : Bytes → List ℕ
  | a :: b :: c :: rest =>
      a.toNat / 4 :: (a.toNat % 4 * 16 + b.toNat / 16) :: (b.toNat % 16 * 4 + c.toNat / 64) ::
        c.toNat % 64 :: digits rest
  | [a, b] => [a.toNat / 4, a.toNat % 4 * 16 + b.toNat / 16, b.toNat % 16 * 4]
  | [a] => [a.toNat / 4, a.toNat % 4 * 16]
  | [] => []

theorem encodeRaw_eq (m : Bytes) : encodeRaw m = (digits m).map digit := by
  induction m using digits.induct with
  | case1 a b c rest ih => simp [encodeRaw, digits, ih]
  | case2 | case3 | case4 => rfl

theorem digits_lt (m : Bytes) : ∀ n ∈ digits m, n < 64 := by
  induction m using digits.induct with
  | case1 a b c rest ih =>
    have ha := a.toNat_lt
    have hb := b.toNat_lt
    have hc := c.toNat_lt
    simp only [digits, List.forall_mem_cons]
    exact ⟨by omega, by omega, by omega, by omega, ih⟩
  | case2 a b =>
    have ha := a.toNat_lt
    have hb := b.toNat_lt
    simp only [digits, List.forall_mem_cons, List.not_mem_nil, false_implies, implies_true, and_true]
    omega
  | case3 a =>
    have ha := a.toNat_lt
    simp only [digits, List.forall_mem_cons, List.not_mem_nil, false_implies, implies_true, and_true]
    omega
  | case4 => simp [digits]

theorem decodeDigits_digits (m : Bytes) : decodeDigits (digits m) = some m := by
  have hbyte (x : UInt8) (n : ℕ) (h : n = x.toNat) : UInt8.ofNat n = x := by
    rw [h, UInt8.ofNat_toNat]
  induction m using digits.induct with
  | case1 a b c rest ih =>
    have ha := a.toNat_lt
    have hb := b.toNat_lt
    have hc := c.toNat_lt
    simp only [digits, decodeDigits, ih, Option.map_some]
    rw [hbyte a _ (by omega), hbyte b _ (by omega), hbyte c _ (by omega)]
  | case2 a b =>
    have ha := a.toNat_lt
    have hb := b.toNat_lt
    simp only [digits, decodeDigits]
    rw [hbyte a _ (by omega), hbyte b _ (by omega)]
  | case3 a =>
    have ha := a.toNat_lt
    simp only [digits, decodeDigits]
    rw [hbyte a _ (by omega)]
  | case4 => rfl

theorem mem_encodeRaw {m : Bytes} {c : UInt8} (h : c ∈ encodeRaw m) : ∃ n < 64, digit n = c := by
  rw [encodeRaw_eq] at h
  obtain ⟨n, hn, rfl⟩ := List.mem_map.mp h
  exact ⟨n, digits_lt m n hn, rfl⟩

theorem encodeRaw_ne_nil {m : Bytes} (h : m ≠ []) : encodeRaw m ≠ [] := by
  cases m using digits.fun_cases <;> simp_all [encodeRaw]

/-- Without its padding an encoding is what the raw form is. -/
theorem rstrip_urlsafeB64encode (m : Bytes) : rstrip (urlsafeB64encode m) = encodeRaw m := by
  rw [rstrip, urlsafeB64encode, List.rdropWhile, List.reverse_append, List.reverse_replicate,
    List.dropWhile_append_of_pos (by simp)]
  apply List.reverse_eq_iff.mpr
  rw [List.dropWhile_eq_self_iff]
  intro hlen hpad
  obtain ⟨n, hn, hdigit⟩ := mem_encodeRaw (List.mem_reverse.mp (List.getElem_mem hlen))
  exact (digit_spec n hn).2.1 (hdigit.trans (eq_of_beq hpad))

theorem mapM_value_digit {ns : List ℕ} (h : ∀ n ∈ ns, n < 64) :
    (ns.map digit).mapM value = some ns := by
  induction ns with
  | nil => rfl
  | cons n ns ih =>
    obtain ⟨hn, hns⟩ := List.forall_mem_cons.mp h
    rw [List.map_cons, List.mapM_cons, (digit_spec n hn).1, ih hns]
    rfl

/-- Decoding reads an encoding back. -/
theorem decodeRaw_encodeRaw (m : Bytes) : decodeRaw (encodeRaw m) = some m := by
  have hfilter : (encodeRaw m).filter (fun c => c != 0x0a && c != 0x0d) = encodeRaw m := by
    rw [List.filter_eq_self]
    intro c hc
    obtain ⟨n, hn, rfl⟩ := mem_encodeRaw hc
    obtain ⟨-, -, hlf, hcr, -⟩ := digit_spec n hn
    simp [hlf, hcr]
  have hvalues : (encodeRaw m).mapM value = some (digits m) :=
    encodeRaw_eq m ▸ mapM_value_digit (digits_lt m)
  rw [decodeRaw, hfilter, hvalues, Option.bind_some, decodeDigits_digits]

end Base64
