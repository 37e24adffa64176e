import Mathlib.Data.List.Basic

/-! SHA-256 (FIPS 180-4) over byte lists, executable, and the hexadecimal form of bytes. -/

abbrev Bytes := List UInt8

namespace Sha256

/-- The round constants. -/
def k : List (BitVec 32) := [
  0x428a2f98, 0x71374491, 0xb5c0fbcf, 0xe9b5dba5, 0x3956c25b, 0x59f111f1, 0x923f82a4, 0xab1c5ed5,
  0xd807aa98, 0x12835b01, 0x243185be, 0x550c7dc3, 0x72be5d74, 0x80deb1fe, 0x9bdc06a7, 0xc19bf174,
  0xe49b69c1, 0xefbe4786, 0x0fc19dc6, 0x240ca1cc, 0x2de92c6f, 0x4a7484aa, 0x5cb0a9dc, 0x76f988da,
  0x983e5152, 0xa831c66d, 0xb00327c8, 0xbf597fc7, 0xc6e00bf3, 0xd5a79147, 0x06ca6351, 0x14292967,
  0x27b70a85, 0x2e1b2138, 0x4d2c6dfc, 0x53380d13, 0x650a7354, 0x766a0abb, 0x81c2c92e, 0x92722c85,
  0xa2bfe8a1, 0xa81a664b, 0xc24b8b70, 0xc76c51a3, 0xd192e819, 0xd6990624, 0xf40e3585, 0x106aa070,
  0x19a4c116, 0x1e376c08, 0x2748774c, 0x34b0bcb5, 0x391c0cb3, 0x4ed8aa4a, 0x5b9cca4f, 0x682e6ff3,
  0x748f82ee, 0x78a5636f, 0x84c87814, 0x8cc70208, 0x90befffa, 0xa4506ceb, 0xbef9a3f7, 0xc67178f2]

structure State where
  (a b c d e f g h : BitVec 32)

def start : State :=
  ⟨0x6a09e667, 0xbb67ae85, 0x3c6ef372, 0xa54ff53a, 0x510e527f, 0x9b05688c, 0x1f83d9ab, 0x5be0cd19⟩

def smallSigma0 (x : BitVec 32) : BitVec 32 :=
  x.rotateRight 7 ^^^ x.rotateRight 18 ^^^ (x >>> 3)

def smallSigma1 (x : BitVec 32) : BitVec 32 :=
  x.rotateRight 17 ^^^ x.rotateRight 19 ^^^ (x >>> 10)

def bigSigma0 (x : BitVec 32) : BitVec 32 :=
  x.rotateRight 2 ^^^ x.rotateRight 13 ^^^ x.rotateRight 22

def bigSigma1 (x : BitVec 32) : BitVec 32 :=
  x.rotateRight 6 ^^^ x.rotateRight 11 ^^^ x.rotateRight 25

def ch (x y z : BitVec 32) : BitVec 32 := (x &&& y) ^^^ (~~~x &&& z)

def maj (x y z : BitVec 32) : BitVec 32 := (x &&& y) ^^^ (x &&& z) ^^^ (y &&& z)

/-- One round, with a constant and a word of the schedule. -/
def round (s : State) (kw : BitVec 32 × BitVec 32) : State :=
  let t1 := s.h + bigSigma1 s.e + ch s.e s.f s.g + kw.1 + kw.2
  let t2 := bigSigma0 s.a + maj s.a s.b s.c
  ⟨t1 + t2, s.a, s.b, s.c, s.d + t1, s.e, s.f, s.g⟩

/-- The next word of the schedule, kept with the newest word first. -/
def extend (w : List (BitVec 32)) : List (BitVec 32) :=
  (smallSigma1 (w.getD 1 0) + w.getD 6 0 + smallSigma0 (w.getD 14 0) + w.getD 15 0) :: w

def schedule (block : List (BitVec 32)) : List (BitVec 32) :=
  (Nat.repeat extend 48 block.reverse).reverse

def compress (s : State) (block : List (BitVec 32)) : State :=
  let t := (k.zip (schedule block)).foldl round s
  ⟨s.a + t.a, s.b + t.b, s.c + t.c, s.d + t.d, s.e + t.e, s.f + t.f, s.g + t.g, s.h + t.h⟩

def word (a b c d : UInt8) : BitVec 32 := a.toBitVec ++ b.toBitVec ++ c.toBitVec ++ d.toBitVec

def words : Bytes → List (BitVec 32)
  | a :: b :: c :: d :: rest => word a b c d :: words rest
  | _ => []

/-- The lowest `n` bytes of a number, the highest first. -/
def bigEndian (n x : ℕ) : Bytes := (List.range n).reverse.map fun i => UInt8.ofNat (x >>> (8 * i))

/-- The message, one bit, zeros up to a whole block, and the length in bits. -/
def pad (m : Bytes) : Bytes :=
  m ++ [0x80] ++ List.replicate ((119 - m.length % 64) % 64) 0 ++ bigEndian 8 (8 * m.length)

def sha256 (m : Bytes) : Bytes :=
  let ws := words (pad m)
  let s := (List.range (ws.length / 16)).foldl
    (fun s i => compress s ((ws.drop (16 * i)).take 16)) start
  [s.a, s.b, s.c, s.d, s.e, s.f, s.g, s.h].flatMap fun x => bigEndian 4 x.toNat

def size : ℕ := 32

/-- HMAC (RFC 2104) with SHA-256, whose blocks have 64 bytes. -/
def hmac (key m : Bytes) : Bytes :=
  let key := if key.length > 64 then sha256 key else key
  let block := key ++ List.replicate (64 - key.length) 0
  sha256 (block.map (· ^^^ 0x5c) ++ sha256 (block.map (· ^^^ 0x36) ++ m))

@[simp] theorem length_bigEndian (n x : ℕ) : (bigEndian n x).length = n := by simp [bigEndian]

theorem length_sha256 (m : Bytes) : (sha256 m).length = size := by
  simp [sha256, List.flatMap, size]

example : sha256 [0x61, 0x62, 0x63] =
    [0xba, 0x78, 0x16, 0xbf, 0x8f, 0x01, 0xcf, 0xea, 0x41, 0x41, 0x40, 0xde, 0x5d, 0xae, 0x22, 0x23,
      0xb0, 0x03, 0x61, 0xa3, 0x96, 0x17, 0x7a, 0x9c, 0xb4, 0x10, 0xff, 0x61, 0xf2, 0x00, 0x15,
      0xad] := by
  decide +kernel

end Sha256

namespace Hex

def digit (n : ℕ) : Char := "0123456789abcdef".toList.getD n '0'

def value (c : Char) : ℕ := "0123456789abcdef".toList.idxOf c.toLower

/-- `hex.EncodeToString`. -/
def encode (b : Bytes) : String :=
  String.ofList (b.flatMap fun x => [digit (x.toNat / 16), digit (x.toNat % 16)])

/-- The bytes of digit pairs, up to the first pair that is not one. -/
def decodePairs : List Char → Bytes
  | a :: b :: rest =>
      if value a < 16 ∧ value b < 16 then UInt8.ofNat (16 * value a + value b) :: decodePairs rest
      else []
  | _ => []

/-- `hex.DecodeString`. -/
def decode (s : String) : Bytes := decodePairs s.toList

theorem value_digit : ∀ n < 16, value (digit n) = n := by decide +kernel

/-- Decoding reads an encoding back. -/
theorem decode_encode (b : Bytes) : decode (encode b) = b := by
  rw [decode, encode, String.toList_ofList]
  induction b with
  | nil => rfl
  | cons x b ih =>
    have hx : x.toNat < 256 := x.toNat_lt
    have hhigh : value (digit (x.toNat / 16)) = x.toNat / 16 := value_digit _ (by omega)
    have hlow : value (digit (x.toNat % 16)) = x.toNat % 16 := value_digit _ (by omega)
    have hsum : 16 * (x.toNat / 16) + x.toNat % 16 = x.toNat := by omega
    rw [List.flatMap_cons, List.cons_append, List.cons_append, List.nil_append, decodePairs,
      hhigh, hlow, if_pos (by omega), ih, hsum, UInt8.ofNat_toNat]

end Hex
