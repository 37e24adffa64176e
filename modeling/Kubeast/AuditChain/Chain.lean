import Kubeast.Foundation.Sha256
import Kubeast.Foundation.Sorted
import Mathlib.Data.Int.Notation
import Mathlib.Data.List.Chain

/-! The hash chain over the audit log (`auth-service-go/internal/auditchain/chain.go`). A row's
content is its canonical text, what `CanonSQL` computes from the columns. -/
namespace Kubeast.AuditChain
open Sha256

def hashSize : ℕ := Sha256.size

/-- The `prev_hash` of the first sealed row. -/
def genesis : Bytes := List.replicate hashSize 0

def sep : UInt8 := 0x1e

/-- A row the sealer has not chained yet. -/
structure Unsealed where
  id : ℤ
  canon : String
deriving DecidableEq

/-- What the sealer writes back for one row. -/
structure Sealed where
  id : ℤ
  seq : ℤ
  prev : Bytes
  hash : Bytes
deriving DecidableEq

/-- The end of the chain. -/
structure Head where
  seq : ℤ
  hash : Bytes
deriving DecidableEq

/-- A sealed row as the verifier reads it. -/
@[ext] structure Row where
  seq : ℤ
  id : ℤ
  prev : Bytes
  hash : Bytes
  canon : String
deriving DecidableEq

/-- The bytes hashed for a row. -/
def message (prev : Bytes) (canon : String) : Bytes :=
  prev ++ sep :: canon.toByteArray.data.toList

def rowHash (prev : Bytes) (canon : String) : Bytes := sha256 (message prev canon)

/-- The loop of `sealRows`. -/
def sealFrom : Head → List Unsealed → List Sealed × Head
  | head, [] => ([], head)
  | head, r :: rows =>
      let h := rowHash head.hash r.canon
      let (out, last) := sealFrom ⟨head.seq + 1, h⟩ rows
      (⟨r.id, head.seq + 1, head.hash, h⟩ :: out, last)

/-- Chains rows onto the head in the order given. -/
def sealRows (head : Head) (rows : List Unsealed) : List Sealed × Head :=
  sealFrom (if head.hash.length = hashSize then head else { head with hash := genesis }) rows

/-- A row's own hash is right. -/
def Row.Sound (r : Row) : Prop := rowHash r.prev r.canon = r.hash

/-- A row comes right after another in the chain. -/
def Row.Follows (a b : Row) : Prop := b.seq = a.seq + 1 ∧ b.prev = a.hash

instance (r : Row) : Decidable r.Sound := inferInstanceAs (Decidable (_ = _))

instance (a b : Row) : Decidable (a.Follows b) := inferInstanceAs (Decidable (_ ∧ _))

/-- A stretch of the chain without a gap, a broken link or a wrong hash. -/
structure Whole (rows : List Row) : Prop where
  sound : ∀ r ∈ rows, r.Sound
  links : rows.IsChain Row.Follows

instance (rows : List Row) : Decidable (Whole rows) :=
  decidable_of_iff ((∀ r ∈ rows, r.Sound) ∧ rows.IsChain Row.Follows)
    ⟨fun h => ⟨h.1, h.2⟩, fun h => ⟨h.1, h.2⟩⟩

/-- The rows a sealed batch becomes in the table. -/
def sealedRowsOf (sealed : List Sealed) (rows : List Unsealed) : List Row :=
  List.zipWith (fun s u => ⟨s.seq, s.id, s.prev, s.hash, u.canon⟩) sealed rows

section Hash
variable {prev prev' : Bytes} {canon canon' : String}

theorem length_rowHash : (rowHash prev canon).length = hashSize := length_sha256 _

theorem length_genesis : genesis.length = hashSize := List.length_replicate

/-- Behind previous hashes of one length a message is read back. -/
theorem message_inj (hlen : prev.length = prev'.length)
    (h : message prev canon = message prev' canon') : prev = prev' ∧ canon = canon' := by
  obtain ⟨hprev, htail⟩ := List.append_inj h hlen
  refine ⟨hprev, String.toByteArray_inj.mp ?_⟩
  have hbytes := (List.cons.inj htail).2
  exact ByteArray.ext (Array.toList_inj.mp hbytes)

end Hash

section Whole
variable {rows rows' : List Row} {a b r : Row}

theorem whole_nil : Whole [] := ⟨by simp, List.isChain_nil⟩

theorem whole_singleton : Whole [r] ↔ r.Sound :=
  ⟨fun h => h.sound r (by simp), fun h => ⟨by simpa using h, List.isChain_singleton r⟩⟩

theorem whole_cons_cons : Whole (a :: b :: rows) ↔ a.Sound ∧ a.Follows b ∧ Whole (b :: rows) := by
  constructor
  · rintro ⟨hsound, hlinks⟩
    obtain ⟨hfollows, hrest⟩ := List.isChain_cons_cons.mp hlinks
    exact ⟨hsound a (by simp), hfollows, fun r hr => hsound r (List.mem_cons_of_mem a hr), hrest⟩
  · rintro ⟨ha, hfollows, hrest⟩
    exact ⟨List.forall_mem_cons.mpr ⟨ha, hrest.sound⟩, List.isChain_cons_cons.mpr ⟨hfollows, hrest.links⟩⟩

theorem Whole.part (h : Whole rows) (hi : rows' <:+: rows) : Whole rows' :=
  ⟨fun r hr => h.sound r (hi.subset hr), List.IsChain.infix h.links hi⟩

theorem Whole.append (h : Whole rows) (h' : Whole rows')
    (hlink : ∀ a ∈ rows.getLast?, ∀ b ∈ rows'.head?, a.Follows b) : Whole (rows ++ rows') :=
  ⟨fun r hr => (List.mem_append.mp hr).elim (h.sound r) (h'.sound r),
    List.isChain_append.mpr ⟨h.links, h'.links, hlink⟩⟩

/-- Positions go up by one along a whole stretch. -/
theorem Whole.increasing (h : Whole rows) : Sorted.Increasing Row.seq rows := by
  have hlt : rows.IsChain fun a b : Row => a.seq < b.seq :=
    h.links.imp fun a b hab => by
      have := hab.1
      omega
  have : Trans (fun a b : Row => a.seq < b.seq) (fun a b : Row => a.seq < b.seq)
      (fun a b : Row => a.seq < b.seq) := ⟨fun h₁ h₂ => lt_trans h₁ h₂⟩
  exact List.isChain_iff_pairwise.mp hlt

/-- A row of a whole stretch that is not its first follows a row of it. -/
theorem Whole.exists_before (h : Whole rows) (ha : a ∈ rows) (hb : b ∈ rows)
    (hlt : a.seq < b.seq) : ∃ c ∈ rows, c.Follows b := by
  obtain ⟨p, tail, rfl⟩ := List.append_of_mem hb
  rcases List.eq_nil_or_concat p with rfl | ⟨p, c, rfl⟩
  · rcases List.mem_cons.mp ha with rfl | ha
    · exact absurd hlt (lt_irrefl _)
    · exact absurd ((List.pairwise_cons.mp h.increasing).1 a ha) hlt.asymm
  · exact ⟨c, by simp, (List.isChain_append.mp h.links).2.2 c (by simp) b (by simp)⟩

/-- Every position between two of a whole stretch is taken. -/
theorem Whole.exists_seq (h : Whole rows) (ha : a ∈ rows) (hb : b ∈ rows) (n : ℕ)
    (hn : a.seq ≤ b.seq - n) : ∃ c ∈ rows, c.seq = b.seq - n := by
  induction n with
  | zero => exact ⟨b, hb, by simp⟩
  | succ n ih =>
    push_cast at hn ⊢
    obtain ⟨c, hc, hseq⟩ := ih (by omega)
    obtain ⟨d, hd, hfollows⟩ := h.exists_before ha hc (by omega)
    have := hfollows.1
    exact ⟨d, hd, by omega⟩

end Whole

section Seal
variable {head : Head} {us : List Unsealed}

theorem sealFrom_ids : (sealFrom head us).1.map Sealed.id = us.map Unsealed.id := by
  induction us generalizing head with
  | nil => rfl
  | cons u us ih => simp [sealFrom, ih]

theorem sealFrom_seqs (i : ℕ) (s : Sealed) (h : (sealFrom head us).1[i]? = some s) :
    s.seq = head.seq + 1 + i := by
  induction us generalizing head i with
  | nil => simp [sealFrom] at h
  | cons u us ih =>
    cases i with
    | zero =>
      simp only [sealFrom, List.getElem?_cons_zero, Option.some.injEq] at h
      simp [← h]
    | succ i =>
      simp only [sealFrom, List.getElem?_cons_succ] at h
      have hseq := ih i h
      simp only at hseq
      push_cast
      omega

/-- A batch continues the chain from the head it was given and ends in the new one. -/
theorem sealedRowsOf_sealFrom (head : Head) (us : List Unsealed) :
    Whole (sealedRowsOf (sealFrom head us).1 us) ∧
      (∀ b ∈ (sealedRowsOf (sealFrom head us).1 us).head?,
        b.seq = head.seq + 1 ∧ b.prev = head.hash) ∧
      (sealFrom head us).2 = ((sealedRowsOf (sealFrom head us).1 us).getLast?.elim head
        fun r => ⟨r.seq, r.hash⟩) := by
  induction us generalizing head with
  | nil => exact ⟨whole_nil, by simp [sealedRowsOf, sealFrom], rfl⟩
  | cons u us ih =>
    obtain ⟨hwhole, hfirst, hlast⟩ := ih ⟨head.seq + 1, rowHash head.hash u.canon⟩
    have hcons : sealedRowsOf (sealFrom head (u :: us)).1 (u :: us) =
        ⟨head.seq + 1, u.id, head.hash, rowHash head.hash u.canon, u.canon⟩ ::
          sealedRowsOf (sealFrom ⟨head.seq + 1, rowHash head.hash u.canon⟩ us).1 us := rfl
    refine ⟨?_, by simp [hcons], ?_⟩
    · rw [hcons]
      cases hrest : sealedRowsOf (sealFrom ⟨head.seq + 1, rowHash head.hash u.canon⟩ us).1 us with
      | nil => exact whole_singleton.mpr rfl
      | cons b rest =>
        rw [hrest] at hwhole hfirst
        exact whole_cons_cons.mpr ⟨rfl, hfirst b rfl, hwhole⟩
    · have hnext : (sealFrom head (u :: us)).2 =
        (sealFrom ⟨head.seq + 1, rowHash head.hash u.canon⟩ us).2 := rfl
      rw [hnext, hlast, hcons, List.getLast?_cons]
      cases (sealedRowsOf (sealFrom ⟨head.seq + 1, rowHash head.hash u.canon⟩ us).1 us).getLast? with
      | none => rfl
      | some r => rfl

end Seal
end Kubeast.AuditChain
