import Kubeast.AuditChain.Store

/-! Anchors: digests of the chain head in an object store (`auditchain/anchor.go`). Times are
in microseconds since 1970, the resolution of the store. -/
namespace Kubeast.AuditChain
open Sha256 Sorted

/-- One row of `audit_anchors`. -/
structure Anchor where
  id : ℕ
  createdAt : ℤ
  fromSeq : ℤ
  toSeq : ℤ
  rows : ℤ
  headHash : Bytes
  prevAnchorHash : Bytes
  anchorHash : Bytes
  sink : String
  objectKey : String
  actor : String
deriving DecidableEq

structure DigestRef where
  objectKey : String
  hash : String
deriving DecidableEq

structure DigestReview where
  id : String
  reviewedAt : String
  hash : String
deriving DecidableEq

/-- The object written to the sink. -/
structure Digest where
  version : ℕ
  createdAt : String
  fromSeq : ℤ
  toSeq : ℤ
  rows : ℤ
  headHash : String
  prevAnchor : Option DigestRef
  accessReviews : List DigestReview
  hashAlgorithm : String
deriving DecidableEq

/-- A row of `access_reviews`. -/
structure Review where
  id : String
  reviewedAt : ℤ
  snapshot : String
deriving DecidableEq

structure ReviewHash where
  id : String
  reviewedAt : ℤ
  hash : Bytes
deriving DecidableEq

/-- Year, month and day of a day count from 1970-01-01 (proleptic Gregorian calendar). -/
def civil (days : ℤ) : ℤ × ℤ × ℤ :=
  let z := days + 719468
  let era := z / 146097
  let doe := z - era * 146097
  let yoe := (doe - doe / 1460 + doe / 36524 - doe / 146096) / 365
  let doy := doe - (365 * yoe + yoe / 4 - yoe / 100)
  let mp := (5 * doy + 2) / 153
  let month := if mp < 10 then mp + 3 else mp - 9
  (yoe + era * 400 + (if month ≤ 2 then 1 else 0), month, doy - (153 * mp + 2) / 5 + 1)

def padded (width : ℕ) (n : ℤ) : String :=
  let digits := toString n
  "".pushn '0' (width - digits.length) ++ digits

/-- `t.Format` with the date's and the time's separators. -/
def formatDate (sep : String) (t : ℤ) : String :=
  let (y, m, d) := civil (t / 1000000 / 86400)
  padded 4 y ++ sep ++ padded 2 m ++ sep ++ padded 2 d

def formatTime (sep : String) (t : ℤ) : String :=
  let s := t / 1000000 % 86400
  padded 2 (s / 3600) ++ sep ++ padded 2 (s / 60 % 60) ++ sep ++ padded 2 (s % 60)

/-- `time.RFC3339` in UTC. -/
def rfc3339 (t : ℤ) : String := formatDate "-" t ++ "T" ++ formatTime ":" t ++ "Z"

/-- `json.Marshal` of a string, with the characters HTML gives a meaning escaped. -/
def jsonString (s : String) : String :=
  let escape : Char → String := fun c =>
    if c = '"' then "\\\"" else if c = '\\' then "\\\\"
    else if c = '\n' then "\\n" else if c = '\r' then "\\r" else if c = '\t' then "\\t"
    else if c.toNat = 8 then "\\b" else if c.toNat = 12 then "\\f"
    else if c.toNat < 32 ∨ c = '<' ∨ c = '>' ∨ c = '&' ∨ c.toNat = 0x2028 ∨ c.toNat = 0x2029 then
      "\\u" ++ Hex.encode (bigEndian 2 c.toNat)
    else c.toString
  "\"" ++ String.join (s.toList.map escape) ++ "\""

/-- `json.Marshal` of an object with the fields in order. -/
def jsonObject (fields : List (String × String)) : String :=
  "\x7b" ++ String.intercalate "," (fields.map fun f => jsonString f.1 ++ ":" ++ f.2) ++ "\x7d"

/-- The body of the object. -/
def Digest.marshal (d : Digest) : Bytes :=
  let reviews := d.accessReviews.map fun r => jsonObject
    [("id", jsonString r.id), ("reviewed_at", jsonString r.reviewedAt), ("hash", jsonString r.hash)]
  let body := jsonObject
    [("version", toString d.version), ("created_at", jsonString d.createdAt),
      ("from_seq", toString d.fromSeq), ("to_seq", toString d.toSeq), ("rows", toString d.rows),
      ("head_hash", jsonString d.headHash),
      ("prev_anchor", d.prevAnchor.elim "null" fun p => jsonObject
        [("object_key", jsonString p.objectKey), ("hash", jsonString p.hash)]),
      ("access_reviews", "[" ++ String.intercalate "," reviews ++ "]"),
      ("hash_algorithm", jsonString d.hashAlgorithm)]
  body.toByteArray.data.toList

def textHash (s : String) : Bytes := sha256 s.toByteArray.data.toList

/-- The database and the sink. Anchors are in the order of their ids. An object is kept as the
digest it was marshalled from, which is what unmarshalling it gives back. -/
structure AuditLog where
  table : AuditTable
  anchors : List Anchor
  objects : Dict String Digest
  reviews : Table Review.id

namespace AuditLog

def lastAnchor (log : AuditLog) : Option Anchor := log.anchors.getLast?

def anchorsIn (log : AuditLog) (fromSeq toSeq : ℤ) : List Anchor :=
  log.anchors.filter fun a => decide (fromSeq ≤ a.toSeq ∧ a.toSeq ≤ toSeq)

/-- The sign-offs made in `(since, until]`. -/
def reviewHashesBetween (log : AuditLog) (since : Option ℤ) (until_ : ℤ) : List ReviewHash :=
  ((log.reviews.select fun r => decide (since.getD 0 < r.reviewedAt ∧ r.reviewedAt ≤ until_)).insertionSort
    fun a b => a.reviewedAt < b.reviewedAt ∨ a.reviewedAt = b.reviewedAt ∧ a.id ≤ b.id).map
      fun r => ⟨r.id, r.reviewedAt, textHash r.snapshot⟩

/-- The stored hash of a sign-off, where it is still there. -/
def reviewHash (log : AuditLog) (id : String) : Option Bytes :=
  (log.reviews.get id).map fun r => textHash r.snapshot

end AuditLog

def objectKey (now fromSeq toSeq : ℤ) : String :=
  "digests/" ++ formatDate "/" now ++ "/" ++ formatTime "" now ++ "Z-" ++ toString fromSeq ++ "-" ++
    toString toSeq ++ ".json"

/-- Where the next anchor begins: behind the previous one, else at the oldest sealed row. -/
def AuditLog.nextFrom (log : AuditLog) : ℤ :=
  match log.lastAnchor with
  | some prev => prev.toSeq + 1
  | none => if 0 < log.table.bounds.1 then log.table.bounds.1 else 1

/-- The positions the next anchor covers, `(from, to, rows)`. -/
def AuditLog.nextRange (log : AuditLog) : ℤ × ℤ × ℤ :=
  let rows := log.table.readHead.seq - log.nextFrom + 1
  if rows < 0 then (log.nextFrom, log.nextFrom - 1, 0)
  else (log.nextFrom, log.table.readHead.seq, rows)

def AuditLog.nextDigest (log : AuditLog) (now : ℤ) : Digest :=
  let (fromSeq, toSeq, rows) := log.nextRange
  { version := 1, createdAt := rfc3339 now, fromSeq := fromSeq, toSeq := toSeq, rows := rows
    headHash := Hex.encode log.table.readHead.hash
    prevAnchor := log.lastAnchor.map fun prev => ⟨prev.objectKey, Hex.encode prev.anchorHash⟩
    accessReviews := (log.reviewHashesBetween (log.lastAnchor.map Anchor.createdAt) now).map
      fun r => ⟨r.id, rfc3339 r.reviewedAt, Hex.encode r.hash⟩
    hashAlgorithm := "SHA-256" }

def AuditLog.nextAnchor (log : AuditLog) (now : ℤ) (sink actor : String) : Anchor :=
  let (fromSeq, toSeq, rows) := log.nextRange
  { id := log.lastAnchor.elim 1 fun prev => prev.id + 1
    createdAt := now, fromSeq := fromSeq, toSeq := toSeq, rows := rows
    headHash := log.table.readHead.hash
    prevAnchorHash := log.lastAnchor.elim [] Anchor.anchorHash
    anchorHash := sha256 (log.nextDigest now).marshal
    sink := sink, objectKey := objectKey now fromSeq toSeq, actor := actor }

/-- `AnchorOnce`: the digest into the sink, its hash into the table. -/
def AuditLog.anchorOnce (log : AuditLog) (now : ℤ) (sink actor : String) : AuditLog × Anchor :=
  let anchor := log.nextAnchor now sink actor
  ({ log with
      objects := log.objects.set anchor.objectKey (log.nextDigest now)
      anchors := log.anchors ++ [anchor] }, anchor)

example : rfc3339 1791590700000000 = "2026-10-10T00:05:00Z" := by decide

end Kubeast.AuditChain
