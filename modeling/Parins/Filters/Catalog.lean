/-
The catalog of filter subscriptions: which object each source has selected, the
references that the configuration holds, and the checks that every catalog passes
before it is written and after it is read.
-/
import Mathlib.Data.List.MinMax
import Mathlib.Data.List.Nodup
import Parins.Policy.Disk

namespace Parins.Filters

abbrev Text := Bytes

def MAX_CATALOG : Nat := 256 * 1024
def MAX_OBJECT : Nat := 16 * 1024 * 1024
def MAX_INDEX : Nat := 512 * 1024 * 1024
def PREPARED_TTL : Nat := 24 * 60 * 60
def REPRESENTATION : Text := ascii "text/plain;accept-encoding=gzip, identity;v=1"

abbrev Error := Text

/-- `ensure!` with its message. -/
def ensure (cond : Bool) (text : String) : Except Error Unit := if cond then .ok () else .error (ascii text)

def validHash (value : Text) : Bool :=
  value.length == 64 && value.all fun b => (48 ≤ b && b ≤ 57) || (97 ≤ b && b ≤ 102)

structure Validators where
  finalUrl : Text
  representation : Text
  contentSha256 : Text
  etag : Option Text
  lastModified : Option Text
deriving DecidableEq

structure SourceStatus where
  lastAttempt : Option Nat := none
  nextUpdate : Option Nat := none
  failures : Nat := 0
  lastError : Option Text := none
  errorLine : Option Nat := none
deriving DecidableEq

structure SourceRecord where
  fingerprint : Text
  sha256 : Text
  bytes : Nat
  rules : Nat
  validators : Validators
  preparedAt : Nat
  status : SourceStatus
deriving DecidableEq

structure Catalog where
  schema : Nat := 1
  contentRevision : Nat := 0
  current : List Text := []
  previous : List Text := []
  records : List SourceRecord := []
deriving DecidableEq

/-- What other crates compute: SHA-256 in hexadecimal, what a header value and an HTTP date may be,
and the length of a catalog in JSON. `canonicalUrl` is `canonical_url` of `download.rs`, whose checks
go by what a URL parser makes of the text; no result here depends on which URLs it accepts. -/
structure Library where
  sha : Bytes → Text
  canonicalUrl : Text → Except Error Text
  headerValue : Text → Bool
  httpDate : Text → Bool
  jsonLength : Catalog → Nat

/-- What `record_heap_bytes` and the sum in `validate_catalog` count. They go by the capacities of
strings and vectors, which the values do not determine. -/
structure Heap where
  record : SourceRecord → Nat
  catalog : Catalog → Nat

section Validation
variable (lib : Library) (heap : Heap)

def validHeader (value : Text) : Bool := !value.isEmpty && value.length ≤ 1024 && lib.headerValue value

def validEtag (value : Text) : Bool :=
  let quoted := match value with
    | 87 :: 47 :: rest => rest
    | _ => value
  validHeader lib value && quoted.head? == some 34 && quoted.getLast? == some 34 && 2 ≤ quoted.length &&
    quoted.tail.dropLast.all fun b => b == 0x21 || (0x23 ≤ b && b ≤ 0x7e) || 0x80 ≤ b

def validModified (value : Text) : Bool := validHeader lib value && lib.httpDate value

def Validators.validate (v : Validators) : Except Error Unit := do
  let url ← lib.canonicalUrl v.finalUrl
  if url != v.finalUrl || v.representation != REPRESENTATION || !validHash v.contentSha256 ||
      v.etag.any (!validEtag lib ·) || v.lastModified.any (!validModified lib ·) then
    throw (ascii "invalid_validators")

def validateRecord (r : SourceRecord) : Except Error Unit := do
  ensure (validHash r.fingerprint && validHash r.sha256) "invalid source fingerprint or digest"
  ensure (1 ≤ r.bytes && r.bytes ≤ MAX_OBJECT && 1 ≤ r.rules && r.rules ≤ 5000000) "invalid source size or rule count"
  r.validators.validate lib
  ensure (r.validators.contentSha256 == r.sha256) "validator does not bind selected content"
  ensure (r.status.lastError.all fun e => e.length ≤ 512) "subscription error exceeds 512 bytes"
  ensure (heap.record r ≤ 16 * 1024) "source metadata allocation limit"

/-- The loop over a group of references; `seen` are those before. -/
def validateReferencesFrom (seen : List Text) : List Text → Except Error Unit
  | [] => .ok ()
  | f :: rest => do
    ensure (validHash f && !seen.contains f) "invalid catalog references"
    validateReferencesFrom (f :: seen) rest

def validateReferences (group : List Text) : Except Error Unit := do
  ensure (group.length ≤ 16) "too many catalog references"
  validateReferencesFrom [] group

def Catalog.referenced (c : Catalog) (fingerprint : Text) : Bool := (c.current ++ c.previous).any (· == fingerprint)

def Catalog.unreferenced (c : Catalog) : List SourceRecord := c.records.filter fun r => !c.referenced r.fingerprint

/-- The loop over the records. -/
def validateRecordsFrom (seen : List Text) : List SourceRecord → Except Error Unit
  | [] => .ok ()
  | r :: rest => do
    validateRecord lib heap r
    ensure (!seen.contains r.fingerprint) "duplicate catalog fingerprint"
    validateRecordsFrom (r.fingerprint :: seen) rest

def validateCatalog (c : Catalog) : Except Error Unit := do
  ensure (c.schema == 1 && c.records.length ≤ 48 && c.current.length ≤ 16 && c.previous.length ≤ 16 &&
    c.unreferenced.length ≤ 16) "invalid catalog schema or counts"
  validateRecordsFrom lib heap [] c.records
  validateReferences c.current
  validateReferences c.previous
  ensure (heap.catalog c ≤ 2 * MAX_CATALOG) "catalog metadata allocation limit"

end Validation

namespace Catalog

/-- The object that a source has selected. -/
def choices (c : Catalog) (fingerprint : Text) : Option Text :=
  (c.records.reverse.find? fun r => r.fingerprint == fingerprint).map (·.sha256)

def sameChoices (a b : Catalog) : Bool :=
  (a.records ++ b.records).all fun r => a.choices r.fingerprint == b.choices r.fingerprint

def setStatus (fingerprint : Text) (status : SourceStatus) : List SourceRecord → List SourceRecord
  | [] => []
  | r :: rest =>
    if r.fingerprint == fingerprint then { r with status := status } :: rest else r :: setStatus fingerprint status rest

/-- The given records replace those of their sources. -/
def replace (c : Catalog) (records : List SourceRecord) (statuses : List (Text × SourceStatus)) : Catalog :=
  let kept := c.records.filter fun r => !(records.map (·.fingerprint)).contains r.fingerprint
  { c with records := statuses.foldl (fun rs s => setStatus s.1 s.2 rs) (kept ++ records) }

/-- The records that `trim_prepared` may remove. -/
def removable (c : Catalog) (pinned : Text → Bool) (retain : List Text) : List SourceRecord :=
  c.unreferenced.filter fun r => !pinned r.sha256 && !retain.contains r.fingerprint

/-- The one that it removes next: the oldest. -/
def evict (c : Catalog) (pinned : Text → Bool) (retain : List Text) : Option SourceRecord :=
  (c.removable pinned retain).argmin (·.preparedAt)

def without (c : Catalog) (fingerprint : Text) : Catalog :=
  { c with records := c.records.filter fun r => r.fingerprint != fingerprint }

variable {r : SourceRecord} {c : Catalog} {pinned : Text → Bool} {retain : List Text}

theorem evict_mem (h : c.evict pinned retain = some r) : r ∈ c.removable pinned retain := List.argmin_mem h

theorem removable_mem : r ∈ c.removable pinned retain ↔
      r ∈ c.records ∧ c.referenced r.fingerprint = false ∧ pinned r.sha256 = false ∧ r.fingerprint ∉ retain := by
  simp only [removable, unreferenced, List.mem_filter, Bool.and_eq_true, Bool.not_eq_true', List.contains_eq_mem,
    decide_eq_false_iff_not]
  tauto

theorem without_length (h : r ∈ c.records) : (c.without r.fingerprint).records.length < c.records.length :=
  List.length_filter_lt_length_iff_exists.mpr ⟨r, h, by simp⟩

/-- `trim_prepared`: while there are too many preparations, the oldest that nothing holds goes. -/
def trimPrepared (pinned : Text → Bool) (retain : List Text) (c : Catalog) : Except Error Catalog :=
  if 16 < c.unreferenced.length then
    match _h : c.evict pinned retain with
    | none => .error (ascii "prepared slots are pinned")
    | some r => trimPrepared pinned retain (c.without r.fingerprint)
  else .ok c
termination_by c.records.length
decreasing_by exact without_length (removable_mem.mp (evict_mem _h)).1

/-- `checked_add(1)` on the revision. -/
def bump (c : Catalog) : Except Error Catalog :=
  if c.contentRevision + 1 < 2 ^ 64 then .ok { c with contentRevision := c.contentRevision + 1 }
  else .error (ascii "catalog revision overflow")

end Catalog

end Parins.Filters
