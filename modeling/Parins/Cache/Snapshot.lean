/-
`cache/persistence.rs`: the clean snapshot of a cache, one line an entry behind a
fixed header with a checksum, and its restore. JSON, base64 and the text form of
networks are parameters, like the wall clock's and the caller's decisions when to
stop.
-/
import Parins.Cache.Admission

namespace Parins.Cache
open Net Lib

def VERSION : Nat := 3
def HEADER_BYTES : Nat := 512
def MAX_RECORD_BYTES : Nat := 96 * 1024
def SNAPSHOT_MAX_RECORDS : Nat := MAX_CACHE_ENTRIES

abbrev Text := Bytes

structure SnapshotReport where
  saved : Nat := 0
  restored : Nat := 0
  skipped : Nat := 0
  bytes : Nat := 0
  /-- Stopped at the deadline. -/
  deadline : Bool := false
deriving DecidableEq

structure Header where
  version : Nat
  fingerprint : Text
  savedAtNs : Nat
  records : Nat
  checksum : Text
deriving DecidableEq

structure SavedKey where
  name : Text
  kind : Nat
  dnsClass : Nat
  dnssecOk : Bool
  checkingDisabled : Bool
  recursionDesired : Bool
  edns : Bool
deriving DecidableEq

inductive SavedScope where
  | noEcs | privacyV4 | privacyV6
  | network (text : Text)
  | exactSource (text : Text)
  | learnedV4 | learnedV6
deriving DecidableEq

structure SavedRecord where
  key : SavedKey
  scope : SavedScope
  remainingSecs : Nat
  wire : Text
deriving DecidableEq

/-- The text codecs of a snapshot: base64, `IpNet`'s text form and `serde_json`. -/
structure Codec where
  base64 : Bytes → Text
  base64Decode : Text → Option Bytes
  netText : IpNet → Text
  parseNet : Text → Option IpNet
  headerJson : Header → Bytes
  parseHeader : Bytes → Option Header
  recordJson : SavedRecord → Bytes
  parseRecord : Bytes → Option SavedRecord

inductive SnapshotError where
  /-- "cache snapshot cancelled" -/
  | cancelled
  /-- The wall clock is before the epoch. -/
  | clock
  /-- A name or message that cannot be encoded. -/
  | encoding
  /-- "snapshot header too large" -/
  | headerTooLarge
  /-- "snapshot exceeds byte budget or is truncated" -/
  | byteBudget
  /-- "invalid snapshot header" -/
  | header
  /-- "unsupported snapshot version" -/
  | version
  /-- "snapshot policy mismatch" -/
  | policyMismatch
  /-- "snapshot record limit exceeded" -/
  | recordLimit
  /-- "snapshot clock rollback" -/
  | clockRollback
  /-- "invalid or oversized snapshot record" -/
  | framing
  /-- "snapshot record count mismatch" -/
  | countMismatch
  /-- "snapshot checksum mismatch" -/
  | checksum
  /-- "invalid snapshot record" -/
  | record
  /-- "invalid remaining lifetime" -/
  | remaining
  /-- "DNSSEC flag without EDNS" -/
  | dnssecFlag
  /-- "invalid snapshot name" -/
  | name
  /-- "noncanonical snapshot name" -/
  | noncanonicalName
  /-- "ineligible snapshot key" -/
  | ineligibleKey
  /-- "snapshot wire too large" -/
  | wireTooLarge
  /-- The wire form does not decode. -/
  | wire
  /-- "snapshot question/key mismatch" -/
  | questionMismatch
  /-- "invalid cache scope" -/
  | scope
  /-- "noncanonical cache scope" -/
  | noncanonicalScope
  /-- "exact ECS scope requires a nonzero canonical CIDR" -/
  | exactScope
deriving DecidableEq

/-- `ensure!`. -/
def ensureThat (c : Bool) (e : SnapshotError) : Except SnapshotError Unit := if c then .ok () else .error e

def orElse {α : Type} (x : Option α) (e : SnapshotError) : Except SnapshotError α :=
  match x with
  | some a => .ok a
  | none => .error e

/-- `timestamp`: nanoseconds since the epoch, which a wall clock may precede. -/
def timestamp (time : Int) : Except SnapshotError Nat := if 0 ≤ time then .ok time.toNat else .error .clock

/-- `{:x}` of a digest. -/
def hex (bytes : Bytes) : Text :=
  let digit (n : UInt8) : UInt8 := if n < 10 then 48 + n else 87 + n
  bytes.flatMap fun b => [digit (b / 16), digit (b % 16)]

def toLeBytes (width n : Nat) : Bytes := (Lib.toBeBytes width n).reverse

/-- `digest`, over the record lines that were hashed. -/
def digest (sha256 : Bytes → Bytes) (lines : Bytes) (h : Header) : Text :=
  hex (sha256 (lines ++ toLeBytes 4 h.version ++ toLeBytes 16 h.savedAtNs ++ toLeBytes 8 h.records ++ h.fingerprint))

def ageRecords (message : Message) (seconds : Nat) : Message :=
  message.mapRecords fun rr => { rr with ttl := rr.ttl - seconds }

/-! ## Records -/

section Records

variable (P : Platform) (C : Codec)

/-- `SavedScope::from`. -/
def SavedScope.ofScope : Scope → SavedScope
  | .noEcs => .noEcs
  | .privacy true => .privacyV4
  | .privacy false => .privacyV6
  | .network n => .network (C.netText n)
  | .exactSource n => .exactSource (C.netText n)
  | .learned true => .learnedV4
  | .learned false => .learnedV6

/-- `SavedScope::decode`, with `Scope::parse_tag` for an exact source. -/
def SavedScope.decode : SavedScope → Except SnapshotError Scope
  | .noEcs => .ok .noEcs
  | .privacyV4 => .ok (.privacy true)
  | .privacyV6 => .ok (.privacy false)
  | .network text => do
    let n ← orElse (C.parseNet text) .scope
    ensureThat (n == n.trunc && text == C.netText n) .noncanonicalScope
    .ok (.network n)
  | .exactSource text => do
    let n ← orElse (C.parseNet text) .scope
    ensureThat (decide (0 < n.prefixLen) && n == n.trunc && text == C.netText n) .exactScope
    .ok (.exactSource n)
  | .learnedV4 => .ok (.learned true)
  | .learnedV6 => .ok (.learned false)

/-- The query a saved key stands for. -/
def SavedKey.query (k : SavedKey) (name : Name) : SingleQuery where
  message := {
    id := 0
    messageType := .query
    opCode := .query
    queries := [⟨name, ⟨k.kind⟩, ⟨k.dnsClass⟩⟩]
    checkingDisabled := k.checkingDisabled
    recursionDesired := k.recursionDesired
    edns := if k.edns then some { maxPayload := Protocol.MAX_UDP_PAYLOAD, dnssecOk := k.dnssecOk } else none }
  question := ⟨name, ⟨k.kind⟩, ⟨k.dnsClass⟩⟩
  single := rfl

/-- The response answers the question of the key, as a stored answer does. -/
def answersKey (query : SingleQuery) (response : Message) : Bool :=
  response.messageType == .response && response.opCode == .query
    && (match response.queries with
      | [q] => q.name.toLowercase == query.question.name.toLowercase
          && q.queryType == query.question.queryType && q.queryClass == query.question.queryClass
      | _ => false)
    && response.edns.isNone

def SavedRecord.decode (r : SavedRecord) : Except SnapshotError (SingleQuery × Message × Scope) := do
  ensureThat (decide (0 < r.remainingSecs) && decide (r.remainingSecs ≤ 2 ^ 31 - 1)) .remaining
  ensureThat (!r.key.dnssecOk || r.key.edns) .dnssecFlag
  let wire ← orElse (C.base64Decode r.key.name) .name
  let name ← orElse (P.hickory.nameRead wire) .name
  let canonical ← orElse (P.hickory.nameBytes name.toLowercase) .name
  ensureThat (canonical == wire) .noncanonicalName
  let query := r.key.query name
  ensureThat (Key.of query).isSome .ineligibleKey
  ensureThat (decide (r.wire.length ≤ (Protocol.MAX_MESSAGE + 2) / 3 * 4)) .wireTooLarge
  let bytes ← orElse (C.base64Decode r.wire) .wire
  let response ← orElse (Protocol.decode P.hickory bytes) .wire
  ensureThat (answersKey query response) .questionMismatch
  let scope ← r.scope.decode C
  .ok (query, response, scope)

/-! ## Writing -/

structure Handle where
  shard : Nat
  entry : Entry
  accessed : Nat

/-- The entries of a snapshot, most recently used first. Failures are never saved. -/
def handles (c : Cache) : List Handle :=
  let all := c.shards.zipIdx.flatMap fun (s, i) =>
    [false, true].flatMap fun part =>
      ((s.partitions part).lru.items.filter fun item => item.2.failure.isNone).map fun item =>
        (⟨i, item.2, (s.cells item.2.id).accessed⟩ : Handle)
  all.mergeSort fun a b => decide (b.accessed ≤ a.accessed)

/-- The whole seconds an entry has left: rounded down. -/
def remainingSecs (e : Entry) (now : Nat) : Nat := min ((e.lifetime - e.age now) / second) (2 ^ 32 - 1)

/-- The seconds since it was stored: rounded up. -/
def elapsedSecs (e : Entry) (now : Nat) : Nat := min ((e.age now + (second - 1)) / second) (2 ^ 32 - 1)

def saveEntry (e : Entry) (now : Nat) : Except SnapshotError SavedRecord := do
  let response ← orElse (Protocol.decode P.hickory e.wire) .wire
  let response := ageRecords response (elapsedSecs e now)
  let name ← orElse (P.hickory.nameBytes e.key.name) .encoding
  let wire ← orElse (P.hickory.toVec response) .encoding
  .ok {
    key := {
      name := C.base64 name
      kind := e.key.kind.code
      dnsClass := e.key.dnsClass.code
      dnssecOk := e.key.dnssecOk
      checkingDisabled := e.key.checkingDisabled
      recursionDesired := e.key.recursionDesired
      edns := e.key.edns }
    scope := .ofScope C e.scope
    remainingSecs := remainingSecs e now
    wire := C.base64 wire }

/-- When the caller of a snapshot stops: the flag and the deadline at each entry or line. -/
structure Stops where
  cancel : Nat → Bool := fun _ => false
  late : Nat → Bool := fun _ => false

/-- The lines written so far, with the handles they were made from. -/
structure Written where
  lines : List Bytes := []
  saved : List Handle := []
  report : SnapshotReport := { bytes := HEADER_BYTES }

def writeEntry (now maxBytes : Nat) (w : Written) (h : Handle) : Except SnapshotError Written :=
  let skip := { w with report := { w.report with skipped := w.report.skipped + 1 } }
  if remainingSecs h.entry now = 0 ∨ SNAPSHOT_MAX_RECORDS ≤ w.report.saved then .ok skip
  else do
    let record ← saveEntry P C h.entry now
    let line := C.recordJson record ++ [10]
    if MAX_RECORD_BYTES < line.length ∨ maxBytes < w.report.bytes + line.length then .ok skip
    else .ok {
      lines := w.lines ++ [line]
      saved := w.saved ++ [h]
      report := { w.report with saved := w.report.saved + 1, bytes := w.report.bytes + line.length } }

/-- The writer's loop from a position on. -/
def writeEntries (now maxBytes : Nat) (stops : Stops) : Nat → List Handle → Written → Except SnapshotError Written
  | _, [], w => .ok w
  | position, h :: rest, w =>
    if stops.cancel (position + 1) then .error .cancelled
    else if stops.late position then
      .ok { w with report := { w.report with skipped := w.report.skipped + (rest.length + 1), deadline := true } }
    else do
      let w ← writeEntry P C now maxBytes w h
      writeEntries now maxBytes stops (position + 1) rest w

/-- The header block: its JSON, blanks, and a newline. -/
def headerBlock (json : Bytes) : Bytes := json ++ List.replicate (HEADER_BYTES - 1 - json.length) 32 ++ [10]

/-- `write_clean_snapshot`: the file, the handles of its lines, and the report. -/
def writeCleanSnapshot (c : Cache) (fingerprint : Text) (savedAt : Int) (now maxBytes : Nat) (stops : Stops) :
    Except SnapshotError (Bytes × Written) := do
  ensureThat (!stops.cancel 0) .cancelled
  let entries := handles c
  let w ← writeEntries P C now maxBytes stops 0 entries {}
  let savedAtNs ← timestamp savedAt
  let header : Header := ⟨VERSION, fingerprint, savedAtNs, w.report.saved, []⟩
  let header := { header with checksum := digest P.sha256 w.lines.flatten header }
  let json := C.headerJson header
  ensureThat (decide (json.length < HEADER_BYTES)) .headerTooLarge
  ensureThat (!stops.cancel (entries.length + 1)) .cancelled
  .ok (headerBlock json ++ w.lines.flatten, w)

end Records

end Parins.Cache
