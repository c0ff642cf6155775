/-
The restore of a clean snapshot, and the operations of a cache as a whole. A
restore authenticates the whole file before it admits a record, and takes back
what it admitted when a record does not decode.
-/
import Parins.Cache.Snapshot

namespace Parins.Cache
open Net Lib

/-! ## Scanning the record lines -/

/-- `take(limit).read_until(b'\n', ..)`. -/
def readUntilNewline (limit : Nat) (bytes : Bytes) : Bytes :=
  let bytes := bytes.take limit
  bytes.take ((bytes.takeWhile (· ≠ 10)).length + 1)

section Scan

variable {σ : Type} (stops : Stops) (length : Nat) (visit : σ → Bytes → Option (σ × Option SnapshotError))

/-- `scan` from the line `processed` on, with `left` more announced: how many lines were visited
when the deadline stopped it, with the visitor's state, which an error keeps as well. -/
def scanFrom : Nat → Nat → Nat → Bytes → σ → Option (σ × Except SnapshotError (Option Nat))
  | 0, _, consumed, _, st => some (st, if consumed = length then .ok none else .error .countMismatch)
  | left + 1, processed, consumed, rest, st =>
    if stops.cancel processed then some (st, .error .cancelled)
    else if stops.late processed then some (st, .ok (some processed))
    else
      let line := readUntilNewline (MAX_RECORD_BYTES + 1) rest
      if line.isEmpty ∨ MAX_RECORD_BYTES < line.length ∨ line.getLast? ≠ some 10 then some (st, .error .framing)
      else do
        let (st, failed) ← visit st line
        match failed with
        | some e => some (st, .error e)
        | none => scanFrom left (processed + 1) (consumed + line.length) (rest.drop line.length) st

end Scan

/-! ## Admitting the records -/

/-- What the second pass has done so far. -/
structure Restoring where
  cache : Cache
  position : Nat := 0
  restored : Nat := 0
  skipped : Nat := 0

/-- What the caller of a restore supplies: the clocks, limits and stops, and which entries readers
hold at each record and at the end. -/
structure RestoreCall where
  fingerprint : Text
  nowWall : Int
  now : Nat
  maxBytes : Nat
  authenticating : Stops := {}
  admitting : Stops := {}
  pinned : Nat → Nat → Nat → Bool := fun _ _ _ => false
  pinnedAtEnd : Nat → Nat → Bool := fun _ _ => false

section Restore

variable (P : Platform) (C : Codec)

/-- The visitor of the second pass: one record. -/
def restoreRecord (call : RestoreCall) (records offline : Nat) (st : Restoring) (line : Bytes) :
    Option (Restoring × Option SnapshotError) :=
  let accessed := records - st.position
  let st := { st with position := st.position + 1 }
  match C.parseRecord line with
  | none => some (st, some .record)
  | some record =>
    let remaining := record.remainingSecs - offline
    match record.decode P C with
    | .error e => some (st, some e)
    | .ok (query, response, scope) =>
      if remaining = 0 then some ({ st with skipped := st.skipped + 1 }, none)
      else do
        let (cache, decision) ← st.cache.admitAnswer P (call.pinned st.position) query
          (ageRecords response offline) scope call.now st.cache.epoch (.restore ⟨remaining, accessed⟩)
        if decision.admitted then some ({ st with cache, restored := st.restored + 1 }, none)
        else some ({ st with cache, skipped := st.skipped + 1 }, none)

/-- `unload`: removes what was admitted after each shard's clock reached its floor. -/
def unload (c : Cache) (pinned : Nat → Nat → Bool) (floors : List Nat) : Option Cache :=
  c.forShards fun i l =>
    match floors[i]? with
    | some floor => l.removeAll (pinned i) (l.shard.resident fun e => decide (floor < e.id))
    | none => some l

/-- Every shard's clock at least `records`, so that any later use ranks above the restored ones. -/
def raiseClocks (c : Cache) (records : Nat) : Cache :=
  { c with shards := c.shards.map fun s => { s with clock := max s.clock records } }

/-- The header of a file, when the restore goes on with it, and the seconds since it was saved. -/
def checkHeader (call : RestoreCall) (bytes : Bytes) : Except SnapshotError (Header × Nat) := do
  ensureThat (decide (HEADER_BYTES ≤ bytes.length) && decide (bytes.length ≤ call.maxBytes)) .byteBudget
  let header ← orElse (C.parseHeader (bytes.take HEADER_BYTES)) .header
  ensureThat (header.version == VERSION) .version
  ensureThat (header.fingerprint == call.fingerprint) .policyMismatch
  ensureThat (decide (header.records ≤ SNAPSHOT_MAX_RECORDS)) .recordLimit
  let nowNs ← timestamp call.nowWall
  ensureThat (decide (header.savedAtNs ≤ nowNs)) .clockRollback
  let offline := min ((nowNs - header.savedAtNs + (second - 1)) / second) (2 ^ 32 - 1)
  .ok (header, offline)

/-- The second pass: every record in file order, and everything taken back on an error. -/
def restoreRecords (call : RestoreCall) (c : Cache) (bytes : Bytes) (header : Header) (offline : Nat)
    (report : SnapshotReport) : Option (Cache × Except SnapshotError SnapshotReport) := do
  let c := raiseClocks c header.records
  let floors := c.shards.map Shard.clock
  let (st, outcome) ← scanFrom call.admitting bytes.length (restoreRecord P C call header.records offline)
    header.records 0 HEADER_BYTES (bytes.drop HEADER_BYTES) ⟨c, 0, 0, 0⟩
  let report := { report with restored := st.restored, skipped := report.skipped + st.skipped }
  match outcome with
  | .error e => do
    let c ← unload st.cache call.pinnedAtEnd floors
    some (c, .error e)
  | .ok none => some (st.cache, .ok report)
  | .ok (some processed) =>
    some (st.cache, .ok { report with skipped := report.skipped + (header.records - processed), deadline := true })

def restoreCleanSnapshot (c : Cache) (call : RestoreCall) (cancelled : Bool) (bytes : Bytes) :
    Option (Cache × Except SnapshotError SnapshotReport) :=
  if cancelled then some (c, .error .cancelled)
  else match checkHeader C call bytes with
    | .error e => some (c, .error e)
    | .ok (header, offline) =>
      let report : SnapshotReport := { saved := header.records, bytes := bytes.length }
      -- The first pass hashes the lines and admits nothing.
      match scanFrom call.authenticating bytes.length (fun (hashed : Bytes) line => some (hashed ++ line, none))
          header.records 0 HEADER_BYTES (bytes.drop HEADER_BYTES) [] with
      | none => none
      | some (_, .error e) => some (c, .error e)
      | some (_, .ok (some _)) =>
        some (c, .ok { report with skipped := report.skipped + header.records, deadline := true })
      | some (hashed, .ok none) =>
        if digest P.sha256 hashed header ≠ header.checksum then some (c, .error .checksum)
        else restoreRecords P C call c bytes header offline report

end Restore

end Parins.Cache
