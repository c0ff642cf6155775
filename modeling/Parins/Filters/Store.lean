/-
The store of filter subscriptions: objects, derived indexes and the catalog that
selects objects, behind one writer. Every access to the disk is a command that
may fail; work pins are dropped by their holders at any time.
-/
import Parins.Lib.Program
import Parins.Filters.Catalog
import Mathlib.Logic.Function.Basic

namespace Parins.Filters
open Lib
open Lib.Exec (attempt memory modify ofExcept within fail)

/-- The directories that hold files by name. -/
inductive Dir
  | root
  | objects
  | staging
  | indexes
deriving DecidableEq

structure Files where
  catalog : Option Catalog
  /-- The temporary file, once a whole catalog is in it. -/
  temporary : Option Catalog
  content : Dir → Text → Option Bytes
  pins : Text → Nat

namespace Files

def put (d : Files) (dir : Dir) (name : Text) (content : Option Bytes) : Files :=
  { d with content := Function.update d.content dir (Function.update (d.content dir) name content) }

def dropPin (d : Files) (key : Text) : Files := { d with pins := Function.update d.pins key (d.pins key - 1) }

end Files

inductive Cmd
  | heap
  | pins
  | addPin (key : Text)
  | openCatalog
  | diskBytes
  | createTemporary
  | writeTemporary (catalog : Catalog)
  | renameTemporary
  | removeTemporary
  | check
  | checkDir (dir : Dir)
  | sync
  | io
  | freshName
  | list (dir : Dir)
  | openFile (dir : Dir) (name : Text)
  | create (name : Text)
  | handle (name : Text)
  | produce (name : Text) (maxBytes : Nat)
  | moveTo (name : Text) (dir : Dir) (target : Text)
  | remove (dir : Dir) (name : Text)

/-- What a command answers with if it does not fail. -/
@[reducible] def Ans : Cmd → Type
  | .heap => Heap
  | .pins => Text → Nat
  | .openCatalog => Option Catalog
  | .diskBytes => Nat
  | .freshName => Text
  | .list _ => List (Except Error Text)
  | .openFile .. => Option Bytes
  | .handle _ => Bytes
  | _ => Unit

/-- The environment's part in one command. -/
structure Outcome where
  failure : Option Error := none
  heap : Heap := ⟨fun _ => 0, fun _ => 0⟩
  number : Nat := 0
  name : Text := []
  names : List (Except Error Text) := []
  bytes : Bytes := []
  /-- The pins that are dropped before the command. -/
  drops : List Text := []

namespace Outcome

def report (x : Outcome) (a : α) : Except Error α :=
  match x.failure with
  | none => .ok a
  | some e => .error e

def settle (x : Outcome) (d d' : Files) : Except Error Unit × Files :=
  match x.failure with
  | none => (.ok (), d')
  | some e => (.error e, d)

end Outcome

def missing : Error := ascii "No such file or directory"

/-- One command on the files as they are when it runs. -/
def performNow (x : Outcome) : (c : Cmd) → Files → Except Error (Ans c) × Files
  | .heap, d => (.ok x.heap, d)
  | .pins, d => (.ok d.pins, d)
  | .addPin key, d =>
    if d.pins key + 1 < 2 ^ 64 then (.ok (), { d with pins := Function.update d.pins key (d.pins key + 1) })
    else (.error (ascii "pin count overflow"), d)
  | .openCatalog, d => (x.report d.catalog, d)
  | .diskBytes, d => (x.report x.number, d)
  | .createTemporary, d => (x.report (), { d with temporary := none })
  | .writeTemporary c, d => x.settle d { d with temporary := some c }
  | .renameTemporary, d =>
    match d.temporary with
    | some c => x.settle d { d with catalog := some c, temporary := none }
    | none => (.error missing, d)
  | .removeTemporary, d => x.settle d { d with temporary := none }
  | .check, d => (x.report (), d)
  | .checkDir _, d => (x.report (), d)
  | .sync, d => (x.report (), d)
  | .io, d => (x.report (), d)
  | .freshName, d => (.ok x.name, d)
  | .list _, d => (x.report x.names, d)
  | .openFile dir name, d => (x.report (d.content dir name), d)
  | .create name, d =>
    if (d.content .staging name).isSome then (.error (ascii "File exists"), d)
    else x.settle d (d.put .staging name (some []))
  -- the path of an open file may lead to another one by now
  | .handle _, d => (x.report x.bytes, d)
  | .produce name maxBytes, d =>
    ((x.report ()).bind fun _ =>
        if x.bytes.length ≤ maxBytes then .ok () else .error (ascii "derived index reservation exceeded"),
      d.put .staging name (some (x.bytes.take maxBytes)))
  | .moveTo name dir target, d =>
    match d.content .staging name with
    | some content => x.settle d ((d.put .staging name none).put dir target (some content))
    | none => (.error missing, d)
  | .remove dir name, d => x.settle d (d.put dir name none)

/-- One command: pins may be dropped up to it. -/
def perform (x : Outcome) (c : Cmd) (d : Files) : Except Error (Ans c) × Files :=
  performNow x c (x.drops.foldl Files.dropPin d)

/-- What a command may answer and leave. -/
def effect (c : Cmd) (d : Files) (r : Except Error (Ans c)) (d' : Files) : Prop := ∃ x, perform x c d = (r, d')

/-! ### The writer -/

structure Store where
  catalog : Catalog
  quota : Nat
  uncertain : Bool := false
  /-- A staging file is out. -/
  staging : Bool := false

inductive CommitOutcome
  | durable
  | committedUncertain
deriving DecidableEq

/-- A staging file that is reserved; `own` if it is of this store. -/
structure Staging where
  path : Text
  reserved : Nat
  own : Bool := true

structure PreparedMetadata where
  fingerprint : Text
  sha256 : Text
  bytes : Nat
  rules : Nat
  validators : Validators

abbrev Writer := Exec Cmd Ans Store Error

def call (c : Cmd) : Exec Cmd Ans M Error (Ans c) := Exec.call c

/-- `ensure!` inside a call. -/
def require (cond : Bool) (text : String) : Writer Unit := ofExcept (ensure cond text)

def doWhen (cond : Bool) (p : Writer Unit) : Writer Unit := if cond then p else pure ()

def quietly (c : Cmd) : Writer Unit := do
  let _ ← attempt (call c)
  pure ()

def objectName (hash : Text) : Text := hash ++ ascii ".txt"
def indexName (digest : Text) : Text := digest ++ ascii ".bin"
def indexKey (digest : Text) : Text := ascii "index:" ++ digest

/-- The digest in a file name, if it is one of the store's. -/
def ownedName (suffix name : Text) : Option Text :=
  if suffix <:+ name ∧ validHash (name.take (name.length - suffix.length)) then
    some (name.take (name.length - suffix.length))
  else none

def hexDigit (b : UInt8) : UInt8 := if b ≤ 57 then b - 48 else b - 87

def hexBytes : Text → Bytes
  | a :: b :: rest => (16 * hexDigit a + hexDigit b) :: hexBytes rest
  | _ => []

/-- The fixed prefix and the digest stand at the head. -/
def ownedIndex (content : Bytes) (digest : Text) : Bool :=
  content.length ≤ MAX_INDEX && 48 ≤ content.length && content.take 16 == Policy.derivedPrefix &&
    (content.drop 16).take 32 == hexBytes digest

def certain : Writer Unit := do require (!(← memory).uncertain) "catalog durability requires reconciliation"

section Calls
variable (lib : Library)

def hashFile (content : Bytes) : Writer Text := do
  call .io
  require (content.length ≤ MAX_OBJECT) "source object too large"
  return lib.sha content

def verifyFile (content : Bytes) (record : SourceRecord) : Writer Unit := do
  call .io
  require (content.length == record.bytes) "source object size mismatch"
  require ((← hashFile lib content) == record.sha256) "source object digest mismatch"

def verifiedObject (record : SourceRecord) : Writer Unit := do
  call (.checkDir .objects)
  match ← call (.openFile .objects (objectName record.sha256)) with
  | none => fail (ascii "subscription_material_missing")
  | some content => verifyFile lib content record

/-- The commit proper: the temporary file becomes the catalog. -/
def replaceCatalog (candidate : Catalog) (checked : Bool) : Writer CommitOutcome := do
  call .createTemporary
  call (.writeTemporary candidate)
  call .io
  doWhen checked (call .check)
  call .renameTemporary
  modify fun s => { s with catalog := candidate }
  let sync ← attempt (call .sync)
  modify fun s => { s with uncertain := sync.toOption.isNone }
  return if sync.toOption.isNone then .committedUncertain else .durable

def commitCatalogWithCheck (candidate : Catalog) (checked : Bool) : Writer CommitOutcome := do
  let heap ← call .heap
  ofExcept (validateCatalog lib heap candidate)
  require (lib.jsonLength candidate ≤ MAX_CATALOG) "catalog exceeds 256 KiB"
  let _ ← call .openCatalog
  let used ← call .diskBytes
  let quota := (← memory).quota
  require (used + lib.jsonLength candidate < 2 ^ 64 && used + lib.jsonLength candidate ≤ quota)
    "subscription disk budget exceeded"
  let result ← attempt (replaceCatalog candidate checked)
  quietly .removeTemporary
  ofExcept result

def commitCatalog (candidate : Catalog) : Writer CommitOutcome := commitCatalogWithCheck lib candidate false

def commitSelectionWithCheck (candidate : Catalog) (checked : Bool) : Writer CommitOutcome := do
  let store ← memory
  let candidate ← ofExcept (if candidate.sameChoices store.catalog then .ok candidate else candidate.bump)
  commitCatalogWithCheck lib candidate checked

/-- `trim_prepared` with the pins as they are. -/
def trim (retain : List Text) (candidate : Catalog) : Writer Catalog := do
  let pins ← call .pins
  ofExcept (candidate.trimPrepared (fun hash => 0 < pins hash) retain)

/-- The loop over the candidates; `seen` are the fingerprints before. -/
def verifyCandidates (seen : List Text) : List SourceRecord → Writer Unit
  | [] => pure ()
  | record :: rest => do
    let heap ← call .heap
    ofExcept (validateRecord lib heap record)
    require (!seen.contains record.fingerprint) "duplicate candidate fingerprint"
    verifiedObject lib record
    verifyCandidates (record.fingerprint :: seen) rest

def commitBatchWithCheck (records : List SourceRecord) (statuses : List (Text × SourceStatus))
    (expectedRevision : Nat) : Writer CommitOutcome := do
  certain
  let store ← memory
  require (store.catalog.contentRevision == expectedRevision) "subscription content revision conflict"
  require (records.length ≤ 16) "too many candidate sources"
  verifyCandidates lib [] records
  require (statuses.length ≤ 16) "too many candidate statuses"
  let candidate ← trim (records.map (·.fingerprint)) (store.catalog.replace records statuses)
  commitSelectionWithCheck lib candidate true

def setReferences (current previous : List Text) : Writer CommitOutcome := do
  certain
  ofExcept (validateReferences current)
  ofExcept (validateReferences previous)
  let store ← memory
  let candidate ← trim [] { store.catalog with current := current, previous := previous }
  commitSelectionWithCheck lib candidate false

def updateStatus (fingerprint : Text) (status : SourceStatus) : Writer CommitOutcome := do
  certain
  let store ← memory
  if store.catalog.records.any (·.fingerprint == fingerprint) then
    commitCatalog lib { store.catalog with records := Catalog.setStatus fingerprint status store.catalog.records }
  else fail (ascii "subscription_material_missing")

/-- Valid content-addressing establishes that an orphan is the store's. -/
def ownedObject (content : Bytes) (hash : Text) : Writer Bool :=
  if content.length ≤ MAX_OBJECT then (· == hash) <$> hashFile lib content else pure false

/-- The loop over the objects: those that nothing names and whose content is theirs go. -/
def collectObjects (keep : Text → Bool) : List (Except Error Text) → Writer Unit
  | [] => pure ()
  | entry :: rest => do
    let name ← ofExcept entry
    match ownedName (ascii ".txt") name with
    | none => collectObjects keep rest
    | some hash =>
      if keep hash then collectObjects keep rest
      else do
        match ← call (.openFile .objects name) with
        | none => collectObjects keep rest
        | some content => do
          call .io
          doWhen (← ownedObject lib content hash) (call (.remove .objects name))
          collectObjects keep rest

def collectIndexes (pins : Text → Nat) : List (Except Error Text) → Writer Unit
  | [] => pure ()
  | entry :: rest => do
    let name ← ofExcept entry
    match ownedName (ascii ".bin") name with
    | none => collectIndexes pins rest
    | some digest =>
      if 0 < pins (indexKey digest) then collectIndexes pins rest
      else do
        match ← call (.openFile .indexes name) with
        | none => collectIndexes pins rest
        | some content => do
          call .io
          doWhen (ownedIndex content digest) (call (.remove .indexes name))
          collectIndexes pins rest

def collectOrphans : Writer Unit := do
  certain
  let pins ← call .pins
  let store ← memory
  collectObjects lib (fun hash => store.catalog.records.any (·.sha256 == hash) || 0 < pins hash) (← call (.list .objects))
  call .sync
  collectIndexes pins (← call (.list .indexes))
  call .sync

/-- The records that a collection keeps. -/
def Catalog.kept (c : Catalog) (pinned : Text → Bool) (now : Nat) (pressure : Bool) : List SourceRecord :=
  c.records.filter fun r =>
    c.referenced r.fingerprint || pinned r.sha256 || (!pressure && now - r.preparedAt < PREPARED_TTL)

/-- A collection that drops records commits the catalog first. -/
def dropRecords (records : List SourceRecord) : Writer CommitOutcome := do
  let store ← memory
  if records.length != store.catalog.records.length then do
    let candidate ← ofExcept { store.catalog with records := records }.bump
    commitCatalog lib candidate
  else return .durable

def collect (now : Nat) (pressure : Bool) : Writer Unit := do
  certain
  require ((← call .diskBytes) ≤ 2 * 1024 * 1024 * 1024)
    "subscription storage exceeds hard disk limit; manual recovery required"
  let pins ← call .pins
  let store ← memory
  match ← dropRecords lib (store.catalog.kept (fun hash => 0 < pins hash) now pressure) with
  | .committedUncertain => pure ()
  | .durable => collectOrphans lib

/-! ### Staging -/

def hasStagingSpace (reserveBytes : Nat) : Writer Bool := do
  let used ← call .diskBytes
  return used + (reserveBytes + MAX_CATALOG) < 2 ^ 64 && used + (reserveBytes + MAX_CATALOG) ≤ (← memory).quota

def shortOfSpace (needsDownload : Bool) : Writer Bool :=
  if needsDownload then (!·) <$> hasStagingSpace MAX_OBJECT else pure false

def collectForDownload (now : Nat) (needsDownload : Bool) : Writer Unit := do
  collect lib now false
  doWhen (← shortOfSpace needsDownload) (collect lib now true)
  certain

def beginReserved (reserveBytes max : Nat) (kind : String) : Writer Staging := do
  certain
  require (!(← memory).staging) "subscription preparation already running"
  require (1 ≤ reserveBytes && reserveBytes ≤ max) "invalid staging reservation"
  collectOrphans lib
  certain
  require (← hasStagingSpace reserveBytes) "subscription disk budget exceeded"
  let path := ascii kind ++ ascii "-" ++ (← call .freshName) ++ ascii ".tmp"
  call (.create path)
  modify fun s => { s with staging := true }
  return { path := path, reserved := reserveBytes }

def beginStaging (reserveBytes : Nat) : Writer Staging := beginReserved lib reserveBytes MAX_OBJECT "download"

/-- `Drop` of a staging file that is completed. -/
def release (stage : Staging) : Writer Unit := do
  quietly (.remove .staging stage.path)
  modify fun s => { s with staging := false }

def discard (stage : Staging) : Writer Unit := do
  require stage.own "foreign staging file"
  release stage

def PreparedMetadata.record (m : PreparedMetadata) (now : Nat) : SourceRecord where
  fingerprint := m.fingerprint
  sha256 := m.sha256
  bytes := m.bytes
  rules := m.rules
  validators := m.validators
  preparedAt := now
  status := { lastAttempt := some now }

/-- The staged file becomes the object. -/
def publishObject (stage : Staging) (hash : Text) : Writer Unit := do
  call (.moveTo stage.path .objects (objectName hash))
  call .sync
  call .sync

def installStaged (stage : Staging) (record : SourceRecord) : Writer Unit := do
  certain
  let heap ← call .heap
  ofExcept (validateRecord lib heap record)
  require (record.bytes ≤ stage.reserved) "staging reservation exceeded"
  verifyFile lib (← call (.handle stage.path)) record
  match ← call (.openFile .staging stage.path) with
  | none => fail (ascii "staging object missing")
  | some content => do
    verifyFile lib content record
    call .io
    match ← call (.openFile .objects (objectName record.sha256)) with
    | none => publishObject stage record.sha256
    | some object => do
      match ← attempt (verifyFile lib object record) with
      | .ok () => pure ()
      | .error _ => do
        -- only an object that the catalog selects is repaired
        require ((← memory).catalog.records.any (·.sha256 == record.sha256))
          "unowned corrupt object; manual recovery required"
        publishObject stage record.sha256

def installObject (stage : Staging) (metadata : PreparedMetadata) (now : Nat) : Writer SourceRecord := do
  require stage.own "foreign staging file"
  let result ← attempt (installStaged lib stage (metadata.record now))
  release stage
  ofExcept result
  return metadata.record now

/-- The part of `write_index` that holds the staging file. -/
def writeStaged (stage : Staging) (digest : Text) (maxBytes : Nat) : Writer CommitOutcome := do
  call (.produce stage.path maxBytes)
  call .io
  require (ownedIndex (← call (.handle stage.path)) digest) "invalid derived index ownership"
  call .io
  let _ ← call (.openFile .indexes (indexName digest))
  call (.moveTo stage.path .indexes (indexName digest))
  let first ← attempt (call .sync)
  match first with
  | .error _ => return .committedUncertain
  | .ok () => do
    let second ← attempt (call .sync)
    return if second.toOption.isNone then .committedUncertain else .durable

def writeIndex (digest : Text) (maxBytes : Nat) : Writer CommitOutcome := do
  require (validHash digest) "invalid index digest"
  let stage ← beginReserved lib maxBytes MAX_INDEX "index"
  let result ← attempt (writeStaged stage digest maxBytes)
  release stage
  ofExcept result

/-! ### Pins, quota, reconciliation -/

def pin (sha256 : Text) : Writer Unit := do
  require (validHash sha256) "invalid object digest"
  match ← call (.openFile .objects (objectName sha256)) with
  | none => fail (ascii "subscription_material_missing")
  | some content => do
    require ((← hashFile lib content) == sha256) "source object digest mismatch"
    call (.addPin sha256)

def readIndex (digest : Text) (maxBytes : Nat) : Writer (Option Bytes) := do
  require (validHash digest) "invalid index digest"
  require (1 ≤ maxBytes && maxBytes ≤ MAX_INDEX) "invalid index limit"
  call (.checkDir .indexes)
  match ← call (.openFile .indexes (indexName digest)) with
  | none => return none
  | some content => do
    call .io
    require (content.length ≤ maxBytes) "derived index exceeds limit"
    call .io
    require (ownedIndex content digest) "invalid derived index ownership"
    return some content

def pinIndex (digest : Text) : Writer Unit := do
  match ← readIndex digest MAX_INDEX with
  | none => fail (ascii "derived index missing")
  | some _ => call (.addPin (indexKey digest))

def setQuota (maxDisk : Nat) : Writer Unit := do
  require ((← call .diskBytes) ≤ maxDisk) "subscription disk budget exceeded"
  modify fun s => { s with quota := maxDisk }

/-- `read_catalog` of the file that was opened. -/
def readCatalog (catalog : Catalog) : Exec Cmd Ans M Error Catalog := do
  ofExcept (ensure (lib.jsonLength catalog ≤ MAX_CATALOG) "catalog exceeds 256 KiB")
  call .io
  let heap ← call .heap
  ofExcept (validateCatalog lib heap catalog)
  return catalog

def reconcileSync : Writer Unit := do
  match ← call .openCatalog with
  | none => fail (ascii "catalog missing")
  | some file => do
    let actual ← readCatalog lib file
    call .sync
    modify fun s => { s with catalog := actual, uncertain := false }

/-! ### Opening -/

/-- A temporary file of the store, by its name. -/
def ownedTemporary (kind : String) (name : Text) : Bool :=
  decide (ascii kind <+: name) && (ownedName (ascii ".tmp") (name.drop kind.length)).isSome

/-- Temporary files of an earlier process go. -/
def cleanup (dir : Dir) (kind : String) : List (Except Error Text) → Writer Unit
  | [] => pure ()
  | entry :: rest => do
    let name ← ofExcept entry
    if ownedTemporary kind name then do
      match ← call (.openFile dir name) with
      | none => cleanup dir kind rest
      | some _ => do
        call (.remove dir name)
        cleanup dir kind rest
    else cleanup dir kind rest

def cleanupStaging : Writer Unit := do
  cleanup .staging "download-" (← call (.list .staging))
  cleanup .staging "index-" (← call (.list .staging))
  cleanup .root "catalog-" (← call (.list .root))

/-- A new catalog is written at once. -/
def firstCommit (isNew : Bool) : Writer CommitOutcome := do
  let store ← memory
  if isNew then commitCatalog lib store.catalog else pure .durable

/-- The rest of `open`, with the catalog read or new. -/
def finishOpen (isNew : Bool) : Writer Unit := do
  let store ← memory
  let outcome ← firstCommit lib isNew
  require (outcome == .durable) "initial catalog durability uncertain; reopen required"
  call (.checkDir .objects)
  call (.checkDir .staging)
  call (.checkDir .indexes)
  require ((← call .diskBytes) ≤ 2 * 1024 * 1024 * 1024)
    "subscription storage exceeds hard disk limit; manual recovery required"
  cleanupStaging
  require ((← call .diskBytes) ≤ store.quota) "subscription disk budget exceeded"

/-- `Store::open`. -/
def openStore (maxDisk : Nat) : Exec Cmd Ans Unit Error Store := do
  call (.checkDir .objects)
  call .io
  match ← call .openCatalog with
  | some file => do
    let catalog ← readCatalog lib file
    within { catalog := catalog, quota := maxDisk } do
      finishOpen lib false
      memory
  | none => do
    -- a catalog may be absent only before any other state existed
    call .io
    within { catalog := {}, quota := maxDisk } do
      finishOpen lib true
      memory

/-! ### Runs -/

inductive Op
  | beginStaging (reserveBytes : Nat)
  | collectForDownload (now : Nat) (needsDownload : Bool)
  | installObject (stage : Staging) (metadata : PreparedMetadata) (now : Nat)
  | commitBatchWithCheck (records : List SourceRecord) (statuses : List (Text × SourceStatus)) (expectedRevision : Nat)
  | setReferences (current previous : List Text)
  | updateStatus (fingerprint : Text) (status : SourceStatus)
  | discard (stage : Staging)
  | pin (sha256 : Text)
  | pinIndex (digest : Text)
  | writeIndex (digest : Text) (maxBytes : Nat)
  | reconcileSync
  | collect (now : Nat) (pressure : Bool)
  | setQuota (maxDisk : Nat)

def ignore (p : Writer α) : Writer Unit := do
  let _ ← p
  pure ()

def Op.program : Op → Writer Unit
  | .beginStaging reserveBytes => ignore (Filters.beginStaging lib reserveBytes)
  | .collectForDownload now needsDownload => Filters.collectForDownload lib now needsDownload
  | .installObject stage metadata now => ignore (Filters.installObject lib stage metadata now)
  | .commitBatchWithCheck records statuses expectedRevision =>
    ignore (Filters.commitBatchWithCheck lib records statuses expectedRevision)
  | .setReferences current previous => ignore (Filters.setReferences lib current previous)
  | .updateStatus fingerprint status => ignore (Filters.updateStatus lib fingerprint status)
  | .discard stage => Filters.discard stage
  | .pin sha256 => Filters.pin lib sha256
  | .pinIndex digest => Filters.pinIndex digest
  | .writeIndex digest maxBytes => ignore (Filters.writeIndex lib digest maxBytes)
  | .reconcileSync => Filters.reconcileSync lib
  | .collect now pressure => Filters.collect lib now pressure
  | .setQuota maxDisk => Filters.setQuota maxDisk

structure System where
  store : Store
  files : Files

def Op.Returns (op : Op) (s : System) (out : Except Error Unit) (s' : System) : Prop :=
  (op.program lib s.store).Returns effect s.files (out, s'.store) s'.files

inductive System.Step : System → System → Prop
  | call (op : Op) (out : Except Error Unit) (returns : op.Returns lib s out s') : Step s s'
  | dropPin (key : Text) : Step s { s with files := s.files.dropPin key }

def System.Opened (maxDisk : Nat) (s : System) : Prop :=
  ∃ files, (openStore lib maxDisk ()).Returns effect files (.ok s.store, ()) s.files

end Calls

end Parins.Filters
