/-
The root helper: one execution takes the request in the inbox, or recovers what
an earlier execution left. The journal in memory is the program's own and goes
on from a write that failed.
-/
import Parins.Update.Disk

namespace Parins.Update
open Lib
open Lib.Exec (attempt memory modify ofExcept within fail)

/-- The helper with the journal in memory. -/
abbrev Helper := Exec Cmd Ans Journal Error

def call (c : Cmd) : Exec Cmd Ans M Error (Ans c) := Exec.call c

def bail (text : String) : Helper α := fail (.message (ascii text))

def require (cond : Bool) (text : String) : Helper Unit := ofExcept (ensure cond text)

def doWhen (cond : Bool) (p : Helper Unit) : Helper Unit := if cond then p else pure ()

/-- `journal.operation.context("missing operation")`. -/
def theOperation : Helper Operation := do
  match (← memory).operation with
  | some op => return op
  | none => bail "missing operation"

def Journal.setOperation (f : Operation → Operation) (j : Journal) : Journal := { j with operation := j.operation.map f }

def unixMs : Helper Nat := call .clock

def publish : Helper Unit := do
  let now ← unixMs
  let journal ← memory
  call (.publish (journal.status now))

def persist : Helper Unit := do
  let journal ← memory
  call (.saveJournal journal)
  publish

def Operation.enter (op : Operation) (phase : Phase) (now : Nat) : Operation :=
  { op with status := { op.status with phase := phase, updatedAtMs := now } }

def phase (phase : Phase) : Helper Unit := do
  let _ ← theOperation
  let now ← unixMs
  modify (·.setOperation (·.enter phase now))
  persist

def finish (phase : Phase) (reason : Option Text) : Helper Unit := do
  let now ← unixMs
  modify (·.finish phase reason now)
  persist

def terminalFence (j : Journal) (inbox : Inbox) : Except Error Bool :=
  let statuses := (j.operation.map (·.status)).toList ++ j.lastOperation.toList
  match statuses.find? fun status => status.operationId == inbox.operationId with
  | some status => do
    ensure (status.phaseNonce == inbox.phaseNonce) "unknown operation phase"
    return status.phase.terminal
  | none => .ok false

def matching (j : Journal) (inbox : Inbox) : Except Error Operation :=
  match j.operation with
  | none => .error (.message (ascii "unknown operation"))
  | some op => do
    ensure (op.status.isFor inbox.operationId inbox.phaseNonce) "unknown operation phase"
    return op

/-- A terminal for an operation that root never began. -/
def fenceStatus (inbox : Inbox) (phase : Phase) (version reason : Text) (total now : Nat) : OperationStatus where
  operationId := inbox.operationId
  phaseNonce := inbox.phaseNonce
  phase := phase
  version := version
  reason := some reason
  updatedAtMs := now
  downloadedBytes := 0
  totalBytes := total

/-- Store a terminal beside the operation that owns the installation. -/
def storeLast (inbox : Inbox) (phase : Phase) (version reason : Text) (total : Nat) : Helper Unit := do
  let now ← unixMs
  modify fun j => { j with lastOperation := some (fenceStatus inbox phase version reason total now) }
  persist

/-- The rest of `abort` for the operation that the journal holds. -/
def abortOwn (inbox : Inbox) : Helper Unit := do
  let op ← ofExcept (matching (← memory) inbox)
  doWhen op.status.phase.precommit (finish .aborted (some (ascii "aborted")))
  publish

def abort (inbox : Inbox) : Helper Unit := do
  let journal ← memory
  if ← ofExcept (terminalFence journal inbox) then publish
  else if journal.operation.all (·.status.operationId != inbox.operationId) then
    -- root never began it: the fence refuses a late Stage
    storeLast inbox .aborted [] (ascii "aborted") 0
  else abortOwn inbox

structure StageRequest where
  inbox : Inbox
  download : DownloadTuple
  currentSha256 : Text
  invocationId : Text
  configRevision : Nat
  version : Text

namespace StageRequest

def parse (inbox : Inbox) : Except Error StageRequest :=
  match inbox.request with
  | .stage download currentSha256 invocationId configRevision =>
    match Version.parseTag download.tag with
    | .ok version => .ok ⟨inbox, download, currentSha256, invocationId, configRevision, version.toText⟩
    | .error e => .error (.contract e)
  | _ => .error (.message (ascii "not a stage request"))

end StageRequest

def rejectStage (request : StageRequest) (reason : Text) : Helper Unit :=
  storeLast request.inbox .failed request.version reason request.download.size

/-- Why an unknown Stage is refused. -/
def stageRefusal (j : Journal) (now : Nat) : Option Text :=
  if j.installationPending.isSome then some (ascii "installation_pending")
  else
    match j.operation with
    | none => none
    | some op =>
      if !op.status.phase.terminal then some (ascii "update_in_progress")
      else if op.status.phase = .manualRequired then some (ascii "manual_recovery_required")
      else if now - op.startedAtMs < 60000 then some (ascii "rate_limited")
      else none

/-- The gate for an operation that the journal does not hold. -/
def stageUnknown (request : StageRequest) (now : Nat) : Helper Bool := do
  let journal ← memory
  if ← ofExcept (terminalFence journal request.inbox) then do
    publish
    return false
  else
    match stageRefusal journal now with
    | some reason => do
      rejectStage request reason
      return false
    | none => return true

/-- The operation of the journal has the parameters of the request. -/
def stageMatches (request : StageRequest) (op : Operation) : Bool :=
  op.status.phaseNonce == request.inbox.phaseNonce && op.invocationId == request.invocationId &&
  op.configRevision == request.configRevision && op.old.sha256 == request.currentSha256 &&
  op.candidate.sha256 == request.download.sha256

def stageGate (request : StageRequest) (now : Nat) : Helper Bool := do
  require (validSha256 request.download.sha256) "invalid candidate digest"
  match (← memory).operation.filter (·.status.operationId == request.inbox.operationId) with
  | some op => do
    require (stageMatches request op) "phase parameters mismatch"
    publish
    return false
  | none => stageUnknown request now

/-- The operation that a Stage begins. -/
def stagedOperation (j : Journal) (request : StageRequest) (now : Nat) : Operation where
  status := {
    operationId := request.inbox.operationId
    phaseNonce := request.inbox.phaseNonce
    phase := .accepted
    version := request.version
    reason := none
    updatedAtMs := now
    downloadedBytes := 0
    totalBytes := request.download.size }
  old := j.installed
  candidate := { build := { j.installed.build with version := request.version }, sha256 := request.download.sha256 }
  invocationId := request.invocationId
  configRevision := request.configRevision
  startedAtMs := now
  rollbackAttempted := false
  rollbackStarted := false
  pendingLaunch := none

def beginStage (request : StageRequest) (now : Nat) : Helper Unit := do
  modify fun j => { j with
    lastOperation := j.operation.map (·.status)
    operation := some (stagedOperation j request now) }
  persist

def clearStaging (id : Text) : Helper Unit := do
  match ← attempt (call (.openDir id)) with
  | .error _ => pure ()
  | .ok () => do
    call (.removeFile id .candidatePart)
    call (.removeFile id .candidate)
    call (.removeFile id .previous)
    call (.removeFile id .rollback)
    call (.removeDir id)

/-- The last gates of a Stage: a reason to refuse it, or none. -/
def admitted (request : StageRequest) (units : Except Error Unit) : Helper (Option Text) := do
  ofExcept units
  let journal ← memory
  if journal.installed.sha256 != request.currentSha256 then return some (ascii "config_changed")
  else if (← call .actualHash) != request.currentSha256 then return some (ascii "config_changed")
  else if (← call .service).get "InvocationID" != some request.invocationId then return some (ascii "config_changed")
  else
    match journal.operation with
    | none => return none
    | some op => do
      clearStaging op.status.operationId
      return none

/-- The identity that a manifest gives to its artifact. -/
def candidateIdentity (installed : BuildInfo) (m : Manifest) (artifact : Artifact) : InstalledIdentity where
  build := {
    version := m.version
    target := artifact.target
    sourceCommit := m.sourceCommit
    officialRelease := true
    updateProtocol := m.updateProtocol
    helperProtocol := installed.helperProtocol
    installContract := m.installContract
    durableContractEpoch := m.durableContractEpoch
    runtimeDatabaseFormat := m.runtimeDatabaseFormat
    cacheSnapshotFormat := m.cacheSnapshotFormat
    cacheSemantics := m.cacheSemantics }
  sha256 := artifact.sha256

/-- The artifact that was confirmed is the one that the manifest names. -/
def checkManifest (installed : BuildInfo) (download : DownloadTuple) (document : ManifestDocument) :
    Except ContractError InstalledIdentity := do
  if document.sha256 != download.manifestSha256 then throw .releaseChanged
  document.manifest.checkCompatible installed HELPER_PROTOCOL
  let artifact ← document.manifest.artifactFor installed.target
  if artifact.name != download.assetName || artifact.size != download.size || artifact.sha256 != download.sha256 then
    throw .releaseChanged
  return candidateIdentity installed document.manifest artifact

/-- `let _ = self.publish(journal)`. -/
def publishQuietly : Helper Unit := do
  let _ ← attempt publish
  pure ()

/-- The bytes that have come in, and a new public status each second. -/
def reportProgress : List (Nat × Bool) → Helper Unit
  | [] => pure ()
  | (size, due) :: rest => do
    modify (·.setOperation fun op => { op with status := { op.status with downloadedBytes := size } })
    doWhen due publishQuietly
    reportProgress rest

/-- From an accepted Stage to a staged candidate. -/
def fetchCandidate (request : StageRequest) : Helper Unit := do
  let document ← call (.manifest request.download.tag)
  let installed := (← memory).installed.build
  let candidate ← ofExcept ((checkManifest installed request.download document).mapError .contract)
  modify (·.setOperation fun op => { op with candidate := candidate })
  call .space
  call (.createDir request.inbox.operationId)
  phase .downloading
  call (.createFile request.inbox.operationId .candidatePart)
  reportProgress (← call .progress)
  call (.download request.inbox.operationId request.download)
  call (.validateElf request.inbox.operationId)
  call (.seal request.inbox.operationId)
  call (.promote request.inbox.operationId)
  phase .staged

/-- Once begun, a Stage that fails is recorded as failed. -/
def runStage (request : StageRequest) : Helper Unit := do
  let now ← unixMs
  beginStage request now
  match ← attempt (fetchCandidate request) with
  | .ok () => pure ()
  | .error e => do
    finish .failed (some (failureCode e))
    fail e

def stage (request : StageRequest) (units : Except Error Unit) : Helper Unit := do
  let now ← unixMs
  if ← stageGate request now then
    match ← attempt (admitted request units) with
    | .ok none => runStage request
    | .ok (some reason) => rejectStage request reason
    | .error e => do
      rejectStage request (failureCode e)
      fail e
  else pure ()

def candidateDir : Helper Text := do
  let op ← theOperation
  call (.openDir op.status.operationId)
  return op.status.operationId

def copyLiveToBackup : Helper Unit := do
  let dir ← candidateDir
  let op ← theOperation
  require ((← call .actualHash) == op.old.sha256) "unexpected installed binary"
  call .openLive
  call (.createFile dir .previous)
  call (.copyLive dir)
  require ((← call (.hashFile dir .previous)) == op.old.sha256) "backup hash mismatch"

/-- The launch that a phase starts: the candidate, or the old program again. -/
def Operation.launching (op : Operation) (phase : Phase) (nonce : Text) : Operation :=
  { op with
    pendingLaunch := some {
      operationId := op.status.operationId
      launchNonce := nonce
      identity := if phase = .starting then op.candidate else op.old
      skipCacheRestore := phase ≠ .starting
      phase := phase
      phaseNonce := op.status.phaseNonce
      initialized := true }
    status := { op.status with phase := phase } }

def launch (phase : Phase) : Helper Unit := do
  let _ ← theOperation
  let nonce ← call .nonce
  modify (·.setOperation (·.launching phase nonce))
  persist

def waitReady : Helper Unit := do
  let op ← theOperation
  match op.pendingLaunch with
  | none => bail "missing pending launch"
  | some pending => call (.wait pending op.configRevision)

def stopClean : Helper Unit := do
  call (.control .stop)
  let p ← call .service
  require (p.get "MainPID" == some (ascii "0") && p.get "Result" == some (ascii "success") &&
    p.get "ExecMainCode" == some (ascii "1") && p.get "ExecMainStatus" == some (ascii "0")) "unclean_shutdown"

/-- Stop what runs, unless the host is only booting. -/
def rollbackStop : Helper Unit := do
  let _ ← attempt (call (.control .stop))
  require ((← call .service).get "MainPID" == some (ascii "0")) "old process has not exited"

def restorePrevious (old : InstalledIdentity) : Helper Unit := do
  let dir ← candidateDir
  require ((← call (.hashFile dir .previous)) == old.sha256) "backup identity changed"
  -- the only verified copy stays until the terminal is durable
  call (.removeFile dir .rollback)
  call (.createFile dir .rollback)
  call (.copyPrevious dir)
  call (.install dir .rollback)

/-- Start the old program and judge it. -/
def restartOld (reason : Text) : Helper Unit := do
  modify (·.setOperation fun op => { op with rollbackStarted := true })
  persist
  match ← attempt (do call (.control .start); waitReady) with
  | .ok () => finish .rolledBack (some reason)
  | .error _ => finish .manualRequired (some (ascii "readiness_failed"))

/-- The part of a rollback after its admission. -/
def rollBack (op : Operation) (actual reason : Text) (boot : Bool) : Helper Unit := do
  modify (·.setOperation fun op => { op with rollbackAttempted := true })
  phase .rollingBack
  doWhen (!boot) rollbackStop
  doWhen (actual != op.old.sha256) (restorePrevious op.old)
  launch (if boot then .awaitingReadiness else .rollingBack)
  doWhen (!boot) (restartOld reason)

def rollback (reason : Text) (boot : Bool) : Helper Unit := do
  let op ← theOperation
  require (!op.rollbackStarted || boot) "rollback start already attempted; manual recovery required"
  let actual ← call .actualHash
  require (actual == op.old.sha256 || actual == op.candidate.sha256) "unknown live binary; manual recovery required"
  rollBack op actual reason boot

/-- What a commit checks and copies before its first durable step. -/
def verifyCommit : Helper Text := do
  let op ← theOperation
  require ((← call .actualHash) == op.old.sha256) "installed identity changed"
  let dir ← candidateDir
  require ((← call (.hashFile dir .candidate)) == op.candidate.sha256) "candidate changed"
  copyLiveToBackup
  return dir

/-- Install the candidate and wait until it is ready; success and the new identity are one write. -/
def installCandidate (dir : Text) : Helper Unit := do
  call (.install dir .candidate)
  launch .starting
  call (.control .start)
  phase .validating
  waitReady
  let now ← unixMs
  let journal ← ofExcept ((← memory).commit now)
  modify fun _ => journal
  persist

/-- An installation that failed before its terminal is rolled back. -/
def afterInstall (result : Except Error Unit) : Helper Unit := do
  let journal ← memory
  if result.toOption.isNone && journal.operation.any (!·.status.phase.terminal) then
    rollback (ascii "readiness_failed") false
  else pure ()

def commit : Helper Unit := do
  match ← attempt verifyCommit with
  | .error e => do
    finish .failed (some (failureCode e))
    fail e
  | .ok dir => do
    phase .committing
    phase .stopping
    match ← attempt stopClean with
    | .error _ => rollback (ascii "unclean_shutdown") false
    | .ok () => do
      let result ← attempt (installCandidate dir)
      afterInstall result
      ofExcept result

def commitService (invocationId : Text) (current : Except Error Service) : Helper Bool := do
  match current with
  | .error e => do
    finish .failed (some (failureCode e))
    fail e
  | .ok info =>
    if info.get "InvocationID" != some invocationId || info.get "ActiveState" != some (ascii "active") then do
      finish .failed (some (ascii "config_changed"))
      return false
    else return true

def commitStaged (op : Operation) (invocationId : Text) (units : Except Error Unit) : Helper Unit := do
  match units with
  | .error e => do
    finish .failed (some (failureCode e))
    fail e
  | .ok () => do
    let now ← unixMs
    if now < op.startedAtMs || 30 * 60 * 1000 < now - op.startedAtMs then finish .failed (some (ascii "plan_expired"))
    else if ← commitService invocationId (← attempt (call .service)) then commit
    else pure ()

def commitRequest (inbox : Inbox) (invocationId : Text) (configRevision : Nat) (units : Except Error Unit) :
    Helper Unit := do
  let journal ← memory
  if ← ofExcept (terminalFence journal inbox) then publish
  else do
    let op ← ofExcept (matching journal inbox)
    require (op.status.phase == .staged && op.invocationId == invocationId && op.configRevision == configRevision)
      "invalid commit phase"
    commitStaged op invocationId units

def verifyRecovery (inbox : Inbox) (units : Except Error Unit) : Helper Unit := do
  let op ← ofExcept (matching (← memory) inbox)
  require (op.status.phase == .awaitingReadiness) "not awaiting recovery verification"
  match units with
  | .error e => do
    finish .manualRequired (some (ascii "readiness_failed"))
    fail e
  | .ok () =>
    match ← attempt waitReady with
    | .ok () => finish .rolledBack (some (ascii "interrupted"))
    | .error _ => finish .manualRequired (some (ascii "readiness_failed"))

def handle (inbox : Inbox) (units : Except Error Unit) : Helper Unit := do
  let journal ← memory
  require (inbox.request.isStage || journal.installationPending.isNone) "installation_pending"
  match inbox.request with
  | .stage .. => do
    let request ← ofExcept (StageRequest.parse inbox)
    stage request units
  | .commit invocationId configRevision => commitRequest inbox invocationId configRevision units
  | .abort => do
    abort inbox
    ofExcept units
  | .verifyRecovery => verifyRecovery inbox units

/-- `run`: the request is consumed before anything else is checked. -/
def run : Exec Cmd Ans Unit Error Unit := do
  call .stateDirectory
  let content ← attempt (call .readInbox)
  call .removeInbox
  let inbox ← ofExcept (content.bind Inbox.parse)
  let units ← attempt (call .units)
  match ← attempt (call .loadJournal) with
  | .error e => fail (.journalUnreadable e)
  | .ok journal => within journal (handle inbox units)

/-- The live program is still the old one and runs: prove its readiness instead of restarting it. -/
def stillRunning (op : Operation) : Helper Bool := do
  if op.status.phase != .committing && op.status.phase != .stopping then return false
  else if (← call .actualHash) != op.old.sha256 then return false
  else
    match ← attempt (call .service) with
    | .ok info => return info.get "ActiveState" == some (ascii "active")
    | .error _ => return false

/-- A rollback that fails leaves the operation to the administrator. -/
def rollbackOrManual (boot : Bool) : Helper Unit := do
  match ← attempt (rollback (ascii "interrupted") boot) with
  | .ok () => pure ()
  | .error _ => do
    finish .manualRequired (some (ascii "manual_recovery_required"))
    bail "manual_recovery_required"

/-- A rollback whose start was already tried is judged, not repeated. -/
def judgeRollback (op : Operation) : Helper Unit := do
  let actual ← call .actualHash
  if actual = op.old.sha256 ∧ op.pendingLaunch.isSome = true then
    match ← attempt waitReady with
    | .ok () => finish .rolledBack (some (ascii "interrupted"))
    | .error _ => finish .manualRequired (some (ascii "manual_recovery_required"))
  else finish .manualRequired (some (ascii "manual_recovery_required"))

/-- Recovery while the host runs. -/
def recoverRunning (op : Operation) : Helper Unit := do
  if !(← call .managerRunning) then phase .awaitingBootRecovery
  else if op.rollbackStarted then judgeRollback op
  else if ← stillRunning op then do
    launch .rollingBack
    match ← attempt waitReady with
    | .ok () => finish .rolledBack (some (ascii "interrupted"))
    | .error _ => rollbackOrManual false
  else rollbackOrManual false

def recoverJournal (boot : Bool) : Helper Unit := do
  let journal ← memory
  match journal.operation with
  | none => do
    require ((← call .actualHash) == journal.installed.sha256) "unknown installed binary"
    publish
  | some op =>
    if op.status.phase.terminal then do
      require ((← call .actualHash) == journal.installed.sha256) "unknown installed binary"
      publish
    else if op.status.phase = .staged ∧ boot = false then publish
    else if op.status.phase.precommit then finish .failed (some (ascii "interrupted"))
    else if boot then rollbackOrManual true
    else recoverRunning op

/-- A pending installation belongs to the installer; only its description is published again. -/
def recoverPending (boot : Bool) : Helper Unit := do
  let journal ← memory
  if journal.installationPending.isSome then do
    require ((← call .actualHash) == journal.installed.sha256) "pending installation identity differs"
    publish
  else recoverJournal boot

def recover (boot : Bool) : Exec Cmd Ans Unit Error Unit := do
  call .units
  let journal ← call .loadJournal
  within journal (recoverPending boot)

inductive Execution
  | run
  | recover (boot : Bool)

def Execution.program : Execution → Exec Cmd Ans Unit Error Unit
  | .run => Update.run
  | .recover boot => Update.recover boot

structure Host where
  disk : Disk
  helper : Option (Program Cmd (fun c => Except Error (Ans c)) (Except Error Unit × Unit))

/-- An execution starts, a command of it is answered, or it is cut off. -/
inductive Event
  | start (execution : Execution)
  | answer (outcome : Outcome)
  | crash

namespace Host

/-- The lock admits one execution; one that has returned leaves it. -/
def step (sha : Bytes → Text) (h : Host) : Event → Host
  | .start execution =>
    match h.helper with
    | some (.ask _ _) => h
    | _ => ⟨{ h.disk with taken := none, proved := [], mark := .none }, some (execution.program ())⟩
  | .answer x =>
    match h.helper with
    | some (.ask c next) =>
      let (r, d) := perform sha x c h.disk
      ⟨d, some (next r)⟩
    | _ => h
  | .crash => ⟨h.disk, none⟩

def run (sha : Bytes → Text) (h : Host) (events : List Event) : Host := events.foldl (step sha) h

end Host

end Parins.Update
