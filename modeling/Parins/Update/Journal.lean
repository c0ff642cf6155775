/-
The helper's journal: the installed identity, the operation that owns the
installation, and the last terminal that is not that operation's own. Also how
the readiness of a launch is judged from its health receipts.
-/
import Parins.Update.Ipc

namespace Parins.Update

/-- The errors of the helper, as far as `failure_code` tells them apart. -/
inductive Error
  | storageFull
  | reader (code : Text)
  | contract (error : ContractError)
  | message (text : Text)
  | journalUnreadable (cause : Error)
deriving DecidableEq

def failureCode : Error → Text
  | .storageFull => ascii "insufficient_space"
  | .reader code => code
  | .contract .manualRequired => ascii "manual_upgrade_required"
  | .contract .releaseIncomplete => ascii "release_incomplete"
  | .contract .releaseChanged => ascii "release_changed"
  | .contract .notNewer => ascii "release_changed"
  | _ => ascii "verification_failed"

/-- `ensure!` with its message. -/
def ensure (cond : Bool) (text : String) : Except Error Unit :=
  if cond then .ok () else .error (.message (ascii text))

namespace Inbox

/-- `Inbox::parse`, after the JSON. -/
def parse (inbox : Inbox) : Except Error Inbox := do
  ensure (inbox.schema == 1 && validId inbox.operationId && validId inbox.phaseNonce) "invalid inbox identifiers"
  match inbox.request with
  | .stage _ currentSha256 invocationId _ =>
    ensure (validSha256 currentSha256 && validId invocationId) "invalid stage identity"
  | .commit invocationId _ => ensure (validId invocationId) "invalid commit identity"
  | _ => pure ()
  return inbox

end Inbox

structure Operation where
  status : OperationStatus
  old : InstalledIdentity
  candidate : InstalledIdentity
  invocationId : Text
  configRevision : Nat
  startedAtMs : Nat
  rollbackAttempted : Bool
  rollbackStarted : Bool
  pendingLaunch : Option PendingLaunch
deriving DecidableEq

structure Installation where
  nonce : Text
  configRevision : Option Nat
  launch : PendingLaunch
deriving DecidableEq

structure Journal where
  schema : Nat
  installed : InstalledIdentity
  operation : Option Operation
  lastOperation : Option OperationStatus
  installationPending : Option Installation
deriving DecidableEq

namespace Journal

/-- What `Journal::load` checks after the JSON. -/
def check (j : Journal) : Except Error Unit := do
  ensure (j.schema == 1) "unknown journal schema"
  ensure (validSha256 j.installed.sha256) "invalid journal anchor"
  ensure (j.operation.all fun op => validId op.status.operationId && validId op.status.phaseNonce)
    "invalid journal operation"
  ensure (j.installationPending.all fun pending =>
    validId pending.nonce && pending.launch.operationId == pending.nonce &&
    pending.launch.phaseNonce == pending.nonce && validId pending.launch.launchNonce &&
    pending.launch.identity == j.installed && pending.launch.initialized == pending.configRevision.isSome &&
    pending.configRevision.all (0 < ·) && j.operation.all (·.status.phase.terminal)) "invalid installation journal"

def manual (j : Journal) : Bool := j.operation.any (·.status.phase == .manualRequired)

def status (j : Journal) (now : Nat) : PublicStatus where
  schema := 1
  installed := j.installed
  capability := {
    available := j.installed.build.officialRelease && !j.manual && j.installationPending.isNone
    reason :=
      if j.installationPending.isSome then some (ascii "installation_pending")
      else if j.manual then some (ascii "manual_recovery_required")
      else if !j.installed.build.officialRelease then some (ascii "unsupported_installation")
      else none
    checkedAtMs := now
    helperProtocol := HELPER_PROTOCOL
    installContract := INSTALL_CONTRACT }
  activeOperation := (j.operation.filter fun op => !op.status.phase.terminal).map (·.status)
  lastOperation := ((j.operation.filter (·.status.phase.terminal)).map (·.status)).or j.lastOperation
  additionalTerminal := j.lastOperation.filter fun last =>
    j.operation.any fun op => op.status.phase.terminal && op.status.operationId != last.operationId
  pendingLaunch := (j.operation.bind (·.pendingLaunch)).or (j.installationPending.map (·.launch))

def ended (j : Journal) : Bool := j.operation.any (·.status.phase.terminal)

/-- A rollback is about to start the old program. -/
def restarts (j : Journal) : Bool := j.operation.any fun op => op.rollbackStarted && !op.status.phase.terminal

/-- The last operation once `op` has ended: another operation's terminal keeps its place. -/
def lastAfter (last : Option OperationStatus) (status : OperationStatus) : Option OperationStatus :=
  if last.all fun l => l.operationId == status.operationId then some status else last

def finish (j : Journal) (phase : Phase) (reason : Option Text) (now : Nat) : Journal :=
  match j.operation with
  | none => j
  | some op =>
    let status := { op.status with phase := phase, reason := reason, updatedAtMs := now }
    { j with
      operation := some { op with status := status, pendingLaunch := none }
      lastOperation := lastAfter j.lastOperation status }

def commit (j : Journal) (now : Nat) : Except Error Journal :=
  match j.operation with
  | none => .error (.message (ascii "missing operation"))
  | some op =>
    if op.status.phase = .validating then .ok ({ j with installed := op.candidate }.finish .succeeded none now)
    else .error (.message (ascii "invalid commit phase"))

end Journal

/-- The running program's hash, taken once for each process. -/
structure ExecutableIdentity where
  known : Option (Nat × Text × Text) := none

/-- `ExecutableIdentity::verified`; `image` is what reading the process's executable gives now. -/
def ExecutableIdentity.verified (e : ExecutableIdentity) (health : Option Health) (pid : Nat) (invocation expected : Text)
    (image : Option Text) : Bool × ExecutableIdentity :=
  if pid == 0 || !(health.any fun h => h.pid == pid && h.invocationId == invocation) then (false, e)
  else if e.known.all fun known => known.1 != pid || known.2.1 != invocation then
    match image with
    | none => (false, e)
    | some digest => (digest == expected, ⟨some (pid, invocation, digest)⟩)
  else (e.known.any fun known => known.2.2 == expected, e)

structure Readiness where
  last : Option (Nat × Nat) := none
  since : Option Nat := none

namespace Readiness

/-- The receipt is of this launch, by this process, and reports a ready program. -/
def isMatch (pending : PendingLaunch) (pid : Nat) (invocation : Text) (revision : Nat) (h : Health) : Bool :=
  h.operationId == pending.operationId && h.launchNonce == pending.launchNonce && h.identity == pending.identity &&
  h.pid == pid && h.invocationId == invocation && h.configRevision == revision &&
  (if pending.initialized then
    0 < h.dnsGeneration && h.dnsReady && h.storageHealthy && h.storageSettingsApplied
  else h.configRevision == 0 && h.dnsGeneration == 0 && !h.dnsReady)

/-- Whether ten seconds of readiness have passed. -/
def held (since : Option Nat) (now : Nat) : Bool := since.any fun since => 10000 ≤ now - since

def observe (r : Readiness) (now : Nat) (sample : Option Health) (pending : PendingLaunch) (pid : Nat)
    (invocation : Text) (revision : Nat) : Bool × Readiness :=
  match sample.filter (isMatch pending pid invocation revision) with
  | none => (false, {})
  | some h =>
    match r.last with
    | none =>
      let since := r.since.getD now
      (held (some since) now, ⟨some (h.sampleSeq, now), some since⟩)
    | some (seq, at_) =>
      -- a gap of three seconds between fresh receipts starts the window again
      let since := if 3000 < now - at_ then none else r.since
      if h.sampleSeq < seq then (false, {})
      else if h.sampleSeq = seq then (held since now, ⟨r.last, since⟩)
      else
        let since := since.getD now
        (held (some since) now, ⟨some (h.sampleSeq, now), some since⟩)

end Readiness

/-- What `systemctl show` printed. -/
abbrev Service := List (Text × Text)

/-- The value of a property; of two lines for one property, the later. -/
def Service.get (info : Service) (property : String) : Option Text :=
  (info.reverse.find? fun line => line.1 == ascii property).map (·.2)

def parseU32 (text : Text) : Option Nat :=
  let digits := match text with
    | 43 :: rest => rest
    | _ => text
  if digits.isEmpty || !digits.all isDigit || 2 ^ 32 ≤ decimal digits then none else some (decimal digits)

/-- One pass of the loop of `wait_launch`: the time at its start, what the service manager and the
receipt file say, what the process's executable hashes to, and the time of the judgement. -/
structure Tick where
  start : Nat
  info : Except Error Service
  health : Option Health
  image : Option Text
  now : Nat

/-- `wait_launch` over the passes that it makes. -/
def waitLaunch (pending : PendingLaunch) (configRevision : Nat) (readiness : Readiness) (invocation : Text)
    (executable : ExecutableIdentity) : List Tick → Except Error Unit
  | [] => .error (.message (ascii "readiness_failed"))
  | tick :: rest =>
    if 60000 ≤ tick.start then .error (.message (ascii "readiness_failed"))
    else
      match tick.info with
      | .error e => .error e
      | .ok info =>
        let pid := ((info.get "MainPID").bind parseU32).getD 0
        let current := (info.get "InvocationID").getD []
        let readiness := if invocation = current then readiness else {}
        let (verified, executable) :=
          executable.verified tick.health pid current pending.identity.sha256 tick.image
        let matching := tick.health.filter fun _ => verified && validId current
        let (ready, readiness) := readiness.observe tick.now matching pending pid current configRevision
        if ready then .ok () else waitLaunch pending configRevision readiness current executable rest

end Parins.Update
