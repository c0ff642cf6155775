/-
The protocol between the application and the root helper: requests, the phases
of an operation, and the public status that the helper derives from its journal.
-/
import Parins.Update.Contract

namespace Parins.Update

def validId (value : Text) : Bool := validHex value 32

structure InstalledIdentity where
  build : BuildInfo
  sha256 : Text
deriving DecidableEq

/-- The release asset that the user confirmed. -/
structure DownloadTuple where
  releaseId : Nat
  tag : Text
  manifestSha256 : Text
  assetId : Nat
  assetName : Text
  size : Nat
  sha256 : Text
deriving DecidableEq

inductive Request
  | stage (download : DownloadTuple) (currentSha256 invocationId : Text) (configRevision : Nat)
  | commit (invocationId : Text) (configRevision : Nat)
  | abort
  | verifyRecovery
deriving DecidableEq

namespace Request

def isStage : Request → Bool
  | .stage .. => true
  | _ => false

def isCommit : Request → Bool
  | .commit .. => true
  | _ => false

end Request

structure Inbox where
  schema : Nat
  operationId : Text
  phaseNonce : Text
  request : Request
deriving DecidableEq

inductive Phase
  | accepted
  | downloading
  | staged
  | committing
  | stopping
  | starting
  | validating
  | rollingBack
  | awaitingBootRecovery
  | awaitingReadiness
  | succeeded
  | rolledBack
  | failed
  | aborted
  | manualRequired
deriving DecidableEq

namespace Phase

def terminal : Phase → Bool
  | .succeeded | .rolledBack | .failed | .aborted | .manualRequired => true
  | _ => false

def precommit : Phase → Bool
  | .accepted | .downloading | .staged => true
  | _ => false

/-- From the commit on until the operation ends. -/
def committed (p : Phase) : Bool := !p.precommit && !p.terminal

end Phase

structure PendingLaunch where
  operationId : Text
  launchNonce : Text
  identity : InstalledIdentity
  skipCacheRestore : Bool
  phase : Phase
  phaseNonce : Text
  initialized : Bool
deriving DecidableEq

structure Health where
  operationId : Text
  launchNonce : Text
  identity : InstalledIdentity
  configRevision : Nat
  dnsGeneration : Nat
  dnsReady : Bool
  storageHealthy : Bool
  storageSettingsApplied : Bool
  sampleSeq : Nat
  pid : Nat
  invocationId : Text
deriving DecidableEq

structure OperationStatus where
  operationId : Text
  phaseNonce : Text
  phase : Phase
  version : Text
  reason : Option Text
  updatedAtMs : Nat
  downloadedBytes : Nat
  totalBytes : Nat
deriving DecidableEq

structure Capability where
  available : Bool
  reason : Option Text
  checkedAtMs : Nat
  helperProtocol : Nat
  installContract : Text
deriving DecidableEq

structure PublicStatus where
  schema : Nat
  installed : InstalledIdentity
  capability : Capability
  activeOperation : Option OperationStatus
  lastOperation : Option OperationStatus
  additionalTerminal : Option OperationStatus
  pendingLaunch : Option PendingLaunch
deriving DecidableEq

/-- The status has this operation and nonce. -/
def OperationStatus.isFor (s : OperationStatus) (operationId phaseNonce : Text) : Bool :=
  s.operationId == operationId && s.phaseNonce == phaseNonce

namespace PublicStatus

def terminalFor (s : PublicStatus) (operationId phaseNonce : Text) : Option OperationStatus :=
  (s.lastOperation.toList ++ s.additionalTerminal.toList).find? fun status =>
    status.isFor operationId phaseNonce && status.phase.terminal

end PublicStatus

end Parins.Update
