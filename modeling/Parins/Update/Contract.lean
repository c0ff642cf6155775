/-
Release contracts: versions, the manifest of a release and when it may replace
the installed build. Texts are byte strings.
-/
import Parins.Dns.Name

namespace Parins.Update

abbrev Text := Bytes

def REPOSITORY : Text := ascii "paricafe/PariNS"
def HELPER_PROTOCOL : Nat := 4
def INSTALL_CONTRACT : Text := ascii "linux-managed-updater-v1"
def MAX_BINARY_BYTES : Nat := 128 * 1024 * 1024

inductive ContractError
  | invalidVersion
  | invalidManifest
  | releaseIncomplete
  | releaseChanged
  | manualRequired
  | notNewer
deriving DecidableEq

def isDigit (b : UInt8) : Bool := 48 ≤ b && b ≤ 57

def validHex (value : Text) (length : Nat) : Bool :=
  value.length == length && value.all fun b => isDigit b || (97 ≤ b && b ≤ 102)

def validSha256 (value : Text) : Bool := validHex value 64

/-- The number that decimal digits spell. -/
def decimal (digits : Text) : Nat := digits.foldl (fun n b => 10 * n + (b.toNat - 48)) 0

structure Version where
  major : Nat
  minor : Nat
  patch : Nat
deriving DecidableEq

namespace Version

/-- One component: at most 20 digits, no leading zero, a `u64`. -/
def component (text : Text) : Except ContractError Nat :=
  if text.isEmpty || 20 < text.length || (1 < text.length && text.head? == some 48) || !text.all isDigit then
    .error .invalidVersion
  else if decimal text < 2 ^ 64 then .ok (decimal text)
  else .error .invalidVersion

def parse (value : Text) : Except ContractError Version :=
  match value.splitOn 46 with
  | [a, b, c] => do return ⟨← component a, ← component b, ← component c⟩
  | _ => .error .invalidVersion

def parseTag (value : Text) : Except ContractError Version :=
  match value with
  | 118 :: rest => parse rest
  | _ => .error .invalidVersion

def toText (v : Version) : Text :=
  ascii (Nat.repr v.major) ++ 46 :: ascii (Nat.repr v.minor) ++ 46 :: ascii (Nat.repr v.patch)

def newer (a b : Version) : Bool :=
  b.major < a.major || (a.major == b.major && (b.minor < a.minor || (a.minor == b.minor && b.patch < a.patch)))

end Version

structure BuildInfo where
  version : Text
  target : Text
  sourceCommit : Text
  officialRelease : Bool
  updateProtocol : Nat
  helperProtocol : Nat
  installContract : Text
  durableContractEpoch : Nat
  runtimeDatabaseFormat : Nat
  cacheSnapshotFormat : Nat
  cacheSemantics : Nat
deriving DecidableEq

inductive UpgradeMode
  | inPlace
  | manual
deriving DecidableEq

structure Artifact where
  target : Text
  name : Text
  size : Nat
  sha256 : Text
deriving DecidableEq

structure Manifest where
  schema : Nat
  repository : Text
  version : Text
  tag : Text
  sourceCommit : Text
  updateProtocol : Nat
  installContract : Text
  minHelperProtocol : Nat
  durableContractEpoch : Nat
  runtimeDatabaseFormat : Nat
  cacheSnapshotFormat : Nat
  cacheSemantics : Nat
  upgradeMode : UpgradeMode
  artifacts : List Artifact
deriving DecidableEq

namespace Manifest

/-- The targets, with the architecture that a target starts with. -/
def supportedTargets : List (Text × Text) :=
  [(ascii "x86_64-unknown-linux-musl", ascii "x86_64"), (ascii "aarch64-unknown-linux-musl", ascii "aarch64")]

/-- Exactly one artifact for the target, of the right name and within bounds. -/
def validateTarget (m : Manifest) (target : Text × Text) : Except ContractError Unit :=
  match m.artifacts.filter fun a => a.target == target.1 with
  | [artifact] =>
    if artifact.name != ascii "parins-" ++ m.tag ++ ascii "-linux-" ++ target.2 ++ ascii ".bin" ||
        artifact.size < 64 || MAX_BINARY_BYTES < artifact.size || !validSha256 artifact.sha256 then
      .error .invalidManifest
    else .ok ()
  | _ => .error .releaseIncomplete

def validate (m : Manifest) : Except ContractError Unit := do
  let version ← Version.parse m.version
  if m.schema != 1 || m.repository != REPOSITORY then throw .invalidManifest
  if (← Version.parseTag m.tag) != version then throw .invalidManifest
  if !validHex m.sourceCommit 40 || m.updateProtocol == 0 || m.installContract != INSTALL_CONTRACT ||
      m.minHelperProtocol == 0 || m.durableContractEpoch == 0 || m.runtimeDatabaseFormat == 0 ||
      m.cacheSnapshotFormat == 0 || m.cacheSemantics == 0 || m.artifacts.length != 2 then
    throw .invalidManifest
  supportedTargets.forM m.validateTarget

def artifactFor (m : Manifest) (target : Text) : Except ContractError Artifact :=
  match m.artifacts.find? fun a => a.target == target with
  | some a => .ok a
  | none => .error .manualRequired

def checkCompatible (m : Manifest) (current : BuildInfo) (helperProtocol : Nat) : Except ContractError Unit := do
  m.validate
  if !(← Version.parse m.version).newer (← Version.parse current.version) then throw .notNewer
  if !current.officialRelease || m.upgradeMode != .inPlace || m.updateProtocol != current.updateProtocol ||
      m.installContract != current.installContract || helperProtocol < m.minHelperProtocol ||
      m.durableContractEpoch != current.durableContractEpoch ||
      m.runtimeDatabaseFormat != current.runtimeDatabaseFormat then
    throw .manualRequired
  discard (m.artifactFor current.target)

end Manifest

end Parins.Update
