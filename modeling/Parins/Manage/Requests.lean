/-
The requests of the management plane and its background tasks, as programs that
interleave. A section under the manager's lock is a program on the manager; the
mutation permit is held across sections. Connections that end drop a request at
an await, unless a detached task has taken it over.
-/
import Parins.Manage.Runtime

namespace Parins.Manage
open Lib
open Lib.Exec (attempt memory modify ofExcept fail)

/-- Work outside the manager's lock. -/
abbrev Handler := Exec Cmd Ans Unit Error

def busy : Error := .api 409 (ascii "BUSY") (ascii "Another change is running")
def updateInProgress : Error := .api 409 (ascii "update_in_progress") (ascii "Software update is in progress")
def unauthorized : Error := .api 401 (ascii "UNAUTHORIZED") (ascii "Sign in required")
def loginFailed : Error := .api 401 (ascii "LOGIN_FAILED") (ascii "Invalid credentials")
def setupRequired : Error := .api 409 (ascii "SETUP_REQUIRED") (ascii "Complete setup first")
def alreadySetup : Error := .api 409 (ascii "ALREADY_SETUP") (ascii "Setup is already complete")
def invalidSetupToken : Error := .api 403 (ascii "SETUP_TOKEN") (ascii "Invalid setup token")
def internal : Error := .api 500 (ascii "INTERNAL") (ascii "Management operation failed")
def revisionChanged : Error := .api 409 (ascii "REVISION") (ascii "Configuration changed; reload before saving")
def noBackup : Error := .api 409 (ascii "NO_BACKUP") (ascii "No previous configuration")
def currentPasswordIncorrect : Error :=
  .api 403 (ascii "CURRENT_PASSWORD_INCORRECT") (ascii "Current password is incorrect")
def httpDowngrade : Error :=
  .api 409 (ascii "HTTP_DOWNGRADE_CONFIRMATION_REQUIRED") (ascii "Confirm switching management to HTTP")
def testKeysUnpaired : Error :=
  .api 422 (ascii "TURNSTILE_TEST_KEYS")
    (ascii "Use Cloudflare test keys only as a pair: a test site key with a test secret key")

/-! ### Locks -/

/-- A section under the manager's lock, which is released however the section ends. -/
def withManager (detached : Bool) (p : Act α) : Handler α := fun _ =>
  .ask (.lock detached) fun
    | .error e => .pure (.error e, ())
    | .ok m => (p m).bind fun out => .ask (.unlock out.2) fun _ => .pure (out.1, ())

/-- The permit is dropped if `p` fails. -/
def orRelease (p : Handler α) : Handler α := do
  match ← attempt p with
  | .ok a => return a
  | .error e => do
    call .releasePermit
    fail e

/-- The permit is dropped at the end of `p`. -/
def releasing (p : Handler α) : Handler α := do
  let out ← attempt p
  call .releasePermit
  ofExcept out

def authorized {M : Type} (headers : Headers) (transport : Snapshot) : Exec Cmd Ans M Error Unit := do
  match ← call (.findSession headers transport) with
  | none => fail unauthorized
  | some session => ofExcept (verifyBinding headers session)

/-- `try_acquire_owned`, with the answer to a request that finds it taken. -/
def tryPermit : Handler Unit := do
  let taken ← call .tryPermit
  if taken then return () else fail busy

def ensureThawed : Handler Unit := do
  let frozen ← withManager false (call .frozen)
  if frozen then fail updateInProgress else return ()

def mutationPermit : Handler Unit := do
  tryPermit
  orRelease ensureThawed

def protectedMutationPermit (headers : Headers) (transport : Snapshot) : Handler Unit := do
  mutationPermit
  orRelease (authorized headers transport)

/-- The update routes do not look at the freeze. -/
def updatePermit (headers : Headers) (transport : Snapshot) : Handler Unit := do
  tryPermit
  orRelease (authorized headers transport)

/-! ### Sign-in and setup -/

section Requests
variable (lib : Library) (verify : Text → Text → Bool)

def verifyPassword (hash password : Text) : Bool :=
  decide (12 ≤ password.length ∧ password.length ≤ 256) && verify hash password

def readCredentials (missing : Error) : Act Credentials := do
  let m ← memory
  match m.saved with
  | some saved => return saved.credentials
  | none => fail missing

/-- The last section of a login. -/
def issue (transport : Snapshot) (verified : Credentials) (generation : Nat) (username password : Text) :
    Act Session := do
  let m ← memory
  if !verified.isFor m.saved || m.turnstile.generation != generation then fail loginFailed
  else call (.session transport ⟨verified, generation, transport.realm, some (username, password)⟩)

/-- `loopback` is the peer's, whom Turnstile does not concern. -/
def login (loopback : Bool) (username password : Text) (transport : Snapshot) : Handler Session := do
  -- the attempt budget
  call .io
  ofExcept (if 64 < username.length ∨ 256 < password.length then .error loginFailed else .ok ())
  let saved ← withManager false (readCredentials setupRequired)
  let turnstile ← withManager false (Functor.map Manager.turnstile memory)
  -- Cloudflare, and then the work on the password, outside all locks
  if turnstile.keys.isSome && !loopback then call .io else pure ()
  call .io
  ofExcept (if verifyPassword verify saved.passwordHash password && secretMatches username saved.username then .ok ()
    else .error loginFailed)
  withManager false (issue transport saved turnstile.generation username password)

def validateUsername (username : Text) : Except Error Unit :=
  ensure (!username.isEmpty && decide (username.length ≤ 64) && username.all fun b =>
      (48 ≤ b && b ≤ 57) || (65 ≤ b && b ≤ 90) || (97 ≤ b && b ≤ 122) || b == 45 || b == 95)
    "Username must be 1..64 ASCII letters, digits, hyphen or underscore"

def validatePassword (password : Text) : Except Error Unit :=
  ensure (decide (12 ≤ password.length ∧ password.length ≤ 256)) "password must contain 12 to 256 bytes"

/-- `transport_change`: whether the document takes management from HTTPS to HTTP. -/
def transportChange (toml : Text) : Act Bool := do
  let config ← ofExcept (lib.parse toml)
  let candidate ← ofExcept (Snapshot.describe lib config)
  let current ← call .snapshot
  return current.scheme == .https && candidate.scheme == .http

def setupSession (original : Snapshot) (credentials : Credentials) : Act Unit := do
  let m ← memory
  let next ← call .snapshot
  if next.realm = original.realm then do
    let _ ← call (.session original ⟨credentials, m.turnstile.generation, original.realm, none⟩)
    return ()
  else return ()

def setupSection (headers : Headers) (original : Snapshot) (username password toml : Text) : Act Unit := do
  let m ← memory
  match m.saved with
  | some _ => fail alreadySetup
  | none => do
    let expected ← call .setupToken
    ofExcept (if secretMatches headers.setup expected then .ok () else .error invalidSetupToken)
    ofExcept (validateUsername username)
    ofExcept (validatePassword password)
    let hash ← call (.hashPassword password)
    let _ ← transportChange lib toml
    let _ ← apply lib ⟨username, hash, toml, none, 1⟩
    setupSession original ⟨username, hash⟩

def setup (headers : Headers) (username password toml : Text) (transport : Snapshot) : Handler Unit := do
  call .io
  mutationPermit
  releasing (withManager true (setupSection lib headers transport username password toml))

/-! ### Protected mutations -/

/-- The flow of a credential change: `commit` runs under the permit and the manager's lock, while the
session and the verified credentials hold. -/
def change (route : Route) (headers : Headers) (transport : Snapshot) (currentPassword : Text) (prepare : Handler α)
    (commit : α → Act Unit) : Handler Unit := do
  ofExcept (ensure (decide (currentPassword.length ≤ 256)) "Current password must contain at most 256 bytes")
  call .io
  let verified ← withManager false (readCredentials internal)
  call .io
  ofExcept (if verifyPassword verify verified.passwordHash currentPassword then .ok ()
    else .error currentPasswordIncorrect)
  let prepared ← prepare
  protectedMutationPermit headers transport
  releasing (withManager true do
    authorized headers transport
    let m ← memory
    if verified.isFor m.saved then do
      call (.work route)
      commit prepared
    else fail unauthorized)

def commitCredentials (username hash : Text) : Act Unit := do
  let m ← memory
  match m.saved with
  | none => fail internal
  | some saved => do
    let next := { saved with username := username, passwordHash := hash }
    call (.save next)
    -- the rename is the commit point; nothing is awaited between publication and revocation
    modify fun m => { m with saved := some next }
    call .clearSessions

def rotate (headers : Headers) (transport : Snapshot) (currentPassword username newPassword : Text) : Handler Unit := do
  ofExcept (validateUsername username)
  ofExcept (validatePassword newPassword)
  change verify .credentials headers transport currentPassword (call (.hashPassword newPassword))
    (commitCredentials username)

def TEST_SECRETS : List Text :=
  [ascii "1x0000000000000000000000000000000AA", ascii "2x0000000000000000000000000000000AA",
   ascii "3x0000000000000000000000000000000AA"]

def testSiteKey (key : Text) : Bool :=
  key.length == 24 && [ascii "1x", ascii "2x", ascii "3x"].contains (key.take 2) &&
    ((key.drop 2).take 20).all (· == 48) && (key.drop 22).all fun b => 65 ≤ b && b ≤ 90

def validKey (key : Text) : Bool :=
  !key.isEmpty && decide (key.length ≤ 256) && key.all fun b => 33 ≤ b && b ≤ 126

def Keys.valid (keys : Keys) : Bool :=
  validKey keys.siteKey && validKey keys.secretKey && TEST_SECRETS.contains keys.secretKey == testSiteKey keys.siteKey

/-- A new site key, with its secret key or the saved one. -/
structure Setting where
  siteKey : Text
  secretKey : Option Text

def Setting.next (setting : Option Setting) (current : Option Keys) : Except Error (Option Keys) :=
  match setting with
  | none => .ok none
  | some setting =>
    match setting.secretKey.or (current.map (·.secretKey)) with
    | none => .error (.message (ascii "Enter the Turnstile secret key"))
    | some secretKey =>
      if Keys.valid ⟨setting.siteKey, secretKey⟩ then .ok (some ⟨setting.siteKey, secretKey⟩) else .error testKeysUnpaired

def commitTurnstile (setting : Option Setting) : Act Unit := do
  let m ← memory
  let next ← ofExcept (Setting.next setting m.turnstile.keys)
  call (.persist next)
  modify fun m => { m with turnstile := ⟨next, (m.turnstile.generation + 1) % 2 ^ 64⟩ }
  call .clearSessions

def turnstile (headers : Headers) (transport : Snapshot) (currentPassword : Text) (setting : Option Setting) :
    Handler Unit := do
  ofExcept (ensure (setting.all fun s => validKey s.siteKey && s.secretKey.all validKey)
    "Turnstile keys must be 1 to 256 visible ASCII characters")
  change verify .turnstile headers transport currentPassword (pure ()) fun () => commitTurnstile setting

/-- A change of the document, or its rollback if `toml` is absent. -/
def configSection (toml : Option Text) (revision : Nat) (allowHttpDowngrade : Bool) : Act Unit := do
  let m ← memory
  match m.saved with
  | none => fail internal
  | some saved => do
    ofExcept (if revision ≠ saved.revision then .error revisionChanged else .ok ())
    match toml.or saved.previous with
    | none => fail noBackup
    | some toml => do
      let downgrades ← transportChange lib toml
      ofExcept (if downgrades && !allowHttpDowngrade then .error httpDowngrade else .ok ())
      match (Call.change toml).next (some saved) with
      | none => fail internal
      | some next => do
        let _ ← apply lib next
        return ()

def config (headers : Headers) (transport : Snapshot) (toml : Option Text) (revision : Nat) (allowHttpDowngrade : Bool) :
    Handler Unit := do
  protectedMutationPermit headers transport
  releasing do
    call (.work .config)
    withManager true (configSection lib toml revision allowHttpDowngrade)

/-- The other protected mutations look at the manager and do their work elsewhere. Invalidating the
cache is not detached. -/
def mutation (route : Route) (detached : Bool) (headers : Headers) (transport : Snapshot) : Handler Unit := do
  protectedMutationPermit headers transport
  releasing do
    call (.work route)
    withManager detached (call .io)
    call .io

def update (route : Route) (headers : Headers) (transport : Snapshot) : Handler Unit := do
  updatePermit headers transport
  releasing do
    call (.work route)
    withManager true (call .io)
    call .io

/-! ### Tasks -/

/-- The requests with what they carry, and the background tasks. -/
inductive Request
  | look (headers : Headers)
  | login (loopback : Bool) (username password : Text)
  | setup (headers : Headers) (username password toml : Text)
  | logout (headers : Headers)
  | rotate (headers : Headers) (currentPassword username newPassword : Text)
  | turnstile (headers : Headers) (currentPassword : Text) (setting : Option Setting)
  | config (headers : Headers) (toml : Option Text) (revision : Nat) (allowHttpDowngrade : Bool)
  | mutation (route : Route) (detached : Bool) (headers : Headers)
  | update (route : Route) (headers : Headers)
  /-- A round of `dns_retry`. -/
  | retry (reason : Text)
  /-- Work that the filter scheduler starts. -/
  | scheduled
  /-- The commit of a refresh, a reload on a signal, and the updater. -/
  | background

/-- The part of a request that follows the check of its transport and, for a protected route, of its session. -/
def Request.serve (transport : Snapshot) : Request → Handler Unit
  | .look headers => do
    let _ ← call (.findSession headers transport)
    return ()
  | .login loopback username password => do
    let _ ← Manage.login verify loopback username password transport
    return ()
  | .setup headers username password toml => Manage.setup lib headers username password toml transport
  | .logout headers => call (.revokeSession headers transport)
  | .rotate headers currentPassword username newPassword => do
    authorized headers transport
    Manage.rotate verify headers transport currentPassword username newPassword
  | .turnstile headers currentPassword setting => do
    authorized headers transport
    Manage.turnstile verify headers transport currentPassword setting
  | .config headers toml revision allowHttpDowngrade => do
    authorized headers transport
    Manage.config lib headers transport toml revision allowHttpDowngrade
  | .mutation route detached headers => do
    authorized headers transport
    Manage.mutation route detached headers transport
  | .update route headers => do
    authorized headers transport
    Manage.update route headers transport
  | .retry reason => do
    withManager true (reapExited reason)
    tryPermit
    releasing (withManager true do
      reapExited reason
      let m ← memory
      if m.running.isNone && m.saved.isSome then retryStartup lib else return ())
  | .scheduled => do
    mutationPermit
    releasing do
      withManager true (call .io)
      call .io
  | .background => do
    call .acquirePermit
    releasing do
      withManager true (call .io)
      call .io

/-- A request is served under the transport of its connection. -/
def Request.program (request : Request) : Handler Unit := do
  let transport ← call .snapshot
  call (.ensureCurrent transport)
  request.serve lib verify transport

end Requests

end Parins.Manage
