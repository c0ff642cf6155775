/-
The manager's transactions on DNS: starting the saved configuration, and the
three ways in which a new one is applied. They run with the manager's lock held,
so the manager is the memory of the program.
-/
import Parins.Manage.World

namespace Parins.Manage
open Lib
open Lib.Exec (attempt memory modify ofExcept fail)

abbrev Act := Exec Cmd Ans Manager Error

abbrev call {M : Type} (c : Cmd) : Exec Cmd Ans M Error (Ans c) := Exec.call c

def doWhen (cond : Bool) (p : Act Unit) : Act Unit := if cond then p else pure ()

section Programs
variable (lib : Library)

/-- Management-only changes do not depend on live DNS or its material files. -/
def updatesOnly (saved : Option Stored) (next : Text) : Except Error Bool :=
  match saved with
  | none => .ok false
  | some saved =>
    if saved.toml = next then .ok false
    else do
      let old ← lib.stripped saved.toml
      let new ← lib.stripped next
      return old = new

/-- Whether `next` differs from the saved document in hot sections only, and if so whether the cache
changes. -/
def hotChange (running : Running) (previous : Stored) (next : Text) (nextCache : CacheConfig) : Option Bool :=
  match lib.document previous.toml, lib.document next with
  | .ok old, .ok new =>
    if old.remove HOT = new.remove HOT ∧ old ≠ new then some (running.config.cache.value != nextCache.value) else none
  | _, _ => none

def cacheOnlyChange (next : Text) (nextCache : CacheConfig) : Act (Option Bool) := do
  let m ← memory
  match m.running, m.saved with
  | some running, some previous =>
    let finished ← call .isFinished
    return if finished then none else hotChange lib running previous next nextCache
  | _, _ => return none

/-- `Snapshot::prepare`. -/
def prepareSnapshot (config : Config) : Act Snapshot := do
  let candidate ← ofExcept (Snapshot.describe lib config)
  let certificates ← call .certificates
  return { candidate with certificates := some certificates }

def prepare (toml : Text) : Act (Config × Snapshot) := do
  ofExcept (ensure (decide (toml.length ≤ MAX_CONFIG)) "configuration exceeds 256 KiB")
  let config ← ofExcept (lib.parse toml)
  -- the rule file must not be state of the server
  call .io
  let candidate ← prepareSnapshot lib config
  -- the files that the upstreams name
  call .io
  return (config, candidate)

def startupFailed (m : Manager) (error : Text) : Manager :=
  { m with lastError := some (ascii "DNS unavailable: " ++ error), startup := some (m.startup.getD 0 + 1) }

/-- A candidate for the transport, if HTTP management started without the DNS identities. -/
def missingCertificates (config : Config) (current : Snapshot) : Act (Option Snapshot) :=
  if current.certificates.isNone then do
    let candidate ← prepareSnapshot lib config
    return some candidate
  else return none

def start (toml : Text) (restored : Bool) : Act (Running × Option Snapshot) := do
  let m ← memory
  ofExcept (ensure m.cacheReady "cannot start DNS before clean snapshot is durably consumed")
  let config ← ofExcept (lib.parse toml)
  let ready ← call .ready
  ofExcept (ensure ready "subscription_material_missing: DNS policy unavailable")
  let current ← call .snapshot
  let candidate ← missingCertificates lib config current
  -- listeners that cannot bind are retried by the server
  let _ ← call (.bind config)
  doWhen restored (call .io)
  modify fun m => { m with generation := m.generation + 1 }
  return (⟨config, config.cache⟩, candidate)

def publishCandidate : Option Snapshot → Act Unit
  | some candidate => call (.publish candidate)
  | none => pure ()

def restore (toml : Text) (restored : Bool) : Act Unit := do
  let m ← memory
  match m.localError with
  | some error =>
    -- retrying cannot help: local rules are compiled only when a configuration is applied
    modify fun m => { m with lastError := some (ascii "DNS unavailable: " ++ error) }
  | none =>
    match ← attempt (start lib toml restored) with
    | .ok (running, candidate) => do
      publishCandidate candidate
      modify fun m => { m with running := some running, lastError := none, startup := none }
    | .error error => modify fun m => startupFailed m error.text

/-- The caller has seen a due retry: a saved configuration and no running generation. -/
def retryStartup : Act Unit := do
  let m ← memory
  match m.saved with
  | some saved => restore lib saved.toml false
  | none => fail .panicked

def applyUpdates (next : Stored) : Act Bool := do
  let config ← ofExcept (lib.parse next.toml)
  call (.save next)
  modify fun m =>
    { m with running := m.running.map fun r => { r with config := { r.config with updates := config.updates } } }
  call (.setRevision next.revision)
  modify fun m => { m with saved := some next, rollbackError := none }
  return false

def applyHot (next : Stored) (config : Config) (candidate : ConfigCandidate) (replaceCache : Bool) : Act Bool := do
  let finished ← call .isFinished
  -- `expect("running cache-only target")`: the task may have ended since it was looked at
  if finished then fail .panicked
  else do
    call (.save next)
    call (.publishConfig candidate next.revision)
    modify fun m =>
      { m with running := m.running.map fun r => { r with cache := if replaceCache then config.cache else r.cache } }
    call (.publishSettings (RuntimeSettings.fromConfig config) next.revision)
    modify fun m =>
      { m with
        running := m.running.map fun r => { r with config := config }
        saved := some next
        rollbackError := none
        lastError := none }
    return false

/-- The part of a restart that can fail: everything up to the save. -/
def startNext (next : Stored) (config : Config) (candidate : ConfigCandidate) : Act Running := do
  let unbound ← call (.bind config)
  match unbound with
  | some error => fail error
  | none => do
    call (.save next)
    call (.publishConfig candidate next.revision)
    call (.publishSettings (RuntimeSettings.fromConfig config) next.revision)
    modify fun m => { m with generation := m.generation + 1 }
    return ⟨config, config.cache⟩

def restorePrevious : Option Stored → Act Unit
  | some previous => restore lib previous.toml false
  | none => pure ()

/-- The status after a failed restart. A failed start of the previous configuration, and local rules
that cannot be compiled, have explained themselves already. -/
def noteStopped (m : Manager) (error : Text) : Manager :=
  if m.running.isNone && m.startup.isNone && m.localError.isNone then
    { m with lastError := some (ascii "Apply failed; DNS is stopped: " ++ error) }
  else m

def applyRestart (next : Stored) (config : Config) (transport : Snapshot) (candidate : ConfigCandidate) : Act Bool := do
  let m ← memory
  -- `stop`: the task of the running generation is ended, by force if it does not drain
  modify fun m => { m with running := none }
  match ← attempt (startNext next config candidate) with
  | .ok running => do
    call (.publish transport)
    modify fun m =>
      { m with
        running := some running
        saved := some next
        rollbackError := none
        lastError := none
        localError := none
        startup := none }
    return true
  | .error error => do
    restorePrevious lib m.saved
    modify fun m => noteStopped m error.text
    fail (.context (ascii "configuration not applied") error)

/-- The changes that are not management-only. -/
def applyFull (next : Stored) : Act Bool := do
  let m ← memory
  ofExcept (ensure m.cacheReady
    "cannot start DNS before clean snapshot is durably consumed; restart after resolving the storage error")
  let (config, transport) ← prepare lib next.toml
  let candidate ← call (.prepareConfig config.filterSubscriptions config.localPolicySource
    (m.saved.elim 0 (·.revision)))
  match ← cacheOnlyChange lib next.toml config.cache with
  | some replaceCache => applyHot next config candidate replaceCache
  | none => applyRestart lib next config transport candidate

/-- Returns whether a restart of the listeners was necessary. -/
def apply (next : Stored) : Act Bool := do
  let m ← memory
  let only ← ofExcept (updatesOnly lib m.saved next.toml)
  if only then applyUpdates lib next else applyFull lib next

/-- A running generation whose task ended without a stop request. -/
def reapExited (reason : Text) : Act Unit := do
  let m ← memory
  match m.running with
  | none => pure ()
  | some _ => do
    let finished ← call .isFinished
    doWhen finished (modify fun m => startupFailed { m with running := none } reason)

end Programs

/-! ### Opening -/

/-- The environment's part in `Manager::open`: the files and the store that it finds, what compiling the local rules
and the policy gives, why the rollback copy cannot be used, and whether the last cache snapshot
could be consumed. -/
structure Opening where
  file : Option Stored := none
  keys : Option Keys := none
  preparation : Preparation := {}
  catalog : Filters.Catalog := {}
  records : List Filters.SourceRecord := []
  previous : List Text := []
  rollbackError : Option Text := none
  cacheReady : Bool := true
  certificates : Except Error Nat := .ok 0

/-- The service as `Service::open` leaves it: without material it holds the local rules, not ready. -/
def Service.opened (C : Compiler) (x : Opening) (settings : FilterSettings) (rules : Rules) (revision : Nat) : Service :=
  let s : Service :=
    { settings, rules, revision, previous := x.previous, records := x.records, policy := C.compile { rules } }
  match s.material C x.preparation x.catalog settings rules with
  | .error e => { s with unavailable := some e.text }
  | .ok (policy, digest, _) =>
    { s with readyPolicy := true, policy, number := 2, inputDigest := some digest, inputRules := policy.inputRules }

/-- The transport at start: HTTP management does without certificates that cannot be read. -/
def Snapshot.opened (lib : Library) (x : Opening) (config : Config) : Except Error Snapshot := do
  let snapshot ← Snapshot.describe lib config
  match x.certificates with
  | .ok certificates => return { snapshot with certificates := some certificates }
  | .error e => if config.doh.isSome then .error e else return snapshot

/-- `Manager::open` up to the first start of DNS. -/
def Manager.opened (lib : Library) (C : Compiler) (x : Opening) : Except Error (Manager × World) :=
  match x.file with
  | none =>
    .ok ({ turnstile := { keys := x.keys }, cacheReady := x.cacheReady },
      { turnstileFile := x.keys, filters := Service.opened C x {} [] 0, catalog := x.catalog,
        storage := ⟨lib.defaults, 0⟩ })
  | some saved => do
    let config ← lib.parse saved.toml
    let snapshot ← Snapshot.opened lib x config
    let rules := config.localPolicySource.compile x.preparation
    -- a placeholder without rules keeps management available
    return (
      { saved := some saved
        turnstile := { keys := x.keys }
        cacheReady := x.cacheReady
        localError := match rules with
          | .ok _ => none
          | .error e => some e.text
        rollbackError := x.rollbackError },
      { file := some saved
        turnstileFile := x.keys
        filters := Service.opened C x config.filterSubscriptions (rules.toOption.getD []) saved.revision
        catalog := x.catalog
        reads := (rules.toOption.map config.localPolicySource.read).getD []
        storage := ⟨RuntimeSettings.fromConfig config, saved.revision⟩
        active := { snapshot := snapshot } })

/-! ### Calls -/

/-- The calls of `apply`: the first setup, and a change of the saved document or its rollback. -/
inductive Call
  | setup (username passwordHash toml : Text)
  | change (toml : Text)

/-- What the caller passes; a revision is a `u64`. -/
def Call.next : Call → Option Stored → Option Stored
  | .setup username passwordHash toml, none => some ⟨username, passwordHash, toml, none, 1⟩
  | .change toml, some saved =>
    if saved.revision + 1 < 2 ^ 64 then
      some { saved with toml := toml, previous := some saved.toml, revision := saved.revision + 1 }
    else none
  | _, _ => none

end Parins.Manage
