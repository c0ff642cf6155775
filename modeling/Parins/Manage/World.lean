/-
What the management plane acts on: the state file, the filter service, the
storage settings, the management transport with its sessions, and the manager
behind its lock. Every access is a command of one thread; the environment has
its part in the outcome, and a command that has to wait has none yet.
-/
import Parins.Lib.Program
import Parins.Manage.Service

namespace Parins.Manage

abbrev Thread := Nat

structure Stored where
  username : Text
  passwordHash : Text
  toml : Text
  previous : Option Text
  revision : Nat
deriving DecidableEq

structure Credentials where
  username : Text
  passwordHash : Text
deriving DecidableEq

def Stored.credentials (s : Stored) : Credentials := ⟨s.username, s.passwordHash⟩

def Credentials.isFor (c : Credentials) (current : Option Stored) : Bool :=
  current.any fun current => current.username == c.username && current.passwordHash == c.passwordHash

/-! ### Transport and sessions -/

inductive Scheme
  | http
  | https
deriving DecidableEq

/-- `certificates` names a prepared set. -/
structure Snapshot where
  scheme : Scheme := .http
  publicHost : Option Text := none
  certificates : Option Nat := none
  realm : Nat := 0
deriving DecidableEq

def Snapshot.describe (lib : Library) (config : Config) : Except Error Snapshot := do
  let scheme := if config.doh.isSome then Scheme.https else Scheme.http
  let publicHost ← config.web.mapM lib.publicHost
  ensure (scheme == .http || publicHost.isSome) "web.public_host is required when DoH is enabled in managed mode"
  return { scheme, publicHost }

def Snapshot.changesRealm (s next : Snapshot) : Bool := s.scheme != next.scheme || s.publicHost != next.publicHost

/-- What a session was issued for. This is for the statements, and nothing reads it: the credentials
and the Turnstile generation that the login had seen or the setup saved, the realm of its request,
and the name and password that the login verified. -/
structure Grant where
  credentials : Credentials
  generation : Nat
  realm : Nat
  proof : Option (Text × Text)
deriving DecidableEq

structure Session where
  token : Text
  binding : Text
  created : Nat
  grant : Grant
deriving DecidableEq

structure Active where
  snapshot : Snapshot := {}
  sessions : List Session := []

/-- Eight hours, in milliseconds. -/
def SESSION_LIFETIME : Nat := 8 * 3600 * 1000

def secretMatches (supplied expected : Text) : Bool :=
  supplied.length == expected.length &&
    (supplied.zip expected).foldl (fun difference pair => difference ||| (pair.1 ^^^ pair.2)) 0 == 0

/-- The headers of a request: the session cookie under each of its names, absent if it is not there
exactly once, the session bindings, and the setup token. -/
structure Headers where
  httpsCookie : Option Text := none
  httpCookie : Option Text := none
  bindings : List Text := []
  setup : Text := []

def Headers.sessionCookie (h : Headers) : Scheme → Option Text
  | .https => h.httpsCookie
  | .http => h.httpCookie

def transportChanged : Error := .api 409 (ascii "TRANSPORT_CHANGED") (ascii "Management address changed; reconnect")
def sessionChanged : Error := .api 409 (ascii "SESSION_CHANGED") (ascii "Session changed; check your current sign-in")

def verifyBinding (h : Headers) (session : Session) : Except Error Unit :=
  match h.bindings with
  | [binding] => if secretMatches binding session.binding then .ok () else .error sessionChanged
  | _ => .error sessionChanged

namespace Active

def currentRealm (a : Active) (transport : Snapshot) : Except Error Unit :=
  if a.snapshot.realm ≠ transport.realm then .error transportChanged else .ok ()

/-- Without the sessions that have expired. -/
def retain (a : Active) (now : Nat) : Active :=
  { a with sessions := a.sessions.filter fun s => now - s.created < SESSION_LIFETIME }

def session (a : Active) (now : Nat) (token binding : Text) (grant : Grant) (transport : Snapshot) :
    Except Error Session × Active :=
  match a.currentRealm transport with
  | .error e => (.error e, a)
  | .ok () =>
    let a := a.retain now
    let sessions := if 16 ≤ a.sessions.length then a.sessions.drop 1 else a.sessions
    let session := ⟨token, binding, now, grant⟩
    (.ok session, { a with sessions := sessions ++ [session] })

def findSession (a : Active) (now : Nat) (h : Headers) (transport : Snapshot) :
    Except Error (Option Session) × Active :=
  match a.currentRealm transport with
  | .error e => (.error e, a)
  | .ok () =>
    match h.sessionCookie transport.scheme with
    | none => (.ok none, a)
    | some supplied =>
      let a := a.retain now
      (.ok (a.sessions.find? fun s => secretMatches supplied s.token), a)

def revokeSession (a : Active) (now : Nat) (h : Headers) (transport : Snapshot) : Except Error Unit × Active :=
  match a.currentRealm transport with
  | .error e => (.error e, a)
  | .ok () =>
    let a := a.retain now
    match h.sessionCookie transport.scheme with
    | none => (.ok (), a)
    | some token =>
      match a.sessions.find? fun s => secretMatches token s.token with
      | none => (.ok (), a)
      | some session =>
        match verifyBinding h session with
        | .error e => (.error e, a)
        | .ok () => (.ok (), { a with sessions := a.sessions.filter fun s => !secretMatches token s.token })

/-- `Manager::publish`; a realm is a `u64`, and its increment saturates. -/
def publish (a : Active) (candidate : Snapshot) : Active :=
  if a.snapshot.changesRealm candidate then
    { snapshot := { candidate with realm := min (a.snapshot.realm + 1) (2 ^ 64 - 1) }, sessions := [] }
  else { a with snapshot := { candidate with realm := a.snapshot.realm } }

end Active

/-! ### The manager -/

structure Keys where
  siteKey : Text
  secretKey : Text
deriving DecidableEq

structure Turnstile where
  keys : Option Keys := none
  generation : Nat := 0

/-- A DNS generation: the configuration that it was started with, as it was changed since, and the
section that its resolver's cache was made from. -/
structure Running where
  config : Config
  cache : CacheConfig

structure Manager where
  saved : Option Stored := none
  turnstile : Turnstile := {}
  running : Option Running := none
  lastError : Option Text := none
  generation : Nat := 0
  cacheReady : Bool := true
  /-- The failed attempts to start the saved configuration. -/
  startup : Option Nat := none
  localError : Option Text := none
  rollbackError : Option Text := none

structure Desired where
  settings : RuntimeSettings
  revision : Nat := 0

def Desired.publishSettings (d : Desired) (settings : RuntimeSettings) (revision : Nat) : Desired :=
  if revision < d.revision then d else ⟨settings, revision⟩

/-- The mutation permit while it is taken. `admitted` is for the statements, and nothing reads it: the
session that the holder was found to have since it took the permit. -/
structure Permit where
  holder : Thread
  admitted : Option Session := none

/-- `manager` is the manager as the last section under its lock left it, and `catalog` that of the
store of subscriptions. `reads` is for the statements, and nothing reads it: the rule files that were
read for a policy and what was read, the last first. -/
structure World where
  file : Option Stored := none
  turnstileFile : Option Keys := none
  filters : Service
  catalog : Filters.Catalog := {}
  reads : List (Text × Rules) := []
  storage : Desired
  active : Active := {}
  manager : Manager := {}
  lock : Option Thread := none
  permit : Option Permit := none

inductive Route
  | credentials
  | turnstile
  | filters
  | updatesApply
  | updatesCheck
  | storage
  | certificatesReload
  | certificatesImport
  | cacheInvalidate
  | config
deriving DecidableEq

inductive Cmd
  -- the state directory, the network and the clock
  | io
  | certificates
  | save (next : Stored)
  | persist (keys : Option Keys)
  | setupToken
  | hashPassword (password : Text)
  -- the filter service, the storage worker and the DNS task
  | prepareConfig (settings : FilterSettings) (source : LocalPolicySource) (expectedRevision : Nat)
  | publishConfig (candidate : ConfigCandidate) (newRevision : Nat)
  | setRevision (revision : Nat)
  | ready
  | publishSettings (settings : RuntimeSettings) (revision : Nat)
  | bind (config : Config)
  | isFinished
  -- the lock of the transport and its sessions
  | snapshot
  | ensureCurrent (transport : Snapshot)
  | publish (candidate : Snapshot)
  | session (transport : Snapshot) (grant : Grant)
  | findSession (headers : Headers) (transport : Snapshot)
  | revokeSession (headers : Headers) (transport : Snapshot)
  | clearSessions
  -- the manager's lock and the mutation permit
  | lock (detached : Bool)
  | unlock (manager : Manager)
  | frozen
  | tryPermit
  | acquirePermit
  | releasePermit
  /-- What a protected mutation does starts here. -/
  | work (route : Route)

@[reducible] def Ans : Cmd → Type
  | .certificates => Nat
  | .setupToken => Text
  | .hashPassword _ => Text
  | .prepareConfig .. => ConfigCandidate
  | .ready => Bool
  | .bind _ => Option Error
  | .isFinished => Bool
  | .snapshot => Snapshot
  | .session .. => Session
  | .findSession .. => Option Session
  | .lock _ => Manager
  | .frozen => Bool
  | .tryPermit => Bool
  | _ => Unit

/-- The environment's part in one command. `failed` is an access that fails and leaves no trace, or a
connection that ended. -/
structure Outcome where
  failed : Option Error := none
  now : Nat := 0
  certificates : Nat := 0
  /-- A fresh secret: a token, a binding, or the setup token. -/
  token : Text := []
  binding : Text := []
  hash : Text := []
  preparation : Preparation := {}
  schedule : Service.Schedule := {}
  /-- The listeners that could not be bound. -/
  unbound : Option Error := none
  finished : Bool := false
  frozen : Bool := false

namespace Outcome

def report (x : Outcome) (a : α) : Except Error α :=
  match x.failed with
  | none => .ok a
  | some e => .error e

def settle (x : Outcome) (w w' : World) : Except Error Unit × World :=
  match x.failed with
  | none => (.ok (), w')
  | some e => (.error e, w)

end Outcome

def World.marking (w : World) (t : Thread) (found : Except Error (Option Session)) : World :=
  match w.permit, found with
  | some permit, .ok (some session) =>
    if permit.holder = t then { w with permit := some { permit with admitted := some session } } else w
  | _, _ => w

/-- One command of a thread; none while it has to wait. -/
def perform (C : Compiler) (t : Thread) (x : Outcome) : (c : Cmd) → World → Option (Except Error (Ans c) × World)
  | .io, w => some (x.report (), w)
  | .certificates, w => some (x.report x.certificates, w)
  | .save next, w => some (x.settle w { w with file := some next })
  | .persist keys, w => some (x.settle w { w with turnstileFile := keys })
  | .setupToken, w => some (x.report x.token, w)
  | .hashPassword _, w => some (x.report x.hash, w)
  | .prepareConfig settings source expectedRevision, w =>
    let r := w.filters.prepareConfigFromSource C x.preparation w.catalog settings source expectedRevision
    some (r, { w with reads := (r.toOption.map fun c => source.read c.rules).getD [] ++ w.reads })
  | .publishConfig candidate newRevision, w =>
    some (.ok (), { w with filters := w.filters.publishConfig C x.schedule candidate newRevision })
  | .setRevision revision, w => some (.ok (), { w with filters := { w.filters with revision := revision } })
  | .ready, w => some (.ok w.filters.readyPolicy, w)
  | .publishSettings settings revision, w =>
    some (.ok (), { w with storage := w.storage.publishSettings settings revision })
  | .bind _, w => some (x.report x.unbound, w)
  | .isFinished, w => some (.ok x.finished, w)
  | .snapshot, w => some (.ok w.active.snapshot, w)
  | .ensureCurrent transport, w => some (w.active.currentRealm transport, w)
  | .publish candidate, w => some (.ok (), { w with active := w.active.publish candidate })
  | .session transport grant, w =>
    let (r, active) := w.active.session x.now x.token x.binding grant transport
    some (r, { w with active := active })
  | .findSession headers transport, w =>
    let (r, active) := w.active.findSession x.now headers transport
    some (r, { w with active := active }.marking t r)
  | .revokeSession headers transport, w =>
    let (r, active) := w.active.revokeSession x.now headers transport
    some (r, { w with active := active })
  | .clearSessions, w => some (.ok (), { w with active := { w.active with sessions := [] } })
  | .lock detached, w =>
    match detached, x.failed with
    | false, some e => some (.error e, w)
    | _, _ => if w.lock = none then some (.ok w.manager, { w with lock := some t }) else none
  | .unlock manager, w => some (.ok (), { w with manager := manager, lock := none })
  | .frozen, w => some (.ok x.frozen, w)
  | .tryPermit, w =>
    match w.permit with
    | none => some (.ok true, { w with permit := some { holder := t } })
    | some _ => some (.ok false, w)
  | .acquirePermit, w =>
    match w.permit with
    | none => some (.ok (), { w with permit := some { holder := t } })
    | some _ => none
  | .releasePermit, w => some (.ok (), { w with permit := none })
  | .work _, w => some (.ok (), w)

def effect (C : Compiler) (t : Thread) (c : Cmd) (w : World) (r : Except Error (Ans c)) (w' : World) : Prop :=
  ∃ x, perform C t x c w = some (r, w')

theorem returns_of_perform {C t x w w' a}
    {p : Lib.Program Cmd (fun c => Except Error (Ans c)) α} (h : p.run (perform C t x) w = some (a, w')) :
    p.Returns (effect C t) w a w' :=
  Lib.Program.returns_of_run (fun _ _ _ _ hx => ⟨x, hx⟩) h

/-! ### Secrets -/

theorem foldl_difference_eq_zero (pairs : List (UInt8 × UInt8)) (d) :
    pairs.foldl (fun difference pair => difference ||| (pair.1 ^^^ pair.2)) d = 0 ↔
      d = 0 ∧ ∀ pair ∈ pairs, pair.1 = pair.2 := by
  induction pairs generalizing d with
  | nil => simp
  | cons pair pairs ih =>
    rw [List.foldl_cons, ih, List.forall_mem_cons, ← and_assoc]
    have hstep : d ||| (pair.1 ^^^ pair.2) = 0 ↔ d = 0 ∧ pair.1 = pair.2 := by
      rw [← UInt8.toBitVec_inj, ← UInt8.toBitVec_inj, ← UInt8.toBitVec_inj]
      simp [BitVec.or_eq_zero_iff, BitVec.xor_eq_zero_iff]
    rw [hstep]

theorem secretMatches_iff {supplied expected} : secretMatches supplied expected = true ↔ supplied = expected := by
  unfold secretMatches
  rw [Bool.and_eq_true, beq_iff_eq, beq_iff_eq, foldl_difference_eq_zero]
  constructor
  · intro ⟨hlength, _, hpairs⟩
    refine List.ext_getElem hlength fun i h h' => ?_
    refine hpairs (supplied[i], expected[i]) ?_
    rw [List.mem_iff_getElem]
    exact ⟨i, by simp [h, h'], List.getElem_zip⟩
  · intro heq
    subst heq
    refine ⟨rfl, rfl, fun pair hpair => ?_⟩
    obtain ⟨i, h, rfl⟩ := List.mem_iff_getElem.mp hpair
    simp

end Parins.Manage
