/-
The vocabulary of `cache.rs`: its configuration with the limits `Config::validate`
checks, the keys entries are stored under, and the decisions it reports. Times
are nanoseconds, configured durations seconds as in the source.
-/
import Parins.Ecs.Scope

namespace Parins.Cache
open Net

/-- One second of an `Instant` or a `Duration`, in nanoseconds. -/
def second : Nat := 1000000000

/-! ## Configuration -/

structure PrefetchConfig where
  enabled : Bool := false
  minHits : Nat := 1
  remainingPercent : Nat := 25

structure StaleConfig where
  enabled : Bool := false
  retentionSecs : Nat := 300
  replyTtlSecs : Nat := 30

structure EcsSharingConfig where
  enabled : Bool := false
  minNetworks : Nat := 3
  revokeCooldownSecs : Nat := 3600

/-- A rule of `cache.rules`, its name and type parsed as `Config::validate` requires. -/
structure CacheRule where
  name : Name
  suffix : Bool := false
  qtype : Option RecordType := none
  bypass : Bool := false
  maxTtlSecs : Option Nat := none
  negativeTtlCapSecs : Option Nat := none
  prefetch : Option Bool := none
  stale : Option Bool := none

structure CacheConfig where
  enabled : Bool := true
  maxEntries : Nat := 262144
  maxBytes : Nat := 268435456
  maxVariants : Nat := 64
  maxTtlSecs : Nat := 86400
  negativeTtlCapSecs : Nat := 900
  servfailTtlSecs : Nat := 30
  shards : Nat := 16
  negativePercent : Nat := 20
  prefetch : PrefetchConfig := {}
  stale : StaleConfig := {}
  ecsSharing : EcsSharingConfig := {}
  rules : List CacheRule := []

def MAX_CACHE_ENTRIES : Nat := 16 * 1024 * 1024
def MAX_CACHE_BYTES : Nat := 64 * 1024 * 1024 * 1024
def MAX_CACHE_TTL_SECS : Nat := 604800

def EcsSharingConfig.validate (c : EcsSharingConfig) : Bool :=
  decide (2 ≤ c.minNetworks ∧ c.minNetworks ≤ 64)
    && decide (60 ≤ c.revokeCooldownSecs ∧ c.revokeCooldownSecs ≤ 2592000)

def CacheRule.validate (r : CacheRule) : Bool :=
  [r.maxTtlSecs, r.negativeTtlCapSecs].all fun ttl => ttl.all fun t => decide (1 ≤ t ∧ t ≤ MAX_CACHE_TTL_SECS)

/-- The checks of `Config::validate` on `cache`. -/
def CacheConfig.validate (c : CacheConfig) : Bool :=
  decide (1 ≤ c.maxEntries ∧ c.maxEntries ≤ MAX_CACHE_ENTRIES)
    && decide (512 ≤ c.maxBytes ∧ c.maxBytes ≤ MAX_CACHE_BYTES)
    && decide (1 ≤ c.maxVariants ∧ c.maxVariants ≤ 4096 ∧ c.maxVariants ≤ c.maxEntries)
    && decide (1 ≤ c.maxTtlSecs ∧ c.maxTtlSecs ≤ MAX_CACHE_TTL_SECS)
    && decide (1 ≤ c.negativeTtlCapSecs ∧ c.negativeTtlCapSecs ≤ MAX_CACHE_TTL_SECS)
    && decide (c.servfailTtlSecs ≤ 300)
    && decide (1 ≤ c.shards ∧ c.shards ≤ 256)
    && decide (c.negativePercent ≤ 90)
    && decide (1 ≤ c.prefetch.minHits ∧ c.prefetch.minHits ≤ 1000000)
    && decide (1 ≤ c.prefetch.remainingPercent ∧ c.prefetch.remainingPercent ≤ 90)
    && decide (1 ≤ c.stale.retentionSecs ∧ c.stale.retentionSecs ≤ 2592000)
    && decide (1 ≤ c.stale.replyTtlSecs ∧ c.stale.replyTtlSecs ≤ 3600)
    && c.ecsSharing.validate
    && decide (c.rules.length ≤ 4096)
    && c.rules.all CacheRule.validate

/-! ## Keys -/

structure Key where
  name : Name
  kind : RecordType
  dnsClass : DNSClass
  dnssecOk : Bool
  checkingDisabled : Bool
  recursionDesired : Bool
  edns : Bool
deriving DecidableEq

/-- `key_name`: keys hold lowercase absolute names. -/
def keyName (name : Name) : Name := { name.toLowercase with fqdn := true }

def plainEdns (message : Message) : Bool := Protocol.ednsWithin message [.Subnet, .Padding]

/-- `superseding_edns`: an Extended DNS Error may supersede old knowledge. -/
def supersedingEdns (message : Message) : Bool :=
  Protocol.ednsWithin message [.Subnet, .Padding, .ExtendedError]

def Key.of (query : SingleQuery) : Option Key :=
  if query.question.queryClass ≠ .IN ∨ ¬plainEdns query.message then none
  else some {
    name := keyName query.question.name
    kind := query.question.queryType
    dnsClass := query.question.queryClass
    dnssecOk := query.message.edns.any (·.dnssecOk)
    checkingDisabled := query.message.checkingDisabled
    recursionDesired := query.message.recursionDesired
    edns := query.message.edns.isSome }

/-! ## Decisions -/

inductive DecisionReason where
  | unsupportedQuery | unsupportedEdns | ecsUnusable | ttlZero | negativeWithoutSoa
  | uncacheableResponse | policyDisabled | capacity | variantLimit | epochChanged
deriving DecidableEq

inductive LookupOutcome where
  | fresh | stale | miss | bypass | disabled
deriving DecidableEq

structure LookupDecision where
  outcome : LookupOutcome
  reason : Option DecisionReason
deriving DecidableEq

inductive StoreOutcome where
  | admitted | replaced | skipped | supersededOnly
deriving DecidableEq

structure StoreDecision where
  outcome : StoreOutcome
  reason : Option DecisionReason
deriving DecidableEq

namespace StoreDecision

def admitted (d : StoreDecision) : Bool := d.outcome == .admitted || d.outcome == .replaced

def skipped (reason : DecisionReason) : StoreDecision := ⟨.skipped, some reason⟩

def rejected (reason : DecisionReason) (superseded : Bool) : StoreDecision :=
  ⟨if superseded then .supersededOnly else .skipped, some reason⟩

end StoreDecision

def queryRejection (query : SingleQuery) : DecisionReason :=
  if plainEdns query.message then .unsupportedQuery else .unsupportedEdns

inductive EvictionReason where
  | entries | bytes | entriesAndBytes | variants
deriving DecidableEq

inductive EvictionState where
  | fresh | retained | expired
deriving DecidableEq

/-- `decision::Diagnostics`: how often each decision was made. -/
structure Diagnostics where
  lookup : LookupOutcome → Nat := fun _ => 0
  store : StoreOutcome → Nat := fun _ => 0
  lookupReasons : DecisionReason → Nat := fun _ => 0
  storeReasons : DecisionReason → Nat := fun _ => 0

/-- `counters[i].fetch_add(1)`. -/
def bump {α : Type} [DecidableEq α] (counters : α → Nat) (i : α) : α → Nat :=
  fun j => if j = i then counters j + 1 else counters j

def bumpSome {α : Type} [DecidableEq α] (counters : α → Nat) : Option α → α → Nat
  | some i => bump counters i
  | none => counters

def Diagnostics.recordLookup (d : Diagnostics) (decision : LookupDecision) : Diagnostics :=
  { d with
    lookup := bump d.lookup decision.outcome
    lookupReasons := bumpSome d.lookupReasons decision.reason }

def Diagnostics.recordStore (d : Diagnostics) (decision : StoreDecision) : Diagnostics :=
  { d with
    store := bump d.store decision.outcome
    storeReasons := bumpSome d.storeReasons decision.reason }

end Parins.Cache
