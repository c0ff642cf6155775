/-
`Cache` itself: its shards and their budgets, lookup, admission of answers and
failures, and invalidation. An operation takes the lock of one shard, or of all,
so each is one step of the cache.
-/
import Parins.Cache.Shard
import Parins.Cache.Response

namespace Parins

structure Cache where
  config : Cache.CacheConfig
  shards : List Cache.Shard
  hasher : Cache.Key → Nat
  rules : List Cache.Rule
  epoch : Nat
  bypasses : Nat
  refreshUseful : Nat
  refreshUnused : Nat
  diagnostics : Cache.Diagnostics

namespace Cache
open Net Lib

/-- What the cache takes from outside: the codec, SHA-256, and the fixed size of an entry's records. -/
structure Platform where
  hickory : Hickory
  sha256 : Bytes → Bytes
  overhead : Nat

/-! ## Budgets -/

/-- The split of the configured limits into positive and negative entries. -/
structure Budgets where
  entries : Bool → Nat
  bytes : Bool → Nat

def budgets (config : CacheConfig) : Budgets :=
  let negativeEntries := config.maxEntries * config.negativePercent / 100
  let negativeBytes := if negativeEntries = 0 then 0 else config.maxBytes * config.negativePercent / 100
  { entries := fun negative => if negative then negativeEntries else config.maxEntries - negativeEntries
    bytes := fun negative => if negative then negativeBytes else config.maxBytes - negativeBytes }

def shardCount (config : CacheConfig) : Nat :=
  let b := budgets config
  let count := min config.shards (max (b.entries false) 1)
  let count := if b.entries true = 0 then count else min count (b.entries true)
  let count := min count (max (b.bytes false / 1024) 1)
  let count := if b.entries true = 0 then count else min count (max (b.bytes true / 1024) 1)
  max count 1

/-- `portion`: the `i`-th of `count` shares of `total`. -/
def portion (count total i : Nat) : Nat := total / count + ofBool (decide (i < total % count))

def Shard.new (config : CacheConfig) (count i : Nat) : Shard where
  buckets _ := none
  partitions negative :=
    .new (portion count ((budgets config).entries negative) i) (portion count ((budgets config).bytes negative) i)
  cells _ := {}
  clock := 0
  counts := {}
  sharing := .new (Sharing.capacity config.maxEntries count)
  learned := 0
  failures := 0

/-- `Cache::new`, with the hash function its `RandomState` picks. -/
def new (hasher : Key → Nat) (config : CacheConfig) : Cache where
  config := config
  shards := (List.range (shardCount config)).map (Shard.new config (shardCount config))
  hasher := hasher
  rules := sortRules config.rules
  epoch := 0
  bypasses := 0
  refreshUseful := 0
  refreshUnused := 0
  diagnostics := {}

/-- `Cache::shard`. -/
def shardOf (c : Cache) (key : Key) : Nat := c.hasher key % c.shards.length

/-- `self.shards[i].lock()`. -/
def lock (c : Cache) (i : Nat) : Option Locked :=
  c.shards[i]?.map fun shard => ⟨shard, c.refreshUseful, c.refreshUnused⟩

def unlock (c : Cache) (i : Nat) (l : Locked) : Cache :=
  { c with
    shards := c.shards.set i l.shard
    refreshUseful := l.refreshUseful
    refreshUnused := l.refreshUnused }

/-- A step under the lock of a key's shard. -/
def withShard {α : Type} (c : Cache) (key : Key) (f : Locked → Option (Locked × α)) : Option (Cache × α) := do
  let l ← c.lock (c.shardOf key)
  let (l, a) ← f l
  some (c.unlock (c.shardOf key) l, a)

def forShards (c : Cache) (f : Nat → Locked → Option Locked) : Option Cache :=
  (List.range c.shards.length).foldlM (fun c i => do
    let l ← c.lock i
    let l ← f i l
    some (c.unlock i l)) c

def policy (c : Cache) (key : Key) (name : Name) : Policy := policyFor c.config c.rules key name

/-! ## Lookup -/

structure Hit where
  message : Message
  scope : Scope
  stale : Bool
  refresh : Bool
  authentic : Bool
  failure : Option Failure

structure LookupResult where
  hit : Option Hit
  decision : LookupDecision

def LookupResult.empty (outcome : LookupOutcome) (reason : Option DecisionReason) : LookupResult :=
  ⟨none, outcome, reason⟩

section Lookup

variable (pinned : Nat → Bool)

/-- An observed hit under the lock: the entry becomes the most recently used and is counted. -/
def Locked.touch (l : Locked) (part : Bool) (id : Nat) (now : Nat) : Option (Locked × Entry) := do
  let s := l.shard
  let p := s.partitions part
  let clock := s.clock + 1
  let e ← p.lru.peek id
  let fresh := e.fresh now
  let cells := s.cells id
  let counts := { s.counts with
    hits := s.counts.hits + ofBool fresh
    staleHits := s.counts.staleHits + ofBool (!fresh)
    sharedHits := s.counts.sharedHits + ofBool e.scope.isLearned
    failureHits := s.counts.failureHits + ofBool e.failure.isSome }
  some ({
    refreshUseful := l.refreshUseful + ofBool (cells.refreshed && fresh)
    refreshUnused := l.refreshUnused + ofBool (cells.refreshed && !fresh)
    shard := { s.setCells id ⟨false, cells.hits + 1, clock⟩ with
      clock, counts
      partitions := Function.update s.partitions part { p with lru := p.lru.promote id } } }, e)

/-- The locked part of `lookup_inner`: the entry that answers, and how often it has. -/
def Locked.lookup (l : Locked) (key : Key) (outgoing : Option ClientSubnet) (now : Nat) (allowStale observe : Bool) :
    Option (Locked × Option (Entry × Nat)) :=
  match l.shard.select key outgoing now allowStale with
  | none =>
    if observe then do
      let l ← l.prune pinned key now
      let counts := { l.shard.counts with misses := l.shard.counts.misses + ofBool (!allowStale) }
      some ({ l with shard := { l.shard with counts } }, none)
    else some (l, none)
  | some (part, id) =>
    if observe then do
      let (l, e) ← l.touch part id now
      some (l, some (e, (l.shard.cells id).hits))
    else do
      let e ← (l.shard.partitions part).lru.peek id
      some (l, some (e, (l.shard.cells id).hits))

end Lookup

/-- `Duration::as_millis`. -/
def millis (duration : Nat) : Nat := duration / 1000000

/-- The reply `lookup_inner` builds from an entry, once the lock is released. -/
def Entry.reply (P : Platform) (config : CacheConfig) (query : SingleQuery) (e : Entry) (hits now : Nat) :
    LookupResult :=
  let age := e.age now
  let stale := !e.fresh now
  let refresh := !stale && !e.negative && e.prefetch && decide (config.prefetch.minHits ≤ hits)
    && decide (millis (e.lifetime - age) * 100 ≤ millis e.lifetime * config.prefetch.remainingPercent)
  let elapsed := min (age / second) (2 ^ 32 - 1)
  match Protocol.decode P.hickory e.wire with
  | none => .empty .bypass (some .uncacheableResponse)
  | some message =>
    let message := message.mapRecords fun rr =>
      { rr with ttl := if stale then config.stale.replyTtlSecs else rr.ttl - elapsed }
    let authentic := message.authenticData && !stale
    let edns := match Protocol.replyEdns query.message with
      | none => message.edns
      | some edns =>
        -- A cached failure replays the source's Extended DNS Errors.
        some (if e.failure.isSome then (Protocol.extendedErrors message).foldl Edns.insert edns else edns)
    let message := { message with
      id := query.message.id, authenticData := false, queries := query.message.queries, edns }
    { hit := some { message, scope := e.scope, stale, refresh, authentic, failure := e.failure }
      decision := ⟨if stale then .stale else .fresh, none⟩ }

def lookupInner (P : Platform) (c : Cache) (pinned : Nat → Nat → Bool) (query : SingleQuery)
    (outgoing : Option ClientSubnet) (now : Nat) (allowStale observe : Bool) : Option (Cache × LookupResult) :=
  let bypassed := { c with bypasses := c.bypasses + ofBool (observe && !allowStale) }
  match Key.of query with
  | none => some (bypassed, .empty .bypass (some (queryRejection query)))
  | some key =>
    if (c.policy key query.question.name).bypass then
      some (bypassed, .empty (if c.config.enabled then .bypass else .disabled) (some .policyDisabled))
    else do
      let (c, found) ← c.withShard key fun l =>
        l.lookup (pinned (c.shardOf key)) key outgoing now allowStale observe
      match found with
      | none => some (c, .empty .miss none)
      | some (e, hits) => some (c, e.reply P c.config query hits now)

def lookupWithDecision (P : Platform) (c : Cache) (pinned : Nat → Nat → Bool) (query : SingleQuery)
    (outgoing : Option ClientSubnet) (now : Nat) (allowStale : Bool) : Option (Cache × LookupResult) := do
  let (c, result) ← c.lookupInner P pinned query outgoing now allowStale true
  some ({ c with diagnostics := c.diagnostics.recordLookup result.decision }, result)

def peek (P : Platform) (c : Cache) (pinned : Nat → Nat → Bool) (query : SingleQuery)
    (outgoing : Option ClientSubnet) (now : Nat) (allowStale : Bool) : Option (Cache × Option Hit) := do
  let (c, result) ← c.lookupInner P pinned query outgoing now allowStale false
  some (c, result.hit)

end Cache

end Parins
