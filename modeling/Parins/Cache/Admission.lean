/-
How knowledge enters and leaves the cache: `Cache::admit` for answers, refreshes
and snapshot records, `Cache::admit_failure` for upstream failures, and
`Cache::invalidate`.
-/
import Parins.Cache.Store

namespace Parins.Cache
open Net Lib

/-- A snapshot record's admission: its remaining seconds and its use stamp. -/
structure Restore where
  remaining : Nat
  accessed : Nat

/-- Who supplies an answer to `Cache::admit`. -/
inductive Origin where
  | answer
  | refresh
  | restore (r : Restore)

namespace Origin

def restore? : Origin → Option Restore
  | .restore r => some r
  | _ => none

def restoring (o : Origin) : Bool := o.restore?.isSome

def isRefresh : Origin → Bool
  | .refresh => true
  | _ => false

end Origin

/-- An answer ready for storage: its wire form, lifetime in seconds and kind. -/
structure Prepared where
  wire : Bytes
  lifetime : Nat
  negative : Bool

/-- The preparation `admit` makes outside the lock. A restored answer lives no longer than its
record says. -/
def prepare (H : Hickory) (query : SingleQuery) (response : Message) (policy : Policy) (origin : Origin) :
    Except DecisionReason Prepared := do
  let (stored, lifetime, negative) ← prepareResponse query response policy
  let lifetime := match origin.restore? with
    | some r => min lifetime r.remaining
    | none => lifetime
  if lifetime = 0 then .error .ttlZero
  else match H.toVec stored with
    | some wire => .ok ⟨wire, lifetime, negative⟩
    | none => .error .uncacheableResponse

/-- An answer as `admit` takes it under the lock, with all it prepared outside. -/
structure Offer where
  key : Key
  scope : Scope
  policy : Policy
  prepared : Except DecisionReason Prepared
  fingerprint : Option Sharing.Fingerprint
  origin : Origin

/-- What `Table::observe` is told of the answer. -/
def Offer.told (o : Offer) : Sharing.Answer :=
  ⟨o.key, o.scope, o.fingerprint, o.prepared.toOption.map fun answer => answer.lifetime * second⟩

def Offer.stored (config : CacheConfig) (o : Offer) (answer : Prepared) : Stored :=
  let lifetime := answer.lifetime * second
  { wire := answer.wire
    scope := o.scope
    lifetime
    retention :=
      if o.policy.stale && !answer.negative then lifetime + config.stale.retentionSecs * second else lifetime
    negative := answer.negative
    failure := none
    prefetch := o.policy.prefetch
    refreshed := o.origin.isRefresh
    accessed := o.origin.restore?.map Restore.accessed }

/-- An upstream failure as `admit_failure` takes it under the lock. -/
structure FailureOffer where
  key : Key
  scope : Scope
  wire : Bytes
  lifetime : Nat
  failure : Failure

def FailureOffer.stored (o : FailureOffer) : Stored where
  wire := o.wire
  scope := o.scope
  lifetime := o.lifetime * second
  retention := o.lifetime * second
  negative := true
  failure := some o.failure
  prefetch := false
  refreshed := false
  accessed := none

section Locked

variable (P : Platform) (config : CacheConfig) (pinned : Nat → Bool)

/-- Whether a snapshot record can enter without evicting or superseding anything. -/
def Shard.admitsRestored (s : Shard) (o : Offer) (answer : Prepared) : Bool :=
  let p := s.partitions answer.negative
  decide (p.lru.items.length < p.maxEntries)
    && decide (p.charged + charge P.overhead answer.wire o.key ≤ p.maxBytes)
    && (s.buckets o.key).all fun entries =>
      decide (entries.length < config.maxVariants) && entries.all fun e => !e.scope.overlaps o.scope

/-- The classification of `admit`: the scope the answer is stored under. -/
def Locked.classify (l : Locked) (o : Offer) (now : Nat) : Locked × Offer :=
  let (sharing, observation) := l.shard.sharing.observe o.told now config.ecsSharing
  let counts := { l.shard.counts with
    revocations := l.shard.counts.revocations + ofBool observation.revoked }
  ({ l with shard := { l.shard with sharing, counts } }, { o with scope := observation.scope })

/-- The end of `admit`: the new answer supersedes every overlapping entry, and is placed if it
can be stored. -/
def Locked.supersede (l : Locked) (o : Offer) (now : Nat) : Option (Locked × StoreDecision) := do
  let replaced := l.shard.targets o.key fun e => e.scope.overlaps o.scope
  let superseded := !replaced.isEmpty
  let l ← l.removeAll pinned replaced
  match o.prepared with
  | .error reason => some (l, .rejected reason superseded)
  | .ok answer => l.place pinned P.overhead config.maxVariants o.key (o.stored config answer) now superseded

/-- The locked part of `admit`, after the epoch check. -/
def Locked.admitAnswer (l : Locked) (o : Offer) (now : Nat) : Option (Locked × StoreDecision) := do
  let l ← l.prune pinned o.key now
  if o.origin.restoring then
    match o.prepared with
    | .error reason => some (l, .skipped reason)
    | .ok answer =>
      if l.shard.admitsRestored P config o answer then l.supersede P config pinned o now
      else some (l, .skipped .capacity)
  else if config.ecsSharing.enabled then
    let (l, o) := l.classify config o now
    l.supersede P config pinned o now
  else l.supersede P config pinned o now

/-- The locked part of `admit_failure`, after the epoch check. -/
def Locked.admitFailure (l : Locked) (o : FailureOffer) (now : Nat) : Option (Locked × StoreDecision) := do
  let l ← l.prune pinned o.key now
  let overlapping := ((l.shard.buckets o.key).getD []).filter fun e => e.scope.overlaps o.scope
  if overlapping.any fun e => e.failure.isNone && e.fresh now then
    some (l, .skipped .uncacheableResponse)
  else
    let replaced := (overlapping.filter fun e => e.failure.isSome).map fun e => (true, e.id)
    let superseded := !replaced.isEmpty
    let l ← l.removeAll pinned replaced
    l.place pinned P.overhead config.maxVariants o.key o.stored now superseded

end Locked

/-! ## Admission -/

section Admission

variable (P : Platform)

/-- The checks of `admit` on the response, before anything is prepared. -/
def rejection (response : Message) : Option DecisionReason :=
  if ¬supersedingEdns response then some .unsupportedEdns
  else if response.truncation ∨ response.signature
      ∨ ¬(response.responseCode = .noError ∨ response.responseCode = .nxDomain) then some .uncacheableResponse
  else none

def isExactSource : Scope → Bool
  | .exactSource _ => true
  | _ => false

/-- The fingerprint `admit` computes: for an exact source, when the cache learns from it. -/
def fingerprintOf (config : CacheConfig) (query : SingleQuery) (response : Message) (scope : Scope) (origin : Origin) :
    Option Sharing.Fingerprint :=
  if config.ecsSharing.enabled && !origin.restoring && isExactSource scope then
    fingerprint P.hickory P.sha256 query.question response
  else none

/-- What `admit` prepares outside the lock. -/
def offer (c : Cache) (query : SingleQuery) (response : Message) (scope : Scope) (origin : Origin) (key : Key) :
    Offer :=
  let policy := c.policy key query.question.name
  { key, scope, policy, origin
    prepared := prepare P.hickory query response policy origin
    fingerprint := fingerprintOf P c.config query response scope origin }

variable (c : Cache) (pinned : Nat → Nat → Bool) (query : SingleQuery) (response : Message) (scope : Scope)
  (now epoch : Nat)

/-- `Cache::admit`. -/
def admitAnswer (origin : Origin) : Option (Cache × StoreDecision) :=
  match Key.of query with
  | none => some (c, .skipped (queryRejection query))
  | some key =>
    if (c.policy key query.question.name).bypass then some (c, .skipped .policyDisabled)
    else match rejection response with
      | some reason => some (c, .skipped reason)
      | none =>
        let offer := c.offer P query response scope origin key
        c.withShard key fun l =>
          if epoch ≠ c.epoch then some (if origin.restoring then l else l.reject, .skipped .epochChanged)
          else l.admitAnswer P c.config (pinned (c.shardOf key)) offer now

def recordStore (p : Cache × StoreDecision) : Cache × StoreDecision :=
  ({ p.1 with diagnostics := p.1.diagnostics.recordStore p.2 }, p.2)

def insertDecisionIfEpoch : Option (Cache × StoreDecision) :=
  (c.admitAnswer P pinned query response scope now epoch .answer).map recordStore

def insertRefreshIfEpoch : Option (Cache × StoreDecision) :=
  (c.admitAnswer P pinned query response scope now epoch .refresh).map recordStore

/-- The message a failure is stored as: an error response with the source's Extended DNS Errors. -/
def failureResponse : Message :=
  let stored := Protocol.errorResponse query.message .servFail
  let errors := Protocol.extendedErrors response
  if errors.isEmpty then stored
  else
    let edns := stored.edns.getD { maxPayload := Protocol.MAX_UDP_PAYLOAD }
    { stored with edns := some (errors.foldl Edns.insert edns) }

def admitFailure (failure : Failure) : Option (Cache × StoreDecision) :=
  match Key.of query with
  | none => some (c, .skipped (queryRejection query))
  | some key =>
    let policy := c.policy key query.question.name
    if policy.bypass then some (c, .skipped .policyDisabled)
    else
      let lifetime := min c.config.servfailTtlSecs policy.negativeTtlCapSecs
      if response.responseCode ≠ .servFail ∨ response.truncation ∨ response.signature
          ∨ ¬supersedingEdns response ∨ lifetime = 0 then some (c, .skipped .uncacheableResponse)
      else match P.hickory.toVec (failureResponse query response) with
        | none => some (c, .skipped .uncacheableResponse)
        | some wire =>
          c.withShard key fun l =>
            if epoch ≠ c.epoch then some (l.reject, .skipped .epochChanged)
            else l.admitFailure P c.config (pinned (c.shardOf key)) ⟨key, scope, wire, lifetime, failure⟩ now

def insertFailureIfEpoch (failure : Failure) : Option (Cache × StoreDecision) :=
  (c.admitFailure P pinned query response scope now epoch failure).map recordStore

end Admission

/-! ## Invalidation -/

/-- The ids of a shard's entries that satisfy `p`, from both partitions. -/
def Shard.resident (s : Shard) (p : Entry → Bool) : List (Bool × Nat) :=
  ([false, true].map fun part =>
    ((s.partitions part).lru.items.filter fun item => p item.2).map fun item => (part, item.1)).flatten

/-- The filter of `Cache::invalidate` on an entry. -/
def Entry.cleared (f : Sharing.Filter) (e : Entry) : Bool :=
  f.matchesKey e.key && f.scope.all fun s => e.scope == s || e.scope.learnedServes s

def Locked.clear (l : Locked) (pinned : Nat → Bool) (f : Sharing.Filter) : Option Locked := do
  let l ← l.removeAll pinned (l.shard.resident (Entry.cleared f))
  some { l with shard := { l.shard with sharing := l.shard.sharing.invalidate f } }

/-- `Cache::invalidate`: every shard is locked before the epoch advances. -/
def invalidate (c : Cache) (pinned : Nat → Nat → Bool) (name : Option Name) (kind : Option RecordType)
    (scope : Option Scope) : Option (Cache × Nat) := do
  let f : Sharing.Filter := ⟨name.map keyName, kind, scope⟩
  let removed := (c.shards.map fun s => (s.resident (Entry.cleared f)).length).sum
  let c ← { c with epoch := c.epoch + 1 }.forShards fun i l => l.clear (pinned i) f
  some (c, removed)

end Parins.Cache
