/-
Requests and the upstream work they share: `flight.rs`, `Generation` and the
request path of `resolver.rs` around one cache, as a system whose steps any
number of requests interleave. Each step takes at most one lock. What a response
policy makes of an answer, metrics and traces are outside of it.
-/
import Parins.Cache.Isolation

namespace Parins

namespace Protocol

def hasPadding (message : Message) : Bool := message.edns.any fun e => (e.option .Padding).isSome

def stripPadding (message : Message) : Message := { message with edns := message.edns.map (·.remove .Padding) }

def canonicalWorkKey (H : Hickory) (query : Message) : Option Bytes :=
  match query.queries with
  | [question] =>
    if question.queryClass ≠ .IN ∨ query.signature ∨ ¬ednsWithin query [.Subnet, .Padding] then none
    else
      let normalized := { query with
        id := 0, queries := [{ question with name := question.name.toLowercase }] }
      let normalized :=
        if hasPadding normalized then
          let stripped := stripPadding normalized
          { stripped with edns := stripped.edns.map (·.insert (.unknown 12 [])) }
        else normalized
      H.toVec normalized
  | _ => none

end Protocol

/-- `config.coalescing`. -/
structure CoalescingConfig where
  enabled : Bool := true
  maxGroups : Nat := 128
  maxWaiters : Nat := 64

/-- What shared work gives to each of its callers (`flight::Answer`). -/
structure Answer where
  response : Option (Message × Option Nat)
  staleEligible : Bool
  admitted : Bool
  cached : Bool
  prefetch : Bool

/-- A registry of work in flight, by the canonical key of its query. -/
structure Flights where
  groups : List (Bytes × Nat) := []

inductive Role where
  | bypass | leader | joined
deriving DecidableEq

/-- `Flights::join`: the work the caller holds from now on, or nothing when the registry or the
work is full. `running` says which works can be upgraded and are not complete, `upgrades` which
can still be upgraded when the group is read again, `holds` how many holders each has; `new` is
the work the caller brings. -/
def Flights.join (config : CoalescingConfig) (f : Flights) (key : Option Bytes) (running upgrades : Nat → Bool)
    (holds : Nat → Nat) (new : Nat) : Flights × Option (Nat × Role) :=
  match if config.enabled then key else none with
  | none => (f, some (new, .bypass))
  | some key =>
    let groups := f.groups.filter fun g => running g.2
    match groups.find? fun g => g.1 = key ∧ upgrades g.2 with
    | some (_, work) =>
      if config.maxWaiters ≤ holds work then (⟨groups⟩, none) else (⟨groups⟩, some (work, .joined))
    | none =>
      if config.maxGroups ≤ groups.length then (⟨groups⟩, none)
      else (⟨(key, new) :: groups.filter fun g => g.1 ≠ key⟩, some (new, .leader))

namespace Resolver
open Cache

/-- `Generation`: the cache, and the registry of the newest epoch a request asked for. -/
structure Generation where
  cache : Cache
  /-- Every registry ever made, with the epoch it was made for; nothing reads that epoch. -/
  registries : List (Nat × Flights)
  /-- The epoch of the shared registry, and which it is. -/
  flights : Nat × Nat

def Generation.new (hasher : Key → Nat) (config : CacheConfig) : Generation := ⟨.new hasher config, [(0, {})], (0, 0)⟩

/-- `Generation::flights`: a request captured before an invalidation does not move the registry
backwards. -/
def Generation.flightsAt (g : Generation) (epoch : Nat) : Generation × Nat :=
  if g.flights.1 = epoch then (g, g.flights.2)
  else
    let new := g.registries.length
    ({ g with
      registries := g.registries ++ [(epoch, {})]
      flights := if g.flights.1 < epoch then (epoch, new) else g.flights }, new)

/-! ## Upstream work -/

/-- How far `Exchange::run` has come. -/
inductive Stage where
  | unpolled
  | exchanging
  | exchanged (result : Option Message) (retried bogus : Bool)
  /-- Its answer is stored, its callers have not been woken. -/
  | stored (answer : Answer)
  | complete (answer : Answer)

/-- `Exchange`, and the holders of the work it runs as. -/
structure Work where
  /-- The request that captured its epoch. -/
  owner : Nat
  query : SingleQuery
  context : Context
  outbound : Message
  epoch : Nat
  refreshing : Bool
  holds : Nat
  stage : Stage

def Stage.isComplete : Stage → Bool
  | .complete _ => true
  | _ => false

/-- The answer of work that found a fresh entry when it was first polled. -/
def Work.cachedAnswer (w : Work) (hit : Hit) : Answer where
  response := some ({ hit.message with authenticData := hit.authentic }, hit.scope.replyScope w.context.outgoing)
  staleEligible := hit.failure == some .staleFallback
  admitted := false
  cached := true
  prefetch := w.refreshing

/-- The exchange with the source: a refused query with ECS is tried once more without the network.
`first` and `second` are what the source gives. -/
def Work.exchange (w : Work) (first second : Option Message) : Option Message × Bool :=
  match first with
  | none => (none, false)
  | some response =>
    if response.responseCode = .refused ∧ w.context.outgoing.any fun ecs => decide (0 < ecs.sourcePrefix) then
      (second, true)
    else (some response, false)

def recordUnusableScope (c : Cache) : Cache × StoreDecision := recordStore (c, .skipped .ecsUnusable)

/-- What `Exchange::run` stores of a response. -/
def Work.store (P : Platform) (w : Work) (c : Cache) (pinned : Nat → Nat → Bool) (now : Nat) (response : Message)
    (bogus : Bool) : Option (Cache × StoreDecision) :=
  let servfail := response.responseCode = .servFail
  match if servfail then w.context.sourceScope else (w.context.responseScope response).cache with
  | none => some (recordUnusableScope c)
  | some scope =>
    if servfail then
      c.insertFailureIfEpoch P pinned w.query response scope now w.epoch (if bogus then .final else .staleFallback)
    else if w.refreshing then c.insertRefreshIfEpoch P pinned w.query response scope now w.epoch
    else c.insertDecisionIfEpoch P pinned w.query response scope now w.epoch

/-- The answer of work that reached a source. -/
def Work.fetchedAnswer (w : Work) (response : Message) (retried bogus : Bool) (store : Option StoreDecision) : Answer :=
  let servfail := response.responseCode = .servFail
  { response := some (response, if retried then none else (w.context.responseScope response).reply)
    staleEligible := servfail && !retried && !bogus
    admitted := !servfail && store.any StoreDecision.admitted
    cached := false
    prefetch := w.refreshing }

def Work.failedAnswer (w : Work) (retried : Bool) : Answer where
  response := none
  staleEligible := !retried
  admitted := false
  cached := false
  prefetch := w.refreshing

/-! ## Requests -/

/-- Where a request is in `resolve_inner`. -/
inductive Phase where
  /-- It has read the epoch. -/
  | started
  | missed
  | found (hit : Hit)
  /-- A hit near expiry, with the registry its refresh may join. -/
  | refreshing (hit : Hit) (registry : Nat)
  | obtained (registry : Nat)
  | waiting (work : Nat)
  /-- What it has of the work it held; none when the registry was full. -/
  | resolved (work : Option Nat) (answer : Answer)
  | replied (work : Option Nat)
  /-- Its caller left. -/
  | gone

structure Request where
  query : SingleQuery
  context : Context
  outbound : Message
  epoch : Nat
  phase : Phase

/-- The work whose answer the request waits for or has received. -/
def Phase.work? : Phase → Option Nat
  | .waiting work => some work
  | .resolved work _ | .replied work => work
  | _ => none

/-- The registry the request has obtained and not yet used. -/
def Phase.registry? : Phase → Option Nat
  | .refreshing _ registry | .obtained registry => some registry
  | _ => none

structure State where
  generation : Generation
  requests : List Request
  works : List Work
  /-- Which work put which entry into which shard; nothing reads it. -/
  admitted : List (Nat × Entry × Nat)

def State.init (hasher : Key → Nat) (config : CacheConfig) : State := ⟨.new hasher config, [], [], []⟩

def State.cache (s : State) : Cache := s.generation.cache

def State.setCache (s : State) (cache : Cache) : State := { s with generation := { s.generation with cache } }

def State.setPhase (s : State) (r : Nat) (phase : Phase) : State :=
  { s with requests := s.requests.modify r fun req => { req with phase } }

def State.setStage (s : State) (w : Nat) (stage : Stage) : State :=
  { s with works := s.works.modify w fun work => { work with stage } }

def State.release (s : State) (w : Nat) : State :=
  { s with works := s.works.modify w fun work => { work with holds := work.holds - 1 } }

/-- The entries of the second cache that the first has not. -/
def newEntries (c c' : Cache) : List (Nat × Entry) :=
  (List.range c'.shards.length).flatMap fun i =>
    (((c'.shards[i]?.map Shard.entries).getD []).filter fun e => e ∉ (c.shards[i]?.map Shard.entries).getD []).map
      fun e => (i, e)

/-- A request or its refresh joins a registry, with the work it would lead. -/
def State.join (H : Hickory) (config : CoalescingConfig) (s : State) (r : Nat) (request : Request) (registry : Nat)
    (refreshing : Bool) (upgradable upgrades : Nat → Bool) : Option (State × Option Nat) := do
  let (epoch, flights) ← s.generation.registries[registry]?
  let running w := upgradable w && s.works[w]?.any fun work => !work.stage.isComplete
  let (flights, held) := flights.join config (Protocol.canonicalWorkKey H request.outbound) running upgrades
    (fun w => (s.works[w]?.map Work.holds).getD 0) s.works.length
  let s := { s with
    generation := { s.generation with registries := s.generation.registries.set registry (epoch, flights) } }
  match held with
  | none => some (s, none)
  | some (w, .joined) =>
    some ({ s with works := s.works.modify w fun work => { work with holds := work.holds + 1 } }, some w)
  | some (w, _) =>
    let work : Work := {
      owner := r, query := request.query, context := request.context, outbound := request.outbound
      epoch := request.epoch, refreshing, holds := 1, stage := .unpolled }
    some ({ s with works := s.works ++ [work] }, some w)

/-! ## Steps -/

inductive Op where
  /-- A request arrives: it reads the epoch, then prepares its outgoing query. -/
  | arrive (query : SingleQuery) (peer : Net.IpAddr)
  | lookup (r : Nat)
  | flights (r : Nat)
  | join (r : Nat) (upgradable upgrades : Nat → Bool)
  /-- The refresh owner takes the refresh of a hit, or refuses it. -/
  | refresh (r : Nat) (taken : Bool) (upgradable upgrades : Nat → Bool)
  /-- A hit is answered; a cached failure prefers a stale answer. -/
  | answer (r : Nat)
  | poll (w : Nat)
  | exchange (w : Nat) (first second : Option Message) (bogus : Bool)
  | store (w : Nat)
  | complete (w : Nat)
  | receive (r : Nat)
  | reply (r : Nat)
  /-- The caller leaves; `handover` when the refresh owner takes its hold. -/
  | leave (r : Nat) (handover : Bool)
  /-- The refresh owner drops a hold. -/
  | drop (w : Nat)
  | invalidate (name : Option Name) (kind : Option RecordType) (scope : Option Scope)

structure Event where
  now : Nat
  pinned : Nat → Nat → Bool := fun _ _ => false
  op : Op

structure Settings where
  ecs : EcsConfig
  coalescing : CoalescingConfig

/-- The work, while somebody holds it. -/
def State.held (s : State) (w : Nat) : Option Work := s.works[w]?.filter fun work => decide (0 < work.holds)

/-- `Answer` for a request the registry has no room for. -/
def rejectedAnswer : Answer := ⟨none, false, false, false, false⟩

section Step

variable (P : Platform) (settings : Settings)

/-- The first poll of `Exchange::run`: a fresh entry that another request has stored meanwhile
is the answer, unless this is the refresh that entry still asks for. -/
def State.poll (s : State) (pinned : Nat → Nat → Bool) (now w : Nat) (work : Work) : Option State := do
  let (cache, hit) ← s.cache.peek P pinned work.query work.context.outgoing now false
  match hit with
  | some hit =>
    if !work.refreshing || !hit.refresh then
      some ((s.setCache cache).setStage w (.stored (work.cachedAnswer hit)))
    else some ((s.setCache cache).setStage w .exchanging)
  | none => some ((s.setCache cache).setStage w .exchanging)

/-- The end of `Exchange::run`: the response is stored, unless it came from the retry. -/
def State.storeWork (s : State) (pinned : Nat → Nat → Bool) (now w : Nat) (work : Work) (result : Option Message)
    (retried bogus : Bool) : Option State :=
  match result with
  | none => some (s.setStage w (.stored (work.failedAnswer retried)))
  | some response =>
    if retried then some (s.setStage w (.stored (work.fetchedAnswer response retried bogus none)))
    else do
      let (cache, decision) ← work.store P s.cache pinned now response bogus
      let admitted := s.admitted ++ (newEntries s.cache cache).map fun p => (p.1, p.2, w)
      some ({ s.setCache cache with admitted }.setStage w
        (.stored (work.fetchedAnswer response retried bogus (some decision))))

/-- The state after an event; `none` when the event cannot happen, or the code would panic. -/
def step (s : State) (ev : Event) : Option State :=
  match ev.op with
  | .arrive query peer =>
    let epoch := s.cache.epoch
    match Context.prepare query peer settings.ecs with
    | .error _ => some s
    | .ok (outbound, context) => some { s with requests := s.requests ++ [⟨query, context, outbound, epoch, .started⟩] }
  | .lookup r => do
    let request ← s.requests[r]?
    match request.phase with
    | .started => do
      let (cache, result) ← s.cache.lookupWithDecision P ev.pinned request.query request.context.outgoing ev.now false
      some ((s.setCache cache).setPhase r (match result.hit with
        | some hit => .found hit
        | none => .missed))
    | _ => none
  | .flights r => do
    let request ← s.requests[r]?
    let (generation, registry) := s.generation.flightsAt request.epoch
    match request.phase with
    | .missed => some ({ s with generation }.setPhase r (.obtained registry))
    | .found hit =>
      if hit.refresh then some ({ s with generation }.setPhase r (.refreshing hit registry)) else none
    | _ => none
  | .join r upgradable upgrades => do
    let request ← s.requests[r]?
    match request.phase with
    | .obtained registry => do
      let (s, held) ← s.join P.hickory settings.coalescing r request registry false upgradable upgrades
      some (s.setPhase r (match held with
        | some w => .waiting w
        | none => .resolved none rejectedAnswer))
    | _ => none
  | .refresh r taken upgradable upgrades => do
    let request ← s.requests[r]?
    match request.phase with
    | .refreshing hit registry =>
      let hit := { hit with refresh := false }
      if taken then do
        let (s, _) ← s.join P.hickory settings.coalescing r request registry true upgradable upgrades
        some (s.setPhase r (.found hit))
      else some (s.setPhase r (.found hit))
    | _ => none
  | .answer r => do
    let request ← s.requests[r]?
    match request.phase with
    | .found hit =>
      if hit.refresh then none
      else if hit.failure = some .staleFallback then do
        let (cache, _) ← s.cache.lookupWithDecision P ev.pinned request.query request.context.outgoing ev.now true
        some ((s.setCache cache).setPhase r (.replied none))
      else some (s.setPhase r (.replied none))
    | _ => none
  | .poll w => do
    let work ← s.held w
    match work.stage with
    | .unpolled => s.poll P ev.pinned ev.now w work
    | _ => none
  | .exchange w first second bogus => do
    let work ← s.held w
    match work.stage with
    | .exchanging =>
      let (result, retried) := work.exchange first second
      some (s.setStage w (.exchanged result retried bogus))
    | _ => none
  | .store w => do
    let work ← s.held w
    match work.stage with
    | .exchanged result retried bogus => s.storeWork P ev.pinned ev.now w work result retried bogus
    | _ => none
  | .complete w => do
    let work ← s.held w
    match work.stage with
    | .stored answer => some (s.setStage w (.complete answer))
    | _ => none
  | .receive r => do
    let request ← s.requests[r]?
    match request.phase with
    | .waiting w => do
      let work ← s.works[w]?
      match work.stage with
      | .complete answer => some ((s.release w).setPhase r (.resolved (some w) answer))
      | _ => none
    | _ => none
  | .reply r => do
    let request ← s.requests[r]?
    match request.phase with
    | .resolved w answer =>
      if answer.staleEligible then do
        let (cache, _) ← s.cache.lookupWithDecision P ev.pinned request.query request.context.outgoing ev.now true
        some ((s.setCache cache).setPhase r (.replied w))
      else some (s.setPhase r (.replied w))
    | _ => none
  | .leave r handover => do
    let request ← s.requests[r]?
    match request.phase with
    | .waiting w => some ((if handover then s else s.release w).setPhase r .gone)
    | _ => none
  | .drop w => do
    let _ ← s.held w
    some (s.release w)
  | .invalidate name kind scope => do
    let (cache, _) ← s.cache.invalidate ev.pinned name kind scope
    some (s.setCache cache)

end Step

end Resolver

end Parins
