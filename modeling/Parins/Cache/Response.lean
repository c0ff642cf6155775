/-
What `cache.rs` makes of a response before it takes a lock: the policy that
applies to its key, whether it is negative and for how long it lives, the message
that is stored, and the fingerprint that `sharing.rs` compares.
-/
import Parins.Cache.Sharing

namespace Parins.Cache

/-! ## Policy -/

structure Rule where
  name : Name
  qtype : Option RecordType
  index : Nat
  config : CacheRule

/-- The sort key of `Cache::new`: exact before suffix, longer names first, then rules with a type,
then the order of the configuration. -/
def Rule.cmp : Rule → Rule → Ordering :=
  compareLex (compareOn fun r => r.config.suffix) <|
    compareLex (fun a b => compare b.name.labels.length a.name.labels.length) <|
      compareLex (compareOn fun r => r.qtype.isNone) (compareOn Rule.index)

/-- The rules of `Cache::new`, in the order they are tried. -/
def sortRules (rules : List CacheRule) : List Rule :=
  (rules.zipIdx.map fun (r, index) => (⟨r.name.toLowercase, r.qtype, index, r⟩ : Rule)).mergeSort
    fun a b => (Rule.cmp a b).isLE

structure Policy where
  ruleIndex : Option Nat
  bypass : Bool
  maxTtlSecs : Nat
  negativeTtlCapSecs : Nat
  prefetch : Bool
  stale : Bool

def findRule (rules : List Rule) (kind : RecordType) (name : Name) : Option Rule :=
  rules.find? fun r =>
    r.qtype.all (· == kind) && r.name.zoneOf name
      && (r.config.suffix || r.name.labels.length == name.labels.length)

/-- `Cache::policy` from the configuration and its sorted rules. -/
def policyFor (config : CacheConfig) (rules : List Rule) (key : Key) (name : Name) : Policy :=
  let rule := findRule rules key.kind name
  { ruleIndex := rule.map Rule.index
    bypass := !config.enabled || rule.any fun r => r.config.bypass
    maxTtlSecs := (rule.bind fun r => r.config.maxTtlSecs).getD config.maxTtlSecs
    negativeTtlCapSecs := (rule.bind fun r => r.config.negativeTtlCapSecs).getD config.negativeTtlCapSecs
    prefetch := (rule.bind fun r => r.config.prefetch).getD config.prefetch.enabled
    stale := (rule.bind fun r => r.config.stale).getD config.stale.enabled }

/-! ## Negative answers -/

def isNegative (question : Query) (response : Message) : Bool :=
  response.responseCode == .nxDomain || !response.answers.any fun rr => rr.recordType == question.queryType

/-- `targets.insert(&rr.name, &target)`: the map with the link, and the target it replaced. -/
def insertTarget : List (Name × Name) → Name → Name → List (Name × Name) × Option Name
  | [], owner, target => ([(owner, target)], none)
  | (o, t) :: rest, owner, target =>
    if o.same owner then ((o, target) :: rest, some t)
    else
      let (rest, previous) := insertTarget rest owner target
      ((o, t) :: rest, previous)

/-- `targets.get(name)`. -/
def getTarget (targets : List (Name × Name)) (name : Name) : Option Name :=
  (targets.find? fun p => p.1.same name).map Prod.snd

/-- One pass of the loop of `cname_negative_ttl` over the answers: all of them are CNAMEs of the class,
with one target an owner. -/
def targetStep (cls : DNSClass) (targets : List (Name × Name)) (rr : Record) :
    Except DecisionReason (List (Name × Name)) :=
  match rr.data with
  | .cname target =>
    if rr.dnsClass ≠ cls then .error .uncacheableResponse
    else
      let (targets, previous) := insertTarget targets rr.name target
      if previous.all fun p => p.same target then .ok targets else .error .uncacheableResponse
  | _ => .error .uncacheableResponse

def cnameTargets (cls : DNSClass) (answers : List Record) : Except DecisionReason (List (Name × Name)) :=
  answers.foldlM (targetStep cls) []

/-- `n` hops along the links. -/
def followTargets (targets : List (Name × Name)) : Nat → Name → Except DecisionReason Name
  | 0, name => .ok name
  | n + 1, name =>
    match getTarget targets name with
    | some next => followTargets targets n next
    | none => .error .uncacheableResponse

/-- One pass of the loop of `cname_negative_ttl` over the authority section: one SOA
identity, and the least lifetime. -/
def soaStep (cls : DNSClass) (terminal : Name) (found : Option ((Name × Soa) × Nat)) (rr : Record) :
    Except DecisionReason (Option ((Name × Soa) × Nat)) :=
  match rr.data with
  | .soa soa =>
    if rr.dnsClass ≠ cls ∨ ¬rr.name.zoneOf terminal then .error .negativeWithoutSoa
    else
      let ttl := min rr.ttl soa.minimum
      match found with
      | none => .ok (some ((rr.name, soa), ttl))
      | some ((owner, data), lifetime) =>
        if owner.same rr.name && data.same soa then .ok (some ((rr.name, soa), min lifetime ttl))
        else .error .uncacheableResponse
  | _ => .ok found

def soaLifetime (cls : DNSClass) (terminal : Name) (authorities : List Record) :
    Except DecisionReason (Option ((Name × Soa) × Nat)) :=
  authorities.foldlM (soaStep cls terminal) none

def cnameNegativeTtl (name : Name) (cls : DNSClass) (response : Message) : Except DecisionReason Nat := do
  let targets ← cnameTargets cls response.answers
  -- A path with one hop per owner that then ends proves that all links belong to this chain.
  let terminal ← followTargets targets targets.length name
  if (getTarget targets terminal).isSome then .error .uncacheableResponse
  else
    match ← soaLifetime cls terminal response.authorities with
    | some (_, lifetime) => .ok lifetime
    | none => .error .negativeWithoutSoa

/-- `filter_map(..).min()` over the SOA records whose zone holds the question. -/
def directNegativeTtl (question : Query) (response : Message) : Except DecisionReason Nat :=
  let ttls := response.authorities.filterMap fun rr =>
    match rr.data with
    | .soa soa =>
      if rr.dnsClass = question.queryClass ∧ rr.name.zoneOf question.name then some (min rr.ttl soa.minimum)
      else none
    | _ => none
  match ttls.min? with
  | some ttl => .ok ttl
  | none => .error .negativeWithoutSoa

def negativeTtl (question : Query) (response : Message) : Except DecisionReason Nat :=
  if response.answers.isEmpty then directNegativeTtl question response
  else if question.queryType = .CNAME then .error .uncacheableResponse
  else cnameNegativeTtl question.name question.queryClass response

/-! ## The stored message -/

/-- The loop that caps the TTLs of a section and lowers the lifetime to them. -/
def capRecords (policy : Policy) (negative : Bool) :
    List Record → Nat → Except DecisionReason (List Record × Nat)
  | [], lifetime => .ok ([], lifetime)
  | rr :: rest, lifetime =>
    if rr.recordType = .SIG ∨ rr.recordType = .TSIG then .error .uncacheableResponse
    -- RFC 2181: a TTL with its high bit set counts as zero.
    else if 2 ^ 31 - 1 < rr.ttl then .error .ttlZero
    else do
      let ttl := min rr.ttl policy.maxTtlSecs
      let ttl := if negative ∧ rr.recordType = .SOA then min ttl lifetime else ttl
      let (rest, lifetime) ← capRecords policy negative rest (min lifetime ttl)
      .ok ({ rr with ttl } :: rest, lifetime)

/-- The loop of `prepare_response` over the three sections, and its end. -/
def capSections (policy : Policy) (negative : Bool) (response : Message) (start : Nat) :
    Except DecisionReason (Message × Nat × Bool) := do
  let (answers, lifetime) ← capRecords policy negative response.answers start
  let (authorities, lifetime) ← capRecords policy negative response.authorities lifetime
  let (additionals, lifetime) ← capRecords policy negative response.additionals lifetime
  if lifetime = 0 then .error .ttlZero
  else .ok ({ response with answers, authorities, additionals, id := 0, edns := none }, lifetime, negative)

/-- `prepare_response`: the message to store, its lifetime in seconds and whether it is negative. -/
def prepareResponse (query : SingleQuery) (response : Message) (policy : Policy) :
    Except DecisionReason (Message × Nat × Bool) :=
  if ¬plainEdns response then .error .unsupportedEdns
  else do
    let negative := isNegative query.question response
    let lifetime ← if negative then do
        let ttl ← negativeTtl query.question response
        .ok (min (min policy.maxTtlSecs policy.negativeTtlCapSecs) ttl)
      else .ok policy.maxTtlSecs
    capSections policy negative response lifetime

/-! ## The fingerprint of an answer -/

def dedup : List Bytes → List Bytes
  | [] => []
  | [a] => [a]
  | a :: b :: rest => if a = b then dedup (b :: rest) else a :: dedup (b :: rest)

def sortedSet (records : List Bytes) : List Bytes :=
  dedup (records.mergeSort fun a b => (compare a b).isLE)

/-- The bytes of one record: its lowercased owner, type, class and, if any, data. -/
def recordBytes (H : Hickory) (name : Name) (kind : RecordType) (cls : DNSClass) (data : Option RData) :
    Option Bytes := do
  let owner ← H.nameBytes name.toLowercase
  let data ← match data with
    | some data => H.rdataBytes data
    | none => some []
  some (owner ++ Lib.toBeBytes 2 kind.code ++ Lib.toBeBytes 2 cls.code ++ data)

/-- A section as the hash sees it: its length, then each record with its length. -/
def sectionBytes (records : List Bytes) : Bytes :=
  Lib.toBeBytes 4 records.length ++ (records.map fun r => Lib.toBeBytes 4 r.length ++ r).flatten

/-- The bytes `sharing::fingerprint` hashes. -/
def fingerprintBytes (H : Hickory) (question : Query) (response : Message) : Option Bytes := do
  let negative := isNegative question response
  let answers ← response.answers.mapM fun rr => recordBytes H rr.name rr.recordType rr.dnsClass (some rr.data)
  let soa ← if negative then
      (response.authorities.filter fun rr => rr.recordType = .SOA).mapM fun rr =>
        recordBytes H rr.name .SOA rr.dnsClass none
    else some []
  some (Lib.toBeBytes 2 response.responseCode.code ++ [if negative then 1 else 0]
    ++ sectionBytes (sortedSet answers) ++ sectionBytes (sortedSet soa))

def fingerprint (H : Hickory) (sha256 : Bytes → Bytes) (question : Query) (response : Message) :
    Option Sharing.Fingerprint :=
  (fingerprintBytes H question response).map fun bytes => (sha256 bytes).take 16

end Parins.Cache
