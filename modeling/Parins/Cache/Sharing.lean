/-
`cache/sharing.rs`: the classification records that may let one missing-ECS
answer serve a whole address family. A record observes samples of one answer
from disjoint networks, turns shared when there are enough of them, and is
revoked by any contradiction.
-/
import Parins.Cache.Basics
import Parins.Lib.Recency

namespace Parins.Cache.Sharing
open Net Lib

/-- Upper bound for the whole classification table, split across shards. -/
def MAX_RECORDS : Nat := 65536

/-- How long shared evidence counts before it is observed again. -/
def SHARED_MAX_AGE : Nat := 3600 * second

def capacity (maxEntries shards : Nat) : Nat :=
  (min (max (maxEntries * 2) 1024) MAX_RECORDS + shards - 1) / shards

/-- Sixteen bytes of the digest of a normalized answer. -/
abbrev Fingerprint := Bytes

structure Sample where
  network : IpNet
  expires : Nat
deriving DecidableEq

inductive Phase where
  /-- Every live sample produced `fingerprint`. -/
  | observing (fingerprint : Fingerprint) (samples : List Sample)
  | shared (fingerprint : Fingerprint) (since : Nat)
  | revoked (cooled : Nat)
deriving DecidableEq

/-- What a record is about: a cache key and an address family. -/
structure Class where
  key : Key
  ipv4 : Bool
deriving DecidableEq

structure Table where
  records : Recency Class Phase
  capacity : Nat

/-- The namespace an answer is stored under, and whether it revoked its record. -/
structure Observation where
  scope : Scope
  revoked : Bool
deriving DecidableEq

def Table.new (capacity : Nat) : Table := ⟨.empty, max capacity 1⟩

def swapRemove {α : Type} (xs : List α) (i : Nat) : List α :=
  match xs.getLast? with
  | some last => (xs.set i last).dropLast
  | none => xs

/-- The index `iter().enumerate().min_by_key(expires)` finds: the first of the least. -/
def oldest : List Sample → Option Nat
  | [] => none
  | s :: rest =>
    match oldest rest with
    | none => some 0
    | some i => if (rest[i]?.any fun r => r.expires < s.expires) then some (i + 1) else some 0

/-- The /16 (IPv6 /32) prefix a network lies in, or the network when it is wider. -/
def span (n : IpNet) : Option IpNet :=
  (IpNet.new n.addr (min n.prefixLen (if n.addr.isIpv4 then 16 else 32))).map IpNet.trunc

def promotable (samples : List Sample) (least : Nat) : Bool :=
  match samples with
  | [] => false
  | first :: _ => decide (least ≤ samples.length) && samples.any fun s => span s.network != span first.network

/-- The samples with `sample` in place of every overlapping one, so that they stay disjoint, and,
when there are enough without it, in place of the first to expire. -/
def addSample (samples : List Sample) (sample : Sample) (least : Nat) : List Sample :=
  let samples := samples.filter fun s => !s.network.overlaps sample.network
  let samples :=
    if least ≤ samples.length then
      match oldest samples with
      | some i => swapRemove samples i
      | none => samples
    else samples
  samples ++ [sample]

structure Answer where
  key : Key
  scope : Scope
  fingerprint : Option Fingerprint
  /-- The admitted fresh lifetime; `none` when the answer is not admitted. -/
  lifetime : Option Nat
deriving DecidableEq

namespace Answer

def sample (a : Answer) (network : IpNet) (now : Nat) : Option Sample :=
  a.lifetime.map fun lifetime => ⟨network, now + lifetime⟩

/-- The answer stays in the namespace it came with. -/
def unchanged (a : Answer) : Observation := ⟨a.scope, false⟩

/-- A contradicted record, and the observation that says so. -/
def revoke (a : Answer) (now : Nat) (config : EcsSharingConfig) : Phase × Observation :=
  (.revoked (now + config.revokeCooldownSecs * second), ⟨a.scope, true⟩)

end Answer

namespace Phase

/-- `matches!(phase, Phase::Revoked { until } if until > now)`. -/
def cooling (phase : Phase) (now : Nat) : Bool :=
  match phase with
  | .revoked cooled => decide (now < cooled)
  | _ => false

/-- A new observation that begins with this answer, when it can be compared. -/
def restart (phase : Phase) (a : Answer) (network : IpNet) (now : Nat) : Phase :=
  match a.fingerprint with
  | some fingerprint => .observing fingerprint (a.sample network now).toList
  | none => phase

/-- One more exact-source answer for an observation with the live samples `samples`. -/
def gather (observed : Fingerprint) (samples : List Sample) (a : Answer) (network : IpNet) (now : Nat)
    (config : EcsSharingConfig) : Phase × Observation :=
  match a.fingerprint with
  | none => if samples.isEmpty then (.observing observed samples, a.unchanged) else a.revoke now config
  | some fingerprint =>
    -- Expired evidence restarts the observation under the new fingerprint.
    if !samples.isEmpty ∧ observed ≠ fingerprint then a.revoke now config
    else match a.sample network now with
      | none => (.observing fingerprint samples, a.unchanged)
      | some sample =>
        let samples := addSample samples sample config.minNetworks
        if promotable samples config.minNetworks then
          (.shared fingerprint now, ⟨.learned network.addr.isIpv4, false⟩)
        else (.observing fingerprint samples, a.unchanged)

/-- A record's next phase and the observation, for an exact-source answer. -/
def advance (phase : Phase) (a : Answer) (network : IpNet) (now : Nat) (config : EcsSharingConfig) :
    Phase × Observation :=
  match phase with
  | .revoked cooled => if now < cooled then (phase, a.unchanged) else (phase.restart a network now, a.unchanged)
  | .shared known since =>
    if SHARED_MAX_AGE ≤ now - since then (phase.restart a network now, a.unchanged)
    else if a.fingerprint = some known then (phase, ⟨.learned network.addr.isIpv4, false⟩)
    else a.revoke now config
  | .observing observed samples =>
    gather observed (samples.filter fun s => now < s.expires) a network now config

end Phase

def Table.observe (t : Table) (a : Answer) (now : Nat) (config : EcsSharingConfig) : Table × Observation :=
  match a.scope with
  | .exactSource network =>
    let cls : Class := ⟨a.key, network.addr.isIpv4⟩
    match t.records.peek cls with
    | some phase =>
      let (phase, observation) := phase.advance a network now config
      ({ t with records := t.records.put cls phase }, observation)
    | none =>
      match a.fingerprint with
      | none => (t, a.unchanged)
      | some fingerprint =>
        let phase := .observing fingerprint (a.sample network now).toList
        ({ t with records := (t.records.put cls phase).truncate t.capacity }, a.unchanged)
  | .network network =>
    if 0 < network.prefixLen then
      -- An explicit nonzero scope contradicts learned invariance for that family.
      let cls : Class := ⟨a.key, network.addr.isIpv4⟩
      match t.records.peek cls with
      | none => (t, a.unchanged)
      | some phase =>
        if phase.cooling now then ({ t with records := t.records.promote cls }, a.unchanged)
        else
          let (phase, observation) := a.revoke now config
          ({ t with records := t.records.put cls phase }, observation)
    else (t, a.unchanged)
  | _ => (t, a.unchanged)

structure Filter where
  name : Option Name
  kind : Option RecordType
  scope : Option Scope

/-- Which families a scope filter makes the table forget: all, one, or none. -/
inductive Families where
  | all
  | one (ipv4 : Bool)
  | none
deriving DecidableEq

def families : Option Scope → Families
  | none => .all
  | some (.learned ipv4) => .one ipv4
  | some (.network n) | some (.exactSource n) => if 0 < n.prefixLen then .one n.addr.isIpv4 else .none
  | some _ => .none

/-- `name.is_none_or(..) && kind.is_none_or(..)` on a key. -/
def Filter.matchesKey (f : Filter) (key : Key) : Bool :=
  f.name.all (fun n => key.name == n) && f.kind.all (fun k => key.kind == k)

def Table.invalidate (t : Table) (f : Filter) : Table :=
  match families f.scope with
  | .none => t
  | .all =>
    if f.name.isNone ∧ f.kind.isNone then { t with records := .empty }
    else forget fun cls => f.matchesKey cls.key
  | .one ipv4 => forget fun cls => f.matchesKey cls.key && cls.ipv4 == ipv4
where
  forget (p : Class → Bool) : Table :=
    { t with records := (((t.records.items.map Prod.fst).filter p).foldl Recency.pop t.records) }

end Parins.Cache.Sharing
