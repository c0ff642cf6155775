/-
The admission limiter: one token bucket and two counters for each source network,
in a table of bounded size. A new source that finds the table full scans a few
entries from the front of the sweep queue and removes the first that is idle and
fully refilled.
-/
import Parins.Lib.Bucket
import Parins.Lib.Runs
import Parins.Net.Address
import Mathlib.Data.List.AList

namespace Parins.Limits
open Net Lib

def TOKEN : Nat := 1000000000
def RECLAIM_SCAN : Nat := 16

structure Settings where
  enabled : Bool := false
  ratePerSec : Nat := 100
  burst : Nat := 200
  maxSources : Nat := 4096
  ipv4Prefix : Nat := 32
  ipv6Prefix : Nat := 64
  maxInflight : Nat := 32
  maxConnections : Nat := 8

namespace Settings

/-- One check of `validate`, with its message. -/
def ensureWithin (name range : String) (low high value : Nat) : Except String Unit :=
  if low ≤ value ∧ value ≤ high then .ok () else .error ("source_limits." ++ name ++ " must be in " ++ range)

def validate (s : Settings) : Except String Unit := do
  ensureWithin "rate_per_sec" "1..=1000000" 1 1000000 s.ratePerSec
  ensureWithin "burst" "1..=1000000" 1 1000000 s.burst
  ensureWithin "max_sources" "1..=65536" 1 65536 s.maxSources
  ensureWithin "max_inflight" "1..=65536" 1 65536 s.maxInflight
  ensureWithin "max_connections" "1..=65536" 1 65536 s.maxConnections
  ensureWithin "ipv4_prefix" "0..=32" 0 32 s.ipv4Prefix
  ensureWithin "ipv6_prefix" "0..=128" 0 128 s.ipv6Prefix

/-- `burst * TOKEN`: the credit of a full entry. -/
def cap (s : Settings) : Nat := s.burst * TOKEN

/-- `Limiter::source`; `none` is the panic of `expect`. -/
def source (s : Settings) (peer : IpAddr) : Option IpNet :=
  let peer := peer.canonical
  (IpNet.new peer (if peer.isIpv4 then s.ipv4Prefix else s.ipv6Prefix)).map IpNet.trunc

end Settings

inductive Denied where
  | rate
  | inflight
  | connections
  | tableFull
deriving DecidableEq

inductive Kind where
  | query
  | connection
deriving DecidableEq

structure Entry extends Bucket where
  queries : Nat
  connections : Nat
deriving DecidableEq

namespace Entry

/-- `Entry::refill`. A `Duration` is below `2 ^ 64` seconds, so the sum fits `u128` for every rate;
the cast to `u64` is explicit. -/
def refill (settings : Settings) (e : Entry) (now : Nat) : Entry :=
  if e.updated < now then
    let added := (now - e.updated) * settings.ratePerSec
    { e with credit := min (e.credit + added) (settings.burst * TOKEN) % 2 ^ 64, updated := now }
  else e

def fresh (settings : Settings) (now : Nat) : Entry :=
  { credit := settings.burst * TOKEN, updated := now, queries := 0, connections := 0 }

def idle (settings : Settings) (e : Entry) : Bool :=
  e.queries == 0 && e.connections == 0 && e.credit == settings.burst * TOKEN

/-- The quotas, on a refilled entry. -/
def acquire (settings : Settings) (kind : Kind) (e : Entry) : Entry × Except Denied Unit :=
  match kind with
  | .query =>
    if settings.maxInflight ≤ e.queries then (e, .error .inflight)
    else if e.credit < TOKEN then (e, .error .rate)
    else ({ e with credit := e.credit - TOKEN, queries := e.queries + 1 }, .ok ())
  | .connection =>
    if settings.maxConnections ≤ e.connections then (e, .error .connections)
    else ({ e with connections := e.connections + 1 }, .ok ())

/-- One permit back; `none` is the panic of the subtraction. -/
def release (kind : Kind) (e : Entry) : Option Entry :=
  match kind with
  | .query => if e.queries = 0 then none else some { e with queries := e.queries - 1 }
  | .connection => if e.connections = 0 then none else some { e with connections := e.connections - 1 }

def inUse (kind : Kind) (e : Entry) : Nat :=
  match kind with
  | .query => e.queries
  | .connection => e.connections

end Entry

/-- A `HashMap` of entries and the sweep queue. -/
structure State where
  entries : AList fun _ : IpNet => Entry := ∅
  sweep : List IpNet := []

/-- A permit of a disabled limiter has no owner. -/
structure Permit where
  owner : Option (IpNet × Kind)
deriving DecidableEq

namespace State

/-- The loop of a new source over the sweep queue. -/
def reclaim (settings : Settings) (now : Nat) : Nat → State → Option State
  | 0, s => some s
  | n + 1, s =>
    match s.sweep with
    | [] => none
    | candidate :: rest => do
      let e ← s.entries.lookup candidate
      let e := e.refill settings now
      if e.idle settings then some ⟨s.entries.erase candidate, rest⟩
      else reclaim settings now n ⟨s.entries.insert candidate e, rest ++ [candidate]⟩

def size (s : State) : Nat := s.entries.keys.length

/-- The call of this source finds the table full and itself not in it. -/
def Scans (settings : Settings) (source : IpNet) (s : State) : Prop :=
  s.entries.lookup source = none ∧ s.size = settings.maxSources

def makeRoom (settings : Settings) (now : Nat) (s : State) : Option State :=
  if s.size = settings.maxSources then s.reclaim settings now (min RECLAIM_SCAN s.sweep.length) else some s

def enter (settings : Settings) (source : IpNet) (now : Nat) (s : State) : Option (State × Bool) :=
  if (s.entries.lookup source).isSome then some (s, true)
  else do
    let s ← s.makeRoom settings now
    if s.size = settings.maxSources then some (s, false)
    else some (⟨s.entries.insert source (.fresh settings now), s.sweep ++ [source]⟩, true)

/-- `Limiter::acquire_at` under the lock. -/
def acquire (settings : Settings) (source : IpNet) (kind : Kind) (now : Nat) (s : State) :
    Option (State × Except Denied Unit) := do
  let (s, entered) ← s.enter settings source now
  if entered then
    let e ← s.entries.lookup source
    let (e, result) := (e.refill settings now).acquire settings kind
    some ({ s with entries := s.entries.insert source e }, result)
  else some (s, .error .tableFull)

end State

structure Limiter where
  settings : Settings
  state : Option State

namespace Limiter

def new (settings : Settings) : Limiter := ⟨settings, if settings.enabled then some {} else none⟩

/-- `Limiter::acquire_at`; `none` is a panic. -/
def acquireAt (l : Limiter) (peer : IpAddr) (kind : Kind) (now : Nat) : Option (Limiter × Except Denied Permit) :=
  match l.state with
  | none => some (l, .ok ⟨none⟩)
  | some s => do
    let source ← l.settings.source peer
    let (s, result) ← s.acquire l.settings source kind now
    some ({ l with state := some s }, result.map fun _ => ⟨some (source, kind)⟩)

/-- `Permit::drop`; `none` is a panic. -/
def drop (l : Limiter) (p : Permit) : Option Limiter :=
  match p.owner with
  | none => some l
  | some (source, kind) => do
    let s ← l.state
    let e ← s.entries.lookup source
    let e ← e.release kind
    some { l with state := some { s with entries := s.entries.insert source e } }

end Limiter

/-! ## Runs -/

inductive Call where
  | acquire (peer : IpAddr) (kind : Kind) (now : Nat)
  | drop (p : Permit)

inductive Answer where
  | acquired (result : Except Denied Permit)
  | dropped
deriving DecidableEq

/-- A limiter in use: its live permits, and the calls so far with their answers. -/
structure InUse (σ : Type) where
  limiter : σ
  live : List Permit := []
  log : List (Call × Answer) := []

/-- A step of any limiter. Only live permits can be dropped. -/
def InUse.step {σ : Type} (acquireAt : σ → IpAddr → Kind → Nat → Option (σ × Except Denied Permit))
    (drop : σ → Permit → Option σ) (u : InUse σ) (call : Call) : Option (InUse σ) :=
  match call with
  | .acquire peer kind now => do
    let (limiter, result) ← acquireAt u.limiter peer kind now
    let live := match result with
      | .ok p => p :: u.live
      | .error _ => u.live
    some ⟨limiter, live, u.log ++ [(call, .acquired result)]⟩
  | .drop p => do
    let limiter ← if p ∈ u.live then drop u.limiter p else some u.limiter
    some ⟨limiter, u.live.erase p, u.log ++ [(call, .dropped)]⟩

def step : InUse Limiter → Call → Option (InUse Limiter) := InUse.step Limiter.acquireAt Limiter.drop

def start (settings : Settings) : InUse Limiter := { limiter := .new settings }

end Parins.Limits
