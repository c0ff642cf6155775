/-
One shard of `cache.rs` under its lock: the buckets of variants of each key, the
two partitions in use order, the use clock and the counters. What the code does
by `unwrap`, `expect` or an unsigned subtraction is `none` here when it would
panic.
-/
import Parins.Cache.Sharing
import Mathlib.Logic.Function.Basic

namespace Parins.Cache
open Net Lib

inductive Failure where
  /-- A usable stale answer replies instead. -/
  | staleFallback
  /-- Always answered as the cached SERVFAIL. -/
  | final
deriving DecidableEq

/-- A cached answer or failure: what never changes of an `Entry`. -/
structure Entry where
  id : Nat
  key : Key
  wire : Bytes
  scope : Scope
  inserted : Nat
  lifetime : Nat
  retention : Nat
  negative : Bool
  failure : Option Failure
  prefetch : Bool
  charge : Nat
deriving DecidableEq

/-- The atomic cells of an `Entry`. -/
structure Cells where
  refreshed : Bool := false
  hits : Nat := 0
  accessed : Nat := 0

namespace Entry

/-- `now.saturating_duration_since(entry.inserted)`. -/
def age (e : Entry) (now : Nat) : Nat := now - e.inserted

def fresh (e : Entry) (now : Nat) : Bool := e.age now < e.lifetime

def expired (e : Entry) (now : Nat) : Bool := e.retention ≤ e.age now

end Entry

structure Partition where
  lru : Recency Nat Entry
  charged : Nat
  /-- The charges of entries that left the indexes while a reader still held them. -/
  held : List Nat
  maxEntries : Nat
  maxBytes : Nat
  evictions : EvictionReason → EvictionState → Nat

def Partition.new (maxEntries maxBytes : Nat) : Partition :=
  ⟨.empty, 0, [], maxEntries, maxBytes, fun _ _ => 0⟩

structure Counts where
  hits : Nat := 0
  staleHits : Nat := 0
  misses : Nat := 0
  evictions : Nat := 0
  rejections : Nat := 0
  sharedHits : Nat := 0
  revocations : Nat := 0
  failureHits : Nat := 0

structure Shard where
  buckets : Key → Option (List Entry)
  /-- `partitions[usize::from(negative)]`. -/
  partitions : Bool → Partition
  /-- The cells of the entry with each id. -/
  cells : Nat → Cells
  clock : Nat
  counts : Counts
  sharing : Sharing.Table
  learned : Nat
  failures : Nat

/-! ## Selection -/

/-- `(bool, u8)` in tuple order. -/
def rankLe (a b : Bool × Nat) : Bool := (!a.1 && b.1) || (a.1 == b.1 && decide (a.2 ≤ b.2))

/-- `max_by_key`: the last of the greatest. -/
def maxByRank (rank : Entry → Bool × Nat) (entries : List Entry) : Option Entry :=
  entries.foldl (fun best e =>
    match best with
    | none => some e
    | some b => if rankLe (rank b) (rank e) then some e else some b) none

/-- The filter of `Shard::select`. -/
def Entry.usable (e : Entry) (outgoing : Option ClientSubnet) (now : Nat) (allowStale : Bool) : Bool :=
  e.scope.matches outgoing && !e.expired now && (e.fresh now || allowStale) && !(allowStale && e.failure.isSome)

def Shard.candidates (s : Shard) (key : Key) (outgoing : Option ClientSubnet) (now : Nat) (allowStale : Bool) :
    List Entry :=
  ((s.buckets key).getD []).filter fun e => e.usable outgoing now allowStale

def Shard.select (s : Shard) (key : Key) (outgoing : Option ClientSubnet) (now : Nat) (allowStale : Bool) :
    Option (Bool × Nat) :=
  (maxByRank (fun e => (e.fresh now, e.scope.prefixLen)) (s.candidates key outgoing now allowStale)).map
    fun e => (e.negative, e.id)

/-! ## Removal -/

/-- A shard behind its lock, with the refresh counters of its cache. -/
structure Locked where
  shard : Shard
  refreshUseful : Nat
  refreshUnused : Nat

def checkedSub (a b : Nat) : Option Nat := if b ≤ a then some (a - b) else none

/-- `usize::from(bool)`. -/
def ofBool (b : Bool) : Nat := if b then 1 else 0

/-- A bucket without one id; an empty one goes. -/
def dropId (id : Nat) (ids : List Entry) : Option (List Entry) :=
  let ids := ids.filter fun e => e.id ≠ id
  if ids.isEmpty then none else some ids

def dropFromBucket (buckets : Key → Option (List Entry)) (key : Key) (id : Nat) : Key → Option (List Entry) :=
  Function.update buckets key ((buckets key).bind (dropId id))

/-- The partition without an entry. Its charge goes with its last handle. -/
def Partition.take (p : Partition) (e : Entry) (pinned : Bool) : Partition :=
  { p with
    lru := p.lru.pop e.id
    charged := if pinned then p.charged else p.charged - e.charge
    held := if pinned then e.charge :: p.held else p.held }

def Shard.setCells (s : Shard) (id : Nat) (cells : Cells) : Shard :=
  { s with cells := Function.update s.cells id cells }

section Operations

-- Which ids a reader outside the lock holds.
variable (pinned : Nat → Bool)

def Locked.remove (l : Locked) (part : Bool) (id : Nat) : Option Locked :=
  match (l.shard.partitions part).lru.peek id with
  | none => some l
  | some e => do
    -- `settle_refresh`: an entry that leaves unseen was refreshed for nothing.
    let cells := l.shard.cells id
    let learned ← checkedSub l.shard.learned (ofBool e.scope.isLearned)
    let failures ← checkedSub l.shard.failures (ofBool e.failure.isSome)
    some {
      l with
      refreshUnused := l.refreshUnused + ofBool cells.refreshed
      shard := { l.shard.setCells id { cells with refreshed := false } with
        buckets := dropFromBucket l.shard.buckets e.key id
        partitions := Function.update l.shard.partitions part ((l.shard.partitions part).take e (pinned id))
        learned
        failures } }

/-- The loops `for (part, id) in … { self.remove(shard, part, id) }`. -/
def Locked.removeAll (l : Locked) (targets : List (Bool × Nat)) : Option Locked :=
  targets.foldlM (fun l t => l.remove pinned t.1 t.2) l

def Entry.evictionState (e : Entry) (now : Nat) : EvictionState :=
  if e.fresh now then .fresh else if !e.expired now then .retained else .expired

/-- `partition.evictions.record`. -/
def Partition.recordEviction (p : Partition) (reason : EvictionReason) (state : EvictionState) : Partition :=
  { p with evictions := Function.update p.evictions reason (bump (p.evictions reason) state) }

def Locked.evict (l : Locked) (part : Bool) (id : Nat) (now : Nat) (reason : EvictionReason) : Option Locked := do
  let p := l.shard.partitions part
  let e ← p.lru.peek id
  let shard := { l.shard with
    partitions := Function.update l.shard.partitions part (p.recordEviction reason (e.evictionState now))
    counts := { l.shard.counts with evictions := l.shard.counts.evictions + 1 } }
  Locked.remove pinned { l with shard } part id

/-- `(usize::from(e.negative), e.id)` of the entries of a key that satisfy `p`. -/
def Shard.targets (s : Shard) (key : Key) (p : Entry → Bool) : List (Bool × Nat) :=
  (((s.buckets key).getD []).filter p).map fun e => (e.negative, e.id)

def Locked.prune (l : Locked) (key : Key) (now : Nat) : Option Locked :=
  l.removeAll pinned (l.shard.targets key fun e => e.expired now)

/-! ## Placement -/

structure Stored where
  wire : Bytes
  scope : Scope
  lifetime : Nat
  retention : Nat
  negative : Bool
  failure : Option Failure
  prefetch : Bool
  refreshed : Bool
  /-- A restored entry's use stamp; the entry starts least recently used. -/
  accessed : Option Nat

def Stored.entry (stored : Stored) (key : Key) (charge now id : Nat) : Entry where
  id := id
  key := key
  wire := stored.wire
  scope := stored.scope
  inserted := now
  lifetime := stored.lifetime
  retention := stored.retention
  negative := stored.negative
  failure := stored.failure
  prefetch := stored.prefetch
  charge := charge

/-- `charge`; `overhead` is `size_of::<Entry>() + size_of::<Key>() + 192`. -/
def charge (overhead : Nat) (wire : Bytes) (key : Key) : Nat := wire.length + key.name.len + overhead

def Locked.reject (l : Locked) : Locked :=
  { l with shard := { l.shard with
      counts := { l.shard.counts with rejections := l.shard.counts.rejections + 1 } } }

/-- `min_by_key`: the first of the least. -/
def minByAccess (accessed : Entry → Nat) : List Entry → Option Entry
  | [] => none
  | e :: rest =>
    match minByAccess accessed rest with
    | none => some e
    | some r => if accessed r < accessed e then some r else some e

/-- The variant ceiling: at the limit an entry of the same kind leaves, and without one there is
no room (`false`). -/
def Locked.limitVariants (l : Locked) (key : Key) (negative : Bool) (maxVariants now : Nat) :
    Option (Locked × Bool) :=
  match l.shard.buckets key with
  | none => some (l, true)
  | some ids =>
    if ids.length < maxVariants then some (l, true)
    else match minByAccess (fun e => (l.shard.cells e.id).accessed) (ids.filter fun e => e.negative = negative) with
      | none => some (l, false)
      | some e => (l.evict pinned e.negative e.id now .variants).map fun l => (l, true)

def evictionReason : Bool → Bool → EvictionReason
  | true, true => .entriesAndBytes
  | true, false => .entries
  | _, _ => .bytes

/-- The loop that evicts the least recently used until the entry fits (`true`) or nothing is left
(`false`). Every pass takes an entry out, so their number is fuel enough. -/
def Locked.makeRoom (part : Bool) (charge now : Nat) : Nat → Locked → Option (Locked × Bool)
  | 0, _ => none
  | fuel + 1, l =>
    let p := l.shard.partitions part
    let entryLimit := decide (p.maxEntries ≤ p.lru.items.length)
    let byteLimit := decide (p.maxBytes < p.charged + charge)
    if !entryLimit && !byteLimit then some (l, true)
    else match p.lru.peekLru with
      | none => some (l, false)
      | some (id, _) =>
        (l.evict pinned part id now (evictionReason entryLimit byteLimit)).bind (Locked.makeRoom part charge now fuel)

def Locked.publish (l : Locked) (key : Key) (stored : Stored) (charge now : Nat) : Locked :=
  let s := l.shard
  let id := s.clock + 1
  let e := stored.entry key charge now id
  let p := s.partitions stored.negative
  let lru := p.lru.put id e
  let lru := if stored.accessed.isSome then lru.demote id else lru
  { l with shard := {
      (s.setCells id ⟨stored.refreshed, 0, stored.accessed.getD id⟩) with
      clock := id
      learned := s.learned + ofBool stored.scope.isLearned
      failures := s.failures + ofBool stored.failure.isSome
      buckets := Function.update s.buckets key (some ((s.buckets key).getD [] ++ [e]))
      partitions := Function.update s.partitions stored.negative { p with lru, charged := p.charged + charge } } }

def Locked.place (overhead maxVariants : Nat) (l : Locked) (key : Key) (stored : Stored) (now : Nat)
    (superseded : Bool) : Option (Locked × StoreDecision) := do
  let charge := charge overhead stored.wire key
  let p := l.shard.partitions stored.negative
  if p.maxBytes < charge ∨ p.maxEntries = 0 then
    some (l.reject, .rejected .capacity superseded)
  else
    let (l, room) ← l.limitVariants pinned key stored.negative maxVariants now
    if !room then some (l.reject, .rejected .variantLimit superseded)
    else
      let fuel := (l.shard.partitions stored.negative).lru.items.length + 1
      let (l, room) ← Locked.makeRoom pinned stored.negative charge now fuel l
      if !room then some (l.reject, .rejected .capacity superseded)
      else some (l.publish key stored charge now, ⟨if superseded then .replaced else .admitted, none⟩)

end Operations

end Parins.Cache
