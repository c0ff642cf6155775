/-
`policy::canonical`: the builder that collects rules, and the pass that sorts
them and drops the rules that cannot change an answer (`prepareWithCheck`).

What the machine adds to the algorithm is in `Env`: what the cancellation check
answers at each call, and what the allocator does at each growth. Every call
site is named by where it stands in the run, so one `Env` is one behaviour of
both. A step ends with a value, with an error of the code, or with a panic.
-/
import Parins.Dns.Name
import Parins.Lib.Search
import Parins.Lib.Wire

namespace Parins.Policy

open Lib

inductive ErrorKind where
  | invalidDomain | invalidSource | invalidLimits | memoryLimit | ruleLimit | allocation | cancelled
deriving DecidableEq

structure Error where
  line : Nat
  kind : ErrorKind
deriving DecidableEq

def error (kind : ErrorKind) : Error := { line := 0, kind }

abbrev Fault := Lib.Fault Error

def fail {α : Type} (kind : ErrorKind) : Except Fault α := .error (.error (error kind))

inductive Group where
  | allowSuffix | allowExact | blockSuffix | blockExact
deriving DecidableEq

/-- `group as u8`. -/
def Group.index : Group → Nat
  | .allowSuffix => 0
  | .allowExact => 1
  | .blockSuffix => 2
  | .blockExact => 3

structure Entry where
  offset : Nat
  len : Nat
  sourceSlot : Nat
deriving DecidableEq

structure Record where
  entry : Entry
  group : Group
deriving DecidableEq

structure Limits where
  maxRules : Nat
  maxMemoryBytes : Nat
  retainedBytes : Nat
deriving DecidableEq

/-- Where a run calls the cancellation check. -/
inductive CheckSite where
  | prepare | sorted | prune (read : Nat) | hashed
  | build | buildSorted | step (processed : Nat) | scan (processed position : Nat)
  | stop (processed position : Nat) | built

/-- Where a run grows a buffer. -/
inductive AllocSite where
  | arena (records : Nat) | records (records : Nat) | root | frames | nodes (processed : Nat) | edges (processed : Nat)

structure Env where
  check : CheckSite → Option Error
  /-- The capacity `try_reserve_exact` leaves, if it succeeds. -/
  alloc : AllocSite → Nat → Option Nat

def Env.run (env : Env) (site : CheckSite) : Except Fault Unit :=
  match env.check site with
  | none => .ok ()
  | some e => .error (.error e)

theorem Env.run_safe (env : Env) (site) : Safe (env.run site) fun _ => True := by
  unfold Env.run
  split <;> trivial

theorem Env.when_safe (env : Env) {site} {c : Prop} [Decidable c] {α : Type} {x : Except Fault α}
    {P : α → Prop} (h : Safe x P) : Safe (if c then env.run site >>= fun _ => x else x) P := by
  split
  · exact (env.run_safe site).bind fun _ _ => h
  · exact h

/-! ## Memory -/

def usizeMax : Nat := 2 ^ 64 - 1
def u32Max : Nat := 2 ^ 32 - 1
/-- `u16::MAX`, the mark of a group without a rule. -/
def noSlot : Nat := 2 ^ 16 - 1

structure Vec (α : Type) where
  items : List α
  capacity : Nat

def Vec.empty {α : Type} : Vec α := { items := [], capacity := 0 }

structure Budget where
  live : Nat
  peak : Nat
  limit : Nat
deriving DecidableEq

def Budget.reserve (b : Budget) (bytes : Nat) : Except Fault Budget :=
  let next := b.live + bytes
  if usizeMax < next then fail .memoryLimit
  else if b.limit < next then fail .memoryLimit
  else .ok { b with live := next, peak := max b.peak next }

def Budget.release (b : Budget) (bytes : Nat) : Budget := { b with live := b.live - bytes }

/-- `grow`, for elements of `size` bytes: both capacities are charged together
before the old one is released. -/
def grow {α : Type} (size : Nat) (alloc : Nat → Option Nat) (buffer : Vec α) (needed : Nat) (budget : Budget) :
    Except Fault (Vec α × Budget) :=
  if needed ≤ buffer.capacity then .ok (buffer, budget)
  else
    let grown := buffer.capacity + buffer.capacity / 2
    if usizeMax < grown then fail .memoryLimit
    else
      let target := max needed grown
      let bytes := target * size
      if usizeMax < bytes then fail .memoryLimit
      else do
        let budget ← budget.reserve bytes
        match alloc target with
        | none => fail .allocation
        | some capacity =>
          let actual := capacity * size
          if usizeMax < actual then fail .memoryLimit
          else do
            let budget ← if bytes < actual then budget.reserve (actual - bytes) else pure budget
            pure ({ buffer with capacity }, budget.release (buffer.capacity * size))

theorem Budget.reserve_safe (b : Budget) (bytes) : Safe (b.reserve bytes) fun _ => True := by
  unfold Budget.reserve
  simp only
  split
  · trivial
  split <;> trivial

theorem grow_safe {α : Type} {size needed alloc} {buffer : Vec α} {budget} :
    Safe (grow size alloc buffer needed budget) fun out => out.1.items = buffer.items := by
  simp only [grow]
  split
  · rfl
  split
  · trivial
  split
  · trivial
  refine (Budget.reserve_safe _ _).bind fun _ _ => ?_
  split
  · trivial
  split
  · trivial
  split
  · exact (Budget.reserve_safe _ _).bind fun _ _ => rfl
  · rfl

/-! ## Keys -/

/-- `Key::push` on the 255-byte buffer: a label that does not fit panics. -/
def Key.push (key : Bytes) (label : Label) : Except Fault Bytes :=
  if key.length + 1 + label.length ≤ 255 then
    .ok (key ++ UInt8.ofNat label.length :: label.map toAsciiLowercase)
  else .error .panic

def Key.query (name : Name) : Except Fault Bytes := name.labels.reverse.foldlM Key.push []

def stripDot (text : Bytes) : Bytes := if text.getLast? = some 46 then text.dropLast else text

/-- What a label of a rule may be. -/
def ruleLabel (label : Label) : Bool :=
  !label.isEmpty && label.length ≤ 63 && label.all fun b => isAsciiAlphanumeric b || b == 45 || b == 95

def Key.pushRule (key : Bytes) (label : Label) : Except Fault Bytes :=
  if ruleLabel label then Key.push key label else fail .invalidDomain

/-- `Key::rule`, on the bytes of the text. -/
def Key.rule (text : Bytes) : Except Fault Bytes :=
  let text := stripDot text
  if text.isEmpty || 253 < text.length then fail .invalidDomain
  else
    (text.splitOn 46).reverse.foldlM Key.pushRule []

def key (arena : Bytes) (e : Entry) : Bytes := (arena.drop e.offset).take e.len

/-! ## The builder -/

structure Builder where
  arena : Vec UInt8
  records : Vec Record
  budget : Budget
  localSlots : Nat
  classes : List Nat
  maxRules : Nat
  failed : Option Error

def Builder.new (limits : Limits) : Except Fault Builder :=
  if limits.maxRules = 0 || 5000000 < limits.maxRules || limits.maxMemoryBytes = 0 ||
      512 * 1024 * 1024 < limits.maxMemoryBytes then fail .invalidLimits
  else do
    let budget ← Budget.reserve { live := 0, peak := 0, limit := limits.maxMemoryBytes } limits.retainedBytes
    pure { arena := .empty, records := .empty, budget, localSlots := 1, classes := [],
           maxRules := limits.maxRules, failed := none }

def Builder.addInner (env : Env) (b : Builder) (domain : Bytes) (group : Group) (slot : UInt16) :
    Except Fault Builder :=
  if slot.toNat = noSlot then fail .invalidSource
  else do
    let encoded ← Key.rule domain
    if b.maxRules ≤ b.records.items.length then fail .ruleLimit
    else
      let len := b.arena.items.length + encoded.length
      if u32Max < len then fail .memoryLimit
      else do
        let n := b.records.items.length
        let (arena, budget) ← grow 1 (env.alloc (.arena n)) b.arena len b.budget
        let (records, budget) ← grow 16 (env.alloc (.records n)) b.records (n + 1) budget
        let entry := { offset := b.arena.items.length, len := encoded.length, sourceSlot := slot.toNat }
        pure { b with
          arena := { arena with items := arena.items ++ encoded }
          records := { records with items := records.items ++ [{ entry, group }] }
          budget }

/-- `Builder::add`; the caller that sees an error keeps a builder that only
repeats it, so the model drops the builder with it. -/
def Builder.add (env : Env) (b : Builder) (domain : Bytes) (group : Group) (slot : UInt16) :
    Except Fault Builder :=
  match b.failed with
  | some e => .error (.error e)
  | none => b.addInner env domain group slot

/-! ## Pruning -/

/-- `classes.windows(2).all(|pair| pair[0] == pair[1])`. -/
def uniform : List Nat → Bool
  | a :: b :: rest => a == b && uniform (b :: rest)
  | _ => true

/-- `a.group`, then the key, then the slot. -/
def recordCmp (arena : Bytes) : Record → Record → Ordering :=
  compareLex (compareOn (·.group.index))
    (compareLex (compareOn fun r => key arena r.entry) (compareOn (·.entry.sourceSlot)))

def Builder.isLocal (b : Builder) (slot : Nat) : Bool := slot < b.localSlots

def Builder.classOf (b : Builder) (slot : Nat) : Nat := b.classes[slot]?.getD 0

/-- Whether a kept suffix rule of slot `cover` makes a covered rule of slot
`slot` redundant. -/
def Builder.covers (b : Builder) (group : Group) (cover slot : Nat) : Bool :=
  group.index < 2 || uniform b.classes || (b.isLocal cover && !b.isLocal slot) ||
    (b.classOf cover == b.classOf slot && b.isLocal cover == b.isLocal slot)

/-- The label boundaries of `bytes` beyond `position`, at most `room` of them. -/
def boundaries (bytes : Bytes) : Nat → Nat → Except Fault (List Nat)
  | room, position =>
    if position < bytes.length then
      match room with
      | 0 => .error .panic
      | room + 1 => do
        let position := position + 1 + (bytes[position]?.getD 0).toNat
        pure (position :: (← boundaries bytes room position))
    else .ok []

/-- The rule found at the first of these boundaries that has one. -/
def coverAt (arena : Bytes) (suffixes : List Record) (bytes : Bytes) : List Nat → Except Fault (Option Entry)
  | [] => .ok none
  | stop :: stops =>
    if bytes.length < stop then .error .panic
    else
      match binarySearchBy (fun r => compare (key arena r.entry) (bytes.take stop)) suffixes with
      | some i => .ok (suffixes[i]?.map (·.entry))
      | none => coverAt arena suffixes bytes stops

def longestCover (arena : Bytes) (suffixes : List Record) (bytes : Bytes) : Except Fault (Option Entry) := do
  let ends ← boundaries bytes 128 0
  coverAt arena suffixes bytes ends.reverse

structure PruneState where
  /-- Kept suffixes that cover the current key, longest first. -/
  ancestors : List Entry
  last : Option Entry
  kept : List Record

def pruneStep (b : Builder) (group : Group) (suffixes : List Record) (st : PruneState) (record : Record) :
    Except Fault PruneState := do
  let arena := b.arena.items
  let entry := record.entry
  let bytes := key arena entry
  let duplicate := st.last.any fun last => bytes == key arena last
  let suffix := group.index % 2 == 0
  let ancestors := if suffix then st.ancestors.dropWhile fun a => !(key arena a).isPrefixOf bytes else st.ancestors
  let cover ← if suffix then pure ancestors.head? else longestCover arena suffixes bytes
  let redundant := duplicate || cover.any fun c => b.covers group c.sourceSlot entry.sourceSlot
  if redundant then pure { ancestors, last := some entry, kept := st.kept }
  else if suffix then
    -- The stack is an array of 128.
    if ancestors.length < 128 then
      pure { ancestors := entry :: ancestors, last := some entry, kept := st.kept ++ [record] }
    else .error .panic
  else pure { ancestors, last := some entry, kept := st.kept ++ [record] }

/-- The records of one group, from `read` on; what is left belongs to the next. -/
def pruneGroup (env : Env) (b : Builder) (group : Group) (suffixes : List Record) :
    Nat → List Record → PruneState → Except Fault (List Record × Nat × List Record)
  | read, [], st => .ok (st.kept, read, [])
  | read, record :: rest, st =>
    if record.group = group then do
      if read % 4096 = 0 then env.run (.prune read)
      let st ← pruneStep b group suffixes st record
      pruneGroup env b group suffixes (read + 1) rest st
    else .ok (st.kept, read, record :: rest)

def PruneState.start : PruneState := { ancestors := [], last := none, kept := [] }

abbrev Digest := Vector UInt8 32

/-- What the semantic digest hashes. -/
def semanticBytes (arena : Bytes) (groups : List (Nat × List Record)) : Bytes :=
  "parins-policy-semantics-v1".toUTF8.toList ++ [0] ++
    groups.flatMap fun (group, records) =>
      UInt8.ofNat group :: (toBeBytes 8 records.length ++
        records.flatMap fun r => toBeBytes 2 r.entry.len ++ key arena r.entry)

structure Canonical where
  arena : Bytes
  records : List Record
  budget : Budget
  semanticDigest : Digest
  inputRules : Nat

def Builder.prepareWithCheck (S : UnstableSort) (sha256 : Bytes → Digest) (env : Env) (b : Builder) :
    Except Fault Canonical := do
  env.run .prepare
  match b.failed with
  | some e => .error (.error e)
  | none =>
    let arena := b.arena.items
    let records := S.sort (recordCmp arena) b.records.items
    env.run .sorted
    let (r0, read, rest) ← pruneGroup env b .allowSuffix [] 0 records .start
    let (r1, read, rest) ← pruneGroup env b .allowExact r0 read rest .start
    let (r2, read, rest) ← pruneGroup env b .blockSuffix [] read rest .start
    let (r3, _, _) ← pruneGroup env b .blockExact r2 read rest .start
    let digest := sha256 (semanticBytes arena [(0, r0), (1, r1), (2, r2), (3, r3)])
    env.run .hashed
    pure { arena, records := r0 ++ r1 ++ r2 ++ r3, budget := b.budget, semanticDigest := digest,
           inputRules := b.records.items.length }

end Parins.Policy
