/-
`policy::radix`: the compressed byte radix built over the canonical rules with
an explicit stack of frames, and the two walks down it, `lookup` and
`blockMatch`.

A frame's records are the part `start..end` of the sorted records it has still
to place, so the frame carries that part itself and where it begins. Slices and
indices out of range end in a panic, as in the source.
-/
import Parins.Policy.Canonical

namespace Parins.Policy

open Lib

/-- `[u16; 4]`: the slot of the rule of each group at a node, or `noSlot`. -/
structure Sources where
  allowSuffix : Nat
  allowExact : Nat
  blockSuffix : Nat
  blockExact : Nat
deriving DecidableEq

def Sources.none : Sources := ⟨noSlot, noSlot, noSlot, noSlot⟩

def Sources.get (s : Sources) : Group → Nat
  | .allowSuffix => s.allowSuffix
  | .allowExact => s.allowExact
  | .blockSuffix => s.blockSuffix
  | .blockExact => s.blockExact

def Sources.set (s : Sources) (g : Group) (slot : Nat) : Sources :=
  match g with
  | .allowSuffix => { s with allowSuffix := slot }
  | .allowExact => { s with allowExact := slot }
  | .blockSuffix => { s with blockSuffix := slot }
  | .blockExact => { s with blockExact := slot }

@[simp] theorem Sources.get_none (g) : Sources.none.get g = noSlot := by cases g <;> rfl

@[simp] theorem Sources.get_set (s : Sources) (g g' slot) :
    (s.set g slot).get g' = if g = g' then slot else s.get g' := by
  cases g <;> cases g' <;> rfl

structure Node where
  edgeOffset : Nat
  firstChild : Nat
  childCount : Nat
  edgeLen : Nat
  firstByte : UInt8
  sources : Sources
deriving DecidableEq

def Node.empty : Node :=
  { edgeOffset := 0, firstChild := 0, childCount := 0, edgeLen := 0, firstByte := 0, sources := .none }

structure Index where
  nodes : Vec Node
  arena : Vec UInt8
  semanticDigest : Digest
  inputRules : Nat
  indexRules : Nat
  peakBytes : Nat

/-! ## Building -/

def maxBuildDepth : Nat := 255
/-- `size_of::<Frame>()` and `size_of::<Node>()`. -/
def frameSize : Nat := 40
def nodeSize : Nat := 20

structure Frame where
  parent : Nat
  start : Nat
  /-- The records `start..end`. -/
  records : List Record
  depth : Nat
  /-- `none` until the children of the parent are allocated. -/
  nextChild : Option Nat

def Frame.new (parent start : Nat) (records : List Record) (depth : Nat) : Frame :=
  { parent, start, records, depth, nextChild := none }

structure BuildState where
  nodes : Vec Node
  arena : Vec UInt8
  budget : Budget
  frames : List Frame
  processed : Nat

/-- `key(..)[depth]`. -/
def byteAt (arena : Bytes) (depth : Nat) (r : Record) : Except Fault UInt8 :=
  match (key arena r.entry)[depth]? with
  | some b => .ok b
  | none => .error .panic

/-- The rules that end at this node, and the records left. -/
def terminals (depth : Nat) : List Record → Sources → List Record × Sources
  | [], s => ([], s)
  | r :: rs, s =>
    if r.entry.len = depth then terminals depth rs (s.set r.group r.entry.sourceSlot) else (r :: rs, s)

/-- The number of runs of records with one byte at `depth`; `byte` is that of
the run being read, `position` the index of the first record here. -/
def countChildren (env : Env) (processed : Nat) (arena : Bytes) (depth : Nat) :
    Option UInt8 → Nat → List Record → Except Fault Nat
  | _, _, [] => .ok 0
  | byte, position, r :: rs => do
    let b ← byteAt arena depth r
    if byte = some b then
      if (position + 1) % 4096 = 0 then env.run (.scan processed (position + 1))
      countChildren env processed arena depth byte (position + 1) rs
    else
      let n ← countChildren env processed arena depth (some b) (position + 1) rs
      pure (n + 1)

/-- The records from `stop` on with this byte at `depth`, and the rest. -/
def sameByte (env : Env) (processed : Nat) (arena : Bytes) (depth : Nat) (byte : UInt8) :
    Nat → List Record → Except Fault (List Record × List Record)
  | _, [] => .ok ([], [])
  | stop, r :: rs => do
    let b ← byteAt arena depth r
    if b = byte then
      if (stop + 1) % 4096 = 0 then env.run (.stop processed (stop + 1))
      let (run, rest) ← sameByte env processed arena depth byte (stop + 1) rs
      pure (r :: run, rest)
    else pure ([], r :: rs)

/-- The length of the longest common prefix. -/
def commonLen : Bytes → Bytes → Nat
  | a :: as, b :: bs => if a = b then commonLen as bs + 1 else 0
  | _, _ => 0

/-- The children of the frame's node are allocated once, when the frame is
first seen; rules that end there become its sources. -/
def enter (env : Env) (arena : Bytes) (s : BuildState) (frame : Frame) : Except Fault (BuildState × Frame) :=
  match frame.nextChild with
  | some _ => .ok (s, frame)
  | none => do
    let placed ← update s.nodes.items frame.parent fun n =>
      { n with sources := (terminals frame.depth frame.records n.sources).2 }
    let records := (terminals frame.depth frame.records Sources.none).1
    let start := frame.start + (frame.records.length - records.length)
    let count ← countChildren env s.processed arena frame.depth none start records
    let firstChild := placed.length
    let (nodes, budget) ← grow nodeSize (env.alloc (.nodes s.processed)) { s.nodes with items := placed }
      (firstChild + count) s.budget
    let items ← update (nodes.items ++ List.replicate count Node.empty) frame.parent fun n =>
      { n with firstChild := firstChild % 2 ^ 32, childCount := count % 2 ^ 16 }
    pure ({ s with nodes := { nodes with items }, budget },
      { frame with start, records, nextChild := some firstChild })

/-- One child of an entered frame: its edge is stored and its frame pushed. A
frame with nothing left is popped. -/
def advance (env : Env) (arena : Bytes) (s : BuildState) (frame : Frame) (frames : List Frame) :
    Except Fault BuildState :=
  match frame.records with
  | [] => .ok { s with frames }
  | r :: rs => do
    let child := frame.nextChild.getD 0
    let first := key arena r.entry
    let byte ← byteAt arena frame.depth r
    let (run, rest) ← sameByte env s.processed arena frame.depth byte (frame.start + 1) rs
    let last := key arena ((r :: run).getLast?.getD r).entry
    let common := frame.depth + 1 + commonLen (first.drop (frame.depth + 1)) (last.drop (frame.depth + 1))
    let edge := (first.drop frame.depth).take (common - frame.depth)
    let offset := s.arena.items.length
    let (bytes, budget) ← grow 1 (env.alloc (.edges s.processed)) s.arena (offset + (common - frame.depth)) s.budget
    let items ← update s.nodes.items child fun _ =>
      { Node.empty with edgeOffset := offset % 2 ^ 32, edgeLen := (common - frame.depth) % 2 ^ 8, firstByte := byte }
    let stop := frame.start + 1 + run.length
    let frame' := { frame with start := stop, records := rest, nextChild := some (child + 1) }
    if frames.length + 1 < maxBuildDepth then
      pure { s with
        nodes := { s.nodes with items }
        arena := { bytes with items := bytes.items ++ edge }
        budget
        frames := Frame.new child frame.start (r :: run) common :: frame' :: frames }
    else .error .panic

/-- One turn of the loop over frames. -/
def buildStep (env : Env) (arena : Bytes) (s : BuildState) (frame : Frame) (frames : List Frame) :
    Except Fault BuildState := do
  let s := { s with processed := s.processed + 1 }
  if s.processed % 4096 = 0 then env.run (.step s.processed)
  let (s, frame) ← enter env arena s frame
  advance env arena s frame frames

/-- The loop over frames, for at most so many turns. -/
def runFrames (env : Env) (arena : Bytes) : Nat → BuildState → Except Fault BuildState
  | 0, s => .ok s
  | fuel + 1, s =>
    match s.frames with
    | [] => .ok s
    | frame :: frames => do
      let s ← buildStep env arena s frame frames
      runFrames env arena fuel s

/-- `a`'s key, then its group. -/
def buildCmp (arena : Bytes) : Record → Record → Ordering :=
  compareLex (compareOn fun r => key arena r.entry) (compareOn (·.group.index))

def buildFuel (records : List Record) : Nat := 2 * (records.map (·.entry.len)).sum + 1

def Index.buildWithCheck (S : UnstableSort) (env : Env) (input : Canonical) : Except Fault Index := do
  env.run .build
  let records := S.sort (buildCmp input.arena) input.records
  env.run .buildSorted
  let (nodes, budget) ← grow nodeSize (env.alloc .root) Vec.empty 1 input.budget
  let (frames, budget) ← grow frameSize (env.alloc .frames) (Vec.empty : Vec Frame) maxBuildDepth budget
  let s ← runFrames env input.arena (buildFuel records)
    { nodes := { nodes with items := nodes.items ++ [Node.empty] }, arena := .empty, budget,
      frames := [Frame.new 0 0 records 0], processed := 0 }
  let budget := s.budget.release (frames.capacity * frameSize)
  env.run .built
  pure { nodes := s.nodes, arena := s.arena, semanticDigest := input.semanticDigest,
         inputRules := input.inputRules, indexRules := input.records.length, peakBytes := budget.peak }

/-! ## Looking up -/

structure Match where
  group : Group
  sourceSlot : Nat
  matchedKeyLen : Nat
deriving DecidableEq

/-- The rule of a group at a node reached after `position` bytes. -/
def found (sources : Sources) (position : Nat) (group : Group) : Option Match :=
  if sources.get group ≠ noSlot then
    some { group, sourceSlot := sources.get group, matchedKeyLen := position % 2 ^ 16 }
  else none

/-- The child that the rest of the query enters, with the position after its
edge. -/
def Index.descend (ix : Index) (query : Bytes) (node : Node) (position : Nat) :
    Except Fault (Option (Nat × Nat)) := do
  let children ← slice ix.nodes.items node.firstChild node.childCount
  let byte ← item query position
  match binarySearchBy (fun n : Node => compare n.firstByte byte) children with
  | none => pure none
  | some child =>
    let index := node.firstChild + child
    let next ← item ix.nodes.items index
    let edge ← slice ix.arena.items next.edgeOffset next.edgeLen
    if edge.isPrefixOf (query.drop position) then pure (some (index, position + edge.length)) else pure none

def Index.lookupFrom (ix : Index) (query : Bytes) : Nat → Nat → Nat → Option Match → Except Fault (Option Match)
  | 0, _, _, _ => .error .panic
  | fuel + 1, index, position, blocked => do
    let node ← item ix.nodes.items index
    match found node.sources position .allowSuffix with
    | some allow => pure (some allow)
    | none =>
      if position = query.length then
        match found node.sources position .allowExact with
        | some allow => pure (some allow)
        | none => pure ((blocked.or (found node.sources position .blockSuffix)).or
          (found node.sources position .blockExact))
      else do
        let blocked := blocked.or (found node.sources position .blockSuffix)
        match ← ix.descend query node position with
        | none => pure blocked
        | some (index, position) => ix.lookupFrom query fuel index position blocked

/-- `Index::lookup`. Every turn but the first consumes a byte of the query. -/
def Index.lookup (ix : Index) (name : Name) : Except Fault (Option Match) := do
  let query ← Key.query name
  ix.lookupFrom query (query.length + 1) 0 0 none

/-- `(subscription, suffix, shorter, slot)`. -/
def rankCmp (localSlots : Nat) : Match → Match → Ordering :=
  compareLex (compareOn fun m => decide (localSlots ≤ m.sourceSlot)) <|
    compareLex (compareOn fun m => decide (m.group = .blockSuffix)) <|
      compareLex (fun a b => compare b.matchedKeyLen a.matchedKeyLen) (compareOn (·.sourceSlot))

/-- Lower ranks win, the first of equals stays. -/
def consider (localSlots : Nat) (best : Option Match) : Option Match → Option Match
  | none => best
  | some m =>
    match best with
    | none => some m
    | some current => if rankCmp localSlots m current = .lt then some m else best

def Index.blockMatchFrom (ix : Index) (localSlots : Nat) (query : Bytes) :
    Nat → Nat → Nat → Option Match → Except Fault (Option Match)
  | 0, _, _, _ => .error .panic
  | fuel + 1, index, position, best => do
    let node ← item ix.nodes.items index
    if (found node.sources position .allowSuffix).isSome then pure none
    else
      let best := consider localSlots best (found node.sources position .blockSuffix)
      if position = query.length then
        if (found node.sources position .allowExact).isSome then pure none
        else pure (consider localSlots best (found node.sources position .blockExact))
      else do
        match ← ix.descend query node position with
        | none => pure best
        | some (index, position) => ix.blockMatchFrom localSlots query fuel index position best

def Index.blockMatch (ix : Index) (name : Name) (localSlots : Nat) : Except Fault (Option Match) := do
  let query ← Key.query name
  ix.blockMatchFrom localSlots query (query.length + 1) 0 0 none

end Parins.Policy
