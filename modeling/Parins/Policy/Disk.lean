/-
`policy::radix_disk`: the derived index as bytes. `writeTo` stores an index,
`readFromWithCheck` accepts only what `walk` validates, and
`publicationDigest` hashes what `walk` visits.

`walk` is an iterative preorder of the nodes that checks, at every node, that
nodes and edges stand where the builder puts them and that no rule is redundant.
A writer here takes every byte, and source ids are their bytes.
-/
import Parins.Policy.Index

namespace Parins.Policy

open Lib

/-- Why reading, writing or walking fails. -/
inductive DiskError where
  /-- `ensure!` and `context`. -/
  | message (text : String)
  | canonical (e : Error)
  | interrupted
  /-- An I/O error passed on as it is. -/
  | io
  /-- `TryFromIntError`. -/
  | conversion
deriving DecidableEq

abbrev DiskFault := Lib.Fault DiskError

def ensure (condition : Bool) (text : String) : Except DiskFault Unit :=
  if condition then .ok () else .error (.error (.message text))

def lift {α : Type} : Except Fault α → Except DiskFault α
  | .ok a => .ok a
  | .error (.error e) => .error (.error (.canonical e))
  | .error .panic => .error .panic

def maxDepth : Nat := 255
/-- `MAX_DEPTH * size_of::<WalkFrame>() + 254`. -/
def scratchBytes : Nat := maxDepth * 24 + 254
def maxLocalResponses : Nat := 1024

/-- `b"PRNSRDX\0\0\0\0\x01\0\0\0\x01"`. -/
def derivedPrefix : Bytes := [80, 82, 78, 83, 82, 68, 88, 0, 0, 0, 0, 1, 0, 0, 0, 1]

/-- Local slots (empty ids, at least one), then at most 16 distinct sources. -/
def sourceIdsValid (ids : List Bytes) : Bool :=
  let locals := (ids.takeWhile (·.isEmpty)).length
  let sources := ids.drop locals
  1 ≤ locals && locals ≤ maxLocalResponses + 1 && sources.length ≤ 16 &&
    (sources.all fun id => 1 ≤ id.length && id.length ≤ 32 &&
      id.all fun b => (97 ≤ b && b ≤ 122) || (48 ≤ b && b ≤ 57) || b == 45) &&
    sources.zipIdx.all fun (id, i) => !(sources.take i).contains id

/-! ## The walk -/

structure WalkFrame where
  node : Nat
  prefixLen : Nat
  nextChild : Nat
  /-- Bit 0: an allow suffix above; bit 1: a block suffix above. -/
  ancestorSuffixes : Nat
  /-- Slot of the nearest ancestor block suffix, or `noSlot`. -/
  blockSuffix : Nat
  entered : Bool

structure WalkState (σ : Type) where
  /-- `frames[..depth]`, the last first. -/
  frames : List WalkFrame
  key : Bytes
  nextAllocation : Nat
  nextEdge : Nat
  visited : Nat
  /-- What `visit` has collected. -/
  acc : σ

/-- The rest of a key is a label and more; at most `fuel` labels. -/
def validateLabels : Nat → Bytes → Except DiskFault Unit
  | _, [] => .ok ()
  | 0, _ :: _ => .error .panic
  | fuel + 1, length :: rest => do
    ensure (1 ≤ length && length ≤ 63) "derived index label length"
    if rest.length < length.toNat then .error (.error (.message "derived index label bounds"))
    else
      ensure ((rest.take length.toNat).all fun b => (97 ≤ b && b ≤ 122) || (48 ≤ b && b ≤ 57) || b == 45 || b == 95)
        "derived index label encoding"
      validateLabels fuel (rest.drop length.toNat)

def validateKey (key : Bytes) : Except DiskFault Unit := do
  ensure (!key.isEmpty) "derived index empty rule"
  validateLabels key.length key

def Group.all : List Group := [.allowSuffix, .allowExact, .blockSuffix, .blockExact]

def Sources.terminal (s : Sources) : Bool := Group.all.any fun g => s.get g != noSlot

/-- The loop body over `node.sources`: a slot is in range and its rule not
redundant. -/
def checkSource (sourceCount : Nat) (ancestorSuffixes blockSuffix : Nat) (sources : Sources) (group : Group) :
    Except DiskFault Unit := do
  let source := sources.get group
  ensure (source == noSlot || source < sourceCount) "derived index source slot"
  if source = noSlot then pure ()
  else if group.index < 2 then
    ensure (ancestorSuffixes &&& 1 == 0) "derived index redundant suffix child"
    ensure (group.index == 0 || sources.get .allowSuffix == noSlot) "derived index redundant exact"
  else
    -- A covered block rule is kept only to answer differently from its nearest
    -- cover, so it has another slot.
    ensure (blockSuffix != source) "derived index redundant suffix child"
    ensure (group.index == 2 || sources.get .blockSuffix != source) "derived index redundant exact"

section Walk

variable {σ : Type} (ix : Index) (sourceCount : Nat) (check : Nat → Except DiskFault Unit)
  (visit : σ → Bytes → Sources → Except DiskFault σ)

/-- The edge into a node other than the root. -/
def walkEdge (s : WalkState σ) (frame : WalkFrame) (node : Node) : Except DiskFault (WalkState σ) :=
  if frame.node = 0 then .ok s
  else do
    ensure (node.edgeLen != 0 && node.edgeOffset == s.nextEdge) "derived index edge layout"
    let edgeEnd := s.nextEdge + node.edgeLen
    ensure (edgeEnd ≤ usizeMax) "derived index edge overflow"
    ensure (edgeEnd ≤ ix.arena.items.length) "derived index edge bounds"
    let edge := (ix.arena.items.drop s.nextEdge).take node.edgeLen
    let first ← item edge 0
    ensure (first == node.firstByte) "derived index edge ordering byte"
    pure { s with
      key := s.key.take frame.prefixLen ++ edge ++ s.key.drop (frame.prefixLen + node.edgeLen)
      nextEdge := edgeEnd }

/-- `children.windows(2).all(|pair| pair[0].first_byte < pair[1].first_byte)`. -/
def ascending : List Node → Bool
  | a :: b :: rest => a.firstByte < b.firstByte && ascending (b :: rest)
  | _ => true

/-- The children of a node are the next nodes, in order. -/
def walkChildren (s : WalkState σ) (frame : WalkFrame) (node : Node) : Except DiskFault (WalkState σ) := do
  ensure (node.firstChild == s.nextAllocation && node.childCount ≤ 256) "derived index graph allocation"
  let nextAllocation := s.nextAllocation + node.childCount
  ensure (nextAllocation ≤ usizeMax) "derived index child overflow"
  ensure (nextAllocation ≤ ix.nodes.items.length) "derived index child bounds"
  ensure (ascending ((ix.nodes.items.drop node.firstChild).take node.childCount)) "derived index children unsorted"
  ensure (frame.node == 0 || node.sources.terminal || 2 ≤ node.childCount) "derived index uncompressed dead path"
  pure { s with nextAllocation }

/-- A node is checked and visited once, when its frame is first seen. -/
def walkEnter (s : WalkState σ) (frame : WalkFrame) (node : Node) : Except DiskFault (WalkState σ × WalkFrame) :=
  if frame.entered then .ok (s, frame)
  else do
    let stop := frame.prefixLen + node.edgeLen
    if s.visited % 4096 = 0 then check s.visited
    let s := { s with visited := s.visited + 1 }
    ensure (stop ≤ s.key.length) "derived index DNS key length"
    let s ← walkEdge ix s frame node
    let s ← walkChildren ix s frame node
    if node.sources.terminal then validateKey (s.key.take stop)
    Group.all.forM (checkSource sourceCount frame.ancestorSuffixes frame.blockSuffix node.sources)
    let acc ← visit s.acc (s.key.take stop) node.sources
    pure ({ s with acc }, { frame with entered := true })

/-- The flags of the suffixes at or above a node. -/
def suffixesBelow (ancestorSuffixes : Nat) (sources : Sources) : Nat :=
  ancestorSuffixes ||| (if sources.get .allowSuffix != noSlot then 1 else 0) |||
    ((if sources.get .blockSuffix != noSlot then 1 else 0) <<< 1)

/-- The nearest block suffix at or above a node. -/
def blockSuffixBelow (blockSuffix : Nat) (sources : Sources) : Nat :=
  if sources.get .blockSuffix != noSlot then sources.get .blockSuffix else blockSuffix

/-- The next child of an entered frame gets its own; a frame without one is
popped. -/
def walkAdvance (s : WalkState σ) (frame : WalkFrame) (node : Node) (frames : List WalkFrame) :
    Except DiskFault (WalkState σ) :=
  if frame.nextChild = node.childCount then .ok { s with frames }
  else do
    ensure (frames.length + 1 < maxDepth) "derived index graph depth"
    let child : WalkFrame :=
      { node := node.firstChild + frame.nextChild, prefixLen := frame.prefixLen + node.edgeLen, nextChild := 0
        ancestorSuffixes := suffixesBelow frame.ancestorSuffixes node.sources
        blockSuffix := blockSuffixBelow frame.blockSuffix node.sources, entered := false }
    pure { s with frames := child :: { frame with nextChild := frame.nextChild + 1 } :: frames }

def walkStep (s : WalkState σ) (frame : WalkFrame) (frames : List WalkFrame) : Except DiskFault (WalkState σ) := do
  let node ← item ix.nodes.items frame.node
  let (s, frame) ← walkEnter ix sourceCount check visit s frame node
  walkAdvance s frame node frames

/-- The loop over frames, for at most so many turns. -/
def walkFrames : Nat → WalkState σ → Except DiskFault (WalkState σ)
  | fuel, s =>
    match s.frames with
    | [] => .ok s
    | frame :: frames =>
      match fuel with
      | 0 => .error .panic
      | fuel + 1 => do
        let s ← walkStep ix sourceCount check visit s frame frames
        walkFrames fuel s

/-- `Index::walk`. A node is entered once and left once. -/
def Index.walk (acc : σ) : Except DiskFault σ := do
  let root ← item ix.nodes.items 0
  ensure (root.edgeOffset == 0 && root.edgeLen == 0 && root.firstByte == 0 && root.sources == .none)
    "invalid derived index root"
  let top : WalkFrame :=
    { node := 0, prefixLen := 0, nextChild := 0, ancestorSuffixes := 0, blockSuffix := noSlot, entered := false }
  let s ← walkFrames ix sourceCount check visit (2 * ix.nodes.items.length)
    { frames := [top], key := List.replicate 254 0, nextAllocation := 1, nextEdge := 0, visited := 0, acc }
  ensure (s.visited == ix.nodes.items.length && s.nextAllocation == ix.nodes.items.length &&
    s.nextEdge == ix.arena.items.length) "derived index unreachable data"
  pure s.acc

end Walk

/-- What the publication digest hashes of one group of a node. -/
def witnessBytes (sourceIds : List Bytes) (key : Bytes) (sources : Sources) (bytes : Bytes) (group : Group) :
    Except DiskFault Bytes :=
  if sources.get group = noSlot then .ok bytes
  else do
    let id ← item sourceIds (sources.get group)
    pure (bytes ++ UInt8.ofNat group.index :: (toBeBytes 2 key.length ++ key ++ UInt8.ofNat id.length :: id))

/-- `Index::publication_digest`; the walk is expected to pass. -/
def Index.publicationDigest (sha256 : Bytes → Digest) (ix : Index) (sourceIds : List Bytes) :
    Except DiskFault Digest :=
  match ix.walk sourceIds.length (fun _ => .ok ())
      (fun bytes key sources => Group.all.foldlM (witnessBytes sourceIds key sources) bytes)
      ("parins-policy-witness-v1".toUTF8.toList ++ [0]) with
  | .ok bytes => .ok (sha256 bytes)
  | .error _ => .error .panic

/-! ## Writing -/

/-- `u32::try_from(n)?.to_be_bytes()`. -/
def u32Bytes (n : Nat) : Except DiskFault Bytes :=
  if n ≤ u32Max then .ok (toBeBytes 4 n) else .error (.error .conversion)

def encodeNode (node : Node) : Bytes :=
  toBeBytes 4 node.edgeOffset ++ toBeBytes 4 node.firstChild ++ toBeBytes 2 node.childCount ++
    [UInt8.ofNat node.edgeLen, node.firstByte] ++ Group.all.flatMap fun g => toBeBytes 2 (node.sources.get g)

def writeNode (sourceCount : Nat) (node : Node) : Except DiskFault Bytes := do
  ensure (Group.all.all fun g => node.sources.get g == noSlot || node.sources.get g < sourceCount)
    "invalid derived index source slot"
  pure (encodeNode node)

/-- `Index::write_to`: the bytes written. -/
def Index.writeTo (sha256 : Bytes → Digest) (ix : Index) (inputDigest : Digest) (sourceIds : List Bytes) :
    Except DiskFault Bytes := do
  ensure (sourceIdsValid sourceIds) "invalid derived index source IDs"
  let nodeCount ← u32Bytes ix.nodes.items.length
  let arenaLen ← u32Bytes ix.arena.items.length
  let inputRules ← u32Bytes ix.inputRules
  let indexRules ← u32Bytes ix.indexRules
  let nodes ← ix.nodes.items.mapM (writeNode sourceIds.length)
  let bytes := derivedPrefix ++ inputDigest.toList ++ ix.semanticDigest.toList ++ nodeCount ++ arenaLen ++
    inputRules ++ indexRules ++ toBeBytes 2 sourceIds.length ++
    (sourceIds.flatMap fun id => UInt8.ofNat id.length :: id) ++ nodes.flatten ++ ix.arena.items
  pure (bytes ++ (sha256 bytes).toList)

/-! ## Reading -/

/-- Where reading calls the cancellation check. -/
inductive ReadSite where
  | start | node (i : Nat) | chunk (i : Nat) | counts (visited : Nat) | semantic (group : Group) (visited : Nat)

/-- Where reading grows a buffer. -/
inductive ReadAlloc where
  | nodes | arena

structure ReadEnv where
  check : ReadSite → Option DiskError
  alloc : ReadAlloc → Nat → Option Nat

def ReadEnv.run (env : ReadEnv) (site : ReadSite) : Except DiskFault Unit :=
  match env.check site with
  | none => .ok ()
  | some e => .error (.error e)

/-- `get` of the source: what it reads is hashed. -/
def fetch (r : Reader) (n : Nat) : Except DiskFault (Bytes × Reader) :=
  r.get (.message "truncated derived index") n

/-- The source ids stored are those expected. -/
def readIds : List Bytes → Reader → Except DiskFault Reader
  | [], r => .ok r
  | expected :: ids, r => do
    let (length, r) ← fetch r 1
    ensure (ofBeBytes length == expected.length) "derived index source mismatch"
    let (bytes, r) ← fetch r expected.length
    ensure (bytes == expected) "derived index source mismatch"
    readIds ids r

def decodeNode (bytes : Bytes) : Node :=
  let source (i : Nat) : Nat := ofBeBytes ((bytes.drop (12 + 2 * i)).take 2)
  { edgeOffset := ofBeBytes (bytes.take 4)
    firstChild := ofBeBytes ((bytes.drop 4).take 4)
    childCount := ofBeBytes ((bytes.drop 8).take 2)
    edgeLen := (bytes[10]?.getD 0).toNat
    firstByte := bytes[11]?.getD 0
    sources := ⟨source 0, source 1, source 2, source 3⟩ }

/-- The `n` nodes from the `i`-th on. -/
def readNodes (env : ReadEnv) : Nat → Nat → Reader → Except DiskFault (List Node × Reader)
  | 0, _, r => .ok ([], r)
  | n + 1, i, r => do
    if i % 4096 = 0 then env.run (.node i)
    let (bytes, r) ← fetch r 20
    let (nodes, r) ← readNodes env n (i + 1) r
    pure (decodeNode bytes :: nodes, r)

/-- The arena, in chunks of 8192 bytes: `n` chunks from the `i`-th on. -/
def readArena (env : ReadEnv) : Nat → Nat → Nat → Reader → Except DiskFault (Bytes × Reader)
  | 0, _, _, r => .ok ([], r)
  | n + 1, i, left, r => do
    env.run (.chunk i)
    let (chunk, r) ← fetch r (min 8192 left)
    let (bytes, r) ← readArena env n (i + 1) (left - 8192) r
    pure (chunk ++ bytes, r)

/-- `bytes.try_into()` for the 32 bytes from `offset` on. -/
def digestAt (bytes : Bytes) (offset : Nat) : Digest := Vector.ofFn fun i => bytes[offset + i.val]?.getD 0

def saturate (n : Nat) : Nat := min n usizeMax

structure Header where
  semanticDigest : Digest
  nodeCount : Nat
  arenaLen : Nat
  inputRules : Nat
  indexRules : Nat

/-- The first 98 bytes, and the expected source ids after them. -/
def readHeader (r : Reader) (inputDigest : Digest) (sourceIds : List Bytes) (limits : Limits) :
    Except DiskFault (Header × Reader) := do
  let (header, r) ← fetch r 98
  ensure (header.take 16 == derivedPrefix) "unsupported derived index format"
  ensure (digestAt header 16 == inputDigest) "derived index input mismatch"
  let length (offset : Nat) : Nat := ofBeBytes ((header.drop offset).take 4)
  let nodeCount := length 80
  let arenaLen := length 84
  let inputRules := length 88
  let indexRules := length 92
  ensure (inputRules ≤ limits.maxRules && indexRules ≤ inputRules) "derived index rule limit"
  ensure (0 < nodeCount && nodeCount ≤ saturate (saturate (indexRules * 2) + 1) && arenaLen ≤ saturate (nodeCount * 254))
    "derived index dimensions"
  ensure (ofBeBytes ((header.drop 96).take 2) == sourceIds.length) "derived index sources mismatch"
  let r ← readIds sourceIds r
  pure ({ semanticDigest := digestAt header 48, nodeCount, arenaLen, inputRules, indexRules }, r)

/-- The buffers the index is read into. -/
def readBuffers (env : ReadEnv) (limits : Limits) (nodeCount arenaLen : Nat) :
    Except DiskFault (Vec Node × Vec UInt8 × Budget) := do
  let builder ← lift (Builder.new limits)
  let budget ← lift (builder.budget.reserve scratchBytes)
  let (nodes, budget) ← lift (grow nodeSize (env.alloc .nodes) Vec.empty nodeCount budget)
  let (arena, budget) ← lift (grow 1 (env.alloc .arena) Vec.empty arenaLen budget)
  pure (nodes, arena, budget)

/-- What the semantic digest hashes of one group, by a walk. -/
def walkGroup (env : ReadEnv) (ix : Index) (sourceCount : Nat) (counts : Group → Nat) (bytes : Bytes) (group : Group) :
    Except DiskFault Bytes :=
  ix.walk sourceCount (fun n => env.run (.semantic group n))
    (fun bytes key sources =>
      .ok (if sources.get group ≠ noSlot then bytes ++ (toBeBytes 2 key.length ++ key) else bytes))
    (bytes ++ UInt8.ofNat group.index :: toBeBytes 8 (counts group))

/-- An index that was read is walked for its counts, and for the semantic digest. -/
def validate (sha256 : Bytes → Digest) (env : ReadEnv) (ix : Index) (sourceCount : Nat) : Except DiskFault Unit := do
  let counts ← ix.walk sourceCount (fun n => env.run (.counts n))
    (fun counts _ sources => .ok fun g => counts g + if sources.get g ≠ noSlot then 1 else 0) (fun _ => 0)
  ensure ((Group.all.map counts).sum == ix.indexRules) "derived index terminal count"
  let semantic ← Group.all.foldlM (walkGroup env ix sourceCount counts)
    ("parins-policy-semantics-v1".toUTF8.toList ++ [0])
  ensure (sha256 semantic == ix.semanticDigest) "derived index semantic mismatch"

/-- `Index::read_from_with_check`, on the bytes of the reader. -/
def Index.readFromWithCheck (sha256 : Bytes → Digest) (env : ReadEnv) (input : Bytes) (inputDigest : Digest)
    (sourceIds : List Bytes) (limits : Limits) : Except DiskFault Index := do
  env.run .start
  ensure (sourceIdsValid sourceIds) "invalid derived index source IDs"
  let (header, r) ← readHeader ⟨[], input⟩ inputDigest sourceIds limits
  let (nodes, arena, budget) ← readBuffers env limits header.nodeCount header.arenaLen
  let (nodeItems, r) ← readNodes env header.nodeCount 0 r
  let (arenaItems, r) ← readArena env ((header.arenaLen + 8191) / 8192) 0 header.arenaLen r
  let (trailer, rest) ← r.get .io 32
  ensure (sha256 r.hashed == digestAt trailer 0) "derived index checksum mismatch"
  ensure rest.rest.isEmpty "trailing derived index bytes"
  let result : Index :=
    { nodes := { nodes with items := nodeItems }, arena := { arena with items := arenaItems }
      semanticDigest := header.semanticDigest, inputRules := header.inputRules, indexRules := header.indexRules
      peakBytes := budget.peak }
  validate sha256 env result sourceIds.length
  pure result

end Parins.Policy
