/-
Storing and reading back. What `writeTo` writes of a built index is read back
piece by piece, and the index read back is the one written, provided its nodes
pass the walk.
-/
import Mathlib.Data.List.Sort
import Parins.Policy.Redundant

namespace Parins.Policy

open Lib Lib.Radix List

/-! ## Walks that pass -/

section Passing

variable {σ : Type} {ix : Index} {n : Nat} {check : Nat → Except DiskFault Unit}
  {visit : σ → Bytes → Sources → Except DiskFault σ} {c : Canonical} {t : Trie UInt8 Sources}

/-- Every node of the tree passes the walk for `n` source ids. -/
structure Passes (n : Nat) (t : Trie UInt8 Sources) : Prop where
  keys : ∀ x ∈ t.entries [], x.2.live = true → validateKey x.1 = .ok ()
  sources : ∀ x ∈ t.inherited Above.below Above.top [],
    Group.all.forM (checkSource n x.2.2.suffixes x.2.2.blockSuffix x.2.1) = .ok ()

theorem foldlM_walkNode {f : σ → Bytes → Sources → σ} : ∀ {l : List (Bytes × Sources × Above)} {st : Nat × σ},
    (∀ n, check n = .ok ()) → (∀ x ∈ l, x.2.1.live = true → validateKey x.1 = .ok ()) →
    (∀ x ∈ l, Group.all.forM (checkSource n x.2.2.suffixes x.2.2.blockSuffix x.2.1) = .ok ()) →
    (∀ acc, ∀ x ∈ l, visit acc x.1 x.2.1 = .ok (f acc x.1 x.2.1)) →
    l.foldlM (walkNode n check visit) st = .ok (st.1 + l.length, l.foldl (fun acc x => f acc x.1 x.2.1) st.2)
  | [], st, _, _, _, _ => rfl
  | x :: l, st, hcheck, hkey, hok, hvisit => by
    have hx : walkNode n check visit st x = .ok (st.1 + 1, f st.2 x.1 x.2.1) :=
      walkNode_ok.mpr ⟨fun _ => hcheck _, fun h => hkey x (by simp) (x.2.1.terminal_eq_live ▸ h), hok x (by simp),
        _, hvisit _ x (by simp), rfl⟩
    rw [foldlM_cons, hx, ok_bind, foldlM_walkNode hcheck (fun y hy => hkey y (by simp [hy]))
      (fun y hy => hok y (by simp [hy])) (fun acc y hy => hvisit acc y (by simp [hy]))]
    simp only [foldl_cons, length_cons, Except.ok.injEq, Prod.mk.injEq, and_true]
    omega

theorem walk_pass (hi : Indexes c ix t) (hroot : t.value = .none) (hn : ix.nodes.items.length ≤ usizeMax)
    (ha : ix.arena.items.length ≤ usizeMax) (hp : Passes n t) (hcheck : ∀ n, check n = .ok ())
    {f : σ → Bytes → Sources → σ} (hvisit : ∀ acc, ∀ x ∈ t.entries [], visit acc x.1 x.2 = .ok (f acc x.1 x.2))
    (acc) : ix.walk n check visit acc = .ok ((t.entries []).foldl (fun acc x => f acc x.1 x.2) acc) := by
  have hentry : ∀ x ∈ t.inherited Above.below Above.top [], (x.1, x.2.1) ∈ t.entries [] :=
    fun x hx => Trie.mem_of_inherited hx
  rw [walk_eq hi hroot hn ha, foldlM_walkNode hcheck (fun x hx => hp.keys _ (hentry x hx)) hp.sources
    (fun acc x hx => hvisit acc _ (hentry x hx)), ok_bind, ← Trie.inherited_entries t Above.top [], foldl_map]
  rfl

theorem forM_of_foldlM : ∀ {l : List (Bytes × Sources × Above)} {st out},
    l.foldlM (walkNode n check visit) st = .ok out →
    ∀ x ∈ l, Group.all.forM (checkSource n x.2.2.suffixes x.2.2.blockSuffix x.2.1) = .ok ()
  | [], _, _, _, x, hx => by cases hx
  | y :: l, st, out, h, x, hx => by
    rw [foldlM_cons] at h
    obtain ⟨st', hy, h⟩ := bind_eq_ok.mp h
    rcases mem_cons.mp hx with rfl | hx
    · exact (walkNode_ok.mp hy).2.2.1
    · exact forM_of_foldlM h x hx

end Passing

/-! ## Nodes -/

structure Node.Fits (n : Nat) (nd : Node) : Prop where
  edgeOffset : nd.edgeOffset < 256 ^ 4
  firstChild : nd.firstChild < 256 ^ 4
  childCount : nd.childCount < 256 ^ 2
  edgeLen : nd.edgeLen < 256
  sources : ∀ g, nd.sources.get g = noSlot ∨ nd.sources.get g < n

theorem length_encodeNode (nd) : (encodeNode nd).length = 20 := rfl

theorem decode_encode {n} {nd : Node} (hn : n < 256 ^ 2) (h : nd.Fits n) : decodeNode (encodeNode nd) = nd := by
  have hslot : ∀ g, nd.sources.get g < 256 ^ 2 := fun g => by
    rcases h.sources g with hg | hg
    · rw [hg]
      decide
    · omega
  have hlen : (UInt8.ofNat nd.edgeLen).toNat = nd.edgeLen := by
    simp only [UInt8.toNat_ofNat']
    exact Nat.mod_eq_of_lt h.edgeLen
  have hdecode : decodeNode (encodeNode nd) =
      { edgeOffset := ofBeBytes (toBeBytes 4 nd.edgeOffset)
        firstChild := ofBeBytes (toBeBytes 4 nd.firstChild)
        childCount := ofBeBytes (toBeBytes 2 nd.childCount)
        edgeLen := (UInt8.ofNat nd.edgeLen).toNat
        firstByte := nd.firstByte
        sources := ⟨ofBeBytes (toBeBytes 2 (nd.sources.get .allowSuffix)),
          ofBeBytes (toBeBytes 2 (nd.sources.get .allowExact)),
          ofBeBytes (toBeBytes 2 (nd.sources.get .blockSuffix)),
          ofBeBytes (toBeBytes 2 (nd.sources.get .blockExact))⟩ } := rfl
  rw [hdecode, ofBeBytes_toBeBytes h.edgeOffset, ofBeBytes_toBeBytes h.firstChild, ofBeBytes_toBeBytes h.childCount, hlen,
    ofBeBytes_toBeBytes (hslot _), ofBeBytes_toBeBytes (hslot _), ofBeBytes_toBeBytes (hslot _),
    ofBeBytes_toBeBytes (hslot _)]
  rfl

section Widths

variable {nodes : List Node} {arena : Bytes} {m : Nat}

mutual
theorem Laid.fits (hn : nodes.length < 256 ^ 4) (ha : arena.length < 256 ^ 4) :
    ∀ {t : Trie UInt8 Sources} {pre i n e}, t.Ordered → (∀ x ∈ t.entries pre, x.1.length ≤ 254) →
      (∀ x ∈ t.entries pre, ∀ g, x.2.get g = noSlot ∨ x.2.get g < m) → Laid (fun _ v => v) nodes arena i n e t →
      (∀ nd, nodes[i]? = some nd → nd.edgeOffset < 256 ^ 4 → nd.edgeLen < 256 → nd.Fits m) ∧
        ∀ j nd, n ≤ j → j < n + t.under → nodes[j]? = some nd → nd.Fits m
  | .node v cs, pre, i, n, e, ho, hshort, hv, h => by
    simp only [Laid, Trie.Ordered, Trie.entries, mem_cons, forall_eq_or_imp, Trie.under, Forest.size_eq] at *
    obtain ⟨⟨nd, hnd, rfl, hfirst, hcount⟩, hlen, hbelow⟩ := h
    have h256 := edges_le_256 ho.1
    obtain ⟨hchildren, hdeep⟩ := LaidBelow.fits hn ha ho.1 ho.2 hshort.2 hv.2 hbelow
    refine ⟨fun nd' hnd' hoff helen => ?_, fun j nd' hj hj' hnd' => ?_⟩
    · obtain rfl : nd = nd' := Option.some.inj (hnd.symm.trans hnd')
      exact ⟨hoff, by omega, by omega, helen, hv.1⟩
    · by_cases hlt : j < n + cs.edges.length
      · exact hchildren j nd' hj hlt hnd'
      · exact hdeep j nd' (by omega) (by omega) hnd'
theorem LaidBelow.fits (hn : nodes.length < 256 ^ 4) (ha : arena.length < 256 ^ 4) : ∀ {cs : Forest UInt8 Sources}
    {pre i n e}, Ascending cs.edges → cs.Ordered → (∀ x ∈ cs.entries pre, x.1.length ≤ 254) →
      (∀ x ∈ cs.entries pre, ∀ g, x.2.get g = noSlot ∨ x.2.get g < m) → LaidBelow (fun _ v => v) nodes arena i n e cs →
      (∀ j nd, i ≤ j → j < i + cs.edges.length → nodes[j]? = some nd → nd.Fits m) ∧
        ∀ j nd, n ≤ j → j < n + cs.deep → nodes[j]? = some nd → nd.Fits m
  | .nil, _, _, _, _, _, _, _, _, _ => by
    simp only [Forest.edges, length_nil, Forest.deep]
    exact ⟨fun _ _ _ _ => by omega, fun _ _ _ _ => by omega⟩
  | .cons edge t rest, pre, i, n, e, hasc, ho, hshort, hv, h => by
    simp only [LaidBelow, Forest.Ordered, Forest.entries, mem_append, Forest.edges, length_cons,
      Forest.deep] at *
    obtain ⟨⟨nd, hnd, hoff, helen, -⟩, hedge, ht, hrest⟩ := h
    have hpath : (pre ++ edge).length ≤ 254 := by
      refine hshort (pre ++ edge, t.value) (.inl ?_)
      cases t
      simp [Trie.entries, Trie.value]
    rw [length_append] at hpath
    have hend := hedge.length_le
    have hpos := length_pos_iff.mpr (hasc.1 edge (by simp))
    rw [length_drop] at hend
    obtain ⟨htop, hunder⟩ := Laid.fits hn ha ho.1 (fun x hx => hshort x (.inl hx)) (fun x hx => hv x (.inl hx)) ht
    obtain ⟨hchildren, hdeep⟩ := LaidBelow.fits hn ha hasc.tail ho.2 (fun x hx => hshort x (.inr hx))
      (fun x hx => hv x (.inr hx)) hrest
    refine ⟨fun j nd' hj hj' hnd' => ?_, fun j nd' hj hj' hnd' => ?_⟩
    · by_cases hji : j = i
      · subst hji
        obtain rfl : nd = nd' := Option.some.inj (hnd.symm.trans hnd')
        exact htop nd hnd (by omega) (by omega)
      · exact hchildren j nd' (by omega) (by omega) hnd'
    · by_cases hlt : j < n + t.under
      · exact hunder j nd' hj hlt hnd'
      · exact hdeep j nd' (by omega) (by omega) hnd'
end

end Widths

/-! ## Reading what was written -/

section Reading

variable {env : ReadEnv} {hashed rest : Bytes}

theorem fetch_append {piece : Bytes} {n} (h : piece.length = n) :
    fetch ⟨hashed, piece ++ rest⟩ n = .ok (piece, ⟨hashed ++ piece, rest⟩) := Reader.get_append _ h

theorem run_ok (h : ∀ site, env.check site = none) (site) : env.run site = .ok () := by
  rw [ReadEnv.run, h]

def idBytes (ids : List Bytes) : Bytes := ids.flatMap fun id => UInt8.ofNat id.length :: id

theorem readIds_ok : ∀ {ids} {hashed : Bytes}, (∀ id ∈ ids, id.length < 256) →
    readIds ids ⟨hashed, idBytes ids ++ rest⟩ = .ok ⟨hashed ++ idBytes ids, rest⟩
  | [], hashed, _ => by simp [readIds, idBytes]
  | id :: ids, hashed, h => by
    have hlen : ofBeBytes [UInt8.ofNat id.length] = id.length := by
      rw [ofBeBytes_singleton, UInt8.toNat_ofNat']
      exact Nat.mod_eq_of_lt (h id (by simp))
    have hbytes : idBytes (id :: ids) ++ rest = [UInt8.ofNat id.length] ++ (id ++ (idBytes ids ++ rest)) := by
      simp [idBytes]
    rw [readIds, hbytes, fetch_append (length_singleton), ok_bind]
    dsimp only
    rw [hlen, ensure_of (beq_self_eq_true _), ok_bind, fetch_append rfl, ok_bind]
    dsimp only
    rw [ensure_of (beq_self_eq_true _), ok_bind, readIds_ok fun id' h' => h id' (by simp [h'])]
    simp [idBytes]

theorem readNodes_ok {n} (hn : n < 256 ^ 2) (hcheck : ∀ site, env.check site = none) :
    ∀ {nodes : List Node} {i} {hashed : Bytes},
    (∀ nd ∈ nodes, nd.Fits n) → readNodes env nodes.length i ⟨hashed, nodes.flatMap encodeNode ++ rest⟩ =
      .ok (nodes, ⟨hashed ++ nodes.flatMap encodeNode, rest⟩)
  | [], i, hashed, _ => by simp [readNodes]
  | nd :: nodes, i, hashed, h => by
    have hrest := @readNodes_ok n hn hcheck nodes (i + 1) (hashed ++ encodeNode nd) fun nd' h' => h nd' (by simp [h'])
    have hbytes : (nd :: nodes).flatMap encodeNode ++ rest = encodeNode nd ++ (nodes.flatMap encodeNode ++ rest) := by simp
    rw [length_cons, readNodes, run_ok hcheck, hbytes, fetch_append (length_encodeNode nd)]
    simp only [ok_bind, hrest, decode_encode hn (h nd (by simp)), ite_self]
    simp [pure, Except.pure]

theorem readArena_ok (hcheck : ∀ site, env.check site = none) : ∀ {n i} {arena hashed : Bytes},
    n = (arena.length + 8191) / 8192 → readArena env n i arena.length ⟨hashed, arena ++ rest⟩ =
      .ok (arena, ⟨hashed ++ arena, rest⟩)
  | 0, i, arena, hashed, h => by
    have : arena = [] := length_eq_zero_iff.mp (by omega)
    simp [readArena, this]
  | n + 1, i, arena, hashed, h => by
    have hchunk : (arena.take 8192).length = min 8192 arena.length := length_take
    have hbytes : arena ++ rest = arena.take 8192 ++ (arena.drop 8192 ++ rest) := by
      rw [← append_assoc, take_append_drop]
    have hleft : arena.length - 8192 = (arena.drop 8192).length := length_drop.symm
    rw [readArena, run_ok hcheck, ok_bind, hbytes, fetch_append hchunk, ok_bind]
    dsimp only
    rw [hleft, readArena_ok hcheck (by rw [length_drop]; omega), ok_bind]
    simp [pure, Except.pure, take_append_drop]

theorem digestAt_of {bytes : Bytes} {offset} {d : Digest} (h : (bytes.drop offset).take 32 = d.toList) :
    digestAt bytes offset = d := by
  refine Vector.ext fun i hi => ?_
  have hget : bytes[offset + i]? = some d[i] := by
    rw [← List.getElem?_drop, ← List.getElem?_take_of_lt hi, h]
    simp [hi]
  rw [digestAt, Vector.getElem_ofFn, hget, Option.getD_some]

def headerPieces (ix : Index) (inputDigest : Digest) (n : Nat) : List Bytes :=
  [derivedPrefix, inputDigest.toList, ix.semanticDigest.toList, toBeBytes 4 ix.nodes.items.length,
    toBeBytes 4 ix.arena.items.length, toBeBytes 4 ix.inputRules, toBeBytes 4 ix.indexRules, toBeBytes 2 n]

def storedBytes (ix : Index) (inputDigest : Digest) (ids : List Bytes) : Bytes :=
  (headerPieces ix inputDigest ids.length).flatten ++ idBytes ids ++ ix.nodes.items.flatMap encodeNode ++ ix.arena.items

/-- What an index must be to be written for `n` source ids. -/
structure Storable (n : Nat) (ix : Index) : Prop where
  ids : n < 256 ^ 2
  nodes : ix.nodes.items.length < 256 ^ 4
  arena : ix.arena.items.length < 256 ^ 4
  inputRules : ix.inputRules < 256 ^ 4
  rules : ix.indexRules ≤ ix.inputRules
  fits : ∀ nd ∈ ix.nodes.items, nd.Fits n
  pos : 0 < ix.nodes.items.length
  nodesLe : ix.nodes.items.length ≤ ix.indexRules * 2 + 1
  arenaLe : ix.arena.items.length ≤ ix.nodes.items.length * 254

variable {ix : Index} {inputDigest : Digest} {ids : List Bytes} {sha256 : Bytes → Digest}

theorem mapM_ok {α β ε : Type} {f : α → Except ε β} {g} : ∀ {l : List α}, (∀ x ∈ l, f x = .ok (g x)) →
    l.mapM f = .ok (l.map g)
  | [], _ => rfl
  | x :: l, h => by
    rw [mapM_cons, h x (by simp), ok_bind, mapM_ok fun y hy => h y (by simp [hy]), ok_bind]
    rfl

/-- **What is written.** -/
theorem writeTo_ok (h : Storable ids.length ix) (hids : sourceIdsValid ids = true) :
    ix.writeTo sha256 inputDigest ids =
      .ok (storedBytes ix inputDigest ids ++ (sha256 (storedBytes ix inputDigest ids)).toList) := by
  have hu32 : ∀ {n : Nat}, n < 256 ^ 4 → u32Bytes n = .ok (toBeBytes 4 n) := fun {n} hn => by
    rw [u32Bytes, if_pos (by unfold u32Max; omega)]
  have hnode : ∀ nd ∈ ix.nodes.items, writeNode ids.length nd = .ok (encodeNode nd) := fun nd hnd => by
    rw [writeNode, ensure_of, ok_bind]
    · rfl
    · simp only [all_eq_true, Bool.or_eq_true, beq_iff_eq, decide_eq_true_eq]
      exact fun g _ => (h.fits nd hnd).sources g
  have hrules := h.inputRules
  have hle := h.rules
  rw [Index.writeTo, ensure_of hids, ok_bind, hu32 h.nodes, ok_bind, hu32 h.arena, ok_bind, hu32 h.inputRules, ok_bind,
    hu32 (by omega), ok_bind, mapM_ok hnode, ok_bind]
  simp [storedBytes, headerPieces, idBytes, flatMap_def, pure, Except.pure]

theorem readHeader_ok {limits : Limits} (h : Storable ids.length ix) (hids : ∀ id ∈ ids, id.length < 256)
    (hlimit : ix.inputRules ≤ limits.maxRules) :
    readHeader ⟨[], (headerPieces ix inputDigest ids.length).flatten ++ (idBytes ids ++ rest)⟩ inputDigest ids limits =
      .ok (⟨ix.semanticDigest, ix.nodes.items.length, ix.arena.items.length, ix.inputRules, ix.indexRules⟩,
        ⟨(headerPieces ix inputDigest ids.length).flatten ++ idBytes ids, rest⟩) := by
  have hd : ∀ d : Digest, d.toList.length = 32 := fun d => Vector.length_toList
  have hlen : (headerPieces ix inputDigest ids.length).flatten.length = 98 := by
    simp [headerPieces, derivedPrefix, hd]
  have hfield : ∀ (i offset len : Nat) {piece : Bytes}, (headerPieces ix inputDigest ids.length)[i]? = some piece →
      (((headerPieces ix inputDigest ids.length).take i).map List.length).sum = offset → piece.length = len →
      (((headerPieces ix inputDigest ids.length).flatten.drop offset).take len) = piece :=
    fun i _ _ _ => flatten_field i
  have hmagic := hfield 0 0 16 rfl rfl rfl
  have hinput := digestAt_of (hfield 1 16 32 rfl rfl (hd _))
  have hsemantic := digestAt_of (hfield 2 48 32 rfl (by simp [headerPieces, derivedPrefix, hd]) (hd _))
  have hnodes := hfield 3 80 4 rfl (by simp [headerPieces, derivedPrefix, hd]) (length_toBeBytes 4 _)
  have harena := hfield 4 84 4 rfl (by simp [headerPieces, derivedPrefix, hd]) (length_toBeBytes 4 _)
  have hinputRules := hfield 5 88 4 rfl (by simp [headerPieces, derivedPrefix, hd]) (length_toBeBytes 4 _)
  have hindexRules := hfield 6 92 4 rfl (by simp [headerPieces, derivedPrefix, hd]) (length_toBeBytes 4 _)
  have hcount := hfield 7 96 2 rfl (by simp [headerPieces, derivedPrefix, hd]) (length_toBeBytes 2 _)
  have hrules := h.rules
  have hmax := h.inputRules
  have hdims : (decide (0 < ix.nodes.items.length) &&
      decide (ix.nodes.items.length ≤ saturate (saturate (ix.indexRules * 2) + 1)) &&
      decide (ix.arena.items.length ≤ saturate (ix.nodes.items.length * 254))) = true := by
    have hsat : ∀ {n : Nat}, n ≤ 2 ^ 64 - 1 → saturate n = n := fun hn => Nat.min_eq_left hn
    have hn := h.nodes
    rw [hsat (n := ix.indexRules * 2) (by omega), hsat (by omega), hsat (by omega)]
    simp only [Bool.and_eq_true, decide_eq_true_eq]
    exact ⟨⟨h.pos, h.nodesLe⟩, h.arenaLe⟩
  rw [drop_zero] at hmagic
  rw [readHeader, fetch_append hlen, ok_bind]
  simp only [hmagic, hinput, hsemantic, hnodes, harena, hinputRules, hindexRules, hcount, ofBeBytes_toBeBytes h.nodes,
    ofBeBytes_toBeBytes h.arena, ofBeBytes_toBeBytes h.inputRules, ofBeBytes_toBeBytes (Nat.lt_of_le_of_lt hrules hmax),
    ofBeBytes_toBeBytes h.ids, nil_append]
  rw [ensure_of (beq_self_eq_true _), ok_bind, ensure_of (beq_self_eq_true _), ok_bind,
    ensure_of (by simp [hlimit, hrules]), ok_bind, ensure_of hdims, ok_bind, ensure_of (beq_self_eq_true _), ok_bind,
    readIds_ok hids, ok_bind]
  rfl

structure Admits (env : ReadEnv) (limits : Limits) (ix : Index) : Prop where
  check : ∀ site, env.check site = none
  maxRules : 0 < limits.maxRules ∧ limits.maxRules ≤ 5000000
  maxMemory : 0 < limits.maxMemoryBytes ∧ limits.maxMemoryBytes ≤ 512 * 1024 * 1024
  rules : ix.inputRules ≤ limits.maxRules
  memory : ∃ nodes arena, env.alloc .nodes ix.nodes.items.length = some nodes ∧ ix.nodes.items.length ≤ nodes ∧
    env.alloc .arena ix.arena.items.length = some arena ∧ ix.arena.items.length ≤ arena ∧
    limits.retainedBytes + scratchBytes + nodes * nodeSize + arena ≤ limits.maxMemoryBytes

theorem reserve_ok {b : Budget} {n} (h : b.live + n ≤ b.limit) (hlimit : b.limit ≤ usizeMax) :
    b.reserve n = .ok { b with live := b.live + n, peak := max b.peak (b.live + n) } := by
  rw [Budget.reserve, if_neg (by omega), if_neg (by omega)]

theorem grow_ok {α : Type} {size needed capacity alloc} {budget : Budget}
    (halloc : alloc needed = some capacity) (hcap : needed ≤ capacity)
    (hfit : budget.live + capacity * size ≤ budget.limit) (hlimit : budget.limit ≤ usizeMax) :
    ∃ buffer budget', grow size alloc (Vec.empty : Vec α) needed budget = .ok (buffer, budget') ∧
      budget'.limit = budget.limit ∧ budget'.live ≤ budget.live + capacity * size := by
  have hbytes : needed * size ≤ capacity * size := Nat.mul_le_mul_right size hcap
  simp only [grow, Vec.empty, Nat.zero_div, Nat.add_zero, Nat.zero_mul]
  by_cases hzero : needed ≤ 0
  · exact ⟨_, budget, if_pos hzero, rfl, by omega⟩
  rw [if_neg hzero, if_neg (Nat.not_lt_zero _), Nat.max_eq_left (Nat.zero_le _), if_neg (by omega),
    reserve_ok (by omega) hlimit, ok_bind, halloc]
  simp only
  rw [if_neg (by omega)]
  by_cases hmore : needed * size < capacity * size
  · rw [if_pos hmore, reserve_ok (b := ⟨budget.live + needed * size, _, budget.limit⟩) (by simp only; omega) hlimit,
      ok_bind]
    exact ⟨_, _, rfl, rfl, by simp only [Budget.release]; omega⟩
  · rw [if_neg hmore]
    exact ⟨_, _, rfl, rfl, by simp only [Budget.release]; omega⟩

theorem readBuffers_ok {limits} (h : Admits env limits ix) :
    ∃ nodes arena budget, readBuffers env limits ix.nodes.items.length ix.arena.items.length =
      .ok (nodes, arena, budget) := by
  obtain ⟨nodes, arena, hnodes, hcap, harena, hcap', hfit⟩ := h.memory
  have hrules := h.maxRules
  have hmax := h.maxMemory
  have hlimit : limits.maxMemoryBytes ≤ usizeMax := by
    unfold usizeMax
    omega
  have hnew : Builder.new limits = .ok
      { arena := .empty, records := .empty, localSlots := 1, classes := [], maxRules := limits.maxRules
        budget :=
          { live := 0 + limits.retainedBytes, peak := max 0 (0 + limits.retainedBytes), limit := limits.maxMemoryBytes }
        failed := none } := by
    have hvalid : ¬ (decide (limits.maxRules = 0) || decide (5000000 < limits.maxRules) ||
        decide (limits.maxMemoryBytes = 0) || decide (512 * 1024 * 1024 < limits.maxMemoryBytes)) = true := by
      simp only [Bool.or_eq_true, decide_eq_true_eq]
      omega
    rw [Builder.new, if_neg hvalid, reserve_ok (by simp only; omega) hlimit]
    rfl
  rw [readBuffers, hnew, lift, ok_bind, reserve_ok (by simp only; omega) hlimit, lift, ok_bind]
  obtain ⟨buffer, budget, hgrow, hbudget, hlive⟩ := @grow_ok Node nodeSize ix.nodes.items.length nodes (env.alloc .nodes)
    { live := 0 + limits.retainedBytes + scratchBytes
      peak := max (max 0 (0 + limits.retainedBytes)) (0 + limits.retainedBytes + scratchBytes)
      limit := limits.maxMemoryBytes } hnodes hcap (by simp only; omega) hlimit
  rw [hgrow, lift, ok_bind]
  obtain ⟨buffer', budget', hgrow', -, -⟩ := @grow_ok UInt8 1 ix.arena.items.length arena (env.alloc .arena) budget harena
    hcap' (by simp only at hlive hbudget; omega) (by rw [hbudget]; exact hlimit)
  simp only
  rw [hgrow', lift, ok_bind]
  exact ⟨_, _, _, rfl⟩

end Reading

end Parins.Policy
