/-
`walk` as a walk over the tree of an index. On an index that is laid out as a
tree every structural check passes, so the loop over frames is a fold over the
entries in preorder, each with the suffixes above it (`walk_eq`): what is left
of the validation at a node is `walkNode`.
-/
import Parins.Policy.Disk
import Parins.Policy.Descent
import Parins.Policy.Built

namespace Parins.Policy

open Lib Lib.Radix List

/-- What a frame knows of the nodes above its own. -/
structure Above where
  suffixes : Nat
  blockSuffix : Nat

def Above.top : Above := ⟨0, noSlot⟩

def Above.below (a : Above) (v : Sources) : Above := ⟨suffixesBelow a.suffixes v, blockSuffixBelow a.blockSuffix v⟩

@[simp] theorem ensure_true (text) : ensure true text = .ok () := rfl

theorem ensure_of {c text} (h : c = true) : ensure c text = .ok () := by rw [h, ensure_true]

theorem ok_bind {ε α β : Type} (a) (f : α → Except ε β) : ((Except.ok a : Except ε α) >>= f) = f a := rfl

theorem Sources.terminal_eq_live (s : Sources) : s.terminal = s.live := by
  rw [Bool.eq_iff_iff, Sources.live_iff]
  simp only [Sources.terminal, Group.all, any_cons, any_nil, Bool.or_false, Bool.or_eq_true, bne_iff_ne]
  constructor
  · rintro (h | h | h | h)
    exacts [⟨_, h⟩, ⟨_, h⟩, ⟨_, h⟩, ⟨_, h⟩]
  · rintro ⟨g, h⟩
    cases g
    exacts [.inl h, .inr (.inl h), .inr (.inr (.inl h)), .inr (.inr (.inr h))]

theorem ascending_of_pairwise : ∀ {l : List Node}, (l.Pairwise fun a b => compare a.firstByte b.firstByte = .lt) →
    ascending l = true
  | [], _ => rfl
  | [_], _ => rfl
  | a :: b :: rest, h => by
    obtain ⟨ha, h⟩ := pairwise_cons.mp h
    have hab := Std.compare_eq_lt.mp (ha b (by simp))
    simp [ascending, hab, ascending_of_pairwise h]

section Walk

variable {σ : Type} {ix : Index} {sourceCount : Nat} {check : Nat → Except DiskFault Unit}
  {visit : σ → Bytes → Sources → Except DiskFault σ}

/-- What `walk` does at a node once its place in the index is right. -/
def walkNode (sourceCount : Nat) (check : Nat → Except DiskFault Unit)
    (visit : σ → Bytes → Sources → Except DiskFault σ) (st : Nat × σ) (x : Bytes × Sources × Above) :
    Except DiskFault (Nat × σ) := do
  if st.1 % 4096 = 0 then check st.1
  if x.2.1.terminal then validateKey x.1
  Group.all.forM (checkSource sourceCount x.2.2.suffixes x.2.2.blockSuffix x.2.1)
  let acc ← visit st.2 x.1 x.2.1
  pure (st.1 + 1, acc)

variable {frames : List WalkFrame} {visited i e p n : Nat} {key edge : Bytes} {nd : Node} {a : Above} {acc : σ}

theorem walkEdge_laid (hi : i ≠ 0) (hoff : nd.edgeOffset = e) (hlen : nd.edgeLen = edge.length)
    (hbyte : edge.head? = some nd.firstByte) (hedge : edge <+: ix.arena.items.drop e)
    (hsmall : ix.arena.items.length ≤ usizeMax) :
    walkEdge ix ⟨frames, key, n, e, visited, acc⟩ ⟨i, p, 0, a.suffixes, a.blockSuffix, false⟩ nd =
      .ok ⟨frames, key.take p ++ edge ++ key.drop (p + edge.length), n, e + edge.length, visited, acc⟩ := by
  obtain ⟨edge', rfl⟩ := List.head?_eq_some_iff.mp hbyte
  have hend : e + (nd.firstByte :: edge').length ≤ ix.arena.items.length := by
    have := hedge.length_le
    simp only [length_drop, length_cons] at *
    omega
  have htake : (ix.arena.items.drop e).take (nd.firstByte :: edge').length = nd.firstByte :: edge' :=
    (prefix_iff_eq_take.mp hedge).symm
  unfold walkEdge
  rw [if_neg hi]
  simp only [hoff, hlen, htake]
  rw [ensure_of (by simp), ok_bind, ensure_of (by simp only [decide_eq_true_eq]; omega), ok_bind,
    ensure_of (by simpa using hend), ok_bind, item_of_get (x := nd.firstByte) rfl, ok_bind, ensure_of (by simp), ok_bind]
  rfl

variable {cs : Forest UInt8 Sources} {v : Sources}

section Laid
variable (h : Laid (fun _ v => v) ix.nodes.items ix.arena.items i n e (.node v cs)) (ho : Ascending cs.edges)
  (hnd : ix.nodes.items[i]? = some nd) (hlive : i ≠ 0 → v.live = true ∨ 2 ≤ cs.edges.length)
  (hsmall : ix.nodes.items.length ≤ usizeMax)
include h ho hnd hlive hsmall

theorem walkChildren_laid {e' : Nat} :
    walkChildren ix ⟨frames, key, n, e', visited, acc⟩ ⟨i, p, 0, a.suffixes, a.blockSuffix, false⟩ nd =
      .ok ⟨frames, key, n + cs.edges.length, e', visited, acc⟩ := by
  simp only [Laid] at h
  obtain ⟨⟨nd', hnd', hv, hfirst, hcount⟩, hfits, hbelow⟩ := h
  obtain rfl : nd' = nd := Option.some.inj (hnd'.symm.trans hnd)
  have hasc := ascending_of_pairwise (children_ascend ho hbelow.children)
  have h256 := edges_le_256 ho
  have hdead : (i == 0 || nd'.sources.terminal || decide (2 ≤ cs.edges.length)) = true := by
    simp only [Bool.or_eq_true, beq_iff_eq, decide_eq_true_eq, hv, Sources.terminal_eq_live]
    by_cases hi : i = 0
    · exact .inl (.inl hi)
    · exact (hlive hi).imp .inr id
  unfold walkChildren
  simp only [hfirst, hcount]
  rw [ensure_of (by simpa using h256), ok_bind, ensure_of (by simp only [decide_eq_true_eq]; omega), ok_bind,
    ensure_of (by simpa using hfits), ok_bind, ensure_of hasc, ok_bind, ensure_of hdead, ok_bind]
  rfl

theorem walkEnter_laid {e0 : Nat} {pre key1 : Bytes} (hp : p + nd.edgeLen = pre.length) (hpre : pre.length ≤ key.length)
    (hkey : key1.take pre.length = pre)
    (hedge : walkEdge ix ⟨frames, key, n, e0, visited + 1, acc⟩ ⟨i, p, 0, a.suffixes, a.blockSuffix, false⟩ nd =
      .ok ⟨frames, key1, n, e, visited + 1, acc⟩) :
    walkEnter ix sourceCount check visit ⟨frames, key, n, e0, visited, acc⟩
        ⟨i, p, 0, a.suffixes, a.blockSuffix, false⟩ nd =
      (do let out ← walkNode sourceCount check visit (visited, acc) (pre, v, a)
          pure (⟨frames, key1, n + cs.edges.length, e, out.1, out.2⟩, ⟨i, p, 0, a.suffixes, a.blockSuffix, true⟩)) := by
  obtain ⟨_, hnd', hv⟩ := h.root
  cases hnd.symm.trans hnd'
  unfold walkEnter walkNode
  rw [if_neg Bool.false_ne_true]
  simp only [hp, hv, ensure_of (decide_eq_true hpre), hedge, walkChildren_laid h ho hnd hlive hsmall, ok_bind, hkey]
  by_cases hcheck : visited % 4096 = 0 <;> by_cases hterm : v.terminal = true <;>
    simp only [hcheck, hterm, if_true, if_false, Bool.false_eq_true, bind_assoc, pure_bind]

end Laid

variable {s : WalkState σ} {fuel : Nat}

theorem walkFrames_nil (h : s.frames = []) : walkFrames ix sourceCount check visit fuel s = .ok s := by
  unfold walkFrames
  rw [h]

theorem walkFrames_cons {frame} (h : s.frames = frame :: frames) :
    walkFrames ix sourceCount check visit (fuel + 1) s =
      walkStep ix sourceCount check visit s frame frames >>= walkFrames ix sourceCount check visit fuel := by
  rw [walkFrames, h]

variable (ix sourceCount check visit)

/-- A fresh frame for the tree `t` at `pre`, whose edge leads to `key1` and to
the edges from `e` on, runs as the fold over the entries of `t`. -/
def TreeWalks (t : Trie UInt8 Sources) : Prop :=
  ∀ {pre key key1 : Bytes} {i n e e0 p : Nat} {nd : Node} {a : Above} {fs : List WalkFrame},
    Laid (fun _ v => v) ix.nodes.items ix.arena.items i n e t → t.Ordered → t.Compressed Sources.live →
    (∀ k ∈ t.entries pre, k.1.length ≤ 254) → ix.nodes.items[i]? = some nd → p + nd.edgeLen = pre.length →
    (i ≠ 0 → t.value.live = true ∨ 2 ≤ t.children.edges.length) → 1 ≤ n →
    (∀ frames visited (acc : σ), walkEdge ix ⟨frames, key, n, e0, visited, acc⟩
      ⟨i, p, 0, a.suffixes, a.blockSuffix, false⟩ nd = .ok ⟨frames, key1, n, e, visited, acc⟩) →
    key.length = 254 → key1.length = 254 → key1.take pre.length = pre → fs.length ≤ pre.length →
    ∃ key' : Bytes, key'.length = 254 ∧ key'.take pre.length = pre ∧ ∀ visited (acc : σ) fuel,
      walkFrames ix sourceCount check visit (1 + 2 * t.under + fuel)
          ⟨⟨i, p, 0, a.suffixes, a.blockSuffix, false⟩ :: fs, key, n, e0, visited, acc⟩ =
        (t.inherited Above.below a pre).foldlM (walkNode sourceCount check visit) (visited, acc) >>= fun out =>
          walkFrames ix sourceCount check visit fuel ⟨fs, key', n + t.under, e + t.edgeSum, out.1, out.2⟩

/-- An entered frame with the children `cs` left runs as the fold over their
entries. -/
def ForestWalks (cs : Forest UInt8 Sources) : Prop :=
  ∀ {pre key : Bytes} {i j n e p : Nat} {nd : Node} {a : Above} {fs : List WalkFrame},
    LaidBelow (fun _ v => v) ix.nodes.items ix.arena.items (nd.firstChild + j) n e cs → Ascending cs.edges →
    cs.Ordered → cs.Compressed Sources.live → (∀ k ∈ cs.entries pre, k.1.length ≤ 254) →
    ix.nodes.items[i]? = some nd → p + nd.edgeLen = pre.length → 1 ≤ nd.firstChild → 1 ≤ n →
    j + cs.edges.length = nd.childCount → key.length = 254 → key.take pre.length = pre → fs.length ≤ pre.length →
    ∃ key' : Bytes, key'.length = 254 ∧ key'.take pre.length = pre ∧ ∀ frames visited (acc : σ) fuel,
      (walkAdvance ⟨frames, key, n, e, visited, acc⟩ ⟨i, p, j, a.suffixes, a.blockSuffix, true⟩ nd fs >>=
          walkFrames ix sourceCount check visit (2 * cs.size + fuel)) =
        (cs.inherited Above.below (a.below nd.sources) pre).foldlM (walkNode sourceCount check visit) (visited, acc) >>=
          fun out => walkFrames ix sourceCount check visit fuel ⟨fs, key', n + cs.deep, e + cs.edgeSum, out.1, out.2⟩

variable {ix sourceCount check visit}

theorem treeWalks_node (hsmall : ix.nodes.items.length ≤ usizeMax)
    (hcs : ForestWalks ix sourceCount check visit cs) : TreeWalks ix sourceCount check visit (.node v cs) := by
  intro pre key key1 i n e e0 p nd a fs h ho hc hshort hnd hp hlive hn hedge hlen hlen1 hkey hfs
  simp only [Trie.Ordered, Trie.Compressed] at ho hc
  have hpre : pre.length ≤ 254 := hshort (pre, v) (by simp [Trie.entries])
  have hlaid := h
  simp only [Laid] at h
  obtain ⟨⟨nd', hnd', hv, hfirst, hcount⟩, hfits, hbelow⟩ := h
  obtain rfl : nd' = nd := Option.some.inj (hnd'.symm.trans hnd)
  obtain ⟨key', hlen', hkey', hrun⟩ := @hcs pre key1 i 0 (n + cs.edges.length) e p nd' a fs
    (by rw [hfirst]; exact hbelow) ho.1 ho.2 hc (fun k hk => hshort k (by simp [Trie.entries, hk])) hnd hp
    (by rw [hfirst]; exact hn) (by omega) (by rw [hcount, Nat.zero_add]) hlen1 hkey hfs
  refine ⟨key', hlen', hkey', fun visited acc fuel => ?_⟩
  have hfuel : 1 + 2 * (Trie.node v cs).under + fuel = (2 * cs.size + fuel) + 1 := by
    simp only [Trie.under]
    omega
  rw [hfuel, walkFrames_cons rfl, walkStep, item_of_get hnd, ok_bind,
    walkEnter_laid hlaid ho.1 hnd hlive hsmall hp (by omega) hkey (hedge _ _ _), Trie.inherited, foldlM_cons]
  simp only [bind_assoc, pure_bind]
  congr 1
  funext out
  have hdeep : n + (Trie.node v cs).under = n + cs.edges.length + cs.deep := by
    rw [Trie.under, Forest.size_eq, Nat.add_assoc]
  rw [hdeep, ← hv]
  exact hrun _ out.1 out.2 fuel

theorem forestWalks_nil : ForestWalks ix sourceCount check visit .nil := by
  intro pre key i j n e p nd a fs _ _ _ _ _ _ _ _ _ hj hlen hkey _
  refine ⟨key, hlen, hkey, fun frames visited acc fuel => ?_⟩
  simp only [Forest.edges, length_nil, Nat.add_zero] at hj
  simp [walkAdvance, hj, Forest.size, Forest.inherited, Forest.deep, Forest.edgeSum, ok_bind]

variable {t : Trie UInt8 Sources}

theorem forestWalks_cons {rest : Forest UInt8 Sources}
    (hsmall : ix.arena.items.length ≤ usizeMax) (ht : TreeWalks ix sourceCount check visit t)
    (hrest : ForestWalks ix sourceCount check visit rest) :
    ForestWalks ix sourceCount check visit (.cons edge t rest) := by
  intro pre key i j n e p nd a fs h ha ho hc hshort hnd hp hfirst hn hj hlen hkey hfs
  simp only [LaidBelow] at h
  simp only [Forest.Ordered, Forest.Compressed] at ho hc
  simp only [Forest.edges, length_cons] at hj
  obtain ⟨⟨child, hchild, hoff, helen, hbyte⟩, hedge, hlaid, hlaidRest⟩ := h
  have hshortT : ∀ k ∈ t.entries (pre ++ edge), k.1.length ≤ 254 :=
    fun k hk => hshort k (by simp [Forest.entries, hk])
  have hpath : (pre ++ edge).length ≤ 254 := by
    refine hshortT (pre ++ edge, t.value) ?_
    cases t
    simp [Trie.entries, Trie.value]
  have hne : edge ≠ [] := ha.1 edge (by simp [Forest.edges])
  have hpos : 0 < edge.length := length_pos_iff.mpr hne
  rw [length_append] at hpath
  have hkeyLen : (key.take pre.length ++ edge ++ key.drop (pre.length + edge.length)).length = 254 := by
    simp only [length_append, length_take, length_drop]
    omega
  have hkeyTake : (key.take pre.length ++ edge ++ key.drop (pre.length + edge.length)).take (pre ++ edge).length =
      pre ++ edge := by
    rw [hkey, take_left]
  obtain ⟨key1, hlen1, hkey1, hrunT⟩ := @ht (pre ++ edge) key
    (key.take pre.length ++ edge ++ key.drop (pre.length + edge.length)) (nd.firstChild + j) n (e + edge.length) e
    pre.length child (a.below nd.sources) (⟨i, p, j + 1, a.suffixes, a.blockSuffix, true⟩ :: fs) hlaid ho.1 hc.2.1
    hshortT hchild (by rw [helen, length_append]) (fun _ => hc.1) hn
    (fun frames visited acc => walkEdge_laid (by omega) hoff helen hbyte hedge hsmall) hlen hkeyLen hkeyTake
    (by simp only [length_cons, length_append]; omega)
  have hkey2 : key1.take pre.length = pre := by
    have := congrArg (List.take pre.length) hkey1
    rwa [take_take, take_left, Nat.min_eq_left (by simp)] at this
  obtain ⟨key2, hlen2, hkey2, hrunR⟩ := @hrest pre key1 i (j + 1) (n + t.under) (e + edge.length + t.edgeSum) p nd a fs
    (by rw [← Nat.add_assoc]; exact hlaidRest) ha.tail ho.2 hc.2.2 (fun k hk => hshort k (by simp [Forest.entries, hk]))
    hnd hp hfirst (by omega) (by omega) hlen1 hkey2 hfs
  refine ⟨key2, hlen2, hkey2, fun frames visited acc fuel => ?_⟩
  have hfuel : 2 * (Forest.cons edge t rest).size + fuel = 1 + 2 * t.under + (2 * rest.size + fuel + 1) := by
    simp only [Forest.size]
    omega
  have hadvance : walkAdvance ⟨frames, key, n, e, visited, acc⟩ ⟨i, p, j, a.suffixes, a.blockSuffix, true⟩ nd fs =
      .ok ⟨⟨nd.firstChild + j, pre.length, 0, (a.below nd.sources).suffixes, (a.below nd.sources).blockSuffix, false⟩ ::
        ⟨i, p, j + 1, a.suffixes, a.blockSuffix, true⟩ :: fs, key, n, e, visited, acc⟩ := by
    have hdepth : decide (fs.length + 1 < maxDepth) = true := by
      unfold maxDepth
      exact decide_eq_true (by omega)
    have hmore : ¬ j = nd.childCount := by omega
    rw [walkAdvance, if_neg hmore, ensure_of hdepth, ok_bind, ← hp]
    rfl
  rw [hadvance, ok_bind, hfuel, hrunT, Forest.inherited, foldlM_append, bind_assoc]
  congr 1
  funext out
  -- The frame of the parent is on top again.
  rw [walkFrames_cons rfl, walkStep, item_of_get hnd, ok_bind, walkEnter, if_pos rfl, ok_bind, hrunR]
  simp only [Forest.deep, Forest.edgeSum, ← Nat.add_assoc]

mutual
theorem treeWalks (hn : ix.nodes.items.length ≤ usizeMax) (ha : ix.arena.items.length ≤ usizeMax) :
    ∀ t : Trie UInt8 Sources, TreeWalks ix sourceCount check visit t
  | .node _ cs => treeWalks_node hn (forestWalks hn ha cs)
theorem forestWalks (hn : ix.nodes.items.length ≤ usizeMax) (ha : ix.arena.items.length ≤ usizeMax) :
    ∀ cs : Forest UInt8 Sources, ForestWalks ix sourceCount check visit cs
  | .nil => forestWalks_nil
  | .cons _ t rest => forestWalks_cons ha (treeWalks hn ha t) (forestWalks hn ha rest)
end

variable {out st : Nat × σ}

theorem walkNode_ok {x : Bytes × Sources × Above} : walkNode sourceCount check visit st x = .ok out ↔
      (st.1 % 4096 = 0 → check st.1 = .ok ()) ∧ (x.2.1.terminal = true → validateKey x.1 = .ok ()) ∧
        Group.all.forM (checkSource sourceCount x.2.2.suffixes x.2.2.blockSuffix x.2.1) = .ok () ∧
        ∃ acc, visit st.2 x.1 x.2.1 = .ok acc ∧ out = (st.1 + 1, acc) := by
  have hpure : ∀ acc : σ, (pure (st.1 + 1, acc) : Except DiskFault (Nat × σ)) = .ok out ↔ out = (st.1 + 1, acc) :=
    fun acc => ⟨fun h => (Except.ok.inj h).symm, fun h => by rw [h]; rfl⟩
  unfold walkNode
  by_cases hcheck : st.1 % 4096 = 0 <;> by_cases hterm : x.2.1.terminal = true <;>
    simp only [hcheck, hterm, if_true, if_false, Bool.false_eq_true, bind_eq_ok, exists_unit, true_imp_iff,
      false_imp_iff, true_and, hpure]

theorem walkNode_visited {l : List (Bytes × Sources × Above)}
    (h : l.foldlM (walkNode sourceCount check visit) st = .ok out) : out.1 = st.1 + l.length := by
  induction l generalizing st with
  | nil =>
    cases h
    rfl
  | cons x l ih =>
    rw [foldlM_cons] at h
    obtain ⟨st', h1, h⟩ := bind_eq_ok.mp h
    obtain ⟨-, -, -, acc, -, rfl⟩ := walkNode_ok.mp h1
    rw [ih h, length_cons]
    omega

/-- **A walk over an index is a fold over its tree**, in preorder. -/
theorem walk_eq {c} (h : Indexes c ix t) (hroot : t.value = .none)
    (hn : ix.nodes.items.length ≤ usizeMax) (ha : ix.arena.items.length ≤ usizeMax) (acc : σ) :
    ix.walk sourceCount check visit acc =
      (do let out ← (t.inherited Above.below Above.top []).foldlM (walkNode sourceCount check visit) (0, acc)
          pure out.2) := by
  obtain ⟨nd, hnd, hoff, hlen, hbyte⟩ := h.root
  have hsources : nd.sources = .none := by
    have hlaid := h.laid
    cases t with
    | node v cs =>
      simp only [Laid] at hlaid
      obtain ⟨⟨nd', hnd', hv, -⟩, -⟩ := hlaid
      rw [Option.some.inj (hnd.symm.trans hnd'), hv]
      exact hroot
  obtain ⟨key', -, -, hrun⟩ := @treeWalks σ ix sourceCount check visit hn ha t [] (List.replicate 254 0)
    (List.replicate 254 0) 0 1 0 0 0 nd Above.top [] h.laid h.ordered h.compressed h.short hnd (by simpa using hlen)
    (fun h => absurd rfl h) (Nat.le_refl 1) (fun _ _ _ => rfl) length_replicate length_replicate rfl
    (Nat.zero_le _)
  have hfuel : 2 * ix.nodes.items.length = 1 + 2 * t.under + 1 := by
    rw [h.nodes]
    omega
  rw [Index.walk, item_of_get hnd, ok_bind, ensure_of (by simp [hoff, hlen, hbyte, hsources]), ok_bind, hfuel]
  refine Eq.trans (congrArg (· >>= _) (hrun 0 acc 1)) ?_
  rw [bind_assoc]
  cases hfold : (t.inherited Above.below Above.top []).foldlM (walkNode sourceCount check visit) (0, acc) with
  | error e => rfl
  | ok out =>
    have hvisited := walkNode_visited hfold
    have hlength : (t.inherited Above.below Above.top []).length = 1 + t.under := by
      rw [← Trie.length_entries t [], ← Trie.inherited_entries t Above.top [], length_map]
    rw [hlength, Nat.zero_add, ← h.nodes] at hvisited
    rw [ok_bind, walkFrames_nil rfl, ok_bind, ensure_of (by simp [hvisited, h.nodes, h.bytes]), ok_bind, ok_bind]

end Walk

end Parins.Policy
