/-
Walks down the index as walks down its tree. One step of `descend` enters the
child the tree's search path enters (`descend_laid`), so `lookup` and
`blockMatch` are folds over the nodes on that path (`lookup_laid`,
`blockMatch_laid`).
-/
import Parins.Policy.Layout

namespace Parins.Policy

open Lib Lib.Radix List

/-- `lookup` over the nodes it meets, each with its depth. -/
def lookupFold (len : Nat) : List (Nat × Sources) → Option Match → Option Match
  | [], blocked => blocked
  | (p, v) :: rest, blocked =>
    match found v p .allowSuffix with
    | some allow => some allow
    | none =>
      if p = len then
        match found v p .allowExact with
        | some allow => some allow
        | none => (blocked.or (found v p .blockSuffix)).or (found v p .blockExact)
      else lookupFold len rest (blocked.or (found v p .blockSuffix))

/-- `blockMatch` over the nodes it meets. -/
def blockFold (localSlots len : Nat) : List (Nat × Sources) → Option Match → Option Match
  | [], best => best
  | (p, v) :: rest, best =>
    if (found v p .allowSuffix).isSome then none
    else
      let best := consider localSlots best (found v p .blockSuffix)
      if p = len then
        if (found v p .allowExact).isSome then none else consider localSlots best (found v p .blockExact)
      else blockFold localSlots len rest best

variable {nodes : List Node} {arena : Bytes}

theorem LaidBelow.get {q : Bytes} {pos} : ∀ {cs : Forest UInt8 Sources} {i n e j} {edge : Bytes},
    LaidBelow (fun _ v => v) nodes arena i n e cs → Ascending cs.edges → cs.Ordered → cs.edges[j]? = some edge →
    ∃ nd t n' e', nodes[i + j]? = some nd ∧ nd.edgeLen = edge.length ∧ edge.head? = some nd.firstByte ∧
      edge <+: arena.drop nd.edgeOffset ∧ Laid (fun _ v => v) nodes arena (i + j) n' e' t ∧ t.Ordered ∧
      (edge.head? = q.head? →
        cs.visits pos q = if edge <+: q then t.visits (pos + edge.length) (q.drop edge.length) else [])
  | .nil, i, n, e, j, edge, _, _, _, hj => by simp [Forest.edges] at hj
  | .cons edge0 t rest, i, n, e, j, edge, h, ha, ho, hj => by
    simp only [LaidBelow] at h
    obtain ⟨⟨nd, hnd, hoff, hlen, hbyte⟩, hedge, ht, hrest⟩ := h
    cases j with
    | zero =>
      simp only [Forest.edges, List.getElem?_cons_zero, Option.some.injEq] at hj
      subst hj
      refine ⟨nd, t, n, _, hnd, hlen, hbyte, hoff ▸ hedge, ht, ho.1, fun hhead => ?_⟩
      simp only [Forest.visits, if_pos hhead]
    | succ j =>
      simp only [Forest.edges, List.getElem?_cons_succ] at hj
      obtain ⟨nd', t', n', e', h1, h2, h3, h4, h5, h6, h7⟩ := LaidBelow.get hrest ha.tail ho.2 hj
      rw [show i + (j + 1) = i + 1 + j by omega]
      refine ⟨nd', t', n', e', h1, h2, h3, h4, h5, h6, fun hhead => ?_⟩
      have hne : edge0.head? ≠ q.head? := hhead ▸ ha.head_ne (mem_of_getElem? hj)
      simp only [Forest.visits, if_neg hne]
      exact h7 hhead

variable {w : Nat → Nat → Nat}

theorem LaidBelow.children : ∀ {cs : Forest UInt8 Sources} {i n e : Nat}, LaidBelow w nodes arena i n e cs →
    ((nodes.drop i).take cs.edges.length).map (·.firstByte) = cs.edges.map fun e => e.head?.getD 0
  | .nil, _, _, _, _ => by simp [Forest.edges]
  | .cons edge t rest, i, n, e, h => by
    simp only [LaidBelow] at h
    obtain ⟨⟨nd, hnd, -, -, hbyte⟩, -, -, hrest⟩ := h
    obtain ⟨hi, rfl⟩ := List.getElem?_eq_some_iff.mp hnd
    simp only [Forest.edges, length_cons, map_cons]
    rw [drop_eq_getElem_cons hi, take_succ_cons, map_cons, LaidBelow.children hrest, hbyte]
    rfl

variable {cs : Forest UInt8 Sources} {children : List Node}

theorem children_ascend (ha : Ascending cs.edges)
    (h : children.map (·.firstByte) = cs.edges.map fun e => e.head?.getD 0) :
    children.Pairwise fun a b => compare a.firstByte b.firstByte = .lt := by
  have hedges : (cs.edges.map fun e => e.head?.getD 0).Pairwise fun x y => compare x y = .lt := by
    refine pairwise_map.mpr (ha.2.imp_of_mem fun {a b} hma hmb hab => ?_)
    obtain ⟨x, a', rfl⟩ := exists_cons_of_ne_nil (ha.1 a hma)
    obtain ⟨y, b', rfl⟩ := exists_cons_of_ne_nil (ha.1 b hmb)
    exact hab x y rfl rfl
  rw [← h] at hedges
  exact pairwise_map.mp hedges

theorem probes_children {byte} (ha : Ascending cs.edges)
    (h : children.map (·.firstByte) = cs.edges.map fun e => e.head?.getD 0) :
    Probes (fun n : Node => compare n.firstByte byte) children := by
  refine (children_ascend ha h).imp fun {a b} hab => ⟨fun hx => ?_, fun hx => ?_⟩
  · exact Std.TransCmp.gt_trans (Std.OrientedCmp.gt_iff_lt.mpr hab) hx
  · exact Std.TransCmp.lt_trans hab hx

variable {query : Bytes} {ix : Index} {v : Sources} {i n e : Nat}

/-- **One step down the index is one step down its tree.** -/
theorem descend_laid {position nd} (h : Laid (fun _ v => v) ix.nodes.items ix.arena.items i n e (.node v cs))
    (ho : (Trie.node v cs).Ordered) (hnd : ix.nodes.items[i]? = some nd) (hpos : position < query.length) :
    (ix.descend query nd position = .ok none ∧ cs.visits position (query.drop position) = []) ∨
      ∃ j p n' e' t, ix.descend query nd position = .ok (some (j, p)) ∧
        Laid (fun _ v => v) ix.nodes.items ix.arena.items j n' e' t ∧ t.Ordered ∧ position < p ∧ p ≤ query.length ∧
        cs.visits position (query.drop position) = t.visits p (query.drop p) := by
  simp only [Laid] at h
  obtain ⟨⟨nd', hnd', -, hfirst, hcount⟩, hfits, hbelow⟩ := h
  obtain rfl : nd' = nd := by rw [hnd, Option.some.injEq] at hnd'; exact hnd'.symm
  obtain ⟨hasc, hord⟩ := ho
  have hbytes := hbelow.children
  have hhead : (query.drop position).head? = some query[position] := by
    rw [drop_eq_getElem_cons hpos]
    rfl
  simp only [Index.descend, hfirst, hcount, slice_of_le hfits,
    item_of_get (List.getElem?_eq_getElem hpos), bind, Except.bind]
  generalize hch : (ix.nodes.items.drop n).take cs.edges.length = children at hbytes
  have hlen : children.length = cs.edges.length := by
    have := congrArg List.length hbytes
    simpa using this
  have hget : ∀ j, j < cs.edges.length → children[j]? = ix.nodes.items[n + j]? := by
    intro j hj
    rw [← hch, List.getElem?_take_of_lt hj, List.getElem?_drop]
  cases hs : binarySearchBy (fun m : Node => compare m.firstByte query[position]) children with
  | none =>
    left
    refine ⟨rfl, Forest.visits_nil fun edge hedge heq => ?_⟩
    -- An edge with the wanted byte would have been found.
    obtain ⟨j, hj, rfl⟩ := getElem_of_mem hedge
    obtain ⟨m, -, -, -, hm, -, hbyte, -⟩ := @LaidBelow.get _ _ query position _ _ _ _ j _ hbelow hasc hord
      (List.getElem?_eq_getElem hj)
    rw [← hget j hj] at hm
    rw [heq, hhead, Option.some.injEq] at hbyte
    obtain ⟨j', _, hj', -⟩ := binarySearchBy_complete (@probes_children cs children query[position] hasc hbytes) hm
      (by rw [hbyte]; exact Std.ReflOrd.compare_self)
    rw [hs] at hj'
    cases hj'
  | some j =>
    obtain ⟨m, hm, hbyte⟩ := binarySearchBy_sound hs
    have hj : j < cs.edges.length := hlen ▸ (List.getElem?_eq_some_iff.mp hm).1
    obtain ⟨m', t, n', e', hm', helen, hedgeHead, hpath, ht, hto, hvisits⟩ :=
      @LaidBelow.get _ _ (query.drop position) position _ _ _ _ j _ hbelow hasc hord (List.getElem?_eq_getElem hj)
    obtain rfl : m' = m := by
      rw [← hget j hj, hm, Option.some.injEq] at hm'
      exact hm'.symm
    have heq : cs.edges[j].head? = (query.drop position).head? := by
      rw [hedgeHead, hhead, Std.LawfulEqOrd.eq_of_compare hbyte]
    have hne : cs.edges[j] ≠ [] := hasc.1 _ (getElem_mem hj)
    have hslice : slice (ε := Error) ix.arena.items m'.edgeOffset m'.edgeLen = .ok cs.edges[j] := by
      have hle := hpath.length_le
      have hpos := length_pos_iff.mpr hne
      rw [length_drop] at hle
      rw [helen, slice_of_le (by omega), ← prefix_iff_eq_take.mp hpath]
    simp only [item_of_get hm', hslice]
    rw [hvisits heq]
    by_cases hp : cs.edges[j] <+: query.drop position
    · right
      have hle := hp.length_le
      have hpos := length_pos_iff.mpr hne
      rw [length_drop] at hle
      refine ⟨n + j, position + cs.edges[j].length, n', e', t, ?_, ht, hto, by omega, by omega, ?_⟩
      · simp [List.isPrefixOf_iff_prefix.mpr hp, pure, Except.pure]
      · rw [if_pos hp, drop_drop]
    · left
      refine ⟨?_, if_neg hp⟩
      have : List.isPrefixOf cs.edges[j] (query.drop position) = false := by
        rw [Bool.eq_false_iff]
        exact fun ht => hp (List.isPrefixOf_iff_prefix.mp ht)
      simp [this, pure, Except.pure]

theorem Laid.root (h : Laid w nodes arena i n e (.node v cs)) : ∃ nd, nodes[i]? = some nd ∧ nd.sources = v := by
  simp only [Laid] at h
  obtain ⟨⟨nd, hnd, hv, -⟩, -⟩ := h
  exact ⟨nd, hnd, hv⟩

/-- **`lookup` is a fold over the search path.** -/
theorem lookup_laid : ∀ fuel {i n e position} {t : Trie UInt8 Sources}
    {blocked}, Laid (fun _ v => v) ix.nodes.items ix.arena.items i n e t → t.Ordered →
    position ≤ query.length → query.length - position < fuel → ix.lookupFrom query fuel i position blocked =
      .ok (lookupFold query.length (t.visits position (query.drop position)) blocked)
  | 0, _, _, _, _, _, _, _, _, _, hf => absurd hf (Nat.not_lt_zero _)
  | fuel + 1, i, n, e, position, .node v cs, blocked, h, ho, hpos, hf => by
    obtain ⟨nd, hnd, rfl⟩ := h.root
    simp only [Index.lookupFrom, item_of_get hnd, Trie.visits, lookupFold, bind, Except.bind]
    cases found nd.sources position .allowSuffix with
    | some allow => rfl
    | none =>
      by_cases hend : position = query.length
      · simp only [hend, if_true]
        cases found nd.sources query.length .allowExact <;> rfl
      · simp only [hend, if_false]
        have hmore : position < query.length := by omega
        rcases descend_laid h ho hnd hmore with ⟨hd, hv⟩ | ⟨j, p, n', e', t, hd, ht, hto, hlt, hle, hv⟩
        · simp only [hd, hv, lookupFold]
          rfl
        · simp only [hd, hv]
          exact lookup_laid fuel ht hto hle (by omega)

/-- **`blockMatch` is a fold over the search path.** -/
theorem blockMatch_laid {localSlots} : ∀ fuel {i n e position} {t : Trie UInt8 Sources} {best},
    Laid (fun _ v => v) ix.nodes.items ix.arena.items i n e t → t.Ordered →
    position ≤ query.length → query.length - position < fuel →
    ix.blockMatchFrom localSlots query fuel i position best =
      .ok (blockFold localSlots query.length (t.visits position (query.drop position)) best)
  | 0, _, _, _, _, _, _, _, _, _, hf => absurd hf (Nat.not_lt_zero _)
  | fuel + 1, i, n, e, position, .node v cs, best, h, ho, hpos, hf => by
    obtain ⟨nd, hnd, rfl⟩ := h.root
    simp only [Index.blockMatchFrom, item_of_get hnd, Trie.visits, blockFold, bind, Except.bind]
    by_cases hallow : (found nd.sources position .allowSuffix).isSome = true
    · simp only [hallow, if_true]
      rfl
    · simp only [hallow, if_false, Bool.false_eq_true]
      by_cases hend : position = query.length
      · simp only [hend, if_true]
        split <;> rfl
      · simp only [hend, if_false]
        have hmore : position < query.length := by omega
        rcases descend_laid h ho hnd hmore with ⟨hd, hv⟩ | ⟨j, p, n', e', t, hd, ht, hto, hlt, hle, hv⟩
        · simp only [hd, hv, blockFold]
          rfl
        · simp only [hd, hv]
          exact blockMatch_laid fuel ht hto hle (by omega)

end Parins.Policy
