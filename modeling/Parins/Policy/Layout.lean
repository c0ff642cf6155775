/-
The index as a tree. `Laid` says that a node of the index is the root of a radix
tree, laid out in the order the builder allocates: the children of a node stand
side by side, and the nodes and edges below follow in preorder, from given
positions on. The fields are as wide as the source's; `Laid.exact` says that
nothing is cut off while the index is small enough to be addressed.
-/
import Mathlib.Data.List.Infix
import Parins.Policy.Index
import Parins.Lib.Radix

namespace Parins.Policy

open Lib Lib.Radix List

/-- What a field of so many bits keeps of a number. -/
def wrap (bits v : Nat) : Nat := v % 2 ^ bits

/-- Some group has a rule here. -/
def Sources.live (s : Sources) : Bool := s != .none

theorem Sources.live_iff {s : Sources} : s.live = true ↔ ∃ g, s.get g ≠ noSlot := by
  constructor
  · intro h
    by_contra hnone
    have hnone : ∀ g, s.get g = noSlot := fun g => by_contra fun hg => hnone ⟨g, hg⟩
    have : s = .none := by
      cases s with
      | mk a b c d =>
        have ha := hnone .allowSuffix
        have hb := hnone .allowExact
        have hc := hnone .blockSuffix
        have hd := hnone .blockExact
        simp only [Sources.get] at ha hb hc hd
        rw [ha, hb, hc, hd]
        rfl
    simp [Sources.live, this] at h
  · rintro ⟨g, hg⟩
    simp only [Sources.live, bne_iff_ne]
    rintro rfl
    simp at hg

mutual
/-- Node `i` is this tree, the nodes below it allocated from `n` on and their
edges from `e` on; `w` is how fields store numbers. -/
def Laid (w : Nat → Nat → Nat) (nodes : List Node) (arena : Bytes) (i n e : Nat) : Trie UInt8 Sources → Prop
  | .node v cs =>
    (∃ nd, nodes[i]? = some nd ∧ nd.sources = v ∧ nd.firstChild = w 32 n ∧ nd.childCount = w 16 cs.edges.length) ∧
      n + cs.edges.length ≤ nodes.length ∧ LaidBelow w nodes arena n (n + cs.edges.length) e cs
/-- The nodes from `i` on are the children in this forest. -/
def LaidBelow (w : Nat → Nat → Nat) (nodes : List Node) (arena : Bytes) (i n e : Nat) :
    Forest UInt8 Sources → Prop
  | .nil => True
  | .cons edge t rest =>
    (∃ nd, nodes[i]? = some nd ∧ nd.edgeOffset = w 32 e ∧ nd.edgeLen = w 8 edge.length ∧
      edge.head? = some nd.firstByte) ∧ edge <+: arena.drop e ∧
      Laid w nodes arena i n (e + edge.length) t ∧
      LaidBelow w nodes arena (i + 1) (n + t.under) (e + edge.length + t.edgeSum) rest
end

variable {w : Nat → Nat → Nat} {nodes nodes' : List Node} {arena arena' : Bytes}

mutual
theorem Laid.transport (hlen : nodes.length ≤ nodes'.length) (ha : arena <+: arena') :
    ∀ {t : Trie UInt8 Sources} {i n e}, nodes'[i]? = nodes[i]? →
      (∀ j, n ≤ j → j < n + t.under → nodes'[j]? = nodes[j]?) →
      Laid w nodes arena i n e t → Laid w nodes' arena' i n e t
  | .node v cs, i, n, e, hi, hd, h => by
    simp only [Laid, Trie.under, Forest.size_eq] at h hd ⊢
    obtain ⟨⟨nd, hnd, hfields⟩, hn, hbelow⟩ := h
    refine ⟨⟨nd, hi ▸ hnd, hfields⟩, by omega, ?_⟩
    exact LaidBelow.transport hlen ha (fun j h1 h2 => hd j h1 (by omega)) (fun j h1 h2 => hd j (by omega) (by omega))
      hbelow
theorem LaidBelow.transport (hlen : nodes.length ≤ nodes'.length) (ha : arena <+: arena') :
    ∀ {cs : Forest UInt8 Sources} {i n e},
      (∀ j, i ≤ j → j < i + cs.edges.length → nodes'[j]? = nodes[j]?) →
      (∀ j, n ≤ j → j < n + cs.deep → nodes'[j]? = nodes[j]?) →
      LaidBelow w nodes arena i n e cs → LaidBelow w nodes' arena' i n e cs
  | .nil, _, _, _, _, _, _ => trivial
  | .cons edge t rest, i, n, e, hi, hd, h => by
    simp only [LaidBelow, Forest.edges, length_cons, Forest.deep] at h hi hd ⊢
    obtain ⟨⟨nd, hnd, hfields⟩, hedge, ht, hrest⟩ := h
    have hsame := hi i (Nat.le_refl i) (by omega)
    refine ⟨⟨nd, hsame ▸ hnd, hfields⟩, hedge.trans (ha.drop e), ?_, ?_⟩
    · exact Laid.transport hlen ha hsame (fun j h1 h2 => hd j h1 (by omega)) ht
    · exact LaidBelow.transport hlen ha (fun j h1 h2 => hi j (by omega) (by omega))
        (fun j h1 h2 => hd j (by omega) (by omega)) hrest
end

/-! ## Widths -/

theorem length_le_of_ascending : ∀ {l : List Nat} {lo hi : Nat}, l.Pairwise (· < ·) →
    (∀ x ∈ l, lo ≤ x ∧ x < hi) → l.length ≤ hi - lo
  | [], _, _, _, _ => by simp
  | x :: l, lo, hi, hp, hb => by
    obtain ⟨hx, hl⟩ := pairwise_cons.mp hp
    have := @length_le_of_ascending l (x + 1) hi hl fun y hy =>
      ⟨hx y hy, (hb y (mem_cons_of_mem _ hy)).2⟩
    have := hb x (by simp)
    simp only [length_cons]
    omega

theorem edges_le_256 {edges : List Bytes} (h : Ascending edges) : edges.length ≤ 256 := by
  have hlt : (edges.map fun e => (e.head?.getD 0).toNat).Pairwise (· < ·) := by
    refine pairwise_map.mpr (h.2.imp_of_mem fun {a b} ha hb hab => ?_)
    obtain ⟨x, a', rfl⟩ := exists_cons_of_ne_nil (h.1 a ha)
    obtain ⟨y, b', rfl⟩ := exists_cons_of_ne_nil (h.1 b hb)
    have := hab x y rfl rfl
    exact UInt8.lt_iff_toNat_lt.mp (Std.compare_eq_lt.mp this)
  have := @length_le_of_ascending _ 0 256 hlt (by
    intro x hx
    obtain ⟨e, -, rfl⟩ := mem_map.mp hx
    exact ⟨Nat.zero_le _, UInt8.toNat_lt _⟩)
  simpa using this

mutual
/-- **Nothing is cut off** in an index that can be addressed. -/
theorem Laid.exact (hn : nodes.length < 2 ^ 32) (ha : arena.length < 2 ^ 32) :
    ∀ {t : Trie UInt8 Sources} {pre i n e}, t.Ordered → (∀ k ∈ t.entries pre, k.1.length ≤ 254) →
      Laid wrap nodes arena i n e t → Laid (fun _ v => v) nodes arena i n e t
  | .node v cs, pre, i, n, e, ho, hk, h => by
    simp only [Laid, Trie.Ordered, Trie.entries, mem_cons, forall_eq_or_imp] at h ho hk ⊢
    obtain ⟨⟨nd, hnd, hv, hfirst, hcount⟩, hlen, hbelow⟩ := h
    have h256 := edges_le_256 ho.1
    refine ⟨⟨nd, hnd, hv, ?_, ?_⟩, hlen, LaidBelow.exact hn ha ho.1 ho.2 hk.2 hbelow⟩
    · rw [hfirst, wrap, Nat.mod_eq_of_lt (by omega)]
    · rw [hcount, wrap, Nat.mod_eq_of_lt (by omega)]
theorem LaidBelow.exact (hn : nodes.length < 2 ^ 32) (ha : arena.length < 2 ^ 32) :
    ∀ {cs : Forest UInt8 Sources} {pre i n e}, Ascending cs.edges → cs.Ordered →
      (∀ k ∈ cs.entries pre, k.1.length ≤ 254) →
      LaidBelow wrap nodes arena i n e cs → LaidBelow (fun _ v => v) nodes arena i n e cs
  | .nil, _, _, _, _, _, _, _, _ => trivial
  | .cons edge t rest, pre, i, n, e, hasc, ho, hk, h => by
    simp only [LaidBelow, Forest.Ordered, Forest.entries, mem_append] at h ho hk ⊢
    obtain ⟨⟨nd, hnd, hoff, helen, hbyte⟩, hedge, ht, hrest⟩ := h
    have hlen : edge.length ≤ 254 := by
      have hmem : (pre ++ edge, t.value) ∈ t.entries (pre ++ edge) := by
        cases t
        simp [Trie.entries, Trie.value]
      have := hk _ (.inl hmem)
      simp only [length_append] at this
      omega
    have hle : e + edge.length ≤ arena.length := by
      have hne := hasc.1 edge (by simp [Forest.edges])
      have := hedge.length_le
      have := length_pos_iff.mpr hne
      simp only [length_drop] at *
      omega
    refine ⟨⟨nd, hnd, ?_, ?_, hbyte⟩, hedge, Laid.exact hn ha ho.1 (fun k h => hk k (.inl h)) ht,
      LaidBelow.exact hn ha hasc.tail ho.2 (fun k h => hk k (.inr h)) hrest⟩
    · rw [hoff, wrap, Nat.mod_eq_of_lt (by omega)]
    · rw [helen, wrap, Nat.mod_eq_of_lt (by omega)]
end

end Parins.Policy
