/-
Compressed radix trees over an alphabet with an order, as mathematics: a tree
is a value with a forest of edges below it, and every edge is a word that leads
to a subtree. A tree stands for its entries (`entries`, in preorder): the value
of every node, at the word spelled by the edges above it.

A search walks down one path (`visits`). In an ordered tree, where the edges
below one node begin with different symbols, the path meets exactly the entries
whose word is a prefix of what is searched for (`Trie.visits_eq`). In a
compressed tree, where every node below the root is live or branches, the
number of nodes is at most twice the number of live entries
(`Forest.size_le_live`). What nodes pass down to those below them
(`inherited`) depends on the search path alone (`Trie.inherited_path`).
An ordered, compressed tree is determined by its live entries
(`Trie.eq_of_alive`).
-/
import Parins.Lib.Search

namespace Parins.Lib.Radix
open List

mutual
inductive Trie (α σ : Type) where
  | node (value : σ) (children : Forest α σ)
inductive Forest (α σ : Type) where
  | nil
  | cons (edge : List α) (child : Trie α σ) (rest : Forest α σ)
end

variable {α σ γ : Type}

def Trie.value : Trie α σ → σ
  | .node v _ => v

def Trie.children : Trie α σ → Forest α σ
  | .node _ cs => cs

def Forest.edges : Forest α σ → List (List α)
  | .nil => []
  | .cons e _ rest => e :: rest.edges

mutual
/-- Every node's value with the word that leads to it from `pre` on. -/
def Trie.entries (pre : List α) : Trie α σ → List (List α × σ)
  | .node v cs => (pre, v) :: cs.entries pre
def Forest.entries (pre : List α) : Forest α σ → List (List α × σ)
  | .nil => []
  | .cons e t rest => t.entries (pre ++ e) ++ rest.entries pre
end

mutual
/-- The values met while searching for `q`, each with its depth. -/
def Trie.visits [DecidableEq α] (pos : Nat) : Trie α σ → List α → List (Nat × σ)
  | .node v cs, q => (pos, v) :: cs.visits pos q
def Forest.visits [DecidableEq α] (pos : Nat) : Forest α σ → List α → List (Nat × σ)
  | .nil, _ => []
  | .cons e t rest, q =>
    if e.head? = q.head? then if e <+: q then t.visits (pos + e.length) (q.drop e.length) else []
    else rest.visits pos q
end

mutual
/-- The entries, each with what the nodes above it pass down. -/
def Trie.inherited (down : γ → σ → γ) (c : γ) (pre : List α) : Trie α σ → List (List α × σ × γ)
  | .node v cs => (pre, v, c) :: cs.inherited down (down c v) pre
def Forest.inherited (down : γ → σ → γ) (c : γ) (pre : List α) : Forest α σ → List (List α × σ × γ)
  | .nil => []
  | .cons e t rest => t.inherited down c (pre ++ e) ++ rest.inherited down c pre
end

mutual
def Trie.under : Trie α σ → Nat
  | .node _ cs => cs.size
def Forest.size : Forest α σ → Nat
  | .nil => 0
  | .cons _ t rest => 1 + t.under + rest.size
end

def Forest.deep : Forest α σ → Nat
  | .nil => 0
  | .cons _ t rest => t.under + rest.deep

theorem Forest.size_eq : ∀ cs : Forest α σ, cs.size = cs.edges.length + cs.deep
  | .nil => rfl
  | .cons e t rest => by
    simp only [Forest.size, Forest.edges, length_cons, Forest.deep, Forest.size_eq rest]
    omega

mutual
def Trie.edgeSum : Trie α σ → Nat
  | .node _ cs => cs.edgeSum
def Forest.edgeSum : Forest α σ → Nat
  | .nil => 0
  | .cons e t rest => e.length + t.edgeSum + rest.edgeSum
end

/-- Edges below one node are words whose first symbols ascend. -/
def Ascending [Ord α] (edges : List (List α)) : Prop :=
  (∀ e ∈ edges, e ≠ []) ∧
    edges.Pairwise fun a b => ∀ x y, a.head? = some x → b.head? = some y → compare x y = .lt

mutual
def Trie.Ordered [Ord α] : Trie α σ → Prop
  | .node _ cs => Ascending cs.edges ∧ cs.Ordered
def Forest.Ordered [Ord α] : Forest α σ → Prop
  | .nil => True
  | .cons _ t rest => t.Ordered ∧ rest.Ordered
end

mutual
/-- Every node below the top one is live or has at least two edges. -/
def Trie.Compressed (live : σ → Bool) : Trie α σ → Prop
  | .node _ cs => cs.Compressed live
def Forest.Compressed (live : σ → Bool) : Forest α σ → Prop
  | .nil => True
  | .cons _ t rest =>
    (live t.value = true ∨ 2 ≤ t.children.edges.length) ∧ t.Compressed live ∧ rest.Compressed live
end

/-! ## Entries -/

mutual
theorem Trie.prefix_of_mem {pre} : ∀ {t : Trie α σ} {k v}, (k, v) ∈ t.entries pre → pre <+: k
  | .node w cs, k, v, h => by
    simp only [Trie.entries, mem_cons, Prod.mk.injEq] at h
    rcases h with ⟨rfl, -⟩ | h
    · exact prefix_rfl
    · obtain ⟨e, -, he⟩ := Forest.edge_of_mem h
      exact (prefix_append pre e).trans he
theorem Forest.edge_of_mem {pre} : ∀ {cs : Forest α σ} {k v}, (k, v) ∈ cs.entries pre →
    ∃ e ∈ cs.edges, pre ++ e <+: k
  | .nil, k, v, h => by simp [Forest.entries] at h
  | .cons e t rest, k, v, h => by
    simp only [Forest.entries, mem_append] at h
    rcases h with h | h
    · exact ⟨e, by simp [Forest.edges], Trie.prefix_of_mem h⟩
    · obtain ⟨e', he', hk⟩ := Forest.edge_of_mem h
      exact ⟨e', by simp [Forest.edges, he'], hk⟩
end

theorem Ascending.tail [Ord α] {e} {edges : List (List α)} (h : Ascending (e :: edges)) : Ascending edges :=
  ⟨fun e' he' => h.1 e' (mem_cons_of_mem _ he'), (pairwise_cons.mp h.2).2⟩

theorem Ascending.head_ne [Ord α] [Std.ReflOrd α] {e e' : List α} {edges}
    (h : Ascending (e :: edges)) (he' : e' ∈ edges) : e.head? ≠ e'.head? := by
  intro heq
  obtain ⟨x, hx⟩ : ∃ x, e.head? = some x := by
    cases e with
    | nil => exact absurd rfl (h.1 [] (by simp))
    | cons x _ => exact ⟨x, rfl⟩
  have := (pairwise_cons.mp h.2).1 e' he' x x hx (heq ▸ hx)
  simp [Std.ReflOrd.compare_self] at this

theorem head?_eq_head? {e q : List α} (hne : e ≠ []) (h : e <+: q) : e.head? = q.head? := by
  obtain ⟨t, rfl⟩ := h
  cases e with
  | nil => exact absurd rfl hne
  | cons x e => rfl

theorem Forest.not_prefix_of_heads [Ord α] {cs : Forest α σ} {pre q k : List α} {v}
    (hasc : Ascending cs.edges) (hne : ∀ e ∈ cs.edges, e.head? ≠ q.head?) (h : (k, v) ∈ cs.entries pre) :
    ¬ k <+: pre ++ q := by
  intro hk
  obtain ⟨e, he, hek⟩ := Forest.edge_of_mem h
  have : e <+: q := by simpa using hek.trans hk
  exact hne e he (head?_eq_head? (hasc.1 e he) this)

mutual
/-- **The search path.** In an ordered tree it meets exactly the entries whose
word is a prefix of what is searched for, shortest first. -/
theorem Trie.visits_eq [DecidableEq α] [Ord α] [Std.ReflOrd α] : ∀ (t : Trie α σ) (pre q : List α), t.Ordered →
    t.visits pre.length q =
      ((t.entries pre).filter fun e => e.1 <+: pre ++ q).map fun e => (e.1.length, e.2)
  | .node v cs, pre, q, h => by
    simp only [Trie.Ordered] at h
    simp only [Trie.visits, Trie.entries, Forest.visits_eq cs pre q h.1 h.2]
    rw [filter_cons_of_pos (by simp), map_cons]
theorem Forest.visits_eq [DecidableEq α] [Ord α] [Std.ReflOrd α] : ∀ (cs : Forest α σ) (pre q : List α),
    Ascending cs.edges → cs.Ordered → cs.visits pre.length q =
      ((cs.entries pre).filter fun e => e.1 <+: pre ++ q).map fun e => (e.1.length, e.2)
  | .nil, pre, q, _, _ => rfl
  | .cons e t rest, pre, q, ha, h => by
    simp only [Forest.Ordered] at h
    simp only [Forest.visits, Forest.entries, filter_append, map_append]
    have hne : e ≠ [] := ha.1 e (by simp [Forest.edges])
    by_cases hhead : e.head? = q.head?
    · -- No later edge begins like `q`.
      have hrest : (rest.entries pre).filter (fun x => x.1 <+: pre ++ q) = [] := by
        rw [filter_eq_nil_iff]
        rintro ⟨k, v⟩ hk
        have := Forest.not_prefix_of_heads ha.tail (fun e' he' => hhead ▸ (ha.head_ne he').symm) hk
        simpa using this
      rw [if_pos hhead, hrest, map_nil, append_nil]
      by_cases hp : e <+: q
      · obtain ⟨q', rfl⟩ := hp
        rw [if_pos (prefix_append e q'), drop_left]
        have := Trie.visits_eq t (pre ++ e) q' h.1
        rwa [length_append, append_assoc] at this
      · rw [if_neg hp, filter_eq_nil_iff.mpr, map_nil]
        rintro ⟨k, v⟩ hk hkq
        simp only [decide_eq_true_eq] at hkq
        exact hp (by simpa using (Trie.prefix_of_mem hk).trans hkq)
    · have hfirst : (t.entries (pre ++ e)).filter (fun x => x.1 <+: pre ++ q) = [] := by
        rw [filter_eq_nil_iff]
        rintro ⟨k, v⟩ hk hkq
        simp only [decide_eq_true_eq] at hkq
        exact hhead (head?_eq_head? hne (by simpa using (Trie.prefix_of_mem hk).trans hkq))
      rw [if_neg hhead, hfirst, map_nil, nil_append]
      exact Forest.visits_eq rest pre q ha.tail h.2
end

/-! ## Inheritance -/

section Inherited

variable {down : γ → σ → γ}

mutual
theorem Trie.inherited_entries : ∀ (t : Trie α σ) (c pre),
    (t.inherited down c pre).map (fun x => (x.1, x.2.1)) = t.entries pre
  | .node v cs, c, pre => by
    simp only [Trie.inherited, map_cons, Trie.entries, Forest.inherited_entries cs]
theorem Forest.inherited_entries : ∀ (cs : Forest α σ) (c pre),
    (cs.inherited down c pre).map (fun x => (x.1, x.2.1)) = cs.entries pre
  | .nil, _, _ => rfl
  | .cons e t rest, c, pre => by
    simp only [Forest.inherited, map_append, Forest.entries, Trie.inherited_entries t,
      Forest.inherited_entries rest]
end

theorem Trie.mem_of_inherited {t : Trie α σ} {c x pre k v}
    (h : (k, v, x) ∈ t.inherited down c pre) : (k, v) ∈ t.entries pre := by
  rw [← Trie.inherited_entries t c pre]
  exact mem_map.mpr ⟨_, h, rfl⟩

theorem Forest.mem_of_inherited {cs : Forest α σ} {c x pre k v}
    (h : (k, v, x) ∈ cs.inherited down c pre) : (k, v) ∈ cs.entries pre := by
  rw [← Forest.inherited_entries cs c pre]
  exact mem_map.mpr ⟨_, h, rfl⟩

theorem Forest.visits_nil [DecidableEq α] : ∀ {cs : Forest α σ} {pos} {q : List α},
    (∀ e ∈ cs.edges, e.head? ≠ q.head?) → cs.visits pos q = []
  | .nil, _, _, _ => rfl
  | .cons e t rest, pos, q, h => by
    simp only [Forest.visits, if_neg (h e (by simp [Forest.edges]))]
    exact Forest.visits_nil fun e' he' => h e' (by simp [Forest.edges, he'])

mutual
/-- **What an entry inherits comes from the search path to it**, the nodes above
it in order. -/
theorem Trie.inherited_path [DecidableEq α] [Ord α] [Std.ReflOrd α] : ∀ (t : Trie α σ) {c x} {pre k : List α} {v},
    t.Ordered → (k, v, x) ∈ t.inherited down c pre →
    ∃ path, t.visits pre.length (k.drop pre.length) = path ++ [(k.length, v)] ∧ x = (path.map (·.2)).foldl down c
  | .node w cs, c, x, pre, k, v, ho, h => by
    simp only [Trie.Ordered] at ho
    simp only [Trie.inherited, mem_cons, Prod.mk.injEq] at h
    rcases h with ⟨rfl, rfl, rfl⟩ | h
    · refine ⟨[], ?_, rfl⟩
      rw [drop_length, Trie.visits, Forest.visits_nil, nil_append]
      intro e he
      obtain ⟨y, e', rfl⟩ := exists_cons_of_ne_nil (ho.1.1 e he)
      simp
    · obtain ⟨path, hpath, hx⟩ := Forest.inherited_path cs ho.1 ho.2 h
      exact ⟨(pre.length, w) :: path, by rw [Trie.visits, hpath, cons_append], hx⟩
theorem Forest.inherited_path [DecidableEq α] [Ord α] [Std.ReflOrd α] : ∀ (cs : Forest α σ) {c x}
    {pre k : List α} {v : σ}, Ascending cs.edges → cs.Ordered → (k, v, x) ∈ cs.inherited down c pre →
    ∃ path, cs.visits pre.length (k.drop pre.length) = path ++ [(k.length, v)] ∧ x = (path.map (·.2)).foldl down c
  | .nil, c, x, pre, k, v, _, _, h => by simp [Forest.inherited] at h
  | .cons e t rest, c, x, pre, k, v, ha, ho, h => by
    simp only [Forest.Ordered] at ho
    simp only [Forest.inherited, mem_append] at h
    rcases h with h | h
    · obtain ⟨path, hpath, hx⟩ := Trie.inherited_path t ho.1 h
      obtain ⟨q, rfl⟩ := Trie.prefix_of_mem (Trie.mem_of_inherited h)
      refine ⟨path, ?_, hx⟩
      rw [drop_left, length_append] at hpath
      have hq : (pre ++ e ++ q).drop pre.length = e ++ q := by rw [append_assoc, drop_left]
      have hhead : e.head? = (e ++ q).head? :=
        head?_eq_head? (ha.1 e (by simp [Forest.edges])) (prefix_append e q)
      rw [hq, Forest.visits, if_pos hhead, if_pos (prefix_append e q), drop_left, hpath]
    · obtain ⟨path, hpath, hx⟩ := Forest.inherited_path rest ha.tail ho.2 h
      obtain ⟨e', he', q, rfl⟩ := Forest.edge_of_mem (Forest.mem_of_inherited h)
      have hq : (pre ++ e' ++ q).drop pre.length = e' ++ q := by rw [append_assoc, drop_left]
      have hhead : e.head? ≠ (e' ++ q).head? := by
        rw [← head?_eq_head? (ha.tail.1 e' he') (prefix_append e' q)]
        exact ha.head_ne he'
      refine ⟨path, ?_, hx⟩
      rw [hq] at hpath ⊢
      rw [Forest.visits, if_neg hhead, hpath]
end

end Inherited

/-! ## Order -/

theorem compare_append_left [Ord α] [Std.ReflOrd α] (pre a b : List α) :
    compare (pre ++ a) (pre ++ b) = compare a b := by
  induction pre with
  | nil => rfl
  | cons x pre ih => simp [List.compare_cons_cons, Std.ReflOrd.compare_self, ih]

theorem compare_of_heads [Ord α] {a b : List α} {x y} (ha : a.head? = some x) (hb : b.head? = some y)
    (h : compare x y = .lt) : compare a b = .lt := by
  obtain ⟨a', rfl⟩ := List.head?_eq_some_iff.mp ha
  obtain ⟨b', rfl⟩ := List.head?_eq_some_iff.mp hb
  simp [List.compare_cons_cons, h]

mutual
theorem Trie.entries_sorted [Ord α] [Std.ReflOrd α] : ∀ (t : Trie α σ) (pre : List α), t.Ordered →
    (t.entries pre).Pairwise fun a b => compare a.1 b.1 = .lt
  | .node v cs, pre, h => by
    simp only [Trie.Ordered] at h
    refine pairwise_cons.mpr ⟨?_, Forest.entries_sorted cs pre h.1 h.2⟩
    intro b hb
    obtain ⟨e, he, k, hk⟩ := Forest.edge_of_mem hb
    obtain ⟨x, e', rfl⟩ := exists_cons_of_ne_nil (h.1.1 e he)
    rw [← hk, append_assoc]
    have := compare_append_left pre [] ((x :: e') ++ k)
    rw [append_nil] at this
    exact this
theorem Forest.entries_sorted [Ord α] [Std.ReflOrd α] : ∀ (cs : Forest α σ) (pre : List α),
    Ascending cs.edges → cs.Ordered → (cs.entries pre).Pairwise fun a b => compare a.1 b.1 = .lt
  | .nil, _, _, _ => List.Pairwise.nil
  | .cons e t rest, pre, ha, h => by
    simp only [Forest.Ordered] at h
    refine pairwise_append.mpr
      ⟨Trie.entries_sorted t (pre ++ e) h.1, Forest.entries_sorted rest pre ha.tail h.2, ?_⟩
    intro a hat b hb
    obtain ⟨ka, hka⟩ := Trie.prefix_of_mem hat
    obtain ⟨e', he', kb, hkb⟩ := Forest.edge_of_mem hb
    obtain ⟨x, e1, rfl⟩ := exists_cons_of_ne_nil (ha.1 e (by simp [Forest.edges]))
    obtain ⟨y, e2, rfl⟩ := exists_cons_of_ne_nil (ha.tail.1 e' he')
    have hxy := (pairwise_cons.mp ha.2).1 _ he' x y rfl rfl
    rw [← hka, ← hkb, append_assoc, append_assoc, compare_append_left]
    exact compare_of_heads rfl rfl hxy
end

/-! ## Counting -/

mutual
theorem Trie.length_entries : ∀ (t : Trie α σ) (pre), (t.entries pre).length = 1 + t.under
  | .node v cs, pre => by
    simp only [Trie.entries, length_cons, Trie.under, Forest.length_entries cs pre]; omega
theorem Forest.length_entries : ∀ (cs : Forest α σ) (pre), (cs.entries pre).length = cs.size
  | .nil, _ => rfl
  | .cons e t rest, pre => by
    simp only [Forest.entries, length_append, Forest.size, Trie.length_entries t,
      Forest.length_entries rest]
end

mutual
theorem Trie.edgeSum_le {m} : ∀ (t : Trie α σ) (pre), (∀ e ∈ t.entries pre, e.1.length ≤ m) →
    t.edgeSum ≤ m * t.under
  | .node v cs, pre, h => Forest.edgeSum_le cs pre fun e he => h e (by simp [Trie.entries, he])
theorem Forest.edgeSum_le {m} : ∀ (cs : Forest α σ) (pre), (∀ e ∈ cs.entries pre, e.1.length ≤ m) →
    cs.edgeSum ≤ m * cs.size
  | .nil, _, _ => Nat.zero_le _
  | .cons e t rest, pre, h => by
    simp only [Forest.entries, mem_append] at h
    have ht := Trie.edgeSum_le t (pre ++ e) fun x hx => h x (.inl hx)
    have hrest := Forest.edgeSum_le rest pre fun x hx => h x (.inr hx)
    have htop : (pre ++ e, t.value) ∈ t.entries (pre ++ e) := by
      cases t
      simp [Trie.entries, Trie.value]
    have he := h _ (.inl htop)
    simp only [length_append] at he
    simp only [Forest.edgeSum, Forest.size, Nat.mul_add, Nat.mul_one]
    omega
end

/-- The entries `live` accepts. -/
def liveCount (live : σ → Bool) (es : List (List α × σ)) : Nat := es.countP fun e => live e.2

mutual
theorem Trie.size_le_live {live} : ∀ (t : Trie α σ) (pre),
    (live t.value = true ∨ 2 ≤ t.children.edges.length) → t.Compressed live →
    2 + t.under ≤ 2 * liveCount live (t.entries pre)
  | .node v cs, pre, hv, h => by
    have := Forest.size_le_live cs pre h
    simp only [Trie.value, Trie.children] at hv
    simp only [Trie.under, Trie.entries, liveCount, countP_cons] at this ⊢
    rcases hv with hv | hv
    · simp only [hv, if_true]; omega
    · omega
/-- **Nodes are at most twice the live entries** in a compressed forest, less
one for each edge of the forest itself. -/
theorem Forest.size_le_live {live} : ∀ (cs : Forest α σ) (pre), cs.Compressed live →
    cs.size + cs.edges.length ≤ 2 * liveCount live (cs.entries pre)
  | .nil, _, _ => by simp [Forest.size, Forest.edges]
  | .cons e t rest, pre, h => by
    have h1 := Trie.size_le_live t (pre ++ e) h.1 h.2.1
    have h2 := Forest.size_le_live rest pre h.2.2
    simp only [Forest.size, Forest.edges, length_cons, Forest.entries, liveCount, countP_append]
      at h1 h2 ⊢
    omega
end

/-! ## What determines a tree -/

theorem append_inj_of {l r l' r' : List σ} {p : σ → Prop} (h : l ++ r = l' ++ r') (hl : ∀ x ∈ l, p x)
    (hr : ∀ x ∈ r, ¬p x) (hl' : ∀ x ∈ l', p x) (hr' : ∀ x ∈ r', ¬p x) : l = l' ∧ r = r' := by
  rcases append_eq_append_iff.mp h with ⟨a, rfl, rfl⟩ | ⟨a, rfl, rfl⟩
  · cases a with
    | nil => simp
    | cons x a => exact absurd (hl' x (by simp)) (hr x (by simp))
  · cases a with
    | nil => simp
    | cons x a => exact absurd (hl x (by simp)) (hr' x (by simp))

section Unique

variable {live : σ → Bool} {t t' : Trie α σ} {pre : List α}

def alive (live : σ → Bool) (es : List (List α × σ)) : List (List α × σ) := es.filter fun e => live e.2

theorem alive_append (es es' : List (List α × σ)) : alive live (es ++ es') = alive live es ++ alive live es' :=
  filter_append ..

theorem Trie.alive_ne_nil (pre) (hv : live t.value = true ∨ 2 ≤ t.children.edges.length)
    (hc : t.Compressed live) : alive live (t.entries pre) ≠ [] := by
  have := Trie.size_le_live t pre hv hc
  rw [liveCount, countP_eq_length_filter] at this
  exact ne_nil_of_length_pos (by rw [alive]; omega)

theorem Trie.prefix_of_alive {x : List α × σ} (h : x ∈ alive live (t.entries pre)) : pre <+: x.1 :=
  Trie.prefix_of_mem (mem_of_mem_filter h)

variable [Ord α]

/-- The live entries of a subtree have no longer word in common than the one that leads to it. -/
theorem Trie.common_word [Std.ReflOrd α] {s} (ho : t.Ordered)
    (hv : live t.value = true ∨ 2 ≤ t.children.edges.length) (hc : t.Compressed live)
    (h : ∀ x ∈ alive live (t.entries pre), pre ++ s <+: x.1) : s = [] := by
  obtain ⟨v, cs⟩ := t
  rcases hv with hv | hv
  · have hin : (pre, v) ∈ alive live (Trie.entries pre (.node v cs)) := mem_filter.mpr ⟨mem_cons_self, hv⟩
    have : (pre ++ s).length ≤ pre.length := (h _ hin).length_le
    rw [length_append] at this
    exact eq_nil_of_length_eq_zero (by omega)
  · match cs, hv, hc, ho with
    | .cons e1 t1 (.cons e2 t2 rest), _, hc, ho =>
      simp only [Trie.Compressed, Forest.Compressed, Trie.Ordered, Forest.edges] at hc ho
      simp only [alive, Trie.entries, Forest.entries, filter_cons, filter_append] at h
      -- Both edges begin like the common word.
      have hhead : ∀ {e : List α} {t : Trie α σ}, e ≠ [] → s ≠ [] →
          (live t.value = true ∨ 2 ≤ t.children.edges.length) → t.Compressed live →
          (∀ x ∈ alive live (t.entries (pre ++ e)), pre ++ s <+: x.1) → e.head? = s.head? := by
        intro e t he hs hv hc h
        obtain ⟨x, hx⟩ := exists_mem_of_ne_nil _ (Trie.alive_ne_nil (pre ++ e) hv hc)
        obtain ⟨q, hq⟩ := h x hx
        have hp := Trie.prefix_of_alive hx
        rw [← hq, append_assoc, prefix_append_right_inj] at hp
        exact (head?_eq_head? he hp).trans (head?_eq_head? hs (prefix_append s q)).symm
      by_contra hs
      have h1 := hhead (ho.1.1 e1 (by simp)) hs hc.1 hc.2.1 fun x hx => h x (by split <;> simp_all [alive])
      have h2 := hhead (ho.1.1 e2 (by simp)) hs hc.2.2.1 hc.2.2.2.1 fun x hx => h x (by split <;> simp_all [alive])
      exact ho.1.head_ne (by simp) (h1.trans h2.symm)

theorem Trie.edge_eq [Std.ReflOrd α] {e e'} (ho : t.Ordered) (hv : live t.value = true ∨ 2 ≤ t.children.edges.length)
    (hc : t.Compressed live) (h : alive live (t.entries (pre ++ e)) = alive live (t'.entries (pre ++ e')))
    (he : e <+: e') : e = e' := by
  obtain ⟨s, rfl⟩ := he
  have : s = [] := Trie.common_word ho hv hc fun x hx => by
    rw [append_assoc]
    exact Trie.prefix_of_alive (h ▸ hx)
  simp [this]

theorem Forest.alive_cons [Std.ReflOrd α] {e} {b : α} {rest : Forest α σ} (ha : Ascending ((b :: e) :: rest.edges)) :
    (∀ x ∈ alive live (t.entries (pre ++ b :: e)), pre ++ [b] <+: x.1) ∧
      ∀ x ∈ alive live (rest.entries pre), ¬pre ++ [b] <+: x.1 := by
  refine ⟨fun x hx => ?_, fun x hx hb => ?_⟩
  · refine List.IsPrefix.trans ?_ (Trie.prefix_of_alive hx)
    simp
  · obtain ⟨e', he', q, hq⟩ := Forest.edge_of_mem (mem_of_mem_filter hx)
    obtain ⟨c, e', rfl⟩ := exists_cons_of_ne_nil (ha.tail.1 e' he')
    rw [← hq, append_assoc, prefix_append_right_inj] at hb
    exact ha.head_ne he' (congrArg some (cons_prefix_cons.mp hb).1)

theorem Forest.not_mem_alive {cs : Forest α σ} {v} (ha : Ascending cs.edges) :
    (pre, v) ∉ alive live (cs.entries pre) := by
  intro hmem
  obtain ⟨e, he, hk⟩ := Forest.edge_of_mem (mem_of_mem_filter hmem)
  have := hk.length_le
  rw [length_append] at this
  exact ha.1 e he (eq_nil_of_length_eq_zero (by omega))

mutual
/-- **An ordered, compressed tree is determined by its live entries**, if all other values are alike. -/
theorem Trie.eq_of_alive [Std.ReflOrd α] (hdead : ∀ v v', live v = false → live v' = false → v = v') :
    ∀ {t t' : Trie α σ} {pre}, t.Ordered → t'.Ordered → t.Compressed live → t'.Compressed live →
      alive live (t.entries pre) = alive live (t'.entries pre) → t = t'
  | .node v cs, .node v' cs', pre, ho, ho', hc, hc', h => by
    simp only [Trie.Ordered, Trie.Compressed] at ho ho' hc hc'
    simp only [Trie.entries, alive, filter_cons] at h
    cases hv : live v <;> cases hv' : live v' <;> simp only [hv, hv', if_true, Bool.false_eq_true, if_false] at h
    · rw [hdead v v' hv hv', Forest.eq_of_alive hdead ho.1 ho'.1 ho.2 ho'.2 hc hc' h]
    · exact absurd (h ▸ mem_cons_self) (Forest.not_mem_alive ho.1)
    · exact absurd (h ▸ mem_cons_self) (Forest.not_mem_alive ho'.1)
    · obtain ⟨heq, h⟩ := List.cons.inj h
      rw [(Prod.mk.inj heq).2, Forest.eq_of_alive hdead ho.1 ho'.1 ho.2 ho'.2 hc hc' h]
theorem Forest.eq_of_alive [Std.ReflOrd α] (hdead : ∀ v v', live v = false → live v' = false → v = v') :
    ∀ {cs cs' : Forest α σ} {pre : List α}, Ascending cs.edges → Ascending cs'.edges → cs.Ordered → cs'.Ordered →
      cs.Compressed live → cs'.Compressed live → alive live (cs.entries pre) = alive live (cs'.entries pre) → cs = cs'
  | .nil, .nil, _, _, _, _, _, _, _, _ => rfl
  | .nil, .cons e t rest, pre, _, _, _, _, _, hc, h => by
    rw [Forest.entries, Forest.entries, alive_append] at h
    exact absurd (append_eq_nil_iff.mp h.symm).1 (Trie.alive_ne_nil _ hc.1 hc.2.1)
  | .cons e t rest, .nil, pre, _, _, _, _, hc, _, h => by
    rw [Forest.entries, Forest.entries, alive_append] at h
    exact absurd (append_eq_nil_iff.mp h).1 (Trie.alive_ne_nil _ hc.1 hc.2.1)
  | .cons e t rest, .cons e' t' rest', pre, ha, ha', ho, ho', hc, hc', h => by
    simp only [Forest.edges] at ha ha'
    simp only [Forest.Ordered, Forest.Compressed] at ho ho' hc hc'
    obtain ⟨b, e, rfl⟩ := exists_cons_of_ne_nil (ha.1 e (by simp))
    obtain ⟨b', e', rfl⟩ := exists_cons_of_ne_nil (ha'.1 e' (by simp))
    simp only [Forest.entries, alive_append] at h
    -- The first live entry lies beyond the first edge of both.
    obtain ⟨x, xs, hx⟩ := exists_cons_of_ne_nil (Trie.alive_ne_nil (pre ++ b :: e) hc.1 hc.2.1)
    obtain ⟨x', xs', hx'⟩ := exists_cons_of_ne_nil (Trie.alive_ne_nil (pre ++ b' :: e') hc'.1 hc'.2.1)
    have hfirst : x = x' := by
      rw [hx, hx'] at h
      exact (List.cons.inj h).1
    have hp : pre ++ b :: e <+: x.1 := Trie.prefix_of_alive (hx ▸ mem_cons_self)
    have hp' : pre ++ b' :: e' <+: x.1 := hfirst ▸ Trie.prefix_of_alive (hx' ▸ mem_cons_self)
    have hcmp := prefix_or_prefix_of_prefix hp hp'
    rw [prefix_append_right_inj, prefix_append_right_inj] at hcmp
    obtain rfl : b = b' := by
      rcases hcmp with hcmp | hcmp
      · exact (cons_prefix_cons.mp hcmp).1
      · exact (cons_prefix_cons.mp hcmp).1.symm
    obtain ⟨hin, hout⟩ := Forest.alive_cons ha
    obtain ⟨hin', hout'⟩ := Forest.alive_cons ha'
    obtain ⟨ht, hrest⟩ := append_inj_of h hin hout hin' hout'
    obtain rfl : e = e' := by
      rcases hcmp with hcmp | hcmp
      · exact (List.cons.inj (Trie.edge_eq ho.1 hc.1 hc.2.1 ht hcmp)).2
      · exact (List.cons.inj (Trie.edge_eq ho'.1 hc'.1 hc'.2.1 ht.symm hcmp)).2.symm
    rw [Trie.eq_of_alive hdead ho.1 ho'.1 hc.2.1 hc'.2.1 ht,
      Forest.eq_of_alive hdead ha.tail ha'.tail ho.2 ho'.2 hc.2.2 hc'.2.2 hrest]
end

end Unique

end Parins.Lib.Radix
