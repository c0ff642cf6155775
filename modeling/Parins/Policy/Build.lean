/-
What the build loop leaves behind: a radix tree over the keys of the records.

`Radix` says what tree belongs to a slice of records, without nodes or arenas:
the value of every node is the slots of the rules with exactly its path, and
every rule has a node. `treeGoal` says that the loop, started on a fresh frame,
ends without a panic in a bounded number of turns, with the tree of the frame's
slice laid out at its node (`TreePost`) and nothing else changed. The induction
is on the bytes a path can still grow by; a frame's children are then taken one
run of records at a time (`forestGoal`).
-/
import Parins.Policy.BuildSteps

namespace Parins.Policy

open Lib Lib.Radix List

/-! ## The tree of a slice -/

/-- `t` is the radix tree of these records, from `pre` on. -/
structure Radix (arena pre : Bytes) (rs : List Record) (t : Trie UInt8 Sources) : Prop where
  values : ∀ {k v}, (k, v) ∈ t.entries pre → ∀ g, v.get g = slotAt arena rs k g
  covers : ∀ r ∈ rs, ∃ v, (key arena r.entry, v) ∈ t.entries pre
  short : ∀ k ∈ t.entries pre, k.1.length ≤ 254
  ordered : t.Ordered
  compressed : t.Compressed Sources.live

/-- `cs` holds the radix trees of these records, all beyond `pre`. -/
structure RadixBelow (arena pre : Bytes) (rs : List Record) (cs : Forest UInt8 Sources) : Prop where
  values : ∀ {k v}, (k, v) ∈ cs.entries pre → ∀ g, v.get g = slotAt arena rs k g
  covers : ∀ r ∈ rs, ∃ v, (key arena r.entry, v) ∈ cs.entries pre
  short : ∀ k ∈ cs.entries pre, k.1.length ≤ 254
  heads : ∀ e ∈ cs.edges, ∃ r ∈ rs, e.head? = some (byteOf arena pre.length r)
  ascending : Ascending cs.edges
  ordered : cs.Ordered
  compressed : cs.Compressed Sources.live

variable {arena pre : Bytes} {rs : List Record} {env : Env}

theorem RadixBelow.nil : RadixBelow arena pre [] .nil :=
  ⟨by simp [Forest.entries], by simp, by simp [Forest.entries], by simp [Forest.edges],
    ⟨by simp [Forest.edges], List.Pairwise.nil⟩, trivial, trivial⟩

theorem Slice.bytes (h : Slice arena pre rs) (hdeep : ∀ r ∈ rs, pre.length < (key arena r.entry).length) :
    rs.Pairwise fun a b => (compare (byteOf arena pre.length a) (byteOf arena pre.length b)).isLE = true := by
  refine h.keys.imp_of_mem fun {a b} ha hb hab => ?_
  obtain ⟨ta, hta⟩ := h.path a ha
  obtain ⟨tb, htb⟩ := h.path b hb
  have hla := hdeep a ha
  have hlb := hdeep b hb
  simp only [byteOf]
  rw [← hta] at hab hla ⊢
  rw [← htb] at hab hlb ⊢
  rw [compare_append_left] at hab
  simp only [length_append] at hla hlb
  obtain ⟨x, ta', rfl⟩ := exists_cons_of_ne_nil (length_pos_iff.mp (by omega : 0 < ta.length))
  obtain ⟨y, tb', rfl⟩ := exists_cons_of_ne_nil (length_pos_iff.mp (by omega : 0 < tb.length))
  rw [List.compare_cons_cons] at hab
  simpa using Ordering.isLE_left_of_isLE_then hab

variable {r : Record}

theorem Slice.rest_bytes (h : Slice arena pre (r :: rs))
    (hdeep : ∀ r' ∈ r :: rs, pre.length < (key arena r'.entry).length) {r' : Record}
    (hr' : r' ∈ restOf arena pre.length r rs) :
    compare (byteOf arena pre.length r) (byteOf arena pre.length r') = .lt := by
  obtain ⟨hfirst, hbytes⟩ := pairwise_cons.mp (h.bytes hdeep)
  have hsub : (restOf arena pre.length r rs).Sublist rs := dropWhile_sublist _
  cases hd : restOf arena pre.length r rs with
  | nil => rw [hd] at hr'; cases hr'
  | cons x xs =>
    have hx : x ∈ rs := hsub.subset (by rw [hd]; simp)
    have hne : byteOf arena pre.length r ≠ byteOf arena pre.length x := by
      intro heq
      have := List.head?_dropWhile_not (byteOf arena pre.length · == byteOf arena pre.length r) rs
      rw [← restOf, hd] at this
      simp [heq] at this
    have hlt : compare (byteOf arena pre.length r) (byteOf arena pre.length x) = .lt := by
      have hle := hfirst x hx
      cases hc : compare (byteOf arena pre.length r) (byteOf arena pre.length x) with
      | lt => rfl
      | eq => exact absurd (Std.LawfulEqOrd.eq_of_compare hc) hne
      | gt => rw [hc] at hle; cases hle
    have hxs := hbytes.sublist hsub
    rw [hd] at hr' hxs
    rcases mem_cons.mp hr' with rfl | hr'
    · exact hlt
    · exact Std.TransCmp.lt_of_lt_of_isLE hlt ((pairwise_cons.mp hxs).1 r' hr')

theorem Slice.run (h : Slice arena pre (r :: rs))
    (hdeep : ∀ r' ∈ r :: rs, pre.length < (key arena r'.entry).length) :
    Run arena pre r (runOf arena pre.length r rs) := by
  have hsub : (r :: runOf arena pre.length r rs).Sublist (r :: rs) := (takeWhile_sublist _).cons_cons r
  refine ⟨h.sublist hsub, fun r' hr' => hdeep r' (hsub.subset hr'), fun r' hr' => ?_⟩
  simpa using mem_takeWhile_imp hr'

theorem run_rest (depth r rs) : r :: rs = (r :: runOf arena depth r rs) ++ restOf arena depth r rs := by
  simp [runOf, restOf, takeWhile_append_dropWhile]

theorem byte_of_path {e k : Bytes} {x} (he : e.head? = some x) (hk : pre ++ e <+: k) :
    k[pre.length]?.getD 0 = x := by
  obtain ⟨e', rfl⟩ := List.head?_eq_some_iff.mp he
  obtain ⟨t, rfl⟩ := hk
  simp

variable {t : Trie UInt8 Sources}

theorem Run.live {run} (h : Run arena pre r run)
    (ht : Radix arena (pre ++ edgeOf arena pre.length r run) (r :: run) t) :
    t.value.live = true ∨ 2 ≤ t.children.edges.length := by
  obtain ⟨v, cs⟩ := t
  simp only [Trie.value, Trie.children]
  generalize hp : pre ++ edgeOf arena pre.length r run = path at ht
  rcases h.branches with heq | ⟨r', hr', hne, hlen, hlen'⟩
  · left
    rw [hp] at heq
    have hv := ht.values (k := path) (v := v) (by simp [Trie.entries]) r.group
    have hslot : slotAt arena (r :: run) path r.group = r.entry.sourceSlot := by
      simp [slotAt, heq]
    rw [Sources.live_iff]
    refine ⟨r.group, ?_⟩
    rw [hv, hslot]
    exact Nat.ne_of_lt (h.slice.slot r (by simp))
  · right
    rw [hp] at hne hlen hlen'
    -- Two keys that differ after the path leave it by different edges.
    have hedge : ∀ x ∈ r :: run, path.length < (key arena x.entry).length →
        ∃ e ∈ cs.edges, e.head? = (key arena x.entry)[path.length]? := by
      intro x hx hxl
      obtain ⟨w, hw⟩ := ht.covers x hx
      simp only [Trie.entries, mem_cons, Prod.mk.injEq] at hw
      rcases hw with ⟨heq, -⟩ | hw
      · rw [heq] at hxl
        exact absurd hxl (Nat.lt_irrefl _)
      · obtain ⟨e, he, hpe⟩ := Forest.edge_of_mem hw
        obtain ⟨y, e', rfl⟩ := exists_cons_of_ne_nil (ht.ordered.1.1 e he)
        obtain ⟨tail, htail⟩ := hpe
        refine ⟨_, he, ?_⟩
        rw [← htail]
        simp
    obtain ⟨e1, he1, hh1⟩ := hedge r (by simp) hlen
    obtain ⟨e2, he2, hh2⟩ := hedge r' (by simp [hr']) hlen'
    have hdiff : e1 ≠ e2 := by
      rintro rfl
      exact hne (hh1.symm.trans hh2)
    match hcs : cs.edges, he1, he2 with
    | [e], he1, he2 =>
      simp only [mem_singleton] at he1 he2
      exact absurd (he1.trans he2.symm) hdiff
    | _ :: _ :: _, _, _ => simp

variable {cs : Forest UInt8 Sources}

theorem RadixBelow.cons
    (h : Slice arena pre (r :: rs)) (hdeep : ∀ r' ∈ r :: rs, pre.length < (key arena r'.entry).length)
    (ht : Radix arena (pre ++ edgeOf arena pre.length r (runOf arena pre.length r rs))
      (r :: runOf arena pre.length r rs) t)
    (hcs : RadixBelow arena pre (restOf arena pre.length r rs) cs) : RadixBelow arena pre (r :: rs)
      (.cons (edgeOf arena pre.length r (runOf arena pre.length r rs)) t cs) := by
  have hrun := h.run hdeep
  obtain ⟨e', hedge, -⟩ := hrun.edge_cons
  have hhead : (edgeOf arena pre.length r (runOf arena pre.length r rs)).head? = some (byteOf arena pre.length r) := by
    rw [hedge]
    rfl
  have hlt : ∀ {r'}, r' ∈ restOf arena pre.length r rs → byteOf arena pre.length r ≠ byteOf arena pre.length r' := by
    intro r' hr' heq
    have := h.rest_bytes hdeep hr'
    rw [heq, Std.ReflOrd.compare_self] at this
    cases this
  have hsplit := @run_rest arena pre.length r rs
  refine ⟨?_, ?_, ?_, ?_, ?_, ⟨ht.ordered, hcs.ordered⟩, ⟨hrun.live ht, ht.compressed, hcs.compressed⟩⟩
  · intro k v hk g
    simp only [Forest.entries, mem_append] at hk
    rw [hsplit]
    rcases hk with hk | hk
    · rw [ht.values hk g, slotAt_append_left]
      intro r' hr' heq
      have := byte_of_path hhead (Trie.prefix_of_mem hk)
      rw [← heq] at this
      exact hlt hr' this.symm
    · rw [hcs.values hk g, slotAt_append_right]
      intro r' hr' heq
      obtain ⟨e, he, hpe⟩ := Forest.edge_of_mem hk
      obtain ⟨x, hx, hxe⟩ := hcs.heads e he
      have h1 := byte_of_path hxe hpe
      have h2 := byte_of_path hhead (hrun.path hr')
      rw [← heq, h2] at h1
      exact hlt hx h1
  · intro r' hr'
    rw [hsplit] at hr'
    simp only [Forest.entries, mem_append]
    rcases mem_append.mp hr' with hr' | hr'
    · obtain ⟨v, hv⟩ := ht.covers r' hr'
      exact ⟨v, .inl hv⟩
    · obtain ⟨v, hv⟩ := hcs.covers r' hr'
      exact ⟨v, .inr hv⟩
  · intro k hk
    simp only [Forest.entries, mem_append] at hk
    rcases hk with hk | hk
    · exact ht.short k hk
    · exact hcs.short k hk
  · intro e he
    simp only [Forest.edges, mem_cons] at he
    rcases he with rfl | he
    · exact ⟨r, by simp, hhead⟩
    · obtain ⟨x, hx, hxe⟩ := hcs.heads e he
      exact ⟨x, hsplit ▸ mem_append_right _ hx, hxe⟩
  · refine ⟨?_, pairwise_cons.mpr ⟨?_, hcs.ascending.2⟩⟩
    · intro e he
      simp only [Forest.edges, mem_cons] at he
      rcases he with rfl | he
      · rw [hedge]
        exact cons_ne_nil _ _
      · exact hcs.ascending.1 e he
    · intro e he x y hx hy
      obtain ⟨r', hr', hhead'⟩ := hcs.heads e he
      rw [hhead, Option.some.injEq] at hx
      rw [hhead', Option.some.injEq] at hy
      rw [← hx, ← hy]
      exact h.rest_bytes hdeep hr'

theorem Radix.node (h : Slice arena pre rs) (hpre : pre.length ≤ 254)
    (hcs : RadixBelow arena pre (rs.dropWhile (·.entry.len == pre.length)) cs) :
    Radix arena pre rs (.node (terminals pre.length rs .none).2 cs) := by
  have hsplit := takeWhile_append_dropWhile (p := (·.entry.len == pre.length)) (l := rs)
  obtain ⟨hterm, hdeep⟩ := h.split
  refine ⟨?_, ?_, ?_, ⟨hcs.ascending, hcs.ordered⟩, hcs.compressed⟩
  · intro k v hk g
    simp only [Trie.entries, mem_cons, Prod.mk.injEq] at hk
    rcases hk with ⟨rfl, rfl⟩ | hk
    · exact h.terminals_get g
    · rw [hcs.values hk g]
      conv_rhs => rw [← hsplit]
      refine (slotAt_append_right fun r hr heq => ?_).symm
      -- A node below the path is not at the path.
      obtain ⟨e, he, hpe⟩ := Forest.edge_of_mem hk
      have := hpe.length_le
      have hne := length_pos_iff.mpr (hcs.ascending.1 e he)
      rw [← heq, hterm r hr, length_append] at this
      omega
  · intro r hr
    simp only [Trie.entries, mem_cons, Prod.mk.injEq]
    rw [← hsplit] at hr
    rcases mem_append.mp hr with hr | hr
    · exact ⟨_, .inl ⟨hterm r hr, rfl⟩⟩
    · obtain ⟨v, hv⟩ := hcs.covers r hr
      exact ⟨v, .inr hv⟩
  · intro k hk
    simp only [Trie.entries, mem_cons] at hk
    rcases hk with rfl | hk
    · exact hpre
    · exact hcs.short k hk

/-! ## Turns of the loop -/

/-- The bytes that the keys of these records have beyond `depth`. -/
def weight (arena : Bytes) (depth : Nat) (rs : List Record) : Nat :=
  (rs.map fun r => (key arena r.entry).length - depth).sum

theorem weight_append (depth as bs) :
    weight arena depth (as ++ bs) = weight arena depth as + weight arena depth bs := by
  simp [weight]

theorem weight_deeper {depth depth'} (hlt : depth < depth') : ∀ {rs : List Record},
    (∀ r ∈ rs, depth' ≤ (key arena r.entry).length) → weight arena depth' rs + rs.length ≤ weight arena depth rs
  | [], _ => by simp [weight]
  | r :: rs, h => by
    have hr := h r (by simp)
    have ih := weight_deeper hlt fun r' hr' => h r' (mem_cons_of_mem r hr')
    simp only [weight, map_cons, sum_cons, length_cons] at ih ⊢
    omega

theorem runFrames_add (n m s) :
    runFrames env arena (n + m) s = runFrames env arena n s >>= runFrames env arena m := by
  induction n generalizing s with
  | zero =>
    rw [Nat.zero_add]
    rfl
  | succ n ih =>
    rw [Nat.succ_add]
    cases hf : s.frames with
    | nil =>
      have : ∀ k, runFrames env arena k s = .ok s := by
        intro k
        cases k with
        | zero => rfl
        | succ k => simp [runFrames, hf]
      simp [this, bind, Except.bind]
    | cons f fs =>
      simp only [runFrames, hf]
      cases buildStep env arena s f fs with
      | error e => rfl
      | ok s' => exact ih s'

theorem turn_safe {s : BuildState} {f fs n P} (hf : s.frames = f :: fs)
    (h : Safe (enter env arena { s with processed := s.processed + 1 } f >>= fun out =>
      advance env arena out.1 out.2 fs >>= runFrames env arena n) P) :
    Safe (runFrames env arena (n + 1) s) P := by
  obtain ⟨nodes, bytes, budget, frames, processed⟩ := s
  simp only at hf
  subst hf
  simp only [runFrames, buildStep]
  split
  · rw [bind_assoc]
    refine (env.run_safe _).bind fun _ _ => ?_
    rw [bind_assoc]
    exact h
  · rw [bind_assoc]
    exact h

/-- What a fresh frame for node `i`, over the slice `rs`, leaves behind. -/
structure TreePost (arena pre : Bytes) (rs : List Record) (i : Nat) (nd : Node) (s : BuildState) (fs : List Frame)
    (t : Trie UInt8 Sources) (s' : BuildState) : Prop where
  frames : s'.frames = fs
  radix : Radix arena pre rs t
  length : s'.nodes.items.length = s.nodes.items.length + t.under
  others : ∀ j, j < s.nodes.items.length → j ≠ i → s'.nodes.items[j]? = s.nodes.items[j]?
  node : ∃ nd', s'.nodes.items[i]? = some nd' ∧ nd'.edgeOffset = nd.edgeOffset ∧ nd'.edgeLen = nd.edgeLen ∧
    nd'.firstByte = nd.firstByte
  bytes : s.arena.items <+: s'.arena.items
  bytesLen : s'.arena.items.length = s.arena.items.length + t.edgeSum
  laid : Laid wrap s'.nodes.items s'.arena.items i s.nodes.items.length s.arena.items.length t

/-- What an entered frame leaves behind, whose remaining children are the nodes
from `c` on. -/
structure ForestPost (arena pre : Bytes) (rs : List Record) (c : Nat) (s : BuildState) (fs : List Frame)
    (cs : Forest UInt8 Sources) (s' : BuildState) : Prop where
  frames : s'.frames = fs
  radix : RadixBelow arena pre rs cs
  count : cs.edges.length = runCount none (rs.map (byteOf arena pre.length))
  length : s'.nodes.items.length = s.nodes.items.length + cs.deep
  others : ∀ j, j < s.nodes.items.length → ¬ (c ≤ j ∧ j < c + cs.edges.length) →
    s'.nodes.items[j]? = s.nodes.items[j]?
  bytes : s.arena.items <+: s'.arena.items
  bytesLen : s'.arena.items.length = s.arena.items.length + cs.edgeSum
  laid : LaidBelow wrap s'.nodes.items s'.arena.items c s.nodes.items.length s.arena.items.length cs

def TreeGoal (env : Env) (arena pre : Bytes) : Prop :=
  ∀ (rs : List Record) (i start : Nat) (nd : Node) (fs : List Frame) (s : BuildState),
    Slice arena pre rs → pre.length ≤ 254 → s.nodes.items[i]? = some nd → nd.sources = .none →
    s.frames = Frame.new i start rs pre.length :: fs → fs.length ≤ pre.length →
    ∃ n, n ≤ 2 * weight arena pre.length rs + 1 ∧
      Safe (runFrames env arena n s) fun s' => ∃ t, TreePost arena pre rs i nd s fs t s'

def ForestGoal (env : Env) (arena pre : Bytes) : Prop :=
  ∀ (rs : List Record) (i start c : Nat) (fs : List Frame) (s : BuildState),
    Slice arena pre rs → (∀ r ∈ rs, pre.length < (key arena r.entry).length) →
    c + runCount none (rs.map (byteOf arena pre.length)) ≤ s.nodes.items.length → fs.length ≤ pre.length →
    ∃ n, n ≤ 2 * weight arena pre.length rs ∧
      Safe (advance env arena s ⟨i, start, rs, pre.length, some c⟩ fs >>= runFrames env arena n)
        fun s' => ∃ cs, ForestPost arena pre rs c s fs cs s'

theorem treeGoal_of (h : ForestGoal env arena pre) : TreeGoal env arena pre := by
  intro rs i start nd fs s hs hpre hi hnone hf hdepth
  have hlt : i < s.nodes.items.length := (List.getElem?_eq_some_iff.mp hi).1
  have hsub : (rs.dropWhile (·.entry.len == pre.length)).Sublist rs := dropWhile_sublist _
  have hweight : weight arena pre.length (rs.dropWhile (·.entry.len == pre.length)) ≤ weight arena pre.length rs := by
    conv_rhs => rw [← takeWhile_append_dropWhile (p := (·.entry.len == pre.length)) (l := rs), weight_append]
    omega
  have henter := @enter_safe arena pre rs env { s with processed := s.processed + 1 } i start nd hs hi
  rcases henter.cases with ⟨e, he⟩ | ⟨⟨s1, f1⟩, he, hnodes, harena, -, start', hf1⟩
  · refine ⟨0 + 1, by omega, turn_safe hf ?_⟩
    rw [he]
    trivial
  simp only at hnodes harena hf1
  generalize hrest : rs.dropWhile (·.entry.len == pre.length) = rest at *
  generalize hcount : runCount none (rest.map (byteOf arena pre.length)) = count at *
  have hlen1 : s1.nodes.items.length = s.nodes.items.length + count := by
    rw [hnodes]
    simp
  obtain ⟨n, hn, hsafe⟩ := h rest i start' s.nodes.items.length fs s1 (hs.sublist hsub)
    (fun r hr => hs.split.2 r (hrest ▸ hr)) (by rw [hcount, hlen1]) hdepth
  refine ⟨n + 1, by omega, turn_safe hf ?_⟩
  rw [he, hf1]
  refine Safe.mono (x := _) hsafe ?_
  rintro s' ⟨cs, hp⟩
  have hcnt : cs.edges.length = count := hp.count.trans hcount
  have hsame : ∀ j, j < s.nodes.items.length → s'.nodes.items[j]? =
      (s.nodes.items.set i (entered s.nodes.items nd pre.length rs count))[j]? := by
    intro j hj
    rw [hp.others j (by omega) (by omega), hnodes, List.getElem?_append_left (by simpa using hj)]
  have hnode : s'.nodes.items[i]? = some (entered s.nodes.items nd pre.length rs count) := by
    rw [hsame i hlt]
    simp [hlt]
  refine ⟨.node (terminals pre.length rs .none).2 cs, hp.frames, Radix.node hs hpre (hrest ▸ hp.radix), ?_, ?_, ?_,
    harena ▸ hp.bytes, harena ▸ hp.bytesLen, ?_⟩
  · rw [hp.length, hlen1, Trie.under, Forest.size_eq, hcnt, Nat.add_assoc]
  · intro j hj hne
    rw [hsame j hj, List.getElem?_set_ne (Ne.symm hne)]
  · exact ⟨_, hnode, rfl, rfl, rfl⟩
  · refine ⟨⟨_, hnode, ?_, rfl, by rw [hcnt]; rfl⟩, ?_, ?_⟩
    · simp only [entered, hnone]
    · have := hp.length
      omega
    · have := hp.laid
      rwa [hlen1, ← hcnt, harena] at this

/-- An entered frame: one run of records at a time, each a subtree of its own. -/
theorem forestGoal_of (ih : ∀ pre', pre.length < pre'.length → TreeGoal env arena pre') :
    ForestGoal env arena pre := by
  intro rs
  induction hk : rs.length using Nat.strong_induction_on generalizing rs with
  | _ k ihk =>
  intro i start c fs s hs hdeep hc hdepth
  cases rs with
  | nil =>
    refine ⟨0, Nat.zero_le _, ?_⟩
    exact ⟨.nil, rfl, .nil, rfl, rfl, fun _ _ _ => rfl, prefix_rfl, rfl, trivial⟩
  | cons r rs =>
    have hrun := hs.run hdeep
    have hcount := @runCount_run arena pre.length r rs
    obtain ⟨nd, hnd⟩ : ∃ nd, s.nodes.items[c]? = some nd := ⟨_, List.getElem?_eq_getElem (by omega)⟩
    generalize hedge : edgeOf arena pre.length r (runOf arena pre.length r rs) = edge
    obtain ⟨e', he', -⟩ := hrun.edge_cons
    rw [hedge] at he'
    have hsplit := @run_rest arena pre.length r rs
    rcases (@advance_safe arena pre rs env s i start c nd r fs hrun hdeep hnd hdepth).cases with
      ⟨e, he⟩ | ⟨s1, he, hnodes1, hbytes1, start', hframes1⟩
    · refine ⟨0, Nat.zero_le _, ?_⟩
      rw [he]
      trivial
    rw [hedge] at hnodes1 hbytes1 hframes1
    have hlen1 : s1.nodes.items.length = s.nodes.items.length := by rw [hnodes1]; simp
    -- The subtree of the run.
    obtain ⟨n1, hn1, hsafe1⟩ := ih (pre ++ edge) (by rw [he']; simp) (r :: runOf arena pre.length r rs) c start
      (opened s.arena.items.length edge (byteOf arena pre.length r)) _ s1 (hedge ▸ hrun.sub)
      (Nat.le_trans (hedge ▸ hrun.path (by simp)).length_le (hs.max r (by simp)))
      (by rw [hnodes1]; simp [(List.getElem?_eq_some_iff.mp hnd).1]) rfl hframes1 (by rw [he']; simp; omega)
    have hweight : weight arena (pre ++ edge).length (r :: runOf arena pre.length r rs) + 1 +
        weight arena pre.length (restOf arena pre.length r rs) ≤ weight arena pre.length (r :: rs) := by
      have := @weight_deeper arena pre.length (pre ++ edge).length (by rw [he']; simp)
        (r :: runOf arena pre.length r rs) (fun r' hr' => (hedge ▸ hrun.path hr').length_le)
      conv_rhs => rw [hsplit, weight_append]
      simp only [length_cons] at this
      omega
    rcases hsafe1.cases with ⟨e, hrun1⟩ | ⟨s2, hrun1, t, ht⟩
    · refine ⟨n1, by omega, ?_⟩
      rw [he]
      show Safe (runFrames env arena n1 s1) _
      rw [hrun1]
      trivial
    -- The runs that follow it.
    have hrest : (restOf arena pre.length r rs).length < k := by
      have := (dropWhile_sublist (l := rs) (byteOf arena pre.length · == byteOf arena pre.length r)).length_le
      simp only [length_cons, restOf] at hk ⊢
      omega
    have hsub : (restOf arena pre.length r rs).Sublist (r :: rs) := hsplit ▸ sublist_append_right _ _
    obtain ⟨n2, hn2, hsafe2⟩ := ihk _ hrest _ rfl i start' (c + 1) fs { s2 with processed := s2.processed + 1 }
      (hs.sublist hsub) (fun r' hr' => hdeep r' (hsub.subset hr')) (by simp only [ht.length]; omega) hdepth
    refine ⟨n1 + (n2 + 1), by omega, ?_⟩
    rw [he]
    show Safe (runFrames env arena (n1 + (n2 + 1)) s1) _
    rw [runFrames_add, hrun1]
    refine turn_safe ht.frames (hsafe2.mono ?_)
    rintro s' ⟨cs, hcs⟩
    have hlen2 : s2.nodes.items.length = s.nodes.items.length + t.under := by rw [ht.length, hlen1]
    have hbytes2 : s2.arena.items.length = s.arena.items.length + edge.length + t.edgeSum := by
      rw [ht.bytesLen, hbytes1, length_append]
    have hcfits : c + 1 + cs.edges.length ≤ s.nodes.items.length := by
      rw [hcs.count]
      omega
    have hnodec : s'.nodes.items[c]? = s2.nodes.items[c]? := hcs.others c (by simp only; omega) (by omega)
    obtain ⟨nd', hnd', hoff, helen, hfirst⟩ := ht.node
    refine ⟨.cons edge t cs, hcs.frames, hedge ▸ RadixBelow.cons hs hdeep (hedge.symm ▸ ht.radix) hcs.radix, ?_, ?_, ?_,
      ?_, ?_, ⟨nd', hnodec.trans hnd', hoff, helen, ?_⟩, ?_, ?_, ?_⟩
    · rw [hcount, ← hcs.count]
      rfl
    · rw [hcs.length, Forest.deep]
      simp only
      omega
    · intro j hj hnot
      simp only [Forest.edges, length_cons] at hnot
      rw [hcs.others j (by simp only; omega) (by omega)]
      simp only
      rw [ht.others j (by omega) (by omega), hnodes1, List.getElem?_set_ne (by omega)]
    · exact ((hbytes1 ▸ prefix_append _ _).trans ht.bytes).trans hcs.bytes
    · rw [hcs.bytesLen, Forest.edgeSum]
      simp only
      omega
    · rw [hfirst, he']
      rfl
    · have hpath : s.arena.items ++ edge <+: s'.arena.items := (hbytes1 ▸ ht.bytes).trans hcs.bytes
      have := hpath.drop s.arena.items.length
      rwa [drop_left] at this
    · have hlaid := ht.laid
      rw [hlen1, hbytes1, length_append] at hlaid
      refine Laid.transport ?_ hcs.bytes hnodec ?_ hlaid
      · rw [hcs.length]
        simp only
        omega
      · intro j h1 h2
        exact hcs.others j (by simp only; omega) (by omega)
    · have hlaid := hcs.laid
      simp only at hlaid
      rwa [hlen2, hbytes2] at hlaid

theorem treeGoal : ∀ k (pre : Bytes), 255 ≤ pre.length + k → TreeGoal env arena pre
  | 0, pre, hk => fun _ _ _ _ _ _ _ hpre => absurd hpre (by omega)
  | k + 1, pre, hk => fun rs i start nd fs s hs hpre =>
    treeGoal_of (forestGoal_of fun pre' hlt => treeGoal k pre' (by omega)) rs i start nd fs s hs hpre

end Parins.Policy
