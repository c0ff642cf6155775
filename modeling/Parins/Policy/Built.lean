/-
From rules to index: an index that was built holds, at each key, exactly the
rules the builder keeps for the name the key spells (`Indexes`), as a radix tree
laid out in full.
-/
import Mathlib.Data.List.Pairwise
import Parins.Policy.Build
import Parins.Policy.Prepare

namespace Parins.Policy

open Lib Lib.Radix List

/-- What the index relies on in its canonical input. -/
structure Canonical.Wf (c : Canonical) : Prop where
  len : ∀ r ∈ c.records, r.entry.len = (key c.arena r.entry).length
  max : ∀ r ∈ c.records, (key c.arena r.entry).length ≤ 254
  slot : ∀ r ∈ c.records, r.entry.sourceSlot < noSlot
  unique : c.records.Pairwise fun a b => key c.arena a.entry = key c.arena b.entry → a.group ≠ b.group
  count : c.records.length ≤ 5000000

/-- `ix` holds the records of `c`, as the tree `t`. -/
structure Indexes (c : Canonical) (ix : Index) (t : Trie UInt8 Sources) : Prop where
  slots : ∀ {k v}, (k, v) ∈ t.entries [] → ∀ {g s}, s ≠ noSlot →
    (v.get g = s ↔ ∃ r ∈ c.records, key c.arena r.entry = k ∧ r.group = g ∧ r.entry.sourceSlot = s)
  covers : ∀ r ∈ c.records, ∃ v, (key c.arena r.entry, v) ∈ t.entries []
  short : ∀ k ∈ t.entries [], k.1.length ≤ 254
  ordered : t.Ordered
  compressed : t.Compressed Sources.live
  nodes : ix.nodes.items.length = 1 + t.under
  bytes : ix.arena.items.length = t.edgeSum
  small : t.under ≤ 2 * c.records.length ∧ t.edgeSum ≤ 254 * t.under
  laid : Laid (fun _ v => v) ix.nodes.items ix.arena.items 0 1 0 t
  root : ∃ nd, ix.nodes.items[0]? = some nd ∧ nd.edgeOffset = 0 ∧ nd.edgeLen = 0 ∧ nd.firstByte = 0
  digest : ix.semanticDigest = c.semanticDigest
  inputRules : ix.inputRules = c.inputRules
  indexRules : ix.indexRules = c.records.length

instance (arena : Bytes) : Std.TransCmp (buildCmp arena) := inferInstanceAs (Std.TransCmp (compareLex _ _))

variable {c : Canonical}

theorem Canonical.Wf.slice (h : c.Wf) (S : UnstableSort) :
    Slice c.arena [] (S.sort (buildCmp c.arena) c.records) := by
  have hperm := S.perm (buildCmp c.arena) c.records
  refine ⟨fun _ _ => nil_prefix, fun r hr => h.len r (S.mem.mp hr), fun r hr => h.max r (S.mem.mp hr),
    fun r hr => h.slot r (S.mem.mp hr), ?_, ?_⟩
  · refine (S.sorted (buildCmp c.arena) c.records).imp fun {a b} hab => ?_
    simp only [buildCmp, compareLex, compareOn] at hab
    exact Ordering.isLE_left_of_isLE_then hab
  · refine (hperm.pairwise_iff ?_).mpr h.unique
    intro a b hab heq
    exact (hab heq.symm).symm

variable {rs : List Record} {arena : Bytes} {g : Group} {s : Nat}

theorem slotAt_eq_iff {k} (hs : s ≠ noSlot)
    (hu : rs.Pairwise fun a b => key arena a.entry = key arena b.entry → a.group ≠ b.group) :
    slotAt arena rs k g = s ↔ ∃ r ∈ rs, key arena r.entry = k ∧ r.group = g ∧ r.entry.sourceSlot = s := by
  unfold slotAt
  constructor
  · intro h
    cases hf : rs.find? (fun r => key arena r.entry == k && r.group == g) with
    | none => rw [hf] at h; exact absurd h.symm hs
    | some r =>
      rw [hf] at h
      have hprop := List.find?_some hf
      simp only [Bool.and_eq_true, beq_iff_eq] at hprop
      exact ⟨r, mem_of_find?_eq_some hf, hprop.1, hprop.2, h⟩
  · rintro ⟨r, hr, hk, hg, rfl⟩
    cases hf : rs.find? (fun r => key arena r.entry == k && r.group == g) with
    | none =>
      rw [List.find?_eq_none] at hf
      exact absurd (hf r hr) (by simp [hk, hg])
    | some r' =>
      have hprop := List.find?_some hf
      simp only [Bool.and_eq_true, beq_iff_eq] at hprop
      have hmem := mem_of_find?_eq_some hf
      -- Two records of one key and group are one record.
      have : r' = r := by
        by_contra hne
        have hsym : Std.Symm fun a b : Record => key arena a.entry = key arena b.entry → a.group ≠ b.group :=
          ⟨fun a b hab heq => (hab heq.symm).symm⟩
        have := hu.forall hmem hr hne
        exact this (hprop.1.trans hk.symm) (hprop.2.trans hg.symm)
      simp [this]

variable {t : Trie UInt8 Sources}

theorem Radix.small (h : Radix arena [] rs t)
    (hrs : Slice arena [] rs) : t.under ≤ 2 * rs.length ∧ t.edgeSum ≤ 254 * t.under := by
  refine ⟨?_, Trie.edgeSum_le t [] h.short⟩
  have hlive : liveCount Sources.live (t.entries []) ≤ rs.length := by
    have hsorted := Trie.entries_sorted t [] h.ordered
    have hsub : (((t.entries []).filter fun e => e.2.live).map (·.1)).Subperm (rs.map fun r => key arena r.entry) := by
      refine subperm_of_subset ?_ ?_
      · refine pairwise_map.mpr ((hsorted.filter _).imp fun {a b} hab heq => ?_)
        rw [heq, Std.ReflOrd.compare_self] at hab
        cases hab
      · intro k hk
        obtain ⟨⟨k', v⟩, hmem, rfl⟩ := mem_map.mp hk
        obtain ⟨hmem, hv⟩ := mem_filter.mp hmem
        obtain ⟨g, hg⟩ := Sources.live_iff.mp hv
        obtain ⟨r, hr, hkey, -⟩ := (slotAt_eq_iff hg hrs.unique).mp (h.values hmem g).symm
        exact mem_map.mpr ⟨r, hr, hkey⟩
    have := hsub.length_le
    rw [length_map, length_map] at this
    rwa [liveCount, countP_eq_length_filter]
  obtain ⟨v, cs⟩ := t
  have := Forest.size_le_live cs [] h.compressed
  simp only [Trie.under, Trie.entries, liveCount, countP_cons] at hlive this ⊢
  omega

/-- **What is built is the radix tree of the canonical records**, and building
never panics. -/
theorem build_safe (S env) (hc : c.Wf) : Safe (Index.buildWithCheck S env c) fun ix => ∃ t, Indexes c ix t := by
  unfold Index.buildWithCheck
  refine (env.run_safe _).bind fun _ _ => (env.run_safe _).bind fun _ _ => ?_
  refine grow_safe.bind fun out hnodes => ?_
  obtain ⟨nodes, budget⟩ := out
  dsimp only at hnodes ⊢
  generalize maxBuildDepth = room
  refine grow_safe.bind fun out _ => ?_
  obtain ⟨frames, budget'⟩ := out
  have hs := hc.slice S
  generalize hrecords : S.sort (buildCmp c.arena) c.records = records at hs
  have hlen : records.length = c.records.length := by rw [← hrecords]; exact (S.perm _ _).length_eq
  have hgoal : TreeGoal env c.arena [] := treeGoal 255 [] (Nat.le_add_left _ _)
  obtain ⟨n, hn, hrun⟩ := hgoal records 0 0 Node.empty []
    { nodes := { nodes with items := nodes.items ++ [Node.empty] }, arena := .empty, budget := budget',
      frames := [Frame.new 0 0 records 0], processed := 0 } hs (by simp)
    (by simp [hnodes, Vec.empty]) rfl rfl (by simp)
  have hfuel : buildFuel records = n + (buildFuel records - n) := by
    have : weight c.arena 0 records = (records.map (·.entry.len)).sum := by
      simp only [weight, Nat.sub_zero]
      congr 1
      exact map_congr_left fun r hr => (hs.len r hr).symm
    simp only [length_nil] at hn
    rw [this] at hn
    simp only [buildFuel]
    omega
  have hall : Safe (runFrames env c.arena (buildFuel records)
      { nodes := { nodes with items := nodes.items ++ [Node.empty] }, arena := .empty, budget := budget',
        frames := [Frame.new 0 0 records 0], processed := 0 }) fun s' =>
      ∃ t, Radix c.arena [] records t ∧ s'.nodes.items.length = 1 + t.under ∧
        s'.arena.items.length = t.edgeSum ∧ Laid wrap s'.nodes.items s'.arena.items 0 1 0 t ∧
        ∃ nd, s'.nodes.items[0]? = some nd ∧ nd.edgeOffset = 0 ∧ nd.edgeLen = 0 ∧ nd.firstByte = 0 := by
    rw [hfuel, runFrames_add]
    refine hrun.bind fun s' hpost => ?_
    obtain ⟨t, ht⟩ := hpost
    have hdone : runFrames env c.arena (buildFuel records - n) s' = .ok s' := by
      cases buildFuel records - n with
      | zero => rfl
      | succ k => simp [runFrames, ht.frames]
    rw [hdone]
    refine ⟨t, ht.radix, ?_, ?_, ?_, ht.node⟩
    · have := ht.length
      simpa [hnodes, Vec.empty] using this
    · have := ht.bytesLen
      simpa [Vec.empty] using this
    · have := ht.laid
      simpa [hnodes, Vec.empty] using this
  refine hall.bind fun s' hbuilt => (env.run_safe _).bind fun _ _ => ?_
  obtain ⟨t, hradix, hnlen, hblen, hlaid, hroot⟩ := hbuilt
  obtain ⟨hsize, hedges⟩ := hradix.small hs
  have hcount := hc.count
  refine ⟨t, ?_, ?_, hradix.short, hradix.ordered, hradix.compressed, hnlen, hblen,
    ⟨hlen ▸ hsize, hedges⟩, ?_, hroot, rfl, rfl, rfl⟩
  · intro k v hk g s hne
    rw [hradix.values hk g, slotAt_eq_iff hne hs.unique, ← hrecords]
    simp only [S.mem]
  · intro r hr
    exact hradix.covers r (hrecords ▸ S.mem.mpr hr)
  · exact hlaid.exact (by rw [hnlen]; omega) (by rw [hblen]; omega) hradix.ordered hradix.short

/-! ## From the rules that were added -/

section Prepared

variable {sha256 : Bytes → Digest} {b : Builder} {rules : List Rule} {c : Canonical} {out : Group → List Record}

variable {r : Record}

section
variable (h : Prepared sha256 b rules c out)
include h

theorem Prepared.mem_iff : r ∈ c.records ↔ ∃ g, r ∈ out g := by
  rw [h.records]
  simp only [mem_append]
  constructor
  · rintro (((hr | hr) | hr) | hr)
    exacts [⟨_, hr⟩, ⟨_, hr⟩, ⟨_, hr⟩, ⟨_, hr⟩]
  · rintro ⟨g, hr⟩
    cases g
    exacts [.inl (.inl (.inl hr)), .inl (.inl (.inr hr)), .inl (.inr hr), .inr hr]

theorem Prepared.sound (hr : r ∈ c.records) :
    ∃ ks, Spells c.arena r ⟨ks, r.group, r.entry.sourceSlot⟩ ∧ kept b rules r.group ks = some r.entry.sourceSlot := by
  obtain ⟨g, hg⟩ := h.mem_iff.mp hr
  obtain ⟨ks, hspell, hkept⟩ := (h.pruned g).sound r hg
  rw [h.arena]
  obtain rfl : r.group = g := hspell.group
  exact ⟨ks, hspell, hkept⟩

theorem Prepared.complete {ks}
    (hk : kept b rules g ks = some s) : ∃ r ∈ c.records, Spells c.arena r ⟨ks, g, s⟩ := by
  obtain ⟨r, hr, hspell⟩ := (h.pruned g).complete hk
  exact ⟨r, h.mem_iff.mpr ⟨g, hr⟩, h.arena ▸ hspell⟩

theorem Prepared.unique :
    c.records.Pairwise fun x y => key c.arena x.entry = key c.arena y.entry → x.group ≠ y.group := by
  have hin : ∀ g, (out g).Pairwise fun x y => key c.arena x.entry = key c.arena y.entry → x.group ≠ y.group := by
    intro g
    refine (h.pruned g).keys.imp fun {x y} hxy heq => ?_
    rw [← h.arena, heq, Std.ReflOrd.compare_self] at hxy
    cases hxy
  have hgroup : ∀ g, ∀ r ∈ out g, r.group = g := by
    intro g r hr
    obtain ⟨ks, hspell, -⟩ := (h.pruned g).sound r hr
    exact hspell.group
  have hacross : ∀ {g g'}, g ≠ g' → ∀ x ∈ out g, ∀ y ∈ out g', x.group ≠ y.group := by
    intro g g' hne x hx y hy
    rw [hgroup g x hx, hgroup g' y hy]
    exact hne
  rw [h.records]
  simp only [pairwise_append, mem_append]
  refine ⟨⟨⟨hin _, hin _, fun x hx y hy _ => hacross (by decide) x hx y hy⟩, hin _, ?_⟩, hin _, ?_⟩
  · rintro x (hx | hx) y hy _
    · exact hacross (by decide) x hx y hy
    · exact hacross (by decide) x hx y hy
  · rintro x ((hx | hx) | hx) y hy _
    · exact hacross (by decide) x hx y hy
    · exact hacross (by decide) x hx y hy
    · exact hacross (by decide) x hx y hy

theorem Prepared.wf (hb : b.Wf rules) (hmax : b.maxRules ≤ 5000000) : c.Wf := by
  have hspell : ∀ r ∈ c.records, ∃ rule, Spells c.arena r rule := fun r hr => by
    obtain ⟨ks, hs, -⟩ := h.sound hr
    exact ⟨_, hs⟩
  refine ⟨fun r hr => ?_, fun r hr => ?_, fun r hr => ?_, h.unique, ?_⟩
  · obtain ⟨rule, hs⟩ := hspell r hr
    rw [hs.len, hs.key]
  · obtain ⟨rule, hs⟩ := hspell r hr
    rw [hs.key]
    exact hs.labels.length
  · obtain ⟨rule, hs⟩ := hspell r hr
    rw [hs.slot]
    exact hs.slotLt
  · exact Nat.le_trans h.sub.length_le (Nat.le_trans hb.rulesLen hmax)

end

end Prepared

/-- `t` holds, at each key, the rules the builder keeps for the name it spells. -/
structure Filters (b : Builder) (rules : List Rule) (t : Trie UInt8 Sources) : Prop where
  slots : ∀ {k v}, (k, v) ∈ t.entries [] → ∀ {g s}, s ≠ noSlot → v.get g = s →
    ∃ ks, k = frame ks ∧ Spellable ks ∧ kept b rules g ks = some s
  covers : ∀ {g ks s}, kept b rules g ks = some s →
    Spellable ks ∧ s < noSlot ∧ ∃ v, (frame ks, v) ∈ t.entries [] ∧ v.get g = s

theorem Indexes.filters {sha256 b rules out ix} (hi : Indexes c ix t)
    (h : Prepared sha256 b rules c out) : Filters b rules t := by
  refine ⟨?_, ?_⟩
  · intro k v hk g s hne hv
    obtain ⟨r, hr, rfl, rfl, rfl⟩ := (hi.slots hk hne).mp hv
    obtain ⟨ks, hspell, hkept⟩ := h.sound hr
    exact ⟨ks, hspell.key, hspell.labels, hkept⟩
  · intro g ks s hkept
    obtain ⟨r, hr, hspell⟩ := h.complete hkept
    obtain ⟨v, hv⟩ := hi.covers r hr
    refine ⟨hspell.labels, hspell.slotLt, v, hspell.key ▸ hv, ?_⟩
    exact (hi.slots hv (Nat.ne_of_lt hspell.slotLt)).mpr ⟨r, hr, rfl, hspell.group, hspell.slot⟩

end Parins.Policy
