/-
The order in which rules are added leaves no trace. What is kept of the rules
depends only on the lowest slot at each name and group (`first`), so the
canonical form does not show where its keys stand in the builder's arena, and
neither does the index: the canonical rules determine the radix tree, and the
tree determines the nodes and the bytes of the edges.
-/
import Parins.Policy.Decision

namespace Parins.Policy

open Lib Lib.Radix List

/-- The rules of a canonical form, as group, key and slot. -/
def Canonical.rules (c : Canonical) : List (Group × Bytes × Nat) :=
  c.records.map fun r => (r.group, key c.arena r.entry, r.entry.sourceSlot)

/-! ## The lowest slots decide -/

/-- Every rule of `rules` stands in `rules'` too, with no higher slot. -/
def Present (rules rules' : List Rule) : Prop :=
  ∀ r ∈ rules, ∃ s ≤ r.slot, ⟨r.labels, r.group, s⟩ ∈ rules'

variable {rules rules' : List Rule}

theorem first_eq (h : Present rules rules') (h' : Present rules' rules) : first rules' = first rules := by
  funext g ks
  cases hf : first rules g ks with
  | none =>
    by_contra hne
    obtain ⟨s, hs⟩ := Option.ne_none_iff_exists'.mp hne
    obtain ⟨t, -, ht⟩ := h' _ (first_some hs).1
    exact first_none hf t ht
  | some s =>
    obtain ⟨hmem, hmin⟩ := first_some hf
    have hle : ∀ t, ⟨ks, g, t⟩ ∈ rules' → s ≤ t := fun t ht => by
      obtain ⟨u, hu, hmem'⟩ := h' _ ht
      exact (hmin u hmem').trans hu
    obtain ⟨t, ht, hmem'⟩ := h _ hmem
    obtain rfl : t = s := Nat.le_antisymm ht (hle t hmem')
    exact first_of_min hmem' hle

theorem kept_congr {b b' : Builder} (hlocal : b'.localSlots = b.localSlots) (hclasses : b'.classes = b.classes)
    (hfirst : first rules' = first rules) : kept b' rules' = kept b rules := by
  have hcovers : b'.covers = b.covers := by
    funext g cover slot
    simp only [Builder.covers, Builder.isLocal, Builder.classOf, hlocal, hclasses]
  funext g
  cases g <;> simp only [kept, hcovers, hfirst]

/-! ## The canonical form -/

section Prepared
variable {sha256 : Bytes → Digest} {b b' : Builder} {c c' : Canonical} {out out' : Group → List Record}

theorem Pruned.rules_eq {arena arena' g keeps} {rs rs' : List Record}
    (h : Pruned arena g keeps rs) (h' : Pruned arena' g keeps rs') :
    rs'.map (fun r => (r.group, key arena' r.entry, r.entry.sourceSlot)) =
      rs.map fun r => (r.group, key arena r.entry, r.entry.sourceSlot) := by
  have hsub : ∀ {arena arena' : Bytes} {rs rs' : List Record}, Pruned arena g keeps rs → Pruned arena' g keeps rs' →
      ∀ x ∈ rs.map (fun r => (r.group, key arena r.entry, r.entry.sourceSlot)),
        x ∈ rs'.map fun r => (r.group, key arena' r.entry, r.entry.sourceSlot) := by
    intro arena arena' rs rs' h h' x hx
    obtain ⟨r, hr, rfl⟩ := mem_map.mp hx
    obtain ⟨ks, hs, hkept⟩ := h.sound r hr
    obtain ⟨r', hr', hs'⟩ := h'.complete hkept
    exact mem_map.mpr ⟨r', hr', by rw [hs.group, hs'.group, hs.key, hs'.key, hs'.slot]⟩
  refine @eq_of_ascending _ _ _ _ _ (fun x => x.2.1) _ _ ?_ ?_ fun x => ⟨hsub h' h x, hsub h h' x⟩
  · exact pairwise_map.mpr h'.keys
  · exact pairwise_map.mpr h.keys

theorem Pruned.hashed {arena g keeps} {rs : List Record}
    (h : Pruned arena g keeps rs) : rs.flatMap (fun r => toBeBytes 2 r.entry.len ++ key arena r.entry) =
      (rs.map fun r => (r.group, key arena r.entry, r.entry.sourceSlot)).flatMap
        fun x => toBeBytes 2 x.2.1.length ++ x.2.1 := by
  rw [flatMap_map]
  refine flatMap_congr fun r hr => ?_
  obtain ⟨ks, hs, -⟩ := h.sound r hr
  rw [hs.len, hs.key]

theorem Prepared.rules_eq (h : Prepared sha256 b rules c out) (h' : Prepared sha256 b' rules' c' out')
    (hkept : kept b' rules' = kept b rules) : c'.rules = c.rules ∧ c'.semanticDigest = c.semanticDigest := by
  have hpruned := h'.pruned
  rw [hkept] at hpruned
  have heq := fun g => (h.pruned g).rules_eq (hpruned g)
  have hlength := fun g => congrArg List.length (heq g)
  simp only [length_map] at hlength
  constructor
  · simp only [Canonical.rules, h.records, h'.records, h.arena, h'.arena, map_append, heq]
  · simp only [h.digest, h'.digest, semanticBytes, flatMap_cons, flatMap_nil, (h.pruned _).hashed,
      (hpruned _).hashed, heq, hlength]

end Prepared

/-! ## The index -/

section Layout
variable {w : Nat → Nat → Nat} {nodes nodes' : List Node} {arena arena' : Bytes}

theorem Laid.top {t : Trie UInt8 Sources} {i n e} (h : Laid w nodes arena i n e t) :
    ∃ nd, nodes[i]? = some nd ∧ nd.sources = t.value ∧ nd.firstChild = w 32 n ∧
      nd.childCount = w 16 t.children.edges.length := by
  obtain ⟨v, cs⟩ := t
  exact h.1

mutual
theorem Laid.agree : ∀ {t : Trie UInt8 Sources} {i n e}, Laid w nodes arena i n e t → Laid w nodes' arena' i n e t →
    (∀ j, n ≤ j → j < n + t.under → nodes[j]? = nodes'[j]?) ∧
      (arena.drop e).take t.edgeSum = (arena'.drop e).take t.edgeSum
  | .node v cs, i, n, e, h, h' => by
    obtain ⟨hside, hdeep, hbytes⟩ := LaidBelow.agree h.2.2 h'.2.2
    refine ⟨fun j hj hlt => ?_, hbytes⟩
    rw [Trie.under, Forest.size_eq] at hlt
    rcases Nat.lt_or_ge j (n + cs.edges.length) with hlt' | hge
    · exact hside j hj hlt'
    · exact hdeep j hge (by omega)
theorem LaidBelow.agree : ∀ {cs : Forest UInt8 Sources} {i n e}, LaidBelow w nodes arena i n e cs →
    LaidBelow w nodes' arena' i n e cs → (∀ j, i ≤ j → j < i + cs.edges.length → nodes[j]? = nodes'[j]?) ∧
      (∀ j, n ≤ j → j < n + cs.deep → nodes[j]? = nodes'[j]?) ∧
      (arena.drop e).take cs.edgeSum = (arena'.drop e).take cs.edgeSum
  | .nil, i, n, e, _, _ => ⟨fun j hj hlt => absurd hlt (by simp [Forest.edges]; omega),
      fun j hj hlt => absurd hlt (by simp [Forest.deep]; omega), by simp [Forest.edgeSum]⟩
  | .cons edge t rest, i, n, e, h, h' => by
    simp only [LaidBelow] at h h'
    obtain ⟨⟨nd, hnd, hoff, hlen, hbyte⟩, hedge, ht, hrest⟩ := h
    obtain ⟨⟨nd', hnd', hoff', hlen', hbyte'⟩, hedge', ht', hrest'⟩ := h'
    obtain ⟨hbelow, hbytes⟩ := Laid.agree ht ht'
    obtain ⟨hside, hdeep, hbytes2⟩ := LaidBelow.agree hrest hrest'
    -- One half of a node's fields stands in its parent's forest, the other in its own tree.
    have htop : nodes[i]? = nodes'[i]? := by
      obtain ⟨_, htop, hv, hfirst, hcount⟩ := ht.top
      obtain ⟨_, htop', hv', hfirst', hcount'⟩ := ht'.top
      cases hnd.symm.trans htop
      cases hnd'.symm.trans htop'
      cases nd
      cases nd'
      simp_all
    refine ⟨fun j hj hlt => ?_, fun j hj hlt => ?_, ?_⟩
    · simp only [Forest.edges, length_cons] at hlt
      rcases Nat.eq_or_lt_of_le hj with rfl | hj
      · exact htop
      · exact hside j hj (by omega)
    · simp only [Forest.deep] at hlt
      rcases Nat.lt_or_ge j (n + t.under) with hlt' | hge
      · exact hbelow j hj hlt'
      · exact hdeep j hge (by omega)
    · simp only [Forest.edgeSum, take_add, drop_drop, ← prefix_iff_eq_take.mp hedge,
        ← prefix_iff_eq_take.mp hedge', hbytes, hbytes2, ← Nat.add_assoc]
end

end Layout

section Index
variable {c c' : Canonical} {ix ix' : Index} {t t' : Trie UInt8 Sources}

theorem Sources.eq_of_get {s s' : Sources} (h : ∀ g, s.get g = s'.get g) : s = s' := by
  have h0 := h .allowSuffix
  have h1 := h .allowExact
  have h2 := h .blockSuffix
  have h3 := h .blockExact
  cases s
  cases s'
  simp_all [Sources.get]

theorem Canonical.mem_rules {g k s} :
    (g, k, s) ∈ c.rules ↔ ∃ r ∈ c.records, key c.arena r.entry = k ∧ r.group = g ∧ r.entry.sourceSlot = s := by
  simp only [Canonical.rules, mem_map, Prod.mk.injEq]
  exact exists_congr fun r => and_congr_right fun _ => by tauto

theorem Indexes.entry (hi : Indexes c ix t) (hi' : Indexes c' ix' t') (h : c'.rules = c.rules) {k} {v : Sources}
    (hk : (k, v) ∈ t.entries []) (hlive : v.live = true) : (k, v) ∈ t'.entries [] := by
  obtain ⟨g, hg⟩ := Sources.live_iff.mp hlive
  have hin : (g, k, v.get g) ∈ c'.rules := h ▸ Canonical.mem_rules.mpr ((hi.slots hk hg).mp rfl)
  obtain ⟨r, hr, rfl, -⟩ := Canonical.mem_rules.mp hin
  obtain ⟨v', hk'⟩ := hi'.covers r hr
  have hslot : ∀ g s, s ≠ noSlot → (v.get g = s ↔ v'.get g = s) := fun g s hs => by
    rw [hi.slots hk hs, hi'.slots hk' hs, ← Canonical.mem_rules, ← Canonical.mem_rules, h]
  have hv : v = v' := Sources.eq_of_get fun g => by
    by_cases hg : v.get g = noSlot
    · by_contra hne
      exact hne ((hslot g _ fun heq => hne (hg.trans heq.symm)).mpr rfl)
    · exact ((hslot g _ hg).mp rfl).symm
  exact hv ▸ hk'

/-- **The canonical rules determine the index.** -/
theorem Indexes.agree (hi : Indexes c ix t) (hi' : Indexes c' ix' t') (h : c'.rules = c.rules) :
    ix'.nodes.items = ix.nodes.items ∧ ix'.arena.items = ix.arena.items := by
  have halive : alive Sources.live (t'.entries []) = alive Sources.live (t.entries []) := by
    refine @eq_of_ascending _ _ _ _ _ Prod.fst _ _ ((Trie.entries_sorted t' [] hi'.ordered).filter _)
      ((Trie.entries_sorted t [] hi.ordered).filter _) fun x => ?_
    simp only [alive, mem_filter]
    exact ⟨fun hx => ⟨hi'.entry hi h.symm hx.1 hx.2, hx.2⟩, fun hx => ⟨hi.entry hi' h hx.1 hx.2, hx.2⟩⟩
  obtain rfl : t' = t := Trie.eq_of_alive (fun v v' hv hv' => by simp_all [Sources.live]) hi'.ordered hi.ordered
    hi'.compressed hi.compressed halive
  obtain ⟨hnodes, hbytes⟩ := hi'.laid.agree hi.laid
  constructor
  · refine ext_getElem? fun j => ?_
    rcases Nat.eq_zero_or_pos j with rfl | hj
    · obtain ⟨nd, hnd, hfields⟩ := hi.root
      obtain ⟨nd', hnd', hfields'⟩ := hi'.root
      obtain ⟨_, htop, hrest⟩ := hi.laid.top
      obtain ⟨_, htop', hrest'⟩ := hi'.laid.top
      cases hnd.symm.trans htop
      cases hnd'.symm.trans htop'
      cases nd
      cases nd'
      simp_all
    · rcases Nat.lt_or_ge j (1 + t'.under) with hlt | hge
      · exact hnodes j hj hlt
      · rw [List.getElem?_eq_none (hi'.nodes ▸ hge), List.getElem?_eq_none (hi.nodes ▸ hge)]
  · rwa [drop_zero, drop_zero, take_of_length_le (Nat.le_of_eq hi'.bytes),
      take_of_length_le (Nat.le_of_eq hi.bytes)] at hbytes

end Index

/-! ## Any order of the rules -/

/-- Two canonical forms and whatever is built from them look the same. -/
structure Alike (c c' : Canonical) : Prop where
  rules : c'.rules = c.rules
  digest : c'.semanticDigest = c.semanticDigest
  index : ∀ {S S' : UnstableSort} {env env' : Env} {ix ix' : Index}, Index.buildWithCheck S env c = .ok ix →
    Index.buildWithCheck S' env' c' = .ok ix' →
    ix'.nodes.items = ix.nodes.items ∧ ix'.arena.items = ix.arena.items ∧ ix'.semanticDigest = ix.semanticDigest

section Added
variable {S S' : UnstableSort} {sha256 : Bytes → Digest} {env env' : Env} {limits limits' : Limits} {localSlots : Nat}
  {classes : List Nat} {added added' : List Added} {c c' : Canonical}

theorem canonicalise_alike (h : canonicalise S sha256 env limits localSlots classes added = .ok c)
    (h' : canonicalise S' sha256 env' limits' localSlots classes added' = .ok c')
    (hin : Present (added.map Added.rule) (added'.map Added.rule))
    (hin' : Present (added'.map Added.rule) (added.map Added.rule)) : Alike c c' := by
  obtain ⟨b, out, hlocal, hclasses, -, hb, hp, hc⟩ := canonicalise_ok h
  obtain ⟨b', out', hlocal', hclasses', -, hb', hp', hc'⟩ := canonicalise_ok h'
  have hkept := kept_congr (hlocal'.trans hlocal.symm) (hclasses'.trans hclasses.symm) (first_eq hin hin')
  obtain ⟨hrules, hdigest⟩ := hp.rules_eq hp' hkept
  refine ⟨hrules, hdigest, fun {S S' env env' ix ix'} hbuild hbuild' => ?_⟩
  obtain ⟨t, hi⟩ := (build_safe S env hc).of_ok hbuild
  obtain ⟨t', hi'⟩ := (build_safe S' env' hc').of_ok hbuild'
  obtain ⟨hnodes, harena⟩ := hi.agree hi' hrules
  exact ⟨hnodes, harena, by rw [hi.digest, hi'.digest, hdigest]⟩

theorem present_of_subset (h : ∀ r ∈ rules, r ∈ rules') : Present rules rules' := fun r hr => ⟨r.slot, le_rfl, h r hr⟩

/-- **The order of the rules leaves no trace**, and a rule that is added again
with the same or a higher slot only counts as input. -/
theorem rules_unordered (h : canonicalise S sha256 env limits localSlots classes added = .ok c)
    (h' : canonicalise S' sha256 env' limits' localSlots classes added' = .ok c') :
    (added'.Perm added → Alike c c' ∧ c'.inputRules = c.inputRules) ∧
      ∀ a a0 : Added, a0 ∈ added → a.rule.labels = a0.rule.labels → a.group = a0.group → a0.slot ≤ a.slot →
        added'.Perm (a :: added) → Alike c c' ∧ c'.inputRules = c.inputRules + 1 := by
  have hinput : ∀ n, added'.length = added.length + n → c'.inputRules = c.inputRules + n := by
    intro n hn
    obtain ⟨b, out, -, -, -, hb, hp, -⟩ := canonicalise_ok h
    obtain ⟨b', out', -, -, -, hb', hp', -⟩ := canonicalise_ok h'
    rw [hp.inputRules, hp'.inputRules, hb.count, hb'.count, length_map, length_map, hn]
  constructor
  · intro hperm
    have hmem : ∀ r, r ∈ added'.map Added.rule ↔ r ∈ added.map Added.rule := fun r => (hperm.map Added.rule).mem_iff
    exact ⟨canonicalise_alike h h' (present_of_subset fun r => (hmem r).mpr) (present_of_subset fun r => (hmem r).mp),
      hinput 0 hperm.length_eq⟩
  · intro a a0 ha0 hlabels hgroup hslot hperm
    have hmem : ∀ r, r ∈ added'.map Added.rule ↔ r ∈ (a :: added).map Added.rule := fun r =>
      (hperm.map Added.rule).mem_iff
    refine ⟨canonicalise_alike h h' (present_of_subset fun r hr => (hmem r).mpr (mem_cons_of_mem _ hr)) ?_,
      hinput 1 hperm.length_eq⟩
    intro r hr
    rcases mem_cons.mp ((hmem r).mp hr) with rfl | hr
    · refine ⟨a0.slot.toNat, hslot, mem_map.mpr ⟨a0, ha0, ?_⟩⟩
      rw [hlabels]
      simp only [Added.rule, hgroup]
    · exact ⟨r.slot, le_rfl, hr⟩

end Added

/-- `sampleRules` in another order, with `COM` blocked once more for a subscription. -/
def shuffledRules : List Added :=
  [⟨[67, 79, 77], .blockSuffix, 1⟩, ⟨[98, 46, 67, 111, 109, 46], .blockSuffix, 1⟩, ⟨[99, 111, 109], .blockSuffix, 0⟩,
    ⟨[97, 46, 99, 111, 109], .allowExact, 0⟩]

theorem rules_unordered_sample : ∃ c c' c'' : Canonical,
    canonicalise .insertion (fun _ => sampleDigest) quietEnv ⟨1000, 1000000, 0⟩ 1 [0, 1] sampleRules = .ok c ∧
    canonicalise .insertion (fun _ => sampleDigest) quietEnv ⟨1000, 1000000, 0⟩ 1 [0, 1] shuffledRules.tail = .ok c' ∧
    canonicalise .insertion (fun _ => sampleDigest) quietEnv ⟨1000, 1000000, 0⟩ 1 [0, 1] shuffledRules = .ok c'' ∧
    Alike c c' ∧ c'.inputRules = c.inputRules ∧ Alike c c'' ∧ c''.inputRules = c.inputRules + 1 := by
  have hok : ∀ added ∈ [sampleRules, shuffledRules.tail, shuffledRules], ∃ c,
      canonicalise .insertion (fun _ => sampleDigest) quietEnv ⟨1000, 1000000, 0⟩ 1 [0, 1] added = .ok c := by
    have hall : ∀ added ∈ [sampleRules, shuffledRules.tail, shuffledRules],
        (canonicalise .insertion (fun _ => sampleDigest) quietEnv ⟨1000, 1000000, 0⟩ 1 [0, 1] added).isOk = true := by
      decide +kernel
    exact fun added h => exists_ok (hall added h)
  obtain ⟨c, hc⟩ := hok sampleRules (by simp)
  obtain ⟨c', hc'⟩ := hok shuffledRules.tail (by simp)
  obtain ⟨c'', hc''⟩ := hok shuffledRules (by simp)
  obtain ⟨h, hinput⟩ := (rules_unordered hc hc').1 (by decide)
  obtain ⟨h', hinput'⟩ := (rules_unordered hc hc'').2 ⟨[67, 79, 77], .blockSuffix, 1⟩ ⟨[99, 111, 109], .blockSuffix, 0⟩
    (by decide) (by decide) rfl (by decide) (by decide)
  exact ⟨c, c', c'', hc, hc', hc'', h, hinput, h', hinput'⟩

end Parins.Policy
