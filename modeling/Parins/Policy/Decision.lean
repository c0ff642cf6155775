/-
The filter's decision. `buildIndex` is the whole way from added rules to an
index. What `lookup` answers there is what the rules say label by label
(`oracle`), over all of them and without pruning, keys or trees.
-/
import Parins.Policy.Descent
import Parins.Policy.Built

namespace Parins.Policy

open Lib Lib.Radix List

/-- A builder takes rules and prepares them. -/
def canonicalise (S : UnstableSort) (sha256 : Bytes → Digest) (env : Env) (limits : Limits) (localSlots : Nat)
    (classes : List Nat) (added : List Added) : Except Fault Canonical := do
  let b ← Builder.new limits
  let b ← Builder.addAll env { b with localSlots, classes } added
  b.prepareWithCheck S sha256 env

/-- A builder's whole life: rules are added, prepared and indexed. -/
def buildIndex (S : UnstableSort) (sha256 : Bytes → Digest) (env : Env) (limits : Limits) (localSlots : Nat)
    (classes : List Nat) (added : List Added) : Except Fault Index := do
  let c ← canonicalise S sha256 env limits localSlots classes added
  Index.buildWithCheck S env c

inductive Decision where
  | allow | block
deriving DecidableEq

def Group.decision : Group → Decision
  | .allowSuffix | .allowExact => .allow
  | .blockSuffix | .blockExact => .block

/-- The labels of a domain, leftmost first, in lower case. -/
def domainLabels (domain : Bytes) : List Label := ((stripDot domain).splitOn 46).map (·.map toAsciiLowercase)

def Matches (added : List Added) (suffix exact : Group) (name : Name) : Prop :=
  ∃ a ∈ added, (a.group = suffix ∧ domainLabels a.domain <:+ name.toLowercase.labels) ∨
    (a.group = exact ∧ domainLabels a.domain = name.toLowercase.labels)

instance (added : List Added) (suffix exact : Group) (name : Name) : Decidable (Matches added suffix exact name) :=
  inferInstanceAs (Decidable (∃ a ∈ added, _))

def Allowed (added : List Added) (name : Name) : Prop := Matches added .allowSuffix .allowExact name

def Blocked (added : List Added) (name : Name) : Prop := Matches added .blockSuffix .blockExact name

instance (added : List Added) (name : Name) : Decidable (Allowed added name) :=
  inferInstanceAs (Decidable (Matches ..))

instance (added : List Added) (name : Name) : Decidable (Blocked added name) :=
  inferInstanceAs (Decidable (Matches ..))

/-- The plain meaning of the rules. -/
def oracle (added : List Added) (name : Name) : Option Decision :=
  if Allowed added name then some .allow else if Blocked added name then some .block else none

/-! ## The built index -/

variable {added : List Added}

section Built
variable {S : UnstableSort} {sha256 : Bytes → Digest} {env : Env} {limits : Limits} {localSlots : Nat} {classes : List Nat}

theorem canonicalise_ok {c : Canonical} (h : canonicalise S sha256 env limits localSlots classes added = .ok c) :
    ∃ b out, b.localSlots = localSlots ∧ b.classes = classes ∧ b.maxRules ≤ 5000000 ∧
      b.Wf (added.map Added.rule) ∧ Prepared sha256 b (added.map Added.rule) c out ∧ c.Wf := by
  obtain ⟨b0, hnew, h⟩ := bind_eq_ok.mp h
  obtain ⟨b, hadd, h⟩ := bind_eq_ok.mp h
  obtain ⟨hfresh, hmax, hlimit⟩ := Builder.new_fresh hnew
  obtain ⟨hlocal, hclasses, hmax'⟩ := Builder.addAll_config hadd
  have hstart : ({ b0 with localSlots, classes } : Builder).Wf [] := Builder.Fresh.wf ⟨hfresh.1, hfresh.2.1, hfresh.2.2⟩
  have hb := Builder.addAll_wf hstart hadd
  rw [nil_append] at hb
  have hrules : b.maxRules ≤ 5000000 := by
    rw [hmax']
    simp only
    omega
  obtain ⟨out, hp⟩ := (prepare_safe hb).of_ok h
  exact ⟨b, out, hlocal, hclasses, hrules, hb, hp, hp.wf hb hrules⟩

theorem buildIndex_ok {ix} (h : buildIndex S sha256 env limits localSlots classes added = .ok ix) :
    ∃ b c out t, b.localSlots = localSlots ∧ b.classes = classes ∧ b.maxRules ≤ 5000000 ∧
      b.Wf (added.map Added.rule) ∧ Prepared sha256 b (added.map Added.rule) c out ∧ c.Wf ∧ Indexes c ix t ∧
      Filters b (added.map Added.rule) t := by
  obtain ⟨c, hprep, h⟩ := bind_eq_ok.mp h
  obtain ⟨b, out, hlocal, hclasses, hrules, hb, hp, hc⟩ := canonicalise_ok hprep
  obtain ⟨t, ht⟩ := (build_safe S env hc).of_ok h
  exact ⟨b, c, out, t, hlocal, hclasses, hrules, hb, hp, hc, ht, ht.filters hp⟩

end Built

/-! ## The search path and the rules -/

theorem ruleLabels_eq (domain) : ruleLabels domain = (domainLabels domain).reverse := by
  simp [ruleLabels, domainLabels]

variable {b : Builder} {rules : List Rule} {t : Trie UInt8 Sources} {v : Sources} {p : Nat}

theorem visits_mem (ho : t.Ordered) {q} :
    (p, v) ∈ t.visits 0 q ↔ ∃ k, (k, v) ∈ t.entries [] ∧ k <+: q ∧ p = k.length := by
  have := Trie.visits_eq t [] q ho
  rw [length_nil] at this
  rw [this]
  simp only [nil_append, mem_map, mem_filter, decide_eq_true_eq, Prod.mk.injEq, Prod.exists]
  constructor
  · rintro ⟨k, w, ⟨hk, hp⟩, rfl, rfl⟩
    exact ⟨k, hk, hp, rfl⟩
  · rintro ⟨k, hk, hp, rfl⟩
    exact ⟨k, v, ⟨hk, hp⟩, rfl, rfl⟩

theorem visits_ascend (ho : t.Ordered) (q : Bytes) :
    (t.visits 0 q).Pairwise (fun x y => x.1 < y.1) ∧ ∀ x ∈ t.visits 0 q, x.1 ≤ q.length := by
  refine ⟨?_, ?_⟩
  · have := Trie.visits_eq t [] q ho
    rw [length_nil] at this
    rw [this]
    refine pairwise_map.mpr (((Trie.entries_sorted t [] ho).filter _).imp_of_mem fun {x y} hx hy hxy => ?_)
    simp only [nil_append, mem_filter, decide_eq_true_eq] at hx hy
    -- Of two prefixes of the query the one that sorts first is the shorter.
    by_contra hlen
    have hp : y.1 <+: x.1 := prefix_of_prefix_length_le hy.2 hx.2 (by omega)
    have := compare_prefix_isLE hp
    rw [Std.OrientedCmp.gt_of_lt hxy] at this
    cases this
  · rintro ⟨p, v⟩ hx
    obtain ⟨k, -, hk, rfl⟩ := (visits_mem ho).mp hx
    exact hk.length_le

/-- A node on the path has a rule of the pair that applies. -/
def hits (suffix exact : Group) (len : Nat) (x : Nat × Sources) : Bool :=
  x.2.get suffix != noSlot || (x.1 == len && x.2.get exact != noSlot)

/-- A pair of groups: what the builder keeps of each. -/
structure Pair (b : Builder) (rules : List Rule) (suffix exact : Group) : Prop where
  ofSuffix : kept b rules suffix = keptSuffix (b.covers suffix) (first rules suffix)
  ofExact : kept b rules exact = keptExact (b.covers suffix) (first rules suffix) (first rules exact)

theorem Pair.allow (b rules) : Pair b rules .allowSuffix .allowExact := ⟨rfl, rfl⟩

theorem Pair.block (b rules) : Pair b rules .blockSuffix .blockExact := ⟨rfl, rfl⟩

variable {suffix exact : Group}

/-- **The path has a rule of the pair exactly when some added rule applies.** -/
theorem visits_hit (hpair : Pair b rules suffix exact) (hf : Filters b rules t) (ho : t.Ordered)
    (hrules : ∀ rule ∈ rules, Spellable rule.labels) {qs} (hq : Short qs) :
    (t.visits 0 (frame qs)).any (hits suffix exact (frame qs).length) = true ↔
      ∃ rule ∈ rules, (rule.group = suffix ∧ rule.labels <+: qs) ∨ (rule.group = exact ∧ rule.labels = qs) := by
  -- A slot in charge at the name is a kept suffix rule on the path.
  have hcharge : (effective (b.covers suffix) (first rules suffix) qs).isSome = true →
      (t.visits 0 (frame qs)).any (hits suffix exact (frame qs).length) = true := by
    intro h
    obtain ⟨s, hs⟩ := Option.isSome_iff_exists.mp h
    obtain ⟨p, hp, hkept, -⟩ := effective_some hs
    obtain ⟨hsp, hlt, v, hv, hget⟩ := hf.covers (g := suffix) (by rw [hpair.ofSuffix]; exact hkept)
    refine any_eq_true.mpr ⟨((frame p).length, v), (visits_mem ho).mpr ⟨_, hv, ?_, rfl⟩, ?_⟩
    · exact (frame_prefix_iff hsp.short hq).mpr hp
    · simp [hits, hget, Nat.ne_of_lt hlt]
  constructor
  · intro h
    obtain ⟨⟨p, v⟩, hx, hhit⟩ := any_eq_true.mp h
    obtain ⟨k, hk, hpre, rfl⟩ := (visits_mem ho).mp hx
    simp only [hits, Bool.or_eq_true, bne_iff_ne, Bool.and_eq_true, beq_iff_eq] at hhit
    rcases hhit with hs | ⟨hlen, hs⟩
    · obtain ⟨ks, rfl, hsp, hkept⟩ := hf.slots hk hs rfl
      rw [hpair.ofSuffix] at hkept
      exact ⟨_, (first_some (Option.filter_eq_some_iff.mp hkept).1).1, .inl ⟨rfl, (frame_prefix_iff hsp.short hq).mp hpre⟩⟩
    · obtain ⟨ks, rfl, hsp, hkept⟩ := hf.slots hk hs rfl
      rw [hpair.ofExact] at hkept
      have := frame_injective hsp.short hq (hpre.eq_of_length hlen)
      exact ⟨_, (first_some (Option.filter_eq_some_iff.mp hkept).1).1, .inr ⟨rfl, this⟩⟩
  · rintro ⟨⟨ks, g, s⟩, hrule, ⟨rfl, hp⟩ | ⟨rfl, rfl⟩⟩
    · refine hcharge (effective_isSome hp (hrules _ hrule).ne ?_)
      cases hf : first rules g ks with
      | none => exact absurd hrule (first_none hf s)
      | some _ => rfl
    · cases hfirst : first rules g ks with
      | none => exact absurd hrule (first_none hfirst s)
      | some s' =>
        by_cases hc : (effective (b.covers suffix) (first rules suffix) ks).any (b.covers suffix · s') = true
        · -- Dropped: a suffix rule is in charge.
          obtain ⟨c, hc, -⟩ := (Option.any_eq_true _ _).mp hc
          exact hcharge (by rw [hc]; rfl)
        · have hkept : kept b rules g ks = some s' := by
            rw [hpair.ofExact, keptExact, hfirst, Option.filter_some]
            simp [hc]
          obtain ⟨-, hlt, v, hv, hget⟩ := hf.covers hkept
          refine any_eq_true.mpr ⟨((frame ks).length, v), (visits_mem ho).mpr ⟨_, hv, prefix_rfl, rfl⟩, ?_⟩
          simp [hits, hget, Nat.ne_of_lt hlt]

theorem matches_iff {name} : Matches added suffix exact name ↔ ∃ rule ∈ added.map Added.rule,
      (rule.group = suffix ∧ rule.labels <+: nameLabels name) ∨ (rule.group = exact ∧ rule.labels = nameLabels name) := by
  have hname : nameLabels name = name.toLowercase.labels.reverse := rfl
  simp only [Matches, mem_map]
  constructor
  · rintro ⟨a, ha, h⟩
    refine ⟨a.rule, ⟨a, ha, rfl⟩, ?_⟩
    simpa [Added.rule, ruleLabels_eq, hname] using h
  · rintro ⟨_, ⟨a, ha, rfl⟩, h⟩
    refine ⟨a, ha, ?_⟩
    simpa [Added.rule, ruleLabels_eq, hname] using h

/-! ## Lookup -/

@[simp] theorem found_isSome (v : Sources) (p g) : (found v p g).isSome = (v.get g != noSlot) := by
  by_cases h : v.get g = noSlot <;> simp [found, h]

variable {g : Group}

theorem found_group {m : Match} (h : m ∈ found v p g) : m.group = g := by
  unfold found at h
  split at h
  · rw [← Option.mem_some_iff.mp h]
  · cases h

/-- Every match here is one of a block rule. -/
def Blocking (o : Option Match) : Prop := ∀ m ∈ o, m.group.decision = .block

variable {o : Option Match}

theorem Blocking.or {o'} (h : Blocking o) (h' : Blocking o') : Blocking (o.or o') := by
  intro m hm
  cases o with
  | none => exact h' m hm
  | some x => exact h m hm

theorem Blocking.found (h : g.decision = .block) : Blocking (found v p g) :=
  fun _ hm => by rw [found_group hm, h]

theorem Blocking.map (h : Blocking o) : o.map (·.group.decision) = if o.isSome then some .block else none := by
  cases o with
  | none => rfl
  | some m => simp [h m rfl]

theorem visits_end {visits : List (Nat × Sources)} (hfirst : ∀ x ∈ visits, p < x.1) (hle : ∀ x ∈ visits, x.1 ≤ p) :
    visits = [] :=
  eq_nil_iff_forall_not_mem.mpr fun x hx => absurd (hfirst x hx) (Nat.not_lt.mpr (hle x hx))

theorem lookupFold_decision {len} : ∀ {visits : List (Nat × Sources)} {blocked : Option Match},
    visits.Pairwise (fun x y => x.1 < y.1) → (∀ x ∈ visits, x.1 ≤ len) → Blocking blocked →
    (lookupFold len visits blocked).map (·.group.decision) =
      if visits.any (hits .allowSuffix .allowExact len) then some .allow
      else if blocked.isSome || visits.any (hits .blockSuffix .blockExact len) then some .block else none
  | [], blocked, _, _, hb => by simpa [lookupFold] using hb.map
  | (p, v) :: visits, blocked, hp, hle, hb => by
    obtain ⟨hfirst, hrest⟩ := pairwise_cons.mp hp
    simp only [lookupFold, any_cons]
    have hb2 : Blocking (blocked.or (found v p .blockSuffix)) := hb.or (.found rfl)
    cases hs : found v p .allowSuffix with
    | some m =>
      have hv : (v.get .allowSuffix != noSlot) = true := by rw [← found_isSome v p, hs]; rfl
      simp [hits, hv, found_group hs, Group.decision]
    | none =>
      have hv : (v.get .allowSuffix != noSlot) = false := by rw [← found_isSome v p, hs]; rfl
      by_cases hend : p = len
      · -- The path ends here.
        subst hend
        obtain rfl := visits_end hfirst fun x hx => hle x (mem_cons_of_mem _ hx)
        cases hx : found v p .allowExact with
        | some m =>
          have hv' : (v.get .allowExact != noSlot) = true := by rw [← found_isSome v p, hx]; rfl
          simp [hits, hv', found_group hx, Group.decision]
        | none =>
          have hv' : (v.get .allowExact != noSlot) = false := by rw [← found_isSome v p, hx]; rfl
          have hb3 : Blocking ((blocked.or (found v p .blockSuffix)).or (found v p .blockExact)) := hb2.or (.found rfl)
          simp only [if_true, hb3.map, hits, hv, hv', Option.isSome_or, found_isSome]
          simp [Bool.or_assoc]
      · have hhit : hits .allowSuffix .allowExact len (p, v) = false := by simp [hits, hv, hend]
        have hhit' : hits .blockSuffix .blockExact len (p, v) = (v.get .blockSuffix != noSlot) := by simp [hits, hend]
        rw [if_neg hend, lookupFold_decision hrest (fun x hx => hle x (mem_cons_of_mem _ hx)) hb2]
        simp only [hhit, hhit', Bool.false_or, Option.isSome_or, found_isSome, Bool.or_assoc]

theorem short_of_name {name : Name} (h : name.encodedLen ≤ 254) : Short (nameLabels name) :=
  .of_length (by rw [frame_nameLabels_length]; omega)

section Reads
variable {c : Canonical} {ix : Index} {t : Trie UInt8 Sources} {name : Name}

theorem Indexes.lookup (hi : Indexes c ix t) (hname : name.encodedLen ≤ 254) : ix.lookup name =
    .ok (lookupFold (frame (nameLabels name)).length (t.visits 0 (frame (nameLabels name))) none) := by
  rw [Index.lookup, Key.query_ok hname]
  exact lookup_laid _ hi.laid hi.ordered (Nat.zero_le _) (Nat.lt_succ_self _)

theorem Indexes.blockMatch (hi : Indexes c ix t) (hname : name.encodedLen ≤ 254) (slots) : ix.blockMatch name slots =
    .ok (blockFold slots (frame (nameLabels name)).length (t.visits 0 (frame (nameLabels name))) none) := by
  rw [Index.blockMatch, Key.query_ok hname]
  exact blockMatch_laid _ hi.laid hi.ordered (Nat.zero_le _) (Nat.lt_succ_self _)

end Reads

theorem lookup_spec {S sha256 env limits localSlots classes} {ix : Index} {name : Name}
    (hbuild : buildIndex S sha256 env limits localSlots classes added = .ok ix) (hname : name.encodedLen ≤ 254) :
    ∃ b t, Filters b (added.map Added.rule) t ∧ t.Ordered ∧ ∃ m, ix.lookup name = .ok m ∧
      lookupFold (frame (nameLabels name)).length (t.visits 0 (frame (nameLabels name))) none = m ∧
      m.map (·.group.decision) = oracle added name := by
  obtain ⟨b, c, out, t, -, -, -, hb, -, -, hi, hf⟩ := buildIndex_ok hbuild
  have hhit := fun {s e} (hpair : Pair b _ s e) => visits_hit hpair hf hi.ordered hb.spellable (short_of_name hname)
  refine ⟨b, t, hf, hi.ordered, _, hi.lookup hname, rfl, ?_⟩
  obtain ⟨hasc, hle⟩ := visits_ascend hi.ordered (frame (nameLabels name))
  rw [lookupFold_decision hasc hle (fun _ h => by cases h)]
  simp only [hhit (Pair.allow b _), hhit (Pair.block b _), ← matches_iff, Option.isSome_none, Bool.false_or]
  rfl

/-- **The index decides as the rules do.** -/
theorem lookup_eq_oracle {S : UnstableSort} {sha256 : Bytes → Digest} {env : Env} {limits : Limits} {localSlots : Nat}
    {classes : List Nat} {added : List Added} {ix : Index} {name : Name}
    (hbuild : buildIndex S sha256 env limits localSlots classes added = .ok ix) (hname : name.encodedLen ≤ 254) :
    ∃ m, ix.lookup name = .ok m ∧ m.map (·.group.decision) = oracle added name := by
  obtain ⟨_, _, _, _, m, hlookup, _, hdecision⟩ := lookup_spec hbuild hname
  exact ⟨m, hlookup, hdecision⟩

/-- Nothing is cancelled and every growth is exact. -/
def quietEnv : Env := { check := fun _ => none, alloc := fun _ n => some n }

def sampleRules : List Added :=
  [⟨[99, 111, 109], .blockSuffix, 0⟩, ⟨[97, 46, 99, 111, 109], .allowExact, 0⟩,
    ⟨[98, 46, 67, 111, 109, 46], .blockSuffix, 1⟩]

def sampleDigest : Digest :=
  #v[130, 161, 132, 252, 17, 139, 155, 48, 175, 122, 5, 252, 81, 114, 163, 217,
    177, 60, 241, 93, 239, 105, 61, 99, 61, 230, 170, 24, 23, 173, 80, 66]

theorem sample_builds :
    ∃ ix, buildIndex .insertion (fun _ => sampleDigest) quietEnv ⟨1000, 1000000, 0⟩ 1 [0, 1] sampleRules = .ok ix :=
  exists_ok (by decide +kernel)

theorem lookup_eq_oracle_sample :
    ∃ ix m, buildIndex .insertion (fun _ => sampleDigest) quietEnv ⟨1000, 1000000, 0⟩ 1 [0, 1] sampleRules = .ok ix ∧
      ix.lookup ⟨[[65], [99, 111, 109]], true⟩ = .ok m ∧ m.map (·.group.decision) = some .allow := by
  obtain ⟨ix, hix⟩ := sample_builds
  obtain ⟨m, hm, horacle⟩ := @lookup_eq_oracle _ _ _ _ _ _ _ _ ⟨[[65], [99, 111, 109]], true⟩ hix (by decide)
  exact ⟨ix, m, hix, hm, horacle.trans (by decide)⟩

end Parins.Policy
