/-
Which block rule answers. The documented ranking (local before subscription,
exact before suffix, the longest suffix, the lowest slot) picks a winner among
all added rules that block a name. Pruning may have dropped it; then the rule
that covered it is the one `blockMatch` finds, and it answers alike
(`same_class`).
-/
import Parins.Policy.Decision

namespace Parins.Policy

open Lib Lib.Radix List

/-! ## The ranking -/

/-- The documented ranking of the rules that block one name. -/
def ruleCmp (localSlots : Nat) : Added → Added → Ordering :=
  compareLex (compareOn fun a => decide (localSlots ≤ a.slot.toNat)) <|
    compareLex (compareOn fun a => decide (a.group = .blockSuffix)) <|
      compareLex (fun a b => compare (domainLabels b.domain).length (domainLabels a.domain).length)
        (compareOn (·.slot.toNat))

/-- Whether a rule blocks a name, were it the only one. -/
def blocks (name : Name) (a : Added) : Bool :=
  (a.group = .blockSuffix && domainLabels a.domain <:+ name.toLowercase.labels) ||
    (a.group = .blockExact && domainLabels a.domain = name.toLowercase.labels)

/-- The rule the ranking picks among all that block the name. -/
def winner (localSlots : Nat) (added : List Added) (name : Name) : Option Added :=
  least (ruleCmp localSlots) (added.filter (blocks name))

/-- The answer class of a slot. -/
def classOf (classes : List Nat) (slot : Nat) : Nat := classes[slot]?.getD 0

/-- A class for every slot in use, or one class for all. -/
def Assigns (classes : List Nat) (added : List Added) : Prop :=
  classes = [] ∨ ∀ a ∈ added, a.slot.toNat < classes.length

instance (classes : List Nat) (added : List Added) : Decidable (Assigns classes added) :=
  inferInstanceAs (Decidable (_ ∨ _))

instance (localSlots : Nat) : Std.TransCmp (rankCmp localSlots) :=
  have : Std.TransCmp fun a b : Match => compare b.matchedKeyLen a.matchedKeyLen :=
    @Std.TransCmp.opposite Match (compareOn fun m => m.matchedKeyLen) _
  inferInstanceAs (Std.TransCmp (compareLex _ (compareLex _ (compareLex _ _))))

instance (localSlots : Nat) : Std.TransCmp (ruleCmp localSlots) :=
  have : Std.TransCmp fun a b : Added => compare (domainLabels b.domain).length (domainLabels a.domain).length :=
    @Std.TransCmp.opposite Added (compareOn fun a => (domainLabels a.domain).length) _
  inferInstanceAs (Std.TransCmp (compareLex _ (compareLex _ (compareLex _ _))))

variable {p q : Prop}

theorem compare_decide_lt [Decidable p] [Decidable q] : compare (decide p) (decide q) = .lt ↔ ¬ p ∧ q := by
  by_cases hp : p <;> by_cases hq : q <;> simp only [hp, hq] <;> decide

theorem compare_decide_eq [Decidable p] [Decidable q] : compare (decide p) (decide q) = .eq ↔ (p ↔ q) := by
  by_cases hp : p <;> by_cases hq : q <;> simp only [hp, hq] <;> decide

variable {localSlots : Nat}

theorem rank_lt_iff {a b : Match} : rankCmp localSlots a b = .lt ↔
    (a.sourceSlot < localSlots ∧ localSlots ≤ b.sourceSlot) ∨
      ((localSlots ≤ a.sourceSlot ↔ localSlots ≤ b.sourceSlot) ∧
        ((a.group ≠ .blockSuffix ∧ b.group = .blockSuffix) ∨
          ((a.group = .blockSuffix ↔ b.group = .blockSuffix) ∧
            (b.matchedKeyLen < a.matchedKeyLen ∨
              (a.matchedKeyLen = b.matchedKeyLen ∧ a.sourceSlot < b.sourceSlot))))) := by
  simp only [rankCmp, compareLex, compareOn, Ordering.then_eq_lt, compare_decide_lt, compare_decide_eq,
    Nat.compare_eq_lt, Nat.compare_eq_eq, Nat.not_le, ne_eq, @eq_comm _ b.matchedKeyLen]

theorem rank_antisymm {a b : Match} (h1 : rankCmp localSlots a b ≠ .lt)
    (h2 : rankCmp localSlots b a ≠ .lt) : a.sourceSlot = b.sourceSlot := by
  have heq : rankCmp localSlots a b = .eq := by
    cases hc : rankCmp localSlots a b with
    | lt => exact absurd hc h1
    | eq => rfl
    | gt => exact absurd (Std.OrientedCmp.lt_of_gt hc) h2
  simp only [rankCmp, compareLex, compareOn, Ordering.then_eq_eq, Nat.compare_eq_eq] at heq
  exact heq.2.2.2

/-! ## Along the path -/

def candidates (len : Nat) (visits : List (Nat × Sources)) : List Match :=
  visits.flatMap fun x => (found x.2 x.1 .blockSuffix).toList ++
    if x.1 = len then (found x.2 x.1 .blockExact).toList else []

theorem consider_eq (localSlots) (best o : Option Match) :
    consider localSlots best o = o.toList.foldl (better (rankCmp localSlots)) best := by
  cases o with
  | none => rfl
  | some m => cases best <;> rfl

variable {len : Nat}

theorem blockFold_eq : ∀ {visits : List (Nat × Sources)} {best},
    visits.Pairwise (fun x y => x.1 < y.1) → (∀ x ∈ visits, x.1 ≤ len) → blockFold localSlots len visits best =
      if visits.any (hits .allowSuffix .allowExact len) then none
      else (candidates len visits).foldl (better (rankCmp localSlots)) best
  | [], _, _, _ => rfl
  | (p, v) :: visits, best, hp, hle => by
    obtain ⟨hfirst, hrest⟩ := pairwise_cons.mp hp
    simp only [blockFold, found_isSome, consider_eq, any_cons, candidates, flatMap_cons, foldl_append]
    by_cases hv : (v.get .allowSuffix != noSlot) = true
    · simp [hits, hv]
    · have hv : (v.get .allowSuffix != noSlot) = false := by simpa using hv
      by_cases hend : p = len
      · subst hend
        obtain rfl := visits_end hfirst fun x hx => hle x (mem_cons_of_mem _ hx)
        simp [hits, hv]
      · have hhit : hits .allowSuffix .allowExact len (p, v) = false := by simp [hits, hv, hend]
        simp only [hv, hend, hhit, Bool.false_or, if_false, Bool.false_eq_true, foldl_nil]
        exact blockFold_eq hrest fun x hx => hle x (mem_cons_of_mem _ hx)

/-! ## Rules and matches -/

/-- A block rule applies to the labels of a name. -/
def Applies (qs : List Label) (r : Rule) : Prop :=
  (r.group = .blockSuffix ∧ r.labels <+: qs) ∨ (r.group = .blockExact ∧ r.labels = qs)

def Rule.asMatch (r : Rule) : Match :=
  { group := r.group, sourceSlot := r.slot, matchedKeyLen := (frame r.labels).length }

variable {qs : List Label} {r : Rule}

theorem Applies.labels (h : Applies qs r) : r.labels <+: qs := by
  rcases h with ⟨-, h⟩ | ⟨-, h⟩
  · exact h
  · rw [h]

variable {ps : List Label}

theorem frame_length_lt (h : ps <+: qs) (hne : ps ≠ qs) : (frame ps).length < (frame qs).length := by
  obtain ⟨ts, rfl⟩ := h
  cases ts with
  | nil => simp at hne
  | cons t ts => simp [frame_append, frame_cons]

variable {ps' : List Label}

theorem frame_length_iff (h : ps <+: qs) (h' : ps' <+: qs) :
    (frame ps).length < (frame ps').length ↔ ps.length < ps'.length := by
  constructor
  · intro hlt
    by_contra hnot
    have hp : ps' <+: ps := prefix_of_prefix_length_le h' h (by omega)
    obtain ⟨ts, rfl⟩ := hp
    rw [frame_append, length_append] at hlt
    omega
  · intro hlt
    have hp : ps <+: ps' := prefix_of_prefix_length_le h h' (by omega)
    exact frame_length_lt hp fun heq => by rw [heq] at hlt; omega

theorem frame_length_inj (h : ps <+: qs) (h' : ps' <+: qs)
    (heq : (frame ps).length = (frame ps').length) : ps = ps' := by
  rcases prefix_or_prefix_of_prefix h h' with hp | hp
  · by_contra hne
    have := frame_length_lt hp hne
    omega
  · by_contra hne
    have := frame_length_lt hp (Ne.symm hne)
    omega

variable {b : Builder} {rules : List Rule} {t : Trie UInt8 Sources} {qs : List Label}

def IsKept (b : Builder) (rules : List Rule) (r : Rule) : Prop := kept b rules r.group r.labels = some r.slot

theorem IsKept.mem (h : IsKept b rules r) : r ∈ rules := by
  obtain ⟨labels, group, slot⟩ := r
  cases group <;> exact (first_some (Option.filter_eq_some_iff.mp h).1).1

theorem found_kept (hf : Filters b rules t) (ho : t.Ordered) (hlen : (frame qs).length ≤ 254)
    {p v g m} (hx : (p, v) ∈ t.visits 0 (frame qs)) (hm : m ∈ found v p g) :
    ∃ r, IsKept b rules r ∧ r.asMatch = m ∧ r.group = g ∧ r.labels <+: qs ∧ (p = (frame qs).length → r.labels = qs) := by
  have hq : Short qs := .of_length (by omega)
  obtain ⟨k, hk, hpre, rfl⟩ := (visits_mem ho).mp hx
  unfold found at hm
  split at hm
  · next hs =>
    obtain ⟨ks, rfl, hsp, hkept⟩ := hf.slots hk hs rfl
    rw [Option.mem_some_iff, Nat.mod_eq_of_lt (by have := hpre.length_le; omega)] at hm
    exact ⟨⟨ks, g, _⟩, hkept, hm, rfl, (frame_prefix_iff hsp.short hq).mp hpre,
      fun hend => frame_injective hsp.short hq (hpre.eq_of_length hend)⟩
  · cases hm

/-- **The candidates are the kept rules that apply.** -/
theorem mem_candidates (hf : Filters b rules t) (ho : t.Ordered) (hlen : (frame qs).length ≤ 254)
    {m} : m ∈ candidates (frame qs).length (t.visits 0 (frame qs)) ↔
      ∃ r, IsKept b rules r ∧ Applies qs r ∧ r.asMatch = m := by
  simp only [candidates, mem_flatMap, mem_append, Option.mem_toList]
  constructor
  · rintro ⟨⟨p, v⟩, hx, hm | hm⟩
    · obtain ⟨r, hkept, heq, hg, hpre, _⟩ := found_kept hf ho hlen hx hm
      exact ⟨r, hkept, .inl ⟨hg, hpre⟩, heq⟩
    · split at hm
      · next hend =>
        obtain ⟨r, hkept, heq, hg, _, hall⟩ := found_kept hf ho hlen hx (Option.mem_toList.mp hm)
        exact ⟨r, hkept, .inr ⟨hg, hall hend⟩, heq⟩
      · cases hm
  · rintro ⟨⟨ks, g, s⟩, hkept, happ, rfl⟩
    obtain ⟨hsp, hlt, v, hv, hget⟩ := hf.covers hkept
    have hpre : frame ks <+: frame qs := (frame_prefix_iff hsp.short (.of_length (by omega))).mpr happ.labels
    refine ⟨((frame ks).length, v), (visits_mem ho).mpr ⟨_, hv, hpre, rfl⟩, ?_⟩
    have hm : Rule.asMatch ⟨ks, g, s⟩ ∈ found v (frame ks).length g := by
      have : (frame ks).length ≤ 254 := hsp.length
      rw [found, if_pos (hget.trans_ne (Nat.ne_of_lt hlt)), Nat.mod_eq_of_lt (by omega), hget]
      rfl
    rcases happ with ⟨rfl, -⟩ | ⟨rfl, rfl⟩
    · exact .inl hm
    · right
      rw [if_pos rfl, Option.mem_toList]
      exact hm

/-! ## The winner and what is kept of it -/

/-- No rule that satisfies `P` ranks before `r`. -/
def Least (localSlots : Nat) (P : Rule → Prop) (r : Rule) : Prop :=
  P r ∧ ∀ r', P r' → rankCmp localSlots r'.asMatch r.asMatch ≠ .lt

section Winner

variable {w : Rule}

theorem Least.slot_first (h : Least b.localSlots (fun r => r ∈ rules ∧ Applies qs r) w) :
    first rules w.group w.labels = some w.slot := by
  refine first_of_min h.1.1 fun s hs => ?_
  by_contra hlt
  refine h.2 ⟨w.labels, w.group, s⟩ ⟨hs, h.1.2⟩ (rank_lt_iff.mpr ?_)
  simp only [Rule.asMatch]
  by_cases hloc : b.localSlots ≤ s ↔ b.localSlots ≤ w.slot
  · exact .inr ⟨hloc, .inr ⟨trivial, .inr ⟨trivial, by omega⟩⟩⟩
  · left
    omega

theorem covers_cases {c s} (hu : uniform b.classes = false) (h : b.covers .blockSuffix c s = true) :
    (c < b.localSlots ∧ b.localSlots ≤ s) ∨
      (classOf b.classes c = classOf b.classes s ∧ (b.localSlots ≤ c ↔ b.localSlots ≤ s)) := by
  simp only [Builder.covers, Group.index, hu, Builder.isLocal, Builder.classOf, Bool.or_eq_true, Bool.and_eq_true,
    Bool.not_eq_true', beq_iff_eq, decide_eq_true_eq, decide_eq_false_iff_not, Nat.not_lt] at h
  rcases h with ((h | h) | h) | h
  · exact absurd h (by decide)
  · cases h
  · exact .inl h
  · right
    refine ⟨h.1, ?_⟩
    have := decide_eq_decide.mp h.2
    omega

/-- The winner is kept, or a kept rule `c` above it covers it, and no kept rule
that applies is nearer than `c`. -/
theorem Least.kept_or_covered (h : Least b.localSlots (fun r => r ∈ rules ∧ Applies qs r) w)
    (hrules : ∀ r ∈ rules, r.labels ≠ []) :
    IsKept b rules w ∨ ∃ c, IsKept b rules c ∧ c.group = .blockSuffix ∧ c.labels <+: qs ∧
      b.covers .blockSuffix c.slot w.slot = true ∧ kept b rules w.group w.labels = none ∧
      ∀ p, p <+: w.labels → (w.group = .blockSuffix → p ≠ w.labels) →
        (kept b rules .blockSuffix p).isSome = true → p <+: c.labels := by
  have hfirst := h.slot_first
  obtain ⟨labels, group, slot⟩ := w
  simp only at hfirst
  have hcover : ∀ {ks : List Label}, ks <+: qs →
      (effective (b.covers .blockSuffix) (first rules .blockSuffix) ks).any (b.covers .blockSuffix · slot) = true →
      ∃ c, IsKept b rules c ∧ c.group = .blockSuffix ∧ c.labels <+: qs ∧ b.covers .blockSuffix c.slot slot = true ∧
        ∀ p, p <+: ks → (kept b rules .blockSuffix p).isSome = true → p <+: c.labels := by
    intro ks hks hany
    obtain ⟨c, hc, hcov⟩ := (Option.any_eq_true _ _).mp hany
    obtain ⟨p, hp, hkept, hmax⟩ := effective_some hc
    exact ⟨⟨p, .blockSuffix, c⟩, hkept, rfl, hp.trans hks, hcov, hmax⟩
  rcases h.1.2 with ⟨hg, hp⟩ | ⟨hg, hp⟩
  · simp only at hg hp
    subst hg
    have hkept := @keptSuffix_of_rule (b.covers .blockSuffix) _ _ _ (hrules _ h.1.1) hfirst
    by_cases hc : (effective (b.covers .blockSuffix) (first rules .blockSuffix) labels.dropLast).any
        (b.covers .blockSuffix · slot) = true
    · right
      obtain ⟨c, h1, h2, h3, h4, h5⟩ := hcover ((List.dropLast_prefix _).trans hp) hc
      refine ⟨c, h1, h2, h3, h4, hkept.trans (if_pos hc), fun p hp hne hs => h5 p ?_ hs⟩
      obtain ⟨front, last, hl⟩ := (eq_nil_or_concat labels).resolve_left (hrules _ h.1.1)
      simp only at hp hne
      rw [hl, concat_eq_append] at hp ⊢
      rcases prefix_concat_iff.mp hp with heq | hp
      · exact absurd (heq.trans (by rw [hl, concat_eq_append])) (hne trivial)
      · simpa using hp
    · exact .inl (hkept.trans (if_neg hc))
  · simp only at hg hp
    subst hg hp
    have hkept : kept b rules .blockExact labels =
        (some slot).filter fun s => !(effective (b.covers .blockSuffix) (first rules .blockSuffix) labels).any
          (b.covers .blockSuffix · s) := by
      rw [← hfirst]
      rfl
    by_cases hc : (effective (b.covers .blockSuffix) (first rules .blockSuffix) labels).any
        (b.covers .blockSuffix · slot) = true
    · right
      obtain ⟨c, h1, h2, h3, h4, h5⟩ := hcover prefix_rfl hc
      exact ⟨c, h1, h2, h3, h4, by rw [hkept, Option.filter_some]; simp [hc], fun p hp _ hs => h5 p hp hs⟩
    · left
      rw [IsKept, hkept, Option.filter_some]
      simp [hc]

/-- **What is found answers like the winner.** -/
theorem same_class {m : Rule} (hu : uniform b.classes = false) (hrules : ∀ r ∈ rules, r.labels ≠ [])
    (hw : Least b.localSlots (fun r => r ∈ rules ∧ Applies qs r) w)
    (hm : Least b.localSlots (fun r => IsKept b rules r ∧ Applies qs r) m) :
    classOf b.classes m.slot = classOf b.classes w.slot := by
  have hmw := hw.2 m ⟨hm.1.1.mem, hm.1.2⟩
  rcases hw.kept_or_covered hrules with hkept | ⟨c, hckept, hcg, hcqs, hcov, hnone, hmax⟩
  · have : m.slot = w.slot := rank_antisymm hmw (hm.2 w ⟨hkept, hw.1.2⟩)
    rw [this]
  have hcapp : Applies qs c := .inl ⟨hcg, hcqs⟩
  have hcw := hw.2 c ⟨hckept.mem, hcapp⟩
  rcases covers_cases hu hcov with hlayer | ⟨hclass, hlayer⟩
  · -- A local rule that covers a subscription's would itself have won.
    exact absurd (rank_lt_iff.mpr (.inl hlayer)) hcw
  rw [← hclass]
  refine congrArg _ (rank_antisymm (a := m.asMatch) (b := c.asMatch) (fun hlt => ?_) (hm.2 c ⟨hckept, hcapp⟩))
  -- A kept rule that ranks before `c` cannot rank before the winner, so it lies between them.
  rw [rank_lt_iff] at hlt
  rw [Ne, rank_lt_iff] at hmw
  simp only [Rule.asMatch, hcg] at hlt hmw
  obtain ⟨hmlayer, hlt⟩ : (b.localSlots ≤ m.slot ↔ b.localSlots ≤ w.slot) ∧
      (m.group ≠ .blockSuffix ∨ (m.group = .blockSuffix ∧ ((frame c.labels).length < (frame m.labels).length ∨
        ((frame m.labels).length = (frame c.labels).length ∧ m.slot < c.slot)))) := by
    rcases hlt with hlt | ⟨hl, hlt⟩
    · exact absurd (.inl ⟨hlt.1, hlayer.mp hlt.2⟩) hmw
    · refine ⟨hl.trans hlayer, ?_⟩
      rcases hlt with hlt | ⟨hg, hlt⟩
      · exact .inl hlt.1
      · exact .inr ⟨hg.mpr trivial, hlt⟩
  rcases hlt with hexact | ⟨hsuffix, hlt⟩
  · -- An exact rule: the winner is exact too, but nothing is kept of it.
    have hme : m.group = .blockExact ∧ m.labels = qs := by
      rcases hm.1.2 with h | h
      · exact absurd h.1 hexact
      · exact h
    rcases hw.1.2 with ⟨hg, -⟩ | ⟨hg, hl⟩
    · exact hmw (.inr ⟨hmlayer, .inl ⟨hexact, hg⟩⟩)
    · have := hm.1.1
      rw [IsKept, hme.1, hme.2, ← hg, ← hl, hnone] at this
      cases this
  · have hmqs : m.labels <+: qs := hm.1.2.labels
    have hmkept : (kept b rules .blockSuffix m.labels).isSome = true := by
      have := hm.1.1
      rw [IsKept, hsuffix] at this
      rw [this]
      rfl
    have hpre : m.labels <+: c.labels := by
      refine hmax m.labels ?_ ?_ hmkept
      · rcases hw.1.2 with ⟨hg, hl⟩ | ⟨hg, hl⟩
        · refine prefix_of_prefix_length_le hmqs hl ?_
          by_contra hlong
          refine hmw (.inr ⟨hmlayer, .inr ⟨⟨fun _ => hg, fun _ => hsuffix⟩, .inl ?_⟩⟩)
          exact (frame_length_iff hl hmqs).mpr (by omega)
        · rw [hl]
          exact hmqs
      · intro hg heq
        rw [heq, ← hg, hnone] at hmkept
        cases hmkept
    rcases hlt with hlt | ⟨hlen, hlt⟩
    · have := (frame_length_iff hcqs hmqs).mp hlt
      have := hpre.length_le
      omega
    · have hlab := frame_length_inj hmqs hcqs hlen
      have h1 := hm.1.1
      have h2 := hckept
      rw [IsKept, hsuffix, hlab] at h1
      rw [IsKept, hcg, h1, Option.some.injEq] at h2
      omega

end Winner

/-! ## The documented ranking -/

variable {added : List Added} {classes : List Nat}

section Documented

variable {name : Name} {a a' : Added} {localSlots : Nat}

theorem blocks_iff : blocks name a = true ↔ Applies (nameLabels name) a.rule := by
  have hname : nameLabels name = name.toLowercase.labels.reverse := rfl
  simp only [blocks, Applies, Added.rule, ruleLabels_eq, hname, Bool.or_eq_true, Bool.and_eq_true, decide_eq_true_eq,
    reverse_prefix, reverse_inj]

theorem compare_lengths (h : ps <+: qs) (h' : ps' <+: qs) :
    compare (frame ps).length (frame ps').length = compare ps.length ps'.length := by
  have h1 := frame_length_iff h h'
  have h2 := frame_length_iff h' h
  rcases Nat.lt_trichotomy ps.length ps'.length with hlt | heq | hgt
  · rw [Nat.compare_eq_lt.mpr hlt, Nat.compare_eq_lt.mpr (h1.mpr hlt)]
  · rw [Nat.compare_eq_eq.mpr heq, Nat.compare_eq_eq.mpr (by omega)]
  · rw [Nat.compare_eq_gt.mpr hgt, Nat.compare_eq_gt.mpr (h2.mpr hgt)]

theorem rankCmp_rule (h : Applies (nameLabels name) a.rule) (h' : Applies (nameLabels name) a'.rule) :
    rankCmp localSlots a.rule.asMatch a'.rule.asMatch = ruleCmp localSlots a a' := by
  have hlen := compare_lengths h'.labels h.labels
  simp only [Added.rule, ruleLabels_eq, length_reverse] at hlen
  simp only [rankCmp, ruleCmp, compareLex, compareOn, Rule.asMatch, Added.rule, ruleLabels_eq, hlen]

theorem winner_least {w : Added} (h : winner localSlots added name = some w) :
    w ∈ added ∧ Least localSlots (fun r => r ∈ added.map Added.rule ∧ Applies (nameLabels name) r) w.rule := by
  obtain ⟨hw, hmin⟩ := least_some h
  obtain ⟨hw, hblocks⟩ := mem_filter.mp hw
  refine ⟨hw, ⟨mem_map_of_mem hw, blocks_iff.mp hblocks⟩, ?_⟩
  rintro r ⟨hr, happ⟩
  obtain ⟨x, hx, rfl⟩ := mem_map.mp hr
  rw [rankCmp_rule happ (blocks_iff.mp hblocks)]
  exact hmin x (mem_filter.mpr ⟨hx, blocks_iff.mpr happ⟩)

theorem uniform_get : ∀ {classes}, uniform classes = true → ∀ x ∈ classes, ∀ y ∈ classes, x = y
  | [], _, x, hx, _, _ => by cases hx
  | [c], _, x, hx, y, hy => by
    rw [mem_singleton.mp hx, mem_singleton.mp hy]
  | c :: d :: rest, h, x, hx, y, hy => by
    simp only [uniform, Bool.and_eq_true, beq_iff_eq] at h
    obtain ⟨rfl, h⟩ := h
    have ih := uniform_get h
    have hx : x ∈ c :: rest := by simpa using hx
    have hy : y ∈ c :: rest := by simpa using hy
    exact ih x hx y hy

theorem uniform_classOf (hu : uniform classes = true)
    (h : Assigns classes added) (ha : a ∈ added) (ha' : a' ∈ added) :
    classOf classes a.slot.toNat = classOf classes a'.slot.toNat := by
  rcases h with rfl | h
  · rfl
  · have h1 := h a ha
    have h2 := h a' ha'
    simp only [classOf, List.getElem?_eq_getElem h1, List.getElem?_eq_getElem h2, Option.getD_some]
    exact uniform_get hu _ (getElem_mem h1) _ (getElem_mem h2)

end Documented

theorem candidates_ne_nil {visits : List (Nat × Sources)} :
    candidates len visits ≠ [] ↔ visits.any (hits .blockSuffix .blockExact len) = true := by
  rw [any_eq_true, Ne, candidates, flatMap_eq_nil_iff, not_forall]
  constructor
  · rintro ⟨x, hx⟩
    rw [Classical.not_imp] at hx
    refine ⟨x, hx.1, ?_⟩
    by_contra hnot
    refine hx.2 ?_
    simp only [hits, Bool.or_eq_true, Bool.and_eq_true, beq_iff_eq, not_or, bne_iff_ne, ne_eq, not_and,
      Classical.not_not] at hnot
    have hs : found x.2 x.1 .blockSuffix = none := by simp [found, hnot.1]
    rw [hs]
    by_cases hend : x.1 = len
    · have he : found x.2 x.1 .blockExact = none := by simp [found, hnot.2 hend]
      simp [he]
    · simp [hend]
  · rintro ⟨x, hx, hhit⟩
    refine ⟨x, Classical.not_imp.mpr ⟨hx, fun hnil => ?_⟩⟩
    simp only [hits, ← found_isSome x.2 x.1, Bool.or_eq_true, Bool.and_eq_true, beq_iff_eq] at hhit
    rw [append_eq_nil_iff] at hnil
    rcases hhit with hs | ⟨hend, hs⟩
    · obtain ⟨m, hm⟩ := Option.isSome_iff_exists.mp hs
      rw [hm] at hnil
      cases hnil.1
    · obtain ⟨m, hm⟩ := Option.isSome_iff_exists.mp hs
      rw [if_pos hend, hm] at hnil
      cases hnil.2

/-- What `blockMatch` returns: the first in rank of the kept rules that apply, unless the name is
allowed. -/
theorem blockMatch_least {S sha256 env limits} {ix : Index} {name : Name}
    (hbuild : buildIndex S sha256 env limits localSlots classes added = .ok ix) (hname : name.encodedLen ≤ 254) :
    ∃ (b : Builder) (m : Option Match), b.localSlots = localSlots ∧ b.classes = classes ∧
      (∀ rule ∈ added.map Added.rule, Spellable rule.labels) ∧ ix.blockMatch name localSlots = .ok m ∧
      (m.isSome = true ↔ ¬ Allowed added name ∧ Blocked added name) ∧
      ∀ x ∈ m, ∃ r, x = r.asMatch ∧
        Least b.localSlots (fun r => IsKept b (added.map Added.rule) r ∧ Applies (nameLabels name) r) r := by
  obtain ⟨b, c, out, t, rfl, rfl, -, hb, -, -, hi, hf⟩ := buildIndex_ok hbuild
  have hlen := (frame_nameLabels_length name).trans_le hname
  obtain ⟨hasc, hle⟩ := visits_ascend hi.ordered (frame (nameLabels name))
  refine ⟨b, blockFold b.localSlots (frame (nameLabels name)).length (t.visits 0 (frame (nameLabels name))) none, rfl, rfl,
    hb.spellable, hi.blockMatch hname _, ?_, ?_⟩
  all_goals rw [blockFold_eq hasc hle]
  · have hallow := (visits_hit (Pair.allow b _) hf hi.ordered hb.spellable (short_of_name hname)).trans matches_iff.symm
    have hblock := (visits_hit (Pair.block b _) hf hi.ordered hb.spellable (short_of_name hname)).trans matches_iff.symm
    split
    · next h =>
      refine ⟨fun hs => ?_, fun hn => absurd (hallow.mp h) hn.1⟩
      cases hs
    · next h =>
      exact (least_isSome.trans candidates_ne_nil).trans
        ⟨fun hb => ⟨fun ha => h (hallow.mpr ha), hblock.mp hb⟩, fun hb => hblock.mpr hb.2⟩
  · intro x hx
    split at hx
    · cases hx
    obtain ⟨hmem, hmin⟩ := least_some hx
    obtain ⟨r, hkept, happ, rfl⟩ := (mem_candidates hf hi.ordered hlen).mp hmem
    exact ⟨r, rfl, ⟨hkept, happ⟩, fun r' hr' => hmin _ ((mem_candidates hf hi.ordered hlen).mpr ⟨r', hr'.1, hr'.2, rfl⟩)⟩

/-- **The index finds a block rule exactly for blocked names, and one that
answers like the winner of the documented ranking.** -/
theorem blockMatch_eq_winner {S : UnstableSort} {sha256 : Bytes → Digest} {env : Env} {limits : Limits}
    {localSlots : Nat} {classes : List Nat} {added : List Added} {ix : Index} {name : Name}
    (hbuild : buildIndex S sha256 env limits localSlots classes added = .ok ix) (hname : name.encodedLen ≤ 254)
    (hclasses : Assigns classes added) :
    ∃ m, ix.blockMatch name localSlots = .ok m ∧
      (m.isSome = true ↔ ¬ Allowed added name ∧ Blocked added name) ∧
      ∀ x ∈ m, ∃ w, winner localSlots added name = some w ∧
        classOf classes x.sourceSlot = classOf classes w.slot.toNat := by
  obtain ⟨b, m, rfl, rfl, hrules, hmatch, hsome, hleast⟩ := blockMatch_least hbuild hname
  refine ⟨m, hmatch, hsome, fun x hx => ?_⟩
  obtain ⟨r, rfl, hr⟩ := hleast x hx
  obtain ⟨hkept, happ⟩ := hr.1
  obtain ⟨am, ham, hrule⟩ := mem_map.mp hkept.mem
  have hsome : (winner b.localSlots added name).isSome = true := by
    rw [winner, least_isSome]
    exact ne_nil_of_mem (mem_filter.mpr ⟨ham, blocks_iff.mpr (hrule ▸ happ)⟩)
  obtain ⟨w, hw⟩ := Option.isSome_iff_exists.mp hsome
  obtain ⟨hwmem, hwleast⟩ := winner_least hw
  refine ⟨w, hw, ?_⟩
  cases hu : uniform b.classes with
  | true =>
    have := uniform_classOf hu hclasses ham hwmem
    rw [← hrule]
    exact this
  | false => exact same_class hu (fun r hr => (hrules r hr).ne) hwleast hr

/-- The local `com` answers for `x.b.com`, not the subscription's longer `b.com`. -/
theorem blockMatch_eq_winner_sample :
    ∃ ix x, buildIndex .insertion (fun _ => sampleDigest) quietEnv ⟨1000, 1000000, 0⟩ 1 [0, 1] sampleRules = .ok ix ∧
      ix.blockMatch ⟨[[120], [98], [99, 111, 109]], true⟩ 1 = .ok (some x) ∧ classOf [0, 1] x.sourceSlot = 0 := by
  obtain ⟨ix, hix⟩ := sample_builds
  obtain ⟨m, hm, hsome, hclass⟩ :=
    @blockMatch_eq_winner _ _ _ _ _ _ _ _ ⟨[[120], [98], [99, 111, 109]], true⟩ hix (by decide) (by decide)
  obtain ⟨x, rfl⟩ := Option.isSome_iff_exists.mp (hsome.mpr (by decide))
  obtain ⟨w, hw, hx⟩ := hclass x rfl
  have hwinner : (winner 1 sampleRules ⟨[[120], [98], [99, 111, 109]], true⟩).map (·.slot) = some 0 := by decide
  have hslot : w.slot = 0 := by rw [hw] at hwinner; exact Option.some.inj hwinner
  refine ⟨ix, x, hix, hm, ?_⟩
  rw [hx, hslot]
  rfl

end Parins.Policy
