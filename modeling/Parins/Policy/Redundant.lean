/-
What `walk` tests at a node, against what the builder keeps there.

The walk knows slots only: it refuses a rule whose slot is that of the nearest
block suffix strictly above it, and an exact rule whose slot is that of the
suffix rule of its own name. The builder drops a rule that the slot in charge
covers. The two differ in one place: below an exact rule with a kept suffix rule
of its own name, the slot in charge is that of the suffix rule, and the walk
still compares with the one above (`repeats`, `sources_ok_iff`).
-/
import Parins.Policy.Walk
import Parins.Policy.BlockMatch

namespace Parins.Policy

open Lib Lib.Radix List

/-! ## Keys -/

theorem validateLabels_frame : ∀ {ks : List Label} {fuel}, (∀ l ∈ ks, canonicalLabel l = true) →
    ks.length ≤ fuel → validateLabels fuel (frame ks) = .ok ()
  | [], fuel, _, _ => by cases fuel <;> rfl
  | l :: ks, 0, _, h => by simp at h
  | l :: ks, fuel + 1, hl, h => by
    have hlabel := hl l (by simp)
    simp only [canonicalLabel, Bool.and_eq_true, Bool.not_eq_true', isEmpty_eq_false_iff, decide_eq_true_eq] at hlabel
    obtain ⟨⟨hne, hlen⟩, hbytes⟩ := hlabel
    have hpos := length_pos_iff.mpr hne
    have hnat : (UInt8.ofNat l.length).toNat = l.length := by
      simp only [UInt8.toNat_ofNat']
      omega
    have hrange : (decide (1 ≤ UInt8.ofNat l.length) && decide (UInt8.ofNat l.length ≤ 63)) = true := by
      simp only [Bool.and_eq_true, decide_eq_true_eq, UInt8.le_iff_toNat_le, hnat]
      exact ⟨hpos, hlen⟩
    rw [frame_cons, validateLabels, ensure_of hrange, ok_bind, hnat, if_neg (by simp), take_left,
      ensure_of hbytes, ok_bind, drop_left]
    exact validateLabels_frame (fun l' h' => hl l' (by simp [h'])) (by simpa using h)

theorem validateKey_frame {ks} (h : Spellable ks) : validateKey (frame ks) = .ok () := by
  have hlen : ks.length ≤ (frame ks).length := by
    rw [length_frame]
    have : ∀ l : List Label, l.length ≤ (l.map fun w => 1 + w.length).sum := by
      intro l
      induction l with
      | nil => simp
      | cons w l ih => simp only [map_cons, sum_cons, length_cons]; omega
    exact this ks
  have hne : (frame ks).isEmpty = false := by
    obtain ⟨l, ks', rfl⟩ := exists_cons_of_ne_nil h.ne
    rfl
  rw [validateKey, ensure_of (by rw [hne]; rfl), ok_bind]
  exact validateLabels_frame h.labels hlen

/-! ## One node -/

theorem checkSource_ok {n suffixes cover} {v : Sources} {g : Group} :
    checkSource n suffixes cover v g = .ok () ↔ v.get g = noSlot ∨ (v.get g < n ∧
      (g.index < 2 → suffixes &&& 1 = 0 ∧ (g.index = 0 ∨ v.get .allowSuffix = noSlot)) ∧
      (¬ g.index < 2 → cover ≠ v.get g ∧ (g.index = 2 ∨ v.get .blockSuffix ≠ v.get g))) := by
  have hensure : ∀ {c : Bool} {text : String}, ensure c text = .ok () ↔ c = true := by
    intro c text
    cases c <;> simp [ensure]
  simp only [checkSource, bind_eq_ok, exists_unit, hensure, Bool.or_eq_true, beq_iff_eq, decide_eq_true_eq]
  by_cases hv : v.get g = noSlot
  · simp [hv, pure, Except.pure]
  · by_cases hg : g.index < 2
    · simp [hv, hg, bind_eq_ok, hensure]
    · simp [hv, hg, bind_eq_ok, hensure]

theorem forM_groups_ok {f : Group → Except DiskFault Unit} : Group.all.forM f = .ok () ↔ ∀ g, f g = .ok () := by
  have : Group.all.forM f = .ok () ↔ f .allowSuffix = .ok () ∧ f .allowExact = .ok () ∧ f .blockSuffix = .ok () ∧
      f .blockExact = .ok () := by
    simp [Group.all, bind_eq_ok, exists_unit, pure, Except.pure]
  rw [this]
  constructor
  · rintro ⟨h0, h1, h2, h3⟩ g
    cases g <;> assumption
  · exact fun h => ⟨h _, h _, h _, h _⟩

/-! ## What is passed down -/

theorem suffixesBelow_and_one (n) (v : Sources) :
    suffixesBelow n v &&& 1 = 0 ↔ n &&& 1 = 0 ∧ v.get .allowSuffix = noSlot := by
  have hbit : ∀ x : Nat, x &&& 1 = 0 ↔ x.testBit 0 = false := fun x => by simp [Nat.and_one_is_mod]
  rw [hbit, hbit, suffixesBelow, Nat.testBit_or, Nat.testBit_or, Nat.testBit_shiftLeft]
  by_cases ha : v.get .allowSuffix = noSlot <;> simp [ha]

theorem below_suffixes {vs : List Sources} {a : Above} :
    (vs.foldl Above.below a).suffixes &&& 1 = 0 ↔ a.suffixes &&& 1 = 0 ∧ ∀ v ∈ vs, v.get .allowSuffix = noSlot := by
  induction vs generalizing a with
  | nil => simp
  | cons v vs ih =>
    rw [foldl_cons, ih, Above.below, suffixesBelow_and_one]
    simp [and_assoc]

theorem below_blockSuffix {vs : List Sources} {a : Above} (h : ∀ v ∈ vs, v.get .blockSuffix = noSlot) :
    (vs.foldl Above.below a).blockSuffix = a.blockSuffix := by
  induction vs generalizing a with
  | nil => rfl
  | cons v vs ih =>
    rw [foldl_cons, ih fun w hw => h w (by simp [hw])]
    simp [Above.below, blockSuffixBelow, h v (by simp)]

theorem prefix_dropLast_iff {α : Type} {p ks : List α} (h : ks ≠ []) : p <+: ks.dropLast ↔ p <+: ks ∧ p ≠ ks := by
  have hpos := length_pos_iff.mpr h
  constructor
  · intro hp
    have hlen := hp.length_le
    rw [length_dropLast] at hlen
    refine ⟨hp.trans (List.dropLast_prefix ks), fun heq => ?_⟩
    rw [heq] at hlen
    omega
  · rintro ⟨hp, hne⟩
    refine prefix_of_prefix_length_le hp (List.dropLast_prefix ks) ?_
    have hlen := hp.length_le
    have : p.length ≠ ks.length := fun heq => hne (hp.eq_of_length heq)
    rw [length_dropLast]
    omega

section Path

variable {b : Builder} {rules : List Rule} {t : Trie UInt8 Sources} {ks : List Label} {v : Sources} {a : Above}
  {path : List (Nat × Sources)}

theorem mem_path_iff (hf : Filters b rules t) (ho : t.Ordered) (hks : Spellable ks)
    (hpath : t.visits 0 (frame ks) = path ++ [((frame ks).length, v)]) {g n s} (hs : s ≠ noSlot) :
    (∃ w, (n, w) ∈ path ∧ w.get g = s) ↔
      ∃ p, p <+: ks.dropLast ∧ kept b rules g p = some s ∧ n = (frame p).length := by
  have hasc := (visits_ascend ho (frame ks)).1
  rw [hpath] at hasc
  have hlast := (pairwise_append.mp hasc).2.2
  constructor
  · rintro ⟨w, hw, hget⟩
    have hlt : n < (frame ks).length := hlast (n, w) hw _ (mem_singleton.mpr rfl)
    obtain ⟨k, hk, hpre, rfl⟩ := (visits_mem ho).mp (hpath ▸ mem_append_left _ hw)
    obtain ⟨p, rfl, hsp, hkept⟩ := hf.slots hk hs hget
    refine ⟨p, (prefix_dropLast_iff hks.ne).mpr ⟨(frame_prefix_iff hsp.short hks.short).mp hpre, ?_⟩, hkept, rfl⟩
    rintro rfl
    exact Nat.lt_irrefl _ hlt
  · rintro ⟨p, hp, hkept, rfl⟩
    obtain ⟨hpre, hne⟩ := (prefix_dropLast_iff hks.ne).mp hp
    obtain ⟨hsp, -, w, hw, hget⟩ := hf.covers hkept
    have hmem : ((frame p).length, w) ∈ t.visits 0 (frame ks) :=
      (visits_mem ho).mpr ⟨_, hw, (frame_prefix_iff hsp.short hks.short).mpr hpre, rfl⟩
    rw [hpath, mem_append] at hmem
    refine ⟨w, hmem.resolve_right fun hend => hne ?_, hget⟩
    have hlen := congrArg Prod.fst (mem_singleton.mp hend)
    have hframe := (frame_prefix_iff hsp.short hks.short).mpr hpre
    exact frame_injective hsp.short hks.short (hframe.eq_of_length hlen)

/-- What the walk knows above a name: whether an allow suffix is in charge
there, and which block suffix is. -/
theorem above_spec (hf : Filters b rules t) (ho : t.Ordered) (hks : Spellable ks)
    (h : (frame ks, v, a) ∈ t.inherited Above.below Above.top []) :
    (effective (b.covers .allowSuffix) (first rules .allowSuffix) ks.dropLast = none → a.suffixes &&& 1 = 0) ∧
      a.blockSuffix = (effective (b.covers .blockSuffix) (first rules .blockSuffix) ks.dropLast).getD noSlot := by
  obtain ⟨path, hpath, rfl⟩ := Trie.inherited_path t ho h
  rw [length_nil, drop_zero] at hpath
  have hmem := fun g => @mem_path_iff b rules t ks v path hf ho hks hpath g
  refine ⟨fun hnone => ?_, ?_⟩
  · rw [below_suffixes, forall_mem_map]
    refine ⟨rfl, fun x hx => ?_⟩
    by_contra hget
    obtain ⟨p, hp, hkept, -⟩ := (hmem .allowSuffix hget).mp ⟨x.2, hx, rfl⟩
    have := effective_none hnone p hp
    rw [show keptSuffix _ _ p = some _ from hkept] at this
    cases this
  · cases heff : effective (b.covers .blockSuffix) (first rules .blockSuffix) ks.dropLast with
    | none =>
      refine below_blockSuffix fun w hw => ?_
      obtain ⟨x, hx, rfl⟩ := mem_map.mp hw
      by_contra hget
      obtain ⟨p, hp, hkept, -⟩ := (hmem .blockSuffix hget).mp ⟨x.2, hx, rfl⟩
      have := effective_none heff p hp
      rw [show keptSuffix _ _ p = some _ from hkept] at this
      cases this
    | some s =>
      obtain ⟨p, hp, hkept, hmax⟩ := effective_some heff
      have hcovers := @Filters.covers b rules t hf .blockSuffix p s hkept
      have hlt := hcovers.2.1
      obtain ⟨w, hw, rfl⟩ := (hmem .blockSuffix (Nat.ne_of_lt hlt)).mpr ⟨p, hp, hkept, rfl⟩
      obtain ⟨l, r, rfl⟩ := append_of_mem hw
      have hasc := (visits_ascend ho (frame ks)).1
      rw [hpath] at hasc
      have hafter := (pairwise_append.mp (pairwise_append.mp hasc).1).2.1
      rw [map_append, foldl_append, map_cons, foldl_cons, below_blockSuffix]
      · simp [Above.below, blockSuffixBelow, Nat.ne_of_lt hlt]
      · -- A kept suffix after the one in charge would be longer.
        intro w' hw'
        obtain ⟨x, hx, rfl⟩ := mem_map.mp hw'
        by_contra hget
        obtain ⟨p', hp', hkept', hlen⟩ := (hmem .blockSuffix hget).mp
          ⟨x.2, mem_append_right _ (mem_cons_of_mem _ hx), rfl⟩
        have hpre := hmax p' hp' (by rw [show keptSuffix _ _ p' = some _ from hkept']; rfl)
        have hsp' := (@Filters.covers b rules t hf .blockSuffix p' _ hkept').1
        have hle := ((frame_prefix_iff hsp'.short hcovers.1.short).mpr hpre).length_le
        have hgt : (frame p).length < x.1 := (pairwise_cons.mp hafter).1 x hx
        omega

theorem kept_eq (hf : Filters b rules t) (ho : t.Ordered) (hks : Spellable ks) (h : (frame ks, v) ∈ t.entries [])
    (g) : kept b rules g ks = if v.get g = noSlot then none else some (v.get g) := by
  cases hkept : kept b rules g ks with
  | some s =>
    obtain ⟨-, hlt, w, hw, hget⟩ := hf.covers hkept
    have hsorted := Trie.entries_sorted t [] ho
    have hvw : w = v := by
      by_contra hne
      have hsym : Std.Symm fun x y : Bytes × Sources => x.1 ≠ y.1 := ⟨fun _ _ h => h.symm⟩
      have hdistinct : (t.entries []).Pairwise fun x y => x.1 ≠ y.1 := hsorted.imp fun {x y} hxy heq => by
        rw [heq, Std.ReflOrd.compare_self] at hxy
        cases hxy
      exact hdistinct.forall hw h (fun heq => hne (congrArg Prod.snd heq)) rfl
    rw [← hvw, hget, if_neg (Nat.ne_of_lt hlt)]
  | none =>
    split
    · rfl
    · next hget =>
      obtain ⟨ks', hframe, hsp, hkept'⟩ := hf.slots h hget rfl
      rw [frame_injective hks.short hsp.short hframe, hkept'] at hkept
      cases hkept

end Path

/-! ## Where walk and builder differ -/

/-- Whether a kept block suffix of slot `cover` makes a block rule of slot `slot`
redundant below it. -/
def blockCovers (localSlots : Nat) (classes : List Nat) (cover slot : Nat) : Bool :=
  uniform classes || (decide (cover < localSlots) && !decide (slot < localSlots)) ||
    (classOf classes cover == classOf classes slot && decide (cover < localSlots) == decide (slot < localSlots))

/-- An exact rule has the slot in charge above its name, and the suffix rule of
its own name stands between the two: neither covers the other. -/
def repeats (localSlots : Nat) (classes : List Nat) (rules : List Rule) (ks : List Label) : Bool :=
  match first rules .blockExact ks, first rules .blockSuffix ks with
  | some exact, some suffix =>
    effective (blockCovers localSlots classes) (first rules .blockSuffix) ks.dropLast == some exact &&
      !blockCovers localSlots classes exact suffix && !blockCovers localSlots classes suffix exact
  | _, _ => false

theorem Builder.covers_block (b : Builder) : b.covers .blockSuffix = blockCovers b.localSlots b.classes := rfl

theorem blockCovers_self (localSlots classes s) : blockCovers localSlots classes s s = true := by
  simp [blockCovers]

theorem effective_eq {covers rule} {ks : List Label} (h : ks ≠ []) :
    effective covers rule ks = (keptSuffix covers rule ks).or (effective covers rule ks.dropLast) := by
  have := @effective_append_kept covers rule ks.dropLast (ks.getLast h)
  rwa [dropLast_append_getLast] at this

section Repeats

variable {b : Builder} {rules : List Rule} {ks : List Label}

theorem keptSuffix_some {covers rule s} : keptSuffix covers rule ks = some s ↔
      rule ks = some s ∧ ks ≠ [] ∧ ∀ c ∈ effective covers rule ks.dropLast, covers c s = false := by
  simp [keptSuffix, Option.filter_eq_some_iff, Option.any_eq_false]

theorem keptExact_some {covers rule exact s} : keptExact covers rule exact ks = some s ↔
      exact ks = some s ∧ ∀ c ∈ effective covers rule ks, covers c s = false := by
  simp [keptExact, Option.filter_eq_some_iff, Option.any_eq_false]

theorem repeats_iff (hne : ks ≠ []) : repeats b.localSlots b.classes rules ks = true ↔
    ∃ s u, kept b rules .blockExact ks = some s ∧ kept b rules .blockSuffix ks = some u ∧
      effective (b.covers .blockSuffix) (first rules .blockSuffix) ks.dropLast = some s := by
  have hcovers : b.covers .blockExact = b.covers .blockSuffix := rfl
  simp only [kept, keptExact_some, keptSuffix_some, hcovers, effective_eq hne, ← Builder.covers_block, repeats]
  constructor
  · intro h
    split at h
    · next exact suffix hexact hsuffix =>
      simp only [Bool.and_eq_true, beq_iff_eq, Bool.not_eq_true'] at h
      obtain ⟨⟨heff, hsu⟩, hus⟩ := h
      refine ⟨exact, suffix, ⟨hexact, ?_⟩, ⟨hsuffix, hne, ?_⟩, heff⟩
      · have hkept : keptSuffix (b.covers .blockSuffix) (first rules .blockSuffix) ks = some suffix :=
          keptSuffix_some.mpr ⟨hsuffix, hne, by simpa [heff] using hsu⟩
        simpa [hkept] using hus
      · simpa [heff] using hsu
    · cases h
  · rintro ⟨s, u, ⟨hexact, hcov⟩, ⟨hsuffix, -, hcov'⟩, heff⟩
    have hkept : keptSuffix (b.covers .blockSuffix) (first rules .blockSuffix) ks = some u :=
      keptSuffix_some.mpr ⟨hsuffix, hne, hcov'⟩
    have hsu := hcov' s (by rw [heff]; rfl)
    have hus := hcov u (by rw [hkept]; rfl)
    simp [hexact, hsuffix, heff, hsu, hus]

variable {t : Trie UInt8 Sources} {v : Sources} {a : Above} {n : Nat}

theorem getD_ne {o : Option Nat} {s} (hs : s ≠ noSlot) (h : ∀ c ∈ o, b.covers .blockSuffix c s = false) :
    o.getD noSlot ≠ s := by
  cases o with
  | none => exact hs.symm
  | some c =>
    rintro rfl
    have := h _ rfl
    rw [Builder.covers_block, Option.getD_some, blockCovers_self] at this
    cases this

/-- **A node passes unless it repeats the slot in charge above it.** -/
theorem sources_ok_iff (hf : Filters b rules t) (ho : t.Ordered) (hks : Spellable ks)
    (h : (frame ks, v, a) ∈ t.inherited Above.below Above.top []) (hslots : ∀ g, v.get g ≠ noSlot → v.get g < n) :
    Group.all.forM (checkSource n a.suffixes a.blockSuffix v) = .ok () ↔
      repeats b.localSlots b.classes rules ks = false := by
  obtain ⟨hallow, hblock⟩ := above_spec hf ho hks h
  have hkept := kept_eq hf ho hks (Trie.mem_of_inherited h)
  have hsome : ∀ g, v.get g ≠ noSlot → kept b rules g ks = some (v.get g) := fun g hg => by rw [hkept, if_neg hg]
  simp only [forM_groups_ok, checkSource_ok]
  constructor
  · intro hall
    by_contra hrep
    obtain ⟨s, u, hexact, -, heff⟩ := (repeats_iff hks.ne).mp (Bool.not_eq_false _ ▸ hrep)
    rw [hkept] at hexact
    split at hexact
    · cases hexact
    · next hlive =>
      obtain ⟨-, -, hdiff⟩ := (hall .blockExact).resolve_left hlive
      refine (hdiff (by decide)).1 ?_
      rw [hblock, heff]
      exact (Option.some.inj hexact).symm
  · intro hrep g
    by_cases hlive : v.get g = noSlot
    · exact .inl hlive
    refine .inr ⟨hslots g hlive, ?_⟩
    have hg := hsome g hlive
    cases g with
    | allowSuffix =>
      obtain ⟨-, -, hcov⟩ := keptSuffix_some.mp hg
      refine ⟨fun _ => ⟨hallow (Option.eq_none_iff_forall_not_mem.mpr fun c hc => ?_), .inl rfl⟩,
        fun hge => absurd (by decide) hge⟩
      cases hcov c hc
    | allowExact =>
      obtain ⟨-, hcov⟩ := keptExact_some.mp hg
      have hnone : effective (b.covers .allowSuffix) (first rules .allowSuffix) ks = none :=
        Option.eq_none_iff_forall_not_mem.mpr fun c hc => by cases hcov c hc
      rw [effective_eq hks.ne, Option.or_eq_none_iff] at hnone
      refine ⟨fun _ => ⟨hallow hnone.2, .inr ?_⟩, fun hge => absurd (by decide) hge⟩
      by_contra hsuffix
      have := hsome .allowSuffix hsuffix
      rw [show kept b rules .allowSuffix ks = none from hnone.1] at this
      cases this
    | blockSuffix =>
      obtain ⟨-, -, hcov⟩ := keptSuffix_some.mp hg
      refine ⟨fun hlt => absurd hlt (by decide), fun _ => ⟨?_, .inl rfl⟩⟩
      rw [hblock]
      exact getD_ne hlive hcov
    | blockExact =>
      obtain ⟨-, hcov⟩ := keptExact_some.mp hg
      rw [effective_eq hks.ne] at hcov
      refine ⟨fun hlt => absurd hlt (by decide), fun _ => ?_⟩
      rw [hblock]
      cases hsuffix : keptSuffix (b.covers .blockSuffix) (first rules .blockSuffix) ks with
      | none =>
        -- The slot in charge is the one above.
        rw [show b.covers .blockExact = b.covers .blockSuffix from rfl, hsuffix, Option.none_or] at hcov
        refine ⟨getD_ne hlive hcov, .inr fun heq => ?_⟩
        have := hsome .blockSuffix (heq ▸ hlive)
        rw [show kept b rules .blockSuffix ks = none from hsuffix] at this
        cases this
      | some u =>
        rw [show b.covers .blockExact = b.covers .blockSuffix from rfl, hsuffix, Option.some_or] at hcov
        have hu : v.get .blockSuffix = u := by
          have := hkept .blockSuffix
          rw [show kept b rules .blockSuffix ks = some u from hsuffix] at this
          split at this
          · cases this
          · exact (Option.some.inj this).symm
        refine ⟨fun heq => ?_, .inr (hu ▸ getD_ne hlive hcov)⟩
        -- Else the exact rule repeats the slot above.
        cases heff : effective (b.covers .blockSuffix) (first rules .blockSuffix) ks.dropLast with
        | none =>
          rw [heff] at heq
          exact hlive heq.symm
        | some c =>
          rw [heff, Option.getD_some] at heq
          subst heq
          rw [(repeats_iff hks.ne).mpr ⟨_, u, hg, hsuffix, heff⟩] at hrep
          cases hrep

/-- **Every node passes exactly when no name repeats a slot.** -/
theorem tree_ok_iff (hf : Filters b rules t) (ho : t.Ordered)
    (hslots : ∀ k v, (k, v) ∈ t.entries [] → ∀ g, v.get g ≠ noSlot → v.get g < n) :
    (∀ x ∈ t.inherited Above.below Above.top [],
      Group.all.forM (checkSource n x.2.2.suffixes x.2.2.blockSuffix x.2.1) = .ok ()) ↔
      ∀ ks, ks ≠ [] → repeats b.localSlots b.classes rules ks = false := by
  constructor
  · intro hall ks hne
    by_contra hrep
    obtain ⟨s, u, hexact, -, -⟩ := (repeats_iff hne).mp (Bool.not_eq_false _ ▸ hrep)
    obtain ⟨hks, -, v, hv, -⟩ := hf.covers hexact
    rw [← Trie.inherited_entries t Above.top []] at hv
    obtain ⟨⟨k, v', a⟩, hx, heq⟩ := mem_map.mp hv
    obtain ⟨rfl, rfl⟩ := Prod.mk.inj heq
    exact hrep ((sources_ok_iff hf ho hks hx (hslots _ _ (Trie.mem_of_inherited hx))).mp (hall _ hx))
  · rintro hrep ⟨k, v, a⟩ hx
    have hentry := Trie.mem_of_inherited hx
    by_cases hlive : v.live = true
    · obtain ⟨g, hg⟩ := Sources.live_iff.mp hlive
      obtain ⟨ks, rfl, hks, -⟩ := hf.slots hentry hg rfl
      exact (sources_ok_iff hf ho hks hx (hslots _ _ hentry)).mpr (hrep ks hks.ne)
    · refine forM_groups_ok.mpr fun g => checkSource_ok.mpr (.inl ?_)
      by_contra hg
      exact hlive (Sources.live_iff.mpr ⟨g, hg⟩)

end Repeats

end Parins.Policy
