/-
`prepare_with_check` as a whole: the sorted records fall into the four groups,
and the canonical form holds, for each group, the rules `kept` keeps of all the
rules that were added (`prepare_safe`).
-/
import Mathlib.Data.List.TakeWhile
import Parins.Policy.Pruning

namespace Parins.Policy

open Lib List

/-- The rule a builder keeps for a group at a name, out of all added rules. -/
def kept (b : Builder) (rules : List Rule) : Group → List Label → Option Nat
  | .allowSuffix => keptSuffix (b.covers .allowSuffix) (first rules .allowSuffix)
  | .allowExact => keptExact (b.covers .allowExact) (first rules .allowSuffix) (first rules .allowExact)
  | .blockSuffix => keptSuffix (b.covers .blockSuffix) (first rules .blockSuffix)
  | .blockExact => keptExact (b.covers .blockExact) (first rules .blockSuffix) (first rules .blockExact)

/-! ## The order of records -/

theorem Group.index_inj {g g' : Group} (h : g.index = g'.index) : g = g' := by
  cases g <;> cases g' <;> first | rfl | cases h

instance (arena : Bytes) : Std.TransCmp (recordCmp arena) :=
  inferInstanceAs (Std.TransCmp (compareLex _ (compareLex _ _)))

theorem recordCmp_group {arena} {a b : Record} (h : (recordCmp arena a b).isLE = true) :
    a.group.index ≤ b.group.index := by
  simp only [recordCmp, compareLex, compareOn] at h
  exact Nat.isLE_compare.mp (Ordering.isLE_left_of_isLE_then h)

theorem recordCmp_key {arena} {a b : Record} (hg : a.group = b.group) (h : (recordCmp arena a b).isLE = true) :
    (compare (key arena a.entry) (key arena b.entry)).isLE = true ∧
      (key arena a.entry = key arena b.entry → a.entry.sourceSlot ≤ b.entry.sourceSlot) := by
  simp only [recordCmp, compareLex, compareOn, hg, Std.ReflOrd.compare_self, Ordering.eq_then] at h
  refine ⟨Ordering.isLE_left_of_isLE_then h, fun heq => ?_⟩
  simp only [heq, Std.ReflOrd.compare_self, Ordering.eq_then] at h
  exact Nat.isLE_compare.mp h

/-! ## The groups of the sorted records -/

theorem pruneGroup_safe {env b g suffixes} {P : PruneState → Prop} {rest : List Record}
    (hrest : ∀ r ∈ rest.head?, r.group ≠ g) :
    ∀ {seg : List Record} {read st}, (∀ r ∈ seg, r.group = g) → Safe (seg.foldlM (pruneStep b g suffixes) st) P →
      Safe (pruneGroup env b g suffixes read (seg ++ rest) st) fun out => out.2.2 = rest ∧ ∃ st', P st' ∧ out.1 = st'.kept
  | [], read, st, _, h => by
    cases rest with
    | nil => exact ⟨rfl, st, h, rfl⟩
    | cons r rest =>
      rw [nil_append, pruneGroup, if_neg (hrest r rfl)]
      exact ⟨rfl, st, h, rfl⟩
  | r :: seg, read, st, hseg, h => by
    obtain ⟨hg, hseg⟩ := forall_mem_cons.mp hseg
    rw [cons_append, pruneGroup, if_pos hg]
    refine env.when_safe ?_
    rw [foldlM_cons] at h
    cases hs : pruneStep b g suffixes st r with
    | ok st1 =>
      rw [hs] at h
      exact pruneGroup_safe hrest hseg h
    | error e =>
      rw [hs] at h
      match e, h with
      | .error _, _ => trivial

theorem later_groups {arena} {g : Group} {seg rest : List Record}
    (hs : (seg ++ rest).Pairwise fun a b => (recordCmp arena a b).isLE = true)
    (hge : ∀ r ∈ seg ++ rest, g.index ≤ r.group.index) (hrest : ∀ r ∈ rest.head?, r.group ≠ g) :
    ∀ r ∈ rest, g.index + 1 ≤ r.group.index := by
  cases rest with
  | nil => simp
  | cons x rest =>
    have hx : g.index + 1 ≤ x.group.index := by
      have hle := hge x (by simp)
      have hne : g.index ≠ x.group.index := fun heq => hrest x (by simp) (Group.index_inj heq.symm)
      omega
    intro r hr
    rcases mem_cons.mp hr with rfl | hr
    · exact hx
    · have := recordCmp_group ((pairwise_cons.mp (pairwise_append.mp hs).2.1).1 r hr)
      omega

theorem segment_of_group {arena} {records seg : List Record} {rules g}
    (hsp : Spelled arena records rules) (hsub : seg.Sublist records)
    (hs : records.Pairwise fun a b => (recordCmp arena a b).isLE = true) (hseg : ∀ r ∈ seg, r.group = g)
    (hall : ∀ r ∈ records, r.group = g → r ∈ seg) : ∃ lab, Segment arena g (first rules g) lab seg := by
  have hlab : ∀ r : Record, ∃ ks, r ∈ seg → Spells arena r ⟨ks, g, r.entry.sourceSlot⟩ ∧
      ⟨ks, g, r.entry.sourceSlot⟩ ∈ rules := by
    intro r
    by_cases hr : r ∈ seg
    · obtain ⟨⟨ks, g', s⟩, hrule, hspell⟩ := hsp.sound r (hsub.subset hr)
      obtain rfl : g = g' := (hseg r hr).symm.trans hspell.group
      obtain rfl : r.entry.sourceSlot = s := hspell.slot
      exact ⟨ks, fun _ => ⟨hspell, hrule⟩⟩
    · exact ⟨[], fun h => absurd h hr⟩
  choose lab hlab using hlab
  refine ⟨lab, fun r hr => (hlab r hr).1, ?_, ?_, ?_, ?_⟩
  · intro ks s hf
    obtain ⟨r, hr, hspell⟩ := hsp.complete _ (first_some hf).1
    have hr' : r ∈ seg := hall r hr hspell.group
    have hkey := (hlab r hr').1.key
    rw [hspell.key] at hkey
    have := frame_injective hspell.labels.short (hlab r hr').1.labels.short hkey
    exact ⟨r, hr', this.symm, hspell.slot⟩
  · intro r hr
    cases hf : first rules g (lab r) with
    | none => exact absurd (hlab r hr).2 (first_none hf _)
    | some s => exact ⟨s, (first_some hf).2 _ (hlab r hr).2, rfl⟩
  · refine (hs.sublist hsub).imp_of_mem fun {a b} ha hb hab => ?_
    exact (recordCmp_key ((hseg a ha).trans (hseg b hb).symm) hab).1
  · refine (hs.sublist hsub).imp_of_mem fun {a b} ha hb hab => ?_
    exact (recordCmp_key ((hseg a ha).trans (hseg b hb).symm) hab).2

/-- One group's loop, in the sorted records: `pre` holds the earlier groups. -/
theorem pruneGroup_segment {env} {b : Builder} {g : Group} {suffixes pre records rules read} {Q : List Record → Prop}
    (hprune : ∀ {seg lab}, Segment b.arena.items g (first rules g) lab seg →
      Safe (seg.foldlM (pruneStep b g suffixes) .start) fun st' => Q st'.kept ∧ st'.kept.Sublist seg)
    (hsp : Spelled b.arena.items (pre ++ records) rules)
    (hs : (pre ++ records).Pairwise fun x y => (recordCmp b.arena.items x y).isLE = true)
    (hpre : ∀ r ∈ pre, r.group.index < g.index) (hge : ∀ r ∈ records, g.index ≤ r.group.index) :
    Safe (pruneGroup env b g suffixes read records .start) fun out => ∃ seg, records = seg ++ out.2.2 ∧
      (∀ r ∈ pre ++ seg, r.group.index < g.index + 1) ∧ (∀ r ∈ out.2.2, g.index + 1 ≤ r.group.index) ∧
      Q out.1 ∧ out.1.Sublist seg := by
  obtain ⟨seg, rest, rfl, hseg, hhead⟩ : ∃ seg rest, records = seg ++ rest ∧ (∀ r ∈ seg, r.group = g) ∧
      ∀ r ∈ rest.head?, r.group ≠ g := by
    refine ⟨_, _, (takeWhile_append_dropWhile (p := fun r : Record => decide (r.group = g))).symm, fun r hr => ?_,
      fun r hr => ?_⟩
    · simpa using mem_takeWhile_imp hr
    · have := List.head?_dropWhile_not (fun r : Record => decide (r.group = g)) records
      rw [Option.mem_def.mp hr] at this
      simpa using this
  have hrest := later_groups (pairwise_append.mp hs).2.1 hge hhead
  have hsub : seg.Sublist (pre ++ (seg ++ rest)) :=
    (sublist_append_left seg rest).trans (sublist_append_right pre _)
  obtain ⟨lab, hsegment⟩ := segment_of_group hsp hsub hs hseg (by
    intro r hr hg
    rcases mem_append.mp hr with hr | hr
    · have := hpre r hr
      rw [hg] at this
      omega
    rcases mem_append.mp hr with hr | hr
    · exact hr
    · have := hrest r hr
      rw [hg] at this
      omega)
  refine (pruneGroup_safe hhead hseg (hprune hsegment)).mono ?_
  rintro ⟨_, _, _⟩ ⟨rfl, st', ⟨hQ, hkept⟩, rfl⟩
  refine ⟨seg, rfl, fun r hr => ?_, hrest, hQ, hkept⟩
  rcases mem_append.mp hr with hr | hr
  · have := hpre r hr
    omega
  · rw [hseg r hr]
    omega

/-- What `prepare_with_check` returns: for each group the kept rules. -/
structure Prepared (sha256 : Bytes → Digest) (b : Builder) (rules : List Rule) (c : Canonical)
    (out : Group → List Record) : Prop where
  arena : c.arena = b.arena.items
  inputRules : c.inputRules = b.records.items.length
  records : c.records = out .allowSuffix ++ out .allowExact ++ out .blockSuffix ++ out .blockExact
  digest : c.semanticDigest = sha256 (semanticBytes b.arena.items
    [(0, out .allowSuffix), (1, out .allowExact), (2, out .blockSuffix), (3, out .blockExact)])
  pruned : ∀ g, Pruned b.arena.items g (kept b rules g) (out g)
  sub : c.records.Subperm b.records.items

theorem prepare_safe {S sha256 env} {b : Builder} {rules} (hb : b.Wf rules) :
    Safe (b.prepareWithCheck S sha256 env) fun c => ∃ out, Prepared sha256 b rules c out := by
  simp only [Builder.prepareWithCheck, hb.failed]
  refine (env.run_safe _).bind fun _ _ => (env.run_safe _).bind fun _ _ => ?_
  have hsp := hb.spelled.perm (S.perm (recordCmp b.arena.items) b.records.items)
  have hs := S.sorted (recordCmp b.arena.items) b.records.items
  have hperm := S.perm (recordCmp b.arena.items) b.records.items
  generalize S.sort (recordCmp b.arena.items) b.records.items = records at hsp hs hperm ⊢
  refine (@pruneGroup_segment env b .allowSuffix [] [] _ rules 0 _ (prune_suffix rfl) hsp hs (by simp)
    fun _ _ => Nat.zero_le _).bind ?_
  rintro ⟨r0, read0, rest0⟩ ⟨seg0, rfl, hlt0, hge0, hp0, hsub0⟩
  rw [nil_append] at hlt0
  refine (pruneGroup_segment (g := .allowExact) (prune_exact rfl hp0) hsp hs hlt0 hge0).bind ?_
  rintro ⟨r1, read1, rest1⟩ ⟨seg1, rfl, hlt1, hge1, hp1, hsub1⟩
  rw [← append_assoc] at hsp hs hperm
  refine (pruneGroup_segment (g := .blockSuffix) (prune_suffix rfl) hsp hs hlt1 hge1).bind ?_
  rintro ⟨r2, read2, rest2⟩ ⟨seg2, rfl, hlt2, hge2, hp2, hsub2⟩
  rw [← append_assoc] at hsp hs hperm
  refine (pruneGroup_segment (g := .blockExact) (prune_exact rfl hp2) hsp hs hlt2 hge2).bind ?_
  rintro ⟨r3, read3, rest3⟩ ⟨seg3, rfl, hlt3, hge3, hp3, hsub3⟩
  refine (env.run_safe _).bind fun _ _ => ⟨fun
    | .allowSuffix => r0
    | .allowExact => r1
    | .blockSuffix => r2
    | .blockExact => r3, rfl, rfl, rfl, rfl, ?_, ?_⟩
  · intro g
    cases g
    · exact hp0
    · exact hp1
    · exact hp2
    · exact hp3
  · refine List.Sublist.subperm ?_ |>.trans hperm.subperm
    have hsub := ((hsub0.append hsub1).append hsub2).append hsub3
    refine hsub.trans ?_
    rw [← append_assoc _ seg3]
    exact sublist_append_left _ _

end Parins.Policy
