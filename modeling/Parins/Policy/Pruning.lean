/-
The pruning pass keeps exactly the rules that are not covered where they stand.

Records of one group arrive sorted by key and slot (`Segment`). For suffix
groups the loop's stack holds the kept rules above the current key, longest
first (`SuffixInv`), so its top is the slot in charge (`effective`); exact
groups find the same slot by binary search at the label boundaries
(`longestCover_eq`). What a group keeps is then `keptSuffix` or `keptExact`,
one record a name, in key order (`Pruned`).
-/
import Mathlib.Data.List.Infix
import Parins.Policy.KeyFacts

namespace Parins.Policy

open Lib List

/-! ## A group of records -/

/-- The sorted records of one group, `lab` giving the labels of each. -/
structure Segment (arena : Bytes) (g : Group) (rule : List Label → Option Nat) (lab : Record → List Label)
    (seg : List Record) : Prop where
  spells : ∀ r ∈ seg, Spells arena r ⟨lab r, g, r.entry.sourceSlot⟩
  complete : ∀ {ks s}, rule ks = some s → ∃ r ∈ seg, lab r = ks ∧ r.entry.sourceSlot = s
  least : ∀ r ∈ seg, ∃ s, s ≤ r.entry.sourceSlot ∧ rule (lab r) = some s
  keys : seg.Pairwise fun a b => (compare (key arena a.entry) (key arena b.entry)).isLE = true
  slots : seg.Pairwise fun a b => key arena a.entry = key arena b.entry → a.entry.sourceSlot ≤ b.entry.sourceSlot

section Segment

variable {arena : Bytes} {g : Group} {rule : List Label → Option Nat} {lab : Record → List Label}
  {seg done todo : List Record} {r : Record}

theorem Segment.prefix_iff (h : Segment arena g rule lab seg) {a b : Record} (ha : a ∈ seg) (hb : b ∈ seg) :
    key arena a.entry <+: key arena b.entry ↔ lab a <+: lab b := by
  rw [(h.spells a ha).key, (h.spells b hb).key]
  exact frame_prefix_iff (h.spells a ha).labels.short (h.spells b hb).labels.short

theorem Segment.key_eq_iff (h : Segment arena g rule lab seg) {a b : Record} (ha : a ∈ seg) (hb : b ∈ seg) :
    key arena a.entry = key arena b.entry ↔ lab a = lab b := by
  rw [(h.spells a ha).key, (h.spells b hb).key]
  exact ⟨frame_injective (h.spells a ha).labels.short (h.spells b hb).labels.short, congrArg frame⟩

theorem Segment.mem (_ : Segment arena g rule lab (done ++ r :: todo)) :
    r ∈ done ++ r :: todo ∧ ∀ d ∈ done, d ∈ done ++ r :: todo :=
  ⟨by simp, fun d hd => mem_append_left _ hd⟩

section
variable (h : Segment arena g rule lab (done ++ r :: todo))
include h

theorem Segment.done_le {d : Record} (hd : d ∈ done) :
    (compare (key arena d.entry) (key arena r.entry)).isLE = true :=
  (pairwise_append.mp h.keys).2.2 d hd r (by simp)

theorem Segment.first_slot (hnew : ∀ d ∈ done, lab d ≠ lab r) :
    rule (lab r) = some r.entry.sourceSlot := by
  have hr : r ∈ done ++ r :: todo := by simp
  obtain ⟨s, hs, hrule⟩ := h.least r hr
  obtain ⟨r', hr', hlab, rfl⟩ := h.complete hrule
  rcases mem_append.mp hr' with hd | ht
  · exact absurd hlab (hnew r' hd)
  rcases mem_cons.mp ht with rfl | ht
  · exact hrule
  · have hslots := (pairwise_cons.mp (pairwise_append.mp h.slots).2.1).1 r' ht
    have hkey := (h.key_eq_iff hr hr').mpr hlab.symm
    rw [hrule, Nat.le_antisymm hs (hslots hkey)]

theorem Segment.before {p s} (hp : p <+: lab r) (hne : p ≠ lab r) (hrule : rule p = some s) :
    ∃ d ∈ done, lab d = p ∧ d.entry.sourceSlot = s := by
  have hr : r ∈ done ++ r :: todo := by simp
  obtain ⟨d, hd, rfl, hs⟩ := h.complete hrule
  refine ⟨d, ?_, rfl, hs⟩
  rcases mem_append.mp hd with hd' | ht
  · exact hd'
  rcases mem_cons.mp ht with rfl | ht
  · exact absurd rfl hne
  · -- A later record sorts after the current one, a prefix of it before.
    have hle := (pairwise_cons.mp (pairwise_append.mp h.keys).2.1).1 d ht
    have hge := compare_prefix_isLE ((h.prefix_iff hd hr).mpr hp)
    exact absurd ((h.key_eq_iff hd hr).mp (compare_isLE_antisymm hge hle)) hne

theorem Segment.le_last {d l : Record} (hl : done.getLast? = some l)
    (hd : d ∈ done) : (compare (key arena d.entry) (key arena l.entry)).isLE = true := by
  obtain ⟨front, rfl⟩ := List.getLast?_eq_some_iff.mp hl
  rcases mem_append.mp hd with hd | hd
  · exact (pairwise_append.mp (pairwise_append.mp h.keys).1).2.2 d hd l (by simp)
  · simp [mem_singleton.mp hd, Std.ReflOrd.compare_self]

theorem Segment.new_iff :
    ((done.getLast?.map (·.entry)).any fun e => key arena r.entry == key arena e) = false ↔
      ∀ d ∈ done, lab d ≠ lab r := by
  have hr : r ∈ done ++ r :: todo := by simp
  cases hlast : done.getLast? with
  | none => rw [List.getLast?_eq_none_iff.mp hlast]; simp
  | some l =>
    have hl : l ∈ done := mem_of_getLast? hlast
    have hkey : key arena r.entry = key arena l.entry ↔ lab l = lab r := by
      rw [h.key_eq_iff hr (h.mem.2 l hl)]
      exact eq_comm
    simp only [Option.map_some, Option.any_some, beq_eq_false_iff_ne, ne_eq, hkey]
    refine ⟨fun hne d hd heq => hne ?_, fun hnew => hnew l hl⟩
    -- Everything between a name and itself is that name.
    have hdl := h.le_last hlast hd
    rw [(h.key_eq_iff (h.mem.2 d hd) hr).mpr heq] at hdl
    exact (h.key_eq_iff (h.mem.2 l hl) hr).mp (compare_isLE_antisymm (h.done_le hl) hdl)

end

/-- A loop over the records keeps what each of its steps keeps. -/
theorem Segment.run {S : Type} {I : List Record → S → Prop} {f : S → Record → Except Fault S} {st : S}
    (hstep : ∀ {done r todo st}, Segment arena g rule lab (done ++ r :: todo) → I done st →
      Safe (f st r) (I (done ++ [r]))) (h : Segment arena g rule lab seg) (hi : I [] st) :
    Safe (seg.foldlM f st) (I seg) := by
  suffices hrun : ∀ todo done {st}, Segment arena g rule lab (done ++ todo) → I done st →
      Safe (todo.foldlM f st) (I (done ++ todo)) from hrun seg [] h hi
  intro todo
  induction todo with
  | nil =>
    intro done st _ hi
    rw [append_nil]
    exact hi
  | cons r todo ih =>
    intro done st h hi
    rw [foldlM_cons]
    refine (hstep h hi).bind fun st1 hst => ?_
    simpa using ih (done ++ [r]) (by simpa using h) hst

end Segment

/-- What a group keeps: one record for each kept name, in key order. -/
structure Pruned (arena : Bytes) (g : Group) (kept : List Label → Option Nat) (out : List Record) : Prop where
  keys : out.Pairwise fun a b => compare (key arena a.entry) (key arena b.entry) = .lt
  sound : ∀ r ∈ out, ∃ ks, Spells arena r ⟨ks, g, r.entry.sourceSlot⟩ ∧ kept ks = some r.entry.sourceSlot
  complete : ∀ {ks s}, kept ks = some s → ∃ r ∈ out, Spells arena r ⟨ks, g, s⟩

section Loop

variable {arena : Bytes} {g : Group} {rule kept : List Label → Option Nat} {lab : Record → List Label}
  {done todo : List Record} {r : Record} {st st' : PruneState}

structure KeptInv (kept : List Label → Option Nat) (lab : Record → List Label) (done : List Record)
    (st : PruneState) : Prop where
  sub : st.kept.Sublist done
  sound : ∀ k ∈ st.kept, kept (lab k) = some k.entry.sourceSlot
  complete : ∀ d ∈ done, ∀ s, kept (lab d) = some s → ∃ k ∈ st.kept, lab k = lab d
  distinct : st.kept.Pairwise fun a b => lab a ≠ lab b
  last : st.last = done.getLast?.map (·.entry)

theorem KeptInv.start : KeptInv kept lab [] .start :=
  ⟨by simp [PruneState.start], by simp [PruneState.start], by simp, by simp [PruneState.start], rfl⟩

/-- A name that is repeated, or that `kept` drops, changes nothing. -/
theorem KeptInv.same (hi : KeptInv kept lab done st) (hlast : st'.last = some r.entry) (hst : st'.kept = st.kept)
    (hr : ∀ s, kept (lab r) = some s → ∃ d ∈ done, lab d = lab r) : KeptInv kept lab (done ++ [r]) st' := by
  refine ⟨hst ▸ hi.sub.trans (sublist_append_left _ _), hst ▸ hi.sound, ?_, hst ▸ hi.distinct, by simp [hlast]⟩
  rw [hst, forall_mem_append, forall_mem_singleton]
  refine ⟨hi.complete, fun s hs => ?_⟩
  obtain ⟨d, hd, hlab⟩ := hr s hs
  exact hlab ▸ hi.complete d hd s (hlab ▸ hs)

theorem KeptInv.push (hi : KeptInv kept lab done st) (hlast : st'.last = some r.entry) (hst : st'.kept = st.kept ++ [r])
    (hn : ∀ d ∈ done, lab d ≠ lab r) (hk : kept (lab r) = some r.entry.sourceSlot) :
    KeptInv kept lab (done ++ [r]) st' := by
  refine ⟨hst ▸ hi.sub.append (List.Sublist.refl [r]), ?_, ?_, ?_, by simp [hlast]⟩
  · rw [hst, forall_mem_append, forall_mem_singleton]
    exact ⟨hi.sound, hk⟩
  · rw [hst, forall_mem_append, forall_mem_singleton]
    refine ⟨fun d hd s hs => ?_, fun s hs => ⟨r, by simp, rfl⟩⟩
    obtain ⟨k, hk', hkd⟩ := hi.complete d hd s hs
    exact ⟨k, mem_append_left _ hk', hkd⟩
  · rw [hst, pairwise_append]
    refine ⟨hi.distinct, pairwise_singleton _ _, fun k hk' k' hr => ?_⟩
    rw [mem_singleton.mp hr]
    exact hn k (hi.sub.subset hk')

theorem KeptInv.pruned (h : Segment arena g rule lab done) (hi : KeptInv kept lab done st)
    (hkept : ∀ {ks s}, kept ks = some s → rule ks = some s) : Pruned arena g kept st.kept := by
  refine ⟨?_, ?_, ?_⟩
  · refine ((h.keys.sublist hi.sub).and hi.distinct).imp_of_mem fun {a c} ha hc ⟨hac, hne⟩ => ?_
    have hkey := (h.key_eq_iff (hi.sub.subset ha) (hi.sub.subset hc)).not.mpr hne
    cases hcmp : compare (key arena a.entry) (key arena c.entry) with
    | lt => rfl
    | eq => exact absurd (Std.LawfulEqOrd.eq_of_compare hcmp) hkey
    | gt => rw [hcmp] at hac; cases hac
  · intro r hr
    exact ⟨lab r, h.spells r (hi.sub.subset hr), hi.sound r hr⟩
  · intro ks s hks
    obtain ⟨d, hd, rfl, hs⟩ := h.complete (hkept hks)
    obtain ⟨k, hk, hkd⟩ := hi.complete d hd s hks
    have hslot := hi.sound k hk
    rw [hkd, hks, Option.some.injEq] at hslot
    refine ⟨k, hk, ?_⟩
    rw [← hkd, hslot]
    exact h.spells k (hi.sub.subset hk)

end Loop

/-! ## Suffix groups -/

section Suffix

variable {arena : Bytes} {g : Group} {covers : Nat → Nat → Bool} {rule : List Label → Option Nat}
  {lab : Record → List Label} {done todo : List Record} {r : Record} {st : PruneState}

/-- The stack of a suffix group holds the kept rules above the last name. -/
structure SuffixInv (covers : Nat → Nat → Bool) (rule : List Label → Option Nat) (lab : Record → List Label)
    (done : List Record) (st : PruneState) : Prop extends KeptInv (keptSuffix covers rule) lab done st where
  stack : ∀ l ∈ done.getLast?,
    st.ancestors = ((st.kept.filter fun k => lab k <+: lab l).reverse).map (·.entry)
  stackNil : done = [] → st.ancestors = []

theorem SuffixInv.chain (h : Segment arena g rule lab (done ++ r :: todo)) (hi : SuffixInv covers rule lab done st)
    (l : Record) : ((st.kept.filter fun k => lab k <+: lab l).reverse).Pairwise fun a b => lab b <+: lab a := by
  rw [pairwise_reverse]
  have hkeys : st.kept.Pairwise fun a b => (compare (key arena a.entry) (key arena b.entry)).isLE = true :=
    (pairwise_append.mp h.keys).1.sublist hi.sub
  have hmem : ∀ k ∈ st.kept, k ∈ done ++ r :: todo := fun k hk => h.mem.2 k (hi.sub.subset hk)
  refine (hkeys.filter _).imp_of_mem fun {a b} ha hb hab => ?_
  simp only [mem_filter, decide_eq_true_eq] at ha hb
  rcases prefix_or_prefix_of_prefix ha.2 hb.2 with hp | hp
  · exact hp
  · -- The longer of two nested names does not sort first.
    have := compare_prefix_isLE ((h.prefix_iff (hmem b hb.1) (hmem a ha.1)).mpr hp)
    have heq := (h.key_eq_iff (hmem a ha.1) (hmem b hb.1)).mp (compare_isLE_antisymm hab this)
    exact heq ▸ prefix_rfl

theorem SuffixInv.popped (h : Segment arena g rule lab (done ++ r :: todo)) (hi : SuffixInv covers rule lab done st) :
    (st.ancestors.dropWhile fun a => !(key arena a).isPrefixOf (key arena r.entry)) =
      ((st.kept.filter fun k => lab k <+: lab r).reverse).map (·.entry) := by
  cases hlast : done.getLast? with
  | none =>
    have hnil := List.getLast?_eq_none_iff.mp hlast
    have hkept : st.kept = [] := sublist_nil.mp (hnil ▸ hi.sub)
    rw [hi.stackNil hnil, hkept]
    rfl
  | some l =>
    have hl : l ∈ done := mem_of_getLast? hlast
    have hr : r ∈ done ++ r :: todo := h.mem.1
    have hmem : ∀ k ∈ st.kept, k ∈ done ++ r :: todo := fun k hk => h.mem.2 k (hi.sub.subset hk)
    rw [hi.stack l hlast, dropWhile_map]
    congr 1
    have hP : ∀ k ∈ st.kept, ((key arena k.entry).isPrefixOf (key arena r.entry) = true ↔ lab k <+: lab r) := by
      intro k hk
      rw [List.isPrefixOf_iff_prefix, h.prefix_iff (hmem k hk) hr]
    refine (dropWhile_not_eq_filter (P := fun k : Record => (key arena k.entry).isPrefixOf (key arena r.entry))
      ((hi.chain h l).imp_of_mem fun {a b} ha hb hba => ?_)).trans ?_
    · simp only [mem_reverse, mem_filter] at ha hb
      rw [hP a ha.1, hP b hb.1]
      exact hba.trans
    · rw [filter_reverse, filter_filter]
      congr 1
      refine filter_congr fun k hk => ?_
      -- A kept name that covers `r` covers the last name too, which sorts between them.
      have hkl : lab k <+: lab r → lab k <+: lab l := by
        intro hkr
        refine (h.prefix_iff (hmem k hk) (h.mem.2 l hl)).mp ?_
        exact prefix_between (h.le_last hlast (hi.sub.subset hk)) (h.done_le hl) prefix_rfl
          ((h.prefix_iff (hmem k hk) hr).mpr hkr)
      by_cases hkr : lab k <+: lab r
      · simp [(hP k hk).mpr hkr, hkl hkr, hkr]
      · have : (key arena k.entry).isPrefixOf (key arena r.entry) = false := by
          rw [Bool.eq_false_iff]
          exact fun ht => hkr ((hP k hk).mp ht)
        simp [this, hkr]

/-- **The top of the stack is the slot in charge above a new name.** -/
theorem SuffixInv.top (h : Segment arena g rule lab (done ++ r :: todo)) (hi : SuffixInv covers rule lab done st)
    (hnew : ∀ d ∈ done, lab d ≠ lab r) :
    ((st.kept.filter fun k => lab k <+: lab r).reverse).head?.map (·.entry.sourceSlot) =
      effective covers rule (lab r).dropLast := by
  have habove : ∀ p, p <+: (lab r).dropLast → p <+: lab r ∧ p ≠ lab r := by
    intro p hp
    have hne : lab r ≠ [] := (h.spells r h.mem.1).labels.ne
    refine ⟨hp.trans (List.dropLast_prefix _), fun heq => ?_⟩
    have hlen := hp.length_le
    have := length_pos_iff.mpr hne
    rw [heq, length_dropLast] at hlen
    omega
  have hbelow : ∀ k ∈ st.kept, lab k <+: lab r → lab k <+: (lab r).dropLast := by
    intro k hk hp
    obtain ⟨front, last, hr⟩ := (eq_nil_or_concat (lab r)).resolve_left (h.spells r h.mem.1).labels.ne
    rw [hr, concat_eq_append] at hp ⊢
    rcases prefix_concat_iff.mp hp with heq | hp
    · exact absurd (heq.trans (by rw [hr, concat_eq_append])) (hnew k (hi.sub.subset hk))
    · simpa using hp
  cases heff : effective covers rule (lab r).dropLast with
  | none =>
    have hnone : st.kept.filter (fun k => lab k <+: lab r) = [] := by
      rw [filter_eq_nil_iff]
      intro k hk hp
      have := effective_none heff (lab k) (hbelow k hk (by simpa using hp))
      rw [hi.sound k hk] at this
      cases this
    simp [hnone]
  | some s =>
    obtain ⟨p, hp, hkept, hmax⟩ := effective_some heff
    have hrule : rule p = some s := (Option.filter_eq_some_iff.mp hkept).1
    obtain ⟨d, hd, rfl, hs⟩ := h.before (habove p hp).1 (habove p hp).2 hrule
    obtain ⟨k, hk, hkd⟩ := hi.complete d hd s hkept
    have hkmem : k ∈ (st.kept.filter fun k => lab k <+: lab r).reverse := by
      simp only [mem_reverse, mem_filter, decide_eq_true_eq, hkd]
      exact ⟨hk, (habove _ hp).1⟩
    cases hhead : (st.kept.filter fun k => lab k <+: lab r).reverse with
    | nil => rw [hhead] at hkmem; cases hkmem
    | cons t rest =>
      -- The head is the longest kept prefix, so it is `p`.
      have ht : t ∈ st.kept ∧ lab t <+: lab r := by
        have : t ∈ (st.kept.filter fun k => lab k <+: lab r).reverse := by rw [hhead]; simp
        simpa using this
      have htp : lab t <+: lab d := hmax _ (hbelow t ht.1 ht.2) (by rw [hi.sound t ht.1]; rfl)
      have hpt : lab k <+: lab t := by
        have := hi.chain h r
        rw [hhead] at this hkmem
        rcases mem_cons.mp hkmem with rfl | hmem
        · exact prefix_rfl
        · exact (pairwise_cons.mp this).1 k hmem
      have heq : lab t = lab d := htp.eq_of_length (Nat.le_antisymm htp.length_le (hkd ▸ hpt.length_le))
      have := hi.sound t ht.1
      rw [heq, hkept, Option.some.injEq] at this
      simp [this]

theorem pruneStep_suffix {b suffixes} {st : PruneState} {r : Record} (hg : g.index % 2 = 0) :
    pruneStep b g suffixes st r =
      let anc := st.ancestors.dropWhile fun a => !(key b.arena.items a).isPrefixOf (key b.arena.items r.entry)
      if (st.last.any fun l => key b.arena.items r.entry == key b.arena.items l) ||
          anc.head?.any fun c => b.covers g c.sourceSlot r.entry.sourceSlot then
        .ok ⟨anc, some r.entry, st.kept⟩
      else if anc.length < 128 then .ok ⟨r.entry :: anc, some r.entry, st.kept ++ [r]⟩ else .error .panic := by
  simp only [pruneStep, hg, beq_self_eq_true, if_true, pure, Except.pure, bind, Except.bind]

/-- Names above a name are fewer than its labels are many. -/
theorem SuffixInv.depth (h : Segment arena g rule lab (done ++ r :: todo)) (hi : SuffixInv covers rule lab done st) :
    (st.kept.filter fun k => lab k <+: lab r).length < 128 := by
  have hsub : ((st.kept.filter fun k => lab k <+: lab r).map lab).Subperm ((lab r).inits.erase []) := by
    refine subperm_of_subset (pairwise_map.mpr (hi.distinct.filter _)) fun p hp => ?_
    obtain ⟨k, hk, rfl⟩ := mem_map.mp hp
    obtain ⟨hk, hpre⟩ := mem_filter.mp hk
    have hne : lab k ≠ [] := (h.spells k (h.mem.2 k (hi.sub.subset hk))).labels.ne
    exact (mem_erase_of_ne hne).mpr ((mem_inits _ _).mpr (of_decide_eq_true hpre))
  have hlen := hsub.length_le
  have hcount := (h.spells r h.mem.1).labels.count
  rw [length_map, length_erase_of_mem ((mem_inits _ _).mpr nil_prefix), length_inits] at hlen
  simp only at hcount
  omega

theorem SuffixInv.step {b : Builder} {suffixes} (hg : g.index % 2 = 0)
    (h : Segment b.arena.items g rule lab (done ++ r :: todo)) (hi : SuffixInv (b.covers g) rule lab done st) :
    Safe (pruneStep b g suffixes st r) (SuffixInv (b.covers g) rule lab (done ++ [r])) := by
  rw [pruneStep_suffix hg]
  simp only [hi.last, hi.popped h]
  have hstack : ∀ {st'}, st'.kept = st.kept → KeptInv (keptSuffix (b.covers g) rule) lab (done ++ [r]) st' →
      st'.ancestors = ((st.kept.filter fun k => lab k <+: lab r).reverse).map (·.entry) →
      SuffixInv (b.covers g) rule lab (done ++ [r]) st' := by
    intro st' hst hinv hanc
    refine ⟨hinv, fun l hl => ?_, by simp⟩
    rw [List.getLast?_concat, Option.mem_some_iff] at hl
    rw [← hl, hst, hanc]
  by_cases hnew : ∀ d ∈ done, lab d ≠ lab r
  · have hkept := @keptSuffix_of_rule (b.covers g) _ _ _ (h.spells r h.mem.1).labels.ne (h.first_slot hnew)
    rw [← hi.top h hnew, Option.any_map] at hkept
    rw [h.new_iff.mpr hnew, Bool.false_or, List.head?_map, Option.any_map]
    split
    · next hc => exact hstack rfl (hi.toKeptInv.same rfl rfl fun s hs =>
        nomatch (hkept.trans (if_pos hc)).symm.trans hs) rfl
    · next hc =>
      rw [if_pos (by simpa using hi.depth h)]
      refine ⟨hi.toKeptInv.push rfl rfl hnew (hkept.trans (if_neg hc)), fun l hl => ?_, by simp⟩
      rw [List.getLast?_concat, Option.mem_some_iff] at hl
      subst hl
      simp [filter_append]
  · have hdup := Bool.not_eq_false _ ▸ (h.new_iff.not.mpr hnew)
    rw [hdup, Bool.true_or, if_pos rfl]
    exact hstack rfl (hi.toKeptInv.same rfl rfl fun _ _ => by simpa using hnew) rfl

/-- **A suffix group keeps exactly the uncovered rules.** -/
theorem prune_suffix {b : Builder} {suffixes seg : List Record} (hg : g.index % 2 = 0)
    (h : Segment b.arena.items g rule lab seg) : Safe (seg.foldlM (pruneStep b g suffixes) .start) fun st' =>
      Pruned b.arena.items g (keptSuffix (b.covers g) rule) st'.kept ∧ st'.kept.Sublist seg :=
  (Segment.run (I := SuffixInv (b.covers g) rule lab) (fun h hi => hi.step hg h) h ⟨.start, by simp, fun _ => rfl⟩).mono
    fun _ hi => ⟨hi.toKeptInv.pruned h fun hks => (Option.filter_eq_some_iff.mp hks).1, hi.sub⟩

end Suffix

/-! ## Exact groups -/

/-- The ends of the labels after `pre` in an encoding. -/
def stops (pre : List Label) : List Label → List Nat
  | [] => []
  | k :: ks => (frame (pre ++ [k])).length :: stops (pre ++ [k]) ks

theorem stops_append (pre ks k) : stops pre (ks ++ [k]) = stops pre ks ++ [(frame (pre ++ (ks ++ [k]))).length] := by
  induction ks generalizing pre with
  | nil => rfl
  | cons x ks ih =>
    simp only [cons_append, stops, ih]
    simp

theorem boundaries_frame : ∀ ks pre {room}, Short ks → ks.length ≤ room →
    boundaries (frame (pre ++ ks)) room (frame pre).length = .ok (stops pre ks)
  | [], pre, room, _, _ => by
    unfold boundaries
    simp [stops]
  | k :: ks, pre, room + 1, hs, hroom => by
    have hlen : (frame pre).length < (frame (pre ++ k :: ks)).length := by
      simp [frame_append, frame_cons]
    have hbyte : ((frame (pre ++ k :: ks))[(frame pre).length]?.getD 0).toNat = k.length := by
      have := hs k (by simp)
      simp [frame_append, frame_cons, Nat.mod_eq_of_lt this]
    have hnext : (frame pre).length + 1 + k.length = (frame (pre ++ [k])).length := by
      simp [frame_append, frame_cons]; omega
    have hrest := boundaries_frame ks (pre ++ [k]) hs.tail (Nat.le_of_succ_le_succ hroom)
    rw [← append_cons] at hrest
    unfold boundaries
    simp only [hlen, if_true, hbyte, hnext, hrest]
    rfl

section Exact

variable {arena : Bytes} {g : Group} {covers : Nat → Nat → Bool} {rule : List Label → Option Nat}
  {suffixes : List Record}

theorem search_kept {kept} (hp : Pruned arena g kept suffixes) {ks} (hs : Short ks) :
    (match binarySearchBy (fun r => compare (key arena r.entry) (frame ks)) suffixes with
      | some i => suffixes[i]?.map (·.entry.sourceSlot)
      | none => none) = kept ks := by
  have hprobe : Probes (fun r => compare (key arena r.entry) (frame ks)) suffixes := by
    refine hp.keys.imp fun {a b} hab => ⟨fun ha => ?_, fun hb => ?_⟩
    · exact Std.TransCmp.gt_trans (Std.OrientedCmp.gt_iff_lt.mpr hab) ha
    · exact Std.TransCmp.lt_trans hab hb
  have hlabels : ∀ {r : Record}, r ∈ suffixes → compare (key arena r.entry) (frame ks) = .eq →
      kept ks = some r.entry.sourceSlot := by
    intro r hr heq
    obtain ⟨ks', hspell, hk⟩ := hp.sound r hr
    have := Std.LawfulEqOrd.eq_of_compare heq
    rw [hspell.key] at this
    rwa [← frame_injective hspell.labels.short hs this]
  cases hb : binarySearchBy (fun r => compare (key arena r.entry) (frame ks)) suffixes with
  | some i =>
    obtain ⟨r, hr, heq⟩ := binarySearchBy_sound hb
    rw [hlabels (mem_of_getElem? hr) heq]
    simp [hr]
  | none =>
    cases hk : kept ks with
    | none => rfl
    | some s =>
      obtain ⟨r, hr, hspell⟩ := hp.complete hk
      obtain ⟨i, hi, hri⟩ := getElem_of_mem hr
      obtain ⟨j, b, hj, -, -⟩ := binarySearchBy_complete hprobe (i := i) (a := r)
        (by rw [List.getElem?_eq_getElem hi, hri]) (by rw [hspell.key]; exact Std.ReflOrd.compare_self)
      rw [hb] at hj
      cases hj

theorem coverAt_stops (hp : Pruned arena g (keptSuffix covers rule) suffixes) {full}
    (hs : Short full) : ∀ {ks}, ks <+: full →
      ∃ e, coverAt arena suffixes (frame full) (stops [] ks).reverse = .ok e ∧
        e.map (·.sourceSlot) = effective covers rule ks := by
  intro ks
  induction ks using List.reverseRecOn with
  | nil => exact fun _ => ⟨none, rfl, rfl⟩
  | append_singleton ks k ih =>
    intro hks
    have hpre : ks <+: full := (prefix_append ks [k]).trans hks
    obtain ⟨e, he, hslot⟩ := ih hpre
    have hshort : Short (ks ++ [k]) := fun w hw => hs w (hks.subset hw)
    obtain ⟨tail, htail⟩ := (frame_prefix_iff hshort hs).mpr hks
    rw [stops_append, reverse_append, reverse_singleton, singleton_append, nil_append, coverAt,
      if_neg (by rw [← htail]; simp), ← htail, take_left]
    have hsearch := search_kept hp hshort
    rw [effective_append_kept, ← hsearch]
    cases hb : binarySearchBy (fun r => compare (key arena r.entry) (frame (ks ++ [k]))) suffixes with
    | some i =>
      obtain ⟨r, hr, -⟩ := binarySearchBy_sound hb
      exact ⟨some r.entry, by simp [hr], by simp [hr]⟩
    | none => exact ⟨e, by simpa [htail] using he, by simpa using hslot⟩

/-- **The longest cover is the slot in charge.** -/
theorem longestCover_eq (hp : Pruned arena g (keptSuffix covers rule) suffixes) {ks} (hs : Short ks)
    (hcount : ks.length ≤ 128) :
    ∃ cover, longestCover arena suffixes (frame ks) = .ok cover ∧ cover.map (·.sourceSlot) = effective covers rule ks := by
  obtain ⟨e, he, hslot⟩ := coverAt_stops hp hs (prefix_refl ks)
  refine ⟨e, ?_, hslot⟩
  have hends : boundaries (frame ks) 128 0 = .ok (stops [] ks) := boundaries_frame ks [] hs hcount
  rw [longestCover, hends]
  exact he

theorem pruneStep_exact {b : Builder} {st : PruneState} {r : Record} {cover} (hg : g.index % 2 = 1)
    (h : longestCover b.arena.items suffixes (key b.arena.items r.entry) = .ok cover) :
    pruneStep b g suffixes st r =
      if (st.last.any fun l => key b.arena.items r.entry == key b.arena.items l) ||
          cover.any fun c => b.covers g c.sourceSlot r.entry.sourceSlot then .ok ⟨st.ancestors, some r.entry, st.kept⟩
      else .ok ⟨st.ancestors, some r.entry, st.kept ++ [r]⟩ := by
  simp only [pruneStep, hg, h, Nat.reduceBEq, Bool.false_eq_true, if_false, pure, Except.pure, bind, Except.bind]

variable {exact : List Label → Option Nat} {lab : Record → List Label}

theorem KeptInv.step_exact {b : Builder} {gs done todo} {r : Record} {st : PruneState}
    (hg : g.index % 2 = 1) (h : Segment b.arena.items g exact lab (done ++ r :: todo))
    (hp : Pruned b.arena.items gs (keptSuffix (b.covers g) rule) suffixes)
    (hi : KeptInv (keptExact (b.covers g) rule exact) lab done st) :
    Safe (pruneStep b g suffixes st r) (KeptInv (keptExact (b.covers g) rule exact) lab (done ++ [r])) := by
  have hspell := h.spells r h.mem.1
  obtain ⟨cover, hcover, hslot⟩ := longestCover_eq hp hspell.labels.short (Nat.le_succ_of_le hspell.labels.count)
  rw [← hspell.key] at hcover
  rw [pruneStep_exact hg hcover, hi.last]
  by_cases hnew : ∀ d ∈ done, lab d ≠ lab r
  · have hkept : keptExact (b.covers g) rule exact (lab r) =
        if cover.any (fun c => b.covers g c.sourceSlot r.entry.sourceSlot) then none
        else some r.entry.sourceSlot := by
      rw [keptExact, h.first_slot hnew, ← hslot, Option.filter_some, Option.any_map]
      by_cases hc : cover.any (fun c => b.covers g c.sourceSlot r.entry.sourceSlot) = true
      · simp [hc]
      · simp [hc]
    rw [h.new_iff.mpr hnew, Bool.false_or]
    split
    · next hc => exact hi.same rfl rfl fun s hs => nomatch (hkept.trans (if_pos hc)).symm.trans hs
    · next hc => exact hi.push rfl rfl hnew (hkept.trans (if_neg hc))
  · have hdup := Bool.not_eq_false _ ▸ (h.new_iff.not.mpr hnew)
    rw [hdup, Bool.true_or, if_pos rfl]
    exact hi.same rfl rfl fun _ _ => by simpa using hnew

/-- **An exact group keeps exactly the uncovered rules.** -/
theorem prune_exact {b : Builder} {gs} {seg : List Record} (hg : g.index % 2 = 1)
    (hp : Pruned b.arena.items gs (keptSuffix (b.covers g) rule) suffixes)
    (h : Segment b.arena.items g exact lab seg) : Safe (seg.foldlM (pruneStep b g suffixes) .start) fun st' =>
      Pruned b.arena.items g (keptExact (b.covers g) rule exact) st'.kept ∧ st'.kept.Sublist seg :=
  (Segment.run (I := KeptInv _ lab) (fun h hi => hi.step_exact hg h hp) h .start).mono
    fun _ hi => ⟨hi.pruned h fun hks => (Option.filter_eq_some_iff.mp hks).1, hi.sub⟩

end Exact

end Parins.Policy
