/-
Uses and refresh accounting. Whatever gives an entry a use stamp, a snapshot
record apart, gives it one above the clock of its shard, and the clock never goes
back. Every answer that a prefetch refresh stored is marked until it is settled: as
useful by the first fresh hit, as unused when it is seen stale or leaves unseen.
So the two counters and the marks together always come to the number of refreshes
admitted.
-/
import Parins.Cache.Learned

namespace Parins.Cache
open Net Lib Option

variable {P : Platform} {C : Codec} {config : CacheConfig} {c c' c'' : Cache} {s s' s'' : Shard} {e x : Entry}
variable {l l' l'' : Locked} {maxVariants now i seen new seen' new' : Nat} {live : Prop}

/-! ## Counters -/

def Shard.unseen (s : Shard) : Nat := s.entries.countP fun e => (s.cells e.id).refreshed

/-- No counter moved; an unseen refreshed entry that left is counted as unused. -/
structure Locked.Quiet (l l' : Locked) : Prop where
  counts : l'.shard.counts = l.shard.counts
  evictions : ∀ part, (l'.shard.partitions part).evictions = (l.shard.partitions part).evictions
  useful : l'.refreshUseful = l.refreshUseful
  unused : l'.refreshUnused + l'.shard.unseen = l.refreshUnused + l.shard.unseen

theorem Locked.Quiet.refl (l : Locked) : l.Quiet l := ⟨rfl, fun _ => rfl, rfl, rfl⟩

theorem Locked.Quiet.trans (h1 : l.Quiet l') (h2 : l'.Quiet l'') : l.Quiet l'' :=
  ⟨h2.counts.trans h1.counts, fun part => (h2.evictions part).trans (h1.evictions part), h2.useful.trans h1.useful,
    h2.unused.trans h1.unused⟩

theorem unseen_of_perm (s' : Shard) (hwf : s.Wf maxVariants) (hperm : s.entries.Perm (e :: s'.entries))
    (hcells : ∀ id, id ≠ e.id → s'.cells id = s.cells id) :
    s.unseen = s'.unseen + ofBool (s.cells e.id).refreshed := by
  have hids : (e.id :: s'.entries.map Entry.id).Nodup := (hperm.map Entry.id).nodup_iff.mp hwf.ids
  have hsame : s'.entries.countP (fun x => (s.cells x.id).refreshed) = s'.unseen := by
    refine List.countP_congr fun x hx => ?_
    rw [hcells x.id fun hid => (List.nodup_cons.mp hids).1 (hid ▸ List.mem_map_of_mem hx)]
  rw [Shard.unseen, hperm.countP_eq, List.countP_cons, hsame, ofBool]

theorem evictions_update (partitions) (p : Partition) (part part' : Bool)
    (h : p.evictions = (partitions part).evictions) :
    (Function.update partitions part p part').evictions = (partitions part').evictions := by
  by_cases hp : part' = part
  · subst hp
    rw [Function.update_self, h]
  · rw [Function.update_of_ne hp]

theorem remove_quiet {pinned} {part : Bool} {id : Nat} (hwf : l.shard.Wf maxVariants)
    (h : l.remove pinned part id = some l') : l.Quiet l' := by
  unfold Locked.remove at h
  split at h
  · cases h
    exact .refl l
  · next e hpeek =>
    have hm := Recency.mem_of_peek hpeek
    obtain ⟨rfl, rfl⟩ := (hwf.parts part).filed id e hm
    simp only [bind, bind_eq_some_iff] at h
    obtain ⟨learned, _, failures, _, h⟩ := h
    cases h
    refine ⟨rfl, fun part => evictions_update _ _ _ _ rfl, rfl, ?_⟩
    have hperm := entries_update l.shard e.negative (p := (l.shard.partitions e.negative).take e (pinned e.id))
      (Recency.perm_pop hm)
    have hunseen := unseen_of_perm { l.shard.setCells e.id { l.shard.cells e.id with refreshed := false } with
      partitions := Function.update l.shard.partitions e.negative
        ((l.shard.partitions e.negative).take e (pinned e.id)) } hwf hperm
      fun id hne => Function.update_of_ne hne _ _
    rw [hunseen]
    simp only [Shard.unseen, Shard.entries, Shard.setCells]
    omega

theorem removeAll_quiet {pinned} (targets) (hwf : l.shard.Wf maxVariants)
    (h : l.removeAll pinned targets = some l') : l.Quiet l' := by
  induction targets generalizing l with
  | nil =>
    obtain rfl := Option.some.inj h
    exact .refl _
  | cons t targets ih =>
    obtain ⟨l1, h1, hwf1, _⟩ := remove_spec pinned hwf t.1 t.2
    rw [Locked.removeAll, List.foldlM_cons, h1] at h
    exact (remove_quiet hwf h1).trans (ih hwf1 h)

theorem publish_unseen (hwf : l.shard.Wf maxVariants) (key) (stored : Stored) (charge now) :
    (l.publish key stored charge now).shard.unseen = l.shard.unseen + ofBool stored.refreshed := by
  have hwith := publish_with hwf key stored charge now
  have hclock : ∀ x ∈ l.shard.entries, x.id ≠ l.shard.clock + 1 := fun x hx hid => by
    have := hwf.clock x hx
    omega
  have hsame : l.shard.entries.countP (fun x => ((l.publish key stored charge now).shard.cells x.id).refreshed) =
      l.shard.unseen := by
    refine List.countP_congr fun x hx => ?_
    rw [hwith.cells, Function.update_of_ne (show x.id ≠ (stored.entry key charge now _).id from hclock x hx)]
  have hnew : ((l.publish key stored charge now).shard.cells
    (stored.entry key charge now (l.shard.clock + 1)).id).refreshed =
      stored.refreshed := by
    rw [hwith.cells, Function.update_self]
  rw [Shard.unseen, hwith.perm.countP_eq, List.countP_cons, hsame, hnew, ofBool]

/-! ## Under the lock -/

/-- Every entry is as it was, has been used, or is new; a use leaves no mark, and in a live step what is
used or new is stamped above the clock. -/
structure Shard.Uses (live : Prop) (s s' : Shard) : Prop where
  clock : s.clock ≤ s'.clock
  entries : ∀ x ∈ s'.entries, x ∈ s.entries ∧ s'.cells x.id = s.cells x.id ∨
    (x ∈ s.entries ∧ (s'.cells x.id).refreshed = false ∨ s.clock < x.id) ∧
      (live → s.clock < (s'.cells x.id).accessed)

theorem Shard.Uses.refl (s : Shard) : s.Uses live s := ⟨le_rfl, fun _ hx => .inl ⟨hx, rfl⟩⟩

theorem Shard.Uses.trans (h1 : s.Uses live s') (h2 : s'.Uses live s'') : s.Uses live s'' := by
  refine ⟨h1.clock.trans h2.clock, fun x hx => ?_⟩
  rcases h2.entries x hx with ⟨hx', hsame⟩ | ⟨hkind, habove⟩
  · rw [hsame]
    exact h1.entries x hx'
  · refine .inr ⟨?_, fun h => h1.clock.trans_lt (habove h)⟩
    rcases hkind with ⟨hx', hmark⟩ | hnew
    · rcases h1.entries x hx' with ⟨hx, _⟩ | ⟨hkind, _⟩
      · exact .inl ⟨hx, hmark⟩
      · exact hkind.imp_left fun h => ⟨h.1, hmark⟩
    · exact .inr (h1.clock.trans_lt hnew)

variable {gone : Entry → Bool}

theorem Shard.Less.uses (h : s.Less s' gone) : s.Uses live s' :=
  ⟨h.clock.ge, fun x hx => .inl ⟨(h.mem_iff.mp hx).1, h.cells x hx⟩⟩

theorem Shard.More.uses {cells : Cells} (h : s.More s' gone e cells) (hlive : live → s.clock < cells.accessed) :
    s.Uses live s' := by
  have hid := h.id
  refine ⟨h.change.clock, fun x hx => ?_⟩
  by_cases heq : x = e
  · subst heq
    refine .inr ⟨.inr (by omega), ?_⟩
    rwa [h.newCells]
  · exact .inl ⟨((h.mem_iff.mp hx).resolve_left heq).1, h.cells x hx heq⟩

/-- `seen` marks are settled as useful and the others that go as unused; `new` are set. -/
structure Locked.Settles (live : Prop) (l l' : Locked) (seen new : Nat) : Prop where
  uses : l.shard.Uses live l'.shard
  useful : l'.refreshUseful = l.refreshUseful + seen
  total : l'.refreshUnused + l'.shard.unseen + seen = l.refreshUnused + l.shard.unseen + new

theorem Locked.Settles.trans (h1 : l.Settles live l' seen new) (h2 : l'.Settles live l'' seen' new') :
    l.Settles live l'' (seen + seen') (new + new') := by
  have := h1.useful
  have := h2.useful
  have := h1.total
  have := h2.total
  exact ⟨h1.uses.trans h2.uses, by omega, by omega⟩

theorem Locked.Settles.after (h1 : l.Settles live l' 0 0) (h2 : l'.Settles live l'' seen new) :
    l.Settles live l'' seen new := by
  have h := h1.trans h2
  rwa [Nat.zero_add, Nat.zero_add] at h

theorem Locked.Quiet.settles (h : l.Quiet l') (huses : l.shard.Uses live l'.shard) : l.Settles live l' 0 0 :=
  ⟨huses, h.useful, h.unused⟩

theorem Locked.Settles.refl (l : Locked) : l.Settles live l 0 0 := (Locked.Quiet.refl l).settles (.refl _)

variable {pinned : Nat → Bool}

theorem removeAll_settles (targets) (hwf : l.shard.Wf maxVariants)
    (h : l.removeAll pinned targets = some l') : l.Settles live l' 0 0 := by
  obtain ⟨l1, h1, _, hless⟩ := removeAll_spec pinned targets hwf
  cases h.symm.trans h1
  exact (removeAll_quiet targets hwf h1).settles hless.uses

theorem reject_settles (l : Locked) : l.Settles live l.reject 0 0 := ⟨(reject_same l).less.uses, rfl, rfl⟩

theorem evict_settles {reason} (hwf : l.shard.Wf maxVariants)
    (he : e ∈ l.shard.entries) (h : l.evict pinned e.negative e.id now reason = some l') : l.Settles live l' 0 0 := by
  obtain ⟨l1, h1, _, hless⟩ := evict_spec pinned now reason hwf he
  cases h.symm.trans h1
  -- recording the eviction moves neither entries nor marks
  obtain ⟨shard, heq, hsame, _⟩ := evict_eq pinned now reason hwf he
  rw [heq] at h
  have hunseen : shard.unseen = l.shard.unseen := by
    rw [Shard.unseen, Shard.unseen, hsame.alike.perm.countP_eq, hsame.cells]
  have hquiet := remove_quiet (l := { l with shard }) (hsame.alike.wf hwf) h
  refine ⟨hless.uses, hquiet.useful, ?_⟩
  have := hquiet.unused
  rw [← hunseen]
  exact this

theorem Locked.Settles.told (h : l.Settles live l' seen new) (sharing counts) :
    l.Settles live { l' with shard := { l'.shard with sharing, counts } } seen new :=
  ⟨⟨h.uses.clock, h.uses.entries⟩, h.useful, h.total⟩

variable {key : Key} {stored : Stored}

theorem publish_settles (hwf : l.shard.Wf maxVariants) (hlive : live → stored.accessed = none) (key charge now) :
    l.Settles live (l.publish key stored charge now) 0 (ofBool stored.refreshed) := by
  refine ⟨((publish_with hwf key stored charge now).more hwf).uses fun h => ?_, rfl, ?_⟩
  · rw [hlive h]
    exact Nat.lt_succ_self _
  · rw [publish_unseen hwf]
    show l.refreshUnused + _ + 0 = _
    omega

variable {d : StoreDecision}

theorem place_settles {overhead superseded} (hwf : l.shard.Wf maxVariants) (hmax : 0 < maxVariants)
    (hfailure : stored.failure.isSome = true → stored.negative = true) (hlive : live → stored.accessed = none)
    (h : l.place pinned overhead maxVariants key stored now superseded = some (l', d)) :
    l.Settles live l' 0 (ofBool (d.admitted && stored.refreshed)) := by
  obtain ⟨l1, l2, d2, h2, hpath, _, hend⟩ := place_path pinned overhead now key stored superseded hwf hmax hfailure
  cases h.symm.trans h2
  have hs : l.Settles live l1 0 0 := hpath.keeps (I := fun l1 => l.Settles live l1 0 0) hwf (.refl l)
    fun hwf he _ hevict hs => hs.after (evict_settles hwf he hevict)
  rcases hend with ⟨hd, rfl⟩ | ⟨hd, rfl⟩
  · rw [hd]
    exact hs.after (reject_settles l1)
  · rw [hd, Bool.true_and]
    exact hs.after (publish_settles (hpath.less hwf).1 hlive key _ now)

theorem unseen_erase (hwf : s.Wf maxVariants) (he : e ∈ s.entries) (cells : Cells) :
    s.entries.countP (fun x => (Function.update s.cells e.id cells x.id).refreshed) + ofBool (s.cells e.id).refreshed =
      s.unseen + ofBool cells.refreshed := by
  have hset := List.perm_cons_erase he
  have hids : (e.id :: (s.entries.erase e).map Entry.id).Nodup := (hset.map Entry.id).nodup_iff.mp hwf.ids
  have hsame : (s.entries.erase e).countP (fun x => (Function.update s.cells e.id cells x.id).refreshed) =
      (s.entries.erase e).countP fun x => (s.cells x.id).refreshed := by
    refine List.countP_congr fun x hx => ?_
    have hne : x.id ≠ e.id := fun hid => (List.nodup_cons.mp hids).1 (hid ▸ List.mem_map_of_mem hx)
    rw [Function.update_of_ne hne]
  rw [Shard.unseen, hset.countP_eq, hset.countP_eq, List.countP_cons, List.countP_cons, hsame, Function.update_self]
  unfold ofBool
  omega

/-- An observed hit takes the mark of its entry: it was useful if the hit is fresh. -/
theorem touch_settles (hwf : l.shard.Wf maxVariants) (he : e ∈ l.shard.entries)
    (h : l.touch e.negative e.id now = some (l', x)) :
    l.Settles live l' (ofBool ((l.shard.cells e.id).refreshed && e.fresh now)) 0 := by
  simp only [Locked.touch, hwf.peek he, bind, Option.bind] at h
  have hl' := (Prod.mk.inj (Option.some.inj h)).1
  have hperm := entries_update_same l.shard e.negative (p := { l.shard.partitions e.negative with
    lru := (l.shard.partitions e.negative).lru.promote e.id }) (Recency.promote_perm _ _).symm
  have hunseen : l'.shard.unseen + ofBool (l.shard.cells e.id).refreshed = l.shard.unseen := by
    have hcount := unseen_erase hwf he ⟨false, (l.shard.cells e.id).hits + 1, l.shard.clock + 1⟩
    rw [hperm.countP_eq] at hcount
    rw [← hl']
    exact hcount
  have hunused : l'.refreshUnused = l.refreshUnused + ofBool ((l.shard.cells e.id).refreshed && !e.fresh now) := by
    rw [← hl']
  refine ⟨?_, by rw [← hl'], ?_⟩
  · subst hl'
    refine ⟨Nat.le_succ _, fun x hx => ?_⟩
    by_cases hid : x.id = e.id
    · exact .inr ⟨.inl ⟨hperm.mem_iff.mpr hx, by simp [Shard.setCells, hid]⟩, fun _ => by simp [Shard.setCells, hid]⟩
    · exact .inl ⟨hperm.mem_iff.mpr hx, by simp [Shard.setCells, Function.update_of_ne hid]⟩
  · rw [hunused, ← hunseen]
    unfold ofBool
    cases (l.shard.cells e.id).refreshed <;> cases e.fresh now <;> simp <;> omega

/-- What a lookup settles as useful: the mark of a fresh entry that answers it. -/
def Shard.Finds (key : Key) (outgoing : Option ClientSubnet) (now : Nat) (allowStale observe : Bool) (seen : Nat)
    (s s' : Shard) : Prop :=
  seen = 0 ∨ seen = 1 ∧ observe = true ∧ ∃ e ∈ s.candidates key outgoing now allowStale, e.fresh now = true ∧
    (s.cells e.id).refreshed = true ∧ (s'.cells e.id).refreshed = false

variable {outgoing : Option ClientSubnet} {allowStale observe : Bool}

theorem lookup_settles {found} (hwf : l.shard.Wf maxVariants)
    (h : l.lookup pinned key outgoing now allowStale observe = some (l', found)) :
    ∃ seen, l.Settles live l' seen 0 ∧ Shard.Finds key outgoing now allowStale observe seen l.shard l'.shard := by
  unfold Locked.lookup at h
  split at h
  · refine ⟨0, ?_, .inl rfl⟩
    split at h
    · obtain ⟨l1, h1, _⟩ := prune_spec pinned hwf key now
      have hs : l.Settles live l1 0 0 := removeAll_settles _ hwf h1
      simp only [h1, bind, Option.bind] at h
      cases h
      exact hs.told _ _
    · cases h
      exact .refl _
  · next part id hsel =>
    obtain ⟨e, he, rfl, rfl⟩ := select_mem hsel
    have hres := (hwf.mem_candidates.mp he).1.1
    split at h
    · next hobserve =>
      simp only [bind, bind_eq_some_iff, Prod.exists] at h
      obtain ⟨l1, x, h1, heq⟩ := h
      cases heq
      refine ⟨_, touch_settles hwf hres h1, ?_⟩
      cases hmark : (l.shard.cells e.id).refreshed && e.fresh now with
      | false => exact .inl rfl
      | true =>
        rw [Bool.and_eq_true] at hmark
        refine .inr ⟨rfl, hobserve, e, he, hmark.2, hmark.1, ?_⟩
        simp only [Locked.touch, hwf.peek hres, bind, Option.bind] at h1
        rw [← (Prod.mk.inj (Option.some.inj h1)).1]
        simp [Shard.setCells]
    · simp only [bind, bind_eq_some_iff] at h
      obtain ⟨x, _, heq⟩ := h
      cases heq
      exact ⟨0, .refl _, .inl rfl⟩

variable {o : Offer}

theorem supersede_settles (hwf : l.shard.Wf config.maxVariants) (hmax : 0 < config.maxVariants)
    (hlive : live → o.origin.restoring = false) (h : l.supersede P config pinned o now = some (l', d)) :
    l.Settles live l' 0 (ofBool (d.admitted && o.origin.isRefresh)) := by
  obtain ⟨l1, h1, hwf1, _⟩ := removeTargets_spec pinned hwf o.key fun e => e.scope.overlaps o.scope
  have hs : l.Settles live l1 0 0 := removeAll_settles _ hwf h1
  simp only [Locked.supersede, h1, bind, Option.bind] at h
  split at h
  · cases h
    rw [rejected_admitted]
    exact hs
  · refine hs.after (place_settles hwf1 hmax (by simp [Offer.stored]) (fun h => ?_) h)
    rw [Offer.stored, isNone_iff_eq_none.mp (isSome_eq_false_iff.mp (hlive h))]
    rfl

/-- The answer as it is stored: a snapshot record keeps its scope. -/
def Shard.admits (config : CacheConfig) (o : Offer) (now : Nat) (s : Shard) : Offer :=
  if o.origin.restoring then o else (s.classified config o now).2

/-- An answer prunes its key; then it is skipped, or the learner is told and it supersedes. -/
theorem admitAnswer_parts (hwf : l.shard.Wf maxVariants) (h : l.admitAnswer P config pinned o now = some (l', d)) :
    ∃ l1, l.prune pinned o.key now = some l1 ∧ l1.shard.Wf maxVariants ∧ (l' = l1 ∧ d.admitted = false ∨
      ∃ sharing counts, Locked.supersede P config pinned { l1 with shard := { l1.shard with sharing, counts } }
        (l.shard.admits config o now) now = some (l', d)) := by
  obtain ⟨l1, h1, hwf1, hless⟩ := prune_spec pinned hwf o.key now
  refine ⟨l1, h1, hwf1, ?_⟩
  simp only [Locked.admitAnswer, h1, bind, Option.bind] at h
  unfold Shard.admits
  split at h
  · next horigin =>
    rw [if_pos horigin]
    split at h
    · cases h
      exact .inl ⟨rfl, rfl⟩
    · split at h
      · exact .inr ⟨l1.shard.sharing, l1.shard.counts, h⟩
      · cases h
        exact .inl ⟨rfl, rfl⟩
  · next horigin =>
    rw [if_neg horigin, Shard.classified, ← hless.sharing]
    split at h
    · next henabled =>
      rw [if_pos henabled]
      exact .inr ⟨_, _, h⟩
    · next hdisabled =>
      rw [if_neg hdisabled]
      exact .inr ⟨l1.shard.sharing, l1.shard.counts, h⟩

theorem admits_eq (s : Shard) (o : Offer) : ∃ scope, s.admits config o now = { o with scope } := by
  unfold Shard.admits Shard.classified
  split
  · exact ⟨_, rfl⟩
  · split <;> exact ⟨_, rfl⟩

theorem admitAnswer_settles (hwf : l.shard.Wf config.maxVariants) (hmax : 0 < config.maxVariants)
    (hlive : live → o.origin.restoring = false) (h : l.admitAnswer P config pinned o now = some (l', d)) :
    l.Settles live l' 0 (ofBool (d.admitted && o.origin.isRefresh)) := by
  obtain ⟨l1, h1, hwf1, hend⟩ := admitAnswer_parts hwf h
  have hs : l.Settles live l1 0 0 := removeAll_settles _ hwf h1
  rcases hend with ⟨rfl, hd⟩ | ⟨sharing, counts, h⟩
  · rw [hd]
    exact hs
  · obtain ⟨scope, heq⟩ := admits_eq l.shard o
    rw [heq] at h
    have hsup := supersede_settles (o := { o with scope }) ((l1.shard.alike_told sharing counts).wf hwf1) hmax hlive h
    exact hs.after ⟨⟨hsup.uses.clock, hsup.uses.entries⟩, hsup.useful, hsup.total⟩

/-- A failure prunes its key; then it is skipped, or takes out some failures and is placed. -/
theorem admitFailure_parts {f} (hwf : l.shard.Wf config.maxVariants)
    (h : l.admitFailure P config pinned f now = some (l', d)) :
    ∃ l1, l.prune pinned f.key now = some l1 ∧ l1.shard.Wf config.maxVariants ∧ (l' = l1 ∨
      ∃ targets l2 superseded, (∀ t ∈ targets, t.1 = true) ∧ l1.removeAll pinned targets = some l2 ∧
        l2.shard.Wf config.maxVariants ∧ l1.shard.Less l2.shard (fun e => targets.contains (e.negative, e.id)) ∧
        l2.place pinned P.overhead config.maxVariants f.key f.stored now superseded = some (l', d)) := by
  obtain ⟨l1, h1, hwf1, _⟩ := prune_spec pinned hwf f.key now
  refine ⟨l1, h1, hwf1, ?_⟩
  simp only [Locked.admitFailure, h1, bind, Option.bind] at h
  split at h
  · cases h
    exact .inl rfl
  · obtain ⟨l2, h2, hwf2, hless⟩ := removeAll_spec pinned (((((l1.shard.buckets f.key).getD []).filter
      fun e => e.scope.overlaps f.scope).filter fun e => e.failure.isSome).map fun e => (true, e.id)) hwf1
    simp only [h2] at h
    exact .inr ⟨_, l2, _, by simp, h2, hwf2, hless, h⟩

theorem admitFailure_settles {f} (hwf : l.shard.Wf config.maxVariants) (hmax : 0 < config.maxVariants)
    (h : l.admitFailure P config pinned f now = some (l', d)) : l.Settles live l' 0 0 := by
  obtain ⟨l1, h1, hwf1, hend⟩ := admitFailure_parts hwf h
  have hs : l.Settles live l1 0 0 := removeAll_settles _ hwf h1
  rcases hend with rfl | ⟨targets, l2, superseded, _, h2, hwf2, _, h⟩
  · exact hs
  · have hplace : l2.Settles live l' 0 _ := place_settles hwf2 hmax (fun _ => rfl) (fun _ => rfl) h
    rw [show f.stored.refreshed = false from rfl, Bool.and_false] at hplace
    exact hs.after ((removeAll_settles _ hwf1 h2).after hplace)

theorem clear_settles {f} (hwf : l.shard.Wf maxVariants) (h : l.clear pinned f = some l') : l.Settles live l' 0 0 := by
  obtain ⟨l1, h1, _⟩ := removeResident_spec pinned hwf (Entry.cleared f)
  have hs : l.Settles live l1 0 0 := removeAll_settles _ hwf h1
  simp only [Locked.clear, h1, bind, Option.bind] at h
  cases h
  exact hs.told _ _

/-! ## Events -/

def unseen (c : Cache) : Nat := (c.shards.map Shard.unseen).sum

theorem sum_set {f : Shard → Nat} {shards : List Shard} (h : shards[i]? = some s) (s') :
    ((shards.set i s').map f).sum + f s = (shards.map f).sum + f s' := by
  induction shards generalizing i with
  | nil => cases h
  | cons a rest ih =>
    cases i with
    | zero =>
      cases h
      simp only [List.set_cons_zero, List.map_cons, List.sum_cons]
      omega
    | succ i =>
      have := ih (i := i) h
      simp only [List.set_cons_succ, List.map_cons, List.sum_cons]
      omega

structure Settles (live : Prop) (c c' : Cache) (seen new : Nat) : Prop where
  uses : c.Each c' fun _ => Shard.Uses live
  useful : c'.refreshUseful = c.refreshUseful + seen
  total : c'.refreshUnused + c'.unseen + seen = c.refreshUnused + c.unseen + new

theorem Settles.refl (c : Cache) : c.Settles live c 0 0 :=
  ⟨⟨.refl c, fun _ s hs => ⟨s, hs, .refl s⟩⟩, rfl, rfl⟩

theorem Settles.recorded (h : c.Settles live c' seen new) (diagnostics) :
    c.Settles live { c' with diagnostics } seen new :=
  ⟨h.uses.recorded _, h.useful, h.total⟩

theorem unlock_settles (hs : c.shards[i]? = some s)
    (h : Locked.Settles live ⟨s, c.refreshUseful, c.refreshUnused⟩ l seen new) :
    c.Settles live (c.unlock i l) seen new := by
  refine ⟨unlock_each hs .refl h.uses, h.useful, ?_⟩
  have hsum := sum_set (f := Shard.unseen) hs l.shard
  have := h.total
  simp only [unseen, unlock] at hsum this ⊢
  omega

theorem Settles.trans (h1 : c.Settles live c' seen new) (h2 : c'.Settles live c'' seen' new') :
    c.Settles live c'' (seen + seen') (new + new') := by
  have := h1.useful
  have := h2.useful
  have := h1.total
  have := h2.total
  refine ⟨⟨h1.uses.frame.trans h2.uses.frame, fun i s hs => ?_⟩, by omega, by omega⟩
  obtain ⟨s1, hs1, hm1⟩ := h1.uses.shards i s hs
  obtain ⟨s2, hs2, hm2⟩ := h2.uses.shards i s1 hs1
  exact ⟨s2, hs2, hm1.trans hm2⟩

/-- An observed lookup of the query settles the mark of a fresh entry that answers it. -/
def Sees (c c' : Cache) (query : SingleQuery) (outgoing : Option ClientSubnet) (now : Nat) (allowStale : Bool) : Prop :=
  ∃ key s s' e, Key.of query = some key ∧ c.shards[c.shardOf key]? = some s ∧ c'.shards[c.shardOf key]? = some s' ∧
    e ∈ s.candidates key outgoing now allowStale ∧ e.fresh now = true ∧ (s.cells e.id).refreshed = true ∧
    (s'.cells e.id).refreshed = false

variable {query : SingleQuery}

theorem lookupInner_settles {pinned result} (hwf : c.Wf)
    (h : c.lookupInner P pinned query outgoing now allowStale observe = some (c', result)) :
    ∃ seen, c.Settles live c' seen 0 ∧
      (seen = 0 ∨ seen = 1 ∧ observe = true ∧ c.Sees c' query outgoing now allowStale) := by
  have hbypassed : ∀ n, c.Settles live { c with bypasses := n } 0 0 := fun n =>
    ⟨⟨⟨rfl, rfl, rfl, rfl⟩, (Settles.refl c).uses.shards⟩, rfl, rfl⟩
  unfold Cache.lookupInner at h
  split at h
  · cases h
    exact ⟨0, hbypassed _, .inl rfl⟩
  next key hkey =>
  split at h
  · cases h
    exact ⟨0, hbypassed _, .inl rfl⟩
  simp only [bind, bind_eq_some_iff, Prod.exists] at h
  obtain ⟨c1, found, h1, h⟩ := h
  have hc : c' = c1 := by
    cases found with
    | none =>
      cases h
      rfl
    | some hit =>
      cases h
      rfl
  subst hc
  obtain ⟨s, l', hs, hlookup, rfl⟩ := withShard_cases h1
  obtain ⟨seen, hsettles, hfinds⟩ := lookup_settles (hwf.shards _ _ hs) hlookup
  refine ⟨seen, unlock_settles hs hsettles, hfinds.imp_right fun ⟨hone, hobserve, e, he, hfresh, hmark, hgone⟩ => ?_⟩
  exact ⟨hone, hobserve, key, s, l'.shard, e, hkey, hs, unlock_getElem? hs, he, hfresh, hmark, hgone⟩

variable {response : Message} {scope : Scope} {epoch : Nat}

theorem admit_settles {pinned} {origin : Origin} (hwf : c.Wf) (hlive : live → origin.restoring = false)
    (h : c.admitAnswer P pinned query response scope now epoch origin = some (c', d)) :
    c.Settles live c' 0 (ofBool (d.admitted && origin.isRefresh)) := by
  rcases admitAnswer_cases h with ⟨rfl, hd⟩ | ⟨key, _, _, _, h⟩
  · rw [hd]
    exact .refl _
  obtain ⟨s, l', hs, hadmit, rfl⟩ := withShard_cases h
  refine unlock_settles hs ?_
  split at hadmit
  · cases hadmit
    split
    · exact .refl _
    · exact reject_settles _
  · exact admitAnswer_settles (hwf.shards _ _ hs) hwf.variants hlive hadmit

theorem admit_unmarked {pinned} {origin : Origin} (hwf : c.Wf) (hlive : live → origin.restoring = false)
    (horigin : origin.isRefresh = false)
    (h : c.admitAnswer P pinned query response scope now epoch origin = some (c', d)) : c.Settles live c' 0 0 := by
  have hsettles := admit_settles hwf hlive h
  rwa [horigin, Bool.and_false] at hsettles

theorem fail_settles {pinned failure} (hwf : c.Wf)
    (h : c.admitFailure P pinned query response scope now epoch failure = some (c', d)) : c.Settles live c' 0 0 := by
  rcases admitFailure_cases h with ⟨rfl, _⟩ | ⟨key, wire, lifetime, _, h⟩
  · exact .refl _
  obtain ⟨s, l', hs, hfail, rfl⟩ := withShard_cases h
  refine unlock_settles hs ?_
  split at hfail
  · cases hfail
    exact reject_settles _
  · exact admitFailure_settles (hwf.shards _ _ hs) hwf.variants hfail

/-- What the step on each shard does, all of them do. -/
theorem forShards_path {f} {R : Cache → Cache → Prop} (refl : ∀ c, R c c)
    (trans : ∀ {c c' c''}, R c c' → R c' c'' → R c c'')
    (hshards : ∀ (i : Nat) (s : Shard), c.shards[i]? = some s → s.Wf maxVariants)
    (hf : ∀ {c i s l'}, c.shards[i]? = some s → s.Wf maxVariants → f i ⟨s, c.refreshUseful, c.refreshUnused⟩ = some l' →
      R c (c.unlock i l') ∧ l'.shard.Wf maxVariants)
    (h : c.forShards f = some c') : R c c' := by
  unfold Cache.forShards at h
  generalize List.range c.shards.length = indices at h
  induction indices generalizing c with
  | nil =>
    obtain rfl := Option.some.inj h
    exact refl _
  | cons i indices ih =>
    simp only [List.foldlM_cons, bind, bind_eq_some_iff] at h
    obtain ⟨c1, ⟨l, hl, l', hl', heq⟩, h⟩ := h
    obtain ⟨s, hs, rfl⟩ := map_eq_some_iff.mp hl
    cases heq
    obtain ⟨hR, hwf'⟩ := hf hs (hshards i s hs) hl'
    refine trans hR (ih (fun j s1 hj => ?_) h)
    rw [unlock, List.getElem?_set] at hj
    split at hj
    · split at hj
      · cases hj
        exact hwf'
      · cases hj
    · exact hshards j s1 hj

theorem unload_path {R : Cache → Cache → Prop} {pinned} {floors : List Nat} (refl : ∀ c, R c c)
    (trans : ∀ {c c' c''}, R c c' → R c' c'' → R c c'') (hwf : c.Wf)
    (hremove : ∀ {c i s n l'} targets, c.shards[i]? = some s → s.Wf n →
      Locked.removeAll (pinned i) ⟨s, c.refreshUseful, c.refreshUnused⟩ targets = some l' → R c (c.unlock i l'))
    (h : unload c pinned floors = some c') : R c c' := by
  refine forShards_path refl trans hwf.shards (fun {c i s l'} hs hwf hl' => ?_) h
  split at hl'
  · next floor _ =>
    obtain ⟨l1, h1, hwf1, _⟩ := removeResident_spec (pinned i) (l := ⟨s, c.refreshUseful, c.refreshUnused⟩) hwf
      fun e => decide (floor < e.id)
    cases hl'.symm.trans h1
    exact ⟨hremove _ hs hwf h1, hwf1⟩
  · cases hl'
    exact ⟨hremove [] hs hwf rfl, hwf⟩

theorem invalidate_settles {pinned name} {kind : Option RecordType}
    {scope : Option Scope} {removed : Nat} (hwf : c.Wf)
    (h : c.invalidate pinned name kind scope = some (c', removed)) : c.Settles live c' 0 0 := by
  simp only [Cache.invalidate, bind, bind_eq_some_iff] at h
  obtain ⟨c1, h1, heq⟩ := h
  cases heq
  have hs : Settles live { c with epoch := c.epoch + 1 } c' 0 0 := by
    refine forShards_path (R := (Settles live · · 0 0)) .refl .trans hwf.shards (fun {c i s l'} hs hwf hl' => ?_) h1
    obtain ⟨l1, h1, hwf1, _⟩ := clear_spec (pinned i) (l := ⟨s, c.refreshUseful, c.refreshUnused⟩) hwf
      ⟨name.map keyName, kind, scope⟩
    cases hl'.symm.trans h1
    exact ⟨unlock_settles hs (clear_settles hwf h1), hwf1⟩
  have hframe := hs.uses.frame
  exact ⟨⟨⟨hframe.config, hframe.hasher, hframe.rules, hframe.length⟩, hs.uses.shards⟩, hs.useful, hs.total⟩

theorem Shard.release_entries (s : Shard) (negative charge) : (s.release negative charge).entries = s.entries := by
  have hlru : ((s.partitions negative).release charge).lru = (s.partitions negative).lru := by
    unfold Partition.release
    split <;> rfl
  unfold Shard.entries Shard.release
  cases negative <;> simp [Function.update, hlru]

theorem release_settles (c : Cache) (i negative charge) : c.Settles live (c.release i negative charge) 0 0 := by
  have hmap : (c.release i negative charge).shards.map Shard.unseen = c.shards.map Shard.unseen := by
    refine List.ext_getElem? fun j => ?_
    simp only [Cache.release, List.getElem?_map, List.getElem?_modify, map_eq_map, map_map]
    refine map_congr fun s _ => ?_
    show (if i = j then s.release negative charge else s).unseen = s.unseen
    split
    · rw [Shard.unseen, Shard.release_entries]
      rfl
    · rfl
  refine ⟨⟨⟨rfl, rfl, rfl, by simp [Cache.release]⟩, fun j s hs => ?_⟩, rfl, ?_⟩
  · by_cases hj : i = j
    · refine ⟨s.release negative charge, by simp [Cache.release, hj, hs], le_rfl, fun x hx => .inl ⟨?_, rfl⟩⟩
      rwa [Shard.release_entries] at hx
    · exact ⟨s, by simp [Cache.release, hj, hs], .refl s⟩
  · rw [unseen, hmap]
    rfl

theorem raiseClocks_unseen (c : Cache) (records) : (raiseClocks c records).unseen = c.unseen := by
  rw [unseen, raiseClocks, List.map_map]
  rfl

theorem raiseClocks_settles (c : Cache) (records) : c.Settles live (raiseClocks c records) 0 0 := by
  refine ⟨(raiseClocks_each c records).mono fun i s s' _ h => ?_, rfl, by rw [raiseClocks_unseen]; rfl⟩
  rw [h]
  exact ⟨Nat.le_max_left _ _, fun x hx => .inl ⟨hx, rfl⟩⟩

variable {call : RestoreCall}

theorem Restoration.settles {bytes outcome}
    (h : Restoration P C call bytes c c' outcome) (hwf : c.Wf) (hlive : ¬live) : c.Settles live c' 0 0 := by
  refine h.path (R := (Settles live · · 0 0)) hwf .refl .trans (raiseClocks_settles c)
    (fun hwf => admit_unmarked hwf (fun h => absurd h hlive) rfl) fun hwf => ?_
  exact unload_path (R := (Settles live · · 0 0)) .refl .trans hwf fun _ hs hwf h =>
    unlock_settles hs (removeAll_settles _ hwf h)

/-! ## Runs -/

/-- How many answers `insert_refresh_if_epoch` admits in this event. -/
def Event.admitsRefresh (P : Platform) (c : Cache) (ev : Event) : Nat :=
  match ev.op with
  | .insertRefresh query response scope epoch =>
    match c.insertRefreshIfEpoch P ev.pinned query response scope ev.now epoch with
    | some (_, d) => ofBool d.admitted
    | none => 0
  | _ => 0

/-- How many it admits in a run. -/
def refreshAdmissions (P : Platform) (C : Codec) : Cache → List Event → Nat
  | _, [] => 0
  | c, ev :: rest =>
    ev.admitsRefresh P c + match step P C c ev with
      | some c' => refreshAdmissions P C c' rest
      | none => 0

/-- The event is an observed lookup that settles a mark as useful. -/
def Event.Sees (c c' : Cache) (ev : Event) : Prop :=
  ∃ query outgoing allowStale, ev.op = .lookup query outgoing allowStale ∧ c.Sees c' query outgoing ev.now allowStale

/-- **What an event settles.** -/
theorem step_settles {ev : Event} (hwf : c.Wf) (h : step P C c ev = some c') :
    ∃ seen, c.Settles (¬ev.op.Restoring) c' seen (ev.admitsRefresh P c) ∧ (seen = 0 ∨ seen = 1 ∧ ev.Sees c c') := by
  obtain ⟨now, pinned, op⟩ := ev
  cases op with
  | lookup query outgoing allowStale =>
    simp only [step, lookupWithDecision, bind, map_eq_some_iff, bind_eq_some_iff, Prod.exists] at h
    obtain ⟨c1, result, ⟨c2, result', h2, heq⟩, rfl⟩ := h
    cases heq
    obtain ⟨seen, hsettles, hseen⟩ := lookupInner_settles hwf h2
    refine ⟨seen, hsettles.recorded _, hseen.imp_right fun h => ?_⟩
    exact ⟨h.1, query, outgoing, allowStale, rfl, h.2.2⟩
  | peek query outgoing allowStale =>
    simp only [step, Cache.peek, bind, map_eq_some_iff, bind_eq_some_iff, Prod.exists] at h
    obtain ⟨c1, hit, ⟨c2, result, h2, heq⟩, rfl⟩ := h
    cases heq
    obtain ⟨seen, hsettles, hseen⟩ := lookupInner_settles hwf h2
    obtain rfl : seen = 0 := hseen.resolve_right fun h => by cases h.2.1
    exact ⟨0, hsettles, .inl rfl⟩
  | insert query response scope epoch =>
    simp only [step, insertDecisionIfEpoch, map_map, map_eq_some_iff, Prod.exists] at h
    obtain ⟨c1, d, h1, rfl⟩ := h
    exact ⟨0, (admit_unmarked hwf (fun _ => rfl) rfl h1).recorded _, .inl rfl⟩
  | insertRefresh query response scope epoch =>
    simp only [step, insertRefreshIfEpoch, map_map, map_eq_some_iff, Prod.exists] at h
    obtain ⟨c1, d, h1, rfl⟩ := h
    refine ⟨0, ?_, .inl rfl⟩
    simp only [Event.admitsRefresh, insertRefreshIfEpoch, h1, map_some]
    rw [show (recordStore (c1, d)).2.admitted = (d.admitted && Origin.refresh.isRefresh) from (Bool.and_true _).symm]
    exact (admit_settles hwf (fun _ => rfl) h1).recorded _
  | insertFailure query response scope epoch failure =>
    simp only [step, insertFailureIfEpoch, map_map, map_eq_some_iff, Prod.exists] at h
    obtain ⟨c1, d, h1, rfl⟩ := h
    exact ⟨0, (fail_settles hwf h1).recorded _, .inl rfl⟩
  | admitRestored query response scope epoch restore =>
    simp only [step, map_eq_some_iff, Prod.exists] at h
    obtain ⟨c1, d, h1, rfl⟩ := h
    exact ⟨0, admit_unmarked hwf (fun h => absurd trivial h) rfl h1, .inl rfl⟩
  | invalidate name kind scope =>
    simp only [step, map_eq_some_iff, Prod.exists] at h
    obtain ⟨c1, removed, h1, rfl⟩ := h
    exact ⟨0, invalidate_settles hwf h1, .inl rfl⟩
  | restoreSnapshot call cancelled bytes =>
    obtain ⟨c1, outcome, h1, hres⟩ := restore_spec P C { call with now := now } cancelled bytes hwf
    simp only [step, h1, map_some, Option.some.injEq] at h
    rw [← h]
    exact ⟨0, hres.settles hwf fun h => h trivial, .inl rfl⟩
  | release i negative charge =>
    cases h
    exact ⟨0, release_settles c i negative charge, .inl rfl⟩

theorem run_settles {c0 : Cache} {events} (hwf : c0.Wf) (hrun : run (step P C) c0 events = some c) :
    c.refreshUseful + c.refreshUnused + c.unseen =
      c0.refreshUseful + c0.refreshUnused + c0.unseen + refreshAdmissions P C c0 events := by
  induction events generalizing c0 with
  | nil =>
    cases hrun
    rfl
  | cons ev rest ih =>
    simp only [run, List.foldlM_cons, bind, bind_eq_some_iff] at hrun
    obtain ⟨c1, hstep, hrest⟩ := hrun
    obtain ⟨seen, hsettles, _⟩ := step_settles hwf hstep
    have := ih ((step_cases hwf hstep).wf hwf) hrest
    have := hsettles.useful
    have := hsettles.total
    simp only [refreshAdmissions, hstep]
    omega

def Marked (c : Cache) (i : Nat) (e : Entry) : Prop :=
  ∃ s, c.shards[i]? = some s ∧ e ∈ s.entries ∧ (s.cells e.id).refreshed = true

/-- **Refresh accounting is conserved.** After every run, the refreshes that were useful, those that
were unused and the entries still marked come to the refreshes admitted. In every next event no entry
regains a mark, and at most one mark is settled as useful, namely that of a fresh entry which answers
an observed lookup. -/
theorem refreshes_conserved {hasher : Key → Nat} (hvariants : 0 < config.maxVariants) {events : List Event}
    (hrun : run (step P C) (Cache.new hasher config) events = some c) :
    c.refreshUseful + c.refreshUnused + c.unseen = refreshAdmissions P C (Cache.new hasher config) events ∧
    ∀ ev c', step P C c ev = some c' →
      (∀ i e, c.Holds i e → c'.Marked i e → c.Marked i e) ∧
      (c'.refreshUseful = c.refreshUseful ∨ c'.refreshUseful = c.refreshUseful + 1 ∧ ev.Sees c c') := by
  have hwf0 := new_wf hasher hvariants
  have hzero : (Cache.new hasher config).unseen = 0 := by
    simp [unseen, Cache.new, Shard.unseen, Shard.new_entries, Function.comp_def]
  have hwf := (run_keeps hwf0 hrun).1
  have htotal := run_settles hwf0 hrun
  rw [hzero] at htotal
  refine ⟨by simpa [Cache.new] using htotal, fun ev c' hstep => ?_⟩
  obtain ⟨seen, hsettles, hseen⟩ := step_settles hwf hstep
  refine ⟨?_, ?_⟩
  · rintro i e ⟨s, hs, he⟩ ⟨s', hs', he', hmark⟩
    obtain ⟨s1, hs1, huses⟩ := hsettles.uses.shards i s hs
    cases hs'.symm.trans hs1
    rcases huses.entries e he' with ⟨_, hsame⟩ | ⟨⟨_, hused⟩ | hnew, _⟩
    · exact ⟨s, hs, he, hsame ▸ hmark⟩
    · rw [hused] at hmark
      cases hmark
    · have := (hwf.shards i s hs).clock e he
      omega
  · rw [hsettles.useful]
    exact hseen.imp (fun h => by rw [h]; rfl) fun h => ⟨by rw [h.1], h.2⟩

/-- A refresh that a lookup finds after five seconds, and another that nobody has seen. -/
def refreshEvents : List Event :=
  [{ now := 0, op := .insertRefresh sampleQuery sampleResponse .noEcs 0 },
    { now := 5 * second, op := .lookup sampleQuery none false },
    { now := 6 * second, op := .insertRefresh sampleQuery sampleResponse .noEcs 0 }]

theorem refreshes_conserved_sample : ∃ c,
    run (step samplePlatform sampleCodec) (Cache.new (fun _ => 7) {}) refreshEvents = some c ∧
    c.refreshUseful = 1 ∧ c.unseen = 1 ∧ c.refreshUseful + c.refreshUnused + c.unseen =
      refreshAdmissions samplePlatform sampleCodec (Cache.new (fun _ => 7) {}) refreshEvents := by
  have hshape : (run (step samplePlatform sampleCodec) (Cache.new (fun _ => 7) {}) refreshEvents).map
      (fun c => (c.refreshUseful, c.unseen)) = some (1, 1) := by decide +kernel
  obtain ⟨c, hrun, hshape⟩ := map_eq_some_iff.mp hshape
  obtain ⟨huseful, hunseen⟩ := Prod.mk.inj hshape
  exact ⟨c, hrun, huseful, hunseen, (refreshes_conserved (by decide) hrun).1⟩

end Parins.Cache
