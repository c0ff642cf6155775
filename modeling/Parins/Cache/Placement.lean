/-
Eviction and placement keep the indexes in agreement. A placed entry gets the
next id; what leaves to make room for it is of its own kind (`place_spec`).
-/
import Mathlib.Logic.Relation
import Parins.Cache.Indexes

namespace Parins.Cache
open Net Lib Relation List Function

variable {maxVariants : Nat} {s s' : Shard} {e x : Entry} {key : Key} {l : Locked}

/-- Two shards with the same entries in both indexes: order of use, clock and statistics apart. -/
structure Shard.Alike (s s' : Shard) : Prop where
  buckets : s'.buckets = s.buckets
  lru : ∀ part, (s'.partitions part).lru.items.Perm (s.partitions part).lru.items
  charged : ∀ part, (s'.partitions part).charged = (s.partitions part).charged
  held : ∀ part, (s'.partitions part).held = (s.partitions part).held
  maxEntries : ∀ part, (s'.partitions part).maxEntries = (s.partitions part).maxEntries
  maxBytes : ∀ part, (s'.partitions part).maxBytes = (s.partitions part).maxBytes
  clock : s.clock ≤ s'.clock
  learned : s'.learned = s.learned
  failures : s'.failures = s.failures

theorem Shard.Alike.perm (h : s.Alike s') : s'.entries.Perm s.entries :=
  ((h.lru false).map _).append ((h.lru true).map _)

theorem Shard.Alike.wf (h : s.Alike s') (hwf : s.Wf maxVariants) : s'.Wf maxVariants where
  parts part := by
    have hp := hwf.parts part
    refine ⟨fun id e hm => hp.filed id e ((h.lru part).mem_iff.mp hm), ?_, ?_, ?_⟩
    · rw [(h.lru part).length_eq, h.maxEntries]
      exact hp.fits
    · rw [h.charged, h.held, ((h.lru part).map _).sum_eq]
      exact hp.charged
    · rw [h.charged, h.maxBytes]
      exact hp.within
  ids := (h.perm.map _).nodup_iff.mpr hwf.ids
  clock e he := (hwf.clock e (h.perm.mem_iff.mp he)).trans h.clock
  indexed key b hb e he := by
    obtain ⟨hk, hm⟩ := hwf.indexed key b (h.buckets ▸ hb) e he
    exact ⟨hk, h.perm.mem_iff.mpr hm⟩
  filed e he := h.buckets ▸ hwf.filed e (h.perm.mem_iff.mp he)
  nonempty key b hb := hwf.nonempty key b (h.buckets ▸ hb)
  variants key b hb := hwf.variants key b (h.buckets ▸ hb)
  learned := by rw [h.learned, hwf.learned, h.perm.countP_eq]
  failures := by rw [h.failures, hwf.failures, h.perm.countP_eq]
  negative e he := hwf.negative e (h.perm.mem_iff.mp he)

/-! ## Eviction -/

/-- Statistics apart, nothing has changed. -/
structure Shard.SameButStats (s s' : Shard) : Prop where
  buckets : s'.buckets = s.buckets
  partitions : ∀ part, ∃ evictions, s'.partitions part = { s.partitions part with evictions }
  cells : s'.cells = s.cells
  clock : s'.clock = s.clock
  sharing : s'.sharing = s.sharing
  learned : s'.learned = s.learned
  failures : s'.failures = s.failures

theorem Shard.SameButStats.alike (h : s.SameButStats s') : s.Alike s' := by
  have hp : ∀ {β : Type} (f : Partition → β), (∀ p evictions, f { p with evictions } = f p) →
      ∀ part, f (s'.partitions part) = f (s.partitions part) := by
    intro β f hf part
    obtain ⟨evictions, he⟩ := h.partitions part
    rw [he, hf]
  exact ⟨h.buckets, fun part => .of_eq (hp (fun p => p.lru.items) (fun _ _ => rfl) part),
    hp Partition.charged fun _ _ => rfl, hp Partition.held fun _ _ => rfl, hp Partition.maxEntries fun _ _ => rfl,
    hp Partition.maxBytes fun _ _ => rfl, h.clock.ge, h.learned, h.failures⟩

theorem Shard.SameButStats.less (h : s.SameButStats s') : s.Less s' fun _ => false := by
  have ha := h.alike
  refine ⟨fun part => ?_, fun key => by simp [h.buckets], h.clock, h.sharing, fun e _ => by rw [h.cells],
    ha.maxEntries, ha.maxBytes⟩
  obtain ⟨evictions, he⟩ := h.partitions part
  simp [he]

/-- An eviction is counted in its own partition, and is then a removal. -/
theorem evict_eq (pinned now reason) (hwf : l.shard.Wf maxVariants) (he : e ∈ l.shard.entries) :
    ∃ shard, l.evict pinned e.negative e.id now reason = Locked.remove pinned { l with shard } e.negative e.id ∧
      l.shard.SameButStats shard ∧ ∀ part, part ≠ e.negative → shard.partitions part = l.shard.partitions part := by
  simp only [Locked.evict, hwf.peek he, bind, Option.bind]
  refine ⟨_, rfl, ⟨rfl, fun part => ?_, rfl, rfl, rfl, rfl, rfl⟩, fun part hp => update_of_ne hp ..⟩
  by_cases hp : part = e.negative
  · subst hp
    exact ⟨_, update_self ..⟩
  · exact ⟨_, update_of_ne hp ..⟩

theorem evict_spec (pinned now reason) (hwf : l.shard.Wf maxVariants) (he : e ∈ l.shard.entries) :
    ∃ l', l.evict pinned e.negative e.id now reason = some l' ∧ l'.shard.Wf maxVariants ∧
      l.shard.Less l'.shard (named e.negative e.id) := by
  obtain ⟨shard, heq, hsame, _⟩ := evict_eq pinned now reason hwf he
  obtain ⟨l', hl', hwf', hless⟩ := remove_spec (l := { l with shard }) pinned (hsame.alike.wf hwf) e.negative e.id
  exact ⟨l', heq.trans hl', hwf', (hsame.less.trans hless).congr hwf fun x _ => Bool.false_or _⟩

/-! ## Targets -/

theorem Shard.Wf.contains_targets (hwf : s.Wf maxVariants) (p) (he : e ∈ s.entries) :
    (s.targets key p).contains (e.negative, e.id) = (decide (e.key = key) && p e) := by
  rw [Bool.eq_iff_iff, contains_iff_mem, Shard.targets, mem_map]
  simp only [mem_filter, hwf.mem_bucket, Prod.mk.injEq, Bool.and_eq_true, decide_eq_true_eq]
  constructor
  · rintro ⟨x, ⟨⟨hx, hk⟩, hp⟩, _, hid⟩
    obtain rfl := hwf.eq_of_id hx he hid
    exact ⟨hk, hp⟩
  · rintro ⟨hk, hp⟩
    exact ⟨e, ⟨⟨he, hk⟩, hp⟩, rfl, rfl⟩

theorem removeTargets_spec (pinned) (hwf : l.shard.Wf maxVariants) (key p) :
    ∃ l', l.removeAll pinned (l.shard.targets key p) = some l' ∧ l'.shard.Wf maxVariants ∧
      l.shard.Less l'.shard (fun e => decide (e.key = key) && p e) := by
  obtain ⟨l', hl', hwf', hless⟩ := removeAll_spec pinned (l.shard.targets key p) hwf
  exact ⟨l', hl', hwf', hless.congr hwf fun e he => hwf.contains_targets p he⟩

theorem prune_spec (pinned) (hwf : l.shard.Wf maxVariants) (key now) :
    ∃ l', l.prune pinned key now = some l' ∧ l'.shard.Wf maxVariants ∧
      l.shard.Less l'.shard (fun e => decide (e.key = key) && e.expired now) :=
  removeTargets_spec pinned hwf key _

/-! ## Making room -/

theorem length_evicted {part} (hwf : s.Wf maxVariants) (he : e ∈ s.entries) (hpart : e.negative = part)
    (h : s.Less s' (named e.negative e.id)) :
    (s'.partitions part).lru.items.length < (s.partitions part).lru.items.length := by
  subst hpart
  rw [h.lru]
  exact length_filter_lt_length_iff_exists.mpr ⟨_, hwf.mem_lru he, by simp [named]⟩

theorem mem_of_minByAccess {accessed entries} (h : minByAccess accessed entries = some e) : e ∈ entries := by
  induction entries generalizing e with
  | nil => cases h
  | cons x rest ih =>
    unfold minByAccess at h
    split at h
    · cases h
      exact mem_cons_self
    · next r hr =>
      split at h <;> cases h
      · exact mem_cons_of_mem _ (ih hr)
      · exact mem_cons_self

variable {l' : Locked} {pinned : Nat → Bool} {now : Nat} {negative : Bool}

/-- An entry of this kind is evicted. -/
def Evicts (pinned : Nat → Bool) (now : Nat) (negative : Bool) (l l' : Locked) : Prop :=
  ∃ e ∈ l.shard.entries, e.negative = negative ∧ ∃ reason, l.evict pinned e.negative e.id now reason = some l'

/-- One after the other. -/
abbrev Evicted (pinned : Nat → Bool) (now : Nat) (negative : Bool) := ReflTransGen (Evicts pinned now negative)

theorem Evicted.less (h : Evicted pinned now negative l l') (hwf : l.shard.Wf maxVariants) :
    l'.shard.Wf maxVariants ∧ ∃ gone, l.shard.Less l'.shard gone := by
  induction h with
  | refl => exact ⟨hwf, _, .refl _⟩
  | tail _ hstep ih =>
    obtain ⟨hwf1, gone, hless1⟩ := ih
    obtain ⟨e, he, rfl, reason, hevict⟩ := hstep
    obtain ⟨l2, h2, hwf2, hless2⟩ := evict_spec pinned now reason hwf1 he
    cases hevict.symm.trans h2
    exact ⟨hwf2, _, hless1.trans hless2⟩

/-- What each of the evictions keeps. -/
theorem Evicted.keeps {I : Locked → Prop} (h : Evicted pinned now negative l l') (hwf : l.shard.Wf maxVariants)
    (start : I l) (next : ∀ {l1 l2 e reason}, l1.shard.Wf maxVariants → e ∈ l1.shard.entries → e.negative = negative →
      l1.evict pinned e.negative e.id now reason = some l2 → I l1 → I l2) : I l' := by
  induction h with
  | refl => exact start
  | tail hpath hstep ih =>
    obtain ⟨e, he, hneg, reason, hevict⟩ := hstep
    exact next (Evicted.less hpath hwf).1 he hneg hevict ih

/-- The variant ceiling leaves room for one more, at the cost of entries of the same kind. -/
theorem limitVariants_spec (pinned) (hwf : l.shard.Wf maxVariants) (hmax : 0 < maxVariants) (key negative now) :
    ∃ l' room, l.limitVariants pinned key negative maxVariants now = some (l', room) ∧ Evicted pinned now negative l l' ∧
      (room = true → ((l'.shard.buckets key).getD []).length < maxVariants) := by
  unfold Locked.limitVariants
  split
  · next hb => exact ⟨l, true, rfl, .refl, fun _ => by simp [hb, hmax]⟩
  · next ids hb =>
    split
    · next hlt => exact ⟨l, true, rfl, .refl, fun _ => by simpa [hb] using hlt⟩
    · split
      · exact ⟨l, false, rfl, .refl, by simp⟩
      · next e hmin =>
        obtain ⟨hids, hneg⟩ := mem_filter.mp (mem_of_minByAccess hmin)
        have he := (hwf.indexed key ids hb e hids).2
        obtain ⟨l', hl', _, hless⟩ := evict_spec pinned now .variants hwf he
        refine ⟨l', true, by rw [hl']; rfl, .single ⟨e, he, of_decide_eq_true hneg, _, hl'⟩, fun _ => ?_⟩
        -- The bucket was full at most, and the evicted entry was in it.
        rw [hless.buckets, hb]
        refine lt_of_lt_of_le ?_ (hwf.variants key ids hb).1
        exact length_filter_lt_length_iff_exists.mpr ⟨e, hids, by simp [named]⟩

/-- The eviction loop ends, with room or with an empty partition, at the cost of its own entries. -/
theorem makeRoom_spec (pinned part charge now fuel) (hwf : l.shard.Wf maxVariants)
    (hfuel : (l.shard.partitions part).lru.items.length < fuel) :
    ∃ l' room, Locked.makeRoom pinned part charge now fuel l = some (l', room) ∧ Evicted pinned now part l l' ∧
      (room = true → (l'.shard.partitions part).lru.items.length < (l'.shard.partitions part).maxEntries ∧
        (l'.shard.partitions part).charged + charge ≤ (l'.shard.partitions part).maxBytes) := by
  induction fuel generalizing l with
  | zero => omega
  | succ fuel ih =>
    unfold Locked.makeRoom
    dsimp only
    split
    · next hroom =>
      refine ⟨l, true, rfl, .refl, fun _ => ?_⟩
      simp only [Bool.and_eq_true, Bool.not_eq_true', decide_eq_false_iff_not] at hroom
      omega
    · split
      · exact ⟨l, false, rfl, .refl, by simp⟩
      · next id e hlru =>
        have hm := Recency.mem_of_peekLru hlru
        obtain ⟨rfl, hpart⟩ := (hwf.parts part).filed id e hm
        have he : e ∈ l.shard.entries := mem_entries_of_lru hm
        generalize evictionReason _ _ = reason
        obtain ⟨l1, h1, hwf1, hless1⟩ := evict_spec pinned now reason hwf he
        have hlen := length_evicted hwf he hpart hless1
        obtain ⟨l2, room, h2, hpath, hroom⟩ := ih hwf1 (by omega)
        subst hpart
        exact ⟨l2, room, by rw [h1]; exact h2, .head ⟨e, he, rfl, reason, h1⟩ hpath, hroom⟩

/-! ## Publication -/

/-- A shard with one more entry in both indexes and in the counters. -/
structure Shard.With (s s' : Shard) (e : Entry) (cells : Cells) : Prop where
  buckets : s'.buckets = Function.update s.buckets e.key (some ((s.buckets e.key).getD [] ++ [e]))
  partitions : ∃ lru, lru.items.Perm ((e.id, e) :: (s.partitions e.negative).lru.items) ∧
    s'.partitions = Function.update s.partitions e.negative
      { s.partitions e.negative with lru, charged := (s.partitions e.negative).charged + e.charge }
  id : e.id = s.clock + 1
  clock : s'.clock = e.id
  learned : s'.learned = s.learned + ofBool e.scope.isLearned
  failures : s'.failures = s.failures + ofBool e.failure.isSome
  sharing : s'.sharing = s.sharing
  cells : s'.cells = Function.update s.cells e.id cells

/-- `s'` is `s` without the entries that are `gone` and with a new entry `e`, under the next id. -/
structure Shard.More (s s' : Shard) (gone : Entry → Bool) (e : Entry) (cells : Cells) : Prop where
  mem_iff : ∀ {x}, x ∈ s'.entries ↔ x = e ∨ x ∈ s.entries ∧ gone x = false
  id : e.id = s.clock + 1
  clock : s'.clock = e.id
  sharing : s'.sharing = s.sharing
  newCells : s'.cells e.id = cells
  cells : ∀ x ∈ s'.entries, x ≠ e → s'.cells x.id = s.cells x.id
  maxEntries : ∀ part, (s'.partitions part).maxEntries = (s.partitions part).maxEntries
  maxBytes : ∀ part, (s'.partitions part).maxBytes = (s.partitions part).maxBytes

variable {cells : Cells}

theorem Shard.With.perm (h : s.With s' e cells) : s'.entries.Perm (e :: s.entries) := by
  obtain ⟨lru, hperm, hp⟩ := h.partitions
  have hnew : (s'.partitions e.negative).lru = lru := by rw [hp, update_self]
  have hall := entries_update s' e.negative (p := s.partitions e.negative) (hnew ▸ hperm)
  have hback : Function.update s'.partitions e.negative (s.partitions e.negative) = s.partitions := by
    rw [hp, update_idem, update_eq_self]
  rwa [hback] at hall

theorem Shard.With.more (hwf : s.Wf maxVariants) (h : s.With s' e cells) : s.More s' (fun _ => false) e cells := by
  obtain ⟨lru, hperm, hp⟩ := h.partitions
  have hlimits : ∀ {f : Partition → Nat}, (∀ p lru charged, f { p with lru, charged } = f p) →
      ∀ part, f (s'.partitions part) = f (s.partitions part) := by
    intro f hf part
    rw [hp]
    by_cases hpart : part = e.negative
    · rw [hpart, update_self, hf]
    · rw [update_of_ne hpart]
  refine ⟨by simp [h.perm.mem_iff], h.id, h.clock, h.sharing, ?_, fun x hx hne => ?_,
    hlimits fun _ _ _ => rfl, hlimits fun _ _ _ => rfl⟩
  · rw [h.cells, update_self]
  · rw [h.cells, update_of_ne]
    rcases mem_cons.mp (h.perm.mem_iff.mp hx) with rfl | hx
    · exact absurd rfl hne
    · have := hwf.clock x hx
      have := h.id
      omega

variable {g1 g2 : Entry → Bool} {s1 s2 s3 : Shard}

theorem Shard.Less.more (h1 : s1.Less s2 g1)
    (h2 : s2.More s3 g2 e cells) : s1.More s3 (fun x => g1 x || g2 x) e cells where
  mem_iff := by simp [h2.mem_iff, h1.mem_iff, and_assoc]
  id := h1.clock ▸ h2.id
  clock := h2.clock
  sharing := h2.sharing.trans h1.sharing
  newCells := h2.newCells
  cells x hx hne := (h2.cells x hx hne).trans <| h1.cells x ((h2.mem_iff.mp hx).resolve_left hne).1
  maxEntries part := (h2.maxEntries part).trans (h1.maxEntries part)
  maxBytes part := (h2.maxBytes part).trans (h1.maxBytes part)

theorem Shard.With.wf (hwf : s.Wf maxVariants) (h : s.With s' e cells)
    (hvariants : ((s.buckets e.key).getD []).length < maxVariants)
    (hfits : (s.partitions e.negative).lru.items.length < (s.partitions e.negative).maxEntries)
    (hbytes : (s.partitions e.negative).charged + e.charge ≤ (s.partitions e.negative).maxBytes)
    (hfailure : e.failure.isSome = true → e.negative = true) : s'.Wf maxVariants := by
  have hperm := h.perm
  have hmem : ∀ {x}, x ∈ s'.entries ↔ x = e ∨ x ∈ s.entries := by simp [hperm.mem_iff]
  have hlt : ∀ x ∈ s.entries, x.id < e.id := fun x hx => by
    have := hwf.clock x hx
    have := h.id
    omega
  have hbucket : ∀ key, (s'.buckets key).getD [] = (s.buckets key).getD [] ++ if key = e.key then [e] else [] := by
    intro key
    rw [h.buckets]
    by_cases hk : key = e.key
    · subst hk
      simp
    · simp [hk]
  have hget : ∀ {key b}, s'.buckets key = some b → (s'.buckets key).getD [] = b := fun hb => by rw [hb]; rfl
  refine ⟨fun part => ?_, ?_, fun x hx => ?_, fun key b hb x hx => ?_, fun x hx => ?_, fun key b hb => ?_,
    fun key b hb => ?_, ?_, ?_, fun x hx => ?_⟩
  · obtain ⟨lru, hlru, hp⟩ := h.partitions
    rw [hp]
    by_cases hpart : part = e.negative
    · subst hpart
      rw [update_self]
      have hw := hwf.parts e.negative
      refine ⟨fun id x hx => ?_, ?_, ?_, hbytes⟩
      · rcases mem_cons.mp (hlru.mem_iff.mp hx) with heq | hx
        · obtain ⟨rfl, rfl⟩ := Prod.mk.inj heq
          exact ⟨rfl, rfl⟩
        · exact hw.filed id x hx
      · rw [hlru.length_eq]
        exact hfits
      · have hcharged := hw.charged
        rw [(hlru.map _).sum_eq, map_cons, sum_cons]
        dsimp only
        omega
    · rw [update_of_ne hpart]
      exact hwf.parts part
  · refine (hperm.map Entry.id).nodup_iff.mpr (nodup_cons.mpr ⟨fun hid => ?_, hwf.ids⟩)
    obtain ⟨x, hx, hid⟩ := mem_map.mp hid
    exact absurd (hlt x hx) (by omega)
  · rw [h.clock]
    rcases hmem.mp hx with rfl | hx
    · exact le_rfl
    · exact (hlt x hx).le
  · rw [← hget hb, hbucket, mem_append] at hx
    rcases hx with hx | hx
    · obtain ⟨hxe, hk⟩ := hwf.mem_bucket.mp hx
      exact ⟨hk, hmem.mpr (.inr hxe)⟩
    · split at hx
      · next hk =>
        obtain rfl := mem_singleton.mp hx
        exact ⟨hk.symm, hmem.mpr (.inl rfl)⟩
      · cases hx
  · have hx' : x ∈ (s'.buckets x.key).getD [] := by
      rw [hbucket, mem_append]
      rcases hmem.mp hx with rfl | hx
      · exact .inr (by simp)
      · exact .inl (hwf.mem_bucket.mpr ⟨hx, rfl⟩)
    cases hb : s'.buckets x.key with
    | none => simp [hb] at hx'
    | some b => exact ⟨b, rfl, hget hb ▸ hx'⟩
  · rw [h.buckets] at hb
    by_cases hk : key = e.key
    · subst hk
      rw [update_self] at hb
      cases hb
      simp
    · rw [update_of_ne hk] at hb
      exact hwf.nonempty key b hb
  · by_cases hk : key = e.key
    · subst hk
      rw [h.buckets, update_self] at hb
      cases hb
      refine ⟨by simpa using Nat.succ_le_of_lt hvariants, ?_⟩
      rw [map_append, nodup_append]
      refine ⟨?_, by simp, fun a ha b hb => ?_⟩
      · cases hb : s.buckets e.key with
        | none => simp
        | some b => exact (hwf.variants e.key b hb).2
      · obtain ⟨x, hx, rfl⟩ := mem_map.mp ha
        obtain rfl : b = e.id := by simpa using hb
        exact (hlt x (hwf.mem_bucket.mp hx).1).ne
    · rw [h.buckets, update_of_ne hk] at hb
      exact hwf.variants key b hb
  · rw [h.learned, hwf.learned, hperm.countP_eq, countP_cons]
    rfl
  · rw [h.failures, hwf.failures, hperm.countP_eq, countP_cons]
    rfl
  · rcases hmem.mp hx with rfl | hx
    · exact hfailure
    · exact hwf.negative x hx

theorem publish_with (hwf : l.shard.Wf maxVariants) (key) (stored : Stored) (charge now) :
    l.shard.With (l.publish key stored charge now).shard (stored.entry key charge now (l.shard.clock + 1))
      ⟨stored.refreshed, 0, stored.accessed.getD (l.shard.clock + 1)⟩ := by
  refine ⟨rfl, ⟨_, ?_, rfl⟩, rfl, rfl, rfl, rfl, rfl, rfl⟩
  have hnone : (l.shard.partitions stored.negative).lru.peek (l.shard.clock + 1) = none := by
    refine Recency.peek_eq_none_iff.mpr fun x hx => ?_
    have hid := ((hwf.parts _).filed _ x hx).1
    have := hwf.clock x (mem_entries_of_lru hx)
    omega
  have hput := List.Perm.of_eq (Recency.put_of_absent (v := stored.entry key charge now (l.shard.clock + 1)) hnone)
  dsimp only [Stored.entry] at hput ⊢
  split
  · exact (Recency.demote_perm _ _).trans hput
  · exact hput

/-- What `Cache::place` comes to: the entry it was given is in, or it is not. -/
def Shard.Placed (s s' : Shard) (gone : Entry → Bool) (e : Entry) (cells : Cells) : Prop :=
  s.Less s' gone ∨ s.More s' gone e cells

theorem Shard.Less.placed (h1 : s1.Less s2 g1) (h2 : s2.Placed s3 g2 e cells) :
    s1.Placed s3 (fun x => g1 x || g2 x) e cells :=
  h2.imp h1.trans h1.more

theorem rejected_admitted (reason superseded) : (StoreDecision.rejected reason superseded).admitted = false := by
  cases superseded <;> rfl

theorem reject_same (l : Locked) : l.shard.SameButStats l.reject.shard :=
  ⟨rfl, fun _ => ⟨_, rfl⟩, rfl, rfl, rfl, rfl, rfl⟩

variable {gone : Entry → Bool}

/-- **Placement.** It never fails; entries of the same kind are evicted, and then the new one is rejected or goes in. -/
theorem place_path (pinned overhead now key) (stored : Stored) (superseded)
    (hwf : l.shard.Wf maxVariants) (hmax : 0 < maxVariants)
    (hfailure : stored.failure.isSome = true → stored.negative = true) :
    ∃ l1 l' d, l.place pinned overhead maxVariants key stored now superseded = some (l', d) ∧
      Evicted pinned now stored.negative l l1 ∧ l'.shard.Wf maxVariants ∧ (d.admitted = false ∧ l' = l1.reject ∨
        d.admitted = true ∧ l' = l1.publish key stored (charge overhead stored.wire key) now) := by
  have hreject : ∀ l1, Evicted pinned now stored.negative l l1 → l1.reject.shard.Wf maxVariants := fun l1 hpath =>
    (reject_same l1).alike.wf (hpath.less hwf).1
  unfold Locked.place
  dsimp only
  split
  · exact ⟨l, _, _, rfl, .refl, hreject l .refl, .inl ⟨rejected_admitted _ _, rfl⟩⟩
  obtain ⟨l1, room, h1, hpath1, hroom1⟩ := limitVariants_spec pinned hwf hmax key stored.negative now
  simp only [h1, bind, Option.bind]
  cases room with
  | false => exact ⟨l1, _, _, rfl, hpath1, hreject l1 hpath1, .inl ⟨rejected_admitted _ _, rfl⟩⟩
  | true =>
    obtain ⟨hwf1, _⟩ := hpath1.less hwf
    obtain ⟨l2, room, h2, hpath2, hroom2⟩ :=
      makeRoom_spec pinned stored.negative (charge overhead stored.wire key) now _ hwf1 (Nat.lt_succ_self _)
    simp only [Bool.not_true, Bool.false_eq_true, if_false, h2]
    have hpath : Evicted pinned now stored.negative l l2 := hpath1.trans hpath2
    cases room with
    | false => exact ⟨l2, _, _, rfl, hpath, hreject l2 hpath, .inl ⟨rejected_admitted _ _, rfl⟩⟩
    | true =>
      obtain ⟨hwf2, _, hless2⟩ := hpath2.less hwf1
      obtain ⟨hfits, hbytes⟩ := hroom2 rfl
      refine ⟨l2, _, _, rfl, hpath, (publish_with hwf2 key stored _ now).wf hwf2 ?_ hfits hbytes hfailure, .inr ⟨?_, rfl⟩⟩
      · -- Evicting for room only shortens the bucket.
        dsimp only [Stored.entry]
        rw [hless2.buckets]
        exact lt_of_le_of_lt (length_filter_le _ _) (hroom1 rfl)
      · cases superseded <;> rfl

/-- What it does to the indexes. -/
theorem place_spec (pinned overhead now key) (stored : Stored) (superseded)
    (hwf : l.shard.Wf maxVariants) (hmax : 0 < maxVariants)
    (hfailure : stored.failure.isSome = true → stored.negative = true) :
    ∃ l' d gone, l.place pinned overhead maxVariants key stored now superseded = some (l', d) ∧
      l'.shard.Wf maxVariants ∧ l.shard.Placed l'.shard gone
        (stored.entry key (charge overhead stored.wire key) now (l.shard.clock + 1))
        ⟨stored.refreshed, 0, stored.accessed.getD (l.shard.clock + 1)⟩ := by
  obtain ⟨l1, l', d, h, hpath, hwf', hend⟩ := place_path pinned overhead now key stored superseded hwf hmax hfailure
  obtain ⟨hwf1, gone, hless⟩ := hpath.less hwf
  refine ⟨l', d, fun x => gone x || false, h, hwf', hend.imp ?_ ?_⟩
  · rintro ⟨_, rfl⟩
    exact hless.trans (reject_same l1).less
  · rintro ⟨_, rfl⟩
    rw [← hless.clock]
    exact hless.more ((publish_with hwf1 key stored _ now).more hwf1)

theorem place_roomy (pinned overhead now key) (stored : Stored) (superseded)
    (hlen : ((l.shard.buckets key).getD []).length < maxVariants)
    (hfits : (l.shard.partitions stored.negative).lru.items.length < (l.shard.partitions stored.negative).maxEntries)
    (hbytes : (l.shard.partitions stored.negative).charged + charge overhead stored.wire key ≤
      (l.shard.partitions stored.negative).maxBytes) :
    l.place pinned overhead maxVariants key stored now superseded =
      some (l.publish key stored (charge overhead stored.wire key) now,
        ⟨if superseded then .replaced else .admitted, none⟩) := by
  have hlimit : l.limitVariants pinned key stored.negative maxVariants now = some (l, true) := by
    unfold Locked.limitVariants
    split
    · rfl
    · next ids hb =>
      rw [hb] at hlen
      exact if_pos hlen
  have hroom : ∀ fuel, Locked.makeRoom pinned stored.negative (charge overhead stored.wire key) now (fuel + 1) l =
      some (l, true) := by
    intro fuel
    unfold Locked.makeRoom
    refine if_pos ?_
    rw [decide_eq_false (by omega), decide_eq_false (by omega)]
    rfl
  unfold Locked.place
  dsimp only
  rw [if_neg (by omega), hlimit]
  dsimp only [bind, Option.bind]
  rw [if_neg (by simp), hroom]
  rfl

/-! ## Changes -/

/-- What a step under the lock may do to the entries: some leave, and one may enter under a new
id. -/
structure Shard.Change (s s' : Shard) (gone : Entry → Bool) (new : Option Entry) : Prop where
  mem_iff : ∀ {x}, x ∈ s'.entries ↔ new = some x ∨ x ∈ s.entries ∧ gone x = false
  id : ∀ e, new = some e → s.clock < e.id
  clock : s.clock ≤ s'.clock
  maxEntries : ∀ part, (s'.partitions part).maxEntries = (s.partitions part).maxEntries
  maxBytes : ∀ part, (s'.partitions part).maxBytes = (s.partitions part).maxBytes

theorem Shard.Less.change (h : s.Less s' gone) : s.Change s' gone none :=
  ⟨by simp [h.mem_iff], by simp, h.clock.ge, h.maxEntries, h.maxBytes⟩

theorem Shard.More.change (h : s.More s' gone e cells) : s.Change s' gone (some e) := by
  refine ⟨by simp [h.mem_iff, @eq_comm _ e], fun x hx => ?_, ?_, h.maxEntries, h.maxBytes⟩
  · cases hx
    have := h.id
    omega
  · have := h.id
    have := h.clock
    omega

theorem Shard.Alike.change (h : s.Alike s') : s.Change s' (fun _ => false) none :=
  ⟨by simp [h.perm.mem_iff], by simp, h.clock, h.maxEntries, h.maxBytes⟩

theorem Shard.Change.trans {new}
    (h1 : s1.Change s2 g1 none) (h2 : s2.Change s3 g2 new) : s1.Change s3 (fun x => g1 x || g2 x) new where
  mem_iff := by simp [h2.mem_iff, h1.mem_iff, and_assoc]
  id e he := h1.clock.trans_lt (h2.id e he)
  clock := h1.clock.trans h2.clock
  maxEntries part := (h2.maxEntries part).trans (h1.maxEntries part)
  maxBytes part := (h2.maxBytes part).trans (h1.maxBytes part)

end Parins.Cache
