/-
The two indexes of a shard agree: the buckets and the partitions hold the same
entries, under their own keys and ids, within the budgets, and the counters count
them. Removal keeps this and takes out exactly the entries it names
(`removeAll_spec`).
-/
import Parins.Cache.Shard
import Mathlib.Algebra.BigOperators.Group.List.Basic
import Mathlib.Data.List.Count

namespace Parins.Cache
open Net Lib List Function

structure Partition.Wf (p : Partition) (negative : Bool) : Prop where
  filed : ∀ id e, (id, e) ∈ p.lru.items → e.id = id ∧ e.negative = negative
  fits : p.lru.items.length ≤ p.maxEntries
  charged : p.charged = (p.lru.items.map fun item => item.2.charge).sum + p.held.sum
  within : p.charged ≤ p.maxBytes

/-- The resident entries of a shard. -/
def Shard.entries (s : Shard) : List Entry :=
  (s.partitions false).lru.items.map Prod.snd ++ (s.partitions true).lru.items.map Prod.snd

structure Shard.Wf (maxVariants : Nat) (s : Shard) : Prop where
  parts : ∀ negative, (s.partitions negative).Wf negative
  ids : (s.entries.map Entry.id).Nodup
  clock : ∀ e ∈ s.entries, e.id ≤ s.clock
  indexed : ∀ key b, s.buckets key = some b → ∀ e ∈ b, e.key = key ∧ e ∈ s.entries
  filed : ∀ e ∈ s.entries, ∃ b, s.buckets e.key = some b ∧ e ∈ b
  nonempty : ∀ key b, s.buckets key = some b → b ≠ []
  variants : ∀ key b, s.buckets key = some b → b.length ≤ maxVariants ∧ (b.map Entry.id).Nodup
  learned : s.learned = s.entries.countP fun e => e.scope.isLearned
  failures : s.failures = s.entries.countP fun e => e.failure.isSome
  /-- Failures are kept in the negative partition. -/
  negative : ∀ e ∈ s.entries, e.failure.isSome = true → e.negative = true

variable {maxVariants : Nat} {s s' : Shard} {e x : Entry} {key : Key}

/-! ## Entries -/

theorem mem_entries_iff : x ∈ s.entries ↔ ∃ part id, (id, x) ∈ (s.partitions part).lru.items := by
  simp only [Shard.entries, mem_append, mem_map, Prod.exists, exists_eq_right, Bool.exists_bool]

theorem Shard.Wf.mem_lru (h : s.Wf maxVariants) (he : e ∈ s.entries) :
    (e.id, e) ∈ (s.partitions e.negative).lru.items := by
  obtain ⟨part, id, hm⟩ := mem_entries_iff.mp he
  obtain ⟨rfl, rfl⟩ := (h.parts part).filed id e hm
  exact hm

theorem Shard.Wf.peek (h : s.Wf maxVariants) (he : e ∈ s.entries) :
    (s.partitions e.negative).lru.peek e.id = some e := Recency.peek_eq_some_iff.mpr (h.mem_lru he)

theorem mem_entries_of_lru {part} {item : Nat × Entry} (h : item ∈ (s.partitions part).lru.items) :
    item.2 ∈ s.entries := mem_entries_iff.mpr ⟨part, item.1, h⟩

theorem Shard.Wf.eq_of_id (h : s.Wf maxVariants) (he : e ∈ s.entries) (hx : x ∈ s.entries) (hid : e.id = x.id) :
    e = x := inj_on_of_nodup_map h.ids he hx hid

theorem Shard.Wf.mem_bucket (h : s.Wf maxVariants) : e ∈ (s.buckets key).getD [] ↔ e ∈ s.entries ∧ e.key = key := by
  constructor
  · intro he
    cases hb : s.buckets key with
    | none => simp [hb] at he
    | some b =>
      rw [hb] at he
      exact ⟨(h.indexed key b hb e he).2, (h.indexed key b hb e he).1⟩
  · rintro ⟨he, rfl⟩
    obtain ⟨b, hb, heb⟩ := h.filed e he
    rw [hb]
    exact heb

variable {p : Partition} {id : Nat}

theorem entries_update (s : Shard) (part) (h : (s.partitions part).lru.items.Perm ((id, e) :: p.lru.items)) :
    s.entries.Perm (e :: { s with partitions := Function.update s.partitions part p }.entries) := by
  have hm := h.map Prod.snd
  cases part with
  | false => exact hm.append_right _
  | true => exact (hm.append_left _).trans perm_middle

theorem entries_update_same (s : Shard) (part) (h : (s.partitions part).lru.items.Perm p.lru.items) :
    s.entries.Perm { s with partitions := Function.update s.partitions part p }.entries := by
  have hm := h.map Prod.snd
  cases part with
  | false => exact hm.append_right _
  | true => exact hm.append_left _

/-! ## What a step takes out -/

/-- `s'` is `s` without the entries that are `gone`: nothing else of what it knows changes, nor
the order of what is left. -/
structure Shard.Less (s s' : Shard) (gone : Entry → Bool) : Prop where
  lru : ∀ part, (s'.partitions part).lru.items = (s.partitions part).lru.items.filter fun item => !gone item.2
  buckets : ∀ key, (s'.buckets key).getD [] = ((s.buckets key).getD []).filter fun e => !gone e
  clock : s'.clock = s.clock
  sharing : s'.sharing = s.sharing
  cells : ∀ e ∈ s'.entries, s'.cells e.id = s.cells e.id
  maxEntries : ∀ part, (s'.partitions part).maxEntries = (s.partitions part).maxEntries
  maxBytes : ∀ part, (s'.partitions part).maxBytes = (s.partitions part).maxBytes

theorem Shard.Less.mem_iff {gone} (h : s.Less s' gone) : x ∈ s'.entries ↔ x ∈ s.entries ∧ gone x = false := by
  simp only [mem_entries_iff, h.lru, mem_filter, Bool.not_eq_true', exists_and_right]

theorem Shard.Less.refl (s : Shard) : s.Less s fun _ => false := by
  constructor <;> simp

theorem Shard.Less.trans {s1 s2 s3 : Shard} {g1 g2} (h1 : s1.Less s2 g1) (h2 : s2.Less s3 g2) :
    s1.Less s3 fun e => g1 e || g2 e where
  lru part := by
    rw [h2.lru, h1.lru, filter_filter]
    exact filter_congr fun e _ => by rw [Bool.not_or, Bool.and_comm]
  buckets key := by
    rw [h2.buckets, h1.buckets, filter_filter]
    exact filter_congr fun e _ => by rw [Bool.not_or, Bool.and_comm]
  clock := h2.clock.trans h1.clock
  sharing := h2.sharing.trans h1.sharing
  cells e he := (h2.cells e he).trans (h1.cells e (h2.mem_iff.mp he).1)
  maxEntries part := (h2.maxEntries part).trans (h1.maxEntries part)
  maxBytes part := (h2.maxBytes part).trans (h1.maxBytes part)

theorem Shard.Less.congr {g g'} (hwf : s.Wf maxVariants) (h : s.Less s' g)
    (hg : ∀ e ∈ s.entries, g e = g' e) : s.Less s' g' where
  lru part := (h.lru part).trans <| filter_congr fun item hi => by
    rw [hg item.2 (mem_entries_of_lru hi)]
  buckets key := (h.buckets key).trans <| filter_congr fun e he => by rw [hg e (hwf.mem_bucket.mp he).1]
  clock := h.clock
  sharing := h.sharing
  cells := h.cells
  maxEntries := h.maxEntries
  maxBytes := h.maxBytes

/-! ## Removal -/

theorem getD_dropId (id) (ids : List Entry) : (dropId id ids).getD [] = ids.filter fun e => e.id ≠ id := by
  unfold dropId
  dsimp only
  split
  · next hempty => exact (isEmpty_iff.mp hempty).symm
  · rfl

theorem getD_dropFromBucket (buckets key key' id) : (dropFromBucket buckets key id key').getD [] =
      if key' = key then ((buckets key').getD []).filter fun e => e.id ≠ id else (buckets key').getD [] := by
  by_cases hk : key' = key
  · subst hk
    rw [if_pos rfl, dropFromBucket, update_self]
    cases buckets key' with
    | none => rfl
    | some ids => exact getD_dropId id ids
  · rw [if_neg hk, dropFromBucket, update_of_ne hk]

theorem dropFromBucket_some {buckets key key'} {b : List Entry}
    (h : dropFromBucket buckets key id key' = some b) (hne : ∀ b, buckets key' = some b → b ≠ []) :
    b ≠ [] ∧ ∃ b0, buckets key' = some b0 ∧ b.Sublist b0 := by
  by_cases hk : key' = key
  · subst hk
    rw [dropFromBucket, update_self] at h
    obtain ⟨ids, hb, h⟩ := Option.bind_eq_some_iff.mp h
    unfold dropId at h
    dsimp only at h
    split at h
    · cases h
    · next hfull =>
      cases h
      exact ⟨fun he => hfull (isEmpty_iff.mpr he), ids, hb, filter_sublist⟩
  · rw [dropFromBucket, update_of_ne hk] at h
    exact ⟨hne b h, b, h, .refl _⟩

theorem Partition.Wf.take {negative} (h : p.Wf negative) (he : (e.id, e) ∈ p.lru.items)
    (pinned) : (p.take e pinned).Wf negative := by
  have hperm : p.lru.items.Perm ((e.id, e) :: (p.lru.pop e.id).items) := Recency.perm_pop he
  have hlen := hperm.length_eq
  have hsum := (hperm.map fun item : Nat × Entry => item.2.charge).sum_eq
  simp only [length_cons, map_cons, sum_cons] at hlen hsum
  have hcharged := h.charged
  have hfits := h.fits
  have hwithin := h.within
  refine ⟨fun id x hx => h.filed id x (Recency.mem_pop.mp hx).1, ?_, ?_, ?_⟩
  · simp only [Partition.take]
    omega
  · cases pinned <;> simp only [Partition.take, if_true, Bool.false_eq_true, if_false, sum_cons] <;> omega
  · cases pinned <;> simp only [Partition.take, if_true, Bool.false_eq_true, if_false] <;> omega

def named (part : Bool) (id : Nat) (e : Entry) : Bool := decide ((e.negative, e.id) = (part, id))

/-- A shard with one entry taken out of both indexes and of the counters. -/
structure Shard.Without (s s' : Shard) (e : Entry) (pinned : Bool) : Prop where
  buckets : s'.buckets = dropFromBucket s.buckets e.key e.id
  partitions : s'.partitions = Function.update s.partitions e.negative ((s.partitions e.negative).take e pinned)
  clock : s'.clock = s.clock
  learned : s'.learned + ofBool e.scope.isLearned = s.learned
  failures : s'.failures + ofBool e.failure.isSome = s.failures
  sharing : s'.sharing = s.sharing
  cells : ∀ id, id ≠ e.id → s'.cells id = s.cells id

theorem Shard.Without.perm {pinned} (hwf : s.Wf maxVariants) (he : e ∈ s.entries) (h : s.Without s' e pinned) :
    s.entries.Perm (e :: s'.entries) := by
  have hperm := entries_update s e.negative (p := (s.partitions e.negative).take e pinned)
    (Recency.perm_pop (hwf.mem_lru he))
  unfold Shard.entries at hperm ⊢
  rw [h.partitions]
  exact hperm

theorem Shard.Without.mem_iff {pinned} (hwf : s.Wf maxVariants) (he : e ∈ s.entries)
    (h : s.Without s' e pinned) : x ∈ s'.entries ↔ x ∈ s.entries ∧ x.id ≠ e.id := by
  have hperm := h.perm hwf he
  have hids : (e.id :: s'.entries.map Entry.id).Nodup := (hperm.map Entry.id).nodup_iff.mp hwf.ids
  constructor
  · intro hx
    refine ⟨hperm.mem_iff.mpr (mem_cons_of_mem e hx), fun heq => ?_⟩
    exact (nodup_cons.mp hids).1 (heq ▸ mem_map_of_mem hx)
  · rintro ⟨hx, hne⟩
    rcases mem_cons.mp (hperm.mem_iff.mp hx) with rfl | hx
    · exact absurd rfl hne
    · exact hx

theorem Shard.Without.limits {pinned} (h : s.Without s' e pinned) (part) :
    (s'.partitions part).maxEntries = (s.partitions part).maxEntries ∧
      (s'.partitions part).maxBytes = (s.partitions part).maxBytes := by
  rw [h.partitions]
  by_cases hp : part = e.negative
  · subst hp
    rw [update_self]
    exact ⟨rfl, rfl⟩
  · rw [update_of_ne hp]
    exact ⟨rfl, rfl⟩

theorem Shard.Without.less {pinned} (hwf : s.Wf maxVariants) (he : e ∈ s.entries) (h : s.Without s' e pinned) :
    s.Less s' (named e.negative e.id) := by
  have hnamed : ∀ x ∈ s.entries, named e.negative e.id x = decide (x.id = e.id) := by
    intro x hx
    rw [named, decide_eq_decide, Prod.mk.injEq]
    exact ⟨And.right, fun hid => ⟨congrArg Entry.negative (hwf.eq_of_id hx he hid), hid⟩⟩
  refine Shard.Less.congr (g := fun x => decide (x.id = e.id)) hwf ?_ fun x hx => (hnamed x hx).symm
  refine ⟨fun part => ?_, fun key => ?_, h.clock, h.sharing, fun x hx => ?_, fun part => (h.limits part).1,
    fun part => (h.limits part).2⟩
  · rw [h.partitions]
    by_cases hp : part = e.negative
    · subst hp
      rw [update_self]
      refine filter_congr fun item hi => ?_
      rw [((hwf.parts _).filed item.1 item.2 hi).1, decide_not]
    · rw [update_of_ne hp]
      refine (filter_eq_self.mpr fun item hi => ?_).symm
      have hid : item.2.id ≠ e.id := fun hid => by
        have := hwf.eq_of_id (mem_entries_of_lru hi) he hid
        exact hp (((hwf.parts part).filed item.1 item.2 hi).2.symm.trans (congrArg Entry.negative this))
      simpa using hid
  · rw [h.buckets, getD_dropFromBucket]
    split
    · exact filter_congr fun x _ => by simp
    · next hk =>
      refine (filter_eq_self.mpr fun x hx => ?_).symm
      obtain ⟨hxe, rfl⟩ := hwf.mem_bucket.mp hx
      have : x.id ≠ e.id := fun hid => hk (congrArg Entry.key (hwf.eq_of_id hxe he hid))
      simpa using this
  · exact h.cells x.id ((h.mem_iff hwf he).mp hx).2

theorem Shard.Without.wf {pinned} (hwf : s.Wf maxVariants) (he : e ∈ s.entries) (h : s.Without s' e pinned) :
    s'.Wf maxVariants := by
  have hperm := h.perm hwf he
  have hsub : ∀ {x}, x ∈ s'.entries → x ∈ s.entries := fun hx => ((h.mem_iff hwf he).mp hx).1
  have hbucket : ∀ key b, s'.buckets key = some b → b ≠ [] ∧ ∃ b0, s.buckets key = some b0 ∧ b.Sublist b0 :=
    fun key b hb => dropFromBucket_some (h.buckets ▸ hb) (hwf.nonempty key)
  have hmem : ∀ key, (s'.buckets key).getD [] = ((s.buckets key).getD []).filter fun e' => !named e.negative e.id e' :=
    (h.less hwf he).buckets
  have hlearned := (hperm.countP_eq fun e : Entry => e.scope.isLearned)
  have hfailures := (hperm.countP_eq fun e : Entry => e.failure.isSome)
  rw [countP_cons] at hlearned hfailures
  have := h.learned
  have := h.failures
  have := hwf.learned
  have := hwf.failures
  refine ⟨fun part => ?_, ?_, fun x hx => h.clock ▸ hwf.clock x (hsub hx), fun key b hb x hx => ?_, fun x hx => ?_,
    fun key b hb => (hbucket key b hb).1, fun key b hb => ?_, ?_, ?_, fun x hx => hwf.negative x (hsub hx)⟩
  · rw [h.partitions]
    by_cases hp : part = e.negative
    · subst hp
      rw [update_self]
      exact (hwf.parts _).take (hwf.mem_lru he) pinned
    · rw [update_of_ne hp]
      exact hwf.parts part
  · exact (nodup_cons.mp ((hperm.map Entry.id).nodup_iff.mp hwf.ids)).2
  · have hxb : x ∈ (s'.buckets key).getD [] := by
      rw [hb]
      exact hx
    rw [hmem] at hxb
    obtain ⟨hxb, hn⟩ := mem_filter.mp hxb
    obtain ⟨hxe, hxk⟩ := hwf.mem_bucket.mp hxb
    exact ⟨hxk, (h.less hwf he).mem_iff.mpr ⟨hxe, by simpa using hn⟩⟩
  · have hxb : x ∈ (s'.buckets x.key).getD [] := by
      rw [hmem, mem_filter]
      obtain ⟨hxe, hn⟩ := (h.less hwf he).mem_iff.mp hx
      exact ⟨hwf.mem_bucket.mpr ⟨hxe, rfl⟩, by simpa using hn⟩
    cases hb : s'.buckets x.key with
    | none => simp [hb] at hxb
    | some b => exact ⟨b, rfl, by simpa [hb] using hxb⟩
  · obtain ⟨_, b0, hb0, hs⟩ := hbucket key b hb
    obtain ⟨hlen, hnd⟩ := hwf.variants key b0 hb0
    exact ⟨hs.length_le.trans hlen, hnd.sublist (hs.map _)⟩
  · unfold ofBool at *
    omega
  · unfold ofBool at *
    omega

theorem checkedSub_eq_some {a b} (h : b ≤ a) : checkedSub a b = some (a - b) := if_pos h

variable {l : Locked} (pinned : Nat → Bool)

/-- **Removal.** It never fails, and takes out exactly the entry it names. -/
theorem remove_spec (hwf : l.shard.Wf maxVariants) (part id) :
    ∃ l', l.remove pinned part id = some l' ∧ l'.shard.Wf maxVariants ∧ l.shard.Less l'.shard (named part id) := by
  unfold Locked.remove
  cases hpeek : (l.shard.partitions part).lru.peek id with
  | none =>
    refine ⟨l, rfl, hwf, Shard.Less.congr hwf (.refl _) fun x hx => ?_⟩
    refine (decide_eq_false fun heq => ?_).symm
    obtain ⟨rfl, rfl⟩ := Prod.mk.inj heq
    exact Recency.peek_eq_none_iff.mp hpeek x (hwf.mem_lru hx)
  | some e =>
    have hm := Recency.mem_of_peek hpeek
    obtain ⟨rfl, rfl⟩ := (hwf.parts part).filed id e hm
    have he : e ∈ l.shard.entries := mem_entries_of_lru hm
    have hlearned : ofBool e.scope.isLearned ≤ l.shard.learned := by
      rw [hwf.learned, ofBool]
      split
      · next hl => exact countP_pos_iff.mpr ⟨e, he, hl⟩
      · exact Nat.zero_le _
    have hfailures : ofBool e.failure.isSome ≤ l.shard.failures := by
      rw [hwf.failures, ofBool]
      split
      · next hf => exact countP_pos_iff.mpr ⟨e, he, hf⟩
      · exact Nat.zero_le _
    simp only [checkedSub_eq_some hlearned, checkedSub_eq_some hfailures, bind, Option.bind]
    suffices h : ∀ l' : Locked, l.shard.Without l'.shard e (pinned e.id) →
        l'.shard.Wf maxVariants ∧ l.shard.Less l'.shard (named e.negative e.id) from
      ⟨_, rfl, h _ ⟨rfl, rfl, rfl, Nat.sub_add_cancel hlearned, Nat.sub_add_cancel hfailures, rfl,
        fun id hne => update_of_ne hne _ _⟩⟩
    exact fun l' hw => ⟨hw.wf hwf he, hw.less hwf he⟩

/-- **Removal of many.** -/
theorem removeAll_spec (targets : List (Bool × Nat)) (hwf : l.shard.Wf maxVariants) :
    ∃ l', l.removeAll pinned targets = some l' ∧ l'.shard.Wf maxVariants ∧
      l.shard.Less l'.shard (fun e => targets.contains (e.negative, e.id)) := by
  induction targets generalizing l with
  | nil => exact ⟨l, rfl, hwf, .refl _⟩
  | cons t targets ih =>
    obtain ⟨l1, h1, hwf1, hless1⟩ := remove_spec pinned hwf t.1 t.2
    obtain ⟨l2, h2, hwf2, hless2⟩ := ih hwf1
    refine ⟨l2, ?_, hwf2, (hless1.trans hless2).congr hwf fun e _ => ?_⟩
    · rw [Locked.removeAll, foldlM_cons, h1]
      exact h2
    · rw [contains_cons, named, Bool.beq_eq_decide_eq]

end Parins.Cache
