/-
What each operation does under the lock of a shard: which entries leave, which
one enters, and what a lookup finds. No step fails when the indexes agree, and
they agree after it.
-/
import Parins.Cache.Placement
import Parins.Cache.Admission

namespace Parins.Cache
open Net Lib List

variable {maxVariants : Nat} {s s' : Shard} {e x : Entry} {key : Key} {l : Locked}

/-! ## Lookup -/

theorem maxByRank_foldl (rank : Entry → Bool × Nat) (entries : List Entry) (best : Option Entry) :
    entries.foldl (fun best e => match best with
      | none => some e
      | some b => if rankLe (rank b) (rank e) then some e else some b) best = some e →
      best = some e ∨ e ∈ entries := by
  induction entries generalizing best with
  | nil => exact .inl
  | cons y rest ih =>
    intro h
    rcases ih _ h with h | h
    · cases best with
      | none =>
        cases h
        exact .inr mem_cons_self
      | some b =>
        dsimp only at h
        split at h
        · cases h
          exact .inr mem_cons_self
        · exact .inl h
    · exact .inr (mem_cons_of_mem y h)

variable {outgoing : Option ClientSubnet} {allowStale : Bool} {now : Nat}

theorem select_mem {id : Nat} {part : Bool} (h : s.select key outgoing now allowStale = some (part, id)) :
    ∃ e ∈ s.candidates key outgoing now allowStale, e.negative = part ∧ e.id = id := by
  obtain ⟨e, he, heq⟩ := Option.map_eq_some_iff.mp h
  obtain ⟨hpart, hid⟩ := Prod.mk.inj heq
  exact ⟨e, (maxByRank_foldl _ _ _ he).resolve_left (by simp), hpart, hid⟩

theorem Shard.Wf.mem_candidates (hwf : s.Wf maxVariants) : e ∈ s.candidates key outgoing now allowStale ↔
      (e ∈ s.entries ∧ e.key = key) ∧ e.usable outgoing now allowStale = true := by
  rw [Shard.candidates, mem_filter, hwf.mem_bucket]

theorem touch_spec (hwf : l.shard.Wf maxVariants) (he : e ∈ l.shard.entries) (now) :
    ∃ l', l.touch e.negative e.id now = some (l', e) ∧ l.shard.Alike l'.shard ∧
      l'.shard.sharing = l.shard.sharing := by
  simp only [Locked.touch, hwf.peek he, bind, Option.bind]
  refine ⟨_, rfl, ?_, rfl⟩
  have hpart : ∀ {β : Type} (f : Partition → β) (part : Bool),
      f { l.shard.partitions e.negative with lru := (l.shard.partitions e.negative).lru.promote e.id } =
        f (l.shard.partitions e.negative) →
      f (Function.update l.shard.partitions e.negative
        { l.shard.partitions e.negative with lru := (l.shard.partitions e.negative).lru.promote e.id } part) =
        f (l.shard.partitions part) := by
    intro β f part hf
    by_cases hp : part = e.negative
    · subst hp
      rw [Function.update_self, hf]
    · rw [Function.update_of_ne hp]
  refine ⟨rfl, fun part => ?_, fun part => hpart _ part rfl, fun part => hpart _ part rfl,
    fun part => hpart _ part rfl, fun part => hpart _ part rfl, Nat.le_succ _, rfl, rfl⟩
  by_cases hp : part = e.negative
  · subst hp
    simpa using Recency.promote_perm (l.shard.partitions e.negative).lru e.id
  · simp [Function.update_of_ne hp]

/-- **Lookup.** Only expired entries of the key leave, and what is found is a usable entry of it. -/
theorem lookup_spec (pinned) (hwf : l.shard.Wf maxVariants) (key outgoing now allowStale observe) :
    ∃ l' found gone, l.lookup pinned key outgoing now allowStale observe = some (l', found) ∧
      l'.shard.Wf maxVariants ∧ l.shard.Change l'.shard gone none ∧ l'.shard.sharing = l.shard.sharing ∧
      (∀ x, gone x = true → x.expired now = true) ∧
      ∀ e hits, found = some (e, hits) → e ∈ l.shard.candidates key outgoing now allowStale := by
  have hnothing : l.shard.Change l.shard (fun _ => false) none := (Shard.Less.refl _).change
  unfold Locked.lookup
  split
  · cases observe with
    | false => exact ⟨l, none, _, rfl, hwf, hnothing, rfl, by simp, by simp⟩
    | true =>
      obtain ⟨l', hl', hwf', hless⟩ := prune_spec pinned hwf key now
      simp only [if_true, hl', bind, Option.bind]
      have hsame : ∀ counts, l'.shard.SameButStats { l'.shard with counts } := fun _ =>
        ⟨rfl, fun _ => ⟨_, rfl⟩, rfl, rfl, rfl, rfl, rfl⟩
      refine ⟨_, none, _, rfl, (hsame _).alike.wf hwf', hless.change.trans (hsame _).alike.change, hless.sharing, ?_,
        by simp⟩
      intro x hx
      simp only [Bool.or_false, Bool.and_eq_true] at hx
      exact hx.2
  · next part id hsel =>
    obtain ⟨e, he, rfl, rfl⟩ := select_mem hsel
    have hres := (hwf.mem_candidates.mp he).1.1
    cases observe with
    | false =>
      simp only [Bool.false_eq_true, if_false, hwf.peek hres, bind, Option.bind]
      refine ⟨l, _, _, rfl, hwf, hnothing, rfl, by simp, fun x hits hx => ?_⟩
      cases hx
      exact he
    | true =>
      obtain ⟨l', hl', halike, hsharing⟩ := touch_spec hwf hres now
      simp only [if_true, hl', bind, Option.bind]
      refine ⟨l', _, _, rfl, halike.wf hwf, halike.change, hsharing, by simp, fun x hits hx => ?_⟩
      cases hx
      exact he

/-! ## Admission -/

def Offer.entry (P : Platform) (config : CacheConfig) (o : Offer) (answer : Prepared) (now id : Nat) : Entry :=
  (o.stored config answer).entry o.key (charge P.overhead answer.wire o.key) now id

def FailureOffer.entry (P : Platform) (o : FailureOffer) (now id : Nat) : Entry :=
  o.stored.entry o.key (charge P.overhead o.wire o.key) now id

/-- No entry of `key` whose scope overlaps `scope` stays. -/
def Shard.Supersedes (s : Shard) (key : Key) (scope : Scope) (gone : Entry → Bool) : Prop :=
  ∀ x ∈ s.entries, x.key = key → x.scope.overlaps scope = true → gone x = true

theorem Shard.alike_told (s : Shard) (sharing counts) : s.Alike { s with sharing, counts } :=
  ⟨rfl, fun _ => .refl _, fun _ => rfl, fun _ => rfl, fun _ => rfl, fun _ => rfl, le_rfl, rfl, rfl⟩

section Locked

variable (P : Platform) (config : CacheConfig) (pinned : Nat → Bool) (o : Offer) (now : Nat)

theorem supersede_spec (hwf : l.shard.Wf config.maxVariants) (hmax : 0 < config.maxVariants) :
    ∃ l' d gone, l.supersede P config pinned o now = some (l', d) ∧
      l'.shard.Wf config.maxVariants ∧ l.shard.Supersedes o.key o.scope gone ∧
      (l.shard.Less l'.shard gone ∨
        ∃ answer, o.prepared = .ok answer ∧ l.shard.More l'.shard gone (o.entry P config answer now (l.shard.clock + 1))
          ⟨o.origin.isRefresh, 0, (o.origin.restore?.map Restore.accessed).getD (l.shard.clock + 1)⟩) := by
  obtain ⟨l1, h1, hwf1, hless1⟩ := removeTargets_spec pinned hwf o.key fun e => e.scope.overlaps o.scope
  simp only [Locked.supersede, h1, bind, Option.bind]
  cases o.prepared with
  | error reason =>
    refine ⟨l1, _, _, rfl, hwf1, fun x _ hk ho => ?_, .inl hless1⟩
    simp [hk, ho]
  | ok answer =>
    obtain ⟨l2, d, gone, h2, hwf2, hplaced⟩ := place_spec pinned P.overhead now o.key (o.stored config answer)
      (!(l.shard.targets o.key fun e => e.scope.overlaps o.scope).isEmpty) hwf1 hmax (by simp [Offer.stored])
    rw [hless1.clock] at hplaced
    refine ⟨l2, d, _, h2, hwf2, fun x _ hk ho => ?_,
      (hless1.placed hplaced).imp_right fun h => ⟨answer, rfl, h⟩⟩
    simp [hk, ho]

def Shard.classified (s : Shard) : Sharing.Table × Offer :=
  if config.ecsSharing.enabled then
    let (sharing, observation) := s.sharing.observe o.told now config.ecsSharing
    (sharing, { o with scope := observation.scope })
  else (s.sharing, o)

/-- An answer was admitted to the shard: it superseded what overlaps the scope it is classified
under, and entered under that scope if it could be stored. -/
structure Shard.Answered (gone : Entry → Bool) (new : Option Entry) (s s' : Shard) : Prop where
  wf : s'.Wf config.maxVariants
  change : s.Change s' gone new
  sharing : s'.sharing = (s.classified config o now).1
  supersedes : s.Supersedes o.key (s.classified config o now).2.scope gone
  entry : ∀ e, new = some e → ∃ answer, o.prepared = .ok answer ∧
    e = (s.classified config o now).2.entry P config answer now (s.clock + 1)

@[simp] theorem classified_key (s : Shard) : (s.classified config o now).2.key = o.key := by
  unfold Shard.classified
  split <;> rfl

@[simp] theorem classified_prepared (s : Shard) : (s.classified config o now).2.prepared = o.prepared := by
  unfold Shard.classified
  split <;> rfl

/-- **Admission of an answer.** -/
theorem admitAnswer_spec (hwf : l.shard.Wf config.maxVariants) (hmax : 0 < config.maxVariants)
    (horigin : o.origin.restoring = false) : ∃ l' d gone new, l.admitAnswer P config pinned o now = some (l', d) ∧
      l.shard.Answered P config o now gone new l'.shard := by
  obtain ⟨l1, h1, hwf1, hless1⟩ := prune_spec pinned hwf o.key now
  -- The classification comes to the same on the pruned shard.
  obtain ⟨l2, hl2, halike, hclock, hsharing⟩ : ∃ l2 : Locked,
      l.admitAnswer P config pinned o now = l2.supersede P config pinned (l.shard.classified config o now).2 now ∧
      l1.shard.Alike l2.shard ∧ l1.shard.clock = l2.shard.clock ∧
      l2.shard.sharing = (l.shard.classified config o now).1 := by
    simp only [Locked.admitAnswer, h1, horigin, bind, Option.bind, Bool.false_eq_true, if_false, Shard.classified,
      ← hless1.sharing]
    split
    · exact ⟨_, rfl, l1.shard.alike_told _ _, rfl, rfl⟩
    · exact ⟨l1, rfl, l1.shard.alike_told l1.shard.sharing l1.shard.counts, rfl, rfl⟩
  obtain ⟨l3, d, gone, h3, hwf3, hsup, hplaced⟩ := supersede_spec P config pinned
    (l.shard.classified config o now).2 now (halike.wf hwf1) hmax
  rw [hl2, h3]
  rw [classified_key] at hsup
  rw [classified_prepared] at hplaced
  have hbefore := hless1.change.trans halike.change
  have hsuperseded : l.shard.Supersedes o.key (l.shard.classified config o now).2.scope
      fun x => ((decide (x.key = o.key) && x.expired now) || false) || gone x := by
    intro x hx hk ho
    by_cases hexp : x.expired now = true
    · simp [hk, hexp]
    · exact Bool.or_eq_true_iff.mpr (.inr (hsup x (hbefore.mem_iff.mpr (.inr ⟨hx, by simp [hexp]⟩)) hk ho))
  rcases hplaced with hless | ⟨answer, hans, hmore⟩
  · exact ⟨l3, d, _, none, rfl, hwf3, hbefore.trans hless.change, hless.sharing.trans hsharing, hsuperseded, by simp⟩
  · rw [← hclock, hless1.clock] at hmore
    exact ⟨l3, d, _, some _, rfl, hwf3, hbefore.trans hmore.change, hmore.sharing.trans hsharing, hsuperseded,
      fun e he => ⟨answer, hans, (Option.some.inj he).symm⟩⟩

/-- The entries of a key that a step at `now` prunes. -/
def pruned (key : Key) (now : Nat) (x : Entry) : Bool := decide (x.key = key) && x.expired now

/-- A snapshot record was offered to the shard: only what has expired leaves for it, and neither
the counters nor the records of the learner see it. -/
structure Shard.Restored (r : Restore) (s s' : Shard) : Prop where
  wf : s'.Wf config.maxVariants
  outcome : s.Less s' (pruned o.key now) ∨
    ∃ answer, o.prepared = .ok answer ∧ s.Supersedes o.key o.scope (pruned o.key now) ∧
      s.More s' (pruned o.key now) (o.entry P config answer now (s.clock + 1)) ⟨false, 0, r.accessed⟩

/-- Where a snapshot record may enter, placing it evicts nothing. -/
theorem supersede_roomy {answer : Prepared} (hwf : l.shard.Wf config.maxVariants) (hprepared : o.prepared = .ok answer)
    (hroom : l.shard.admitsRestored P config o answer = true) (hmax : 0 < config.maxVariants) :
    l.supersede P config pinned o now =
      some (l.publish o.key (o.stored config answer) (charge P.overhead answer.wire o.key) now, ⟨.admitted, none⟩) ∧
    ((l.shard.buckets o.key).getD []).length < config.maxVariants ∧
    (∀ x ∈ l.shard.entries, x.key = o.key → x.scope.overlaps o.scope = false) ∧
    (l.shard.partitions answer.negative).lru.items.length < (l.shard.partitions answer.negative).maxEntries ∧
    (l.shard.partitions answer.negative).charged + charge P.overhead answer.wire o.key ≤
      (l.shard.partitions answer.negative).maxBytes := by
  simp only [Shard.admitsRestored, Bool.and_eq_true, decide_eq_true_eq] at hroom
  obtain ⟨⟨hfits, hbytes⟩, hbucket⟩ := hroom
  have hlen : ((l.shard.buckets o.key).getD []).length < config.maxVariants := by
    cases hb : l.shard.buckets o.key with
    | none => exact hmax
    | some b =>
      rw [hb] at hbucket
      simp only [Option.all_some, Bool.and_eq_true, decide_eq_true_eq] at hbucket
      exact hbucket.1
  have hapart : ∀ x ∈ (l.shard.buckets o.key).getD [], x.scope.overlaps o.scope = false := by
    intro x hx
    cases hb : l.shard.buckets o.key with
    | none => simp [hb] at hx
    | some b =>
      rw [hb] at hbucket hx
      simp only [Option.all_some, Bool.and_eq_true, all_eq_true, Bool.not_eq_true'] at hbucket
      exact hbucket.2 x hx
  refine ⟨?_, hlen, fun x hx hk => hapart x (hwf.mem_bucket.mpr ⟨hx, hk⟩), hfits, hbytes⟩
  have htargets : l.shard.targets o.key (fun e => e.scope.overlaps o.scope) = [] := by
    rw [Shard.targets, filter_eq_nil_iff.mpr fun x hx => by simp [hapart x hx], map_nil]
  simp only [Locked.supersede, htargets, Locked.removeAll, foldlM_nil, hprepared, bind, Option.bind, pure]
  exact place_roomy pinned P.overhead now o.key (o.stored config answer) _ hlen hfits hbytes

/-- **Admission of a snapshot record.** -/
theorem admitRestored_spec (hwf : l.shard.Wf config.maxVariants) (hmax : 0 < config.maxVariants) {r}
    (horigin : o.origin = .restore r) :
    ∃ l' d, l.admitAnswer P config pinned o now = some (l', d) ∧ l.shard.Restored P config o now r l'.shard := by
  obtain ⟨l1, h1, hwf1, hless1⟩ := prune_spec pinned hwf o.key now
  simp only [Locked.admitAnswer, h1, horigin, Origin.restoring, Origin.restore?, Option.isSome_some, bind, Option.bind,
    if_true]
  split
  · exact ⟨l1, _, rfl, hwf1, .inl hless1⟩
  next answer hans =>
  split
  · next hroom =>
    obtain ⟨heq, hlen, hapart, hfits, hbytes⟩ := supersede_roomy P config pinned o now hwf1 hans hroom hmax
    have hwith := publish_with hwf1 o.key (o.stored config answer) (charge P.overhead answer.wire o.key) now
    have hcells : (⟨(o.stored config answer).refreshed, 0, (o.stored config answer).accessed.getD (l1.shard.clock + 1)⟩ :
        Cells) = ⟨false, 0, r.accessed⟩ := by
      simp [Offer.stored, horigin, Origin.isRefresh, Origin.restore?]
    rw [hcells] at hwith
    have hmore := hless1.more (hwith.more hwf1)
    rw [hless1.clock] at hmore
    simp only [Bool.or_false] at hmore
    refine ⟨_, _, heq, hwith.wf hwf1 hlen hfits hbytes (by simp [Stored.entry, Offer.stored]),
      .inr ⟨answer, hans, fun x hx hk ho => ?_, hmore⟩⟩
    by_contra hstays
    have hx1 := hless1.mem_iff.mpr ⟨hx, Bool.not_eq_true _ ▸ hstays⟩
    rw [hapart x hx1 hk] at ho
    cases ho
  · exact ⟨l1, _, rfl, hwf1, .inl hless1⟩

/-- A failure was offered to the shard: it enters only where no overlapping answer is fresh, and
no overlapping failure stays. -/
structure Shard.Failed (f : FailureOffer) (gone : Entry → Bool) (new : Option Entry) (s s' : Shard) : Prop where
  wf : s'.Wf config.maxVariants
  change : s.Change s' gone new
  sharing : s'.sharing = s.sharing
  entry : ∀ e, new = some e → e = f.entry P now (s.clock + 1)
  stays : new.isSome = true → ∀ x ∈ s.entries, x.key = f.key → x.scope.overlaps f.scope = true → gone x = false →
    x.failure = none ∧ x.fresh now = false

/-- **Admission of a failure.** -/
theorem admitFailure_spec (hwf : l.shard.Wf config.maxVariants) (hmax : 0 < config.maxVariants) (f) :
    ∃ l' d gone new, l.admitFailure P config pinned f now = some (l', d) ∧
      l.shard.Failed P config now f gone new l'.shard := by
  obtain ⟨l1, h1, hwf1, hless1⟩ := prune_spec pinned hwf f.key now
  simp only [Locked.admitFailure, h1, bind, Option.bind]
  split
  · exact ⟨l1, _, _, none, rfl, hwf1, hless1.change, hless1.sharing, by simp, by simp⟩
  next hfresh =>
  -- Failures are in the negative partition, so these are the targets of the key.
  have htargets : ((((l1.shard.buckets f.key).getD []).filter fun e => e.scope.overlaps f.scope).filter
      fun e => e.failure.isSome).map (fun e => (true, e.id)) =
      l1.shard.targets f.key fun e => e.failure.isSome && e.scope.overlaps f.scope := by
    rw [filter_filter, Shard.targets]
    refine map_congr_left fun e he => ?_
    obtain ⟨hb, hp⟩ := mem_filter.mp he
    rw [hwf1.negative e (hwf1.mem_bucket.mp hb).1 (Bool.and_eq_true_iff.mp hp).1]
  rw [htargets]
  obtain ⟨l2, h2, hwf2, hless2⟩ := removeTargets_spec pinned hwf1 f.key fun e =>
    e.failure.isSome && e.scope.overlaps f.scope
  rw [h2]
  obtain ⟨l3, d, gone, h3, hwf3, hplaced⟩ := place_spec pinned P.overhead now f.key f.stored
    (!(l1.shard.targets f.key fun e => e.failure.isSome && e.scope.overlaps f.scope).isEmpty) hwf2 hmax fun _ => rfl
  have hall := (hless1.trans hless2).placed hplaced
  rw [hless2.clock, hless1.clock] at hall
  dsimp only
  rw [h3]
  rcases hall with hless | hmore
  · exact ⟨l3, d, _, none, rfl, hwf3, hless.change, hless.sharing, by simp, by simp⟩
  · refine ⟨l3, d, _, some _, rfl, hwf3, hmore.change, hmore.sharing, fun e he => (Option.some.inj he).symm, ?_⟩
    intro _ x hx hk ho hstays
    simp only [Bool.or_eq_false_iff, Bool.and_eq_false_imp, decide_eq_true_eq] at hstays
    obtain ⟨⟨hpruned, hfailed⟩, _⟩ := hstays
    have hnone : x.failure = none := by simpa [ho] using hfailed hk
    refine ⟨hnone, ?_⟩
    have hx1 : x ∈ (l1.shard.buckets f.key).getD [] :=
      hwf1.mem_bucket.mpr ⟨hless1.mem_iff.mpr ⟨hx, by simp [hpruned hk]⟩, hk⟩
    simp only [any_eq_true, not_exists, not_and, mem_filter] at hfresh
    simpa [hnone] using hfresh x ⟨hx1, ho⟩

end Locked

/-! ## Invalidation -/

theorem Shard.Wf.contains_resident (hwf : s.Wf maxVariants) (p) (he : e ∈ s.entries) :
    (s.resident p).contains (e.negative, e.id) = p e := by
  rw [Bool.eq_iff_iff, contains_iff_mem, Shard.resident, mem_flatten]
  constructor
  · rintro ⟨_, hpart, hm⟩
    obtain ⟨part, _, rfl⟩ := mem_map.mp hpart
    obtain ⟨item, hi, heq⟩ := mem_map.mp hm
    obtain ⟨hitem, hp⟩ := mem_filter.mp hi
    have hid : item.2.id = e.id := ((hwf.parts part).filed item.1 item.2 hitem).1.trans (Prod.mk.inj heq).2
    rwa [hwf.eq_of_id (mem_entries_of_lru hitem) he hid] at hp
  · intro hp
    exact ⟨_, mem_map_of_mem (by simp), mem_map.mpr ⟨_, mem_filter.mpr ⟨hwf.mem_lru he, hp⟩, rfl⟩⟩

theorem removeResident_spec (pinned) (hwf : l.shard.Wf maxVariants) (p) :
    ∃ l', l.removeAll pinned (l.shard.resident p) = some l' ∧ l'.shard.Wf maxVariants ∧ l.shard.Less l'.shard p := by
  obtain ⟨l', hl', hwf', hless⟩ := removeAll_spec pinned (l.shard.resident p) hwf
  exact ⟨l', hl', hwf', hless.congr hwf fun e he => hwf.contains_resident p he⟩

/-- **Invalidation** of one shard: the entries and the records that match the filter. -/
theorem clear_spec (pinned) (hwf : l.shard.Wf maxVariants) (f) :
    ∃ l', l.clear pinned f = some l' ∧ l'.shard.Wf maxVariants ∧ l.shard.Change l'.shard (Entry.cleared f) none ∧
      l'.shard.sharing = l.shard.sharing.invalidate f := by
  obtain ⟨l', hl', hwf', hless⟩ := removeResident_spec pinned hwf (Entry.cleared f)
  have halike := l'.shard.alike_told (l'.shard.sharing.invalidate f) l'.shard.counts
  simp only [Locked.clear, hl', bind, Option.bind]
  refine ⟨_, rfl, halike.wf hwf', ?_, by rw [hless.sharing]⟩
  have := hless.change.trans halike.change
  simpa using this

end Parins.Cache
