/-
Negative churn leaves positive answers alone. Failures and negative answers have
their own partition, and an answer supersedes only what it overlaps, so neither
takes a positive entry out nor changes which one a lookup returns.
-/
import Parins.Cache.Answers

namespace Parins.Cache
open Net Lib

variable {P : Platform} {C : Codec} {config : CacheConfig} {c c' : Cache} {s s' s'' : Shard} {e x : Entry}
variable {l l' : Locked} {maxVariants now u i : Nat}

/-! ## Under the lock -/

/-- The positive entries of a shard: none leaves but an expired one, none enters, and no limit takes one. -/
structure Shard.Spares (now : Nat) (s s' : Shard) : Prop where
  stays : ∀ x ∈ s.entries, x.negative = false → x.expired now = false → x ∈ s'.entries ∧ s'.cells x.id = s.cells x.id
  old : ∀ x ∈ s'.entries, x.negative = false → x ∈ s.entries
  evictions : (s'.partitions false).evictions = (s.partitions false).evictions

theorem Shard.Spares.refl (now) (s : Shard) : s.Spares now s :=
  ⟨fun _ hx _ _ => ⟨hx, rfl⟩, fun _ hx _ => hx, rfl⟩

theorem Shard.Spares.trans (h1 : s.Spares now s') (h2 : s'.Spares now s'') : s.Spares now s'' := by
  refine ⟨fun x hx hpos hheld => ?_, fun x hx hpos => h1.old x (h2.old x hx hpos) hpos, h2.evictions.trans h1.evictions⟩
  obtain ⟨hx', hcells'⟩ := h1.stays x hx hpos hheld
  obtain ⟨hx'', hcells''⟩ := h2.stays x hx' hpos hheld
  exact ⟨hx'', hcells''.trans hcells'⟩

theorem Shard.Less.spares {gone} (h : s.Less s' gone)
    (hgone : ∀ x ∈ s.entries, gone x = true → x.negative = false → x.expired now = true)
    (hevictions : (s'.partitions false).evictions = (s.partitions false).evictions) : s.Spares now s' := by
  refine ⟨fun x hx hpos hheld => ?_, fun x hx _ => (h.mem_iff.mp hx).1, hevictions⟩
  have hstays : gone x = false := by
    rw [Bool.eq_false_iff]
    intro hg
    rw [hgone x hx hg hpos] at hheld
    cases hheld
  have hx' := h.mem_iff.mpr ⟨hx, hstays⟩
  exact ⟨hx', h.cells x hx'⟩

variable {pinned : Nat → Bool}

theorem evict_spares {reason} (hwf : l.shard.Wf maxVariants)
    (he : e ∈ l.shard.entries) (hneg : e.negative = true) (h : l.evict pinned e.negative e.id now reason = some l') :
    l.shard.Spares u l'.shard := by
  obtain ⟨l1, h1, _, hless⟩ := evict_spec pinned now reason hwf he
  cases h.symm.trans h1
  obtain ⟨shard, heq, hsame, hothers⟩ := evict_eq pinned now reason hwf he
  rw [heq] at h
  have hquiet := remove_quiet (l := { l with shard }) (hsame.alike.wf hwf) h
  refine hless.spares (fun x _ hx hpos => ?_) ?_
  · rw [(Prod.mk.inj (of_decide_eq_true hx)).1, hneg] at hpos
    cases hpos
  · rw [hquiet.evictions false]
    exact congrArg _ (hothers false (by simp [hneg]))

theorem reject_spares (l : Locked) : l.shard.Spares u l.reject.shard :=
  (reject_same l).less.spares (by simp) rfl

variable {d : StoreDecision} {key : Key}

theorem place_spares {overhead} {stored : Stored} {superseded}
    (hwf : l.shard.Wf maxVariants) (hmax : 0 < maxVariants) (hneg : stored.negative = true)
    (h : l.place pinned overhead maxVariants key stored now superseded = some (l', d)) : l.shard.Spares u l'.shard := by
  obtain ⟨l1, l2, d2, h2, hpath, _, hend⟩ := place_path pinned overhead now key stored superseded hwf hmax fun _ => hneg
  cases h.symm.trans h2
  have hs : l.shard.Spares u l1.shard := hpath.keeps (I := fun l1 => l.shard.Spares u l1.shard) hwf (.refl _ _)
    fun hwf he hkind hevict hs => hs.trans (evict_spares hwf he (hkind.trans hneg) hevict)
  refine hs.trans ?_
  rcases hend with ⟨_, rfl⟩ | ⟨_, rfl⟩
  · exact reject_spares l1
  · have hwf1 := (hpath.less hwf).1
    have hmore := (publish_with hwf1 key stored (charge overhead stored.wire key) now).more hwf1
    refine ⟨fun x hx _ _ => ?_, fun x hx hpos => ?_, evictions_update _ _ _ _ rfl⟩
    · have hx' := hmore.mem_iff.mpr (.inr ⟨hx, rfl⟩)
      refine ⟨hx', hmore.cells x hx' fun heq => ?_⟩
      have hid : x.id = l1.shard.clock + 1 := congrArg Entry.id heq
      have := hwf1.clock x hx
      omega
    · rcases hmore.mem_iff.mp hx with rfl | ⟨hx, _⟩
      · exact absurd hneg (by simpa [Stored.entry] using hpos)
      · exact hx

theorem prune_spares (hwf : l.shard.Wf maxVariants)
    (h : l.prune pinned key now = some l') : l.shard.Spares now l'.shard := by
  obtain ⟨l1, h1, _, hless⟩ := prune_spec pinned hwf key now
  cases h.symm.trans h1
  refine hless.spares (fun x _ hx _ => (Bool.and_eq_true_iff.mp hx).2) ?_
  exact (removeAll_quiet _ hwf h1).evictions false

def Offer.Apart (o : Offer) (s : Shard) : Prop :=
  ∀ x ∈ s.entries, x.key = o.key → x.negative = false → x.scope.overlaps o.scope = false

variable {o : Offer}

theorem supersede_spares (hwf : l.shard.Wf config.maxVariants)
    (hmax : 0 < config.maxVariants) (hneg : ∀ answer, o.prepared = .ok answer → answer.negative = true)
    (hapart : o.Apart l.shard) (h : l.supersede P config pinned o now = some (l', d)) : l.shard.Spares u l'.shard := by
  obtain ⟨l1, h1, hwf1, hless⟩ := removeTargets_spec pinned hwf o.key fun e => e.scope.overlaps o.scope
  have hs : l.shard.Spares u l1.shard := by
    refine hless.spares (fun x hx hgone hpos => ?_) ((removeAll_quiet _ hwf h1).evictions false)
    rw [Bool.and_eq_true, decide_eq_true_eq] at hgone
    rw [hapart x hx hgone.1 hpos] at hgone
    cases hgone.2
  simp only [Locked.supersede, h1, bind, Option.bind] at h
  split at h
  · cases h
    exact hs
  · next answer hprepared => exact hs.trans (place_spares hwf1 hmax (hneg answer hprepared) h)

theorem Offer.Apart.spared (h : o.Apart s) (hs : s.Spares now s') : o.Apart s' :=
  fun x hx hk hpos => h x (hs.old x hx hpos) hk hpos

theorem admitAnswer_spares (hwf : l.shard.Wf config.maxVariants)
    (hmax : 0 < config.maxVariants) (hneg : ∀ answer, o.prepared = .ok answer → answer.negative = true)
    (hapart : (l.shard.admits config o now).Apart l.shard) (h : l.admitAnswer P config pinned o now = some (l', d)) :
    l.shard.Spares now l'.shard := by
  obtain ⟨l1, h1, hwf1, hend⟩ := admitAnswer_parts hwf h
  have hs := prune_spares hwf h1
  rcases hend with ⟨rfl, _⟩ | ⟨sharing, counts, h⟩
  · exact hs
  · obtain ⟨scope, heq⟩ := admits_eq l.shard o
    rw [heq] at h hapart
    have hapart1 : Offer.Apart { o with scope } l1.shard := hapart.spared hs
    have hsup := supersede_spares (u := now) (l := { l1 with shard := { l1.shard with sharing, counts } })
      (o := { o with scope }) ((l1.shard.alike_told sharing counts).wf hwf1) hmax hneg hapart1 h
    exact hs.trans ⟨hsup.stays, hsup.old, hsup.evictions⟩

theorem admitFailure_spares {f} (hwf : l.shard.Wf config.maxVariants) (hmax : 0 < config.maxVariants)
    (h : l.admitFailure P config pinned f now = some (l', d)) : l.shard.Spares now l'.shard := by
  obtain ⟨l1, h1, hwf1, hend⟩ := admitFailure_parts hwf h
  have hs := prune_spares hwf h1
  rcases hend with rfl | ⟨targets, l2, superseded, htargets, h2, hwf2, hless, h⟩
  · exact hs
  · have hremoved : l1.shard.Spares now l2.shard := by
      refine hless.spares (fun x _ hgone hpos => ?_) ((removeAll_quiet _ hwf1 h2).evictions false)
      have hneg : x.negative = true := htargets _ (List.contains_iff_mem.mp hgone)
      rw [hneg] at hpos
      cases hpos
    exact hs.trans (hremoved.trans (place_spares hwf2 hmax rfl h))

/-! ## What a lookup returns -/

/-- `peek` with stale data allowed answers the query at `u` with this hit, from this entry. -/
structure Returns (P : Platform) (c : Cache) (query : SingleQuery) (outgoing : Option ClientSubnet) (u : Nat) (e : Entry)
    (hit : Hit) : Prop where
  selected : ∃ key s, Key.of query = some key ∧ c.shards[c.shardOf key]? = some s ∧ e ∈ s.entries ∧
    s.select key outgoing u true = some (e.negative, e.id)
  peek : c.peek P (fun _ _ => false) query outgoing u true = some (c, some hit)

theorem unlock_same (hs : c.shards[i]? = some s) : c.unlock i ⟨s, c.refreshUseful, c.refreshUnused⟩ = c := by
  have hset : c.shards.set i s = c.shards := by
    obtain ⟨hi, rfl⟩ := List.getElem?_eq_some_iff.mp hs
    exact List.set_getElem_self hi
  unfold unlock
  rw [hset]

variable {outgoing : Option ClientSubnet} {query : SingleQuery}

theorem peek_selected (hwf : c.Wf)
    (hkey : Key.of query = some key) (hs : c.shards[c.shardOf key]? = some s) (he : e ∈ s.entries)
    (hsel : s.select key outgoing u true = some (e.negative, e.id)) :
    c.peek P (fun _ _ => false) query outgoing u true =
      some (c, if (c.policy key query.question.name).bypass then none
        else (e.reply P c.config query (s.cells e.id).hits u).hit) := by
  have hpeek := (hwf.shards _ s hs).peek he
  unfold Cache.peek Cache.lookupInner
  rw [hkey]
  dsimp only
  split
  · simp [bind, Option.bind, LookupResult.empty, ofBool]
  · simp only [Cache.withShard, lock, hs, Option.map_some, bind, Option.bind, Locked.lookup, hsel, Bool.false_eq_true,
      if_false, hpeek, unlock_same hs]

theorem candidates_answers (he : e ∈ s.candidates key outgoing u true) : e.failure = none := by
  have husable := (List.mem_filter.mp he).2
  simp only [Entry.usable, Bool.and_eq_true, Bool.not_eq_true'] at husable
  simpa using husable.2

theorem selected_iff (hwf : s.Wf maxVariants) (hs : s.Coexist FailureBeside) :
    e ∈ s.entries ∧ s.select key outgoing u true = some (e.negative, e.id) ↔ e ∈ s.candidates key outgoing u true := by
  constructor
  · intro ⟨he, hsel⟩
    obtain ⟨x, hx, _, hid⟩ := select_mem hsel
    rw [← hwf.eq_of_id (hwf.mem_candidates.mp hx).1.1 he hid]
    exact hx
  · intro he
    have hlen : (s.candidates key outgoing u true).length ≤ 1 := by
      refine hs.candidates hwf fun a ha b _ h => ?_
      have hfailed := h.1
      rw [candidates_answers ha] at hfailed
      cases hfailed
    have hone : s.candidates key outgoing u true = [e] := by
      match hl : s.candidates key outgoing u true with
      | [] =>
        rw [hl] at he
        cases he
      | [x] =>
        rw [hl] at he
        rw [List.mem_singleton.mp he]
      | _ :: _ :: _ =>
        rw [hl] at hlen
        simp at hlen
    refine ⟨(hwf.mem_candidates.mp he).1.1, ?_⟩
    rw [Shard.select, hone]
    rfl

theorem Entry.expired_of_le {t t'} (h : t ≤ t') (hheld : e.expired t' = false) : e.expired t = false := by
  have hlt : ¬e.retention ≤ t' - e.inserted := of_decide_eq_false hheld
  exact decide_eq_false (show ¬e.retention ≤ t - e.inserted by omega)

/-- A positive entry that a lookup can use is there before and after. -/
theorem Shard.Spares.candidates (h : s.Spares now s')
    (hwf : s.Wf maxVariants) (hwf' : s'.Wf maxVariants) (hu : now ≤ u) (hpos : e.negative = false) :
    e ∈ s.candidates key outgoing u true ↔ e ∈ s'.candidates key outgoing u true := by
  rw [hwf.mem_candidates, hwf'.mem_candidates]
  constructor
  · intro ⟨⟨he, hk⟩, husable⟩
    have hheld : e.expired u = false := by
      simp only [Entry.usable, Bool.and_eq_true, Bool.not_eq_true'] at husable
      exact husable.1.1.2
    exact ⟨⟨(h.stays e he hpos (Entry.expired_of_le hu hheld)).1, hk⟩, husable⟩
  · intro ⟨⟨he, hk⟩, husable⟩
    exact ⟨⟨h.old e he hpos, hk⟩, husable⟩

structure Spares (now : Nat) (c c' : Cache) : Prop where
  each : c.Each c' fun _ => Shard.Spares now
  wf : c'.Wf
  apart : c'.Coexist FailureBeside

/-- **The same positive answer is returned** before and after. -/
theorem Spares.returns {hit} (h : Spares now c c')
    (hwf : c.Wf) (hapart : c.Coexist FailureBeside) (hu : now ≤ u) (hpos : e.negative = false) :
    c.Returns P query outgoing u e hit ↔ c'.Returns P query outgoing u e hit := by
  have hframe := h.each.frame
  -- both caches select the entry, and reply the same
  have hboth : ∀ {key s s'}, Key.of query = some key → c.shards[c.shardOf key]? = some s →
      c'.shards[c.shardOf key]? = some s' →
      (e ∈ s.entries ∧ s.select key outgoing u true = some (e.negative, e.id) ↔
        e ∈ s'.entries ∧ s'.select key outgoing u true = some (e.negative, e.id)) ∧
      (e ∈ s.entries ∧ s.select key outgoing u true = some (e.negative, e.id) →
        (c.peek P (fun _ _ => false) query outgoing u true = some (c, some hit) ↔
          c'.peek P (fun _ _ => false) query outgoing u true = some (c', some hit))) := by
    intro key s s' hkey hs hs'
    obtain ⟨s1, hs1, hspares⟩ := h.each.shards _ s hs
    cases hs'.symm.trans hs1
    have hwfs := hwf.shards _ s hs
    have hwfs' := h.wf.shards _ s' hs'
    rw [hframe.config] at hwfs'
    have hiff : e ∈ s.entries ∧ s.select key outgoing u true = some (e.negative, e.id) ↔
        e ∈ s'.entries ∧ s'.select key outgoing u true = some (e.negative, e.id) := by
      rw [selected_iff hwfs (hapart _ s hs), selected_iff hwfs' (h.apart _ s' hs')]
      exact hspares.candidates hwfs hwfs' hu hpos
    refine ⟨hiff, fun hsel => ?_⟩
    have hsel' := hiff.mp hsel
    have hcells : s'.cells e.id = s.cells e.id := by
      have hc := (selected_iff hwfs (hapart _ s hs)).mp hsel
      have husable := (hwfs.mem_candidates.mp hc).2
      simp only [Entry.usable, Bool.and_eq_true, Bool.not_eq_true'] at husable
      exact (hspares.stays e hsel.1 hpos (Entry.expired_of_le hu husable.1.1.2)).2
    rw [← hframe.shardOf] at hs'
    rw [peek_selected hwf hkey hs hsel.1 hsel.2, peek_selected h.wf hkey hs' hsel'.1 hsel'.2, hframe.policy, hframe.config,
      hcells]
    simp
  constructor
  · rintro ⟨⟨key, s, hkey, hs, hsel⟩, hpeek⟩
    obtain ⟨s', hs', _⟩ := h.each.shards _ s hs
    obtain ⟨hiff, hreply⟩ := hboth hkey hs hs'
    exact ⟨⟨key, s', hkey, hframe.shardOf key ▸ hs', hiff.mp hsel⟩, (hreply hsel).mp hpeek⟩
  · rintro ⟨⟨key, s', hkey, hs', hsel'⟩, hpeek⟩
    rw [hframe.shardOf] at hs'
    obtain ⟨s, hs, _⟩ := h.each.of hs'
    obtain ⟨hiff, hreply⟩ := hboth hkey hs hs'
    exact ⟨⟨key, s, hkey, hs, hiff.mpr hsel'⟩, (hreply (hiff.mpr hsel')).mpr hpeek⟩

/-! ## Admissions -/

theorem Spares.recorded (h : Spares now c c') (diagnostics) : Spares now c { c' with diagnostics } where
  each := h.each.recorded _
  wf := ⟨h.wf.variants, h.wf.count, h.wf.shards, h.wf.homed, h.wf.maxEntries, h.wf.maxBytes⟩
  apart := h.apart

variable {response : Message} {scope : Scope} {epoch : Nat} {failure : Failure}

/-- **A failure spares the positive answers.** -/
theorem fail_spares {pinned} (hwf : c.Wf) (hapart : c.Coexist FailureBeside)
    (h : c.admitFailure P pinned query response scope now epoch failure = some (c', d)) : Spares now c c' := by
  obtain ⟨c1, d1, h1, _, hfails⟩ := fails_spec P pinned query response scope now epoch failure hwf
  cases h.symm.trans h1
  refine ⟨?_, (hfails.moves hwf).wf hwf, hfails.coexist hapart fun _ _ hb => ⟨hb.failed, hb.answered⟩⟩
  rcases admitFailure_cases h with ⟨rfl, _⟩ | ⟨key, wire, lifetime, _, h⟩
  · exact ⟨.refl _, fun _ s hs => ⟨s, hs, .refl _ _⟩⟩
  refine withShard_each h (.refl now) fun l l' hl hfail => ?_
  split at hfail
  · cases hfail
    exact reject_spares l
  · exact admitFailure_spares (hwf.shards _ _ hl) hwf.variants hfail

theorem fail_fresh {pinned} (hwf : c.Wf) (hkey : Key.of query = some key)
    (hs : c.shards[c.shardOf key]? = some s) (he : e ∈ s.entries) (hk : e.key = key)
    (ho : e.scope.overlaps scope = true) (hanswer : e.failure = none) (hheld : e.expired now = false)
    (hfresh : e.fresh now = true) (h : c.admitFailure P pinned query response scope now epoch failure = some (c', d)) :
    d.admitted = false := by
  rcases admitFailure_cases h with ⟨_, hd⟩ | ⟨key', wire, lifetime, hkey', h⟩
  · exact hd
  cases hkey.symm.trans hkey'
  obtain ⟨s0, l', hs0, hfail, rfl⟩ := withShard_cases h
  cases hs.symm.trans hs0
  split at hfail
  · cases hfail
    rfl
  obtain ⟨l1, h1, hwf1, hless⟩ := prune_spec (l := ⟨s, c.refreshUseful, c.refreshUnused⟩) (pinned (c.shardOf key))
    (hwf.shards _ _ hs) key now
  have he1 : e ∈ (l1.shard.buckets key).getD [] :=
    hwf1.mem_bucket.mpr ⟨hless.mem_iff.mpr ⟨he, by simp [hheld]⟩, hk⟩
  have hany : (((l1.shard.buckets key).getD []).filter fun e => e.scope.overlaps scope).any
      (fun e => e.failure.isNone && e.fresh now) = true :=
    List.any_eq_true.mpr ⟨e, List.mem_filter.mpr ⟨he1, ho⟩, by simp [hanswer, hfresh]⟩
  simp only [Locked.admitFailure, h1, bind, Option.bind, hany, if_true] at hfail
  cases hfail
  rfl

variable {origin : Origin}

/-- **A negative answer spares the positive ones** it does not overlap. -/
theorem admit_spares {pinned} (hwf : c.Wf) (hapart : c.Coexist FailureBeside)
    (hneg : isNegative query.question response = true)
    (hscope : ∀ key s, Key.of query = some key → c.shards[c.shardOf key]? = some s →
      (s.admits c.config (c.offer P query response scope origin key) now).Apart s)
    (h : c.admitAnswer P pinned query response scope now epoch origin = some (c', d)) : Spares now c c' := by
  obtain ⟨_, hadmits⟩ := admits_of hwf h
  refine ⟨?_, (hadmits.moves hwf).wf hwf, hadmits.coexist hapart⟩
  rcases admitAnswer_cases h with ⟨rfl, _⟩ | ⟨key, hkey, _, _, h⟩
  · exact ⟨.refl _, fun _ s hs => ⟨s, hs, .refl _ _⟩⟩
  refine withShard_each h (.refl now) fun l l' hl hadmit => ?_
  split at hadmit
  · cases hadmit
    split
    · exact .refl _ _
    · exact reject_spares l
  · refine admitAnswer_spares (hwf.shards _ _ hl) hwf.variants (fun answer hprepared => ?_) (hscope key _ hkey hl) hadmit
    obtain ⟨stored, L, hprepare, _⟩ := prepare_ok hprepared
    rw [(prepareResponse_ok (q := query.question) hprepare).2.1]
    exact hneg

/-! ## Every reachable cache -/

theorem Entry.Made.retained
    (h : e.Made P c query response scope origin now) (hfresh : e.fresh u = true) : e.expired u = false := by
  obtain ⟨answer, _, he⟩ := h.made
  have hle : e.lifetime ≤ e.retention := by
    rw [he]
    simp only [Offer.entry, Stored.entry, Offer.stored]
    split <;> omega
  have hlt : e.age u < e.lifetime := of_decide_eq_true hfresh
  exact decide_eq_false (by omega)

/-- What an admission leaves alone: every positive entry within retention stays with its data, none
is evicted for a limit, and every lookup that may be answered stale returns the same positive answer. -/
structure LeavesPositive (P : Platform) (now : Nat) (c c' : Cache) : Prop where
  stays : ∀ i x, c.Holds i x → x.negative = false → x.expired now = false → c'.Holds i x
  evictions : ∀ (i : Nat) (s : Shard), c.shards[i]? = some s → ∃ s' : Shard, c'.shards[i]? = some s' ∧
    (s'.partitions false).evictions = (s.partitions false).evictions
  returns : ∀ query outgoing u e hit, now ≤ u → e.negative = false →
    (c.Returns P query outgoing u e hit ↔ c'.Returns P query outgoing u e hit)

theorem Spares.leavesPositive (h : Spares now c c') (hwf : c.Wf) (hapart : c.Coexist FailureBeside) :
    LeavesPositive P now c c' where
  stays i x := by
    intro ⟨s, hs, hx⟩ hpos hheld
    obtain ⟨s', hs', hspares⟩ := h.each.shards i s hs
    exact ⟨s', hs', (hspares.stays x hx hpos hheld).1⟩
  evictions i s hs := by
    obtain ⟨s', hs', hspares⟩ := h.each.shards i s hs
    exact ⟨s', hs', hspares.evictions⟩
  returns query outgoing u e hit hu hpos := h.returns hwf hapart hu hpos

/-- **Negative churn leaves positive answers alone.** In every reachable cache, neither a failure nor
a negative answer that overlaps no positive entry of its key, under the scope it is stored under, touches
the positive answers; and no failure is stored where an overlapping answer is fresh. -/
theorem negative_churn {hasher : Key → Nat} (hvariants : 0 < config.maxVariants) {events : List Event}
    (hrun : run (step P C) (Cache.new hasher config) events = some c) :
    (∀ pinned query response scope now epoch failure c' d,
      c.insertFailureIfEpoch P pinned query response scope now epoch failure = some (c', d) →
      LeavesPositive P now c c' ∧
      ∀ i x, c.Holds i x → Key.of query = some x.key → x.scope.overlaps scope = true → x.failure = none →
        x.fresh now = true → d.admitted = false) ∧
    ∀ pinned query response scope now epoch origin c' d,
      c.admitAnswer P pinned query response scope now epoch origin = some (c', d) →
      isNegative query.question response = true →
      (∀ key s, Key.of query = some key → c.shards[c.shardOf key]? = some s →
        (s.admits c.config (c.offer P query response scope origin key) now).Apart s) →
      LeavesPositive P now c c' := by
  have hwf0 := new_wf hasher hvariants
  obtain ⟨hwf, hapart⟩ := run_answers_apart hwf0 (new_coexist hasher config) hrun
  refine ⟨fun pinned query response scope now epoch failure c' d h => ?_,
    fun pinned query response scope now epoch origin c' d h hneg hscope => ?_⟩
  · obtain ⟨⟨c1, d1⟩, h1, heq⟩ := Option.map_eq_some_iff.mp h
    obtain ⟨rfl, rfl⟩ := Prod.mk.inj heq
    refine ⟨((fail_spares hwf hapart h1).recorded _).leavesPositive hwf hapart, ?_⟩
    intro i x hx hkey ho hanswer hfresh
    obtain ⟨s, hs, he⟩ := hx
    obtain rfl := hwf.homed i x ⟨s, hs, he⟩
    obtain ⟨ev, _, query0, response0, scope0, origin0, hmade, _⟩ :=
      (run_made hwf0 hrun ⟨s, hs, he⟩ hanswer).resolve_left (new_holds hasher config _ x)
    exact fail_fresh hwf hkey hs he rfl ho hanswer (hmade.retained hfresh) hfresh h1
  · exact (admit_spares hwf hapart hneg hscope h).leavesPositive hwf hapart

/-- `a.` does not exist. -/
def absentResponse : Message :=
  { sampleResponse with
    responseCode := .nxDomain
    answers := []
    authorities := [⟨⟨[[97]], true⟩, 60, .IN, .soa ⟨⟨[[97]], true⟩, ⟨[[97]], true⟩, 0, 0, 0, 0, 60⟩⟩] }

def absentWire : Bytes :=
  [0, 0, 128, 3, 0, 1, 0, 0, 0, 1, 0, 0, 1, 97, 0, 0, 1, 0, 1, 192, 12, 0, 6, 0, 1, 0, 0, 0, 60, 0, 24,
    192, 12, 192, 12, 0, 0, 0, 0, 0, 0, 0, 0, 0, 0, 0, 0, 0, 0, 0, 0, 0, 0, 0, 60]

def churnPlatform : Platform :=
  { samplePlatform with
    hickory := { samplePlatform.hickory with
      toVec := fun m =>
        if m = { absentResponse with id := 0 } then some absentWire else samplePlatform.hickory.toVec m } }

def churnScope (a : Fin 256) : Scope := .exactSource ⟨.ofV4 a 0 0 0, 24, sharedPrefix_le⟩

def churnConfig (sharing : Bool) : CacheConfig :=
  { shards := 1, stale := { enabled := true }, ecsSharing := { enabled := sharing, minNetworks := 2 } }

/-- An answer for one network, and later that the name does not exist for another. -/
def churnEvents : List Event :=
  [{ now := 0, op := .insert sampleQuery sampleResponse (churnScope 10) 0 },
    { now := 70 * second, op := .insert sampleQuery absentResponse (churnScope 11) 0 }]

/-- An answer that has gone stale stays beside a failure that is stored after it, and beside a negative
answer for another network. -/
theorem negative_churn_sample : ∃ c c1 d1 c2 d2,
    run (step churnPlatform sampleCodec) (Cache.new (fun _ => 7) (churnConfig false)) (churnEvents.take 1) = some c ∧
    c.insertFailureIfEpoch churnPlatform (fun _ _ => false) sampleQuery sampleFailure .noEcs (70 * second) 0
      .staleFallback = some (c1, d1) ∧ d1.admitted = true ∧ LeavesPositive churnPlatform (70 * second) c c1 ∧
    c.admitAnswer churnPlatform (fun _ _ => false) sampleQuery absentResponse (churnScope 11) (70 * second) 0 .answer =
      some (c2, d2) ∧ d2.admitted = true ∧ LeavesPositive churnPlatform (70 * second) c c2 := by
  have hshape : ((run (step churnPlatform sampleCodec) (Cache.new (fun _ => 7) (churnConfig false))
    (churnEvents.take 1)).bind
      fun c => (c.insertFailureIfEpoch churnPlatform (fun _ _ => false) sampleQuery sampleFailure .noEcs (70 * second) 0
        .staleFallback).bind fun r1 =>
      (c.admitAnswer churnPlatform (fun _ _ => false) sampleQuery absentResponse (churnScope 11) (70 * second) 0
        .answer).map fun r2 =>
      (r1.2.admitted, r2.2.admitted, c.config.ecsSharing.enabled, c.shards.map fun s => s.entries.map Entry.scope)) =
        some (true, true, false, [[churnScope 10]]) := by decide +kernel
  obtain ⟨c, hrun, hshape⟩ := Option.bind_eq_some_iff.mp hshape
  obtain ⟨⟨c1, d1⟩, hfail, hshape⟩ := Option.bind_eq_some_iff.mp hshape
  obtain ⟨⟨c2, d2⟩, hadmit, hshape⟩ := Option.map_eq_some_iff.mp hshape
  simp only [Prod.mk.injEq] at hshape
  obtain ⟨hd1, hd2, hsharing, hscopes⟩ := hshape
  obtain ⟨hfails, hadmits⟩ := negative_churn (by decide) hrun
  refine ⟨c, c1, d1, c2, d2, hrun, hfail, hd1, (hfails _ _ _ _ _ _ _ _ _ hfail).1, hadmit, hd2,
    hadmits _ _ _ _ _ _ _ _ _ hadmit (by decide) fun key s _ hs x hx _ _ => ?_⟩
  have hmem : x.scope ∈ s.entries.map Entry.scope := List.mem_map_of_mem hx
  have hlist : s.entries.map Entry.scope ∈ [[churnScope 10]] := by
    rw [← hscopes]
    exact List.mem_map_of_mem (List.mem_of_getElem? hs)
  rw [List.mem_singleton.mp hlist, List.mem_singleton] at hmem
  simp only [Shard.admits, Shard.classified, hsharing, hmem, Bool.false_eq_true, if_false, ite_self, offer]
  decide +kernel

/-- A negative answer that overlaps no positive entry as it is offered supersedes one when the learner
widens its scope to the family. -/
theorem learned_negative_supersedes : ∃ c c' d s s' x,
    run (step churnPlatform sampleCodec) (Cache.new (fun _ => 7) (churnConfig true)) churnEvents = some c ∧
    c.admitAnswer churnPlatform (fun _ _ => false) sampleQuery absentResponse (churnScope 12) (71 * second) 0 .answer =
      some (c', d) ∧
    isNegative sampleQuery.question absentResponse = true ∧ c.shards = [s] ∧ c'.shards = [s'] ∧
    (∀ y ∈ s.entries, y.negative = false → y.scope.overlaps (churnScope 12) = false) ∧
    x ∈ s.entries ∧ x.negative = false ∧ x.expired (71 * second) = false ∧ x ∉ s'.entries := by
  have hshape : ((run (step churnPlatform sampleCodec) (Cache.new (fun _ => 7) (churnConfig true)) churnEvents).bind
      fun c => (c.admitAnswer churnPlatform (fun _ _ => false) sampleQuery absentResponse (churnScope 12) (71 * second) 0
        .answer).map fun r =>
      (c.shards.map fun s => s.entries.map fun e => (e.negative, e.scope, e.expired (71 * second)),
        r.1.shards.map fun s => s.entries.map Entry.negative)) =
        some ([[(false, churnScope 10, false), (true, churnScope 11, false)]], [[true]]) := by decide +kernel
  obtain ⟨c, hrun, hshape⟩ := Option.bind_eq_some_iff.mp hshape
  obtain ⟨⟨c', d⟩, hadmit, hshape⟩ := Option.map_eq_some_iff.mp hshape
  obtain ⟨hbefore, hafter⟩ := Prod.mk.inj hshape
  obtain ⟨s, hs, hbefore⟩ := List.map_eq_singleton_iff.mp hbefore
  obtain ⟨s', hs', hafter⟩ := List.map_eq_singleton_iff.mp hafter
  obtain ⟨x, rest, hentries, hx, hrest⟩ := List.map_eq_cons_iff.mp hbefore
  obtain ⟨y, hrest, hy⟩ := List.map_eq_singleton_iff.mp hrest
  simp only [Prod.mk.injEq] at hx hy
  refine ⟨c, c', d, s, s', x, hrun, hadmit, by decide, hs, hs', ?_, by simp [hentries], hx.1, hx.2.2, fun hmem => ?_⟩
  · simp only [hentries, hrest, List.forall_mem_cons, hx, hy]
    decide +kernel
  · have hneg : x.negative ∈ s'.entries.map Entry.negative := List.mem_map_of_mem hmem
    rw [hafter, hx.1] at hneg
    simp at hneg

end Parins.Cache
