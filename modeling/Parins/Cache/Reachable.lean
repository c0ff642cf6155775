/-
What holds of a cache after every run of events: its indexes agree and stay within
the configured budgets, no event panics, and entries that overlap are one cached
failure beside an answer that is no longer fresh.
-/
import Parins.Cache.Restored

namespace Parins.Cache
open Net Lib List

variable {P : Platform} {C : Codec} {config : CacheConfig} {c c' : Cache} {s s' : Shard} {e x : Entry} {now : Nat}

/-! ## What an event does -/

inductive Op.Offers (query : SingleQuery) (response : Message) (scope : Scope) (epoch : Nat) : Origin → Op → Prop where
  | insert : Op.Offers query response scope epoch .answer (.insert query response scope epoch)
  | insertRefresh : Op.Offers query response scope epoch .refresh (.insertRefresh query response scope epoch)
  | admitRestored {r : Restore} :
      Op.Offers query response scope epoch (.restore r) (.admitRestored query response scope epoch r)

/-- All that an event can do to a cache in order. -/
inductive Stepped (P : Platform) (C : Codec) (c : Cache) (ev : Event) (c' : Cache) : Prop where
  /-- Lookups and released handles: at most expired entries leave. -/
  | loses : c'.epoch = c.epoch → c.Each c' (fun _ => Shard.Loses c.config.maxVariants fun x => x.expired ev.now = true) →
      Stepped P C c ev c'
  | admits {query : SingleQuery} {response : Message} {scope : Scope} {epoch : Nat} {origin : Origin} :
      ev.op.Offers query response scope epoch origin → c'.epoch = c.epoch →
      c.Admits P c' query response scope ev.now epoch origin → Stepped P C c ev c'
  | fails {query : SingleQuery} {response : Message} {scope : Scope} {epoch : Nat} {failure : Failure} :
      ev.op = .insertFailure query response scope epoch failure → c'.epoch = c.epoch →
      c.Fails P c' query scope ev.now epoch → Stepped P C c ev c'
  | cleared {name : Option Name} {kind : Option RecordType} {scope : Option Scope} :
      ev.op = .invalidate name kind scope → c'.epoch = c.epoch + 1 →
      c.Each c' (fun _ => Shard.Cleared c.config.maxVariants (filterOf name kind scope)) → Stepped P C c ev c'
  | restored {call : RestoreCall} {cancelled : Bool} {bytes : Bytes} {outcome : Except SnapshotError SnapshotReport} :
      ev.op = .restoreSnapshot call cancelled bytes → Restoration P C { call with now := ev.now } bytes c c' outcome →
      Stepped P C c ev c'

/-- **Every event is one of these, and none panics.** -/
theorem step_spec (P C ev) (hwf : c.Wf) : ∃ c', step P C c ev = some c' ∧ Stepped P C c ev c' := by
  obtain ⟨now, pinned, op⟩ := ev
  cases op with
  | lookup query outgoing allowStale =>
    obtain ⟨c', result, hc', hepoch, heach, _⟩ := lookupInner_spec P pinned query outgoing now allowStale true hwf
    refine ⟨{ c' with diagnostics := c'.diagnostics.recordLookup result.decision }, ?_,
      .loses hepoch (heach.recorded _)⟩
    simp only [step, lookupWithDecision, hc', bind, Option.bind, Option.map]
  | peek query outgoing allowStale =>
    obtain ⟨c', result, hc', hepoch, heach, _⟩ := lookupInner_spec P pinned query outgoing now allowStale false hwf
    refine ⟨c', ?_, .loses hepoch heach⟩
    simp only [step, Cache.peek, hc', bind, Option.bind, Option.map]
  | insert query response scope epoch =>
    obtain ⟨c', d, hc', hepoch, hadmits⟩ := admits_spec P pinned query response scope now epoch .answer hwf
    refine ⟨{ c' with diagnostics := c'.diagnostics.recordStore d }, ?_, .admits .insert hepoch (hadmits.recorded _)⟩
    simp only [step, insertDecisionIfEpoch, hc', Option.map, recordStore]
  | insertRefresh query response scope epoch =>
    obtain ⟨c', d, hc', hepoch, hadmits⟩ := admits_spec P pinned query response scope now epoch .refresh hwf
    refine ⟨{ c' with diagnostics := c'.diagnostics.recordStore d }, ?_,
      .admits .insertRefresh hepoch (hadmits.recorded _)⟩
    simp only [step, insertRefreshIfEpoch, hc', Option.map, recordStore]
  | insertFailure query response scope epoch failure =>
    obtain ⟨c', d, hc', hepoch, hfails⟩ := fails_spec P pinned query response scope now epoch failure hwf
    refine ⟨{ c' with diagnostics := c'.diagnostics.recordStore d }, ?_, .fails rfl hepoch (hfails.recorded _)⟩
    simp only [step, insertFailureIfEpoch, hc', Option.map, recordStore]
  | admitRestored query response scope epoch restore =>
    obtain ⟨c', d, hc', hepoch, hadmits⟩ := admits_spec P pinned query response scope now epoch (.restore restore) hwf
    refine ⟨c', ?_, .admits .admitRestored hepoch hadmits⟩
    simp only [step, hc', Option.map]
  | invalidate name kind scope =>
    obtain ⟨c', removed, hc', hepoch, heach⟩ := invalidate_spec pinned name kind scope hwf
    refine ⟨c', ?_, .cleared rfl hepoch heach⟩
    simp only [step, hc', Option.map]
  | restoreSnapshot call cancelled bytes =>
    obtain ⟨c', outcome, hc', hres⟩ := restore_spec P C { call with now := now } cancelled bytes hwf
    refine ⟨c', ?_, .restored rfl hres⟩
    simp only [step, hc', Option.map]
  | release i negative charge =>
    refine ⟨_, rfl, .loses rfl ((release_each hwf i negative charge).mono fun i s s' _ h => ?_)⟩
    obtain ⟨hwf', gone, hch, hsharing, hgone⟩ := h
    exact ⟨hwf', gone, hch, hsharing, fun x hx => (hgone x hx).elim⟩

variable {ev : Event}

theorem step_cases (hwf : c.Wf) (h : step P C c ev = some c') : Stepped P C c ev c' := by
  obtain ⟨c1, h1, hstepped⟩ := step_spec P C ev hwf
  cases h.symm.trans h1
  exact hstepped

theorem Stepped.wf (h : Stepped P C c ev c') (hwf : c.Wf) : c'.Wf := by
  cases h with
  | loses _ heach => exact heach.wf hwf fun i s s' _ h => h.moves
  | admits _ _ hadmits => exact (hadmits.moves hwf).wf hwf
  | fails _ _ hfails => exact (hfails.moves hwf).wf hwf
  | cleared _ _ heach => exact heach.wf hwf fun i s s' _ h => h.moves
  | restored _ hres => exact (hres.wf hwf).1

theorem Stepped.frame (h : Stepped P C c ev c') (hwf : c.Wf) : c.Frame c' := by
  cases h with
  | loses _ heach => exact heach.frame
  | admits _ _ hadmits => exact (hadmits.moves hwf).frame
  | fails _ _ hfails => exact (hfails.moves hwf).frame
  | cleared _ _ heach => exact heach.frame
  | restored _ hres => exact (hres.wf hwf).2.2

section Runs
variable {c0 : Cache} {events : List Event} (hwf : c0.Wf) (hrun : run (step P C) c0 events = some c)
include hwf hrun

/-- What every event of a run sustains holds at its end. -/
theorem run_sustains {I : Cache → Prop} (start : I c0) (next : ∀ {c ev c'}, ev ∈ events → c.Wf → c0.Frame c →
    step P C c ev = some c' → I c → I c') : c.Wf ∧ c0.Frame c ∧ I c := by
  refine run_induction (I := fun past c => (∀ ev ∈ past, ev ∈ events) → c.Wf ∧ c0.Frame c ∧ I c)
    (fun _ => ⟨hwf, .refl c0, start⟩) (fun past c ev c' _ ih hstep hmem => ?_) hrun fun _ => id
  obtain ⟨hc, hframe, hI⟩ := ih fun e he => hmem e (by simp [he])
  have hstepped := step_cases hc hstep
  exact ⟨hstepped.wf hc, hframe.trans (hstepped.frame hc), next (hmem ev (by simp)) hc hframe hstep hI⟩

theorem run_keeps : c.Wf ∧ c0.Frame c :=
  (run_sustains hwf hrun (I := fun _ => True) trivial fun _ _ _ _ => id).imp_right And.left

end Runs

/-! ## A new cache -/

theorem Shard.new_entries (config count i) : (Shard.new config count i).entries = [] := rfl

theorem Shard.new_wf (config count i maxVariants) : (Shard.new config count i).Wf maxVariants where
  parts negative := by
    refine ⟨fun id e h => ?_, Nat.zero_le _, rfl, Nat.zero_le _⟩
    exact absurd h (by simp [Shard.new, Partition.new, Recency.empty])
  ids := nodup_nil
  clock e he := absurd he (by simp [Shard.new_entries])
  indexed key b hb := by cases hb
  filed e he := absurd he (by simp [Shard.new_entries])
  nonempty key b hb := by cases hb
  variants key b hb := by cases hb
  learned := rfl
  failures := rfl
  negative e he := absurd he (by simp [Shard.new_entries])

theorem new_shard {hasher i} (h : (Cache.new hasher config).shards[i]? = some s) :
    s = Shard.new config (shardCount config) i := by
  simp only [Cache.new, List.getElem?_map, Option.map_eq_some_iff] at h
  obtain ⟨j, hj, rfl⟩ := h
  obtain ⟨_, rfl⟩ := List.getElem?_eq_some_iff.mp hj
  rw [getElem_range]

theorem new_holds (hasher config i e) : ¬(Cache.new hasher config).Holds i e := by
  rintro ⟨s, hs, he⟩
  rw [new_shard hs, Shard.new_entries] at he
  cases he

theorem new_wf (hasher) (hvariants : 0 < config.maxVariants) : (Cache.new hasher config).Wf where
  variants := hvariants
  count := by simp [Cache.new]
  shards i s hs := new_shard hs ▸ Shard.new_wf config _ i _
  homed i e h := absurd h (new_holds hasher config i e)
  maxEntries i s hs negative := by
    rw [new_shard hs]
    rfl
  maxBytes i s hs negative := by
    rw [new_shard hs]
    rfl

theorem validate_variants (h : config.validate = true) : 0 < config.maxVariants := by
  simp only [CacheConfig.validate, Bool.and_eq_true, decide_eq_true_eq] at h
  omega

theorem validate_percent (h : config.validate = true) : config.negativePercent ≤ 90 := by
  simp only [CacheConfig.validate, Bool.and_eq_true, decide_eq_true_eq] at h
  omega

/-- A validated cache is in order after every run, and the run does not panic. -/
theorem run_wf (P C hasher) (hvalid : config.validate = true) (events) :
    ∃ c, run (step P C) (Cache.new hasher config) events = some c ∧ c.Wf ∧ (Cache.new hasher config).Frame c := by
  refine run_total (I := fun c => c.Wf ∧ (Cache.new hasher config).Frame c)
    ⟨new_wf hasher (validate_variants hvalid), .refl _⟩ (fun c ev hI => ?_) events
  obtain ⟨c', hc', hstepped⟩ := step_spec P C ev hI.1
  exact ⟨c', hc', hstepped.wf hI.1, hI.2.trans (hstepped.frame hI.1)⟩

/-! ## Budgets -/

theorem sum_extra (q m k) : ((List.range k).map fun i => q + ofBool (decide (i < m))).sum = k * q + min k m := by
  induction k with
  | zero => simp
  | succ k ih =>
    rw [range_succ, map_append, sum_append, ih, Nat.add_mul]
    simp only [map_cons, map_nil, sum_cons, sum_nil, ofBool, decide_eq_true_eq]
    split <;> omega

theorem sum_portion (count total) (hpos : 0 < count) :
    ((List.range count).map (portion count total)).sum = total := by
  have hmod := Nat.mod_lt total hpos
  have hdiv := Nat.div_add_mod total count
  have hsum := sum_extra (total / count) (total % count) count
  rw [Nat.min_eq_right hmod.le, hdiv] at hsum
  exact hsum

theorem sum_shards_le (shards : List Shard) (f) (g : Nat → Nat)
    (h : ∀ i s, shards[i]? = some s → f s ≤ g i) : (shards.map f).sum ≤ ((List.range shards.length).map g).sum := by
  induction shards using List.reverseRecOn with
  | nil => simp
  | append_singleton rest s ih =>
    have hrest := ih fun i s hs => h i s (by rw [List.getElem?_append_left (List.getElem?_eq_some_iff.mp hs).1, hs])
    have hlast := h rest.length s (by simp)
    simp only [map_append, sum_append, length_append, length_singleton, range_succ,
      map_cons, map_nil, sum_cons, sum_nil]
    omega

theorem budgets_total (hvalid : config.validate = true) :
    (budgets config).entries false + (budgets config).entries true = config.maxEntries ∧
      (budgets config).bytes false + (budgets config).bytes true = config.maxBytes := by
  have hpercent := validate_percent hvalid
  have hentries : config.maxEntries * config.negativePercent / 100 ≤ config.maxEntries :=
    Nat.div_le_of_le_mul (by rw [Nat.mul_comm 100]; exact Nat.mul_le_mul_left _ (by omega))
  have hbytes : config.maxBytes * config.negativePercent / 100 ≤ config.maxBytes :=
    Nat.div_le_of_le_mul (by rw [Nat.mul_comm 100]; exact Nat.mul_le_mul_left _ (by omega))
  simp only [budgets, Bool.false_eq_true, if_false, if_true]
  refine ⟨by omega, ?_⟩
  split <;> omega

theorem sum_budget (hwf : c.Wf) (f : Partition → Nat) (budget : Bool → Nat)
    (h : ∀ i s, c.shards[i]? = some s → ∀ part, f (s.partitions part) ≤ portion (shardCount c.config) (budget part) i) :
    (c.shards.map fun s => f (s.partitions false) + f (s.partitions true)).sum ≤ budget false + budget true := by
  have hpos := shardCount_pos c.config
  calc (c.shards.map fun s => f (s.partitions false) + f (s.partitions true)).sum
      ≤ ((List.range c.shards.length).map fun i =>
          portion (shardCount c.config) (budget false) i + portion (shardCount c.config) (budget true) i).sum :=
        sum_shards_le _ _ _ fun i s hs => Nat.add_le_add (h i s hs false) (h i s hs true)
    _ = budget false + budget true := by
        rw [sum_map_add, hwf.count, sum_portion _ _ hpos, sum_portion _ _ hpos]

/-- **The indexes of a cache agree and stay within budget.** After every run of a validated cache,
which never panics, every shard is in order, and all shards together hold at most the configured
entries and charge. -/
theorem indexes_agree (P : Platform) (C : Codec) (hasher : Key → Nat) (hvalid : config.validate = true)
    (events : List Event) :
    ∃ c, run (step P C) (Cache.new hasher config) events = some c ∧
      (∀ (i : Nat) (s : Shard), c.shards[i]? = some s → s.Wf config.maxVariants) ∧
      (c.shards.map fun s => s.entries.length).sum ≤ config.maxEntries ∧
      (c.shards.map fun s => (s.partitions false).charged + (s.partitions true).charged).sum ≤ config.maxBytes := by
  obtain ⟨c, hrun, hwf, hframe⟩ := run_wf P C hasher hvalid events
  have hconfig : c.config = config := hframe.config
  obtain ⟨hentries, hbytes⟩ := budgets_total hvalid
  refine ⟨c, hrun, fun i s hs => hconfig ▸ hwf.shards i s hs, ?_, ?_⟩
  · have hsum := sum_budget hwf (fun p => p.lru.items.length) (budgets c.config).entries fun i s hs part =>
      hwf.maxEntries i s hs part ▸ ((hwf.shards i s hs).parts part).fits
    rw [hconfig, hentries] at hsum
    simpa only [Shard.entries, length_append, length_map] using hsum
  · have hsum := sum_budget hwf Partition.charged (budgets c.config).bytes fun i s hs part =>
      hwf.maxBytes i s hs part ▸ ((hwf.shards i s hs).parts part).within
    rwa [hconfig, hbytes] at hsum

/-! ### A small cache -/

def sampleQuery : SingleQuery where
  message := { id := 1, messageType := .query, opCode := .query, queries := [⟨⟨[[97]], true⟩, .A, .IN⟩] }
  question := ⟨⟨[[97]], true⟩, .A, .IN⟩
  single := rfl

/-- Its answer `a. 60 IN A 1.2.3.4`. -/
def sampleResponse : Message :=
  { id := 1, messageType := .response, opCode := .query, queries := [⟨⟨[[97]], true⟩, .A, .IN⟩]
    answers := [⟨⟨[[97]], true⟩, 60, .IN, .other .A [1, 2, 3, 4]⟩] }

/-- The answer as it is stored, with id 0, in wire form. -/
def sampleWire : Bytes :=
  [0, 0, 128, 0, 0, 1, 0, 1, 0, 0, 0, 0, 1, 97, 0, 0, 1, 0, 1,
    192, 12, 0, 1, 0, 1, 0, 0, 0, 60, 0, 4, 1, 2, 3, 4]

def sampleFailure : Message := Protocol.errorResponse sampleQuery.message .servFail

def sampleFailureWire : Bytes := [0, 1, 128, 130, 0, 1, 0, 0, 0, 0, 0, 0, 1, 97, 0, 0, 1, 0, 1]

def samplePlatform : Platform where
  hickory := {
    toVec m :=
      if m = { sampleResponse with id := 0 } then some sampleWire
      else if m = sampleFailure then some sampleFailureWire
      else none
    read bytes :=
      if bytes = sampleWire then some ({ sampleResponse with id := 0 }, [])
      else if bytes = sampleFailureWire then some (sampleFailure, [])
      else none
    nameBytes n := if n = ⟨[[97]], true⟩ then some [1, 97, 0] else none
    nameRead bytes := if bytes = [1, 97, 0] then some ⟨[[97]], true⟩ else none
    rdataBytes d := if d = .other .A [1, 2, 3, 4] then some [1, 2, 3, 4] else none
    readHeader _ := none
    skipQuery _ _ := none
    skipName _ _ := none }
  sha256 bytes := [UInt8.ofNat bytes.length]
  overhead := 400

def sampleCodec : Codec where
  base64 bytes := bytes
  base64Decode text := some text
  netText _ := []
  parseNet _ := none
  headerJson _ := []
  parseHeader _ := none
  recordJson _ := []
  parseRecord _ := none

def sampleEvents : List Event :=
  [{ now := 0, op := .insert sampleQuery sampleResponse .noEcs 0 },
    { now := 5 * second, op := .lookup sampleQuery none false }]

theorem indexes_agree_sample :
    ∃ c, run (step samplePlatform sampleCodec) (Cache.new (fun _ => 7) {}) sampleEvents = some c ∧
      (∀ (i : Nat) (s : Shard), c.shards[i]? = some s → s.Wf 64) ∧
      (c.shards.map fun s => s.entries.length).sum ≤ 262144 ∧
      (c.shards.map fun s => (s.partitions false).charged + (s.partitions true).charged).sum ≤ 268435456 :=
  indexes_agree samplePlatform sampleCodec (fun _ => 7) (by decide) sampleEvents

/-- **An invalidation is exact.** In every reachable cache it removes the entries that match its filter
and keeps all others. -/
theorem invalidation_exact (P C hasher) (hvalid : config.validate = true) (events pinned name kind scope) :
    ∃ c c' removed, run (step P C) (Cache.new hasher config) events = some c ∧
      c.invalidate pinned name kind scope = some (c', removed) ∧ c'.epoch = c.epoch + 1 ∧
      ∀ i e, c'.Holds i e ↔ c.Holds i e ∧ e.cleared (filterOf name kind scope) = false := by
  obtain ⟨c, hrun, hwf, -⟩ := run_wf P C hasher hvalid events
  obtain ⟨c', removed, hc', hepoch, heach⟩ := invalidate_spec pinned name kind scope hwf
  refine ⟨c, c', removed, hrun, hc', hepoch, fun i e => ⟨?_, ?_⟩⟩
  · rintro ⟨s', hs', he⟩
    obtain ⟨s, hs, hcleared⟩ := heach.of hs'
    obtain ⟨he, hstays⟩ := (hcleared.change.mem_iff.mp he).resolve_left (by simp)
    exact ⟨⟨s, hs, he⟩, hstays⟩
  · rintro ⟨⟨s, hs, he⟩, hstays⟩
    obtain ⟨s', hs', hcleared⟩ := heach.shards i s hs
    exact ⟨s', hs', hcleared.change.mem_iff.mpr (.inr ⟨he, hstays⟩)⟩

theorem invalidation_exact_sample : ∃ c c' removed,
    run (step samplePlatform sampleCodec) (Cache.new (fun _ => 7) {}) sampleEvents = some c ∧
      c.invalidate (fun _ _ => false) none none none = some (c', removed) ∧ ∀ i e, ¬c'.Holds i e := by
  obtain ⟨c, c', removed, hrun, h, -, hexact⟩ := invalidation_exact samplePlatform sampleCodec (fun _ => 7)
    (by decide : CacheConfig.validate {} = true) sampleEvents (fun _ _ => false) none none none
  refine ⟨c, c', removed, hrun, h, fun i e hheld => ?_⟩
  cases ((hexact i e).mp hheld).2

end Parins.Cache
