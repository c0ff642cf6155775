/-
Entries and records agree. While an answer is stored for a whole family, the
record that allowed it is there only as `Shared`: whatever moves the record out of
that phase supersedes the entry under the same lock, and an invalidation takes
both or neither.
-/
import Parins.Cache.Consistent

namespace Parins.Cache
open Net Lib

variable {scope : Scope} {ipv4 : Bool}

namespace Sharing

def Phase.IsShared (phase : Phase) : Prop := ∃ fingerprint since, phase = .shared fingerprint since

/-! ## What an observation changes -/

variable {t : Table} {a : Answer} {now : Nat} {config : EcsSharingConfig} {cls : Class} {phase : Phase}

/-- An exact-source answer keeps its scope, or is learned because its record is shared now. -/
theorem Phase.advance_scope (phase : Phase) (a : Answer) (network : IpNet) (now config) :
    (phase.advance a network now config).2.scope = a.scope ∨
      (phase.advance a network now config).2.scope = .learned network.addr.isIpv4 ∧
        (phase.advance a network now config).1.IsShared := by
  have hgather : ∀ observed samples, (gather observed samples a network now config).2.scope = a.scope ∨
      (gather observed samples a network now config).2.scope = .learned network.addr.isIpv4 ∧
        (gather observed samples a network now config).1.IsShared := by
    intro observed samples
    unfold gather
    split
    · split <;> exact .inl rfl
    · split
      · exact .inl rfl
      · split
        · exact .inl rfl
        · dsimp only
          split
          · exact .inr ⟨rfl, _, _, rfl⟩
          · exact .inl rfl
  unfold advance
  split
  · split <;> exact .inl rfl
  · split
    · exact .inl rfl
    · split
      · exact .inr ⟨rfl, _, _, rfl⟩
      · exact .inl rfl
  · exact hgather _ _

/-- What `observe` does to the records and to the scope. A record it adds or changes is of a class
whose learned entries the returned scope overlaps, and a learned scope comes with a shared record. -/
structure Observed (t : Table) (a : Answer) (t' : Table) (scope : Scope) : Prop where
  records : ∀ cls phase, (cls, phase) ∈ t'.records.items → (cls, phase) ∈ t.records.items ∨
    cls.key = a.key ∧ scope.overlaps (.learned cls.ipv4) = true
  scope : scope = a.scope ∨ ∃ ipv4, scope = .learned ipv4 ∧
    ∀ phase, (⟨a.key, ipv4⟩, phase) ∈ t'.records.items → phase.IsShared

theorem observed_unchanged (t) (a : Answer) : Observed t a t a.scope :=
  ⟨fun _ _ h => .inl h, .inl rfl⟩

theorem observed_put {phase : Phase} {t' : Table}
    (hitems : ∀ p ∈ t'.records.items, p = (⟨a.key, ipv4⟩, phase) ∨ p ∈ t.records.items ∧ p.1 ≠ ⟨a.key, ipv4⟩)
    (hoverlaps : scope.overlaps (.learned ipv4) = true)
    (hscope : scope = a.scope ∨ scope = .learned ipv4 ∧ phase.IsShared) : Observed t a t' scope := by
  refine ⟨fun cls phase' h => ?_, hscope.imp_right fun h => ⟨ipv4, h.1, fun phase' h' => ?_⟩⟩
  · rcases hitems _ h with heq | ⟨h, _⟩
    · obtain ⟨rfl, rfl⟩ := Prod.mk.inj heq
      exact .inr ⟨rfl, hoverlaps⟩
    · exact .inl h
  · rcases hitems _ h' with heq | ⟨_, hne⟩
    · obtain ⟨_, rfl⟩ := Prod.mk.inj heq
      exact h.2
    · exact absurd rfl hne

theorem observe_spec (t : Table) (a now config) :
    Observed t a (t.observe a now config).1 (t.observe a now config).2.scope := by
  unfold Table.observe
  split
  · next network hscope =>
    have hexact : a.scope.overlaps (.learned network.addr.isIpv4) = true := by simp [hscope, Scope.overlaps]
    dsimp only
    split
    · next phase hpeek =>
      have hadv := phase.advance_scope a network now config
      refine observed_put (fun p hp => Recency.mem_put.mp hp) ?_ hadv
      rcases hadv with h | ⟨h, _⟩
      · rw [h]
        exact hexact
      · rw [h]
        exact Scope.overlaps_self _
    · split
      · exact observed_unchanged t a
      · exact observed_put (fun p hp => Recency.mem_put.mp (Recency.mem_of_mem_truncate hp)) hexact (.inl rfl)
  · next network hscope =>
    have hnetwork : a.scope.overlaps (.learned network.addr.isIpv4) = true := by simp [hscope, Scope.overlaps]
    split
    · dsimp only
      split
      · exact observed_unchanged t a
      · split
        · exact ⟨fun _ _ h => .inl (Recency.mem_promote.mp h), .inl rfl⟩
        · exact observed_put (fun p hp => Recency.mem_put.mp hp) hnetwork (.inl rfl)
    · exact observed_unchanged t a
  · exact observed_unchanged t a

/-! ## What an invalidation forgets -/

def Filter.forgets (f : Filter) (cls : Class) : Bool :=
  f.matchesKey cls.key && match families f.scope with
    | .all => true
    | .one ipv4 => cls.ipv4 == ipv4
    | .none => false

theorem mem_forget (t : Table) (p) (item : Class × Phase) :
    item ∈ (Table.invalidate.forget t p).records.items ↔ item ∈ t.records.items ∧ p item.1 = false := by
  simp only [Table.invalidate.forget, Recency.mem_foldl_pop, List.mem_filter, List.mem_map, not_and, Bool.not_eq_true]
  constructor
  · rintro ⟨hm, hp⟩
    exact ⟨hm, hp ⟨item, hm, rfl⟩⟩
  · rintro ⟨hm, hp⟩
    exact ⟨hm, fun _ => hp⟩

theorem mem_invalidate (t : Table) (f : Filter) (item : Class × Phase) :
    item ∈ (t.invalidate f).records.items ↔ item ∈ t.records.items ∧ f.forgets item.1 = false := by
  unfold Table.invalidate Filter.forgets
  cases hf : families f.scope with
  | none => simp
  | one ipv4 => simp only [mem_forget]
  | all =>
    dsimp only
    split
    · next hboth =>
      have hmatches : f.matchesKey item.1.key = true := by
        simp [Filter.matchesKey, Option.isNone_iff_eq_none.mp hboth.1, Option.isNone_iff_eq_none.mp hboth.2]
      simp [Recency.empty, hmatches]
    · simp [mem_forget]

end Sharing

/-! ## Learned entries and their records -/

variable {P : Platform} {C : Codec} {config : CacheConfig} {c c' : Cache} {s s' : Shard} {e x : Entry} {now : Nat}

theorem cleared_learned (f : Sharing.Filter) (h : e.scope = .learned ipv4) :
    e.cleared f = f.forgets ⟨e.key, ipv4⟩ := by
  unfold Entry.cleared Sharing.Filter.forgets
  congr 1
  obtain ⟨name, kind, scope⟩ := f
  cases scope with
  | none => rfl
  | some scope =>
    have hfamily : ∀ n : IpNet, (decide (0 < n.prefixLen) && n.addr.isIpv4 == ipv4) =
        (match if 0 < n.prefixLen then Sharing.Families.one n.addr.isIpv4 else .none with
          | .all => true
          | .one ipv4' => ipv4 == ipv4'
          | .none => false) := by
      intro n
      by_cases hp : 0 < n.prefixLen
      · simp [hp, BEq.comm]
      · simp [hp]
    cases scope with
    | network n =>
      have hne : (Scope.learned ipv4 == .network n) = false := by simp
      simpa [Sharing.families, Scope.learnedServes, h, hne] using hfamily n
    | exactSource n =>
      have hne : (Scope.learned ipv4 == .exactSource n) = false := by simp
      simpa [Sharing.families, Scope.learnedServes, h, hne] using hfamily n
    | noEcs | privacy ipv4' | learned ipv4' => simp [Sharing.families, Scope.learnedServes, h]

def Shard.Shares (s : Shard) : Prop :=
  ∀ e ∈ s.entries, ∀ ipv4, e.scope = .learned ipv4 → ∀ phase,
    ((⟨e.key, ipv4⟩, phase) : Sharing.Class × Sharing.Phase) ∈ s.sharing.records.items → phase.IsShared

def Shares (c : Cache) : Prop := ∀ (i : Nat) (s : Shard), c.shards[i]? = some s → s.Shares

/-- The operation brings no learned scope of its own and restores nothing: what the resolver does. -/
def Op.Unlearned : Op → Prop
  | .insert _ _ scope _ | .insertRefresh _ _ scope _ | .insertFailure _ _ scope _ _ => scope.isLearned = false
  | .admitRestored .. | .restoreSnapshot .. => False
  | _ => True

variable {gone : Entry → Bool}

theorem Shard.Change.shares (h : s.Change s' gone none) (hsharing : s'.sharing = s.sharing)
    (hs : s.Shares) : s'.Shares := by
  intro e he ipv4 hscope phase hm
  rw [hsharing] at hm
  exact hs e ((h.mem_iff.mp he).resolve_left (by simp)).1 ipv4 hscope phase hm

variable {d : StoreDecision} {new : Option Entry}

theorem Shard.Answered.shares {o : Offer}
    (h : s.Answered P config o now gone new s') (henabled : config.ecsSharing.enabled = true)
    (hscope : o.scope.isLearned = false) (hs : s.Shares) : s'.Shares := by
  have hclass : s.classified config o now = ((s.sharing.observe o.told now config.ecsSharing).1,
      { o with scope := (s.sharing.observe o.told now config.ecsSharing).2.scope }) := by
    simp [Shard.classified, henabled]
  have hobs := Sharing.observe_spec s.sharing o.told now config.ecsSharing
  have hsharing := h.sharing
  have hsup := h.supersedes
  rw [hclass] at hsharing hsup
  intro e he ipv4 hlearned phase hm
  rw [hsharing] at hm
  rcases h.change.mem_iff.mp he with hnew | ⟨he, hstays⟩
  · obtain ⟨answer, _, rfl⟩ := h.entry e hnew
    rw [hclass] at hlearned hm
    rcases hobs.scope with hsame | ⟨ipv4', heq, hshared⟩
    · have : (s.sharing.observe o.told now config.ecsSharing).2.scope = .learned ipv4 := hlearned
      rw [hsame] at this
      have hcontra : o.scope = .learned ipv4 := this
      rw [hcontra] at hscope
      cases hscope
    · have hl : (s.sharing.observe o.told now config.ecsSharing).2.scope = .learned ipv4 := hlearned
      rw [heq] at hl
      cases hl
      exact hshared phase hm
  · rcases hobs.records _ _ hm with hm | ⟨hk, ho⟩
    · exact hs e he ipv4 hlearned phase hm
    · -- The record was written for a scope that overlaps the entry, so the entry is gone.
      rw [hsup e he hk (by rw [hlearned, Scope.overlaps_comm]; exact ho)] at hstays
      cases hstays

theorem Shard.Failed.shares {f : FailureOffer}
    (h : s.Failed P config now f gone new s') (hscope : f.scope.isLearned = false) (hs : s.Shares) : s'.Shares := by
  intro e he ipv4 hlearned phase hm
  rw [h.sharing] at hm
  rcases h.change.mem_iff.mp he with hnew | ⟨he, _⟩
  · obtain rfl := h.entry e hnew
    have hcontra : f.scope = .learned ipv4 := hlearned
    rw [hcontra] at hscope
    cases hscope
  · exact hs e he ipv4 hlearned phase hm

theorem Shard.Cleared.shares {maxVariants f} (h : s.Cleared maxVariants f s') (hs : s.Shares) : s'.Shares := by
  intro e he ipv4 hlearned phase hm
  rw [h.sharing, Sharing.mem_invalidate] at hm
  exact hs e ((h.change.mem_iff.mp he).resolve_left (by simp)).1 ipv4 hlearned phase hm.1

variable {ev : Event}

theorem Stepped.shares (h : Stepped P C c ev c') (hop : ev.op.Unlearned)
    (henabled : c.config.ecsSharing.enabled = true) (hc : c.Shares) : c'.Shares := by
  have hsame : c.Each c' (fun _ s s' => s.SameButStats s') → c'.Shares := fun heach =>
    heach.keeps hc fun i s s' hsame => hsame.alike.change.shares hsame.sharing
  cases h with
  | loses _ heach =>
    refine heach.keeps hc fun i s s' h => ?_
    obtain ⟨_, gone, hch, hsharing, _⟩ := h
    exact hch.shares hsharing
  | @admits query response scope epoch origin hoffers _ hadmits =>
    have hscope : origin.restoring = false ∧ scope.isLearned = false := by
      generalize ev.op = op at hoffers hop
      cases hoffers with
      | insert | insertRefresh => exact ⟨rfl, hop⟩
      | admitRestored => exact hop.elim
    cases hadmits with
    | refused heach => exact hsame heach
    | answered _ _ _ heach =>
      refine heach.keeps_only hc fun s s' hans hs => ?_
      obtain ⟨gone, new, hans⟩ := hans
      exact hans.shares henabled hscope.2 hs
    | restored _ _ horigin _ =>
      rw [horigin] at hscope
      cases hscope.1
  | fails hfail _ hfails =>
    rw [hfail] at hop
    cases hfails with
    | refused heach => exact hsame heach
    | offered _ hscope _ heach =>
      refine heach.keeps_only hc fun s s' hfailed hs => ?_
      obtain ⟨gone, new, hfailed⟩ := hfailed
      exact hfailed.shares (hscope ▸ hop) hs
  | cleared _ _ heach => exact heach.keeps hc fun i s s' h => h.shares
  | restored hrestore _ =>
    rw [hrestore] at hop
    exact hop.elim

/-! ## Every run -/

/-- The operation restores a snapshot or one of its records. -/
def Op.Restoring : Op → Prop
  | .admitRestored .. | .restoreSnapshot .. => True
  | _ => False

def Untaught (c : Cache) : Prop := ∀ (i : Nat) (s : Shard), c.shards[i]? = some s → s.sharing.records.items = []

theorem Untaught.shares (h : c.Untaught) : c.Shares := by
  intro i s hs e _ ipv4 _ phase hm
  rw [h i s hs] at hm
  cases hm

theorem Admits.untaught {query response epoch r}
    (h : c.Admits P c' query response scope now epoch (.restore r)) (hc : c.Untaught) : c'.Untaught := by
  cases h with
  | refused heach => exact heach.keeps hc fun i s s' hsame hs => hsame.sharing ▸ hs
  | answered _ _ horigin _ => cases horigin
  | restored _ _ _ heach =>
    refine heach.keeps_only hc fun s s' hr hs => ?_
    obtain ⟨_, _, hsharing, _⟩ := hr.change
    exact hsharing ▸ hs

theorem Restoration.untaught {call bytes outcome}
    (h : Restoration P C call bytes c c' outcome) (hwf : c.Wf) : c.Untaught → c'.Untaught := by
  refine h.path (R := fun c c' => c.Untaught → c'.Untaught) hwf (fun _ => id) (fun h1 h2 hc => h2 (h1 hc))
    (fun n hc => (raiseClocks_each c n).keeps hc fun i s s' h hs => h ▸ hs)
    (fun hwf hadmits => (admits_of hwf hadmits).2.untaught) fun hwf hunload hc => ?_
  obtain ⟨c2, h2, _, heach⟩ := unload_spec _ _ hwf
  cases hunload.symm.trans h2
  exact heach.keeps hc fun i s s' h hs => h.2.sharing ▸ hs

theorem Stepped.untaught (h : Stepped P C c ev c') (hwf : c.Wf) (hop : ev.op.Restoring)
    (hc : c.Untaught) : c'.Untaught := by
  cases h with
  | loses _ heach =>
    refine heach.keeps hc fun i s s' h hs => ?_
    obtain ⟨_, _, _, hsharing, _⟩ := h
    exact hsharing ▸ hs
  | admits hoffers _ hadmits =>
    generalize ev.op = op at hoffers hop
    cases hoffers with
    | insert | insertRefresh => exact hop.elim
    | admitRestored => exact hadmits.untaught hc
  | fails hfail _ _ =>
    rw [hfail] at hop
    exact hop.elim
  | cleared hclear _ _ =>
    rw [hclear] at hop
    exact hop.elim
  | restored _ hres => exact hres.untaught hwf hc

theorem new_untaught (hasher) : (Cache.new hasher config).Untaught := by
  intro i s hs
  rw [new_shard hs]
  rfl

/-- After snapshots have been restored and then anything else has happened. -/
theorem run_shares {hasher first rest} (hvalid : config.validate = true)
    (henabled : config.ecsSharing.enabled = true) (hfirst : ∀ ev ∈ first, ev.op.Restoring)
    (hrest : ∀ ev ∈ rest, ev.op.Unlearned)
    (hrun : run (step P C) (Cache.new hasher config) (first ++ rest) = some c) :
    c.Wf ∧ c.Shares ∧ c.config = config := by
  rw [run_append, Option.bind_eq_some_iff] at hrun
  obtain ⟨c1, hrun1, hrun2⟩ := hrun
  obtain ⟨hwf1, hframe1, hun⟩ := run_sustains (new_wf hasher (validate_variants hvalid)) hrun1 (new_untaught hasher)
    fun hmem hwf _ hstep => (step_cases hwf hstep).untaught hwf (hfirst _ hmem)
  have hconfig : ∀ {c}, c1.Frame c → c.config = config := fun h => (hframe1.trans h).config
  obtain ⟨hwf, hframe, hshares⟩ := run_sustains hwf1 hrun2 hun.shares fun hmem hwf hframe hstep =>
    (step_cases hwf hstep).shares (hrest _ hmem) (hconfig hframe ▸ henabled)
  exact ⟨hwf, hshares, hconfig hframe⟩

def Entry.LearnedFor (e : Entry) (cls : Sharing.Class) : Prop := e.key = cls.key ∧ e.scope = .learned cls.ipv4

/-- **A learned entry's record is absent or shared.** So a step that moves a record out of `Shared`
leaves no learned entry of its class, an invalidation that forgets a record leaves none either,
and an invalidation clears the learned entries of exactly the classes it forgets. -/
theorem learned_entries {hasher : Key → Nat} {first rest : List Event} (hvalid : config.validate = true)
    (henabled : config.ecsSharing.enabled = true) (hfirst : ∀ ev ∈ first, ev.op.Restoring)
    (hrest : ∀ ev ∈ rest, ev.op.Unlearned)
    (hrun : run (step P C) (Cache.new hasher config) (first ++ rest) = some c) :
    (∀ (i : Nat) (s : Shard), c.shards[i]? = some s → ∀ e ∈ s.entries, ∀ cls, e.LearnedFor cls →
      s.sharing.records.peek cls = none ∨ ∃ fingerprint since,
        s.sharing.records.peek cls = some (.shared fingerprint since)) ∧
    (∀ ev c', ev.op.Unlearned → step P C c ev = some c' → ∀ (i : Nat) (s s' : Shard), c.shards[i]? = some s →
      c'.shards[i]? = some s' → ∀ cls phase, s.sharing.records.peek cls = some phase →
      ((∃ phase', s'.sharing.records.peek cls = some phase' ∧ ¬phase'.IsShared) ∨
        (∃ name kind scope, ev.op = .invalidate name kind scope) ∧ s'.sharing.records.peek cls = none) →
      ∀ e ∈ s'.entries, ¬e.LearnedFor cls) ∧
    ∀ (t : Sharing.Table) (f : Sharing.Filter) (e : Entry) (cls : Sharing.Class) (phase : Sharing.Phase),
      e.LearnedFor cls → t.records.peek cls = some phase →
      ((t.invalidate f).records.peek cls = none ↔ e.cleared f = true) := by
  obtain ⟨hwf, hshares, hconfig⟩ := run_shares hvalid henabled hfirst hrest hrun
  have hforgets : ∀ (t : Sharing.Table) (f : Sharing.Filter) (cls : Sharing.Class) (phase : Sharing.Phase),
      t.records.peek cls = some phase → ((t.invalidate f).records.peek cls = none ↔ f.forgets cls = true) := by
    intro t f cls phase hpeek
    rw [Recency.peek_eq_none_iff]
    simp only [Sharing.mem_invalidate, not_and, Bool.not_eq_false]
    exact ⟨fun h => h phase (Recency.mem_of_peek hpeek), fun h _ _ => h⟩
  refine ⟨fun i s hs e he cls hcls => ?_, fun ev c' hop hstep i s s' hs hs' cls phase hpeek hmoved e he hcls => ?_,
    fun t f e cls phase hcls hpeek => ?_⟩
  · obtain ⟨key, ipv4⟩ := cls
    obtain ⟨rfl, hscope⟩ := hcls
    cases hpeek : s.sharing.records.peek ⟨e.key, ipv4⟩ with
    | none => exact .inl rfl
    | some phase =>
      obtain ⟨fingerprint, since, rfl⟩ := hshares i s hs e he ipv4 hscope phase (Recency.mem_of_peek hpeek)
      exact .inr ⟨fingerprint, since, rfl⟩
  · have hstepped := step_cases hwf hstep
    obtain ⟨key, ipv4⟩ := cls
    obtain ⟨rfl, hscope⟩ := hcls
    rcases hmoved with ⟨phase', hpeek', hnot⟩ | ⟨⟨name, kind, scope, hclear⟩, hnone⟩
    · have hafter := hstepped.shares hop (hconfig ▸ henabled) hshares
      exact hnot (hafter i s' hs' e he ipv4 hscope phase' (Recency.mem_of_peek hpeek'))
    · obtain ⟨c'', removed, h'', _, heach⟩ := invalidate_spec ev.pinned name kind scope hwf
      have heq : c'' = c' := by
        simp only [step, hclear, h'', Option.map, Option.some.injEq] at hstep
        exact hstep
      subst heq
      obtain ⟨s0, hs0, hcleared⟩ := heach.of hs'
      cases hs.symm.trans hs0
      rw [hcleared.sharing, hforgets _ _ _ phase hpeek, ← cleared_learned _ hscope] at hnone
      have hstays := ((hcleared.change.mem_iff.mp he).resolve_left (by simp)).2
      rw [hnone] at hstays
      cases hstays
  · obtain ⟨key, ipv4⟩ := cls
    obtain ⟨rfl, hscope⟩ := hcls
    rw [hforgets t f _ phase hpeek, cleared_learned f hscope]

theorem sharedPrefix_le : 24 ≤ width true := by decide

/-- The same answer for two networks, without ECS. -/
def sharedEvents : List Event :=
  [{ now := 0, op := .insert sampleQuery sampleResponse (.exactSource ⟨.ofV4 10 0 0 0, 24, sharedPrefix_le⟩) 0 },
    { now := second, op := .insert sampleQuery sampleResponse (.exactSource ⟨.ofV4 11 0 0 0, 24, sharedPrefix_le⟩) 0 }]

def sharedConfig : CacheConfig := { shards := 1, ecsSharing := { enabled := true, minNetworks := 2 } }

/-- It is stored once, for the family, and its record is shared. -/
theorem learned_entries_two_networks : ∃ c s e,
    run (step samplePlatform sampleCodec) (Cache.new (fun _ => 7) sharedConfig) ([] ++ sharedEvents) = some c ∧
      c.shards = [s] ∧ s.entries = [e] ∧ e.LearnedFor ⟨e.key, true⟩ ∧
      (s.sharing.records.peek ⟨e.key, true⟩ = none ∨
        ∃ fingerprint since, s.sharing.records.peek ⟨e.key, true⟩ = some (.shared fingerprint since)) := by
  have hshape : (run (step samplePlatform sampleCodec) (Cache.new (fun _ => 7) sharedConfig) ([] ++ sharedEvents)).map
      (fun c => c.shards.map fun s => s.entries.map Entry.scope) = some [[.learned true]] := by decide +kernel
  obtain ⟨c, hrun, hscopes⟩ := Option.map_eq_some_iff.mp hshape
  obtain ⟨s, hs, hscopes⟩ := List.map_eq_singleton_iff.mp hscopes
  obtain ⟨e, he, hscope⟩ := List.map_eq_singleton_iff.mp hscopes
  refine ⟨c, s, e, hrun, hs, he, ⟨rfl, hscope⟩, ?_⟩
  exact (learned_entries (by decide) rfl (by simp) (by simp [sharedEvents, Op.Unlearned, Scope.isLearned]) hrun).1 0 s
    (by simp [hs]) e (by simp [he]) ⟨e.key, true⟩ ⟨rfl, hscope⟩

end Parins.Cache
