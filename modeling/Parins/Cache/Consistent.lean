/-
Which entries of one key can be resident together. An answer supersedes whatever
overlaps it, and a failure whatever failure does, so entries that overlap are a
cached failure beside an answer that is no longer fresh. A lookup therefore never
has two candidates.
-/
import Parins.Cache.Reachable

namespace Parins.Cache
open Net Lib

variable {P : Platform} {C : Codec} {config : CacheConfig} {c c' : Cache} {s s' : Shard} {e x a b : Entry}
  {now : Nat}

/-- A cached failure beside an answer that is no longer fresh. -/
structure Beside (now : Nat) (failure answer : Entry) : Prop where
  failed : failure.failure.isSome = true
  answered : answer.failure = none
  stale : answer.fresh now = false

variable {t' t : Nat}

theorem Entry.fresh_of_le (h : t ≤ t') (hfresh : e.fresh t' = true) : e.fresh t = true := by
  have hlt : t' - e.inserted < e.lifetime := of_decide_eq_true hfresh
  exact decide_eq_true (show t - e.inserted < e.lifetime by omega)

theorem Beside.later (h : Beside t a b) (hle : t ≤ t') : Beside t' a b where
  failed := h.failed
  answered := h.answered
  stale := by
    by_contra hfresh
    have := Entry.fresh_of_le hle (Bool.not_eq_false _ ▸ hfresh)
    rw [h.stale] at this
    cases this

/-! ## Each step keeps it -/

section Coexist

variable {R : Entry → Entry → Prop}

/-- Entries of one key overlap only as `R` allows. -/
def Shard.Coexist (R : Entry → Entry → Prop) (s : Shard) : Prop :=
  ∀ a ∈ s.entries, ∀ b ∈ s.entries, a ≠ b → a.key = b.key → a.scope.overlaps b.scope = true → R a b ∨ R b a

def Coexist (R : Entry → Entry → Prop) (c : Cache) : Prop := ∀ (i : Nat) (s : Shard), c.shards[i]? = some s → s.Coexist R

theorem Coexist.imp {R' : Entry → Entry → Prop} (h : c.Coexist R) (hR : ∀ a b, R a b → R' a b) : c.Coexist R' :=
  fun i s hs a ha b hb hne hk ho => (h i s hs a ha b hb hne hk ho).imp (hR a b) (hR b a)

theorem new_coexist (hasher config) : (Cache.new hasher config).Coexist R := by
  intro i s hs a ha
  exact absurd ⟨s, hs, ha⟩ (new_holds hasher config i a)

variable {gone : Entry → Bool} {new : Option Entry}

/-- A change keeps it when the new entry overlaps only what it may. -/
theorem Shard.Change.coexist (h : s.Change s' gone new)
    (hs : s.Coexist R) (hnew : ∀ e, new = some e → ∀ x ∈ s.entries, gone x = false → x.key = e.key →
      x.scope.overlaps e.scope = true → R e x) : s'.Coexist R := by
  intro a ha b hb hne hk ho
  rcases h.mem_iff.mp ha with hna | ⟨ha, hga⟩
  · rcases h.mem_iff.mp hb with hnb | ⟨hb, hgb⟩
    · exact absurd (Option.some.inj (hna.symm.trans hnb)) hne
    · exact .inl (hnew a hna b hb hgb hk.symm (Scope.overlaps_comm a.scope b.scope ▸ ho))
  · rcases h.mem_iff.mp hb with hnb | ⟨hb, _⟩
    · exact .inr (hnew b hnb a ha hga hk ho)
    · exact hs a ha b hb hne hk ho

theorem Shard.Change.coexist_none (h : s.Change s' gone none) (hs : s.Coexist R) : s'.Coexist R :=
  h.coexist hs fun _ h => by cases h

theorem Shard.Change.coexist_answer (h : s.Change s' gone new)
    (hs : s.Coexist R) (hnew : ∀ e, new = some e → s.Supersedes e.key e.scope gone) : s'.Coexist R := by
  refine h.coexist hs fun e he x hx hg hk ho => ?_
  rw [hnew e he x hx hk ho] at hg
  cases hg

variable {query : SingleQuery} {d : StoreDecision} {scope : Scope} {epoch : Nat}

theorem Admits.coexist {response origin} (h : c.Admits P c' query response scope now epoch origin)
    (hc : c.Coexist R) : c'.Coexist R := by
  cases h with
  | refused heach => exact heach.keeps hc fun i s s' hsame => hsame.alike.change.coexist_none
  | @answered key _ _ _ heach =>
    refine heach.keeps_only hc fun s s' hans hs => ?_
    obtain ⟨gone, new, hans⟩ := hans
    refine hans.change.coexist_answer hs fun e he => ?_
    obtain ⟨answer, _, rfl⟩ := hans.entry e he
    intro x hx hk
    exact hans.supersedes x hx (hk.trans (classified_key c.config (c.offer P query response scope origin key) now s))
  | restored _ _ _ heach =>
    refine heach.keeps_only hc fun s s' hres hs => ?_
    obtain ⟨new, hch, _, hnew⟩ := hres.change
    refine hch.coexist_answer hs fun e he => ?_
    obtain ⟨hsup, answer, _, rfl⟩ := hnew e he
    exact hsup

theorem Fails.coexist
    (h : c.Fails P c' query scope now epoch) (hc : c.Coexist R) (hR : ∀ a b, Beside now a b → R a b) :
    c'.Coexist R := by
  cases h with
  | refused heach => exact heach.keeps hc fun i s s' hsame => hsame.alike.change.coexist_none
  | offered _ _ _ heach =>
    refine heach.keeps_only hc fun s s' hfailed hs => ?_
    obtain ⟨gone, new, hfailed⟩ := hfailed
    refine hfailed.change.coexist hs fun e he x hx hg hk ho => ?_
    have hstays := hfailed.stays (by rw [he]; rfl) x hx
    obtain rfl := hfailed.entry e he
    obtain ⟨hnone, hstale⟩ := hstays hk ho hg
    exact hR _ _ ⟨rfl, hnone, hstale⟩

theorem Restoration.coexist {call bytes outcome}
    (h : Restoration P C call bytes c c' outcome) (hwf : c.Wf) : c.Coexist R → c'.Coexist R := by
  refine h.path (R := fun c c' => c.Coexist R → c'.Coexist R) hwf (fun _ => id) (fun h1 h2 hc => h2 (h1 hc))
    (fun n hc => (raiseClocks_each c n).keeps hc fun i s s' h hs => h ▸ (alike_raised s n).change.coexist_none hs)
    (fun hwf hadmits => (admits_of hwf hadmits).2.coexist) fun hwf hunload hc => ?_
  obtain ⟨c2, h2, _, heach⟩ := unload_spec _ _ hwf
  cases hunload.symm.trans h2
  exact heach.keeps hc fun i s s' h => h.2.change.coexist_none

theorem Stepped.coexist {ev : Event} (h : Stepped P C c ev c') (hwf : c.Wf) (hc : c.Coexist R)
    (hR : ∀ a b, Beside ev.now a b → R a b) : c'.Coexist R := by
  cases h with
  | loses _ heach =>
    refine heach.keeps hc fun i s s' h => ?_
    obtain ⟨_, gone, hch, _⟩ := h
    exact hch.coexist_none
  | admits _ _ hadmits => exact hadmits.coexist hc
  | fails _ _ hfails => exact hfails.coexist hc hR
  | cleared _ _ heach => exact heach.keeps hc fun i s s' h => h.change.coexist_none
  | restored _ hres => exact hres.coexist hwf hc

end Coexist

/-! ## Every run -/

variable {events : List Event}

theorem run_coexist {hasher} (hvalid : config.validate = true)
    (hordered : Ordered Event.now events) (hrun : run (step P C) (Cache.new hasher config) events = some c)
    (hnow : ∀ ev ∈ events, ev.now ≤ now) : c.Wf ∧ c.Coexist (Beside now) := by
  refine run_timed Event.now (I := fun t c => c.Wf ∧ c.Coexist (Beside t))
    ⟨new_wf hasher (validate_variants hvalid), new_coexist hasher config⟩
    (fun t t' c hle h => ⟨h.1, h.2.imp fun _ _ h => h.later hle⟩) (fun c ev c' h hstep => ?_) hordered hrun hnow
  have hstepped := step_cases h.1 hstep
  exact ⟨hstepped.wf h.1, hstepped.coexist h.1 h.2 fun _ _ => id⟩

def FailureBeside (failure answer : Entry) : Prop := failure.failure.isSome = true ∧ answer.failure = none

/-- Whatever the clock does, no two answers of a key overlap. -/
theorem run_answers_apart {c0 : Cache} (hwf : c0.Wf) (hc : c0.Coexist FailureBeside)
    (hrun : run (step P C) c0 events = some c) : c.Wf ∧ c.Coexist FailureBeside :=
  (run_sustains hwf hrun hc fun _ hwf _ hstep hc =>
    (step_cases hwf hstep).coexist hwf hc fun _ _ h => ⟨h.failed, h.answered⟩).imp_right And.right

variable {outgoing : Option ClientSubnet} {allowStale : Bool} {maxVariants : Nat} {key : Key}

theorem candidates_overlap (hwf : s.Wf maxVariants) (ha : a ∈ s.candidates key outgoing now allowStale)
    (hb : b ∈ s.candidates key outgoing now allowStale) : a.key = b.key ∧ a.scope.overlaps b.scope = true := by
  obtain ⟨⟨_, hka⟩, hua⟩ := hwf.mem_candidates.mp ha
  obtain ⟨⟨_, hkb⟩, hub⟩ := hwf.mem_candidates.mp hb
  simp only [Entry.usable, Bool.and_eq_true] at hua hub
  exact ⟨hka.trans hkb.symm, Scope.overlap_of_matches hua.1.1.1 hub.1.1.1⟩

theorem candidates_not_beside (hwf : s.Wf maxVariants) (ha : a ∈ s.candidates key outgoing now allowStale)
    (hb : b ∈ s.candidates key outgoing now allowStale) : ¬Beside now a b := by
  intro h
  have hua := (hwf.mem_candidates.mp ha).2
  have hub := (hwf.mem_candidates.mp hb).2
  simp only [Entry.usable, Bool.and_eq_true, Bool.or_eq_true, Bool.not_eq_true'] at hua hub
  cases allowStale with
  | false => simp [h.stale] at hub
  | true => simp [h.failed] at hua

theorem Shard.Coexist.candidates {R} (hwf : s.Wf maxVariants) (hs : s.Coexist R)
    (hR : ∀ a ∈ s.candidates key outgoing now allowStale, ∀ b ∈ s.candidates key outgoing now allowStale, ¬R a b) :
    (s.candidates key outgoing now allowStale).length ≤ 1 := by
  have heq : ∀ a ∈ s.candidates key outgoing now allowStale, ∀ b ∈ s.candidates key outgoing now allowStale, a = b := by
    intro a ha b hb
    by_contra hne
    obtain ⟨hk, ho⟩ := candidates_overlap hwf ha hb
    have hea := (hwf.mem_candidates.mp ha).1.1
    have heb := (hwf.mem_candidates.mp hb).1.1
    rcases hs a hea b heb hne hk ho with h | h
    · exact hR a ha b hb h
    · exact hR b hb a ha h
  -- The ids of a bucket are distinct, so equal candidates are one.
  have hnodup : (s.candidates key outgoing now allowStale).Nodup := by
    refine List.Nodup.sublist List.filter_sublist ?_
    cases hb : s.buckets key with
    | none => exact List.nodup_nil
    | some ids => exact List.Nodup.of_map _ (hwf.variants key ids hb).2
  match hl : s.candidates key outgoing now allowStale with
  | [] => exact Nat.zero_le _
  | [_] => exact le_rfl
  | a :: b :: rest =>
    rw [hl] at heq hnodup
    have := heq a List.mem_cons_self b (List.mem_cons_of_mem _ List.mem_cons_self)
    simp [this] at hnodup

/-- **Overlapping entries are a failure beside a stale answer.** After every run with times that
never go back, so are any two entries of one key whose scopes overlap. Scopes that match one
outgoing ECS value overlap, so a lookup never has two candidates: fresh ones, or answers when
stale data is allowed. -/
theorem overlapping_entries {hasher : Key → Nat} {events : List Event} (hvalid : config.validate = true)
    (hordered : Ordered Event.now events) (hrun : run (step P C) (Cache.new hasher config) events = some c)
    (hnow : ∀ ev ∈ events, ev.now ≤ now) :
    (∀ i j a b, c.Holds i a → c.Holds j b → (i, a) ≠ (j, b) → a.key = b.key → a.scope.overlaps b.scope = true →
      Beside now a b ∨ Beside now b a) ∧
    (∀ (key : Key) (outgoing : Option ClientSubnet) (s : Shard), c.shards[c.shardOf key]? = some s →
      (s.candidates key outgoing now false).length ≤ 1 ∧ (s.candidates key outgoing now true).length ≤ 1) ∧
    ∀ (m n : Scope) (outgoing : Option ClientSubnet), m.matches outgoing = true → n.matches outgoing = true →
      m.overlaps n = true := by
  obtain ⟨hwf, hc⟩ := run_coexist hvalid hordered hrun hnow
  refine ⟨fun i j a b ha hb hne hk ho => ?_, fun key outgoing s hs => ?_, fun m n outgoing => Scope.overlap_of_matches⟩
  · -- A key has one shard.
    obtain rfl : i = j := by rw [← hwf.homed i a ha, ← hwf.homed j b hb, hk]
    obtain ⟨s, hs, ha⟩ := ha
    obtain ⟨s', hs', hb⟩ := hb
    cases hs.symm.trans hs'
    exact hc i s hs a ha b hb (fun h => hne (by rw [h])) hk ho
  · have hone : ∀ allowStale, (s.candidates key outgoing now allowStale).length ≤ 1 := fun _ =>
      (hc _ s hs).candidates (hwf.shards _ s hs) fun _ ha _ hb => candidates_not_beside (hwf.shards _ s hs) ha hb
    exact ⟨hone false, hone true⟩

/-- An answer that has gone stale, and a failure after it. -/
def staleEvents : List Event :=
  [{ now := 0, op := .insert sampleQuery sampleResponse .noEcs 0 },
    { now := 70 * second, op := .insertFailure sampleQuery sampleFailure .noEcs 0 .staleFallback }]

def staleConfig : CacheConfig := { shards := 1, stale := { enabled := true } }

/-- Both are resident, and only the failure is a fresh candidate. -/
theorem overlapping_entries_stale : ∃ c s,
    run (step samplePlatform sampleCodec) (Cache.new (fun _ => 7) staleConfig) staleEvents = some c ∧
      c.shards = [s] ∧ s.entries.length = 2 ∧
      ∀ a b, c.Holds 0 a → c.Holds 0 b → (0, a) ≠ (0, b) → a.key = b.key → a.scope.overlaps b.scope = true →
        Beside (80 * second) a b ∨ Beside (80 * second) b a := by
  have hshape : (run (step samplePlatform sampleCodec) (Cache.new (fun _ => 7) staleConfig) staleEvents).map
      (fun c => c.shards.map fun s => s.entries.length) = some [2] := by decide +kernel
  obtain ⟨c, hrun, hlen⟩ := Option.map_eq_some_iff.mp hshape
  obtain ⟨s, hs, hlen⟩ := List.map_eq_singleton_iff.mp hlen
  refine ⟨c, s, hrun, hs, hlen, ?_⟩
  exact (overlapping_entries (by decide) (by simp [Ordered, staleEvents, second]) hrun
    (by simp [staleEvents, second])).1 0 0

end Parins.Cache
