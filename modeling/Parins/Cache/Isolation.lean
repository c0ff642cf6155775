/-
ECS isolation. Without learned sharing an answer keeps the scope its response
implied, and a lookup only selects entries of its own key whose scope serves the
ECS it is sent with: so an answer fetched for one client network never reaches
another one the upstream did not vouch for.
-/
import Parins.Cache.Learned

namespace Parins.Cache
open Net Lib

variable {P : Platform} {C : Codec} {config : CacheConfig} {c c' : Cache} {e : Entry} {ev : Event} {i now epoch : Nat}
variable {query : SingleQuery} {response : Message} {scope : Scope} {origin : Origin}

/-- The event puts the entry into the shard. -/
def Puts (P : Platform) (C : Codec) (c : Cache) (ev : Event) (i : Nat) (e : Entry) : Prop :=
  ¬c.Holds i e ∧ ∃ c', step P C c ev = some c' ∧ c'.Holds i e

theorem Each.added {R} (h : c.Each c' R) (hbefore : ¬c.Holds i e) (hafter : c'.Holds i e) :
    ∃ s s', R i s s' ∧ e ∉ s.entries ∧ e ∈ s'.entries := by
  obtain ⟨s', hs', he⟩ := hafter
  obtain ⟨s, hs, hr⟩ := h.of hs'
  exact ⟨s, s', hr, fun hmem => hbefore ⟨s, hs, hmem⟩, he⟩

theorem Shard.Change.added {s s' : Shard} {gone new} (h : s.Change s' gone new)
    (hbefore : e ∉ s.entries) (hafter : e ∈ s'.entries) : new = some e :=
  (h.mem_iff.mp hafter).resolve_right fun hold => hbefore hold.1

/-- The entry was made of this response, under the policy of the cache. The learner may have
widened the scope it was offered with. -/
structure Entry.Made (P : Platform) (c : Cache) (query : SingleQuery) (response : Message) (scope : Scope)
    (origin : Origin) (now : Nat) (e : Entry) : Prop where
  key : Key.of query = some e.key
  allowed : (c.policy e.key query.question.name).bypass = false
  plain : rejection response = none
  widened : e.scope = scope ∨ c.config.ecsSharing.enabled = true ∧ e.scope.isLearned = true
  made : ∃ answer, (c.offer P query response scope origin e.key).prepared = .ok answer ∧
    e = (c.offer P query response e.scope origin e.key).entry P c.config answer now e.id

theorem classified_scope (config) (o : Offer) (now) (s : Shard) :
    ∃ scope, (s.classified config o now).2 = { o with scope } ∧
      (scope = o.scope ∨ config.ecsSharing.enabled = true ∧ scope.isLearned = true) := by
  unfold Shard.classified
  split
  · next hshared =>
    refine ⟨_, rfl, (Sharing.observe_spec s.sharing o.told now config.ecsSharing).scope.imp_right ?_⟩
    rintro ⟨ipv4, hscope, _⟩
    rw [hscope]
    exact ⟨hshared, rfl⟩
  · exact ⟨o.scope, rfl, .inl rfl⟩

variable {pinned : Nat → Nat → Bool} {d : StoreDecision}

/-- The checks of `admit` that come before its lock. -/
theorem admit_checked (h : c.admitAnswer P pinned query response scope now epoch origin = some (c', d)) :
    c' = c ∨ rejection response = none ∧
      ∀ key, Key.of query = some key → (c.policy key query.question.name).bypass = false := by
  rcases admitAnswer_cases h with ⟨hsame, _⟩ | ⟨key, hkey, hopen, hplain, _⟩
  · exact .inl hsame
  · refine .inr ⟨hplain, fun key' hkey' => ?_⟩
    cases hkey.symm.trans hkey'
    exact hopen

/-- **An admission** makes at most the entry of its response. -/
theorem admit_made (hwf : c.Wf) (h : c.admitAnswer P pinned query response scope now epoch origin = some (c', d))
    (hbefore : ¬c.Holds i e) (hafter : c'.Holds i e) : e.Made P c query response scope origin now := by
  rcases admit_checked h with rfl | ⟨hplain, hopen⟩
  · exact absurd hafter hbefore
  have hmake : ∀ {key answer scope' id}, Key.of query = some key →
      (c.offer P query response scope origin key).prepared = .ok answer →
      scope' = scope ∨ c.config.ecsSharing.enabled = true ∧ scope'.isLearned = true →
      e = (c.offer P query response scope' origin key).entry P c.config answer now id →
      e.Made P c query response scope origin now := by
    intro key answer scope' id hkey hprepared hscope he
    have hk : e.key = key := by rw [he]; rfl
    have hs : e.scope = scope' := by rw [he]; rfl
    have hid : e.id = id := by rw [he]; rfl
    subst hk hs hid
    exact ⟨hkey, hopen _ hkey, hplain, hscope, answer, hprepared, he⟩
  cases (admits_of hwf h).2 with
  | refused heach =>
    obtain ⟨s, s', hsame, hnot, he⟩ := heach.added hbefore hafter
    cases hsame.alike.change.added hnot he
  | @answered key hkey _ _ heach =>
    obtain ⟨s, s', hr, hnot, he⟩ := heach.added hbefore hafter
    unfold Only at hr
    split at hr
    · obtain ⟨gone, new, hans⟩ := hr
      obtain ⟨answer, hprepared, heq⟩ := hans.entry e (hans.change.added hnot he)
      obtain ⟨scope', hclass, hscope⟩ := classified_scope c.config (c.offer P query response scope origin key) now s
      rw [hclass] at heq
      exact hmake hkey hprepared hscope heq
    · exact absurd (hr ▸ he) hnot
  | @restored key r hkey _ _ heach =>
    obtain ⟨s, s', hr, hnot, he⟩ := heach.added hbefore hafter
    unfold Only at hr
    split at hr
    · obtain ⟨new, hch, _, hnew⟩ := hr.change
      obtain ⟨_, answer, hprepared, heq⟩ := hnew e (hch.added hnot he)
      exact hmake hkey hprepared (.inl rfl) heq
    · exact absurd (hr ▸ he) hnot

/-- **Where an answer comes from.** An entry that an offered answer put there was made of it. -/
theorem Puts.made (h : Puts P C c ev i e) (hwf : c.Wf)
    (hoffers : ev.op.Offers query response scope epoch origin) : e.Made P c query response scope origin ev.now := by
  obtain ⟨hbefore, c', hstep, hafter⟩ := h
  obtain ⟨now, pinned, op⟩ := ev
  cases hoffers with
  | insert =>
    simp only [step, insertDecisionIfEpoch, Option.map_map, Option.map_eq_some_iff, Prod.exists] at hstep
    obtain ⟨c1, d, h1, rfl⟩ := hstep
    exact admit_made hwf h1 hbefore hafter
  | insertRefresh =>
    simp only [step, insertRefreshIfEpoch, Option.map_map, Option.map_eq_some_iff, Prod.exists] at hstep
    obtain ⟨c1, d, h1, rfl⟩ := hstep
    exact admit_made hwf h1 hbefore hafter
  | admitRestored =>
    simp only [step, Option.map_eq_some_iff, Prod.exists] at hstep
    obtain ⟨c1, d, h1, rfl⟩ := hstep
    exact admit_made hwf h1 hbefore hafter

theorem Puts.own_scope (h : Puts P C c ev i e) (hwf : c.Wf) (hoffers : ev.op.Offers query response scope epoch origin)
    (hdisabled : c.config.ecsSharing.enabled = false) : Key.of query = some e.key ∧ e.scope = scope := by
  have hmade := h.made hwf hoffers
  refine ⟨hmade.key, hmade.widened.resolve_right fun hlearned => ?_⟩
  rw [hdisabled] at hlearned
  cases hlearned.1

/-- **ECS isolation.** Any entry a lookup may answer from was stored, if it was for a prepared
query's response, for a query with the same key whose ECS the response lets it be reused from.
A context's scopes always serve its own ECS. -/
theorem ecs_isolation {hasher : Key → Nat} {events : List Event} (hvalid : config.validate = true)
    (hdisabled : config.ecsSharing.enabled = false)
    (hrun : run (step P C) (Cache.new hasher config) events = some c) :
    (∀ pinned query outgoing now allowStale observe c' result hit,
      c.lookupInner P pinned query outgoing now allowStale observe = some (c', result) → result.hit = some hit →
      ∃ key s, Key.of query = some key ∧ c.shards[c.shardOf key]? = some s ∧
        (∃ e ∈ s.candidates key outgoing now allowStale, ∃ hits, result = e.reply P c.config query hits now) ∧
        ∀ e ∈ s.candidates key outgoing now allowStale,
          ∀ past ev later c0, events = past ++ ev :: later → run (step P C) (Cache.new hasher config) past = some c0 →
          Puts P C c0 ev (c.shardOf key) e →
          ∀ query' response' scope epoch origin, ev.op.Offers query' response' scope epoch origin →
          origin.restoring = false →
          ∀ peer ecsConfig outbound ctx response, Context.prepare query' peer ecsConfig = .ok (outbound, ctx) →
          (ctx.responseScope response).cache = some scope →
          Key.of query' = Key.of query ∧ Reusable (Ecs.subnet response) ctx.outgoing outgoing) ∧
    ∀ (ctx : Context) (response : Message) (scope : Scope),
      ctx.sourceScope = some scope ∨ (ctx.responseScope response).cache = some scope →
      scope.matches ctx.outgoing = true := by
  have hwf : ∀ past c0, run (step P C) (Cache.new hasher config) past = some c0 → c0.Wf ∧ c0.config = config := by
    intro past c0 hpast
    obtain ⟨c1, h1, hwf, hframe⟩ := run_wf P C hasher hvalid past
    cases hpast.symm.trans h1
    exact ⟨hwf, hframe.config⟩
  refine ⟨fun pinned query outgoing now allowStale observe c' result hit hlookup hhit => ?_,
    fun ctx response scope h => h.elim Context.sourceScope_matches Context.responseScope_matches⟩
  obtain ⟨c'', result', hlookup', _, _, hspec⟩ := lookupInner_spec P pinned query outgoing now allowStale observe
    (hwf events c hrun).1
  cases hlookup.symm.trans hlookup'
  obtain ⟨key, s, e, hits, hkey, hs, he, hresult⟩ := hspec hit hhit
  refine ⟨key, s, hkey, hs, ⟨e, he, hits, hresult⟩, fun e he past ev later c0 _ hpast hputs query' response' scope
    epoch origin hoffers horigin peer ecsConfig outbound ctx response _ hscope => ?_⟩
  obtain ⟨hwf0, hconfig0⟩ := hwf past c0 hpast
  obtain ⟨⟨_, hekey⟩, husable⟩ := ((hwf events c hrun).1.shards _ s hs).mem_candidates.mp he
  obtain ⟨hkey', hscope'⟩ := hputs.own_scope hwf0 hoffers (hconfig0 ▸ hdisabled)
  have hmatches : e.scope.matches outgoing = true := by
    simp only [Entry.usable, Bool.and_eq_true] at husable
    exact husable.1.1.1
  rw [hscope'] at hmatches
  exact ⟨by rw [hkey', hekey, hkey], Context.reusable_responseScope hscope hmatches⟩

/-- The sample query from `10.0.0.7`, sent for its network and answered without ECS. -/
def scopedEvent : Event :=
  { now := 0, op := .insert sampleQuery sampleResponse (.exactSource ⟨.ofV4 10 0 0 0, 24, by decide⟩) 0 }

def scopedSubnet : ClientSubnet := ⟨.ofV4 10 0 0 0, 24, 0⟩

/-- A query for the same network is answered from it. -/
theorem ecs_isolation_same_network : ∃ c c' result hit,
    run (step samplePlatform sampleCodec) (Cache.new (fun _ => 7) { shards := 1 }) [scopedEvent] = some c ∧
      c.lookupInner samplePlatform (fun _ _ => false) sampleQuery (some scopedSubnet) second false true =
        some (c', result) ∧ result.hit = some hit ∧
      ∃ outbound ctx, Context.prepare sampleQuery (.ofV4 10 0 0 7) ⟨true, 24, 56⟩ = .ok (outbound, ctx) ∧
        Reusable (Ecs.subnet sampleResponse) ctx.outgoing (some scopedSubnet) := by
  have hshape : (run (step samplePlatform sampleCodec) (Cache.new (fun _ => 7) { shards := 1 }) [scopedEvent]).map
      (fun c => ((c.lookupInner samplePlatform (fun _ _ => false) sampleQuery (some scopedSubnet) second false true).bind
        fun found => found.2.hit).isSome) = some true := by decide +kernel
  have hprepared : ((Context.prepare sampleQuery (.ofV4 10 0 0 7) ⟨true, 24, 56⟩).toOption.map fun p =>
      (p.2.outgoing, (p.2.responseScope sampleResponse).cache)) =
      some (some scopedSubnet, some (.exactSource ⟨.ofV4 10 0 0 0, 24, by decide⟩)) := by decide +kernel
  obtain ⟨c, hrun, hfound⟩ := Option.map_eq_some_iff.mp hshape
  obtain ⟨hit, hfound⟩ := Option.isSome_iff_exists.mp hfound
  obtain ⟨⟨c', result⟩, hlookup, hhit⟩ := Option.bind_eq_some_iff.mp hfound
  obtain ⟨⟨outbound, ctx⟩, hok, hscope⟩ := exists_ok_of_map hprepared
  obtain ⟨_, hscope⟩ := Prod.mk.inj hscope
  obtain ⟨key, s, _, hs, ⟨e, he, _⟩, hall⟩ := (ecs_isolation (by decide) rfl hrun).1 _ _ _ _ _ _ _ _ _ hlookup hhit
  refine ⟨c, c', result, hit, hrun, hlookup, hhit, outbound, ctx, hok, ?_⟩
  refine (hall e he [] scopedEvent [] _ rfl rfl ⟨?_, c, ?_, s, hs, ?_⟩ sampleQuery sampleResponse _ 0 .answer .insert rfl
    _ _ outbound ctx sampleResponse hok hscope).2
  · rintro ⟨s0, hs0, he0⟩
    rw [new_shard hs0, Shard.new_entries] at he0
    cases he0
  · simpa [run] using hrun
  · obtain ⟨_, h1, hwf, _⟩ := run_wf samplePlatform sampleCodec (fun _ => 7)
      (show CacheConfig.validate { shards := 1 } = true by decide) [scopedEvent]
    cases hrun.symm.trans h1
    exact ((hwf.shards _ s hs).mem_candidates.mp he).1.1

end Parins.Cache
