/-
The epoch fence. A request works with the epoch it read first: the registry it
obtains, the work it leads or joins and whatever that work stores all carry this
epoch. So what was asked for before an invalidation can reach nobody who asked
after it, except through an entry the invalidation left alone.
-/
import Parins.Resolver.Requests

namespace Parins.Resolver
open Cache Lib List

variable {P : Platform} {settings : Settings} {c c' : Cache} {s s' s'' : State} {e : Entry} {i r w : Nat}

/-! ## What happens to the cache -/

/-- Entries leave, and one may enter if work of the current epoch stores it. -/
structure Moved (epoch : Option Nat) (c c' : Cache) : Prop where
  wf : c'.Wf
  advances : c.epoch ≤ c'.epoch
  shards : c.Each c' fun _ s s' => ∃ gone new, s.Change s' gone new ∧ (new.isSome = true → epoch = some c.epoch)

theorem Moved.loses {p} (hwf : c.Wf) (heach : c.Each c' fun _ => Shard.Loses c.config.maxVariants p)
    (hepoch : c'.epoch = c.epoch) (epoch) : Moved epoch c c' := by
  refine ⟨heach.wf hwf fun i s s' _ h => h.moves, hepoch.ge, heach.mono fun i s s' _ h => ?_⟩
  obtain ⟨_, gone, hch, _⟩ := h
  exact ⟨gone, none, hch, by simp⟩

variable {pinned : Nat → Nat → Bool} {now : Nat} {query : SingleQuery} {outgoing : Option ClientSubnet}
  {allowStale : Bool}

theorem moved_lookup {result} (hwf : c.Wf)
    (h : c.lookupWithDecision P pinned query outgoing now allowStale = some (c', result)) (epoch) :
    Moved epoch c c' := by
  obtain ⟨c1, result1, h1, hepoch, heach, _⟩ := lookupInner_spec P pinned query outgoing now allowStale true hwf
  simp only [lookupWithDecision, h1, bind, Option.bind, Option.some.injEq, Prod.mk.injEq] at h
  obtain ⟨rfl, _⟩ := h
  exact .loses hwf (heach.recorded (c1.diagnostics.recordLookup result1.decision)) hepoch epoch

theorem moved_peek {hit} (hwf : c.Wf)
    (h : c.peek P pinned query outgoing now allowStale = some (c', hit)) (epoch) : Moved epoch c c' := by
  obtain ⟨c1, result1, h1, hepoch, heach, _⟩ := lookupInner_spec P pinned query outgoing now allowStale false hwf
  simp only [Cache.peek, h1, bind, Option.bind, Option.some.injEq, Prod.mk.injEq] at h
  obtain ⟨rfl, _⟩ := h
  exact .loses hwf heach hepoch epoch

variable {epoch : Option Nat} {d : StoreDecision} {response : Message} {scope : Scope}

theorem Moved.moves {epoch} (hwf : c.Wf) (hepoch : c'.epoch = c.epoch) (h : c.Moves c' epoch) :
    Moved (some epoch) c c' := by
  refine ⟨h.wf hwf, hepoch.ge, Each.mono h fun i s s' _ hmoves => ?_⟩
  obtain ⟨_, gone, new, hch, hnew⟩ := hmoves
  refine ⟨gone, new, hch, fun hsome => ?_⟩
  obtain ⟨e, he⟩ := Option.isSome_iff_exists.mp hsome
  exact congrArg some (hnew e he).2

variable {work : Work} {bogus : Bool}

theorem moved_store (hwf : c.Wf) (h : work.store P c pinned now response bogus = some (c', d)) :
    Moved (some work.epoch) c c' := by
  have hrecorded : ∀ {p : Cache × StoreDecision}, recordStore p = (c', d) →
      c' = { p.1 with diagnostics := p.1.diagnostics.recordStore p.2 } := fun h => (Prod.mk.inj h).1.symm
  unfold Work.store at h
  dsimp only at h
  split at h
  · obtain rfl := hrecorded (Option.some.inj h)
    exact .loses hwf ((hwf.idle fun _ => True).recorded (c.diagnostics.recordStore (.skipped .ecsUnusable))) rfl _
  · next scope _ =>
    split at h
    · obtain ⟨c1, d1, h1, hepoch, hfails⟩ := fails_spec P pinned work.query response scope now work.epoch
        (if bogus then .final else .staleFallback) hwf
      rw [insertFailureIfEpoch, h1] at h
      obtain rfl := hrecorded (Option.some.inj h)
      exact .moves hwf hepoch ((hfails.recorded _).moves hwf)
    · split at h
      · obtain ⟨c1, d1, h1, hepoch, hadmits⟩ := admits_spec P pinned work.query response scope now work.epoch .refresh hwf
        rw [insertRefreshIfEpoch, h1] at h
        obtain rfl := hrecorded (Option.some.inj h)
        exact .moves hwf hepoch ((hadmits.recorded _).moves hwf)
      · obtain ⟨c1, d1, h1, hepoch, hadmits⟩ := admits_spec P pinned work.query response scope now work.epoch .answer hwf
        rw [insertDecisionIfEpoch, h1] at h
        obtain rfl := hrecorded (Option.some.inj h)
        exact .moves hwf hepoch ((hadmits.recorded _).moves hwf)

theorem moved_invalidate {name kind scope removed} (hwf : c.Wf)
    (h : c.invalidate pinned name kind scope = some (c', removed)) :
    Moved none c c' ∧ c'.epoch = c.epoch + 1 ∧
      ∀ i e, e.cleared (filterOf name kind scope) = true → ¬c'.Holds i e := by
  obtain ⟨c1, removed1, h1, hepoch, heach⟩ := invalidate_spec pinned name kind scope hwf
  cases h.symm.trans h1
  refine ⟨⟨heach.wf hwf fun i s s' _ h => h.moves, by omega, heach.mono fun i s s' _ h => ?_⟩, hepoch, ?_⟩
  · exact ⟨_, none, h.change, by simp⟩
  · rintro i e hcleared ⟨s', hs', he⟩
    obtain ⟨s, _, hc⟩ := heach.of hs'
    rw [((hc.change.mem_iff.mp he).resolve_left (by simp)).2] at hcleared
    cases hcleared

variable {shard : Shard}

/-- An entry that is not there now and whose id has been passed does not come back. -/
theorem Moved.gone (h : Moved epoch c c') (hs : c.shards[i]? = some shard)
    (hid : e.id ≤ shard.clock) (hnot : ¬c.Holds i e) : ¬c'.Holds i e := by
  rintro ⟨shard', hs', he⟩
  obtain ⟨shard0, hs0, gone, new, hch, _⟩ := h.shards.of hs'
  cases hs.symm.trans hs0
  rcases hch.mem_iff.mp he with hnew | ⟨he, _⟩
  · have := hch.id e hnew
    omega
  · exact hnot ⟨shard, hs, he⟩

theorem Moved.clock (h : Moved epoch c c') (hs : c.shards[i]? = some shard) :
    ∃ shard', c'.shards[i]? = some shard' ∧ shard.clock ≤ shard'.clock := by
  obtain ⟨shard', hs', gone, new, hch, _⟩ := h.shards.shards i shard hs
  exact ⟨shard', hs', hch.clock⟩

theorem Moved.entered (h : Moved epoch c c') (hafter : c'.Holds i e) (hbefore : ¬c.Holds i e) :
    epoch = some c.epoch := by
  obtain ⟨shard', hs', he⟩ := hafter
  obtain ⟨shard, hs, gone, new, hch, hepoch⟩ := h.shards.of hs'
  rcases hch.mem_iff.mp he with hnew | ⟨he, _⟩
  · exact hepoch (by rw [hnew]; rfl)
  · exact absurd ⟨shard, hs, he⟩ hbefore

theorem mem_newEntries : (i, e) ∈ newEntries c c' ↔ c'.Holds i e ∧ ¬c.Holds i e := by
  have hentries : ∀ (c : Cache) (i : Nat) (e : Entry),
      e ∈ (c.shards[i]?.map Shard.entries).getD [] ↔ c.Holds i e := by
    intro c i e
    unfold Holds
    cases c.shards[i]? with
    | none => simp
    | some s => simp
  simp only [newEntries, mem_flatMap, mem_map, mem_filter, Prod.mk.injEq, hentries, decide_eq_true_eq]
  constructor
  · rintro ⟨j, _, x, hx, rfl, rfl⟩
    exact hx
  · rintro ⟨hafter, hbefore⟩
    obtain ⟨shard, hs, he⟩ := hafter
    exact ⟨i, mem_range.mpr (List.getElem?_eq_some_iff.mp hs).1, e, ⟨⟨shard, hs, he⟩, hbefore⟩, rfl, rfl⟩

/-! ## The invariant -/

def State.Works (s : State) (w epoch : Nat) : Prop := ∃ work : Work, s.works[w]? = some work ∧ work.epoch = epoch

def State.Registry (s : State) (g epoch : Nat) : Prop := ∃ f, s.generation.registries[g]? = some (epoch, f)

structure Inv (s : State) : Prop where
  cache : s.cache.Wf
  requests : ∀ (r : Nat) (req : Request), s.requests[r]? = some req → req.epoch ≤ s.cache.epoch
  /-- Work has the epoch its owner read. -/
  owner : ∀ (w : Nat) (work : Work), s.works[w]? = some work →
    ∃ req : Request, s.requests[work.owner]? = some req ∧ req.epoch = work.epoch
  /-- A request takes an answer only from work of its own epoch. -/
  joined : ∀ (r : Nat) (req : Request), s.requests[r]? = some req → ∀ w, req.phase.work? = some w → s.Works w req.epoch
  /-- The registry it joins is one of its own epoch. -/
  obtained : ∀ (r : Nat) (req : Request), s.requests[r]? = some req → ∀ g, req.phase.registry? = some g →
    s.Registry g req.epoch
  current : s.Registry s.generation.flights.2 s.generation.flights.1
  groups : ∀ (g epoch : Nat) (f : Flights), s.generation.registries[g]? = some (epoch, f) →
    ∀ group ∈ f.groups, s.Works group.2 epoch
  admitted : ∀ i e w, (i, e, w) ∈ s.admitted →
    (∃ shard : Shard, s.cache.shards[i]? = some shard ∧ e.id ≤ shard.clock) ∧ ∃ work, s.works[w]? = some work
  resident : ∀ i e, s.cache.Holds i e → ∃ w, (i, e, w) ∈ s.admitted

/-- What holds of a later state against an earlier one. -/
structure Later (s s' : State) : Prop where
  epoch : s.cache.epoch ≤ s'.cache.epoch
  requests : ∀ (r : Nat) (req : Request), s.requests[r]? = some req →
    ∃ req' : Request, s'.requests[r]? = some req' ∧ req'.epoch = req.epoch
  arrived : ∀ (r : Nat) (req : Request), s'.requests[r]? = some req → s.requests.length ≤ r → s.cache.epoch ≤ req.epoch
  works : ∀ (w : Nat) (work : Work), s.works[w]? = some work →
    ∃ work' : Work, s'.works[w]? = some work' ∧ work'.owner = work.owner ∧ work'.epoch = work.epoch
  registry : ∀ g epoch, s.Registry g epoch → s'.Registry g epoch
  clock : ∀ (i : Nat) (shard : Shard), s.cache.shards[i]? = some shard →
    ∃ shard' : Shard, s'.cache.shards[i]? = some shard' ∧ shard.clock ≤ shard'.clock
  gone : ∀ (i : Nat) (shard : Shard), s.cache.shards[i]? = some shard → ∀ e : Entry, e.id ≤ shard.clock →
    ¬s.cache.Holds i e → ¬s'.cache.Holds i e
  admitted : ∀ i e w, (i, e, w) ∈ s'.admitted → (i, e, w) ∈ s.admitted ∨
    ∃ work : Work, s'.works[w]? = some work ∧ s.cache.epoch ≤ work.epoch

theorem Later.refl (s) : Later s s where
  epoch := le_rfl
  requests r req h := ⟨req, h, rfl⟩
  arrived r req h hle := by
    have := (List.getElem?_eq_some_iff.mp h).1
    omega
  works w work h := ⟨work, h, rfl, rfl⟩
  registry _ _ h := h
  clock i shard h := ⟨shard, h, le_rfl⟩
  gone _ _ _ _ _ h := h
  admitted _ _ _ h := .inl h

theorem Later.trans (h1 : Later s s') (h2 : Later s' s'') : Later s s'' where
  epoch := h1.epoch.trans h2.epoch
  requests r req h := by
    obtain ⟨req', h', he'⟩ := h1.requests r req h
    obtain ⟨req'', h'', he''⟩ := h2.requests r req' h'
    exact ⟨req'', h'', he''.trans he'⟩
  arrived r req h hle := by
    by_cases hlt : r < s'.requests.length
    · have hget := List.getElem?_eq_getElem hlt
      obtain ⟨req'', h'', he⟩ := h2.requests r _ hget
      cases h.symm.trans h''
      rw [he]
      exact h1.arrived r _ hget hle
    · exact h1.epoch.trans (h2.arrived r req h (by omega))
  works w work h := by
    obtain ⟨work', h', ho', he'⟩ := h1.works w work h
    obtain ⟨work'', h'', ho'', he''⟩ := h2.works w work' h'
    exact ⟨work'', h'', ho''.trans ho', he''.trans he'⟩
  registry g epoch h := h2.registry g epoch (h1.registry g epoch h)
  clock i shard h := by
    obtain ⟨shard', h', hle'⟩ := h1.clock i shard h
    obtain ⟨shard'', h'', hle''⟩ := h2.clock i shard' h'
    exact ⟨shard'', h'', hle'.trans hle''⟩
  gone i shard h e hid hnot := by
    obtain ⟨shard', h', hle'⟩ := h1.clock i shard h
    exact h2.gone i shard' h' e (hid.trans hle') (h1.gone i shard h e hid hnot)
  admitted i e w h := by
    rcases h2.admitted i e w h with h | ⟨work, hw, hle⟩
    · refine (h1.admitted i e w h).imp_right fun ⟨work, hw, hle⟩ => ?_
      obtain ⟨work', hw', _, he⟩ := h2.works w work hw
      exact ⟨work', hw', he ▸ hle⟩
    · exact .inr ⟨work, hw, h1.epoch.trans hle⟩

theorem Later.has (h : Later s s') {epoch} (hw : s.Works w epoch) : s'.Works w epoch := by
  obtain ⟨work, hwork, he⟩ := hw
  obtain ⟨work', hwork', _, he'⟩ := h.works w work hwork
  exact ⟨work', hwork', he'.trans he⟩

/-- The invariant holds on, and nothing that was settled has changed. -/
structure Sound (s s' : State) : Prop where
  inv : Inv s'
  later : Later s s'

theorem Sound.trans (h1 : Sound s s') (h2 : Sound s' s'') : Sound s s'' := ⟨h2.inv, h1.later.trans h2.later⟩

/-! ## The parts of a step -/

variable {phase : Phase}

theorem getElem?_setPhase {req' : Request} (h : (s.setPhase r phase).requests[i]? = some req') :
    ∃ req, s.requests[i]? = some req ∧ req'.epoch = req.epoch ∧
      (req'.phase = req.phase ∨ i = r ∧ req'.phase = phase) := by
  simp only [State.setPhase, List.getElem?_modify, Option.map_eq_map, Option.map_eq_some_iff] at h
  obtain ⟨req, hreq, rfl⟩ := h
  refine ⟨req, hreq, ?_⟩
  split
  · next hi => exact ⟨rfl, .inr ⟨hi.symm, rfl⟩⟩
  · exact ⟨rfl, .inl rfl⟩

variable {req : Request}

theorem sound_phase (hinv : Inv s) (hreq : s.requests[r]? = some req)
    (hwork : ∀ w, phase.work? = some w → s.Works w req.epoch)
    (hregistry : ∀ g, phase.registry? = some g → s.Registry g req.epoch) : Sound s (s.setPhase r phase) := by
  have hlater : Later s (s.setPhase r phase) := by
    refine { Later.refl s with requests := fun j req h => ?_, arrived := fun j req h hle => ?_ }
    · simp only [State.setPhase, List.getElem?_modify, h, Option.map_eq_map, Option.map_some, Option.some.injEq,
        exists_eq_left']
      split <;> rfl
    · have hlt := (List.getElem?_eq_some_iff.mp h).1
      simp only [State.setPhase, length_modify] at hlt
      omega
  refine ⟨{ hinv with requests := ?_, owner := ?_, joined := ?_, obtained := ?_ }, hlater⟩
  · intro j req' h
    obtain ⟨req0, h0, he, _⟩ := getElem?_setPhase h
    rw [he]
    exact hinv.requests j req0 h0
  · intro w work h
    obtain ⟨req0, h0, he⟩ := hinv.owner w work h
    obtain ⟨req', h', he'⟩ := hlater.requests _ req0 h0
    exact ⟨req', h', he'.trans he⟩
  · intro j req' h w hw
    obtain ⟨req0, h0, he, hphase | ⟨rfl, hphase⟩⟩ := getElem?_setPhase h
    · rw [he]
      exact hinv.joined j req0 h0 w (hphase ▸ hw)
    · cases hreq.symm.trans h0
      rw [he]
      exact hwork w (hphase ▸ hw)
  · intro j req' h g hg
    obtain ⟨req0, h0, he, hphase | ⟨rfl, hphase⟩⟩ := getElem?_setPhase h
    · rw [he]
      exact hinv.obtained j req0 h0 g (hphase ▸ hg)
    · cases hreq.symm.trans h0
      rw [he]
      exact hregistry g (hphase ▸ hg)

theorem sound_works {works : List Work} (hinv : Inv s) (hkept : ∀ (j : Nat) (work : Work), s.works[j]? = some work →
      ∃ work' : Work, works[j]? = some work' ∧ work'.owner = work.owner ∧ work'.epoch = work.epoch)
    (howner : ∀ (j : Nat) (work : Work), works[j]? = some work →
      ∃ req : Request, s.requests[work.owner]? = some req ∧ req.epoch = work.epoch) :
    Sound s { s with works } := by
  have hlater : Later s { s with works } := { Later.refl s with works := hkept, admitted := fun i e w h => .inl h }
  refine ⟨{ hinv with owner := howner, joined := ?_, groups := ?_, admitted := ?_ }, hlater⟩
  · intro j req h v hv
    exact hlater.has (hinv.joined j req h v hv)
  · intro g epoch f hg group hgroup
    exact hlater.has (hinv.groups g epoch f hg group hgroup)
  · intro i e v h
    obtain ⟨hclock, work, hwork⟩ := hinv.admitted i e v h
    obtain ⟨work', hwork', _⟩ := hkept v work hwork
    exact ⟨hclock, work', hwork'⟩

theorem sound_modify (hinv : Inv s) (w : Nat) (f : Work → Work)
    (hf : ∀ work, (f work).owner = work.owner ∧ (f work).epoch = work.epoch) :
    Sound s { s with works := s.works.modify w f } := by
  have hsame : ∀ j work, (if w = j then f work else work).owner = work.owner ∧
      (if w = j then f work else work).epoch = work.epoch := by
    intro j work
    split
    · exact hf work
    · exact ⟨rfl, rfl⟩
  refine sound_works hinv (fun j work h => ?_) fun j work h => ?_
  · simp only [List.getElem?_modify, h, Option.map_eq_map, Option.map_some, Option.some.injEq, exists_eq_left']
    exact hsame j work
  · simp only [List.getElem?_modify, Option.map_eq_map, Option.map_eq_some_iff] at h
    obtain ⟨work, hwork, rfl⟩ := h
    rw [(hsame j work).1, (hsame j work).2]
    exact hinv.owner j work hwork

theorem sound_stage (hinv : Inv s) (w stage) : Sound s (s.setStage w stage) :=
  sound_modify hinv w _ fun _ => ⟨rfl, rfl⟩

theorem sound_release (hinv : Inv s) (w) : Sound s (s.release w) := sound_modify hinv w _ fun _ => ⟨rfl, rfl⟩

theorem getElem?_snoc {α : Type} {l : List α} {a x j} :
    (l ++ [a])[j]? = some x ↔ l[j]? = some x ∨ j = l.length ∧ x = a := by
  rw [List.getElem?_append]
  split
  · next hlt => simp [hlt.ne]
  · next hge =>
    rw [List.getElem?_eq_none (Nat.le_of_not_lt hge), List.getElem?_singleton]
    split
    · simp only [Option.some.injEq, reduceCtorEq, false_or]
      exact ⟨fun h => ⟨by omega, h.symm⟩, fun h => h.2.symm⟩
    · simp only [reduceCtorEq, false_or, false_iff]
      omega

section
variable (hinv : Inv s)
include hinv

theorem sound_lead (work : Work) (hreq : s.requests[work.owner]? = some req)
    (hepoch : req.epoch = work.epoch) : Sound s { s with works := s.works ++ [work] } := by
  refine sound_works hinv (fun j work' h => ⟨work', getElem?_snoc.mpr (.inl h), rfl, rfl⟩) fun j work' h => ?_
  rcases getElem?_snoc.mp h with h | ⟨_, rfl⟩
  · exact hinv.owner j work' h
  · exact ⟨req, hreq, hepoch⟩

variable {cache : Cache}

/-- The cache moves on; `admitted` says which work answers for what entered. -/
theorem sound_cache {admitted} (h : Moved epoch s.cache cache)
    (hnew : ∀ i e w, (i, e, w) ∈ admitted → (i, e, w) ∈ s.admitted ∨
      cache.Holds i e ∧ ∃ work : Work, s.works[w]? = some work ∧ s.cache.epoch ≤ work.epoch)
    (hheld : ∀ i e, cache.Holds i e → ∃ w, (i, e, w) ∈ admitted) : Sound s { s.setCache cache with admitted } := by
  refine ⟨{ hinv with cache := h.wf, requests := ?_, admitted := ?_, resident := hheld },
    { Later.refl s with epoch := h.advances, clock := fun i shard hs => h.clock hs, gone := ?_, admitted := ?_ }⟩
  · intro j req hreq
    exact (hinv.requests j req hreq).trans h.advances
  · intro i e w hm
    rcases hnew i e w hm with hold | ⟨⟨shard, hs, he⟩, work, hwork, _⟩
    · obtain ⟨⟨shard, hs, hid⟩, hw⟩ := hinv.admitted i e w hold
      obtain ⟨shard', hs', hle⟩ := h.clock hs
      exact ⟨⟨shard', hs', hid.trans hle⟩, hw⟩
    · exact ⟨⟨shard, hs, (h.wf.shards i shard hs).clock e he⟩, work, hwork⟩
  · intro i shard hs e hid hnot
    exact h.gone hs hid hnot
  · intro i e w hm
    exact (hnew i e w hm).imp_right fun hnew => hnew.2

theorem sound_quiet (h : Moved none s.cache cache) : Sound s (s.setCache cache) := by
  refine sound_cache hinv h (fun i e w hm => .inl hm) fun i e hafter => ?_
  refine hinv.resident i e ?_
  by_contra hbefore
  cases h.entered hafter hbefore

theorem sound_admit (hwork : s.works[w]? = some work)
    (h : Moved (some work.epoch) s.cache cache) : Sound s { s.setCache cache with
      admitted := s.admitted ++ (newEntries s.cache cache).map fun p => (p.1, p.2, w) } := by
  refine sound_cache hinv h (fun i e v hm => ?_) fun i e hafter => ?_
  · refine (mem_append.mp hm).imp_right fun hm => ?_
    obtain ⟨⟨j, x⟩, hp, heq⟩ := mem_map.mp hm
    simp only [Prod.mk.injEq] at heq
    obtain ⟨rfl, rfl, rfl⟩ := heq
    obtain ⟨hafter, hbefore⟩ := mem_newEntries.mp hp
    exact ⟨hafter, work, hwork, (Option.some.inj (h.entered hafter hbefore)).ge⟩
  · by_cases hbefore : s.cache.Holds i e
    · obtain ⟨v, hv⟩ := hinv.resident i e hbefore
      exact ⟨v, mem_append_left _ hv⟩
    · exact ⟨w, mem_append_right _ (mem_map.mpr ⟨(i, e), mem_newEntries.mpr ⟨hafter, hbefore⟩, rfl⟩)⟩

theorem sound_arrive (hepoch : req.epoch = s.cache.epoch) (hwork : req.phase.work? = none)
    (hregistry : req.phase.registry? = none) : Sound s { s with requests := s.requests ++ [req] } := by
  refine ⟨{ hinv with requests := ?_, owner := ?_, joined := ?_, obtained := ?_ },
    { Later.refl s with requests := fun j req' h => ⟨req', getElem?_snoc.mpr (.inl h), rfl⟩, arrived := ?_ }⟩
  · intro j req' h
    rcases getElem?_snoc.mp h with h | ⟨_, rfl⟩
    · exact hinv.requests j req' h
    · exact hepoch.le
  · intro w work h
    obtain ⟨req', h', he⟩ := hinv.owner w work h
    exact ⟨req', getElem?_snoc.mpr (.inl h'), he⟩
  · intro j req' h w hw
    rcases getElem?_snoc.mp h with h | ⟨_, rfl⟩
    · exact hinv.joined j req' h w hw
    · rw [hwork] at hw
      cases hw
  · intro j req' h g hg
    rcases getElem?_snoc.mp h with h | ⟨_, rfl⟩
    · exact hinv.obtained j req' h g hg
    · rw [hregistry] at hg
      cases hg
  · intro j req' h hle
    rcases getElem?_snoc.mp h with h | ⟨_, rfl⟩
    · have := (List.getElem?_eq_some_iff.mp h).1
      omega
    · exact hepoch.ge

/-- The registries change: none changes its epoch, and each group is work of that epoch. -/
theorem sound_registries {registries : List (Nat × Flights)} {flights : Nat × Nat}
    (hkept : ∀ g epoch, s.Registry g epoch → ∃ f, registries[g]? = some (epoch, f))
    (hcurrent : ∃ f, registries[flights.2]? = some (flights.1, f))
    (hgroups : ∀ (g epoch : Nat) (f : Flights), registries[g]? = some (epoch, f) →
      ∀ group ∈ f.groups, s.Works group.2 epoch) :
    Sound s { s with generation := { s.generation with registries, flights } } :=
  ⟨{ hinv with
    obtained := fun j req h g hg => hkept g _ (hinv.obtained j req h g hg)
    current := hcurrent
    groups := hgroups }, { Later.refl s with registry := hkept }⟩

theorem sound_flights (epoch : Nat) :
    Sound s { s with generation := (s.generation.flightsAt epoch).1 } ∧
      State.Registry { s with generation := (s.generation.flightsAt epoch).1 } (s.generation.flightsAt epoch).2 epoch := by
  unfold Generation.flightsAt
  split
  · next heq => exact ⟨⟨hinv, .refl s⟩, heq ▸ hinv.current⟩
  · have hnew : (s.generation.registries ++ [(epoch, ({} : Flights))])[s.generation.registries.length]? =
        some (epoch, {}) := getElem?_snoc.mpr (.inr ⟨rfl, rfl⟩)
    have hkept : ∀ g epoch', s.Registry g epoch' →
        ∃ f, (s.generation.registries ++ [(epoch, ({} : Flights))])[g]? = some (epoch', f) :=
      fun g epoch' ⟨f, hf⟩ => ⟨f, getElem?_snoc.mpr (.inl hf)⟩
    refine ⟨sound_registries hinv hkept ?_ ?_, _, hnew⟩
    · split
      · exact ⟨_, hnew⟩
      · exact hkept _ _ hinv.current
    · intro g epoch' f h group hgroup
      rcases getElem?_snoc.mp h with h | ⟨_, heq⟩
      · exact hinv.groups g epoch' f h group hgroup
      · rw [(Prod.mk.inj heq).2] at hgroup
        cases hgroup

end

/-- What `Flights::join` comes to: the caller holds work the registry knew, or its own. -/
inductive Joins (f f' : Flights) (new : Nat) : Option (Nat × Role) → Prop
  | rejected : (∀ group ∈ f'.groups, group ∈ f.groups) → Joins f f' new none
  | joined {group : Bytes × Nat} : group ∈ f.groups → (∀ group ∈ f'.groups, group ∈ f.groups) →
      Joins f f' new (some (group.2, .joined))
  | led {role : Role} : role ≠ .joined → (∀ group ∈ f'.groups, group ∈ f.groups ∨ group.2 = new) →
      Joins f f' new (some (new, role))

theorem join_spec (config) (f : Flights) (key running upgrades)
    (holds : Nat → Nat) (new) : Joins f (f.join config key running upgrades holds new).1 new
      (f.join config key running upgrades holds new).2 := by
  have hfilter : ∀ group ∈ f.groups.filter (fun g => running g.2), group ∈ f.groups := fun group h =>
    mem_of_mem_filter h
  unfold Flights.join
  split
  · exact .led (by simp) fun group h => .inl h
  · dsimp only
    split
    · next k work hfind =>
      split
      · exact .rejected hfilter
      · exact .joined (hfilter _ (mem_of_find?_eq_some hfind)) hfilter
    · split
      · exact .rejected hfilter
      · refine .led (by simp) fun group h => ?_
        rcases mem_cons.mp h with rfl | h
        · exact .inr rfl
        · exact .inl (hfilter group (mem_of_mem_filter h))

variable {g : Nat}

theorem sound_set {epoch} {f : Flights} (hinv : Inv s) (hf : s.generation.registries[g]? = some (epoch, f))
    (f' : Flights) (hgroups : ∀ group ∈ f'.groups, s.Works group.2 epoch) : Sound s { s with
      generation := { s.generation with registries := s.generation.registries.set g (epoch, f') } } := by
  have hget : ∀ j, (s.generation.registries.set g (epoch, f'))[j]? =
      if g = j then some (epoch, f') else s.generation.registries[j]? := by
    intro j
    rw [List.getElem?_set]
    split
    · rw [if_pos (List.getElem?_eq_some_iff.mp hf).1]
    · rfl
  have hkept : ∀ (j epoch' : Nat), s.Registry j epoch' →
      ∃ f, (s.generation.registries.set g (epoch, f'))[j]? = some (epoch', f) := by
    intro j epoch' h
    obtain ⟨f0, hf0⟩ := h
    rw [hget]
    split
    · next hj =>
      subst hj
      cases hf.symm.trans hf0
      exact ⟨f', rfl⟩
    · exact ⟨f0, hf0⟩
  refine sound_registries hinv hkept (hkept _ _ hinv.current) fun j epoch' f0 h group hgroup => ?_
  rw [hget] at h
  split at h
  · cases h
    exact hgroups group hgroup
  · exact hinv.groups j epoch' f0 h group hgroup

theorem sound_join {H config refreshing upgradable upgrades held} (hinv : Inv s) (hreq : s.requests[r]? = some req)
    (hregistry : s.Registry g req.epoch)
    (h : s.join H config r req g refreshing upgradable upgrades = some (s', held)) :
    Sound s s' ∧ ∀ w, held = some w → s'.Works w req.epoch := by
  obtain ⟨f, hf⟩ := hregistry
  simp only [State.join, hf, bind, Option.bind] at h
  have hspec := join_spec config f (Protocol.canonicalWorkKey H req.outbound)
    (fun w => upgradable w && s.works[w]?.any fun work => !work.stage.isComplete) upgrades
    (fun w => (s.works[w]?.map Work.holds).getD 0) s.works.length
  generalize f.join config (Protocol.canonicalWorkKey H req.outbound)
    (fun w => upgradable w && s.works[w]?.any fun work => !work.stage.isComplete) upgrades
    (fun w => (s.works[w]?.map Work.holds).getD 0) s.works.length = result at h hspec
  obtain ⟨f', held'⟩ := result
  dsimp only at h hspec
  have hold : ∀ group ∈ f.groups, s.Works group.2 req.epoch := hinv.groups g _ f hf
  cases hspec with
  | rejected hsub =>
    cases h
    exact ⟨sound_set hinv hf f' fun group hg => hold group (hsub group hg), by simp⟩
  | @joined group hgroup hsub =>
    cases h
    have hset := sound_set hinv hf f' fun group hg => hold group (hsub group hg)
    have hmore := sound_modify hset.inv group.2 (fun work => { work with holds := work.holds + 1 }) fun _ => ⟨rfl, rfl⟩
    refine ⟨hset.trans hmore, fun w hw => ?_⟩
    cases hw
    exact (hset.trans hmore).later.has (hold group hgroup)
  | @led role hrole hsub =>
    have hlead := sound_lead hinv {
      owner := r, query := req.query, context := req.context, outbound := req.outbound, epoch := req.epoch
      refreshing, holds := 1, stage := .unpolled } hreq rfl
    have hown : State.Works { s with works := s.works ++ [{
        owner := r, query := req.query, context := req.context, outbound := req.outbound, epoch := req.epoch
        refreshing, holds := 1, stage := .unpolled }] } s.works.length req.epoch :=
      ⟨_, List.getElem?_concat_length, rfl⟩
    have hset := sound_set hlead.inv hf f' fun group hg => by
      rcases hsub group hg with hin | hnew
      · exact hlead.later.has (hold group hin)
      · rw [hnew]
        exact hown
    cases role with
    | joined => exact absurd rfl hrole
    | bypass | leader =>
      cases h
      refine ⟨hlead.trans hset, fun w hw => ?_⟩
      cases hw
      exact hset.later.has hown

/-! ## Every step and every run -/

theorem State.held_some (h : s.held w = some work) : s.works[w]? = some work :=
  (Option.filter_eq_some_iff.mp h).1

theorem sound_poll (hinv : Inv s) (h : s.poll P pinned now w work = some s') : Sound s s' := by
  simp only [State.poll, bind, Option.bind_eq_some_iff, Prod.exists] at h
  obtain ⟨cache, hit, hpeek, h⟩ := h
  have hcache := sound_quiet hinv (moved_peek hinv.cache hpeek none)
  have hstage : ∃ stage, s' = (s.setCache cache).setStage w stage := by
    repeat' split at h
    all_goals exact ⟨_, (Option.some.inj h).symm⟩
  obtain ⟨stage, rfl⟩ := hstage
  exact hcache.trans (sound_stage hcache.inv w stage)

theorem sound_storeWork {result retried} (hinv : Inv s) (hwork : s.works[w]? = some work)
    (h : s.storeWork P pinned now w work result retried bogus = some s') : Sound s s' := by
  unfold State.storeWork at h
  split at h
  · cases h
    exact sound_stage hinv w _
  · split at h
    · cases h
      exact sound_stage hinv w _
    · simp only [bind, Option.bind_eq_some_iff, Prod.exists] at h
      obtain ⟨cache, decision, hstore, h⟩ := h
      cases h
      have hadmit := sound_admit hinv hwork (moved_store hinv.cache hstore)
      exact hadmit.trans (sound_stage hadmit.inv w _)

/-- **Every step keeps requests, work and entries in their epochs.** -/
theorem sound_step {ev} (hinv : Inv s) (h : step P settings s ev = some s') : Sound s s' := by
  have hphase : ∀ {s1 : State} {r : Nat} {req : Request} {phase : Phase}, Sound s s1 → s.requests[r]? = some req →
      (∀ w, phase.work? = some w → s1.Works w req.epoch) → (∀ g, phase.registry? = some g → s1.Registry g req.epoch) →
      Sound s (s1.setPhase r phase) := by
    intro s1 r req phase hs1 hreq hwork hregistry
    obtain ⟨req1, hreq1, he⟩ := hs1.later.requests r req hreq
    exact hs1.trans (sound_phase hs1.inv hreq1 (he ▸ hwork) (he ▸ hregistry))
  have hidle : ∀ {s1 : State} {r : Nat} {req : Request} {phase : Phase}, Sound s s1 → s.requests[r]? = some req →
      phase.work? = none → phase.registry? = none → Sound s (s1.setPhase r phase) :=
    fun hs1 hreq hw hg => hphase hs1 hreq (by simp [hw]) (by simp [hg])
  have hself : Sound s s := ⟨hinv, .refl s⟩
  obtain ⟨now, pinned, op⟩ := ev
  cases op <;> simp only [step, bind, Option.bind_eq_some_iff, Prod.exists] at h
  case arrive query peer =>
    split at h
    · cases h
      exact hself
    · cases h
      exact sound_arrive hinv rfl rfl rfl
  case lookup r =>
    obtain ⟨req, hreq, h⟩ := h
    split at h
    · simp only [Option.bind_eq_some_iff, Prod.exists] at h
      obtain ⟨cache, result, hlookup, h⟩ := h
      cases h
      refine hphase (sound_quiet hinv (moved_lookup hinv.cache hlookup none)) hreq ?_ ?_
      · intro w hw
        split at hw <;> cases hw
      · intro g hg
        split at hg <;> cases hg
    · cases h
  case flights r =>
    obtain ⟨req, hreq, h⟩ := h
    obtain ⟨hflights, hregistry⟩ := sound_flights hinv req.epoch
    have hown : ∀ {phase : Phase}, phase.work? = none →
        phase.registry? = some (s.generation.flightsAt req.epoch).2 →
        Sound s ({ s with generation := (s.generation.flightsAt req.epoch).1 }.setPhase r phase) := by
      intro phase hw hg
      refine hphase hflights hreq (fun w h => ?_) fun g h => ?_
      · rw [hw] at h
        cases h
      · rw [hg] at h
        cases h
        exact hregistry
    split at h
    · cases h
      exact hown rfl rfl
    · split at h
      · cases h
        exact hown rfl rfl
      · cases h
    · cases h
  case join r upgradable upgrades =>
    obtain ⟨req, hreq, h⟩ := h
    split at h
    · next registry hp =>
      simp only [Option.bind_eq_some_iff, Prod.exists] at h
      obtain ⟨s1, held, hjoin, h⟩ := h
      cases h
      obtain ⟨hs1, hheld⟩ := sound_join hinv hreq (hinv.obtained r req hreq registry (by rw [hp]; rfl)) hjoin
      refine hphase hs1 hreq (fun w hw => ?_) fun g hg => ?_
      · split at hw
        · exact hheld w hw
        · cases hw
      · split at hg <;> cases hg
    · cases h
  case refresh r taken upgradable upgrades =>
    obtain ⟨req, hreq, h⟩ := h
    split at h
    · next hit registry hp =>
      split at h
      · simp only [Option.bind_eq_some_iff, Prod.exists] at h
        obtain ⟨s1, held, hjoin, h⟩ := h
        cases h
        obtain ⟨hs1, _⟩ := sound_join hinv hreq (hinv.obtained r req hreq registry (by rw [hp]; rfl)) hjoin
        exact hidle hs1 hreq rfl rfl
      · cases h
        exact hidle hself hreq rfl rfl
    · cases h
  case answer r =>
    obtain ⟨req, hreq, h⟩ := h
    split at h
    · split at h
      · cases h
      · split at h
        · simp only [Option.bind_eq_some_iff, Prod.exists] at h
          obtain ⟨cache, result, hlookup, h⟩ := h
          cases h
          exact hidle (sound_quiet hinv (moved_lookup hinv.cache hlookup none)) hreq rfl rfl
        · cases h
          exact hidle hself hreq rfl rfl
    · cases h
  case poll w =>
    obtain ⟨work, hwork, h⟩ := h
    split at h
    · exact sound_poll hinv h
    · cases h
  case exchange w first second bogus =>
    obtain ⟨work, hwork, h⟩ := h
    split at h
    · cases h
      exact sound_stage hinv w _
    · cases h
  case store w =>
    obtain ⟨work, hwork, h⟩ := h
    split at h
    · exact sound_storeWork hinv (State.held_some hwork) h
    · cases h
  case complete w =>
    obtain ⟨work, hwork, h⟩ := h
    split at h
    · cases h
      exact sound_stage hinv w _
    · cases h
  case receive r =>
    obtain ⟨req, hreq, h⟩ := h
    split at h
    · next w hp =>
      obtain ⟨work, hwork, h⟩ := Option.bind_eq_some_iff.mp h
      split at h
      · cases h
        have hrelease := sound_release hinv w
        refine hphase hrelease hreq (fun v hv => ?_) (by simp [Phase.registry?])
        cases hv
        exact hrelease.later.has (hinv.joined r req hreq w (by rw [hp]; rfl))
      · cases h
    · cases h
  case reply r =>
    obtain ⟨req, hreq, h⟩ := h
    split at h
    · next w answer hp =>
      have hw : ∀ v, w = some v → s.Works v req.epoch := fun v hv => hinv.joined r req hreq v (by rw [hp]; exact hv)
      split at h
      · simp only [Option.bind_eq_some_iff, Prod.exists] at h
        obtain ⟨cache, result, hlookup, h⟩ := h
        cases h
        have hquiet := sound_quiet hinv (moved_lookup hinv.cache hlookup none)
        exact hphase hquiet hreq (fun v hv => hquiet.later.has (hw v hv)) (by simp [Phase.registry?])
      · cases h
        exact hphase hself hreq (fun v hv => hw v hv) (by simp [Phase.registry?])
    · cases h
  case leave r handover =>
    obtain ⟨req, hreq, h⟩ := h
    split at h
    · next w hp =>
      cases h
      refine hidle ?_ hreq rfl rfl
      split
      · exact hself
      · exact sound_release hinv w
    · cases h
  case drop w =>
    obtain ⟨work, hwork, h⟩ := h
    cases h
    exact sound_release hinv w
  case invalidate name kind scope =>
    obtain ⟨cache, removed, hinvalidate, h⟩ := h
    cases h
    exact sound_quiet hinv (moved_invalidate hinv.cache hinvalidate).1

theorem sound_run {events} (hinv : Inv s) (h : run (step P settings) s events = some s') : Sound s s' :=
  run_induction (I := fun _ s' => Sound s s') ⟨hinv, .refl s⟩
    (fun _ _ _ _ _ ih hstep => ih.trans (sound_step ih.inv hstep)) h

theorem inv_init {config : CacheConfig} (hasher) (hvalid : config.validate = true) :
    Inv (State.init hasher config) where
  cache := new_wf hasher (validate_variants hvalid)
  requests _ _ h := by simp [State.init] at h
  owner _ _ h := by simp [State.init] at h
  joined _ _ h := by simp [State.init] at h
  obtained _ _ h := by simp [State.init] at h
  current := ⟨{}, rfl⟩
  groups g epoch f h group hgroup := by
    have hf : (epoch, f) = (0, {}) := by simpa [State.init, Generation.new] using mem_of_getElem? h
    rw [(Prod.mk.inj hf).2] at hgroup
    cases hgroup
  admitted _ _ _ h := by simp [State.init] at h
  resident i e h := by
    obtain ⟨shard, hs, he⟩ := h
    rw [new_shard hs, Shard.new_entries] at he
    cases he

/-- Work of an epoch read after the invalidation is owned by a request that came after it. -/
theorem owner_after {s1 : State} (hinv : Inv s) (hlater : Later s1 s)
    (hbefore : ∀ (r : Nat) (req : Request), s1.requests[r]? = some req → req.epoch < s1.cache.epoch)
    (hwork : s.works[w]? = some work) (hepoch : s1.cache.epoch ≤ work.epoch) : s1.requests.length ≤ work.owner := by
  by_contra hlt
  obtain ⟨req, hreq, he⟩ := hinv.owner w work hwork
  have hget := List.getElem?_eq_getElem (Nat.lt_of_not_le hlt)
  obtain ⟨req', hreq', he'⟩ := hlater.requests _ _ hget
  cases hreq.symm.trans hreq'
  have := hbefore _ _ hget
  omega

/-- **The epoch fence.** After an invalidation, a request that arrives waits for and receives only
the answers of work whose epoch was read after it. What a lookup finds is resident; a resident
entry that matches the filter was put there by such work only, and older work puts nothing there
any more. -/
theorem epoch_fence {config : CacheConfig} {hasher : Key → Nat} {past later : List Event} {ev : Event}
    {name : Option Name} {kind : Option RecordType} {scope : Option Scope} {s0 s1 : State}
    (hvalid : config.validate = true) (hpast : run (step P settings) (State.init hasher config) past = some s0)
    (hstep : step P settings s0 ev = some s1) (hop : ev.op = .invalidate name kind scope)
    (hlater : run (step P settings) s1 later = some s) :
    (∀ (r : Nat) (req : Request), s1.requests.length ≤ r → s.requests[r]? = some req → ∀ w, req.phase.work? = some w →
      ∃ work : Work, s.works[w]? = some work ∧ s1.requests.length ≤ work.owner) ∧
    (∀ pinned query outgoing now allowStale observe c' result hit,
      s.cache.lookupInner P pinned query outgoing now allowStale observe = some (c', result) → result.hit = some hit →
      ∃ i e hits, s.cache.Holds i e ∧ result = e.reply P s.cache.config query hits now) ∧
    (∀ i e, s.cache.Holds i e → (∃ w, (i, e, w) ∈ s.admitted) ∧
      (e.cleared (filterOf name kind scope) = true → ∀ w, (i, e, w) ∈ s.admitted →
        ∃ work : Work, s.works[w]? = some work ∧ s1.requests.length ≤ work.owner)) ∧
    ∀ i e w (work : Work), (i, e, w) ∈ s.admitted → s.works[w]? = some work →
      work.owner < s1.requests.length → (i, e, w) ∈ s1.admitted := by
  have h0 := sound_run (inv_init hasher hvalid) hpast
  have h1 := sound_step h0.inv hstep
  have h := sound_run h1.inv hlater
  obtain ⟨now, pinned, op⟩ := ev
  subst hop
  simp only [step, bind, Option.bind_eq_some_iff, Prod.exists] at hstep
  obtain ⟨cache, removed, hinvalidate, hs1⟩ := hstep
  obtain ⟨_, hepoch, hcleared⟩ := moved_invalidate h0.inv.cache hinvalidate
  have hcache : s1.cache = cache := by
    rw [← Option.some.inj hs1]
    rfl
  have hbefore : ∀ (r : Nat) (req : Request), s1.requests[r]? = some req → req.epoch < s1.cache.epoch := by
    intro r req hreq
    rw [← Option.some.inj hs1] at hreq
    have := h0.inv.requests r req hreq
    rw [hcache]
    omega
  refine ⟨fun r req hr hreq w hw => ?_, fun pinned query outgoing now allowStale observe c' result hit hlookup hhit => ?_,
    fun i e he => ⟨h.inv.resident i e he, fun hmatches w hm => ?_⟩, fun i e w work hm hwork howner => ?_⟩
  · obtain ⟨work, hwork, he⟩ := h.inv.joined r req hreq w hw
    exact ⟨work, hwork, owner_after h.inv h.later hbefore hwork (he ▸ h.later.arrived r req hreq hr)⟩
  · obtain ⟨c1, result1, hlookup1, _, _, hspec⟩ := lookupInner_spec P pinned query outgoing now allowStale observe
      h.inv.cache
    cases hlookup.symm.trans hlookup1
    obtain ⟨key, shard, e, hits, _, hs, he, hresult⟩ := hspec hit hhit
    exact ⟨_, e, hits, ⟨shard, hs, ((h.inv.cache.shards _ shard hs).mem_candidates.mp he).1.1⟩, hresult⟩
  · rcases h.later.admitted i e w hm with hold | ⟨work, hwork, he'⟩
    · obtain ⟨⟨shard, hs, hid⟩, _⟩ := h1.inv.admitted i e w hold
      exact absurd he (h.later.gone i shard hs e hid (hcache ▸ hcleared i e hmatches))
    · exact ⟨work, hwork, owner_after h.inv h.later hbefore hwork he'⟩
  · refine (h.later.admitted i e w hm).resolve_right ?_
    rintro ⟨work', hwork', he⟩
    cases hwork.symm.trans hwork'
    have := owner_after h.inv h.later hbefore hwork he
    omega

/-! ### Two requests and an invalidation -/

def sampleQueryWire : Bytes := [0, 0, 0, 0, 0, 1, 0, 0, 0, 0, 0, 0, 1, 97, 0, 0, 1, 0, 1]

/-- The sample codec, which also encodes the query. -/
def flightPlatform : Platform :=
  { samplePlatform with hickory := { samplePlatform.hickory with
      toVec := fun m =>
        if m = { sampleQuery.message with id := 0 } then some sampleQueryWire else samplePlatform.hickory.toVec m } }

def sampleSettings : Settings := ⟨⟨false, 24, 56⟩, {}⟩

def leads (r now : Nat) : List Event :=
  [{ now, op := .arrive sampleQuery (.ofV4 10 0 0 7) }, { now, op := .lookup r }, { now, op := .flights r },
    { now, op := .join r (fun _ => true) (fun _ => true) }]

def fetches (w now : Nat) : List Event :=
  [{ now, op := .poll w }, { now, op := .exchange w (some sampleResponse) none false }, { now, op := .store w }]

/-- While the first request's work is in flight its name is invalidated: a request for the same
name leads work of its own. -/
theorem epoch_fence_two_requests : ∃ s0 s1 s req work,
    run (step flightPlatform sampleSettings) (State.init (fun _ => 7) { shards := 1 }) (leads 0 0) = some s0 ∧
      step flightPlatform sampleSettings s0 { now := 1, op := .invalidate (some ⟨[[97]], true⟩) none none } = some s1 ∧
      run (step flightPlatform sampleSettings) s1 (leads 1 2 ++ fetches 0 3) = some s ∧
      s.requests[1]? = some req ∧ req.phase.work? = some 1 ∧ s.works[1]? = some work ∧ 1 ≤ work.owner := by
  have hshape : ((run (step flightPlatform sampleSettings) (State.init (fun _ => 7) { shards := 1 }) (leads 0 0)).bind
      fun s0 => (step flightPlatform sampleSettings s0
        { now := 1, op := .invalidate (some ⟨[[97]], true⟩) none none }).bind fun s1 =>
      (run (step flightPlatform sampleSettings) s1 (leads 1 2 ++ fetches 0 3)).map fun s =>
        (s1.requests.length, s.requests[1]?.map fun req => req.phase.work?)) = some (1, some (some 1)) := by
    decide +kernel
  obtain ⟨s0, hpast, hshape⟩ := Option.bind_eq_some_iff.mp hshape
  obtain ⟨s1, hstep, hshape⟩ := Option.bind_eq_some_iff.mp hshape
  obtain ⟨s, hlater, hshape⟩ := Option.map_eq_some_iff.mp hshape
  obtain ⟨hlength, hshape⟩ := Prod.mk.inj hshape
  obtain ⟨req, hreq, hwork⟩ := Option.map_eq_some_iff.mp hshape
  obtain ⟨work, hget, howner⟩ := (epoch_fence (by decide) hpast hstep rfl hlater).1 1 req hlength.le hreq 1 hwork
  exact ⟨s0, s1, s, req, work, hpast, hstep, hlater, hreq, hwork, hget, hlength ▸ howner⟩

/-- The invalidation of another name leaves an entry of the older epoch resident. -/
theorem older_entry_stays : ∃ s i e w work,
    run (step flightPlatform sampleSettings) (State.init (fun _ => 7) { shards := 1 })
        (leads 0 0 ++ fetches 0 0 ++ [{ now := 1, op := .invalidate (some ⟨[[98]], true⟩) none none }]) = some s ∧
      s.cache.Holds i e ∧ (i, e, w) ∈ s.admitted ∧ s.works[w]? = some work ∧ work.epoch < s.cache.epoch := by
  have hshape : (run (step flightPlatform sampleSettings) (State.init (fun _ => 7) { shards := 1 })
      (leads 0 0 ++ fetches 0 0 ++ [{ now := 1, op := .invalidate (some ⟨[[98]], true⟩) none none }])).map (fun s =>
        ((s.cache.shards.map fun shard => shard.entries.map Entry.id), s.works.map Work.epoch, s.cache.epoch)) =
      some ([[1]], [0], 1) := by decide +kernel
  obtain ⟨s, hrun, hshape⟩ := Option.map_eq_some_iff.mp hshape
  obtain ⟨hshards, hshape⟩ := Prod.mk.inj hshape
  obtain ⟨hworks, hepoch⟩ := Prod.mk.inj hshape
  obtain ⟨shard, hs, hids⟩ := map_eq_singleton_iff.mp hshards
  obtain ⟨e, he, _⟩ := map_eq_singleton_iff.mp hids
  obtain ⟨work, hwork, hzero⟩ := map_eq_singleton_iff.mp hworks
  have hheld : s.cache.Holds 0 e := ⟨shard, by rw [hs]; rfl, by rw [he]; exact mem_singleton_self e⟩
  have hinv := (sound_run (inv_init (fun _ => 7) (by decide)) hrun).inv
  obtain ⟨w, hm⟩ := hinv.resident 0 e hheld
  obtain ⟨_, work', hwork'⟩ := hinv.admitted 0 e w hm
  refine ⟨s, 0, e, w, work', hrun, hheld, hm, hwork', ?_⟩
  rw [hwork] at hwork'
  obtain rfl : work' = work := by simpa using mem_of_getElem? hwork'
  omega

end Parins.Resolver
