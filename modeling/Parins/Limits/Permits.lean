/-
The permits of a limiter in use. The table counts exactly the live permits of
each source, within the quotas, so no call and no drop panics.
-/
import Parins.Limits.Table

namespace Parins.Limits
open Net Lib Option

variable {settings : Settings} {s s' : State} {source k : IpNet} {kind : Kind} {now : Nat} {e e' : Entry}
  {live : List Permit} {u u' : InUse Limiter}

def State.inUse (s : State) (k : IpNet) (kind : Kind) : Nat := ((s.entries.lookup k).map (Entry.inUse kind)).getD 0

theorem inUse_of_lookup (h : s.entries.lookup k = some e) (kind) : s.inUse k kind = e.inUse kind := by
  simp [State.inUse, h]

theorem inUse_of_not_held (h : s.entries.lookup k = none) (kind) : s.inUse k kind = 0 := by
  simp [State.inUse, h]

theorem inUse_congr (h : s'.entries.lookup k = s.entries.lookup k) (kind) : s'.inUse k kind = s.inUse k kind := by
  simp [State.inUse, h]

structure Entry.Within (settings : Settings) (e : Entry) : Prop where
  credit : e.credit ≤ settings.cap
  quota : ∀ kind, e.inUse kind ≤ settings.quota kind

structure Table (settings : Settings) (s : State) (live : List Permit) : Prop where
  swept : Swept s.entries s.sweep
  size : s.size ≤ settings.maxSources
  counted : ∀ k kind, s.inUse k kind = live.count ⟨some (k, kind)⟩
  within : ∀ k e, s.entries.lookup k = some e → e.Within settings

theorem Entry.Within.refill (hcap : settings.cap < 2 ^ 64) (h : e.Within settings) (now) :
    (e.refill settings now).Within settings := by
  refine ⟨?_, fun kind => ?_⟩
  · rw [refill_eq hcap]
    exact Bucket.credit_refill_le h.credit
  · rw [refill_inUse]
    exact h.quota kind

theorem Entry.within_fresh (settings now) : (Entry.fresh settings now).Within settings :=
  ⟨le_refl _, fun kind => by cases kind <;> exact Nat.zero_le _⟩

theorem Charged.within (h : e.Within settings) (hcharged : Charged settings kind e e') : e'.Within settings := by
  refine ⟨?_, fun kind' => ?_⟩
  · have := hcharged.credit
    have := h.credit
    omega
  · rw [hcharged.inUse]
    have := h.quota kind'
    have := hcharged.quota
    split
    · next heq =>
      subst heq
      omega
    · omega

variable {visited : List IpNet}

theorem Scanned.entry (h : Scanned settings now visited s s' k) (he : s'.entries.lookup k = some e) :
    s.entries.lookup k = some e ∨ ∃ e0, s.entries.lookup k = some e0 ∧ e = e0.refill settings now := by
  rcases h with h | ⟨_, e0, he0, h | ⟨h, _⟩⟩
  · exact .inl (h.symm.trans he)
  · exact .inr ⟨e0, he0, Option.some.inj (he.symm.trans h)⟩
  · cases h.symm.trans he

theorem Scanned.inUse (h : Scanned settings now visited s s' k) (kind) : s'.inUse k kind = s.inUse k kind := by
  rcases h with h | ⟨_, e, he, h | ⟨h, hidle⟩⟩
  · exact inUse_congr h kind
  · rw [inUse_of_lookup h, inUse_of_lookup he, refill_inUse]
  · rw [inUse_of_not_held h, inUse_of_lookup he, ← refill_inUse settings e now kind, (idle_parts hidle).1]

namespace State.Acquires

variable {result : Except Denied Unit}
variable (h : s.Acquires settings source kind now s' result)
include h

theorem other (hk : k ≠ source) (he : s'.entries.lookup k = some e) :
    s.entries.lookup k = some e ∨ ∃ e0, s.entries.lookup k = some e0 ∧ e = e0.refill settings now := by
  rcases h.others k hk with hsame | ⟨_, hscanned⟩
  · exact .inl (hsame.symm.trans he)
  · exact hscanned.entry he

theorem inUse_other (hk : k ≠ source) (kind') :
    s'.inUse k kind' = s.inUse k kind' := by
  rcases h.others k hk with hsame | ⟨_, hscanned⟩
  · exact inUse_congr hsame kind'
  · exact hscanned.inUse kind'

theorem inUse_own (kind') :
    s'.inUse source kind' = s.inUse source kind' + if result = .ok () ∧ kind' = kind then 1 else 0 := by
  rcases h.own with ⟨hbefore, hafter, hresult⟩ | ⟨e, e', hbefore, hacquire, hafter⟩
  · rw [inUse_of_not_held hbefore, inUse_of_not_held hafter, hresult, if_neg (fun h => by cases h.1)]
  · have hold : s.inUse source kind' = e.inUse kind' := by
      rcases hbefore with h | ⟨h, rfl⟩
      · exact inUse_of_lookup h kind'
      · rw [inUse_of_not_held h]
        cases kind' <;> rfl
    rw [inUse_of_lookup hafter, hold, ← refill_inUse settings e now]
    rcases acquire_spec hacquire with ⟨hok, hcharged⟩ | ⟨d, herror, _, rfl⟩
    · rw [hcharged.inUse, hok]
      simp only [true_and]
    · rw [herror, if_neg (fun h => by cases h.1), Nat.add_zero]

theorem within (hcap : settings.cap < 2 ^ 64)
    (hwithin : ∀ k e, s.entries.lookup k = some e → e.Within settings) (he : s'.entries.lookup k = some e) :
    e.Within settings := by
  by_cases hk : k = source
  · subst hk
    rcases h.own with ⟨_, hafter, _⟩ | ⟨e0, e', hbefore, hacquire, hafter⟩
    · cases hafter.symm.trans he
    · cases hafter.symm.trans he
      have h0 : e0.Within settings := by
        rcases hbefore with h | ⟨_, rfl⟩
        · exact hwithin k e0 h
        · exact Entry.within_fresh settings now
      rcases acquire_spec hacquire with ⟨_, hcharged⟩ | ⟨_, _, _, rfl⟩
      · exact hcharged.within (h0.refill hcap now)
      · exact h0.refill hcap now
  · rcases h.other hk he with hold | ⟨e0, he0, rfl⟩
    · exact hwithin k e hold
    · exact (hwithin k e0 he0).refill hcap now

theorem table (hcap : settings.cap < 2 ^ 64)
    (ht : Table settings s live) :
    Table settings s' (if result = .ok () then ⟨some (source, kind)⟩ :: live else live) := by
  refine ⟨h.swept, h.size, fun k kind' => ?_, fun k e he => h.within hcap ht.within he⟩
  have hcount : (if result = .ok () then (⟨some (source, kind)⟩ : Permit) :: live else live).count ⟨some (k, kind')⟩ =
      live.count ⟨some (k, kind')⟩ + if result = .ok () ∧ k = source ∧ kind' = kind then 1 else 0 := by
    by_cases hok : result = .ok ()
    · simp only [hok, if_true, List.count_cons, true_and, beq_iff_eq, Permit.mk.injEq, Option.some.injEq, Prod.mk.injEq,
        @eq_comm _ source, @eq_comm _ kind]
    · simp only [hok, if_false, false_and, Nat.add_zero]
  rw [hcount, ← ht.counted]
  by_cases hk : k = source
  · subst hk
    rw [h.inUse_own]
    simp only [true_and]
  · rw [h.inUse_other hk, if_neg (fun h => hk h.2.1), Nat.add_zero]

end State.Acquires

/-! ## Drops -/

theorem release_spec (h : 0 < e.inUse kind) : ∃ e', e.release kind = some e' ∧ e'.toBucket = e.toBucket ∧
    ∀ kind', e'.inUse kind' = e.inUse kind' - if kind' = kind then 1 else 0 := by
  cases kind with
  | query =>
    have h : e.queries ≠ 0 := Nat.ne_of_gt h
    refine ⟨_, if_neg h, rfl, fun kind' => ?_⟩
    cases kind' <;> rfl
  | connection =>
    have h : e.connections ≠ 0 := Nat.ne_of_gt h
    refine ⟨_, if_neg h, rfl, fun kind' => ?_⟩
    cases kind' <;> rfl

theorem Table.drop (ht : Table settings s live) (hlive : ⟨some (k, kind)⟩ ∈ live) : ∃ e e',
    s.entries.lookup k = some e ∧ e.release kind = some e' ∧ e'.toBucket = e.toBucket ∧
      Table settings { s with entries := s.entries.insert k e' } (live.erase ⟨some (k, kind)⟩) := by
  have hpos : 0 < s.inUse k kind := by
    rw [ht.counted]
    exact List.count_pos_iff.mpr hlive
  cases he : s.entries.lookup k with
  | none =>
    rw [inUse_of_not_held he] at hpos
    cases hpos
  | some e =>
    rw [inUse_of_lookup he] at hpos
    obtain ⟨e', hrelease, hbucket, hinUse⟩ := release_spec hpos
    refine ⟨e, e', rfl, hrelease, hbucket, ht.swept.update he e', (keys_insert_held he e').length_eq.le.trans ht.size,
      fun k' kind' => ?_, fun k' e1 he1 => ?_⟩
    · rw [List.count_erase]
      by_cases hk : k' = k
      · subst hk
        have hafter : (State.mk (s.entries.insert k' e') s.sweep).entries.lookup k' = some e' := AList.lookup_insert _
        rw [inUse_of_lookup hafter, hinUse, ← inUse_of_lookup he, ht.counted]
        simp only [beq_iff_eq, Permit.mk.injEq, Option.some.injEq, Prod.mk.injEq, true_and, @eq_comm _ kind]
      · have hafter : (State.mk (s.entries.insert k e') s.sweep).entries.lookup k' = s.entries.lookup k' :=
          AList.lookup_insert_ne hk
        rw [inUse_congr hafter, ht.counted, if_neg, Nat.sub_zero]
        simp only [beq_iff_eq, Permit.mk.injEq, Option.some.injEq, Prod.mk.injEq]
        exact fun h => hk h.1.symm
    · by_cases hk : k' = k
      · subst hk
        cases (AList.lookup_insert s.entries).symm.trans he1
        refine ⟨?_, fun kind' => ?_⟩
        · rw [hbucket]
          exact (ht.within k' e he).credit
        · rw [hinUse]
          exact (Nat.sub_le _ _).trans ((ht.within k' e he).quota kind')
      · exact ht.within k' e1 ((AList.lookup_insert_ne hk).symm.trans he1)

/-! ## Runs -/

/-- What holds of a limiter in use, after any calls. -/
structure Sound (settings : Settings) (u : InUse Limiter) : Prop where
  configured : u.limiter.settings = settings
  enabled : u.limiter.state.isSome = settings.enabled
  ownerless : u.limiter.state = none → ∀ p ∈ u.live, p.owner = none
  table : ∀ s, u.limiter.state = some s → Table settings s u.live

theorem start_state (h : (start settings).limiter.state = some s) : s = {} := by
  cases henabled : settings.enabled with
  | false => simp [start, Limiter.new, henabled] at h
  | true =>
    simp only [start, Limiter.new, henabled, if_true, Option.some.injEq] at h
    exact h.symm

theorem sound_start (settings) : Sound settings (start settings) := by
  refine ⟨rfl, ?_, fun _ p hp => absurd hp List.not_mem_nil, fun s hs => ?_⟩
  · cases h : settings.enabled <;> simp [start, Limiter.new, h]
  · obtain rfl := start_state hs
    refine ⟨.refl _, Nat.zero_le _, fun k kind => rfl, fun k e he => ?_⟩
    cases he

/-- All that a call can do to a limiter in use. -/
inductive Stepped (settings : Settings) (u : InUse Limiter) : Call → InUse Limiter → Prop where
  /-- The limiter is disabled. -/
  | waved {peer : IpAddr} {kind : Kind} {now : Nat} : u.limiter.state = none →
      Stepped settings u (.acquire peer kind now)
        ⟨u.limiter, ⟨none⟩ :: u.live, u.log ++ [(.acquire peer kind now, .acquired (.ok ⟨none⟩))]⟩
  | acquires {peer : IpAddr} {kind : Kind} {now : Nat} {source : IpNet} {s s' : State} {result : Except Denied Unit} :
      u.limiter.state = some s → settings.source peer = some source → s.Acquires settings source kind now s' result →
      Stepped settings u (.acquire peer kind now)
        ⟨⟨settings, some s'⟩, if result = .ok () then ⟨some (source, kind)⟩ :: u.live else u.live,
          u.log ++ [(.acquire peer kind now, .acquired (result.map fun _ => ⟨some (source, kind)⟩))]⟩
  | drops {k : IpNet} {kind : Kind} {s : State} {e e' : Entry} : u.limiter.state = some s →
      ⟨some (k, kind)⟩ ∈ u.live → s.entries.lookup k = some e → e'.toBucket = e.toBucket →
      e.release kind = some e' →
      Table settings { s with entries := s.entries.insert k e' } (u.live.erase ⟨some (k, kind)⟩) →
      Stepped settings u (.drop ⟨some (k, kind)⟩)
        ⟨⟨settings, some { s with entries := s.entries.insert k e' }⟩, u.live.erase ⟨some (k, kind)⟩,
          u.log ++ [(.drop ⟨some (k, kind)⟩, .dropped)]⟩
  /-- A permit without an owner, or one that is not live. -/
  | forgets {p : Permit} : p.owner = none ∨ p ∉ u.live →
      Stepped settings u (.drop p) ⟨u.limiter, u.live.erase p, u.log ++ [(.drop p, .dropped)]⟩

theorem step_stepped (hvalid : settings.Valid) (h : Sound settings u) (call) :
    ∃ u', step u call = some u' ∧ Stepped settings u call u' := by
  cases call with
  | acquire peer kind now =>
    cases hs : u.limiter.state with
    | none =>
      refine ⟨_, ?_, .waved hs⟩
      simp only [step, InUse.step, Limiter.acquireAt, hs, bind_eq_bind, bind_some]
    | some s =>
      obtain ⟨source, hsource⟩ := hvalid.source_some peer
      obtain ⟨s', result, hacquire, hacquires⟩ :=
        acquire_acquires (h.table s hs).swept (h.table s hs).size source kind now
      refine ⟨_, ?_, .acquires hs hsource hacquires⟩
      simp only [step, InUse.step, Limiter.acquireAt, hs, h.configured, hsource, hacquire, bind_eq_bind,
        bind_some]
      cases result <;> rfl
  | drop p =>
    by_cases hlive : p ∈ u.live
    · obtain ⟨owner⟩ := p
      cases owner with
      | none =>
        refine ⟨_, ?_, .forgets (.inl rfl)⟩
        simp only [step, InUse.step, Limiter.drop, hlive, if_true, bind_eq_bind, bind_some]
      | some owner =>
        obtain ⟨k, kind⟩ := owner
        cases hs : u.limiter.state with
        | none => cases h.ownerless hs _ hlive
        | some s =>
          obtain ⟨e, e', he, hrelease, hbucket, ht⟩ := (h.table s hs).drop hlive
          refine ⟨_, ?_, .drops hs hlive he hbucket hrelease ht⟩
          simp only [step, InUse.step, Limiter.drop, hlive, if_true, hs, he, hrelease, h.configured, bind_eq_bind,
            bind_some]
    · refine ⟨_, ?_, .forgets (.inr hlive)⟩
      simp only [step, InUse.step, hlive, if_false, bind_eq_bind, bind_some]

variable {call : Call}

theorem Stepped.sound (hvalid : settings.Valid) (h : Sound settings u) (hstep : Stepped settings u call u') :
    Sound settings u' := by
  cases hstep with
  | waved hs =>
    refine ⟨h.configured, h.enabled, fun _ p hp => ?_, fun s hs' => ?_⟩
    · rcases List.mem_cons.mp hp with rfl | hp
      · rfl
      · exact h.ownerless hs p hp
    · cases hs.symm.trans hs'
  | acquires hs hsource hacquires =>
    refine ⟨rfl, ?_, fun hnone => (by cases hnone), fun s1 hs1 => ?_⟩
    · rw [← h.enabled, hs]
      rfl
    · cases hs1
      exact hacquires.table hvalid.cap_lt (h.table _ hs)
  | drops hs hlive he hbucket hrelease ht =>
    refine ⟨rfl, ?_, fun hnone => (by cases hnone), fun s1 hs1 => ?_⟩
    · rw [← h.enabled, hs]
      rfl
    · cases hs1
      exact ht
  | @forgets p hforget =>
    refine ⟨h.configured, h.enabled, fun hs q hq => h.ownerless hs q (List.mem_of_mem_erase hq), fun s hs => ?_⟩
    have ht := h.table s hs
    refine ⟨ht.swept, ht.size, fun k kind => ?_, ht.within⟩
    rw [ht.counted]
    rcases hforget with hnone | hout
    · rw [List.count_erase_of_ne]
      rintro rfl
      cases hnone
    · rw [List.erase_of_not_mem hout]

theorem Stepped.log (hstep : Stepped settings u call u') : ∃ a, u'.log = u.log ++ [(call, a)] := by
  cases hstep <;> exact ⟨_, rfl⟩

/-- **No call and no drop panics**, and the log has every call. -/
theorem run_sound (hvalid : settings.validate = .ok ()) (calls) :
    ∃ u, run step (start settings) calls = some u ∧ Sound settings u ∧ u.log.map Prod.fst = calls := by
  induction calls using List.reverseRecOn with
  | nil => exact ⟨_, rfl, sound_start settings, rfl⟩
  | append_singleton past call ih =>
    obtain ⟨u, hrun, hsound, hlog⟩ := ih
    obtain ⟨u', hu', hstep⟩ := step_stepped (Settings.valid hvalid) hsound call
    refine ⟨u', ?_, hstep.sound (Settings.valid hvalid) hsound, ?_⟩
    · rw [run_snoc, hrun, bind_some, hu']
    · obtain ⟨a, ha⟩ := hstep.log
      rw [ha, List.map_append, hlog]
      rfl

end Parins.Limits
