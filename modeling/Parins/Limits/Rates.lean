/-
The rate of a source. At the time of a call, what a source could spend before it
is what it can spend after it and the token it was granted; time adds at most
the rate. So over any window the grants are within the burst and what the window
adds, however often the source's entry was removed and made again.
-/
import Parins.Limits.Reclaim
import Mathlib.Algebra.Order.Field.Rat
import Mathlib.Tactic.Linarith
import Mathlib.Tactic.Ring

namespace Parins.Limits
open Net Lib List

variable {settings : Settings} {s s' : State} {source k : IpNet} {kind : Kind} {now t t' a b : Nat} {e : Entry}
  {u u' : InUse Limiter} {calls : List Call}

/-! ## What a source can spend -/

/-- The credit of a source at `t`: a source without an entry has all of it. -/
def State.level (settings : Settings) (s : State) (k : IpNet) (t : Nat) : Nat :=
  match s.entries.lookup k with
  | some e => e.toBucket.level settings.ratePerSec settings.cap t
  | none => settings.cap

theorem level_of_lookup (h : s.entries.lookup k = some e) (t) :
    s.level settings k t = e.toBucket.level settings.ratePerSec settings.cap t := by
  simp [State.level, h]

theorem level_of_not_held (h : s.entries.lookup k = none) (t) : s.level settings k t = settings.cap := by
  simp [State.level, h]

theorem level_congr (h : s'.entries.lookup k = s.entries.lookup k) (t) :
    s'.level settings k t = s.level settings k t := by
  simp [State.level, h]

theorem level_le_cap (hwithin : ∀ k e, s.entries.lookup k = some e → e.Within settings) (k t) :
    s.level settings k t ≤ settings.cap := by
  cases h : s.entries.lookup k with
  | none => exact (level_of_not_held h t).le
  | some e =>
    rw [level_of_lookup h]
    exact Bucket.credit_refill_le (hwithin k e h).credit

theorem level_add (settings : Settings) (s : State) (k) (h : t ≤ t') :
    s.level settings k t' ≤ s.level settings k t + (t' - t) * settings.ratePerSec := by
  cases he : s.entries.lookup k with
  | none =>
    rw [level_of_not_held he, level_of_not_held he]
    exact Nat.le_add_right _ _
  | some e =>
    rw [level_of_lookup he, level_of_lookup he]
    exact Bucket.level_le h

theorem Scanned.level (hcap : settings.cap < 2 ^ 64) {visited} (h : Scanned settings now visited s s' k) :
    s'.level settings k now = s.level settings k now := by
  rcases h with h | ⟨_, e, he, h | ⟨h, hidle⟩⟩
  · exact level_congr h now
  · rw [level_of_lookup h, level_of_lookup he, refill_eq hcap]
    exact Bucket.level_refill (le_refl now)
  · rw [level_of_not_held h, level_of_lookup he]
    rw [refill_eq hcap] at hidle
    exact (idle_parts hidle).2.symm

variable {result : Except Denied Unit}

/-- A call: its source pays for a query that is granted, and nobody else pays or gains. -/
theorem State.Acquires.level (hcap : settings.cap < 2 ^ 64)
    (h : s.Acquires settings source kind now s' result) (k) :
    s'.level settings k now + (if k = source ∧ kind = .query ∧ result = .ok () then TOKEN else 0) =
      s.level settings k now := by
  by_cases hk : k = source
  · subst hk
    rcases h.own with ⟨hbefore, hafter, rfl⟩ | ⟨e, e', hbefore, hacquire, hafter⟩
    · rw [level_of_not_held hbefore, level_of_not_held hafter, if_neg (fun h => by cases h.2.2), Nat.add_zero]
    · have hlevel : s.level settings k now = (e.refill settings now).credit := by
        rw [refill_eq hcap]
        rcases hbefore with h | ⟨h, rfl⟩
        · exact level_of_lookup h now
        · have hfresh : (Entry.fresh settings now).toBucket.refill settings.ratePerSec settings.cap now =
              (Entry.fresh settings now).toBucket := Bucket.refill_of_le (le_refl _)
          rw [level_of_not_held h, hfresh]
          rfl
      have hclock : now ≤ (e.refill settings now).updated := by
        rw [updated_refill hcap]
        exact le_max_right _ _
      rw [level_of_lookup hafter, hlevel]
      unfold Bucket.level
      rcases acquire_spec hacquire with ⟨rfl, hcharged⟩ | ⟨d, rfl, _, rfl⟩
      · rw [Bucket.refill_of_le (hclock.trans hcharged.updated.ge), ← hcharged.credit]
        simp only [true_and, and_true]
      · rw [Bucket.refill_of_le hclock, if_neg (fun h => by cases h.2.2), Nat.add_zero]
  · rw [if_neg (fun h => hk h.1), Nat.add_zero]
    rcases h.others k hk with hsame | ⟨_, hscanned⟩
    · exact level_congr hsame now
    · exact hscanned.level hcap

/-! ## Windows -/

/-- The call was a query of the source that was granted within the window. -/
def isGrant (settings : Settings) (k : IpNet) (a b : Nat) : Call × Answer → Bool
  | (.acquire peer .query now, .acquired (.ok _)) =>
    decide (settings.source peer = some k) && decide (a ≤ now) && decide (now ≤ b)
  | _ => false

/-- The query permits granted to the source within the window. -/
def granted (settings : Settings) (k : IpNet) (a b : Nat) (log : List (Call × Answer)) : Nat :=
  log.countP (isGrant settings k a b)

theorem granted_append (settings k a b log p) :
    granted settings k a b (log ++ [p]) = granted settings k a b log + if isGrant settings k a b p then 1 else 0 := by
  rw [granted, countP_append, countP_singleton]
  rfl

variable {call : Call} {x : Answer}

theorem isGrant_now (h : isGrant settings k a b (call, x) = true) :
    ∃ now, call.now? = some now ∧ a ≤ now ∧ now ≤ b := by
  unfold isGrant at h
  split at h
  · next peer now _ heq =>
    cases heq
    simp only [Bool.and_eq_true, decide_eq_true_eq] at h
    exact ⟨now, rfl, h.1.2, h.2⟩
  · cases h

theorem isGrant_congr (hb : ∀ now, call.now? = some now → now ≤ b) (hb' : ∀ now, call.now? = some now → now ≤ t) :
    isGrant settings k a b (call, x) = isGrant settings k a t (call, x) := by
  unfold isGrant
  split
  · next peer now _ heq =>
    cases heq
    simp only [hb now rfl, hb' now rfl]
  · rfl

def Until (calls : List Call) (t : Nat) : Prop := ∀ now ∈ calls.filterMap Call.now?, now ≤ t

variable {log : List (Call × Answer)}

theorem granted_congr (hb : Until (log.map Prod.fst) b) (ht : Until (log.map Prod.fst) t) :
    granted settings k a b log = granted settings k a t log := by
  refine countP_congr fun p hp => ?_
  obtain ⟨call, x⟩ := p
  have hmem : ∀ now, call.now? = some now → now ∈ (log.map Prod.fst).filterMap Call.now? := fun now h =>
    mem_filterMap.mpr ⟨call, mem_map.mpr ⟨_, hp, rfl⟩, h⟩
  rw [isGrant_congr (fun now h => hb now (hmem now h)) fun now h => ht now (hmem now h)]

theorem granted_before (hb : Until (log.map Prod.fst) t) (h : t < a) : granted settings k a b log = 0 := by
  refine countP_eq_zero.mpr fun p hp hgrant => ?_
  obtain ⟨call, x⟩ := p
  obtain ⟨now, hnow, hle, _⟩ := isGrant_now hgrant
  have := hb now (mem_filterMap.mpr ⟨call, mem_map.mpr ⟨_, hp, rfl⟩, hnow⟩)
  omega

/-- What a source was granted since `a` and what it can spend, from the last call on. -/
def Spent (settings : Settings) (u : InUse Limiter) : Prop :=
  ∀ s k a t, u.limiter.state = some s → Until (u.log.map Prod.fst) t → a ≤ t →
    granted settings k a t u.log * TOKEN + s.level settings k t ≤ settings.cap + (t - a) * settings.ratePerSec

def Windows (settings : Settings) (u : InUse Limiter) : Prop :=
  ∀ k a b, a ≤ b → granted settings k a b u.log * TOKEN ≤ settings.cap + (b - a) * settings.ratePerSec

theorem spent_start (settings) : Spent settings (start settings) := by
  intro s k a t hs _ _
  obtain rfl := start_state hs
  have hgranted : granted settings k a t (start settings).log = 0 := rfl
  rw [hgranted, Nat.zero_mul, Nat.zero_add]
  exact Nat.le_add_right settings.cap _

theorem Spent.after (hsound : Sound settings u') (hs : u'.limiter.state = some s)
    (huntil : Until (u'.log.map Prod.fst) now)
    (hnow : ∀ a, a ≤ now → granted settings k a now u'.log * TOKEN + s.level settings k now ≤
      settings.cap + (now - a) * settings.ratePerSec)
    (hle : now ≤ t) (hat : a ≤ t) :
    granted settings k a t u'.log * TOKEN + s.level settings k t ≤ settings.cap + (t - a) * settings.ratePerSec := by
  rcases Nat.lt_or_ge now a with hlt | hge
  · rw [granted_before huntil hlt]
    have := level_le_cap (hsound.table s hs).within k t
    omega
  · have huntil' : Until (u'.log.map Prod.fst) t := fun n hn => (huntil n hn).trans hle
    rw [granted_congr huntil' huntil]
    have hlevel := level_add settings s k hle
    have hcharged := hnow a hge
    have hsplit : (t - a) * settings.ratePerSec = (now - a) * settings.ratePerSec + (t - now) * settings.ratePerSec := by
      rw [← Nat.add_mul]
      congr 1
      omega
    omega

theorem until_append : Until (calls ++ [call]) t ↔ Until calls t ∧ ∀ now, call.now? = some now → now ≤ t := by
  unfold Until
  simp only [filterMap_append, mem_append, mem_filterMap, mem_singleton, exists_eq_left]
  constructor
  · intro h
    exact ⟨fun now hnow => h now (.inl hnow), fun now hnow => h now (.inr hnow)⟩
  · rintro ⟨hpast, hlast⟩ now (h | h)
    · exact hpast now h
    · exact hlast now h

theorem isGrant_acquires {peer} (hsource : settings.source peer = some source)
    (ha : a ≤ now) :
    isGrant settings k a now (.acquire peer kind now, .acquired (result.map fun _ => ⟨some (source, kind)⟩)) =
      decide (k = source ∧ kind = .query ∧ result = .ok ()) := by
  cases kind with
  | connection => simp [isGrant]
  | query =>
    cases result with
    | error d => simp [isGrant, Except.map]
    | ok _ =>
      simp only [isGrant, Except.map, hsource, Option.some.injEq, ha, le_refl, decide_true, Bool.and_true, and_true,
        @eq_comm _ source]

theorem isGrant_drop (settings k a b p x) : isGrant settings k a b (.drop p, x) = false := rfl

theorem Spent.drop {p} (h : Spent settings u) (hlog : u'.log = u.log ++ [(.drop p, .dropped)])
    (hlevel : ∀ s', u'.limiter.state = some s' → ∃ s, u.limiter.state = some s ∧
      ∀ k t, s'.level settings k t = s.level settings k t) : Spent settings u' := by
  intro s' k a t hs' huntil hat
  obtain ⟨s, hs, hsame⟩ := hlevel s' hs'
  rw [hlog, map_append] at huntil
  rw [hlog, granted_append, isGrant_drop, hsame]
  exact h s k a t hs (until_append.mp huntil).1 hat

theorem Stepped.spent (hvalid : settings.Valid) (hsound : Sound settings u) (h : Spent settings u)
    (horder : ∀ now, call.now? = some now → Until (u.log.map Prod.fst) now) (hstep : Stepped settings u call u') :
    Spent settings u' := by
  have hsound' := hstep.sound hvalid hsound
  cases hstep with
  | waved hs =>
    intro s k a t hs'
    cases hs.symm.trans hs'
  | @acquires peer kind now source s s' result hs hsource hacquires =>
    intro s1 k a t hs1 huntil hat
    obtain rfl := Option.some.inj hs1
    have hpast := horder now rfl
    rw [map_append] at huntil
    refine Spent.after hsound' rfl ?_ (fun a ha => ?_) ((until_append.mp huntil).2 now rfl) hat
    · rw [map_append]
      exact until_append.mpr ⟨hpast, fun n hn => (Option.some.inj hn).symm.le⟩
    · have hcharged := h s k a now hs hpast ha
      rw [← hacquires.level hvalid.cap_lt k] at hcharged
      rw [granted_append, isGrant_acquires hsource ha]
      simp only [decide_eq_true_eq]
      split at hcharged
      · next hgrant =>
        rw [if_pos hgrant, Nat.add_mul, Nat.one_mul]
        omega
      · next hgrant =>
        rw [if_neg hgrant]
        exact hcharged
  | @drops k' kind s e e' hs _ he hbucket _ _ =>
    refine h.drop rfl fun s' hs' => ⟨s, hs, fun k t => ?_⟩
    obtain rfl := Option.some.inj hs'
    by_cases hk : k = k'
    · subst hk
      have hafter : (State.mk (s.entries.insert k e') s.sweep).entries.lookup k = some e' := AList.lookup_insert _
      rw [level_of_lookup hafter, level_of_lookup he, hbucket]
    · exact level_congr (AList.lookup_insert_ne hk) t
  | forgets _ => exact h.drop rfl fun s hs => ⟨s, hs, fun _ _ => rfl⟩

theorem Stepped.windows (h : Windows settings u) (henabled : u'.limiter.state.isSome = true)
    (horder : ∀ now, call.now? = some now → Until (u.log.map Prod.fst) now) (hspent : Spent settings u')
    (hstep : Stepped settings u call u') : Windows settings u' := by
  intro k a b hab
  obtain ⟨s', hs'⟩ := Option.isSome_iff_exists.mp henabled
  obtain ⟨x, hlog⟩ := hstep.log
  by_cases hlate : ∃ now, call.now? = some now ∧ now ≤ b
  · -- The call is in the window or before it, and so is every earlier one.
    obtain ⟨now, hnow, hle⟩ := hlate
    have huntil : Until (u'.log.map Prod.fst) b := by
      rw [hlog, map_append]
      refine until_append.mpr ⟨fun n hn => (horder now hnow n hn).trans hle, fun n hn => ?_⟩
      rw [Option.some.inj (hn.symm.trans hnow)]
      exact hle
    exact (Nat.le_add_right _ _).trans (hspent s' k a b hs' huntil hab)
  · have hout : isGrant settings k a b (call, x) = false := by
      rw [Bool.eq_false_iff]
      intro hgrant
      obtain ⟨now, hnow, _, hle⟩ := isGrant_now hgrant
      exact hlate ⟨now, hnow, hle⟩
    rw [hlog, granted_append, hout]
    exact h k a b hab

theorem run_windows (hvalid : settings.validate = .ok ()) (henabled : settings.enabled = true) (horder : InOrder calls)
    (hrun : run step (start settings) calls = some u) : Windows settings u := by
  have hvalid := Settings.valid hvalid
  refine (run_induction (I := fun past u => InOrder past → u.log.map Prod.fst = past ∧ Sound settings u ∧
    Spent settings u ∧ Windows settings u) (fun _ => ⟨rfl, sound_start settings, spent_start settings, ?_⟩) ?_ hrun
    horder).2.2.2
  · intro k a b _
    exact (Nat.zero_mul TOKEN).le.trans (Nat.zero_le _)
  · intro past u call u' _ ih hu' horder
    unfold InOrder at horder
    rw [filterMap_append, pairwise_append] at horder
    obtain ⟨hlog, hsound, hspent, hwindows⟩ := ih horder.1
    obtain ⟨u1, hu1, hstep⟩ := step_stepped hvalid hsound call
    cases hu'.symm.trans hu1
    have hbefore : ∀ now, call.now? = some now → Until (u.log.map Prod.fst) now := by
      intro now hnow n hn
      rw [hlog] at hn
      exact horder.2.2 n hn now (mem_filterMap.mpr ⟨call, mem_singleton_self call, hnow⟩)
    have hsound' := hstep.sound hvalid hsound
    have hspent' := hstep.spent hvalid hsound hspent hbefore
    refine ⟨?_, hsound', hspent', hstep.windows hwindows (by rw [hsound'.enabled, henabled]) hbefore hspent'⟩
    obtain ⟨x, hx⟩ := hstep.log
    rw [hx, map_append, hlog]
    rfl

theorem Windows.tokens (h : Windows settings u) (k) (hab : a ≤ b) :
    (granted settings k a b u.log : ℚ) ≤ settings.burst + settings.ratePerSec * (((b : ℚ) - a) / 10 ^ 9) := by
  have hbound := h k a b hab
  unfold Settings.cap TOKEN at hbound
  have hbound : (granted settings k a b u.log : ℚ) * 1000000000 ≤
      settings.burst * 1000000000 + ((b : ℚ) - a) * settings.ratePerSec := by
    have hcast : ((b - a : Nat) : ℚ) = (b : ℚ) - a := Nat.cast_sub hab
    rw [← hcast]
    exact_mod_cast hbound
  have hscale : (settings.ratePerSec : ℚ) * (((b : ℚ) - a) / 10 ^ 9) =
      (((b : ℚ) - a) * settings.ratePerSec) / 1000000000 := by
    ring
  rw [hscale]
  linarith

/-- **The budgets of a source.** In every run of an enabled limiter, the live permits of a source are
within its quotas, credit is within the burst and never truncated, and the sweep queue lists the
table, which holds at most `max_sources`. When the timestamps never go back, the queries granted to a
source in any window are at most the burst and the rate times the window. -/
theorem source_budgets (hvalid : settings.validate = .ok ()) (henabled : settings.enabled = true) (calls : List Call) :
    ∃ u s, run step (start settings) calls = some u ∧ u.limiter.state = some s ∧
      (InOrder calls → ∀ k a b, a ≤ b →
        (granted settings k a b u.log : ℚ) ≤ settings.burst + settings.ratePerSec * (((b : ℚ) - a) / 10 ^ 9)) ∧
      (∀ k, u.live.count ⟨some (k, .query)⟩ ≤ settings.maxInflight ∧
        u.live.count ⟨some (k, .connection)⟩ ≤ settings.maxConnections) ∧
      (∀ k e, s.entries.lookup k = some e → e.credit ≤ settings.burst * 10 ^ 9 ∧
        ∀ now, e.updated < now → (e.refill settings now).credit =
          min (e.credit + (now - e.updated) * settings.ratePerSec) (settings.burst * 10 ^ 9)) ∧
      s.entries.keys.length ≤ settings.maxSources ∧ s.sweep.Perm s.entries.keys := by
  obtain ⟨u, hrun, hsound, _⟩ := run_sound hvalid calls
  have hsome : u.limiter.state.isSome = true := hsound.enabled.trans henabled
  obtain ⟨s, hs⟩ := Option.isSome_iff_exists.mp hsome
  have ht := hsound.table s hs
  have hquota : ∀ k kind, u.live.count ⟨some (k, kind)⟩ ≤ settings.quota kind := by
    intro k kind
    rw [← ht.counted]
    cases he : s.entries.lookup k with
    | none =>
      rw [inUse_of_not_held he]
      exact Nat.zero_le _
    | some e =>
      rw [inUse_of_lookup he]
      exact (ht.within k e he).quota kind
  refine ⟨u, s, hrun, hs, fun horder k a b hab => (run_windows hvalid henabled horder hrun).tokens k hab,
    fun k => ⟨hquota k .query, hquota k .connection⟩, fun k e he => ⟨(ht.within k e he).credit, fun now hnow => ?_⟩,
    ht.size, ht.swept⟩
  rw [refill_eq (Settings.valid hvalid).cap_lt, Bucket.refill_of_lt hnow]
  rfl

def burstCalls : List Call := [queryAt 1 0, queryAt 1 0, queryAt 1 0, queryAt 1 1000]

/-- A burst of two and a token each second: three are granted, the most that one second allows. -/
theorem source_budgets_burst : ∃ u, run step (start (tightSettings 2)) burstCalls = some u ∧
    granted (tightSettings 2) (sampleSource 1) 0 (1000 * 1000000) u.log = 3 ∧
    ((3 : Nat) : ℚ) ≤ (tightSettings 2).burst + (tightSettings 2).ratePerSec *
      (((1000 * 1000000 : Nat) : ℚ) - (0 : Nat)) / 10 ^ 9 ∧
    u.live.count ⟨some (sampleSource 1, .query)⟩ ≤ (tightSettings 2).maxInflight := by
  have hshape : (run step (start (tightSettings 2)) burstCalls).map
      (fun u => granted (tightSettings 2) (sampleSource 1) 0 (1000 * 1000000) u.log) = some 3 := by decide +kernel
  have hinorder : InOrder burstCalls := by
    unfold InOrder
    decide +kernel
  obtain ⟨u, hrun, hgranted⟩ := Option.map_eq_some_iff.mp hshape
  obtain ⟨u1, s, hrun1, _, hwindow, hlive, _⟩ :=
    source_budgets (show (tightSettings 2).validate = .ok () by decide +kernel) rfl burstCalls
  cases hrun.symm.trans hrun1
  have hbound := hwindow hinorder (sampleSource 1) 0 (1000 * 1000000) (Nat.zero_le _)
  rw [hgranted, ← mul_div_assoc] at hbound
  exact ⟨u, hrun, hgranted, hbound, (hlive (sampleSource 1)).1⟩

/-- The settings as they are by default, with a burst of one: the limiter is disabled. -/
def disabledSettings : Settings := { burst := 1 }

/-- A disabled limiter grants every query: two at once here. -/
theorem disabled_limiter_unbounded : ∃ u, disabledSettings.validate = .ok () ∧ InOrder [queryAt 1 0, queryAt 1 0] ∧
    run step (start disabledSettings) [queryAt 1 0, queryAt 1 0] = some u ∧
    granted disabledSettings (sampleSource 1) 0 0 u.log = 2 ∧
    ¬((2 : Nat) : ℚ) ≤
      disabledSettings.burst + disabledSettings.ratePerSec * ((((0 : Nat) : ℚ) - (0 : Nat)) / 10 ^ 9) := by
  have hshape : (run step (start disabledSettings) [queryAt 1 0, queryAt 1 0]).map
      (fun u => granted disabledSettings (sampleSource 1) 0 0 u.log) = some 2 := by decide +kernel
  obtain ⟨u, hrun, hgranted⟩ := Option.map_eq_some_iff.mp hshape
  refine ⟨u, by decide +kernel, ?_, hrun, hgranted, ?_⟩
  · unfold InOrder
    decide +kernel
  · simp [disabledSettings]

end Parins.Limits
