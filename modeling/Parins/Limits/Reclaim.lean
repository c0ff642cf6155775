/-
Reclaiming entries cannot be seen. The reference limiter keeps every source it
has met; the real one gives the same answers as long as no call of a source was
captured before a scan, or before the source's own clock at that scan, that may
have looked at its entry. Timestamps captured in any other order do not matter.
-/
import Parins.Limits.Permits

namespace Parins.Limits
open Net Lib List Option

/-! ## The reference -/

/-- The limiter with a table that never forgets. -/
structure Reference where
  settings : Settings
  table : IpNet → Option Entry

namespace Reference

def acquireAt (r : Reference) (peer : IpAddr) (kind : Kind) (now : Nat) : Option (Reference × Except Denied Permit) :=
  if r.settings.enabled then do
    let source ← r.settings.source peer
    let e := ((r.table source).getD (.fresh r.settings now)).refill r.settings now
    let (e, result) := e.acquire r.settings kind
    some ({ r with table := Function.update r.table source (some e) }, result.map fun _ => ⟨some (source, kind)⟩)
  else some (r, .ok ⟨none⟩)

def drop (r : Reference) (p : Permit) : Option Reference :=
  match p.owner with
  | none => some r
  | some (source, kind) => do
    let e ← r.table source
    let e ← e.release kind
    some { r with table := Function.update r.table source (some e) }

def step : InUse Reference → Call → Option (InUse Reference) := InUse.step acquireAt drop

def start (settings : Settings) : InUse Reference := { limiter := ⟨settings, fun _ => none⟩ }

end Reference

/-- The calls that were not answered with a full table. -/
def kept (log : List (Call × Answer)) : List (Call × Answer) :=
  log.filter fun p => p.2 ≠ .acquired (.error .tableFull)

/-- No later call of the source was captured before `t`. -/
def Later (settings : Settings) (k : IpNet) (later : List Call) (t : Nat) : Prop :=
  ∀ peer kind now, .acquire peer kind now ∈ later → settings.source peer = some k → t ≤ now

/-- No call of a source was captured before a scan that could reach its entry, or before the
entry's clock at that scan. -/
def Orderly (settings : Settings) (calls : List Call) : Prop :=
  ∀ past peer kind now later u s source, calls = past ++ .acquire peer kind now :: later →
    run step (start settings) past = some u → u.limiter.state = some s → settings.source peer = some source →
    s.Scans settings source → ∀ k ∈ s.sweep.take RECLAIM_SCAN, ∀ e, s.entries.lookup k = some e →
    Later settings k later (max now e.updated)

/-! ## One source -/

variable {settings : Settings} {s s' : State} {source k : IpNet} {kind : Kind} {now : Nat} {e f : Entry}
  {later later' : Nat → Prop} {held known : Option Entry}

/-- The entry of a source here and in the reference, given the times that no later call is before. -/
inductive Matches (settings : Settings) (later : Nat → Prop) : Option Entry → Option Entry → Prop where
  | unseen : Matches settings later none none
  | same (e : Entry) : Matches settings later (some e) (some e)
  /-- A scan has refilled the entry. -/
  | ahead (f : Entry) (t : Nat) : later t → Matches settings later (some (f.refill settings t)) (some f)
  /-- A scan has removed the entry. -/
  | reclaimed (f : Entry) (t : Nat) : later t → f.updated ≤ t → (f.refill settings t).idle settings = true →
      Matches settings later none (some f)

theorem Matches.mono (h : Matches settings later held known) (hlater : ∀ t, later t → later' t) :
    Matches settings later' held known := by
  cases h with
  | unseen => exact .unseen
  | same e => exact .same e
  | ahead f t ht => exact .ahead f t (hlater t ht)
  | reclaimed f t ht hle hidle => exact .reclaimed f t (hlater t ht) hle hidle

section
variable (hcap : settings.cap < 2 ^ 64)
include hcap

theorem updated_refill (e : Entry) (t) :
    (e.refill settings t).updated = max e.updated t := by
  rw [refill_eq hcap]
  exact Bucket.updated_refill _ _

theorem Matches.scanned (h : Matches settings later (some e) known)
    (hlater : later (max now e.updated)) (hmax : ∀ t t', later t → later t' → later (max t t'))
    (hmono : ∀ t t', t ≤ t' → later t' → later t) : Matches settings later (some (e.refill settings now)) known ∧
      ((e.refill settings now).idle settings = true → Matches settings later none known) := by
  have hnow : later now := hmono _ _ (le_max_left _ _) hlater
  cases h with
  | same =>
    refine ⟨.ahead e now hnow, fun hidle => .reclaimed e _ hlater (le_max_right _ _) ?_⟩
    rw [refill_max_updated hcap]
    exact hidle
  | ahead f t ht =>
    rw [updated_refill hcap] at hlater
    rw [refill_refill hcap]
    refine ⟨.ahead f _ (hmax _ _ ht hnow), fun hidle => .reclaimed f _ hlater ?_ ?_⟩
    · exact (le_max_left f.updated t).trans (le_max_right _ _)
    · have hsame : max now (max f.updated t) = max (max t now) f.updated := by omega
      rw [hsame, refill_max_updated hcap]
      exact hidle

theorem Matches.refilled (h : Matches settings later held known)
    (hnow : ∀ t, later t → t ≤ now) :
    (held.getD (.fresh settings now)).refill settings now = (known.getD (.fresh settings now)).refill settings now := by
  cases h with
  | unseen => rfl
  | same => rfl
  | ahead f t ht =>
    simp only [getD_some]
    rw [refill_refill hcap, max_eq_right (hnow t ht)]
  | reclaimed f t ht hle hidle =>
    have hfull : (f.refill settings t).refill settings now = .fresh settings now := by
      refine refill_idle hcap hidle ?_
      rw [updated_refill hcap, max_eq_right hle]
      exact hnow t ht
    rw [refill_refill hcap, max_eq_right (hnow t ht)] at hfull
    simp only [getD_some, getD_none]
    rw [hfull, fresh_refill]

theorem release_refill (e : Entry) (t kind) :
    (e.refill settings t).release kind = (e.release kind).map fun e' => e'.refill settings t := by
  simp only [refill_eq hcap]
  unfold Entry.release
  cases kind with
  | query =>
    dsimp only
    split <;> rfl
  | connection =>
    dsimp only
    split <;> rfl

variable {e' : Entry}

theorem Matches.released (h : Matches settings later (some e) known)
    (hrelease : e.release kind = some e') :
    ∃ f f', known = some f ∧ f.release kind = some f' ∧ Matches settings later (some e') (some f') := by
  cases h with
  | same => exact ⟨e, e', rfl, hrelease, .same e'⟩
  | ahead f t ht =>
    rw [release_refill hcap, map_eq_some_iff] at hrelease
    obtain ⟨f', hf', rfl⟩ := hrelease
    exact ⟨f, f', rfl, hf', .ahead f' t ht⟩

end

/-! ## Runs -/

variable {u u' : InUse Limiter} {r : InUse Reference} {calls : List Call} {t t' : Nat}

theorem Later.max {calls} (h : Later settings k calls t) (h' : Later settings k calls t') :
    Later settings k calls (max t t') := fun peer kind now hmem hsource =>
  max_le (h peer kind now hmem hsource) (h' peer kind now hmem hsource)

theorem Later.of_le (hle : t ≤ t') (h : Later settings k calls t') : Later settings k calls t :=
  fun peer kind now hmem hsource => hle.trans (h peer kind now hmem hsource)

variable {call : Call}

theorem Later.tail (h : Later settings k (call :: calls) t) : Later settings k calls t :=
  fun peer kind now hmem hsource => h peer kind now (mem_cons_of_mem _ hmem) hsource

/-- The limiter in use and the reference, before the calls in `calls`. -/
structure Simulates (settings : Settings) (calls : List Call) (u : InUse Limiter) (r : InUse Reference) : Prop where
  configured : r.limiter.settings = settings
  live : r.live = u.live
  log : r.log = kept u.log
  entries : ∀ s, u.limiter.state = some s → ∀ k,
    Matches settings (Later settings k calls) (s.entries.lookup k) (r.limiter.table k)

theorem kept_append (log log') : kept (log ++ log') = kept log ++ kept log' :=
  filter_append _ _

theorem kept_one {a} (h : a ≠ .acquired (.error .tableFull)) : kept [(call, a)] = [(call, a)] := by
  simp [kept, h]

/-- The scan condition of one call. -/
def ScansInOrder (settings : Settings) (u : InUse Limiter) (call : Call) (calls : List Call) : Prop :=
  ∀ peer kind now s source, call = .acquire peer kind now → u.limiter.state = some s →
    settings.source peer = some source → s.Scans settings source → ∀ k ∈ s.sweep.take RECLAIM_SCAN, ∀ e,
    s.entries.lookup k = some e → Later settings k calls (max now e.updated)

variable {result : Except Denied Unit} {peer : IpAddr}

theorem State.Acquires.matches_other (hcap : settings.cap < 2 ^ 64)
    (h : s.Acquires settings source kind now s' result) (hs : u.limiter.state = some s)
    (hsource : settings.source peer = some source)
    (horder : ScansInOrder settings u (.acquire peer kind now) calls) (hk : k ≠ source)
    (hm : Matches settings (Later settings k (.acquire peer kind now :: calls)) (s.entries.lookup k) known) :
    Matches settings (Later settings k calls) (s'.entries.lookup k) known := by
  have hm := hm.mono fun t => Later.tail
  rcases h.others k hk with hsame | ⟨hscans, hsame | ⟨hvisited, e, he, hafter⟩⟩
  · rw [hsame]
    exact hm
  · rw [hsame]
    exact hm
  · rw [he] at hm
    obtain ⟨hrefilled, hremoved⟩ := hm.scanned hcap (horder peer kind now s source rfl hs hsource hscans k hvisited e he)
      (fun _ _ => Later.max) (fun _ _ => Later.of_le)
    rcases hafter with hafter | ⟨hafter, hidle⟩
    · rw [hafter]
      exact hrefilled
    · rw [hafter]
      exact hremoved hidle

/-- The reference after the calls of `log`. -/
def Follows (settings : Settings) (calls : List Call) (r : InUse Reference) (u' : InUse Limiter)
    (log : List (Call × Answer)) : Prop :=
  ∃ r', run Reference.step r ((kept log).map Prod.fst) = some r' ∧ Simulates settings calls u' r'

theorem run_one {σ ε : Type} {step} {x y : σ} {c : ε} (h : step x c = some y) : run step x [c] = some y := by
  simp [run, h]

theorem Simulates.acquires (hcap : settings.cap < 2 ^ 64)
    (h : Simulates settings (.acquire peer kind now :: calls) u r) (hs : u.limiter.state = some s)
    (henabled : settings.enabled = true) (hsource : settings.source peer = some source)
    (hacquires : s.Acquires settings source kind now s' result)
    (horder : ScansInOrder settings u (.acquire peer kind now) calls) : Follows settings calls r
      ⟨⟨settings, some s'⟩, if result = .ok () then ⟨some (source, kind)⟩ :: u.live else u.live,
        u.log ++ [(.acquire peer kind now, .acquired (result.map fun _ => ⟨some (source, kind)⟩))]⟩
      [(.acquire peer kind now, .acquired (result.map fun _ => ⟨some (source, kind)⟩))] := by
  have hothers : ∀ k, k ≠ source → Matches settings (Later settings k calls) (s'.entries.lookup k) (r.limiter.table k) :=
    fun k hk => hacquires.matches_other hcap hs hsource horder hk (h.entries s hs k)
  have hown := h.entries s hs source
  rcases hacquires.own with ⟨hbefore, hafter, rfl⟩ | ⟨e, e', hbefore, hacquire, hafter⟩
  · -- A full table: the reference is not asked.
    refine ⟨r, rfl, h.configured, h.live, ?_, fun s1 hs1 k => ?_⟩
    · rw [kept_append, h.log]
      exact (append_nil _).symm
    · cases hs1
      by_cases hk : k = source
      · subst hk
        rw [hafter, ← hbefore]
        exact hown.mono fun t => Later.tail
      · exact hothers k hk
  · have he : (s.entries.lookup source).getD (.fresh settings now) = e := by
      rcases hbefore with h | ⟨h, rfl⟩ <;> rw [h] <;> rfl
    have hsame : e.refill settings now =
        ((r.limiter.table source).getD (.fresh settings now)).refill settings now := by
      rw [← hown.refilled hcap fun t ht => ht peer kind now mem_cons_self hsource, he]
    have hanswer : Answer.acquired (result.map fun _ => (⟨some (source, kind)⟩ : Permit)) ≠
      .acquired (.error .tableFull) := by
      rcases acquire_spec hacquire with ⟨rfl, _⟩ | ⟨d, rfl, hd, _⟩
      · simp [Except.map]
      · simpa [Except.map] using hd
    refine ⟨⟨⟨settings, Function.update r.limiter.table source (some e')⟩,
      if result = .ok () then ⟨some (source, kind)⟩ :: r.live else r.live,
      r.log ++ [(.acquire peer kind now, .acquired (result.map fun _ => ⟨some (source, kind)⟩))]⟩, ?_, rfl, ?_, ?_,
      fun s1 hs1 k => ?_⟩
    · rw [kept_one hanswer]
      refine run_one ?_
      simp only [Reference.step, InUse.step, Reference.acquireAt, h.configured, henabled, if_true, hsource, ← hsame,
        hacquire, bind_eq_bind, bind_some]
      cases result <;> rfl
    · rw [h.live]
    · rw [kept_append, kept_one hanswer, h.log]
    · cases hs1
      by_cases hk : k = source
      · subst hk
        dsimp only
        rw [hafter, Function.update_self]
        exact .same e'
      · dsimp only
        rw [Function.update_of_ne hk]
        exact hothers k hk

theorem Simulates.drops (hcap : settings.cap < 2 ^ 64)
    (h : Simulates settings (.drop ⟨some (k, kind)⟩ :: calls) u r) (hs : u.limiter.state = some s)
    (hlive : ⟨some (k, kind)⟩ ∈ u.live) (he : s.entries.lookup k = some e) (hrelease : e.release kind = some e') :
    Follows settings calls r
      ⟨⟨settings, some { s with entries := s.entries.insert k e' }⟩, u.live.erase ⟨some (k, kind)⟩,
        u.log ++ [(.drop ⟨some (k, kind)⟩, .dropped)]⟩ [(.drop ⟨some (k, kind)⟩, .dropped)] := by
  have hown := h.entries s hs k
  rw [he] at hown
  obtain ⟨f, f', hf, hf', hmatch⟩ := hown.released hcap hrelease
  refine ⟨⟨⟨settings, Function.update r.limiter.table k (some f')⟩, r.live.erase ⟨some (k, kind)⟩,
    r.log ++ [(.drop ⟨some (k, kind)⟩, .dropped)]⟩, ?_, rfl, ?_, ?_, fun s1 hs1 k' => ?_⟩
  · rw [kept_one (by simp)]
    refine run_one ?_
    simp only [Reference.step, InUse.step, Reference.drop, h.live, h.configured, hlive, if_true, hf, hf',
      bind_eq_bind, bind_some]
  · rw [h.live]
  · rw [kept_append, kept_one (by simp), h.log]
  · cases hs1
    by_cases hk : k' = k
    · subst hk
      dsimp only
      rw [AList.lookup_insert, Function.update_self]
      exact hmatch.mono fun t => Later.tail
    · dsimp only
      rw [AList.lookup_insert_ne hk, Function.update_of_ne hk]
      exact (h.entries s hs k').mono fun t => Later.tail

/-- **One call.** The reference follows, unless the table was full. -/
theorem Stepped.simulates (hcap : settings.cap < 2 ^ 64) (hsound : Sound settings u)
    (h : Simulates settings (call :: calls) u r) (hstep : Stepped settings u call u')
    (horder : ScansInOrder settings u call calls) :
    ∃ a, u'.log = u.log ++ [(call, a)] ∧ Follows settings calls r u' [(call, a)] := by
  cases hstep with
  | @waved peer kind now hs =>
    have henabled : settings.enabled = false := by
      rw [← hsound.enabled, hs]
      rfl
    refine ⟨_, rfl, ⟨r.limiter, ⟨none⟩ :: r.live, r.log ++ [(.acquire peer kind now, .acquired (.ok ⟨none⟩))]⟩, ?_,
      h.configured, by rw [h.live], ?_, fun s hs' => ?_⟩
    · rw [kept_one (by simp)]
      refine run_one ?_
      simp [Reference.step, InUse.step, Reference.acquireAt, h.configured, henabled]
    · rw [kept_append, kept_one (by simp), h.log]
    · cases hs.symm.trans hs'
  | acquires hs hsource hacquires =>
    have henabled : settings.enabled = true := by
      rw [← hsound.enabled, hs]
      rfl
    exact ⟨_, rfl, h.acquires hcap hs henabled hsource hacquires horder⟩
  | drops hs hlive he _ hrelease _ => exact ⟨_, rfl, h.drops hcap hs hlive he hrelease⟩
  | @forgets p hforget =>
    refine ⟨_, rfl, ⟨r.limiter, r.live.erase p, r.log ++ [(.drop p, .dropped)]⟩, ?_, h.configured, by rw [h.live], ?_,
      fun s hs k => (h.entries s hs k).mono fun t => Later.tail⟩
    · rw [kept_one (by simp)]
      refine run_one ?_
      simp only [Reference.step, InUse.step, h.live, bind_eq_bind, bind_some]
      rcases hforget with hnone | hout
      · simp only [Reference.drop, hnone, bind_some, ite_self]
      · rw [if_neg hout]
    · rw [kept_append, kept_one (by simp), h.log]

theorem run_simulates (hvalid : settings.validate = .ok ()) (horder : Orderly settings calls) (past later)
    (hsplit : calls = past ++ later) : ∃ u r, run step (start settings) past = some u ∧ Sound settings u ∧
      run Reference.step (Reference.start settings) ((kept u.log).map Prod.fst) = some r ∧
      Simulates settings later u r := by
  have hcap := (Settings.valid hvalid).cap_lt
  induction past using List.reverseRecOn generalizing later with
  | nil =>
    refine ⟨_, _, rfl, sound_start settings, rfl, rfl, rfl, rfl, fun s hs k => ?_⟩
    obtain rfl := start_state hs
    exact .unseen
  | append_singleton past call ih =>
    obtain ⟨u, r, hrun, hsound, href, hsim⟩ := ih (call :: later) (by rw [hsplit, append_assoc]; rfl)
    obtain ⟨u', hu', hstep⟩ := step_stepped (Settings.valid hvalid) hsound call
    have hscans : ScansInOrder settings u call later := by
      rintro peer kind now s source rfl hs hsource hscans
      exact horder past peer kind now later u s source (by rw [hsplit, append_assoc]; rfl) hrun hs hsource hscans
    obtain ⟨a, hlog, r', hr', hsim'⟩ := hstep.simulates hcap hsound hsim hscans
    refine ⟨u', r', ?_, hstep.sound (Settings.valid hvalid) hsound, ?_, hsim'⟩
    · rw [run_snoc, hrun, bind_some, hu']
    · rw [hlog, kept_append, map_append, run_append, href, bind_some, hr']

/-! ## Calls in order -/

def Call.now? : Call → Option Nat
  | .acquire _ _ now => some now
  | .drop _ => none

def InOrder (calls : List Call) : Prop := (calls.filterMap Call.now?).Pairwise (· ≤ ·)

/-- Every clock of the table is the timestamp of some call. -/
def Clocked (calls : List Call) (u : InUse Limiter) : Prop :=
  ∀ s k e, u.limiter.state = some s → s.entries.lookup k = some e → e.updated ∈ calls.filterMap Call.now?

theorem Stepped.clocked (hcap : settings.cap < 2 ^ 64) (h : Clocked calls u)
    (hstep : Stepped settings u call u') : Clocked (calls ++ [call]) u' := by
  intro s1 k e1 hs1 he1
  rw [filterMap_append, mem_append]
  cases hstep with
  | waved hs => cases hs.symm.trans hs1
  | @acquires peer kind now source s s' result hs hsource hacquires =>
    obtain rfl := Option.some.inj hs1
    -- A refill leaves the old clock or sets the call's.
    have hrefill : ∀ {e : Entry}, s.entries.lookup k = some e →
        (e.refill settings now).updated ∈ calls.filterMap Call.now? ∨
          (e.refill settings now).updated ∈ [Call.acquire peer kind now].filterMap Call.now? := by
      intro e he
      rw [updated_refill hcap]
      rcases max_choice e.updated now with hmax | hmax <;> rw [hmax]
      · exact .inl (h s k e hs he)
      · exact .inr (mem_singleton_self now)
    by_cases hk : k = source
    · subst hk
      rcases hacquires.own with ⟨_, hafter, _⟩ | ⟨e, e', hbefore, hacquire, hafter⟩
      · cases hafter.symm.trans he1
      · cases hafter.symm.trans he1
        have hclock : e1.updated = (e.refill settings now).updated := by
          rcases acquire_spec hacquire with ⟨_, hcharged⟩ | ⟨_, _, _, rfl⟩
          · exact hcharged.updated
          · rfl
        rw [hclock]
        rcases hbefore with hheld | ⟨_, rfl⟩
        · exact hrefill hheld
        · rw [fresh_refill]
          exact .inr (mem_singleton_self now)
    · rcases hacquires.other hk he1 with hold | ⟨e, he, rfl⟩
      · exact .inl (h s k e1 hs hold)
      · exact hrefill he
  | @drops k' kind s e e' hs _ he hbucket _ _ =>
    cases hs1
    by_cases hk : k = k'
    · subst hk
      cases (AList.lookup_insert s.entries).symm.trans he1
      rw [hbucket]
      exact .inl (h s k e hs he)
    · exact .inl (h s k e1 hs ((AList.lookup_insert_ne hk).symm.trans he1))
  | forgets _ => exact .inl (h s1 k e1 hs1 he1)

theorem Orderly.of_inOrder (hvalid : settings.validate = .ok ()) (h : InOrder calls) : Orderly settings calls := by
  intro past peer kind now later u s source hsplit hrun hs _ _ k _ e he peer' kind' now' hmem _
  have hclocked : Clocked past u := by
    refine (run_induction (I := fun past u => Sound settings u ∧ Clocked past u) ⟨sound_start settings, ?_⟩ ?_ hrun).2
    · intro s k e hs he
      obtain rfl := start_state hs
      cases he
    · rintro past u call u' _ ⟨hsound, hclocked⟩ hu'
      obtain ⟨u1, hu1, hstep⟩ := step_stepped (Settings.valid hvalid) hsound call
      cases hu'.symm.trans hu1
      exact ⟨hstep.sound (Settings.valid hvalid) hsound, hstep.clocked (Settings.valid hvalid).cap_lt hclocked⟩
  have hmem' : now' ∈ later.filterMap Call.now? := mem_filterMap.mpr ⟨_, hmem, rfl⟩
  unfold InOrder at h
  rw [hsplit, filterMap_append, pairwise_append] at h
  obtain ⟨_, hafter, hpast⟩ := h
  refine max_le ?_ (hpast _ (hclocked s k e hs he) _ ?_)
  · exact (pairwise_cons.mp hafter).1 now' hmem'
  · exact mem_cons_of_mem _ hmem'

/-- **Reclamation is invisible.** No call and no drop panics. When no call of a source was captured
before a scan that could reach its entry — in particular when the timestamps never go back — every
answer but a full table is the reference's, which is fed the same calls except those. -/
theorem reclamation_invisible (hvalid : settings.validate = .ok ()) (calls : List Call) :
    (InOrder calls → Orderly settings calls) ∧
    ∃ u, run step (start settings) calls = some u ∧ u.log.map Prod.fst = calls ∧
      (Orderly settings calls →
        ∃ r, run Reference.step (Reference.start settings) ((kept u.log).map Prod.fst) = some r ∧ r.log = kept u.log) := by
  refine ⟨Orderly.of_inOrder hvalid, ?_⟩
  obtain ⟨u, hrun, _, hlog⟩ := run_sound hvalid calls
  refine ⟨u, hrun, hlog, fun horder => ?_⟩
  obtain ⟨u1, r, hrun1, _, href, hsim⟩ := run_simulates hvalid horder calls [] (append_nil _).symm
  cases hrun.symm.trans hrun1
  exact ⟨r, href, hsim.log⟩

def samplePeer (last : Fin 256) : IpAddr := .ofV4 192 0 2 last

/-- The network of a sample peer. -/
def sampleSource (last : Fin 256) : IpNet := ⟨samplePeer last, 32, Nat.le_refl 32⟩

/-- A table for one source, and one token each second. -/
def tightSettings (burst : Nat) : Settings := { enabled := true, ratePerSec := 1, burst := burst, maxSources := 1 }

def queryAt (last : Fin 256) (millis : Nat) : Call := .acquire (samplePeer last) .query (millis * 1000000)

/-- The debt of a source outlives the other's attempt to take its place, until it is paid. -/
def debtCalls : List Call :=
  [queryAt 1 0, .drop ⟨some (sampleSource 1, .query)⟩, queryAt 2 999, queryAt 1 999, queryAt 2 1000, queryAt 1 1000]

theorem reclamation_invisible_debt : ∃ u r, run step (start (tightSettings 1)) debtCalls = some u ∧
    run Reference.step (Reference.start (tightSettings 1)) ((kept u.log).map Prod.fst) = some r ∧ r.log = kept u.log ∧
    u.log.map Prod.snd = [.acquired (.ok ⟨some (sampleSource 1, .query)⟩), .dropped, .acquired (.error .tableFull),
      .acquired (.error .rate), .acquired (.ok ⟨some (sampleSource 2, .query)⟩), .acquired (.error .tableFull)] := by
  have hanswers : (run step (start (tightSettings 1)) debtCalls).map (fun u => u.log.map Prod.snd) =
      some [.acquired (.ok ⟨some (sampleSource 1, .query)⟩), .dropped, .acquired (.error .tableFull),
        .acquired (.error .rate), .acquired (.ok ⟨some (sampleSource 2, .query)⟩), .acquired (.error .tableFull)] := by
    decide +kernel
  have hinorder : InOrder debtCalls := by
    unfold InOrder
    decide +kernel
  obtain ⟨u, hrun, hlog⟩ := map_eq_some_iff.mp hanswers
  obtain ⟨horderly, u1, hrun1, _, hsame⟩ :=
    reclamation_invisible (show (tightSettings 1).validate = .ok () by decide +kernel) debtCalls
  cases hrun.symm.trans hrun1
  obtain ⟨r, href, hr⟩ := hsame (horderly hinorder)
  exact ⟨u, r, hrun, href, hr, hlog⟩

/-- A second source asks at 1 s, and a caller of the first that looked at its clock at 500 ms gets the
lock after it. -/
def lateCalls : List Call := [queryAt 1 0, queryAt 1 0, queryAt 2 1000, queryAt 1 500]

/-- The scan at 1 s has refilled the entry, so the late call is granted; the reference denies it. -/
theorem late_call_sees_scan : ∃ u r, run step (start (tightSettings 2)) lateCalls = some u ∧
    run Reference.step (Reference.start (tightSettings 2)) ((kept u.log).map Prod.fst) = some r ∧
    (kept u.log).map Prod.snd = [.acquired (.ok ⟨some (sampleSource 1, .query)⟩),
      .acquired (.ok ⟨some (sampleSource 1, .query)⟩), .acquired (.ok ⟨some (sampleSource 1, .query)⟩)] ∧
    r.log.map Prod.snd = [.acquired (.ok ⟨some (sampleSource 1, .query)⟩),
      .acquired (.ok ⟨some (sampleSource 1, .query)⟩), .acquired (.error .rate)] := by
  have hshape : ((run step (start (tightSettings 2)) lateCalls).bind fun u =>
      (run Reference.step (Reference.start (tightSettings 2)) ((kept u.log).map Prod.fst)).map fun r =>
        ((kept u.log).map Prod.snd, r.log.map Prod.snd)) =
      some ([.acquired (.ok ⟨some (sampleSource 1, .query)⟩), .acquired (.ok ⟨some (sampleSource 1, .query)⟩),
          .acquired (.ok ⟨some (sampleSource 1, .query)⟩)],
        [.acquired (.ok ⟨some (sampleSource 1, .query)⟩), .acquired (.ok ⟨some (sampleSource 1, .query)⟩),
          .acquired (.error .rate)]) := by
    decide +kernel
  obtain ⟨u, hrun, hshape⟩ := bind_eq_some_iff.mp hshape
  obtain ⟨r, href, hshape⟩ := map_eq_some_iff.mp hshape
  obtain ⟨hkept, hreference⟩ := Prod.mk.inj hshape
  exact ⟨u, r, hrun, href, hkept, hreference⟩

end Parins.Limits
