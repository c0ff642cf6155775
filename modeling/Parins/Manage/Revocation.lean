/-
Sessions of the management plane over every interleaving of requests and tasks.
A session that is live was issued for the credentials, the Turnstile generation
and the realm of that moment, and a protected mutation works under a permit that
it took before it found its session.
-/
import Parins.Manage.Served
import Parins.Manage.Transactions

namespace Parins.Manage
open Lib List

variable {lib : Library} {verify : Text → Text → Bool} {C : Compiler} {t u : Thread} {c : Cmd} {w w' : World}
  {r : Except Error (Ans c)}

abbrev Event := Pool.Event Thread Cmd (fun c => Except Error (Ans c)) World

abbrev Threads := Pool Thread Cmd (fun c => Except Error (Ans c)) World

/-- No session, and nobody inside. -/
structure World.Fresh (w : World) : Prop where
  sessions : w.active.sessions = []
  lock : w.lock = none
  permit : w.permit = none

/-- Every thread is about to serve its request. -/
def opening (lib : Library) (verify : Text → Text → Bool) (requests : Thread → Request) (w : World) : Threads :=
  ⟨w, fun t => ((requests t).program lib verify ()).bind fun _ => .pure ()⟩

abbrev Interleaves (C : Compiler) (start : Threads) (events : List Event) (pool : Threads) : Prop :=
  Pool.Trace (effect C) start events pool

/-! ### Events -/

/-- The event issues the session. -/
def Issued (x : Session) : Event → Prop
  | ⟨_, .session _ grant, r, _, _⟩ => r = .ok x ∧ x.grant = grant
  | _ => False

/-- The event finds the session by the headers, among those that are live. -/
def Found (headers : Headers) (x : Session) : Event → Prop
  | ⟨_, .findSession headers' transport, r, _, after⟩ =>
    headers' = headers ∧ r = .ok (some x) ∧ headers.sessionCookie transport.scheme = some x.token ∧
      x ∈ after.active.sessions
  | _ => False

/-- The event takes the mutation permit. -/
def TakesPermit : Event → Prop
  | ⟨_, .tryPermit, r, _, _⟩ => r = .ok true
  | ⟨_, .acquirePermit, _, _, _⟩ => True
  | _ => False

/-- The thread took the permit in event `j`, and has not released it before event `l`. -/
structure Holds (events : List Event) (t : Thread) (j l : Nat) : Prop where
  before : j < l
  takes : ∃ e, events[j]? = some e ∧ e.thread = t ∧ TakesPermit e
  keeps : ∀ i e, j < i → i < l → events[i]? = some e → e.thread = t → e.command ≠ .releasePermit

/-! ### What a command does to the sessions and the permit -/

variable {x : Session}

theorem effect_sessions (h : effect C t c w r w') (hx : x ∈ w'.active.sessions) :
    x ∈ w.active.sessions ∨ Issued x ⟨t, c, r, w, w'⟩ := by
  by_cases hf : c.frames = true
  · exact .inl ((effect_frame hf h).active ▸ hx)
  obtain ⟨o, h⟩ := h
  cases c with
  | publish candidate =>
    cases h
    simp only [Active.publish] at hx
    split at hx
    · cases hx
    · exact .inl hx
  | session transport grant =>
    simp only [perform, Active.session] at h
    split at h
    · cases h
      exact .inl hx
    · cases h
      obtain hx | hx := mem_append.mp hx
      · refine .inl ((w.active.retain_sessions o.now).subset ?_)
        split at hx
        · exact mem_of_mem_drop hx
        · exact hx
      · obtain rfl := mem_singleton.mp hx
        exact .inr ⟨rfl, rfl⟩
  | findSession headers transport => exact .inl ((effect_findSession ⟨o, h⟩).1.sessions.subset hx)
  | revokeSession headers transport =>
    cases h
    exact .inl ((w.active.revokeSession_prune o.now headers transport).2.subset hx)
  | clearSessions =>
    cases h
    cases hx
  | lock =>
    simp only [perform] at h
    split at h
    · cases h
      exact .inl hx
    · split at h <;> cases h
      exact .inl hx
  | tryPermit | acquirePermit =>
    simp only [perform] at h
    split at h <;> cases h
    all_goals exact .inl hx
  | unlock | releasePermit =>
    cases h
    exact .inl hx
  | _ => exact absurd rfl hf

/-- The commands that may change who has the permit, or its mark. -/
def Cmd.permits : Cmd → Bool
  | .findSession .. | .tryPermit | .acquirePermit | .releasePermit => true
  | _ => false

theorem effect_permit (hc : c.permits = false) (h : effect C t c w r w') : w'.permit = w.permit := by
  by_cases hf : c.frames = true
  · exact (effect_frame hf h).permit
  obtain ⟨o, h⟩ := h
  cases c with
  | lock =>
    simp only [perform] at h
    split at h
    · cases h
      rfl
    · split at h <;> cases h
      rfl
  | publish | session | revokeSession | clearSessions | unlock =>
    cases h
    rfl
  | _ => first | exact absurd rfl hf | cases hc

theorem effect_found {headers : Headers} {transport}
    (h : effect C t (.findSession headers transport) w (.ok (some x)) w') :
    Found headers x ⟨t, .findSession headers transport, .ok (some x), w, w'⟩ := by
  obtain ⟨o, h⟩ := h
  simp only [perform, Option.some.injEq, Prod.mk.injEq] at h
  obtain ⟨hfound, rfl⟩ := h
  have hactive : ∀ (w : World) found, (w.marking t found).active = w.active := by
    intro w found
    unfold World.marking
    split
    · split <;> rfl
    · rfl
  refine ⟨rfl, rfl, ?_⟩
  rw [hactive]
  simp only [Active.findSession] at hfound ⊢
  split at hfound
  · cases hfound
  · split at hfound
    · cases hfound
    · rename_i supplied hcookie
      simp only [Except.ok.injEq] at hfound
      have hmatches : secretMatches supplied x.token = true := by simpa using List.find?_some hfound
      rw [secretMatches_iff] at hmatches
      simp only [hcookie]
      exact ⟨by rw [hmatches], mem_of_find?_eq_some hfound⟩

variable {admitted : Option Session}

theorem marking_cases {found} (h : (w.marking u found).permit = some ⟨t, admitted⟩) :
    w.permit = some ⟨t, admitted⟩ ∨
      u = t ∧ (∃ before, w.permit = some ⟨t, before⟩) ∧ ∃ x, found = .ok (some x) ∧ admitted = some x := by
  unfold World.marking at h
  split at h
  · rename_i permit x hpermit
    split at h
    · rename_i hholder
      simp only [Option.some.injEq, Permit.mk.injEq] at h
      refine .inr ⟨hholder.symm.trans h.1, ⟨permit.admitted, ?_⟩, x, rfl, h.2.symm⟩
      rw [hpermit, ← h.1]
    · exact .inl h
  · exact .inl h

/-- Who has the permit kept it, took it, or was found to have a session. -/
theorem effect_holder (h : effect C u c w r w') (hw' : w'.permit = some ⟨t, admitted⟩) :
    (w.permit = some ⟨t, admitted⟩ ∧ c ≠ .releasePermit) ∨
    (u = t ∧ admitted = none ∧ TakesPermit ⟨u, c, r, w, w'⟩) ∨
    (u = t ∧ (∃ before, w.permit = some ⟨t, before⟩) ∧ c ≠ .releasePermit ∧
      ∃ x headers transport, admitted = some x ∧ c = .findSession headers transport ∧
        Found headers x ⟨u, c, r, w, w'⟩) := by
  by_cases hc : c.permits = true
  · cases c with
    | findSession headers transport =>
      obtain ⟨_, active, heq⟩ := effect_findSession h
      obtain hsame | ⟨hu, hbefore, x, hr, hadmitted⟩ := marking_cases (heq ▸ hw')
      · exact .inl ⟨hsame, by simp⟩
      · subst hr
        exact .inr (.inr ⟨hu, hbefore, by simp, x, headers, transport, hadmitted, rfl, effect_found h⟩)
    | tryPermit =>
      obtain ⟨o, h⟩ := h
      simp only [perform] at h
      split at h
      · cases h
        cases hw'
        exact .inr (.inl ⟨rfl, rfl, rfl⟩)
      · cases h
        exact .inl ⟨hw', by simp⟩
    | acquirePermit =>
      obtain ⟨o, h⟩ := h
      simp only [perform] at h
      split at h <;> cases h
      cases hw'
      exact .inr (.inl ⟨rfl, rfl, trivial⟩)
    | releasePermit =>
      obtain ⟨o, h⟩ := h
      cases h
      cases hw'
    | _ => cases hc
  · refine .inl ⟨(effect_permit (by simpa using hc) h).symm.trans hw', ?_⟩
    intro heq
    subst heq
    exact hc rfl

theorem effect_held (h : effect C u c w r w') (hc : c ≠ .releasePermit)
    (hp : w.permit = some ⟨t, admitted⟩) : ∃ admitted', w'.permit = some ⟨t, admitted'⟩ := by
  by_cases hpermits : c.permits = true
  · cases c with
    | findSession headers transport =>
      obtain ⟨_, active, heq⟩ := effect_findSession h
      by_cases hu : t = u
      · subst hu
        exact ⟨_, heq ▸ marking_holder (w := { w with active := active }) hp⟩
      · refine ⟨admitted, heq ▸ (marking_bare (w := { w with active := active }) ?_).trans hp⟩
        intro p hsome
        cases hsome.symm.trans hp
        exact hu
    | tryPermit =>
      obtain ⟨o, h⟩ := h
      simp only [perform, hp] at h
      cases h
      exact ⟨admitted, hp⟩
    | acquirePermit =>
      obtain ⟨o, h⟩ := h
      simp only [perform, hp] at h
      cases h
    | releasePermit => exact absurd rfl hc
    | _ => cases hpermits
  · exact ⟨admitted, (effect_permit (by simpa using hpermits) h).trans hp⟩

theorem effect_takes (h : effect C t c w r w') (htakes : TakesPermit ⟨t, c, r, w, w'⟩) :
    ∃ admitted, w'.permit = some ⟨t, admitted⟩ := by
  obtain ⟨o, h⟩ := h
  cases c with
  | tryPermit =>
    obtain rfl : r = .ok true := htakes
    simp only [perform] at h
    split at h <;> cases h
    exact ⟨none, rfl⟩
  | acquirePermit =>
    simp only [perform] at h
    split at h <;> cases h
    exact ⟨none, rfl⟩
  | _ => cases htakes

/-! ### Runs -/

section Runs
variable {requests : Thread → Request} {events events' : List Event} {pool : Threads} {j l : Nat} {e : Event}

theorem relies_of_guards (t u c w w') (hu : u ≠ t)
    (h : Guards verify (requests t).rights t c w w') : Relies verify u w w' :=
  ⟨t, hu.symm, h.toSteps⟩

theorem World.Fresh.inv (h : w.Fresh) : w.Inv verify where
  free := by
    intro _ x hx
    rw [h.sessions] at hx
    cases hx
  few := by
    rw [h.sessions]
    exact Nat.zero_le _

theorem World.Fresh.hold (h : w.Fresh) (t) : Hold.At verify t {} w where
  inv := h.inv
  bare := by simp [h.permit]
  permit := nofun
  outside := by simp [h.lock]
  inside := fun _ _ _ hsome => nomatch hsome

theorem opening_sound (h : w.Fresh) :
    (opening lib verify requests w).Sound (effect C) (Relies verify) (fun t => Guards verify (requests t).rights t) :=
  fun t => Program.Bears.bind (serves_program (requests t) w (h.hold t)) fun _ _ _ => trivial

theorem Interleaves.guards (h : w.Fresh) (hrun : Interleaves C (opening lib verify requests w) events pool) :
    ∀ e ∈ events, Guards verify (requests e.thread).rights e.thread e.command e.before e.after :=
  (Pool.Trace.sound relies_of_guards (opening_sound h) hrun).2

theorem Holds.congr (h : Holds events t j l) (heq : ∀ i, i < l → events'[i]? = events[i]?) : Holds events' t j l where
  before := h.before
  takes := by
    rw [heq j h.before]
    exact h.takes
  keeps := by
    intro i e hj hl he
    rw [heq i hl] at he
    exact h.keeps i e hj hl he

theorem Holds.snoc (h : Holds events t j events.length) (he : e.thread = t → e.command ≠ .releasePermit) :
    Holds (events ++ [e]) t j (events ++ [e]).length := by
  have hsame : Holds (events ++ [e]) t j events.length := h.congr fun i hi => List.getElem?_append_left hi
  refine ⟨by simpa using Nat.lt_succ_of_lt h.before, hsame.takes, ?_⟩
  intro i e' hj hl he'
  by_cases hi : i < events.length
  · exact hsame.keeps i e' hj hi he'
  · obtain rfl : i = events.length := by
      rw [length_append, length_singleton] at hl
      omega
    rw [List.getElem?_concat_length, Option.some.injEq] at he'
    exact he' ▸ he

theorem Holds.last (ht : e.thread = t) (he : TakesPermit e) :
    Holds (events ++ [e]) t events.length (events ++ [e]).length := by
  refine ⟨by simp, ⟨e, by simp, ht, he⟩, ?_⟩
  intro i _ hj hl
  rw [length_append, length_singleton] at hl
  omega

/-- The event of the look for a session that admits the thread. -/
def Admits (requests : Thread → Request) (events : List Event) (t : Thread) (x : Session) (k : Nat) : Prop :=
  ∃ e headers, events[k]? = some e ∧ e.thread = t ∧ (requests t).sent = some headers ∧ Found headers x e

theorem Admits.congr {k} (h : Admits requests events t x k) (heq : events'[k]? = events[k]?) :
    Admits requests events' t x k := by
  obtain ⟨e, headers, he, hrest⟩ := h
  exact ⟨e, headers, heq.trans he, hrest⟩

section
variable (h : w.Fresh) (hrun : Interleaves C (opening lib verify requests w) events pool)
include h hrun

theorem Interleaves.guards_last {u c r pool'} (hstep : pool.Step (effect C) u c r pool') :
    Guards verify (requests u).rights u c pool.state pool'.state :=
  Interleaves.guards h (.snoc hrun hstep) _ (mem_append_right _ (mem_singleton_self _))

/-- The thread with the permit took it in an earlier event, and its mark is from an event since. -/
theorem Interleaves.taken (hp : pool.state.permit = some ⟨t, admitted⟩) : ∃ j, Holds events t j events.length ∧
      ∀ x, admitted = some x → ∃ k, j < k ∧ k < events.length ∧ Admits requests events t x k := by
  induction hrun generalizing admitted with
  | nil =>
    rw [show (opening lib verify requests w).state.permit = none from h.permit] at hp
    cases hp
  | @snoc events pool pool' u c r run step ih =>
    have hguards := Interleaves.guards_last h run step
    have hprefix : ∀ {x k}, k < events.length → Admits requests events t x k →
        Admits requests (events ++ [⟨u, c, r, pool.state, pool'.state⟩]) t x k :=
      fun hk hadmits => hadmits.congr (List.getElem?_append_left hk)
    obtain ⟨hsame, hc⟩ | ⟨rfl, rfl, htakes⟩ | ⟨rfl, ⟨before, hbefore⟩, hc, x, headers, transport, rfl, heq, hfound⟩ :=
      effect_holder step.does hp
    · obtain ⟨j, hholds, hmark⟩ := ih hsame
      refine ⟨j, hholds.snoc fun _ => hc, ?_⟩
      intro x hx
      obtain ⟨k, hjk, hk, hadmits⟩ := hmark x hx
      exact ⟨k, hjk, by simpa using Nat.lt_succ_of_lt hk, hprefix hk hadmits⟩
    · exact ⟨events.length, Holds.last rfl htakes, nofun⟩
    · obtain ⟨j, hholds, _⟩ := ih hbefore
      refine ⟨j, hholds.snoc fun _ => hc, ?_⟩
      intro y hy
      cases hy
      exact ⟨events.length, hholds.before, by simp, _, headers, List.getElem?_concat_length, rfl,
        hguards.presents headers transport heq, hfound⟩

theorem Interleaves.held
    (hholds : Holds events t j events.length) : ∃ admitted, pool.state.permit = some ⟨t, admitted⟩ := by
  induction hrun with
  | nil => simpa using hholds.before
  | @snoc events pool pool' u c r run step ih =>
    have hguards := Interleaves.guards_last h run step
    obtain ⟨e, he, ht, htakes⟩ := hholds.takes
    by_cases hj : j < events.length
    · have hshort : Holds events t j events.length :=
        Holds.congr ⟨hj, hholds.takes, fun i e hji hi => hholds.keeps i e hji (by simp; omega)⟩
          fun i hi => (List.getElem?_append_left hi).symm
      obtain ⟨admitted, hp⟩ := ih hshort
      by_cases hc : c = .releasePermit
      · -- only the holder releases it, and it has not
        subst hc
        have hu : u ≠ t := fun hu =>
          hholds.keeps events.length _ hj (by simp) List.getElem?_concat_length hu rfl
        obtain hsame | ⟨hold, _⟩ := hguards.permit
        · exact ⟨admitted, hsame.trans hp⟩
        · exact absurd (hold _ hp).symm hu
      · exact effect_held step.does hc hp
    · obtain rfl : j = events.length := by
        have := hholds.before
        rw [length_append, length_singleton] at this
        omega
      rw [List.getElem?_concat_length, Option.some.injEq] at he
      subst he
      subst ht
      exact effect_takes step.does htakes

theorem Interleaves.issued
    (hx : x ∈ pool.state.active.sessions) : ∃ e ∈ events, Issued x e ∧ (requests e.thread).rights.issues x.grant := by
  induction hrun with
  | nil =>
    rw [show (opening lib verify requests w).state.active.sessions = [] from h.sessions] at hx
    cases hx
  | @snoc events pool pool' u c r run step ih =>
    obtain hold | hissued := effect_sessions step.does hx
    · obtain ⟨e, he, hrest⟩ := ih hold
      exact ⟨e, mem_append_left _ he, hrest⟩
    · refine ⟨_, mem_append_right _ (mem_singleton_self _), hissued, ?_⟩
      cases c with
      | session transport grant =>
        rw [hissued.2]
        exact (Interleaves.guards_last h run step).issues transport grant rfl
      | _ => cases hissued

theorem Interleaves.inv : pool.state.Inv verify := by
  induction hrun with
  | nil => exact h.inv
  | snoc run step ih => exact (Interleaves.guards_last h run step).inv ih

end

/-- Over every interleaving of requests and tasks: while nobody is inside the manager's lock, each session
is for the saved credentials, the Turnstile generation and the realm of that moment, and it was issued
by a login that verified them or by a setup; there are at most sixteen. What a protected mutation
does starts after it has found its session, live, under a permit that it had taken before and still
has; from then until it releases the permit, every change of credentials, Turnstile keys or realm
is its own. -/
theorem sessions_revoked (hw : w.Fresh) (hrun : Interleaves C (opening lib verify requests w) events pool) :
    (pool.state.lock = none → ∀ x ∈ pool.state.active.sessions,
      x.grant.Holds verify pool.state.manager.credentials pool.state.manager.turnstile.generation
        pool.state.active.snapshot.realm) ∧
    (∀ x ∈ pool.state.active.sessions, ∃ e ∈ events, Issued x e ∧ (requests e.thread).rights.issues x.grant) ∧
    pool.state.active.sessions.length ≤ 16 ∧
    ∀ i e route, events[i]? = some e → e.command = .work route →
      ∃ j k x, j < k ∧ k < i ∧ Holds events e.thread j i ∧ Admits requests events e.thread x k ∧
        ∀ l e', k < l → Holds events e.thread j l → events[l]? = some e' → e'.before.Changes e'.after →
          e'.thread = e.thread := by
  have hinv := Interleaves.inv hw hrun
  refine ⟨hinv.free, fun x hx => Interleaves.issued hw hrun hx, hinv.few, ?_⟩
  intro i e route he hroute
  have hguards := Interleaves.guards hw hrun
  have hi : i < events.length := (List.getElem?_eq_some_iff.mp he).1
  have htake : ∀ {l k}, k < l → (events.take l)[k]? = events[k]? := fun hk => List.getElem?_take_of_lt hk
  obtain ⟨x, hx⟩ := (hguards e (mem_of_getElem? he)).work route hroute
  obtain ⟨before, hbefore, hstate⟩ := hrun.split he
  obtain ⟨j, hholds, hmark⟩ := Interleaves.taken hw hbefore (hstate ▸ hx)
  have hlength : (events.take i).length = i := by rw [length_take, Nat.min_eq_left hi.le]
  rw [hlength] at hholds
  obtain ⟨k, hjk, hki, hadmits⟩ := hmark x rfl
  rw [hlength] at hki
  refine ⟨j, k, x, hjk, hki, hholds.congr fun _ hl => (htake hl).symm, hadmits.congr (htake hki).symm, ?_⟩
  intro l e' _ hholds' he' hchanges
  obtain ⟨before', hbefore', hstate'⟩ := hrun.split he'
  have hl : l < events.length := (List.getElem?_eq_some_iff.mp he').1
  have hlength' : (events.take l).length = l := by rw [length_take, Nat.min_eq_left hl.le]
  have hshort : Holds (events.take l) e.thread j (events.take l).length := by
    rw [hlength']
    exact hholds'.congr fun _ hl => htake hl
  obtain ⟨admitted, hp⟩ := Interleaves.held hw hbefore' hshort
  obtain ⟨admitted', hp'⟩ := (hguards e' (mem_of_getElem? he')).changes hchanges
  rw [hstate', hp', Option.some.injEq, Permit.mk.injEq] at hp
  exact hp.1

end Runs

/-! A login, and then a mutation with its session. -/

def sampleHeaders : Headers where
  httpCookie := some (ascii "token")
  bindings := [ascii "binding"]

def sampleRequests : Thread → Request
  | 0 => .login true (ascii "admin") (ascii "correct horse")
  | _ => .mutation .storage true sampleHeaders

def sampleWorld : World :=
  { samplePlane.world with file := some sampleStored, manager := { saved := some sampleStored } }

def sampleOpening : Threads :=
  opening sampleLibrary (fun _ password => password == ascii "correct horse") sampleRequests sampleWorld

/-- Eleven commands of the login, and nine of the mutation. -/
def sampleSchedule : List (Thread × Outcome) :=
  List.replicate 11 (0, ({ token := ascii "token", binding := ascii "binding" } : Outcome)) ++
    List.replicate 9 (1, ({} : Outcome))

theorem sampleSchedule_plays : (Pool.play (perform sampleCompiler) ([], sampleOpening) sampleSchedule).map
        (fun run => (run.2.state.lock, run.2.state.active.sessions.map (·.token),
          (run.1[19]?).map fun e => (e.thread, match e.command with | .work route => some route | _ => none))) =
      some (none, [ascii "token"], some (1, some .storage)) := by
  decide +kernel

theorem sessions_revoked_sample :
    sampleWorld.Fresh ∧ ∃ events pool, Interleaves sampleCompiler sampleOpening events pool ∧
      (∃ x ∈ pool.state.active.sessions, x.token = ascii "token" ∧
        pool.state.manager.credentials = some x.grant.credentials) ∧
      ∃ e, events[19]? = some e ∧ e.command = .work .storage ∧ ∃ k x, k < 19 ∧ Admits sampleRequests events 1 x k := by
  have hfresh : sampleWorld.Fresh := ⟨rfl, rfl, rfl⟩
  obtain ⟨⟨events, pool⟩, hplay, hend⟩ := Option.map_eq_some_iff.mp sampleSchedule_plays
  simp only [Prod.mk.injEq] at hend
  obtain ⟨hlock, htokens, hwork⟩ := hend
  have hrun : Interleaves sampleCompiler sampleOpening events pool :=
    Pool.Trace.play (fun t x c s r s' h => ⟨x, h⟩) .nil hplay
  obtain ⟨hvalid, _, _, hstarts⟩ := sessions_revoked hfresh hrun
  obtain ⟨x, hx, htoken⟩ := mem_map.mp (htokens ▸ mem_singleton_self (ascii "token"))
  obtain ⟨e, he, heq⟩ := Option.map_eq_some_iff.mp hwork
  simp only [Prod.mk.injEq] at heq
  obtain ⟨hthread, hroute⟩ := heq
  have hcommand : e.command = .work .storage := by
    split at hroute
    · rename_i route hroute'
      rw [hroute', Option.some.inj hroute]
    · cases hroute
  obtain ⟨j, k, y, _, hk, _, hadmits, _⟩ := hstarts 19 e .storage he hcommand
  rw [hthread] at hadmits
  exact ⟨hfresh, events, pool, hrun, ⟨x, hx, htoken, (hvalid hlock x hx).credentials⟩, e, he, hcommand, k, y, hk, hadmits⟩

end Parins.Manage
