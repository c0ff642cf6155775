/-
What a thread of the management plane holds: the mutation permit, and the
manager with the sessions that are valid for it. Each command keeps what the
other threads hold, and changes credentials, Turnstile keys and realm only with
the permit.
-/
import Parins.Lib.Threads
import Parins.Manage.Requests
import Parins.Manage.Applied

namespace Parins.Manage
open Lib
open Relation (ReflTransGen)

variable {verify : Text → Text → Bool} {C : Compiler} {t u : Thread} {c : Cmd} {w w' : World} {m m0 : Manager}

def Manager.credentials (m : Manager) : Option Credentials := m.saved.map Stored.credentials

/-- The session was issued for these credentials, this Turnstile generation and this realm; if a login
issued it, the name and password that it had verified are theirs. -/
structure Grant.Holds (verify : Text → Text → Bool) (saved : Option Credentials) (n r : Nat) (g : Grant) : Prop where
  credentials : saved = some g.credentials
  generation : g.generation = n
  realm : g.realm = r
  proof : ∀ username password, g.proof = some (username, password) →
    verifyPassword verify g.credentials.passwordHash password = true ∧ username = g.credentials.username

/-- Every session is for these credentials and this generation, and for the realm in use. -/
def Active.Valid (verify : Text → Text → Bool) (saved : Option Credentials) (n : Nat) (a : Active) : Prop :=
  ∀ x ∈ a.sessions, x.grant.Holds verify saved n a.snapshot.realm

/-- What holds at every moment. -/
structure World.Inv (verify : Text → Text → Bool) (w : World) : Prop where
  free : w.lock = none → w.active.Valid verify w.manager.credentials w.manager.turnstile.generation
  few : w.active.sessions.length ≤ 16

/-- Credentials, Turnstile keys or the realm change, in memory or on disk. -/
def World.Changes (w w' : World) : Prop :=
  w'.manager.credentials ≠ w.manager.credentials ∨ w'.manager.turnstile.generation ≠ w.manager.turnstile.generation ∨
  w'.active.snapshot.realm ≠ w.active.snapshot.realm ∨
  w'.file.map Stored.credentials ≠ w.file.map Stored.credentials ∨ w'.turnstileFile ≠ w.turnstileFile

/-- One command of a thread. -/
structure Steps (verify : Text → Text → Bool) (t : Thread) (w w' : World) : Prop where
  permit : w'.permit = w.permit ∨
    (∀ p, w.permit = some p → p.holder = t) ∧ ∀ p, w'.permit = some p → p.holder = t
  lock : w'.lock = w.lock ∨ (∀ u, w.lock = some u → u = t) ∧ ∀ u, w'.lock = some u → u = t
  others : ∀ u, w.lock = some u → u ≠ t → w'.manager = w.manager ∧
    w'.active.snapshot.realm = w.active.snapshot.realm ∧ ∀ x ∈ w'.active.sessions, x ∈ w.active.sessions
  inv : w.Inv verify → w'.Inv verify
  changes : w.Changes w' → ∃ admitted, w.permit = some ⟨t, admitted⟩

/-- What a request may do with sessions: the grants that it may issue one for, and the headers that it
may look for one with. -/
structure Rights where
  issues : Grant → Prop
  presents : Headers → Prop

/-- What a command of the thread answers for: a protected mutation starts its work with a session that
was found under the permit. -/
structure Guards (verify : Text → Text → Bool) (P : Rights) (t : Thread) (c : Cmd) (w w' : World) : Prop extends
    Steps verify t w w' where
  work : ∀ route, c = .work route → ∃ x, w.permit = some ⟨t, some x⟩
  issues : ∀ transport grant, c = .session transport grant → P.issues grant
  presents : ∀ headers transport, c = .findSession headers transport → P.presents headers

/-- What the others may do. -/
def Relies (verify : Text → Text → Bool) (t : Thread) (w w' : World) : Prop := ∃ u, u ≠ t ∧ Steps verify u w w'

/-! ### Holds -/

/-- The permit with the session that was found under it; the manager at the start of a section, and
what the sessions are valid for now. -/
structure Hold where
  permit : Option (Option Session) := none
  inside : Option (Manager × Option Credentials × Nat) := none

structure Hold.At (verify : Text → Text → Bool) (t : Thread) (h : Hold) (w : World) : Prop where
  inv : w.Inv verify
  bare : h.permit = none → ∀ p, w.permit = some p → p.holder ≠ t
  permit : ∀ admitted, h.permit = some admitted → w.permit = some ⟨t, admitted⟩
  outside : h.inside = none → w.lock ≠ some t
  inside : ∀ m0 saved n, h.inside = some (m0, saved, n) →
    w.lock = some t ∧ w.manager = m0 ∧ w.active.Valid verify saved n

variable {a : Active} {saved : Option Credentials} {n : Nat}

theorem Active.Valid.mono {a' : Active} (h : a.Valid verify saved n)
    (hrealm : a'.snapshot.realm = a.snapshot.realm) (hsub : ∀ x ∈ a'.sessions, x ∈ a.sessions) :
    a'.Valid verify saved n := by
  intro x hx
  rw [hrealm]
  exact h x (hsub x hx)

variable {h : Hold}

theorem Hold.At.others (ha : h.At verify t w) (hu : u ≠ t) (hs : Steps verify u w w') : h.At verify t w' where
  inv := hs.inv ha.inv
  bare := by
    intro hnone p hp
    obtain hsame | ⟨_, hnew⟩ := hs.permit
    · exact ha.bare hnone p (hsame ▸ hp)
    · rw [hnew p hp]
      exact hu
  permit := by
    intro admitted hsome
    obtain hsame | ⟨hold, _⟩ := hs.permit
    · exact hsame.trans (ha.permit admitted hsome)
    · exact absurd (hold _ (ha.permit admitted hsome)).symm hu
  outside := by
    intro hnone hlock
    obtain hsame | ⟨_, hnew⟩ := hs.lock
    · exact ha.outside hnone (hsame ▸ hlock)
    · exact hu (hnew t hlock).symm
  inside := by
    intro m0 saved n hsome
    obtain ⟨hlock, hmanager, hvalid⟩ := ha.inside m0 saved n hsome
    obtain ⟨hm, hrealm, hsub⟩ := hs.others t hlock hu.symm
    refine ⟨?_, hm.trans hmanager, hvalid.mono hrealm hsub⟩
    obtain hsame | ⟨hold, _⟩ := hs.lock
    · exact hsame.trans hlock
    · exact absurd (hold t hlock) hu.symm

theorem Hold.At.relies : ∀ w w', h.At verify t w → Relies verify t w w' → h.At verify t w' :=
  fun _ _ ha ⟨_, hu, hs⟩ => ha.others hu hs

theorem Hold.At.stable (ha : h.At verify t w) (hs : ReflTransGen (Relies verify t) w w') : h.At verify t w' :=
  Program.stable_trans Hold.At.relies ha hs

/-! ### Commands -/

/-- Locks and transport are as they were. -/
structure Frame (w w' : World) : Prop where
  permit : w'.permit = w.permit
  lock : w'.lock = w.lock
  manager : w'.manager = w.manager
  active : w'.active = w.active

/-- The commands that deal with neither sessions nor locks. -/
def Cmd.frames : Cmd → Bool
  | .publish _ | .session .. | .findSession .. | .revokeSession .. | .clearSessions | .lock _ | .unlock _ | .tryPermit
  | .acquirePermit | .releasePermit => false
  | _ => true

theorem effect_frame {r} (hc : c.frames = true) (he : effect C t c w r w') : Frame w w' := by
  by_cases hq : c.quiet = true
  · cases effect_quiet hq he
    exact ⟨rfl, rfl, rfl, rfl⟩
  obtain ⟨x, hx⟩ := he
  cases c with
  | save | persist =>
    simp only [perform, Outcome.settle] at hx
    split at hx <;> cases hx
    all_goals exact ⟨rfl, rfl, rfl, rfl⟩
  | prepareConfig | publishConfig | setRevision | publishSettings =>
    cases hx
    exact ⟨rfl, rfl, rfl, rfl⟩
  | _ => first | exact absurd rfl hq | cases hc

/-- Sessions may go, and the permit may be marked with the session that its holder has. -/
structure Prune (t : Thread) (w w' : World) : Prop where
  permit : w'.permit = w.permit ∨ (∀ p, w.permit = some p → p.holder = t) ∧ ∀ p, w'.permit = some p → p.holder = t
  lock : w'.lock = w.lock
  manager : w'.manager = w.manager
  snapshot : w'.active.snapshot = w.active.snapshot
  sessions : w'.active.sessions.Sublist w.active.sessions
  changes : w.Changes w' → ∃ admitted, w.permit = some ⟨t, admitted⟩

theorem Frame.prune (hf : Frame w w') (hchanges : w.Changes w' → ∃ admitted, w.permit = some ⟨t, admitted⟩) :
    Prune t w w' :=
  ⟨.inl hf.permit, hf.lock, hf.manager, by rw [hf.active], by rw [hf.active], hchanges⟩

theorem Prune.steps (hp : Prune t w w') : Steps verify t w w' where
  permit := hp.permit
  lock := .inl hp.lock
  others := fun _ _ _ => ⟨hp.manager, by rw [hp.snapshot], fun x hx => hp.sessions.subset hx⟩
  inv := by
    intro h
    refine ⟨?_, hp.sessions.length_le.trans h.few⟩
    rw [hp.lock, hp.manager]
    intro hfree
    exact (h.free hfree).mono (by rw [hp.snapshot]) fun x hx => hp.sessions.subset hx
  changes := hp.changes

theorem Prune.hold (hp : Prune t w w') (hpermit : w'.permit = w.permit) (ha : h.At verify t w) :
    h.At verify t w' where
  inv := hp.steps.inv ha.inv
  bare := hpermit ▸ ha.bare
  permit := hpermit ▸ ha.permit
  outside := hp.lock ▸ ha.outside
  inside := by
    intro m0 saved n hsome
    obtain ⟨hlock, hmanager, hvalid⟩ := ha.inside m0 saved n hsome
    exact ⟨hp.lock.trans hlock, hp.manager.trans hmanager,
      hvalid.mono (by rw [hp.snapshot]) fun x hx => hp.sessions.subset hx⟩

theorem Active.retain_sessions (a : Active) (now) : (a.retain now).sessions.Sublist a.sessions :=
  List.filter_sublist

theorem Active.findSession_prune (a : Active) (now) (headers : Headers) (transport) :
    (a.findSession now headers transport).2.snapshot = a.snapshot ∧
      (a.findSession now headers transport).2.sessions.Sublist a.sessions := by
  unfold Active.findSession
  split
  · exact ⟨rfl, .refl _⟩
  · split
    · exact ⟨rfl, .refl _⟩
    · exact ⟨rfl, a.retain_sessions now⟩

theorem Active.revokeSession_prune (a : Active) (now) (headers : Headers) (transport) :
    (a.revokeSession now headers transport).2.snapshot = a.snapshot ∧
      (a.revokeSession now headers transport).2.sessions.Sublist a.sessions := by
  simp only [Active.revokeSession]
  split
  · exact ⟨rfl, .refl _⟩
  · split
    · exact ⟨rfl, a.retain_sessions now⟩
    · split
      · exact ⟨rfl, a.retain_sessions now⟩
      · split
        · exact ⟨rfl, a.retain_sessions now⟩
        · exact ⟨rfl, List.filter_sublist.trans (a.retain_sessions now)⟩

/-- What a command does from what is held. -/
def Triple (verify : Text → Text → Bool) (P : Rights) (C : Compiler) (t : Thread) (h : Hold) (c : Cmd)
    (post : Except Error (Ans c) → World → Prop) : Prop :=
  ∀ w r w', h.At verify t w → effect C t c w r w' → Guards verify P t c w w' ∧ post r w'

section Triples
variable {P : Rights} {h : Hold}

/-- The commands that neither start work nor deal with sessions. -/
def Cmd.plain : Cmd → Bool
  | .work _ | .session .. | .findSession .. => false
  | _ => true

theorem Steps.guards (hs : Steps verify t w w') (hc : c.plain = true) : Guards verify P t c w w' := by
  refine ⟨hs, ?_, ?_, ?_⟩
  · intro route heq
    subst heq
    cases hc
  · intro transport grant heq
    subst heq
    cases hc
  · intro headers transport heq
    subst heq
    cases hc

theorem guards_frame (hf : Frame w w') (ha : h.At verify t w) (hc : c.plain = true)
    (hchanges : w.Changes w' → ∃ admitted, h.permit = some admitted) :
    Guards verify P t c w w' ∧ h.At verify t w' := by
  have hp : Prune t w w' := hf.prune fun hch => by
    obtain ⟨admitted, hadmitted⟩ := hchanges hch
    exact ⟨admitted, ha.permit _ hadmitted⟩
  exact ⟨hp.steps.guards hc, hp.hold hf.permit ha⟩

theorem triple_quiet (hc : c.quiet = true) (hplain : c.plain = true) :
    Triple verify P C t h c fun _ w' => h.At verify t w' := by
  intro w r w' ha he
  cases effect_quiet hc he
  exact guards_frame ⟨rfl, rfl, rfl, rfl⟩ ha hplain (by simp [World.Changes])

variable {admitted : Option Session}

theorem triple_work {route} (hp : h.permit = some admitted)
    (hsome : admitted.isSome = true) : Triple verify P C t h (.work route) fun _ w' => h.At verify t w' := by
  intro w r w' ha he
  cases effect_quiet rfl he
  have hs : Steps verify t w w := Prune.steps ⟨.inl rfl, rfl, rfl, rfl, .refl _, by simp [World.Changes]⟩
  refine ⟨⟨hs, ?_, nofun, nofun⟩, ha⟩
  intro _ _
  obtain ⟨x, rfl⟩ := Option.isSome_iff_exists.mp hsome
  exact ⟨x, ha.permit _ hp⟩

/-- The commands of a transaction on DNS. -/
def Cmd.applies : Cmd → Bool
  | .io | .certificates | .prepareConfig .. | .ready | .bind _ | .isFinished | .snapshot
  | .publishConfig .. | .setRevision _ | .publishSettings .. | .publish _ | .save _ => true
  | _ => false

variable {s : Snapshot}

theorem Active.publish_few (h : a.sessions.length ≤ 16) : (a.publish s).sessions.length ≤ 16 := by
  unfold Active.publish
  split
  · exact Nat.zero_le _
  · exact h

theorem Active.Valid.publish (h : a.Valid verify saved n) : (a.publish s).Valid verify saved n := by
  unfold Active.publish
  split
  · intro session hsession
    cases hsession
  · exact h.mono rfl fun _ hx => hx

/-- What a thread inside the section does to the sessions, others do not see before it has left. -/
theorem Hold.At.steps_inside {saved n} (ha : h.At verify t w) (hinside : h.inside = some (m0, saved, n))
    (hfew : a.sessions.length ≤ 16)
    (hrealm : a.snapshot.realm ≠ w.active.snapshot.realm → ∃ admitted, h.permit = some admitted) :
    Steps verify t w { w with active := a } := by
  obtain ⟨hlock, _, _⟩ := ha.inside _ _ _ hinside
  refine ⟨.inl rfl, .inl rfl, ?_, fun _ => ⟨?_, hfew⟩, ?_⟩
  · intro u hu hne
    exact absurd (Option.some.inj (hu.symm.trans hlock)) hne
  · intro hfree
    exact absurd (hfree.symm.trans hlock) (by simp)
  · intro hch
    simp only [World.Changes, ne_eq, not_true_eq_false, false_or, or_false] at hch
    obtain ⟨admitted, hadmitted⟩ := hrealm hch
    exact ⟨admitted, ha.permit _ hadmitted⟩

theorem Hold.At.hold_inside {saved saved' n n'} (ha : h.At verify t w)
    (hinside : h.inside = some (m0, saved, n)) (hfew : a.sessions.length ≤ 16) (hvalid : a.Valid verify saved' n') :
    ({ h with inside := some (m0, saved', n') } : Hold).At verify t { w with active := a } := by
  obtain ⟨hlock, hmanager, _⟩ := ha.inside _ _ _ hinside
  refine ⟨⟨?_, hfew⟩, ha.bare, ha.permit, nofun, ?_⟩
  · intro hfree
    exact absurd (hfree.symm.trans hlock) (by simp)
  · intro m1 saved1 n1 heq
    cases heq
    exact ⟨hlock, hmanager, hvalid⟩

theorem triple_applies {admitted saved n} (hc : c.applies = true) :
    Triple verify P C t ⟨some admitted, some (m0, saved, n)⟩ c
      fun _ w' => Hold.At verify t ⟨some admitted, some (m0, saved, n)⟩ w' := by
  intro w r w' ha he
  by_cases hf : c.frames = true
  · refine guards_frame (effect_frame hf he) ha ?_ fun _ => ⟨_, rfl⟩
    cases c <;> first | rfl | cases hc
  cases c with
  | publish candidate =>
    obtain ⟨x, hx⟩ := he
    cases hx
    obtain ⟨_, _, hvalid⟩ := ha.inside _ _ _ rfl
    have hfew := Active.publish_few (s := candidate) ha.inv.few
    exact ⟨(ha.steps_inside rfl hfew fun _ => ⟨_, rfl⟩).guards rfl,
      ha.hold_inside rfl hfew hvalid.publish⟩
  | _ => first | exact absurd rfl hf | cases hc

theorem triple_persist {admitted keys} (hp : h.permit = some admitted) :
    Triple verify P C t h (.persist keys) fun _ w' => h.At verify t w' :=
  fun _ _ _ ha he => guards_frame (effect_frame rfl he) ha rfl fun _ => ⟨_, hp⟩

theorem triple_clearSessions {saved n} (saved' n') (hi : h.inside = some (m0, saved, n)) :
    Triple verify P C t h .clearSessions
      fun r w' => r = .ok () ∧ ({ h with inside := some (m0, saved', n') } : Hold).At verify t w' := by
  rintro w r w' ha ⟨x, hx⟩
  cases hx
  have hs : Steps verify t w { w with active := { w.active with sessions := [] } } :=
    ha.steps_inside hi (Nat.zero_le _) fun hne => absurd rfl hne
  exact ⟨hs.guards rfl, rfl, ha.hold_inside hi (Nat.zero_le _) nofun⟩

variable {transport : Snapshot} {grant : Grant}

theorem Active.session_spec (now token binding) (hvalid : a.Valid verify saved n) (hfew : a.sessions.length ≤ 16)
    (hgrant : grant.Holds verify saved n transport.realm) : let a' := (a.session now token binding grant transport).2
    a'.snapshot = a.snapshot ∧ a'.Valid verify saved n ∧ a'.sessions.length ≤ 16 := by
  simp only [Active.session, Active.currentRealm]
  split
  · exact ⟨rfl, hvalid, hfew⟩
  · rename_i hrealm
    have hsame : a.snapshot.realm = transport.realm := by
      by_contra hne
      simp [hne] at hrealm
    have hold : ∀ x ∈ (a.retain now).sessions, x.grant.Holds verify saved n a.snapshot.realm :=
      fun x hx => hvalid x ((a.retain_sessions now).subset hx)
    have hlength := (a.retain_sessions now).length_le
    refine ⟨rfl, ?_, ?_⟩
    · intro x hx
      obtain hx | hx := List.mem_append.mp hx
      · split at hx
        · exact hold x (List.mem_of_mem_drop hx)
        · exact hold x hx
      · obtain rfl := List.mem_singleton.mp hx
        exact hsame.symm ▸ hgrant
    · rw [List.length_append]
      split
      · rw [List.length_drop, List.length_singleton]
        omega
      · rw [List.length_singleton]
        omega

theorem triple_session {saved n} (hi : h.inside = some (m0, saved, n))
    (hgrant : grant.Holds verify saved n transport.realm) (hP : P.issues grant) :
    Triple verify P C t h (.session transport grant) fun _ w' => h.At verify t w' := by
  rintro w r w' ha ⟨x, hx⟩
  cases hx
  obtain ⟨_, _, hvalid⟩ := ha.inside _ _ _ hi
  obtain ⟨hsnapshot, hvalid', hfew⟩ :=
    Active.session_spec x.now x.token x.binding hvalid ha.inv.few hgrant
  have hold := ha.hold_inside hi hfew hvalid'
  rw [← hi] at hold
  refine ⟨⟨ha.steps_inside hi hfew fun hne => absurd (congrArg Snapshot.realm hsnapshot) hne, nofun,
    ?_, nofun⟩, hold⟩
  intro _ _ heq
  cases heq
  exact hP

theorem triple_revokeSession {headers : Headers} :
    Triple verify P C t h (.revokeSession headers transport) fun _ w' => h.At verify t w' := by
  rintro w r w' ha ⟨x, hx⟩
  cases hx
  obtain ⟨hsnapshot, hsessions⟩ := w.active.revokeSession_prune x.now headers transport
  have hp : Prune t w { w with active := (w.active.revokeSession x.now headers transport).2 } :=
    ⟨.inl rfl, rfl, rfl, hsnapshot, hsessions, by simp [World.Changes, hsnapshot]⟩
  exact ⟨hp.steps.guards rfl, hp.hold rfl ha⟩

variable {found : Except Error (Option Session)}

theorem marking_prune (hsnapshot : a.snapshot = w.active.snapshot)
    (hsessions : a.sessions.Sublist w.active.sessions) : Prune t w ({ w with active := a }.marking t found) := by
  unfold World.marking
  split
  · rename_i permit session hpermit
    split
    · rename_i hholder
      refine ⟨.inr ⟨?_, ?_⟩, rfl, rfl, hsnapshot, hsessions, by simp [World.Changes, hsnapshot]⟩
      · intro p hp
        exact Option.some.inj (hp.symm.trans hpermit) ▸ hholder
      · intro p hp
        cases hp
        exact hholder
    · exact ⟨.inl rfl, rfl, rfl, hsnapshot, hsessions, by simp [World.Changes, hsnapshot]⟩
  · exact ⟨.inl rfl, rfl, rfl, hsnapshot, hsessions, by simp [World.Changes, hsnapshot]⟩

theorem marking_bare (h : ∀ p, w.permit = some p → p.holder ≠ t) : (w.marking t found).permit = w.permit := by
  unfold World.marking
  split
  · rename_i permit session hpermit
    rw [if_neg (h permit hpermit)]
  · rfl

/-- The mark of the permit after a look for a session. -/
def marked (admitted : Option Session) : Except Error (Option Session) → Option Session
  | .ok (some x) => some x
  | _ => admitted

theorem marking_holder (h : w.permit = some ⟨t, admitted⟩) :
    (w.marking t found).permit = some ⟨t, marked admitted found⟩ := by
  unfold World.marking
  rw [h]
  match found with
  | .ok (some x) => simp [marked]
  | .ok none => exact h
  | .error _ => exact h

variable {headers : Headers} {transport : Snapshot}

theorem effect_findSession {r} (he : effect C t (.findSession headers transport) w r w') :
    Prune t w w' ∧ ∃ active, w' = World.marking { w with active := active } t r := by
  obtain ⟨x, hx⟩ := he
  simp only [perform, Option.some.injEq, Prod.mk.injEq] at hx
  obtain ⟨hsnapshot, hsessions⟩ := w.active.findSession_prune x.now headers transport
  rw [← hx.2, hx.1]
  exact ⟨marking_prune hsnapshot hsessions, _, rfl⟩

theorem Prune.finds (hp : Prune t w w') (hP : P.presents headers) :
    Guards verify P t (.findSession headers transport) w w' := by
  refine ⟨hp.steps, nofun, nofun, ?_⟩
  intro _ _ heq
  cases heq
  exact hP

theorem triple_findSession (hP : P.presents headers) (hp : h.permit = none) :
    Triple verify P C t h (.findSession headers transport) fun _ w' => h.At verify t w' := by
  intro w r w' ha he
  obtain ⟨hprune, active, hw'⟩ := effect_findSession he
  have hpermit : w'.permit = w.permit := by
    rw [hw']
    exact marking_bare (ha.bare hp)
  exact ⟨hprune.finds hP, hprune.hold hpermit ha⟩

theorem triple_findSession_admits (hP : P.presents headers) (hp : h.permit = some admitted) :
    Triple verify P C t h (.findSession headers transport) fun r w' =>
      ({ h with permit := some (marked admitted r) } : Hold).At verify t w' := by
  intro w r w' ha he
  obtain ⟨hprune, active, hw'⟩ := effect_findSession he
  refine ⟨hprune.finds hP, hprune.steps.inv ha.inv, nofun, ?_, ?_, ?_⟩
  · intro admitted' heq
    cases heq
    rw [hw']
    exact marking_holder (w := { w with active := active }) (ha.permit _ hp)
  · intro hnone
    rw [hprune.lock]
    exact ha.outside hnone
  · intro m0 saved n hsome
    obtain ⟨hlock, hmanager, hvalid⟩ := ha.inside m0 saved n hsome
    exact ⟨hprune.lock.trans hlock, hprune.manager.trans hmanager,
      hvalid.mono (by rw [hprune.snapshot]) fun x hx => hprune.sessions.subset hx⟩

/-! The manager's lock -/

theorem triple_lock {detached} (hi : h.inside = none) : Triple verify P C t h (.lock detached) fun r w' =>
      match r with
      | .ok m => ({ h with inside := some (m, m.credentials, m.turnstile.generation) } : Hold).At verify t w'
      | .error _ => h.At verify t w' := by
  rintro w r w' ha ⟨x, hx⟩
  have hout := ha.outside hi
  simp only [perform] at hx
  split at hx
  · cases hx
    exact guards_frame ⟨rfl, rfl, rfl, rfl⟩ ha rfl (by simp [World.Changes])
  · split at hx
    · rename_i hfree
      cases hx
      refine ⟨Steps.guards ⟨.inl rfl, .inr ⟨?_, ?_⟩, ?_, ?_, by simp [World.Changes]⟩ rfl, ?_⟩
      · intro u hu
        exact absurd (hfree.symm.trans hu) (by simp)
      · intro u hu
        exact (Option.some.inj hu).symm
      · intro u hu
        exact absurd (hfree.symm.trans hu) (by simp)
      · intro hinv
        exact ⟨by simp, hinv.few⟩
      · refine ⟨⟨by simp, ha.inv.few⟩, ha.bare, ha.permit, by simp, ?_⟩
        intro m0 saved n heq
        cases heq
        exact ⟨rfl, rfl, ha.inv.free hfree⟩
    · cases hx

/-- A section ends with sessions that are valid for the manager that it leaves, and it leaves other
credentials or another generation only with the permit. -/
theorem triple_unlock (hi : h.inside = some (m0, m.credentials, m.turnstile.generation)) (hkeeps : h.permit = none →
      m.credentials = m0.credentials ∧ m.turnstile.generation = m0.turnstile.generation) :
    Triple verify P C t h (.unlock m) fun _ w' => ({ h with inside := none } : Hold).At verify t w' := by
  rintro w r w' ha ⟨x, hx⟩
  cases hx
  obtain ⟨hlock, hmanager, hvalid⟩ := ha.inside _ _ _ hi
  have hinv : World.Inv verify { w with manager := m, lock := none } := ⟨fun _ => hvalid, ha.inv.few⟩
  refine ⟨Steps.guards ⟨.inl rfl, .inr ⟨?_, nofun⟩, ?_, fun _ => hinv, ?_⟩ rfl, hinv, ha.bare, ha.permit, nofun,
    (fun _ _ _ hsome => nomatch hsome)⟩
  · intro u hu
    exact (Option.some.inj (hu.symm.trans hlock))
  · intro u hu hne
    exact absurd (Option.some.inj (hu.symm.trans hlock)) hne
  · intro hch
    cases hp : h.permit with
    | none =>
      obtain ⟨hcredentials, hgeneration⟩ := hkeeps hp
      simp [World.Changes, hmanager, hcredentials, hgeneration] at hch
    | some admitted => exact ⟨admitted, ha.permit _ hp⟩

/-! The mutation permit -/

theorem steps_permit {p : Option Permit} (hold : ∀ p, w.permit = some p → p.holder = t)
    (hnew : ∀ q, p = some q → q.holder = t) : Steps verify t w { w with permit := p } where
  permit := .inr ⟨hold, hnew⟩
  lock := .inl rfl
  others := fun _ _ _ => ⟨rfl, rfl, fun _ hx => hx⟩
  inv := fun hinv => ⟨hinv.free, hinv.few⟩
  changes := by simp [World.Changes]

theorem Hold.At.take (ha : h.At verify t w) :
    ({ h with permit := some none } : Hold).At verify t { w with permit := some { holder := t } } where
  inv := ⟨ha.inv.free, ha.inv.few⟩
  bare := nofun
  permit := by
    intro admitted heq
    cases heq
    rfl
  outside := ha.outside
  inside := ha.inside

theorem steps_take (hfree : w.permit = none) : Steps verify t w { w with permit := some { holder := t } } := by
  refine steps_permit (fun p hp => absurd (hfree.symm.trans hp) (by simp)) fun q hq => ?_
  cases hq
  rfl

theorem triple_tryPermit : Triple verify P C t h .tryPermit fun r w' =>
      r = .ok true ∧ ({ h with permit := some none } : Hold).At verify t w' ∨ r = .ok false ∧ h.At verify t w' := by
  rintro w r w' ha ⟨x, hx⟩
  simp only [perform] at hx
  split at hx
  · rename_i hfree
    cases hx
    exact ⟨(steps_take hfree).guards rfl, .inl ⟨rfl, ha.take⟩⟩
  · cases hx
    obtain ⟨hguards, hold⟩ := guards_frame (P := P) (c := .tryPermit) ⟨rfl, rfl, rfl, rfl⟩ ha rfl (by simp [World.Changes])
    exact ⟨hguards, .inr ⟨rfl, hold⟩⟩

theorem triple_acquirePermit : Triple verify P C t h .acquirePermit fun r w' =>
      r = .ok () ∧ ({ h with permit := some none } : Hold).At verify t w' := by
  rintro w r w' ha ⟨x, hx⟩
  simp only [perform] at hx
  split at hx
  · rename_i hfree
    cases hx
    exact ⟨(steps_take hfree).guards rfl, rfl, ha.take⟩
  · cases hx

theorem triple_releasePermit (hp : h.permit = some admitted) :
    Triple verify P C t h .releasePermit fun _ w' => ({ h with permit := none } : Hold).At verify t w' := by
  rintro w r w' ha ⟨x, hx⟩
  cases hx
  have hholder : ∀ p, w.permit = some p → p.holder = t := by
    intro p heq
    cases heq.symm.trans (ha.permit _ hp)
    rfl
  have hs : Steps verify t w { w with permit := none } := steps_permit hholder nofun
  exact ⟨hs.guards rfl,
    ⟨ha.inv.free, ha.inv.few⟩, nofun, nofun, ha.outside, ha.inside⟩

end Triples

end Parins.Manage
