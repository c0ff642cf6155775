/-
Threads that share one lock. A program brackets its accesses when it locks only
while it does not hold the lock and acts on the state only while it does; some
answers are faults, after which it asks for the lock that it holds. In a pool of
such programs a thread waits for itself exactly when there has been a fault.
-/
import Parins.Lib.Threads

namespace Parins.Lib
open Function

inductive Access where
  | lock | unlock
  /-- Only while the lock is held. -/
  | inner
  /-- Held or not. -/
  | outer
deriving DecidableEq

variable {T C : Type} {R : C → Type} {S α β : Type} [DecidableEq T]
  {access : C → Access} {fault : (c : C) → R c → Bool} {held : Bool}

namespace Program

/-- The next command asks for the lock. -/
def AsksLock (access : C → Access) (p : Program C R α) : Prop := ∃ c next, p = .ask c next ∧ access c = .lock

/-- From a state in which the thread holds the lock or not, the program brackets its accesses, and
returns without the lock. -/
def Brackets (access : C → Access) (fault : (c : C) → R c → Bool) : Bool → Program C R α → Prop
  | held, .pure _ => held = false
  | held, .ask c next =>
    match access c with
    | .lock => held = false ∧ ∀ r, (next r).Brackets access fault true
    | .unlock => held = true ∧ ∀ r, (next r).Brackets access fault false
    | .inner => held = true ∧ ∀ r, if fault c r then (next r).AsksLock access else (next r).Brackets access fault true
    | .outer => ∀ r, (next r).Brackets access fault held

theorem Brackets.bind {p : Program C R α} {f : α → Program C R β} (h : p.Brackets access fault held)
    (hf : ∀ a, (f a).Brackets access fault false) : (p.bind f).Brackets access fault held := by
  induction p generalizing held with
  | pure a =>
    cases h
    exact hf a
  | ask c next ih =>
    rw [Program.bind]
    unfold Brackets at h ⊢
    cases hc : access c with
    | lock =>
      rw [hc] at h
      exact ⟨h.1, fun r => ih r (h.2 r)⟩
    | unlock =>
      rw [hc] at h
      exact ⟨h.1, fun r => ih r (h.2 r)⟩
    | outer =>
      rw [hc] at h
      exact fun r => ih r (h r)
    | inner =>
      rw [hc] at h
      refine ⟨h.1, fun r => ?_⟩
      have hr := h.2 r
      split at hr
      · next hfault =>
        obtain ⟨c', next', heq, hlock⟩ := hr
        rw [if_pos hfault]
        exact ⟨c', fun r => (next' r).bind f, congrArg (Program.bind · f) heq, hlock⟩
      · next hok =>
        rw [if_neg hok]
        exact ih r hr

end Program

namespace Pool

/-- What the commands do to the holder of the lock. -/
structure Guards (effect : T → (c : C) → S → R c → S → Prop) (access : C → Access) (holder : S → Option T) : Prop where
  lock : ∀ {t c s r s'}, access c = .lock → effect t c s r s' → holder s = none ∧ holder s' = some t
  unlock : ∀ {t c s r s'}, access c = .unlock → effect t c s r s' → holder s' = none
  keeps : ∀ {t c s r s'}, access c ≠ .lock → access c ≠ .unlock → effect t c s r s' → holder s' = holder s

variable {effect : T → (c : C) → S → R c → S → Prop} {holder : S → Option T} {pool pool' start : Pool T C R S}
  {events : List (Event T C R S)} {t u : T} {c : C} {r : R c}

def SelfLocked (access : C → Access) (holder : S → Option T) (pool : Pool T C R S) (t : T) : Prop :=
  holder pool.state = some t ∧ (pool.threads t).AsksLock access

def Bracketed (access : C → Access) (fault : (c : C) → R c → Bool) (holder : S → Option T) (pool : Pool T C R S) : Prop :=
  ∀ t, (pool.threads t).Brackets access fault (decide (holder pool.state = some t))

theorem Bracketed.not_selfLocked (h : pool.Bracketed access fault holder) : ¬pool.SelfLocked access holder t := by
  rintro ⟨hholder, c, next, hasks, hlock⟩
  have := h t
  rw [hasks, Program.Brackets, hlock, hholder] at this
  simp at this

/-- A step without a fault keeps the brackets; one with a fault leaves its thread waiting for itself,
and every other thread outside of the lock. -/
theorem Bracketed.step (hguards : Guards effect access holder) (h : pool.Bracketed access fault holder)
    (hstep : pool.Step effect t c r pool') :
    (fault c r = true → access c = .inner → pool'.SelfLocked access holder t) ∧
      ((fault c r = true → access c ≠ .inner) → pool'.Bracketed access fault holder) ∧
      (access c = .inner → ∀ u, u ≠ t → (pool'.threads u).Brackets access fault false) := by
  obtain ⟨asks, does⟩ := hstep
  rename_i next s'
  have ht := h t
  rw [asks, Program.Brackets] at ht
  -- the others are not touched, and stand to the lock as they did
  have hothers : ∀ u, u ≠ t → (holder s' = some u ↔ holder pool.state = some u) →
      (Function.update pool.threads t (next r) u).Brackets access fault (decide (holder s' = some u)) := by
    intro u hu hiff
    rw [update_of_ne hu, decide_eq_decide.mpr hiff]
    exact h u
  have hself : (next r).Brackets access fault (decide (holder s' = some t)) →
      (∀ u, u ≠ t → (holder s' = some u ↔ holder pool.state = some u)) →
      Bracketed access fault holder ⟨s', Function.update pool.threads t (next r)⟩ := by
    intro hnext hiff u
    by_cases hu : u = t
    · subst hu
      show (Function.update pool.threads u (next r) u).Brackets access fault _
      rw [update_self]
      exact hnext
    · exact hothers u hu (hiff u hu)
  cases hc : access c with
  | lock =>
    rw [hc] at ht
    obtain ⟨hfree, htaken⟩ := hguards.lock hc does
    refine ⟨nofun, fun _ => hself ?_ ?_, nofun⟩
    · rw [htaken, decide_eq_true rfl]
      exact ht.2 r
    · intro u hu
      simp [hfree, htaken, Ne.symm hu]
  | unlock =>
    rw [hc] at ht
    have hholder : holder pool.state = some t := of_decide_eq_true ht.1
    have hfree := hguards.unlock hc does
    refine ⟨nofun, fun _ => hself ?_ ?_, nofun⟩
    · rw [hfree]
      exact ht.2 r
    · intro u hu
      simp [hfree, hholder, Ne.symm hu]
  | outer =>
    rw [hc] at ht
    have hkept := hguards.keeps (by simp [hc]) (by simp [hc]) does
    refine ⟨nofun, fun _ => hself ?_ ?_, nofun⟩
    · rw [hkept]
      exact ht r
    · intro u _
      rw [hkept]
  | inner =>
    rw [hc] at ht
    have hholder : holder pool.state = some t := of_decide_eq_true ht.1
    have hkept := hguards.keeps (by simp [hc]) (by simp [hc]) does
    have hnext := ht.2 r
    refine ⟨fun hfault _ => ?_, fun hno => hself ?_ ?_, fun _ u hu => ?_⟩
    · rw [if_pos hfault] at hnext
      refine ⟨hkept.trans hholder, ?_⟩
      show (Function.update pool.threads t (next r) t).AsksLock access
      rw [update_self]
      exact hnext
    · rw [if_neg fun hfault => hno hfault rfl] at hnext
      rw [hkept, hholder, decide_eq_true rfl]
      exact hnext
    · intro u _
      rw [hkept]
    · have := hothers u hu (by rw [hkept])
      rwa [hkept, hholder, decide_eq_false (by simpa using Ne.symm hu)] at this

/-- A thread that waits for itself waits for ever: no other can release the lock. -/
theorem SelfLocked.step (hguards : Guards effect access holder) (h : pool.SelfLocked access holder t)
    (hothers : ∀ u, u ≠ t → (pool.threads u).Brackets access fault false) (hstep : pool.Step effect u c r pool') :
    pool'.SelfLocked access holder t ∧ ∀ u, u ≠ t → (pool'.threads u).Brackets access fault false := by
  obtain ⟨hholder, c', next', hwaits, hlock⟩ := h
  obtain ⟨asks, does⟩ := hstep
  rename_i next s'
  have hut : u ≠ t := by
    rintro rfl
    rw [hwaits] at asks
    cases asks
    have := (hguards.lock hlock does).1
    rw [hholder] at this
    cases this
  have hu := hothers u hut
  rw [asks, Program.Brackets] at hu
  have houter : access c = .outer := by
    cases hc : access c with
    | lock =>
      have := (hguards.lock hc does).1
      rw [hholder] at this
      cases this
    | unlock =>
      rw [hc] at hu
      cases hu.1
    | inner =>
      rw [hc] at hu
      cases hu.1
    | outer => rfl
  rw [houter] at hu
  have hkept := hguards.keeps (by simp [houter]) (by simp [houter]) does
  refine ⟨⟨hkept.trans hholder, c', next', ?_, hlock⟩, fun v hv => ?_⟩
  · show Function.update pool.threads u (next r) t = _
    rw [update_of_ne (Ne.symm hut)]
    exact hwaits
  · show (Function.update pool.threads u (next r) v).Brackets access fault false
    by_cases hvu : v = u
    · subst hvu
      rw [update_self]
      exact hu r
    · rw [update_of_ne hvu]
      exact hothers v hv

/-- **Waiting for oneself** comes from a fault, and every fault leads to it. -/
theorem Trace.selfLocked_iff (hguards : Guards effect access holder) (hinner : ∀ c r, fault c r = true → access c = .inner)
    (hstart : start.Bracketed access fault holder) (htrace : Trace effect start events pool) :
    (∃ t, pool.SelfLocked access holder t) ↔ ∃ e ∈ events, fault e.command e.answer = true := by
  -- the first fault is the last: its thread never goes on
  have hinv : (pool.Bracketed access fault holder ∧ ¬∃ e ∈ events, fault e.command e.answer = true) ∨
      (∃ t, pool.SelfLocked access holder t ∧ ∀ u, u ≠ t → (pool.threads u).Brackets access fault false) ∧
        ∃ e ∈ events, fault e.command e.answer = true := by
    induction htrace with
    | nil => exact .inl ⟨hstart, by simp⟩
    | @snoc events pool pool' t c r run step ih =>
      rcases ih with ⟨hbracketed, hnone⟩ | ⟨⟨t, hlocked, hothers⟩, e, he, hfault⟩
      · obtain ⟨hfaulty, hsound, hrest⟩ := hbracketed.step hguards step
        by_cases hfault : fault c r = true
        · have hc := hinner c r hfault
          exact .inr ⟨⟨t, hfaulty hfault hc, hrest hc⟩, _, List.mem_append_right _ (List.mem_singleton_self _), hfault⟩
        · refine .inl ⟨hsound fun h => absurd h hfault, ?_⟩
          rintro ⟨e, he, hef⟩
          rcases List.mem_append.mp he with he | he
          · exact hnone ⟨e, he, hef⟩
          · obtain rfl := List.mem_singleton.mp he
            exact hfault hef
      · exact .inr ⟨⟨t, hlocked.step hguards hothers step⟩, e, List.mem_append_left _ he, hfault⟩
  rcases hinv with ⟨hbracketed, hnone⟩ | ⟨⟨t, hlocked, _⟩, hfault⟩
  · exact ⟨fun ⟨t, ht⟩ => absurd ht hbracketed.not_selfLocked, fun h => absurd h hnone⟩
  · exact ⟨fun _ => hfault, fun _ => ⟨t, hlocked⟩⟩

end Pool

end Parins.Lib
