/-
Runs of a step function that may fail, over a list of events: induction along
the history, runs that never fail, and invariants that depend on a clock that
never goes back.
-/
import Mathlib.Data.List.Induction

namespace Parins.Lib

variable {σ ε : Type} {step : σ → ε → Option σ} {s0 s : σ} {events : List ε}

def run (step : σ → ε → Option σ) (s : σ) (events : List ε) : Option σ := events.foldlM step s

theorem run_snoc (s0 past e) : run step s0 (past ++ [e]) = (run step s0 past).bind fun s => step s e := by
  simp only [run, List.foldlM_append, List.foldlM_cons, List.foldlM_nil, bind_pure, Option.bind_eq_bind]

theorem run_append (s0 past later) :
    run step s0 (past ++ later) = (run step s0 past).bind fun s => run step s later := by
  simp only [run, List.foldlM_append, Option.bind_eq_bind]

/-- Along every run: what holds at the start and is kept by each step, given the events before it. -/
theorem run_induction {I : List ε → σ → Prop} (start : I [] s0)
    (next : ∀ past s e s', run step s0 past = some s → I past s → step s e = some s' → I (past ++ [e]) s')
    (h : run step s0 events = some s) : I events s := by
  induction events using List.reverseRecOn generalizing s with
  | nil =>
    cases h
    exact start
  | append_singleton past e ih =>
    rw [run_snoc, Option.bind_eq_some_iff] at h
    obtain ⟨s1, h1, hs⟩ := h
    exact next past s1 e s h1 (ih h1) hs

theorem run_total {I : σ → Prop} (start : I s0) (next : ∀ s e, I s → ∃ s', step s e = some s' ∧ I s')
    (events : List ε) : ∃ s, run step s0 events = some s ∧ I s := by
  induction events using List.reverseRecOn with
  | nil => exact ⟨s0, rfl, start⟩
  | append_singleton past e ih =>
    obtain ⟨s, hs, hinv⟩ := ih
    obtain ⟨s', hs', hinv'⟩ := next s e hinv
    exact ⟨s', by rw [run_snoc, hs, Option.bind_some, hs'], hinv'⟩

def Ordered (time : ε → Nat) (events : List ε) : Prop := events.Pairwise fun a b => time a ≤ time b

theorem exists_after (time : ε → Nat) (events : List ε) : ∃ t, ∀ e ∈ events, time e ≤ t := by
  induction events with
  | nil => exact ⟨0, nofun⟩
  | cons a events ih =>
    obtain ⟨t, ht⟩ := ih
    refine ⟨max (time a) t, List.forall_mem_cons.mpr ⟨by omega, fun e he => ?_⟩⟩
    have := ht e he
    omega

variable {I : Nat → σ → Prop}

/-- An invariant that time alone keeps, and so does each step at its own time, holds from the last
event on. -/
theorem run_timed (time : ε → Nat) (start : I 0 s0) (later : ∀ t t' s, t ≤ t' → I t s → I t' s)
    (next : ∀ s e s', I (time e) s → step s e = some s' → I (time e) s')
    (hordered : Ordered time events) (h : run step s0 events = some s) {t : Nat} (ht : ∀ e ∈ events, time e ≤ t) :
    I t s := by
  refine run_induction (I := fun past s => Ordered time past → ∀ t, (∀ e ∈ past, time e ≤ t) → I t s)
    (fun _ t _ => later 0 t s0 (Nat.zero_le t) start) ?_ h hordered t ht
  intro past s e s' _ ih hstep hord t ht
  obtain ⟨hpast, _, hlast⟩ := List.pairwise_append.mp hord
  have hnow : I (time e) s := ih hpast (time e) fun a ha => hlast a ha e (List.mem_singleton_self e)
  exact later (time e) t s' (ht e (by simp)) (next s e s' hnow hstep)

theorem run_timed_total (time) (start : I 0 s0) (later : ∀ t t' s, t ≤ t' → I t s → I t' s)
    (next : ∀ s e, I (time e) s → ∃ s', step s e = some s' ∧ I (time e) s') (hordered : Ordered time events) :
    ∃ s, run step s0 events = some s ∧ (∃ t, I t s) ∧ ∀ t, (∀ e ∈ events, time e ≤ t) → I t s := by
  induction events using List.reverseRecOn with
  | nil => exact ⟨s0, rfl, ⟨0, start⟩, fun t _ => later 0 t s0 (Nat.zero_le t) start⟩
  | append_singleton past e ih =>
    obtain ⟨hpast, _, hlast⟩ := List.pairwise_append.mp hordered
    obtain ⟨s, hs, _, hinv⟩ := ih hpast
    obtain ⟨s', hs', hinv'⟩ := next s e (hinv _ fun a ha => hlast a ha e (List.mem_singleton_self e))
    exact ⟨s', by rw [run_snoc, hs, Option.bind_some, hs'], ⟨_, hinv'⟩, fun t ht => later _ t s' (ht e (by simp)) hinv'⟩

end Parins.Lib
