/-
The lock of the refresh owner, held from admission to the end of `spawn`: the
operations of `resolver/refresh.rs` as programs that any threads run. Where a
future is dropped its destructor runs, in the same thread; the owner is alive,
as whoever holds its lock keeps it so.
-/
import Parins.Lib.Locks
import Parins.Resolver.Refresh

namespace Parins.Refresh.Lock
open Lib Cache

abbrev Thread := Nat

/-- What the executor does with a future before `JoinSet::spawn` returns: it keeps it, to run or to
abort it later, or drops it, as a runtime that is shutting down does. -/
inductive Spawned where
  | kept | dropped
deriving DecidableEq

inductive Command where
  /-- `Instant::now`. -/
  | clock
  | lock
  | unlock
  /-- `schedule` up to the work: whether it goes on. -/
  | accept (key : Bytes) (purpose : Purpose) (now : Nat)
  | spawn (key : Bytes)
  /-- The body of `Completion::drop`. -/
  | finish (key : Bytes) (result : Option Bool)
  /-- `closed = true` and `abort_all`. -/
  | close
  /-- Until the tasks that were taken have ended. -/
  | join
  | read
deriving DecidableEq

abbrev Reply : Command → Type
  | .clock => Nat
  | .accept .. => Bool
  | .spawn _ => Spawned
  | .read => Owner
  | .lock | .unlock | .finish .. | .close | .join => Unit

abbrev Code := Program Command Reply

def ask (c : Command) : Code (Reply c) := .ask c .pure

/-! ### The operations -/

/-- `Completion::drop`. -/
def complete (key : Bytes) (result : Option Bool) : Code Unit :=
  (ask .lock).bind fun _ => (ask (.finish key result)).bind fun _ => (ask .unlock)

/-- `JoinSet::spawn` of the task: a future that is dropped drops its `Completion`, which has no
result yet. -/
def spawn (key : Bytes) : Code Unit :=
  (ask (.spawn key)).bind fun
    | .kept => .pure ()
    | .dropped => complete key none

/-- `Refresh::schedule`; its guard lives to the end. -/
def schedule (H : Hickory) (query : Message) (epoch : Nat) (purpose : Purpose) : Code Unit :=
  match workKey H query epoch with
  | none => .pure ()
  | some key =>
    (ask .clock).bind fun now => (ask .lock).bind fun _ => (ask (.accept key purpose now)).bind fun spawns =>
      (if spawns then spawn key else .pure ()).bind fun _ => ask .unlock

def cancel : Code Unit := (ask .lock).bind fun _ => (ask .close).bind fun _ => ask .unlock

/-- `Refresh::shutdown`, which waits without the lock. -/
def shutdown : Code Unit :=
  (ask .lock).bind fun _ => (ask .close).bind fun _ => (ask .unlock).bind fun _ => ask .join

def snapshot : Code Owner :=
  (ask .lock).bind fun _ => (ask .read).bind fun owner => (ask .unlock).bind fun _ => .pure owner

/-- What a thread may do: a call, or the end of a task that it ran or aborted. -/
inductive Call where
  | schedule (query : Message) (epoch : Nat) (purpose : Purpose)
  | complete (key : Bytes) (result : Option Bool)
  | cancel
  | shutdown
  | snapshot

def Call.code (H : Hickory) : Call → Code Unit
  | .schedule query epoch purpose => Lock.schedule H query epoch purpose
  | .complete key result => Lock.complete key result
  | .cancel => Lock.cancel
  | .shutdown => Lock.shutdown
  | .snapshot => Lock.snapshot.bind fun _ => .pure ()

/-- A thread: one call after the other. -/
def thread (H : Hickory) : List Call → Code Unit
  | [] => .pure ()
  | call :: calls => (call.code H).bind fun _ => thread H calls

/-! ### What the commands do -/

structure World where
  owner : Owner := {}
  holder : Option Thread := none

/-- The lock waits while it is taken; which entry a full failure table gives up and what the executor
does with a future is the environment's. -/
def effect (limits : Limits) (t : Thread) : (c : Command) → World → Reply c → World → Prop
  | .clock, w, _, w' => w' = w
  | .lock, w, _, w' => w.holder = none ∧ w' = { w with holder := some t }
  | .unlock, w, _, w' => w' = { w with holder := none }
  | .accept key purpose now, w, spawns, w' =>
    (w'.owner, spawns) = w.owner.schedule limits key purpose now ∧ w'.holder = w.holder
  | .spawn _, w, _, w' => w' = w
  | .finish key result, w, _, w' =>
    (∃ now oldest, w.owner.complete limits key result now oldest = some w'.owner) ∧ w'.holder = w.holder
  | .close, w, _, w' => w' = { w with owner := w.owner.close }
  | .join, w, _, w' => w' = w
  | .read, w, owner, w' => owner = w.owner ∧ w' = w

def start (H : Hickory) (calls : Thread → List Call) : Pool Thread Command Reply World := ⟨{}, fun t => thread H (calls t)⟩

/-- The future of this event's `spawn` was dropped before `spawn` returned. -/
def dropsAtOnce : (c : Command) → Reply c → Bool
  | .spawn _, r => r == Spawned.dropped
  | _, _ => false

def Deadlocked (pool : Pool Thread Command Reply World) (t : Thread) : Prop :=
  pool.state.holder = some t ∧ ∃ next, pool.threads t = .ask .lock next

/-! ### Brackets -/

def access : Command → Access
  | .clock | .join => .outer
  | .lock => .lock
  | .unlock => .unlock
  | .accept .. | .spawn _ | .finish .. | .close | .read => .inner

variable {H : Hickory} {limits : Limits}

theorem guards : Pool.Guards (effect limits) access World.holder where
  lock := by
    intro t c s r s' hc he
    cases c <;> simp_all [access, effect]
  unlock := by
    intro t c s r s' hc he
    cases c <;> simp_all [access, effect]
  keeps := by
    intro t c s r s' hlock hunlock he
    cases c <;> simp_all [access, effect]

theorem inner_of_drop (c r) (h : dropsAtOnce c r = true) : access c = .inner := by
  cases c <;> first | rfl | cases h

theorem schedule_brackets (query epoch purpose) :
    (schedule H query epoch purpose).Brackets access dropsAtOnce false := by
  unfold schedule
  split
  · rfl
  · intro now
    refine ⟨rfl, fun _ => ⟨rfl, fun spawns => ?_⟩⟩
    cases spawns with
    | false => exact ⟨rfl, fun _ => rfl⟩
    | true =>
      refine ⟨rfl, fun r => ?_⟩
      cases r with
      | kept => exact ⟨rfl, fun _ => rfl⟩
      | dropped => exact ⟨.lock, _, rfl, rfl⟩

theorem Call.brackets (call : Call) : (call.code H).Brackets access dropsAtOnce false := by
  cases call with
  | schedule query epoch purpose => exact schedule_brackets query epoch purpose
  | complete key result => exact ⟨rfl, fun _ => ⟨rfl, fun _ => ⟨rfl, fun _ => rfl⟩⟩⟩
  | cancel => exact ⟨rfl, fun _ => ⟨rfl, fun _ => ⟨rfl, fun _ => rfl⟩⟩⟩
  | shutdown => exact ⟨rfl, fun _ => ⟨rfl, fun _ => ⟨rfl, fun _ _ => rfl⟩⟩⟩
  | snapshot => exact ⟨rfl, fun _ => ⟨rfl, fun _ => ⟨rfl, fun _ => rfl⟩⟩⟩

theorem thread_brackets (calls) : (thread H calls).Brackets access dropsAtOnce false := by
  induction calls with
  | nil => rfl
  | cons call calls ih => exact call.brackets.bind fun _ => ih

variable {pool : Pool Thread Command Reply World}

theorem deadlocked_iff {t} : Deadlocked pool t ↔ pool.SelfLocked access World.holder t := by
  refine and_congr_right fun _ => ⟨fun ⟨next, h⟩ => ⟨.lock, next, h, rfl⟩, fun ⟨c, next, h, hc⟩ => ?_⟩
  cases c <;> first | exact ⟨next, h⟩ | cases hc

/-- **The owner and its own lock.** In every run of every threads, none asks for the lock while it
holds it exactly when no `spawn` dropped its future before it returned. -/
theorem lock_reentered_iff {calls : Thread → List Call} {events : List (Pool.Event Thread Command Reply World)}
    {pool : Pool Thread Command Reply World} (htrace : Pool.Trace (effect limits) (start H calls) events pool) :
    (∀ t, ¬Deadlocked pool t) ↔ ∀ e ∈ events, dropsAtOnce e.command e.answer = false := by
  have hstart : (start H calls).Bracketed access dropsAtOnce World.holder := fun t => thread_brackets (calls t)
  have hiff := htrace.selfLocked_iff guards inner_of_drop hstart
  simp only [← deadlocked_iff] at hiff
  rw [← not_exists, hiff]
  simp

/-! ### One departed request -/

/-- One thread at time 0, on an executor that does `x` with a future. -/
def perform (limits : Limits) (t : Thread) (x : Spawned) : (c : Command) → World → Option (Reply c × World)
  | .clock, w => some ((0 : Nat), w)
  | .lock, w => if w.holder = none then some ((), { w with holder := some t }) else none
  | .unlock, w => some ((), { w with holder := none })
  | .accept key purpose now, w =>
    some ((w.owner.schedule limits key purpose now).2, { w with owner := (w.owner.schedule limits key purpose now).1 })
  | .spawn _, w => some (x, w)
  | .finish key result, w => (w.owner.complete limits key result 0 key).map fun owner => ((), { w with owner })
  | .close, w => some ((), { w with owner := w.owner.close })
  | .join, w => some ((), w)
  | .read, w => some (w.owner, w)

theorem perform_effect (t x c w r w') (h : perform limits t x c w = some (r, w')) : effect limits t c w r w' := by
  cases c with
  | lock =>
    simp only [perform] at h
    split at h
    · next hfree =>
      cases h
      exact ⟨hfree, rfl⟩
    · cases h
  | finish key result =>
    obtain ⟨owner, hs, heq⟩ := Option.map_eq_some_iff.mp h
    cases heq
    exact ⟨⟨0, key, hs⟩, rfl⟩
  | clock | unlock | spawn | close | join =>
    cases h
    rfl
  | accept | read =>
    cases h
    exact ⟨rfl, rfl⟩

/-- A caller has left after its query was sent. -/
def departed : Thread → List Call
  | 0 => [.schedule sampleQuery.message 7 .fill]
  | _ => []

/-- Clock, lock, admission and `spawn`. -/
def departs (x : Spawned) : Option (List (Pool.Event Thread Command Reply World) × Pool Thread Command Reply World) :=
  Pool.play (perform sampleLimits) ([], start sampleHickory departed) (List.replicate 4 (0, x))

theorem departs_trace {x : Spawned} {events : List (Pool.Event Thread Command Reply World)}
    (h : departs x = some (events, pool)) :
    Pool.Trace (effect sampleLimits) (start sampleHickory departed) events pool := by
  unfold departs at h
  refine Pool.Trace.play perform_effect ?_ h
  exact .nil

def waits : Code Unit → Bool
  | .ask .lock _ => true
  | _ => false

theorem waits_ask {p} (h : waits p = true) : ∃ next, p = .ask .lock next := by
  unfold waits at h
  split at h
  · exact ⟨_, rfl⟩
  · cases h

/-- The runtime is shutting down: it drops the future in `spawn`, and the thread waits for itself. -/
theorem lock_reentered_at_shutdown : ∃ events pool,
    Pool.Trace (effect sampleLimits) (start sampleHickory departed) events pool ∧ Deadlocked pool 0 := by
  have hshape : (departs .dropped).map (fun run => (run.2.state.holder, waits (run.2.threads 0))) =
    some (some 0, true) := by
    decide +kernel
  obtain ⟨⟨events, pool⟩, hrun, heq⟩ := Option.map_eq_some_iff.mp hshape
  rw [Prod.mk.injEq] at heq
  exact ⟨events, pool, departs_trace hrun, heq.1, waits_ask heq.2⟩

/-- An executor that keeps the future. -/
theorem lock_reentered_iff_kept : ∃ events pool,
    Pool.Trace (effect sampleLimits) (start sampleHickory departed) events pool ∧ events.length = 4 ∧
      ∀ t, ¬Deadlocked pool t := by
  have hshape : (departs .kept).map (fun run => (run.1.length, run.1.all fun e => !dropsAtOnce e.command e.answer)) =
      some (4, true) := by decide +kernel
  obtain ⟨⟨events, pool⟩, hrun, heq⟩ := Option.map_eq_some_iff.mp hshape
  rw [Prod.mk.injEq, List.all_eq_true] at heq
  refine ⟨events, pool, departs_trace hrun, heq.1, (lock_reentered_iff (departs_trace hrun)).mpr fun e he => ?_⟩
  simpa using heq.2 e he

end Parins.Refresh.Lock
