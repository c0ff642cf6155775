/-
The owner of background refreshes (`resolver/refresh.rs`): what it admits under
its limits, and what the end of a task leaves behind. Every operation takes the
owner's lock once, so a run is a sequence of them; a task's end is the destructor
of its `Completion`, after its work or an abort. The `JoinSet` of handles is kept
as the keys of the completions that are still alive.
-/
import Mathlib.Data.Finset.Dedup
import Mathlib.Data.Finset.Card
import Parins.Lib.Deadlines
import Parins.Lib.Window
import Parins.Resolver.Epochs

namespace Parins.Refresh
open Cache Lib List

def second : Nat := 1000000000

/-- The limits of `config.cache.prefetch`. -/
structure Limits where
  maxInflight : Nat
  ratePerSec : Nat
  backoffSecs : Nat

def Limits.backoff (limits : Limits) : Nat := limits.backoffSecs * second

def Limits.capacity (limits : Limits) : Nat := max 64 (min (limits.maxInflight * 8) 4096)

inductive Purpose where
  | prefetch | fill
deriving DecidableEq

/-- `Refresh` with its `State`. -/
structure Owner where
  closed : Bool := false
  active : Finset Bytes := ∅
  cooldown : AList fun _ : Bytes => Nat := ∅
  starts : List Nat := []
  scheduled : Nat := 0
  success : Nat := 0
  failure : Nat := 0
  rejectedDuplicate : Nat := 0
  rejectedCooldown : Nat := 0
  rejectedBudget : Nat := 0
  cancelledFillRejected : Nat := 0

/-- Eight bytes, the most significant first (`u64::to_be_bytes`). -/
def beBytes (n : Nat) : Bytes := (List.range 8).map fun i => UInt8.ofNat (n / 256 ^ (7 - i))

def workKey (H : Hickory) (query : Message) (epoch : Nat) : Option Bytes :=
  (Protocol.canonicalWorkKey H query).map (· ++ beBytes epoch)

inductive Rejected where
  | duplicate | cooldown | budget
deriving DecidableEq

namespace Owner

/-- Deadlines that are over and starts of more than a second ago go first. -/
def settle (s : Owner) (now : Nat) : Owner :=
  { s with cooldown := unexpired now s.cooldown, starts := expire second now s.starts }

/-- Why a key is not admitted. -/
def rejects (limits : Limits) (s : Owner) (key : Bytes) : Option Rejected :=
  if key ∈ s.active then some .duplicate
  else if (s.cooldown.lookup key).isSome then some .cooldown
  else if limits.maxInflight ≤ s.active.card ∨ limits.ratePerSec ≤ s.starts.length then some .budget
  else none

/-- A rejected prefetch is counted by its reason, a rejected fill on its own. -/
def count (s : Owner) (purpose : Purpose) (reason : Rejected) : Owner :=
  match purpose, reason with
  | .fill, _ => { s with cancelledFillRejected := s.cancelledFillRejected + 1 }
  | .prefetch, .duplicate => { s with rejectedDuplicate := s.rejectedDuplicate + 1 }
  | .prefetch, .cooldown => { s with rejectedCooldown := s.rejectedCooldown + 1 }
  | .prefetch, .budget => { s with rejectedBudget := s.rejectedBudget + 1 }

/-- `Refresh::schedule` under its lock: the owner, and whether a task was spawned. -/
def schedule (limits : Limits) (s : Owner) (key : Bytes) (purpose : Purpose) (now : Nat) : Owner × Bool :=
  let s := s.settle now
  if s.closed then (s, false)
  else
    match s.rejects limits key with
    | some reason => (s.count purpose reason, false)
    | none =>
      ({ s with active := insert key s.active, starts := s.starts ++ [now], scheduled := s.scheduled + 1 }, true)

/-- `Completion::drop`. `oldest` is the entry that `min_by_key` finds in a full table: one with the
earliest deadline, whichever comes first in the order of the map. -/
def complete (limits : Limits) (s : Owner) (key : Bytes) (result : Option Bool) (now : Nat) (oldest : Bytes) :
    Option Owner :=
  let s := { s with active := s.active.erase key }
  match result with
  | some true => some { s with success := s.success + 1 }
  | some false =>
    let s := { s with failure := s.failure + 1 }
    if s.closed then some s
    else (enter limits.capacity oldest key (now + limits.backoff) s.cooldown).map fun cooldown => { s with cooldown }
  | none => some s

/-- `Refresh::cancel`, and `Refresh::shutdown` before it waits. -/
def close (s : Owner) : Owner := { s with closed := true }

end Owner

/-! ## Runs -/

inductive Op where
  | schedule (query : Message) (epoch : Nat) (purpose : Purpose)
  /-- The completion of a task is dropped: with the result of its work, or without one. -/
  | complete (key : Bytes) (result : Option Bool) (oldest : Bytes)
  | cancel
  | shutdown

structure Event where
  now : Nat
  op : Op

/-- The owner and its tasks; and what happened: the starts and the failures with their times, and
how many tasks ended without a result. -/
structure InUse where
  owner : Owner := {}
  tasks : List Bytes := []
  started : List (Bytes × Nat) := []
  failed : List (Bytes × Nat) := []
  aborted : Nat := 0

def step (H : Hickory) (limits : Limits) (u : InUse) (e : Event) : Option InUse :=
  match e.op with
  | .schedule query epoch purpose =>
    match workKey H query epoch with
    | none => some u
    | some key =>
      let (owner, spawned) := u.owner.schedule limits key purpose e.now
      if spawned then some { u with owner, tasks := key :: u.tasks, started := u.started ++ [(key, e.now)] }
      else some { u with owner }
  | .complete key result oldest => do
    guard (key ∈ u.tasks)
    let owner ← u.owner.complete limits key result e.now oldest
    some { u with
      owner
      tasks := u.tasks.erase key
      failed := if result = some false then u.failed ++ [(key, e.now)] else u.failed
      aborted := if result = none then u.aborted + 1 else u.aborted }
  | .cancel | .shutdown => some { u with owner := u.owner.close }

/-! ## What a step does -/

variable {H : Hickory} {limits : Limits} {s s' : Owner} {u u' : InUse} {e : Event} {key oldest : Bytes} {now : Nat}

/-- The parts of the owner that counting a rejection leaves alone. -/
structure Owner.Same (s s' : Owner) : Prop where
  closed : s'.closed = s.closed
  active : s'.active = s.active
  cooldown : s'.cooldown = s.cooldown
  starts : s'.starts = s.starts
  scheduled : s'.scheduled = s.scheduled
  success : s'.success = s.success
  failure : s'.failure = s.failure

theorem count_same (s : Owner) (purpose reason) : s.Same (s.count purpose reason) := by
  cases purpose <;> cases reason <;> exact ⟨rfl, rfl, rfl, rfl, rfl, rfl, rfl⟩

/-- A key is admitted when it is neither active nor cooling down and both limits have room. -/
structure Owner.Admits (limits : Limits) (s : Owner) (key : Bytes) : Prop where
  isOpen : s.closed = false
  idle : key ∉ s.active
  cool : s.cooldown.lookup key = none
  inflight : s.active.card < limits.maxInflight
  rate : s.starts.length < limits.ratePerSec

theorem rejects_none (hopen : s.closed = false) (h : s.rejects limits key = none) : s.Admits limits key := by
  unfold Owner.rejects at h
  split at h
  · cases h
  · next hidle =>
    split at h
    · cases h
    · next hcool =>
      split at h
      · cases h
      · next hroom =>
        rw [not_or, Nat.not_le, Nat.not_le] at hroom
        exact ⟨hopen, hidle, by simpa using hcool, hroom.1, hroom.2⟩

theorem Owner.Admits.rejects (h : s.Admits limits key) : s.rejects limits key = none := by
  have hroom : ¬(limits.maxInflight ≤ s.active.card ∨ limits.ratePerSec ≤ s.starts.length) := by
    have := h.inflight
    have := h.rate
    omega
  rw [Owner.rejects, if_neg h.idle, h.cool, if_neg (by simp), if_neg hroom]

/-- The owner once it has admitted the key. -/
def Owner.begun (s : Owner) (key : Bytes) (now : Nat) : Owner :=
  { s with active := insert key s.active, starts := s.starts ++ [now], scheduled := s.scheduled + 1 }

theorem Owner.Admits.schedule (purpose) (h : (s.settle now).Admits limits key) :
    s.schedule limits key purpose now = ((s.settle now).begun key now, true) := by
  unfold Owner.schedule
  dsimp only
  rw [if_neg (by simp [h.isOpen]), h.rejects]
  rfl

theorem schedule_cases (limits) (s : Owner) (key purpose now) :
    ((s.schedule limits key purpose now).2 = false ∧ (s.settle now).Same (s.schedule limits key purpose now).1) ∨
      ((s.settle now).Admits limits key ∧
        s.schedule limits key purpose now = ((s.settle now).begun key now, true)) := by
  unfold Owner.schedule
  dsimp only
  split
  · exact .inl ⟨rfl, ⟨rfl, rfl, rfl, rfl, rfl, rfl, rfl⟩⟩
  · next hopen =>
    split
    · exact .inl ⟨rfl, count_same _ _ _⟩
    · next hadmitted => exact .inr ⟨rejects_none (by simpa using hopen) hadmitted, rfl⟩

/-- Everything a step can do. -/
inductive Does (limits : Limits) (u : InUse) (now : Nat) : InUse → Prop
  /-- No key, or a rejection. -/
  | refuse (s : Owner) (hsame : (u.owner.settle now).Same s ∨ s = u.owner) : Does limits u now { u with owner := s }
  | start (key : Bytes) (hadmits : (u.owner.settle now).Admits limits key) : Does limits u now
      { u with
        owner := (u.owner.settle now).begun key now
        tasks := key :: u.tasks
        started := u.started ++ [(key, now)] }
  | succeed (key : Bytes) (hmem : key ∈ u.tasks) : Does limits u now
      { u with
        owner := { u.owner with active := u.owner.active.erase key, success := u.owner.success + 1 }
        tasks := u.tasks.erase key }
  | fail (key oldest : Bytes) (hmem : key ∈ u.tasks) (cooldown : AList fun _ : Bytes => Nat)
      (hcooldown : u.owner.closed = true ∧ cooldown = u.owner.cooldown ∨
        u.owner.closed = false ∧
          enter limits.capacity oldest key (now + limits.backoff) u.owner.cooldown = some cooldown) :
      Does limits u now
      { u with
        owner := { u.owner with active := u.owner.active.erase key, failure := u.owner.failure + 1, cooldown }
        tasks := u.tasks.erase key
        failed := u.failed ++ [(key, now)] }
  | abort (key : Bytes) (hmem : key ∈ u.tasks) : Does limits u now
      { u with
        owner := { u.owner with active := u.owner.active.erase key }
        tasks := u.tasks.erase key
        aborted := u.aborted + 1 }
  | close : Does limits u now { u with owner := u.owner.close }

theorem step_does (h : step H limits u e = some u') : Does limits u e.now u' := by
  unfold step at h
  split at h
  · next query epoch purpose _ =>
    split at h
    · cases h
      exact .refuse u.owner (.inr rfl)
    · next key _ =>
      dsimp only at h
      obtain ⟨hno, hsame⟩ | ⟨hadmits, hs⟩ := schedule_cases limits u.owner key purpose e.now
      · rw [if_neg (by simp [hno])] at h
        cases h
        exact .refuse _ (.inl hsame)
      · rw [hs, if_pos rfl] at h
        cases h
        exact .start key hadmits
  · next key result oldest _ =>
    simp only [bind, Option.bind_eq_some_iff, Option.guard_eq_some', Option.some.injEq] at h
    obtain ⟨_, hmem, owner, hs, rfl⟩ := h
    unfold Owner.complete at hs
    cases result with
    | none =>
      cases hs
      exact .abort key hmem
    | some result =>
    cases result with
    | true =>
      cases hs
      exact .succeed key hmem
    | false =>
      dsimp only at hs
      split at hs
      · next hclosed =>
        cases hs
        exact .fail key oldest hmem _ (.inl ⟨hclosed, rfl⟩)
      · next hopen =>
        obtain ⟨cooldown, hc, rfl⟩ := Option.map_eq_some_iff.mp hs
        exact .fail key oldest hmem cooldown (.inr ⟨by simpa using hopen, hc⟩)
  · cases h
    exact .close
  · cases h
    exact .close

/-! ## Every run -/

theorem second_pos : 0 < second := by decide

theorem capacity_pos (limits : Limits) : 0 < limits.capacity := by
  unfold Limits.capacity
  omega

def InUse.startTimes (u : InUse) : List Nat := u.started.map Prod.snd

structure Inv (limits : Limits) (now : Nat) (u : InUse) : Prop where
  distinct : u.tasks.Nodup
  active : u.owner.active = u.tasks.toFinset
  inflight : u.tasks.length ≤ limits.maxInflight
  tracks : Tracks second now u.owner.starts u.startTimes
  bounded : AtMostIn second limits.ratePerSec u.startTimes
  size : u.owner.cooldown.keys.length ≤ limits.capacity
  remembers : u.owner.closed = false → Remembers limits.backoff limits.capacity now u.owner.cooldown u.failed
  accounted : u.owner.scheduled = u.owner.success + u.owner.failure + u.aborted + u.tasks.length

section
variable (h : Inv limits now u)
include h

theorem Inv.card : u.owner.active.card = u.tasks.length := by
  rw [h.active, toFinset_card_of_nodup h.distinct]

theorem Inv.later {after} (hle : now ≤ after) : Inv limits after u :=
  { h with
    tracks := h.tracks.later hle
    remembers := fun hopen => (h.remembers hopen).later hle }

/-- A task is gone: it is counted once, and its key is free. -/
theorem Inv.ended (hmem : key ∈ u.tasks) {success failure aborted cooldown failed}
    (hcount : success + failure + aborted = u.owner.success + u.owner.failure + u.aborted + 1)
    (hsize : cooldown.keys.length ≤ limits.capacity)
    (hremembers : u.owner.closed = false → Remembers limits.backoff limits.capacity now cooldown failed) :
    Inv limits now { u with
      owner := { u.owner with active := u.owner.active.erase key, success, failure, cooldown }
      tasks := u.tasks.erase key
      aborted, failed } := by
  have hlength := length_erase_of_mem hmem
  have hpos := length_pos_of_mem hmem
  have hroom := h.inflight
  have haccounted := h.accounted
  refine ⟨h.distinct.erase key, ?_, ?_, h.tracks, h.bounded, hsize, hremembers, ?_⟩
  · ext k
    simp only [h.active, Finset.mem_erase, mem_toFinset, h.distinct.mem_erase_iff]
  · dsimp only
    omega
  · dsimp only
    omega

theorem Inv.settle : Inv limits now { u with owner := u.owner.settle now } :=
  { h with
    tracks := h.tracks.expire second_pos
    size := (length_unexpired now _).trans h.size
    remembers := fun hopen => (h.remembers hopen).unexpired }

theorem Inv.same (hsame : u.owner.Same s) : Inv limits now { u with owner := s } where
  distinct := h.distinct
  active := hsame.active.trans h.active
  inflight := h.inflight
  tracks := by
    show Tracks second now s.starts u.startTimes
    rw [hsame.starts]
    exact h.tracks
  bounded := h.bounded
  size := by
    show s.cooldown.keys.length ≤ limits.capacity
    rw [hsame.cooldown]
    exact h.size
  remembers hopen := by
    show Remembers _ _ now s.cooldown u.failed
    rw [hsame.cooldown]
    exact h.remembers (hsame.closed ▸ hopen)
  accounted := by
    show s.scheduled = s.success + s.failure + u.aborted + u.tasks.length
    rw [hsame.scheduled, hsame.success, hsame.failure]
    exact h.accounted

theorem Inv.start (hadmits : u.owner.Admits limits key)
    (hsettled : u.owner.starts = recent second now u.startTimes) : Inv limits now { u with
      owner := u.owner.begun key now
      tasks := key :: u.tasks
      started := u.started ++ [(key, now)] } := by
  have hidle : key ∉ u.tasks := fun hmem => hadmits.idle (by rwa [h.active, mem_toFinset])
  have htimes : InUse.startTimes { u with started := u.started ++ [(key, now)] } = u.startTimes ++ [now] := by
    simp [InUse.startTimes]
  have hcard := h.card
  have hroom := hadmits.inflight
  have hrate := hadmits.rate
  exact {
    distinct := nodup_cons.mpr ⟨hidle, h.distinct⟩
    active := by
      show insert key u.owner.active = (key :: u.tasks).toFinset
      rw [h.active, toFinset_cons]
    inflight := by
      show u.tasks.length + 1 ≤ limits.maxInflight
      omega
    tracks := htimes ▸ h.tracks.push
    bounded := htimes ▸ h.bounded.snoc (hsettled ▸ hrate)
    size := h.size
    remembers := h.remembers
    accounted := by
      show u.owner.scheduled + 1 = u.owner.success + u.owner.failure + u.aborted + (u.tasks.length + 1)
      have := h.accounted
      omega }

theorem Inv.does (hd : Does limits u now u') : Inv limits now u' := by
  cases hd with
  | refuse s hsame =>
    rcases hsame with hsame | rfl
    · exact h.settle.same hsame
    · exact h
  | start key hadmits => exact h.settle.start hadmits (h.tracks.expire_eq second_pos)
  | succeed key hmem => exact h.ended hmem (by omega) h.size h.remembers
  | fail key oldest hmem cooldown hcooldown =>
    refine h.ended hmem (by omega) ?_ fun hopen => ?_
    · rcases hcooldown with ⟨_, rfl⟩ | ⟨_, henter⟩
      · exact h.size
      · exact length_enter (capacity_pos limits) h.size henter
    · rcases hcooldown with ⟨hclosed, _⟩ | ⟨hopen, henter⟩
      · exact absurd (hclosed.symm.trans hopen) (by decide)
      · exact (h.remembers hopen).enter henter
  | abort key hmem => exact h.ended hmem (by omega) h.size h.remembers
  | close => exact { h with remembers := fun hopen => nomatch hopen }

end

theorem inv_start (limits) : Inv limits 0 {} where
  distinct := .nil
  active := rfl
  inflight := Nat.zero_le _
  tracks := .nil _ _
  bounded _ := Nat.zero_le _
  size := Nat.zero_le _
  remembers _ := .nil _ _ _
  accounted := rfl

theorem Does.closed (hd : Does limits u now u') (hclosed : u.owner.closed = true) :
    u'.owner.closed = true ∧ u'.started = u.started := by
  cases hd with
  | refuse s hsame =>
    refine ⟨?_, rfl⟩
    rcases hsame with hsame | rfl
    · exact hsame.closed.trans hclosed
    · exact hclosed
  | start key hadmits => exact absurd (hclosed.symm.trans hadmits.isOpen) (by decide)
  | succeed | fail | abort => exact ⟨hclosed, rfl⟩
  | close => exact ⟨rfl, rfl⟩

theorem run_closed {events} (hclosed : u.owner.closed = true)
    (h : run (step H limits) u events = some u') : u'.started = u.started := by
  have := run_induction (I := fun _ v => v.owner.closed = true ∧ v.started = u.started) ⟨hclosed, rfl⟩
    (fun _ v e v' _ ih hs => by
      obtain ⟨hc, hsame⟩ := (step_does hs).closed ih.1
      exact ⟨hc, hsame.trans ih.2⟩) h
  exact this.2

theorem Does.started {t} (hd : Does limits u now u') (h : u'.started = u.started ++ [(key, t)]) :
    t = now ∧ (u.owner.settle now).Admits limits key := by
  cases hd with
  | start key' hadmits =>
    have hlast : (key', now) = (key, t) := singleton_injective (append_cancel_left h)
    cases hlast
    exact ⟨rfl, hadmits⟩
  | refuse | succeed | fail | abort | close =>
    have := congrArg List.length h
    simp at this

/-- **The refresh owner over whole runs.** At most `max_inflight` keys are active, each the key of one
task; every window of a second has at most `rate_per_sec` starts; the failure table keeps its size; a
key that failed at `t` is started again before `t + backoff` only when as many other failures at `t`
or later as the table holds have been seen; nothing starts once the owner is closed; and each
scheduled task has succeeded, failed, been aborted or is active. -/
theorem refresh_bounds {events : List Event} (hordered : Ordered Event.now events)
    (hrun : run (step H limits) {} events = some u) :
    u.owner.active.card ≤ limits.maxInflight ∧ u.tasks.Nodup ∧ u.owner.active = u.tasks.toFinset ∧
      AtMostIn second limits.ratePerSec (u.started.map Prod.snd) ∧
      u.owner.cooldown.keys.length ≤ limits.capacity ∧
      (∀ e u' key t, (∀ a ∈ events, a.now ≤ e.now) → step H limits u e = some u' →
        u'.started = u.started ++ [(key, e.now)] → (key, t) ∈ u.failed → e.now < t + limits.backoff →
        limits.capacity < u.failed.countP fun p => decide (t ≤ p.2)) ∧
      (∀ past e rest u0, events = past ++ e :: rest → e.op = .cancel ∨ e.op = .shutdown →
        run (step H limits) {} past = some u0 → u.started = u0.started) ∧
      u.owner.scheduled = u.owner.success + u.owner.failure + u.aborted + u.owner.active.card := by
  have hinv : ∀ t, (∀ a ∈ events, a.now ≤ t) → Inv limits t u := fun t ht =>
    run_timed Event.now (inv_start limits) (fun _ _ _ hle h => h.later hle) (fun _ _ _ h hs => h.does (step_does hs))
      hordered hrun ht
  obtain ⟨last, hlast⟩ := exists_after Event.now events
  have h := hinv last hlast
  refine ⟨h.card.le.trans h.inflight, h.distinct, h.active, h.bounded, h.size, ?_, ?_, h.card ▸ h.accounted⟩
  · intro e u' key t hle hs hstarted hfailed hsoon
    obtain ⟨_, hadmits⟩ := (step_does hs).started hstarted
    have hremembers := ((hinv e.now hle).remembers hadmits.isOpen).unexpired
    rcases hremembers.absent hadmits.cool hfailed with hover | hcount
    · omega
    · exact hcount
  · rintro past e rest u0 rfl hop h0
    rw [run_append, h0, Option.bind_some] at hrun
    have hclose : step H limits u0 e = some { u0 with owner := u0.owner.close } := by
      rcases hop with hop | hop <;> simp only [step, hop]
    rw [run, foldlM_cons, hclose] at hrun
    exact run_closed (u := { u0 with owner := u0.owner.close }) rfl hrun

/-! ### A full table -/

def sampleHickory : Hickory := Resolver.flightPlatform.hickory

def sampleKey (epoch : Nat) : Bytes := Resolver.sampleQueryWire ++ beBytes epoch

def fails (now epoch : Nat) (oldest : Bytes) : List Event :=
  [⟨now, .schedule sampleQuery.message epoch .prefetch⟩, ⟨now, .complete (sampleKey epoch) (some false) oldest⟩]

def sampleLimits : Limits := ⟨8, 1000, 30⟩

def crowd (n : Nat) : List Event := (List.range n).flatMap fun epoch => fails 0 epoch []

theorem workKey_sample (epoch) : workKey sampleHickory sampleQuery.message epoch = some (sampleKey epoch) := by
  have hwire : Protocol.canonicalWorkKey sampleHickory sampleQuery.message = some Resolver.sampleQueryWire := by
    decide +kernel
  rw [workKey, hwire]
  rfl

variable {i : Nat}

theorem sampleKey_ne {j} (hi : i < 256) (hj : j < 256) (h : i ≠ j) : sampleKey i ≠ sampleKey j := by
  intro heq
  have hlast : UInt8.ofNat i = UInt8.ofNat j := by
    have := congrArg List.getLast? (append_cancel_left heq)
    simpa [beBytes, range_succ] using this
  have := congrArg UInt8.toNat hlast
  simp at this
  omega

/-- After `n` failures at the same instant, all of them in the table. -/
structure Crowded (n : Nat) (u : InUse) : Prop where
  isOpen : u.owner.closed = false
  idle : u.owner.active = ∅
  quiet : u.tasks = []
  cooldown : u.owner.cooldown.entries = (List.range n).reverse.map fun i => ⟨sampleKey i, sampleLimits.backoff⟩
  starts : u.owner.starts = List.replicate n 0
  failed : u.failed = (List.range n).map fun i => (sampleKey i, 0)

variable {n : Nat}

theorem Crowded.settle (h : Crowded n u) (hnow : now < second) : u.owner.settle now = u.owner := by
  have hcooldown : unexpired now u.owner.cooldown = u.owner.cooldown := by
    refine AList.ext (filter_eq_self.mpr fun e he => ?_)
    rw [h.cooldown] at he
    obtain ⟨i, _, rfl⟩ := mem_map.mp he
    have hlong : second < sampleLimits.backoff := by decide
    exact decide_eq_true (hnow.trans hlong)
  have hstarts : expire second now u.owner.starts = u.owner.starts := by
    rw [h.starts]
    cases n with
    | zero => rfl
    | succ n => exact dropWhile_cons_of_neg (by simpa using hnow)
  rw [Owner.settle, hcooldown, hstarts]

theorem Crowded.keys (h : Crowded n u) : u.owner.cooldown.keys = (List.range n).reverse.map sampleKey := by
  rw [AList.keys, h.cooldown, List.keys, map_map]
  rfl

theorem Crowded.lookup_none (h : Crowded n u) (hn : n ≤ i) (hi : i < 256) :
    u.owner.cooldown.lookup (sampleKey i) = none := by
  rw [AList.lookup_eq_none, AList.mem_keys, h.keys, mem_map]
  rintro ⟨j, hj, heq⟩
  rw [mem_reverse, mem_range] at hj
  exact sampleKey_ne (by omega) hi (by omega) heq

theorem idle_admits (hopen : s.closed = false) (hidle : s.active = ∅) (hcool : s.cooldown.lookup key = none)
    (hstarts : s.starts.length < 1000) : (s.settle now).Admits sampleLimits key where
  isOpen := hopen
  idle := by
    show key ∉ s.active
    simp [hidle]
  cool := by
    show (unexpired now s.cooldown).lookup key = none
    rw [Option.eq_none_iff_forall_ne_some]
    intro deadline h
    rw [(lookup_unexpired.mp h).1] at hcool
    cases hcool
  inflight := by
    show s.active.card < 8
    simp [hidle]
  rate := (dropWhile_sublist _).length_le.trans_lt hstarts

theorem Crowded.run_fails {cooldown : AList fun _ : Bytes => Nat} (h : Crowded n u) (hn : n ≤ 64)
    (hnow : now < second)
    (henter : enter sampleLimits.capacity oldest (sampleKey n) (now + sampleLimits.backoff) u.owner.cooldown =
      some cooldown) :
    ∃ u', run (step sampleHickory sampleLimits) u (fails now n oldest) = some u' ∧ u'.owner.closed = false ∧
      u'.owner.active = ∅ ∧ u'.tasks = [] ∧ u'.owner.cooldown = cooldown ∧ u'.owner.starts = u.owner.starts ++ [now] ∧
      u'.failed = u.failed ++ [(sampleKey n, now)] := by
  have hadmits : (u.owner.settle now).Admits sampleLimits (sampleKey n) :=
    idle_admits h.isOpen h.idle (h.lookup_none le_rfl (by omega)) (by rw [h.starts, length_replicate]; omega)
  have hschedule := hadmits.schedule .prefetch
  rw [h.settle hnow] at hschedule
  have hrun : run (step sampleHickory sampleLimits) u (fails now n oldest) = some
      { u with
        owner := { u.owner with
          active := ∅, starts := u.owner.starts ++ [now], scheduled := u.owner.scheduled + 1
          failure := u.owner.failure + 1, cooldown }
        tasks := []
        started := u.started ++ [(sampleKey n, now)]
        failed := u.failed ++ [(sampleKey n, now)] } := by
    simp only [run, fails, foldlM_cons, foldlM_nil, step, workKey_sample, hschedule]
    simp [Owner.begun, Owner.complete, h.isOpen, h.idle, h.quiet, henter]
  exact ⟨_, hrun, h.isOpen, rfl, rfl, rfl, rfl, rfl⟩

theorem Crowded.next (h : Crowded n u) (hn : n < 64) :
    ∃ u', run (step sampleHickory sampleLimits) u (fails 0 n []) = some u' ∧ Crowded (n + 1) u' := by
  have hroom : enter sampleLimits.capacity [] (sampleKey n) (0 + sampleLimits.backoff) u.owner.cooldown =
      some (u.owner.cooldown.insert (sampleKey n) sampleLimits.backoff) := by
    have hcapacity : sampleLimits.capacity = 64 := rfl
    have hlength : u.owner.cooldown.entries.length = n := by
      rw [h.cooldown, length_map, length_reverse, length_range]
    rw [enter, displace, if_neg (by omega), Nat.zero_add]
    rfl
  obtain ⟨u', hrun, hopen, hidle, hquiet, hcooldown, hstarts, hfailed⟩ := h.run_fails hn.le (by decide) hroom
  refine ⟨u', hrun, hopen, hidle, hquiet, ?_, ?_, ?_⟩
  · have hnew : sampleKey n ∉ u.owner.cooldown := AList.lookup_eq_none.mp (h.lookup_none le_rfl (by omega))
    rw [hcooldown, AList.entries_insert_of_notMem hnew, h.cooldown, range_succ, reverse_append]
    rfl
  · rw [hstarts, h.starts, ← replicate_succ']
  · rw [hfailed, h.failed, range_succ, map_append]
    rfl

theorem crowd_run (hn : n ≤ 64) : ∃ u, run (step sampleHickory sampleLimits) {} (crowd n) = some u ∧ Crowded n u := by
  induction n with
  | zero => exact ⟨{}, rfl, ⟨rfl, rfl, rfl, rfl, rfl, rfl⟩⟩
  | succ n ih =>
    obtain ⟨u, hu, h⟩ := ih (by omega)
    obtain ⟨u', hu', h'⟩ := h.next hn
    refine ⟨u', ?_, h'⟩
    rw [crowd, range_succ, flatMap_append, run_append, ← crowd, hu, Option.bind_some, flatMap_singleton, hu']

/-- Sixty-four refreshes fail at once; one more fails a nanosecond later and takes the place of the last
of them; that one is asked for again. -/
def tied : List Event := crowd 64 ++ fails 1 64 (sampleKey 63)

def again : Event := ⟨2, .schedule sampleQuery.message 63 .prefetch⟩

theorem tied_run : ∃ u u', run (step sampleHickory sampleLimits) {} tied = some u ∧
    step sampleHickory sampleLimits u again = some u' ∧ u'.started = u.started ++ [(sampleKey 63, again.now)] ∧
    u.failed = (List.range 63).map (fun i => (sampleKey i, 0)) ++ (sampleKey 63, 0) :: [(sampleKey 64, 1)] := by
  obtain ⟨u, hu, h⟩ := crowd_run le_rfl
  have hearliest : Earliest u.owner.cooldown (sampleKey 63) := by
    rw [Earliest, h.cooldown]
    refine ⟨⟨sampleKey 63, sampleLimits.backoff⟩, mem_map.mpr ⟨63, by simp, rfl⟩, rfl, fun e he => ?_⟩
    obtain ⟨i, _, rfl⟩ := mem_map.mp he
    exact le_rfl
  have hfull : enter sampleLimits.capacity (sampleKey 63) (sampleKey 64) (1 + sampleLimits.backoff) u.owner.cooldown =
      some ((u.owner.cooldown.erase (sampleKey 63)).insert (sampleKey 64) (1 + sampleLimits.backoff)) := by
    have hcapacity : sampleLimits.capacity = 64 := rfl
    have hlength : u.owner.cooldown.entries.length = 64 := by
      rw [h.cooldown, length_map, length_reverse, length_range]
    rw [enter, displace, if_pos ⟨by omega, ne_nil_of_length_pos (by omega)⟩, if_pos hearliest]
    rfl
  obtain ⟨u', hlast, hopen, hidle, _, hcooldown, hstarts, hfailed⟩ := h.run_fails le_rfl (by decide) hfull
  have hcool : u'.owner.cooldown.lookup (sampleKey 63) = none := by
    rw [hcooldown, AList.lookup_insert_ne (sampleKey_ne (by decide) (by decide) (by decide)), AList.lookup_erase]
  have hfew : u'.owner.starts.length < 1000 := by
    rw [hstarts, h.starts, length_append, length_replicate]
    decide
  have hagain := (idle_admits hopen hidle hcool hfew : (u'.owner.settle 2).Admits _ _).schedule .prefetch
  have hrun : run (step sampleHickory sampleLimits) {} tied = some u' := by
    rw [tied, run_append, hu, Option.bind_some, hlast]
  obtain ⟨u'', hstep, hstarted⟩ : ∃ u'', step sampleHickory sampleLimits u' again = some u'' ∧
      u''.started = u'.started ++ [(sampleKey 63, again.now)] := by
    simp only [step, again, workKey_sample, hagain]
    exact ⟨_, rfl, rfl⟩
  refine ⟨u', u'', hrun, hstep, hstarted, ?_⟩
  rw [hfailed, h.failed, range_succ, map_append, append_assoc]
  rfl

theorem tied_ordered : Ordered Event.now (tied ++ [again]) := by
  unfold Ordered
  decide +kernel

/-- Among failures of one instant a single later one is enough: the key is started again long before
its backoff is over. -/
theorem refresh_displaced_by_one : ∃ u u' before after, Ordered Event.now (tied ++ [again]) ∧
    run (step sampleHickory sampleLimits) {} tied = some u ∧ step sampleHickory sampleLimits u again = some u' ∧
    u'.started = u.started ++ [(sampleKey 63, again.now)] ∧ u.failed = before ++ (sampleKey 63, 0) :: after ∧
    again.now < 0 + sampleLimits.backoff ∧ after.length = 1 ∧ sampleLimits.capacity = 64 := by
  obtain ⟨u, u', hu, hu', hstarted, hfailed⟩ := tied_run
  exact ⟨u, u', _, _, tied_ordered, hu, hu', hstarted, hfailed, by decide, rfl, rfl⟩

/-- The same run: sixty-four others had failed at that instant or later. -/
theorem refresh_bounds_tied : ∃ u, run (step sampleHickory sampleLimits) {} tied = some u ∧
    u.owner.cooldown.keys.length ≤ 64 ∧ 64 < u.failed.countP fun p => decide (0 ≤ p.2) := by
  obtain ⟨u, u', hu, hu', hstarted, hfailed⟩ := tied_run
  obtain ⟨hordered, _, hlast⟩ := pairwise_append.mp tied_ordered
  obtain ⟨_, _, _, _, hsize, hagain, _⟩ := refresh_bounds hordered hu
  have hmem : (sampleKey 63, 0) ∈ u.failed := by
    rw [hfailed]
    simp
  exact ⟨u, hu, hsize,
    hagain again u' (sampleKey 63) 0 (fun a ha => hlast a ha again (mem_singleton_self _)) hu' hstarted hmem (by decide)⟩

end Parins.Refresh
