/-
Shared work in flight (`flight.rs`), at the grain of its atomic steps. A join
runs under the registry's lock; leaving and dropping a hold are single atomic
operations on a counter, each followed by the release of the hold's reference to
the work, and they come between any two steps of a join. A weak reference can be
upgraded while some reference to the work is left, that of a join included.
-/
import Parins.Resolver.Epochs

namespace Parins.Flight
open Cache Lib List Option Function

/-- How far a hold has come: it is counted, or `leave` or `drop` took it off the counter. -/
inductive Phase where
  | counted | left | dropped
deriving DecidableEq

structure Hold where
  work : Nat
  phase : Phase := .counted
  /-- Its `Shared` exists and has not given its result. -/
  strong : Bool := true
deriving DecidableEq

/-- Where the join is that has the lock. -/
inductive Joining where
  /-- `retain` has these groups to look at. -/
  | reaping (key : Bytes) (todo : List (Bytes × Nat))
  /-- The group of the key was upgraded. -/
  | found (work : Nat)
  | missing (key : Bytes)
  /-- The hold of this work is about to be counted. -/
  | counting (work : Nat) (role : Role)
deriving DecidableEq

/-- The work that the join itself keeps alive. -/
def Joining.keeps : Joining → Option Nat
  | .found work | .counting work _ => some work
  | .reaping .. | .missing _ => none

/-- `Flights`, with all work and holds that it has made and the results of the joins. Works are numbered;
each has the key that it was registered for, the counter of its holds and whether it is finished. -/
structure State where
  groups : List (Bytes × Nat) := []
  works : Nat := 0
  keyOf : Nat → Option Bytes := fun _ => none
  counter : Nat → Nat := fun _ => 0
  finished : Nat → Bool := fun _ => false
  holds : List Hold := []
  joining : Option Joining := none
  answers : List (Option (Nat × Role)) := []

namespace State

/-- A reference to the work is left. -/
def alive (s : State) (work : Nat) : Bool :=
  s.holds.any (fun h => h.work = work ∧ h.strong) || s.joining.any fun j => j.keeps = some work

/-- `Hold::new`, in 64 bits, with which a join returns. -/
def newHold (s : State) (work : Nat) (role : Role) : State :=
  { s with
    counter := Function.update s.counter work ((s.counter work + 1) % 2 ^ 64)
    holds := s.holds ++ [{ work }]
    joining := none
    answers := s.answers ++ [some (s.holds.length, role)] }

def refuse (s : State) : State := { s with joining := none, answers := s.answers ++ [none] }

/-- The start of `Flights::join`: work that is not shared gets a counter of its own, other calls wait
for the lock. `order` is that in which `retain` visits the map. -/
def join (config : CoalescingConfig) (s : State) (key : Option Bytes) (order : List (Bytes × Nat)) : Option State :=
  match if config.enabled then key else none with
  | none => some { s with
      works := s.works + 1
      counter := Function.update s.counter s.works 1
      holds := s.holds ++ [{ work := s.works }]
      answers := s.answers ++ [some (s.holds.length, .bypass)] }
  | some key =>
    if s.joining = none ∧ order.Perm s.groups then some { s with joining := some (.reaping key order) } else none

/-- The next step of the join that has the lock. -/
def advance (config : CoalescingConfig) (s : State) : Option State :=
  s.joining.map fun
    | .reaping key (group :: todo) =>
      if s.alive group.2 && !s.finished group.2 then { s with joining := some (.reaping key todo) }
      else { s with groups := s.groups.erase group, joining := some (.reaping key todo) }
    | .reaping key [] =>
      match s.groups.find? fun g => g.1 = key ∧ s.alive g.2 with
      | some (_, work) => { s with joining := some (.found work) }
      | none => { s with joining := some (.missing key) }
    | .found work =>
      if config.maxWaiters ≤ s.counter work then s.refuse else { s with joining := some (.counting work .joined) }
    | .missing key =>
      if config.maxGroups ≤ s.groups.length then s.refuse
      else { s with
        works := s.works + 1
        keyOf := Function.update s.keyOf s.works (some key)
        groups := (key, s.works) :: s.groups.filter fun g => g.1 ≠ key
        joining := some (.counting s.works .leader) }
    | .counting work role => s.newHold work role

/-- A hold is taken off the counter, of which `n` remains. -/
def uncount (s : State) (hold : Nat) (h : Hold) (n : Nat) (phase : Phase) : State :=
  { s with
    counter := Function.update s.counter h.work (n % 2 ^ 64)
    holds := s.holds.set hold { h with phase } }

/-- The atomic step of `Hold::leave`: whether the hold is given back. -/
def leave (s : State) (hold : Nat) : Option (State × Bool) :=
  match s.holds[hold]? with
  | some h =>
    if h.phase = .counted then
      if 1 < s.counter h.work then some (s.uncount hold h (s.counter h.work - 1) .left, false) else some (s, true)
    else none
  | none => none

/-- The atomic step of `Hold::drop`: the counter goes down, in 64 bits. -/
def drop (s : State) (hold : Nat) : Option State :=
  match s.holds[hold]? with
  | some h => if h.phase = .counted then some (s.uncount hold h (s.counter h.work + (2 ^ 64 - 1)) .dropped) else none
  | none => none

/-- The reference of a hold goes: the hold has left or been dropped, or its work gave it the result. -/
def release (s : State) (hold : Nat) : Option State :=
  match s.holds[hold]? with
  | some h =>
    if h.phase ≠ .counted ∨ s.finished h.work then
      some { s with holds := s.holds.set hold { h with strong := false } }
    else none
  | none => none

/-- The work completes. -/
def finish (s : State) (work : Nat) : State := { s with finished := Function.update s.finished work true }

end State

inductive Op where
  | join (query : Message) (order : List (Bytes × Nat))
  | advance
  | leave (hold : Nat)
  | drop (hold : Nat)
  | release (hold : Nat)
  | finish (work : Nat)

def step (H : Hickory) (config : CoalescingConfig) (s : State) : Op → Option State
  | .join query order => s.join config (Protocol.canonicalWorkKey H query) order
  | .advance => s.advance config
  | .leave hold => (s.leave hold).map Prod.fst
  | .drop hold => s.drop hold
  | .release hold => s.release hold
  | .finish work => some (s.finish work)

/-! ## The invariant -/

/-- The counted holds of a work. -/
def State.countedOf (s : State) (work : Nat) : Nat := s.holds.countP fun h => decide (h.work = work ∧ h.phase = .counted)

/-- The hold is of this work; and is counted. -/
def State.Of (s : State) (work n : Nat) : Prop := ∃ h, s.holds[n]? = some h ∧ h.work = work

def State.Counted (s : State) (work n : Nat) : Prop := ∃ h, s.holds[n]? = some h ∧ h.work = work ∧ h.phase = .counted

/-- Counters are the numbers of counted holds, which keep unfinished work alive. -/
structure Counts (config : CoalescingConfig) (s : State) : Prop where
  counts : ∀ i, s.counter i = s.countedOf i
  within : ∀ i, s.counter i ≤ config.maxWaiters
  placed : ∀ h ∈ s.holds, h.work < s.works
  strong : ∀ h ∈ s.holds, h.phase = .counted → s.finished h.work = false → h.strong = true

/-- Unfinished work that is alive is in the registry, under its key. -/
structure Registered (config : CoalescingConfig) (s : State) : Prop where
  keyed : (s.groups.map Prod.fst).Nodup
  size : s.groups.length ≤ config.maxGroups
  led : ∀ g ∈ s.groups, s.keyOf g.2 = some g.1
  made : ∀ i k, s.keyOf i = some k → i < s.works
  registered : ∀ i k, s.keyOf i = some k → s.finished i = false → s.alive i = true → (k, i) ∈ s.groups

/-- The join may be where it is. -/
structure Joining.Fits (config : CoalescingConfig) (s : State) (j : Joining) : Prop where
  kept : ∀ i, j.keeps = some i → i < s.works
  room : ∀ i r, j = .counting i r → s.counter i < config.maxWaiters
  absent : ∀ k, j = .missing k → ∀ i, s.keyOf i = some k → s.finished i = false → ¬s.alive i = true

structure Inv (config : CoalescingConfig) (s : State) : Prop where
  counts : Counts config s
  registered : Registered config s
  joined : ∀ j, s.joining = some j → j.Fits config s

variable {s s' : State} {config : CoalescingConfig} {H : Hickory} {i w n m hold : Nat} {h : Hold} {op : Op}

theorem alive_iff : s.alive i = true ↔
    (∃ h ∈ s.holds, h.work = i ∧ h.strong = true) ∨ ∃ j, s.joining = some j ∧ j.keeps = some i := by
  simp [State.alive, Option.any_eq_true]

theorem countedOf_set (hh : s.holds[hold]? = some h) (h' : Hold) (hwork : h'.work = h.work)
    (hs : s'.holds = s.holds.set hold h') (i) :
    s'.countedOf i + (if h.work = i ∧ h.phase = .counted then 1 else 0) =
      s.countedOf i + if h.work = i ∧ h'.phase = .counted then 1 else 0 := by
  obtain ⟨hlt, rfl⟩ := List.getElem?_eq_some_iff.mp hh
  have hpos : s.holds[hold].work = i ∧ s.holds[hold].phase = .counted →
      0 < s.holds.countP fun h => decide (h.work = i ∧ h.phase = .counted) := fun hp =>
    countP_pos_iff.mpr ⟨_, getElem_mem hlt, decide_eq_true hp⟩
  rw [State.countedOf, State.countedOf, hs, countP_set hlt, hwork]
  simp only [decide_eq_true_eq]
  split <;> split <;> simp_all

theorem countedOf_push (hs : s'.holds = s.holds ++ [{ work := w }]) (i) :
    s'.countedOf i = s.countedOf i + if w = i then 1 else 0 := by
  simp [State.countedOf, hs, countP_append, countP_singleton]

theorem countedOf_pos (h : s.Counted w n) : 0 < s.countedOf w := by
  obtain ⟨x, hx, hwork, hc⟩ := h
  exact countP_pos_iff.mpr ⟨x, mem_of_getElem? hx, decide_eq_true ⟨hwork, hc⟩⟩

theorem exists_counted (h : 0 < s.countedOf w) : ∃ n, s.Counted w n := by
  obtain ⟨x, hx, hp⟩ := countP_pos_iff.mp h
  obtain ⟨n, hn⟩ := mem_iff_getElem?.mp hx
  exact ⟨n, x, hn, of_decide_eq_true hp⟩

theorem counted_set (h' : Hold) (hh : s.holds[hold]? = some h) (hp : h'.phase ≠ .counted)
    (hs : s'.holds = s.holds.set hold h') : s'.Counted w n ↔ s.Counted w n ∧ n ≠ hold := by
  obtain ⟨hlt, _⟩ := List.getElem?_eq_some_iff.mp hh
  unfold State.Counted
  rw [hs, List.getElem?_set]
  by_cases hn : hold = n
  · subst hn
    simp [hlt, hp]
  · simp [hn, Ne.symm hn]

theorem countedOf_eq_one (h : s.Counted w n) : s.countedOf w = 1 ↔ ∀ m, s.Counted w m → m = n := by
  obtain ⟨x, hx, rfl, hc⟩ := h
  have hset : State.countedOf { s with holds := s.holds.set n { x with phase := .left } } x.work + _ = _ :=
    countedOf_set hx { x with phase := .left } rfl rfl x.work
  simp only [hc, and_self, if_true, reduceCtorEq, and_false, if_false, Nat.add_zero] at hset
  have hothers : ∀ m, State.Counted { s with holds := s.holds.set n { x with phase := .left } } x.work m ↔
      s.Counted x.work m ∧ m ≠ n := fun m =>
    counted_set { x with phase := .left } hx (by simp) rfl
  constructor
  · intro hone m hm
    by_contra hne
    have := countedOf_pos ((hothers m).mpr ⟨hm, hne⟩)
    omega
  · intro hall
    by_contra hne
    have hpos := countedOf_pos (s := s) ⟨x, hx, rfl, hc⟩
    obtain ⟨m, hm⟩ := exists_counted (s := { s with holds := s.holds.set n { x with phase := .left } }) (w := x.work)
      (by omega)
    obtain ⟨hm, hmn⟩ := (hothers m).mp hm
    exact hmn (hall m hm)

theorem alive_set (hh : s.holds[hold]? = some h) (h' : Hold) (hs : s'.holds = s.holds.set hold h')
    (hj : s'.joining = s.joining)
    (hwork : h'.work = h.work) (hstrong : h'.strong = true → h.strong = true) (ha : s'.alive i = true) :
    s.alive i = true := by
  rw [alive_iff, hs, hj] at ha
  rw [alive_iff]
  rcases ha with ⟨x, hx, hxi, hxs⟩ | hj
  · rcases mem_or_eq_of_mem_set hx with hx | rfl
    · exact .inl ⟨x, hx, hxi, hxs⟩
    · exact .inl ⟨h, mem_of_getElem? hh, hwork ▸ hxi, hstrong hxs⟩
  · exact .inr hj

/-! ### Without the lock -/

/-- What holders do: fewer references, smaller counters, more results. -/
theorem Inv.wanes (hinv : Inv config s) (hcounts : Counts config s') (hgroups : s'.groups = s.groups)
    (hworks : s'.works = s.works) (hkeys : s'.keyOf = s.keyOf) (hjoining : s'.joining = s.joining)
    (hfinished : ∀ i, s'.finished i = false → s.finished i = false) (halive : ∀ i, s'.alive i = true → s.alive i = true)
    (hfewer : ∀ i, s'.counter i ≤ s.counter i) : Inv config s' := by
  obtain ⟨_, hreg, hjoined⟩ := hinv
  refine ⟨hcounts, ⟨hgroups ▸ hreg.keyed, hgroups ▸ hreg.size, ?_, ?_, ?_⟩, fun j hj => ?_⟩
  · rw [hgroups, hkeys]
    exact hreg.led
  · rw [hkeys, hworks]
    exact hreg.made
  · rw [hgroups, hkeys]
    exact fun i k hk hf ha => hreg.registered i k hk (hfinished i hf) (halive i ha)
  · have hfits := hjoined j (hjoining ▸ hj)
    refine ⟨hworks ▸ hfits.kept, fun i r hr => (hfewer i).trans_lt (hfits.room i r hr), fun k hm i hk hf ha => ?_⟩
    exact hfits.absent k hm i (hkeys ▸ hk) (hfinished i hf) (halive i ha)

/-- A holder changes its hold. Where that takes the hold off its counter, the counter goes down with it. -/
theorem Inv.setHold (hinv : Inv config s) (hh : s.holds[hold]? = some h) {h' : Hold} {counter} (hwork : h'.work = h.work)
    (hstrong : h'.strong = true → h.strong = true)
    (hstays : h'.phase = .counted → h.phase = .counted ∧ (s.finished h.work = false → h'.strong = true))
    (hcounter : ∀ i, counter i + (if h.work = i ∧ h.phase = .counted then 1 else 0) =
      s.counter i + if h.work = i ∧ h'.phase = .counted then 1 else 0) :
    Inv config { s with counter, holds := s.holds.set hold h' } := by
  have hc := hinv.counts
  have hfewer : ∀ i, counter i ≤ s.counter i := by
    intro i
    have hle : (if h.work = i ∧ h'.phase = .counted then 1 else 0) ≤ if h.work = i ∧ h.phase = .counted then 1 else 0 := by
      split
      · next hi => rw [if_pos ⟨hi.1, (hstays hi.2).1⟩]
      · exact Nat.zero_le _
    have := hcounter i
    omega
  refine hinv.wanes ⟨fun i => ?_, fun i => (hfewer i).trans (hc.within i), fun x hx => ?_, fun x hx hp hf => ?_⟩
    rfl rfl rfl rfl (fun _ h => h) (fun _ => alive_set hh h' rfl rfl hwork hstrong) hfewer
  · have hset : State.countedOf { s with counter, holds := s.holds.set hold h' } i + _ = _ :=
      countedOf_set hh h' hwork rfl i
    have := hcounter i
    have := hc.counts i
    dsimp only
    omega
  · rcases mem_or_eq_of_mem_set hx with hx | rfl
    · exact hc.placed x hx
    · exact hwork ▸ hc.placed h (mem_of_getElem? hh)
  · rcases mem_or_eq_of_mem_set hx with hx | rfl
    · exact hc.strong x hx hp hf
    · exact (hstays hp).2 (hwork ▸ hf)

theorem Inv.uncount (hinv : Inv config s) (hh : s.holds[hold]? = some h) (hp : h.phase = .counted)
    (hn : n % 2 ^ 64 = s.counter h.work - 1) {phase} (hphase : phase ≠ .counted) :
    Inv config (s.uncount hold h n phase) := by
  have hpos : 0 < s.counter h.work := (hinv.counts.counts _).symm ▸ countedOf_pos ⟨h, hh, rfl, hp⟩
  refine hinv.setHold hh rfl id (fun hc => absurd hc hphase) fun i => ?_
  simp only [hp, hphase, and_true, and_false, if_false, hn, update_apply]
  by_cases hi : h.work = i
  · subst hi
    simp only [if_true]
    omega
  · simp [hi, Ne.symm hi]

variable {last : Bool}

theorem leave_counted (h : s.leave n = some (s', last)) : ∃ w, s.Counted w n := by
  unfold State.leave at h
  split at h
  · next x hx =>
    split at h
    · next hp => exact ⟨x.work, x, hx, rfl, hp⟩
    · cases h
  · cases h

section
variable (hinv : Inv config s)
include hinv

/-- **One leave** succeeds on a counted hold. It is given back, and nothing changes, when it is the only
one of its work; else it is no longer counted. -/
theorem leave_spec (hmax : config.maxWaiters < 2 ^ 64) (hn : s.Counted w n) :
    ∃ s' last, s.leave n = some (s', last) ∧ Inv config s' ∧ (last = true ↔ ∀ m, s.Counted w m → m = n) ∧
      (last = true → s' = s) ∧ (last = false → ∀ m, s'.Counted w m ↔ s.Counted w m ∧ m ≠ n) := by
  rw [← countedOf_eq_one hn, ← hinv.counts.counts]
  have hpos := countedOf_pos hn
  rw [← hinv.counts.counts] at hpos
  obtain ⟨x, hx, rfl, hp⟩ := hn
  have hwithin := hinv.counts.within x.work
  simp only [State.leave, hx, if_pos hp]
  by_cases hmore : 1 < s.counter x.work
  · rw [if_pos hmore]
    refine ⟨_, false, rfl, hinv.uncount hx hp (Nat.mod_eq_of_lt (by omega)) (by decide), ?_, nofun, fun _ m => ?_⟩
    · simp only [Bool.false_eq_true, false_iff]
      omega
    · exact counted_set { x with phase := .left } hx (by simp) rfl
  · rw [if_neg hmore]
    refine ⟨s, true, rfl, hinv, ?_, fun _ => rfl, nofun⟩
    simp only [true_iff]
    omega

theorem drop_inv (hmax : config.maxWaiters < 2 ^ 64) (h : s.drop hold = some s') : Inv config s' := by
  unfold State.drop at h
  split at h
  · next x hx =>
    split at h
    · next hp =>
      cases h
      have hpos : 0 < s.counter x.work := (hinv.counts.counts _).symm ▸ countedOf_pos ⟨x, hx, rfl, hp⟩
      have hwithin := hinv.counts.within x.work
      refine hinv.uncount hx hp ?_ (by decide)
      -- adding 2^64 - 1 takes one off
      rw [show s.counter x.work + (2 ^ 64 - 1) = s.counter x.work - 1 + 2 ^ 64 by omega, Nat.add_mod_right]
      exact Nat.mod_eq_of_lt (by omega)
    · cases h
  · cases h

theorem release_inv (h : s.release hold = some s') : Inv config s' := by
  unfold State.release at h
  split at h
  · next x hx =>
    split at h
    · next hgone =>
      cases h
      refine hinv.setHold hx rfl nofun (fun hp => ⟨hp, fun hf => ?_⟩) fun _ => rfl
      rcases hgone with hgone | hdone
      · exact absurd hp hgone
      · exact absurd (hf.symm.trans hdone) (by decide)
    · cases h
  · cases h

theorem Inv.finish (i) : Inv config (s.finish i) := by
  have hfinished : ∀ j, (s.finish i).finished j = false → s.finished j = false := by
    intro j hf
    by_cases hj : j = i
    · simp [State.finish, hj] at hf
    · simpa [State.finish, update_of_ne hj] using hf
  obtain ⟨hcounts, hwithin, hplaced, hstrong⟩ := hinv.counts
  exact hinv.wanes ⟨hcounts, hwithin, hplaced, fun h hh hp hf => hstrong h hh hp (hfinished _ hf)⟩ rfl rfl rfl rfl
    hfinished (fun _ h => h) fun _ => le_rfl

/-! ### Joining -/

theorem Inv.proceed {groups : List (Bytes × Nat)} {joining answers}
    (hgroups : groups.Sublist s.groups)
    (hregistered : ∀ i k, s.keyOf i = some k → s.finished i = false → s.alive i = true → (k, i) ∈ groups)
    (hjoining : ∀ j, joining = some j → (∀ i, j.keeps = some i → s.alive i = true) ∧ j.Fits config s) :
    Inv config { s with groups, joining, answers } := by
  have halive : ∀ i, State.alive { s with groups, joining, answers } i = true → s.alive i = true := by
    intro i ha
    rcases alive_iff.mp ha with hheld | ⟨j, hj, hk⟩
    · exact alive_iff.mpr (.inl hheld)
    · exact (hjoining j hj).1 i hk
  obtain ⟨hcounts, hreg, _⟩ := hinv
  refine ⟨{ hcounts with }, ⟨hreg.keyed.sublist (hgroups.map _), hgroups.length_le.trans hreg.size,
    fun g hg => hreg.led g (hgroups.subset hg), hreg.made, fun i k hk hf ha => hregistered i k hk hf (halive i ha)⟩,
    fun j hj => ?_⟩
  obtain ⟨_, hfits⟩ := hjoining j hj
  exact ⟨hfits.kept, hfits.room, fun k hm i hk hf ha => hfits.absent k hm i hk hf (halive i ha)⟩

theorem Inv.goes {j : Joining} (hkept : ∀ i, j.keeps = some i → s.alive i = true)
    (hfits : j.Fits config s) : Inv config { s with joining := some j } := by
  refine hinv.proceed (.refl _) hinv.registered.registered fun j' hj => ?_
  obtain rfl := Option.some.inj hj
  exact ⟨hkept, hfits⟩

theorem Inv.refuse : Inv config s.refuse :=
  hinv.proceed (.refl _) hinv.registered.registered (by simp)

end

theorem reaping_fits (key todo) : (Joining.reaping key todo).Fits config s :=
  ⟨nofun, nofun, nofun⟩

theorem Counts.new (hc : Counts config s) : s.countedOf s.works = 0 := by
  refine countP_eq_zero.mpr fun h hh => ?_
  have := hc.placed h hh
  simp
  omega

theorem Inv.lead (hinv : Inv config s) (hwaiters : 1 ≤ config.maxWaiters) {key}
    (hmissing : s.joining = some (.missing key)) (hroom : s.groups.length < config.maxGroups) : Inv config { s with
      works := s.works + 1
      keyOf := Function.update s.keyOf s.works (some key)
      groups := (key, s.works) :: s.groups.filter fun g => g.1 ≠ key
      joining := some (.counting s.works .leader) } := by
  obtain ⟨hcounts, hreg, hjoined⟩ := hinv
  have hzero : s.counter s.works = 0 := (hcounts.counts _).trans hcounts.new
  refine ⟨⟨hcounts.counts, hcounts.within, fun h hh => (hcounts.placed h hh).trans (Nat.lt_succ_self _), hcounts.strong⟩,
    ⟨?_, (Nat.succ_le_succ (length_filter_le _ _)).trans hroom, fun g hg => ?_, fun i k hk => ?_,
      fun i k hk hf ha => ?_⟩, fun j hj => ?_⟩
  · refine nodup_cons.mpr ⟨fun hmem => ?_, hreg.keyed.sublist (filter_sublist.map _)⟩
    obtain ⟨g, hg, rfl⟩ := mem_map.mp hmem
    simpa using (mem_filter.mp hg).2
  · rcases mem_cons.mp hg with rfl | hg
    · exact update_self ..
    · have hled := hreg.led g (mem_filter.mp hg).1
      exact (update_of_ne (Nat.ne_of_lt (hreg.made _ _ hled)) ..).trans hled
  · dsimp only at hk ⊢
    by_cases hi : i = s.works
    · omega
    · rw [update_of_ne hi] at hk
      exact (hreg.made i k hk).trans (Nat.lt_succ_self _)
  · dsimp only at hk
    by_cases hi : i = s.works
    · rw [hi, update_self] at hk
      cases hk
      exact hi ▸ mem_cons_self
    · rw [update_of_ne hi] at hk
      -- the join keeps only its own work alive
      have halive : s.alive i = true := by
        rcases alive_iff.mp ha with hheld | ⟨j, hj, hkeeps⟩
        · exact alive_iff.mpr (.inl hheld)
        · cases hj
          exact absurd (Option.some.inj hkeeps).symm hi
      refine mem_cons_of_mem _ (mem_filter.mpr ⟨hreg.registered i k hk hf halive, ?_⟩)
      -- and work of the same key would have been found
      have hne : k ≠ key := by
        rintro rfl
        exact (hjoined _ hmissing).absent k rfl i hk hf halive
      simpa using hne
  · cases hj
    refine ⟨fun i hi => ?_, fun i r hr => ?_, nofun⟩
    · cases hi
      exact Nat.lt_succ_self _
    · cases hr
      exact hzero.trans_lt hwaiters

theorem Inv.add (hinv : Inv config s) (hroom : s.counter w < config.maxWaiters) (hw : w < s'.works)
    (hworks : s.works ≤ s'.works) (hgroups : s'.groups = s.groups) (hkeys : s'.keyOf = s.keyOf)
    (hfinished : s'.finished = s.finished) (hholds : s'.holds = s.holds ++ [{ work := w }])
    (hcounter : s'.counter = Function.update s.counter w (s.counter w + 1))
    (hw' : ∀ k, s.keyOf w = some k → s.alive w = true)
    (hjoining : ∀ j, s'.joining = some j → s.joining = some j ∧ j.keeps ≠ some w) : Inv config s' := by
  obtain ⟨hcounts, hreg, hjoined⟩ := hinv
  have halive : ∀ i k, s.keyOf i = some k → s'.alive i = true → s.alive i = true := by
    intro i k hk ha
    rw [alive_iff, hholds] at ha
    rcases ha with ⟨h, hh, hwork, hs⟩ | ⟨j, hj, hkeeps⟩
    · rcases mem_append.mp hh with hh | hh
      · exact alive_iff.mpr (.inl ⟨h, hh, hwork, hs⟩)
      · cases mem_singleton.mp hh
        cases hwork
        exact hw' k hk
    · exact alive_iff.mpr (.inr ⟨j, (hjoining j hj).1, hkeeps⟩)
  refine ⟨⟨fun i => ?_, fun i => ?_, ?_, ?_⟩, ⟨hgroups ▸ hreg.keyed, hgroups ▸ hreg.size, ?_, ?_, ?_⟩, fun j hj => ?_⟩
  · rw [countedOf_push hholds, hcounter, update_apply, ← hcounts.counts]
    split
    · next hi => simp [hi]
    · next hi => simp [Ne.symm hi]
  · rw [hcounter, update_apply]
    split
    · exact hroom
    · exact hcounts.within i
  · rw [hholds, forall_mem_append, forall_mem_singleton]
    exact ⟨fun h hh => (hcounts.placed h hh).trans_le hworks, hw⟩
  · rw [hholds, hfinished, forall_mem_append, forall_mem_singleton]
    exact ⟨hcounts.strong, fun _ _ => rfl⟩
  · rw [hgroups, hkeys]
    exact hreg.led
  · rw [hkeys]
    exact fun i k hk => (hreg.made i k hk).trans_le hworks
  · rw [hgroups, hkeys, hfinished]
    exact fun i k hk hf ha => hreg.registered i k hk hf (halive i k hk ha)
  · obtain ⟨hj, hne⟩ := hjoining j hj
    have hfits := hjoined j hj
    refine ⟨fun i hi => (hfits.kept i hi).trans_le hworks, fun i r hr => ?_, ?_⟩
    · have hiw : i ≠ w := by
        rintro rfl
        exact hne (by rw [hr]; rfl)
      rw [hcounter, update_of_ne hiw]
      exact hfits.room i r hr
    · rw [hkeys, hfinished]
      exact fun k hm i hk hf ha => hfits.absent k hm i hk hf (halive i k hk ha)

variable {order : List (Bytes × Nat)} {key : Option Bytes}

theorem join_inv (hinv : Inv config s) (hwaiters : 1 ≤ config.maxWaiters)
    (h : s.join config key order = some s') : Inv config s' := by
  unfold State.join at h
  split at h
  · cases h
    have hzero : s.counter s.works = 0 := (hinv.counts.counts _).trans hinv.counts.new
    refine hinv.add (hzero.trans_lt hwaiters) (Nat.lt_succ_self _) (Nat.le_succ _) rfl rfl rfl rfl (by rw [hzero])
      (fun k hk => absurd (hinv.registered.made _ k hk) (Nat.lt_irrefl _)) fun j hj => ⟨hj, fun hk => ?_⟩
    exact absurd ((hinv.joined j hj).kept _ hk) (Nat.lt_irrefl _)
  · split at h
    · cases h
      exact hinv.goes nofun (reaping_fits _ _)
    · cases h

theorem advance_inv (hinv : Inv config s) (hwaiters : 1 ≤ config.maxWaiters) (hmax : config.maxWaiters < 2 ^ 64)
    (h : s.advance config = some s') : Inv config s' := by
  obtain ⟨j, hj, rfl⟩ := map_eq_some_iff.mp h
  have hfits := hinv.joined j hj
  have hreg := hinv.registered
  split
  · next key group todo =>
    split
    · exact hinv.goes nofun (reaping_fits _ _)
    · next hdone =>
      refine hinv.proceed erase_sublist (fun i k hk hf ha => ?_) fun j' hj' => ?_
      · refine (mem_erase_of_ne ?_).mpr (hreg.registered i k hk hf ha)
        rintro rfl
        exact hdone (by simp [ha, hf])
      · cases hj'
        exact ⟨nofun, reaping_fits _ _⟩
  · next key =>
    split
    · next k work hfound =>
      have hp : k = key ∧ s.alive work = true := by simpa using List.find?_some hfound
      have hled := hreg.led _ (mem_of_find?_eq_some hfound)
      refine hinv.goes (fun i hi => Option.some.inj hi ▸ hp.2) ⟨fun i hi => ?_, nofun, nofun⟩
      exact Option.some.inj hi ▸ hreg.made _ _ hled
    · next hnone =>
      refine hinv.goes nofun ⟨nofun, nofun, fun k hk i hkey hf ha => ?_⟩
      cases hk
      exact List.find?_eq_none.mp hnone _ (hreg.registered i key hkey hf ha) (by simp [ha])
  · next work =>
    split
    · exact hinv.refuse
    · next hroom =>
      refine hinv.goes (fun i hi => alive_iff.mpr (.inr ⟨_, hj, hi⟩)) ⟨hfits.kept, fun i r hr => ?_, nofun⟩
      cases hr
      exact Nat.lt_of_not_le hroom
  · next key =>
    split
    · exact hinv.refuse
    · next hroom => exact hinv.lead hwaiters hj (Nat.lt_of_not_le hroom)
  · next work role =>
    have hroom := hfits.room work role rfl
    exact hinv.add hroom (hfits.kept work rfl) le_rfl rfl rfl rfl rfl
      (congrArg (Function.update s.counter work) (Nat.mod_eq_of_lt (by omega)))
      (fun _ _ => alive_iff.mpr (.inr ⟨_, hj, rfl⟩)) nofun

/-- `Config::validate` for the coalescing limits. -/
def Valid (config : CoalescingConfig) : Prop :=
  (1 ≤ config.maxGroups ∧ config.maxGroups ≤ 65536) ∧ 1 ≤ config.maxWaiters ∧ config.maxWaiters ≤ 65536

instance (config : CoalescingConfig) : Decidable (Valid config) := inferInstanceAs (Decidable (_ ∧ _))

theorem Valid.waiters (h : Valid config) : config.maxWaiters < 2 ^ 64 := by
  have := h.2.2
  omega

theorem step_inv (hvalid : Valid config) (hinv : Inv config s) (h : step H config s op = some s') : Inv config s' := by
  cases op with
  | join query order => exact join_inv hinv hvalid.2.1 h
  | advance => exact advance_inv hinv hvalid.2.1 hvalid.waiters h
  | leave hold =>
    obtain ⟨⟨s1, last⟩, hs, rfl⟩ := map_eq_some_iff.mp h
    obtain ⟨w, hn⟩ := leave_counted hs
    obtain ⟨s2, last2, hs2, hinv2, _⟩ := leave_spec hinv hvalid.waiters hn
    cases hs.symm.trans hs2
    exact hinv2
  | drop hold => exact drop_inv hinv hvalid.waiters h
  | release hold => exact release_inv hinv h
  | finish work =>
    cases h
    exact hinv.finish work

theorem run_inv {ops} (hvalid : Valid config) (h : run (step H config) {} ops = some s) : Inv config s := by
  refine run_induction (I := fun _ s => Inv config s) ?_ (fun _ _ _ _ _ ih hs => step_inv hvalid ih hs) h
  exact ⟨⟨fun _ => rfl, fun _ => Nat.zero_le _, nofun, nofun⟩,
    ⟨.nil, Nat.zero_le _, nofun, nofun, nofun⟩, nofun⟩

/-! ## Holders that leave -/

theorem Counted.of (h : s.Counted w n) : s.Of w n := by
  obtain ⟨x, hx, hwork, _⟩ := h
  exact ⟨x, hx, hwork⟩

theorem join_holds (h : s.join config key order = some s') : ∃ new, s'.holds = s.holds ++ new := by
  unfold State.join at h
  split at h
  · cases h
    exact ⟨_, rfl⟩
  · split at h
    · cases h
      exact ⟨[], (append_nil _).symm⟩
    · cases h

theorem advance_holds (h : s.advance config = some s') : ∃ new, s'.holds = s.holds ++ new := by
  unfold State.advance at h
  obtain ⟨j, _, rfl⟩ := map_eq_some_iff.mp h
  have hsame : ∃ new, s.holds = s.holds ++ new := ⟨[], (append_nil _).symm⟩
  split
  · split <;> exact hsame
  · split <;> exact hsame
  · split <;> exact hsame
  · split <;> exact hsame
  · exact ⟨_, rfl⟩

/-- A step adds holds, or changes one: it takes it off its counter, or only gives up its reference. -/
theorem step_holds (h : step H config s op = some s') : (∃ new, s'.holds = s.holds ++ new) ∨
    ∃ m x x', s.holds[m]? = some x ∧ s'.holds = s.holds.set m x' ∧ x'.work = x.work ∧ (x'.phase = x.phase ∨
      x'.phase ≠ .counted ∧ (op = .drop m ∨ op = .leave m ∧ ∃ v, s.leave m = some (v, false))) := by
  have hsame : ∃ new, s.holds = s.holds ++ new := ⟨[], (append_nil _).symm⟩
  cases op with
  | join query order => exact .inl (join_holds h)
  | advance => exact .inl (advance_holds h)
  | finish work =>
    cases h
    exact .inl hsame
  | leave hold =>
    obtain ⟨⟨s1, last⟩, hs, rfl⟩ := map_eq_some_iff.mp h
    have hleft := hs
    unfold State.leave at hs
    split at hs
    · next x hx =>
      split at hs
      · split at hs
        · cases hs
          exact .inr ⟨hold, x, _, hx, rfl, rfl, .inr ⟨by simp, .inr ⟨rfl, _, hleft⟩⟩⟩
        · cases hs
          exact .inl hsame
      · cases hs
    · cases hs
  | drop hold =>
    simp only [step, State.drop] at h
    split at h
    · next x hx =>
      split at h
      · cases h
        exact .inr ⟨hold, x, _, hx, rfl, rfl, .inr ⟨by simp, .inl rfl⟩⟩
      · cases h
    · cases h
  | release hold =>
    simp only [step, State.release] at h
    split at h
    · next x hx =>
      split at h
      · cases h
        exact .inr ⟨hold, x, _, hx, rfl, rfl, .inl rfl⟩
      · cases h
    · cases h

/-- **One step and the counted holds**: a new one comes at the end; a counted one stays counted until it
is dropped or leaves before the last. -/
theorem step_counted (h : step H config s op = some s') (w n) :
    (s.Of w n → s'.Of w n) ∧ (s'.Counted w n → s.Counted w n ∨ s.holds.length ≤ n) ∧
      (s.Counted w n → s'.Counted w n ∨ op = .drop n ∨ op = .leave n ∧ ∃ v, s.leave n = some (v, false)) := by
  rcases step_holds h with ⟨new, hs⟩ | ⟨m, x, x', hx, hs, hwork, hphase⟩
  · have hget : ∀ {x}, s.holds[n]? = some x → s'.holds[n]? = some x := fun hx => by
      rw [hs, List.getElem?_append_left (List.getElem?_eq_some_iff.mp hx).1, hx]
    refine ⟨fun ⟨x, hx, hwork⟩ => ⟨x, hget hx, hwork⟩, fun ⟨x, hx, hp⟩ => ?_, fun ⟨x, hx, hp⟩ => .inl ⟨x, hget hx, hp⟩⟩
    by_cases hn : n < s.holds.length
    · rw [hs, List.getElem?_append_left hn] at hx
      exact .inl ⟨x, hx, hp⟩
    · exact .inr (Nat.le_of_not_lt hn)
  · obtain ⟨hlt, rfl⟩ := List.getElem?_eq_some_iff.mp hx
    unfold State.Of State.Counted
    rw [hs, List.getElem?_set]
    by_cases hn : m = n
    · subst hn
      rcases hphase with hphase | ⟨hphase, hop⟩
      · simp +contextual [hlt, hwork, hphase]
      · simp [hlt, hwork, hphase, hop]
    · simp only [hn, if_false]
      exact ⟨id, .inl, .inl⟩

/-- In this run from `s` the hold leaves and is given back. -/
def Receives (H : Hickory) (config : CoalescingConfig) (s : State) (ops : List Op) (n : Nat) : Prop :=
  ∃ before after v v', ops = before ++ .leave n :: after ∧ run (step H config) s before = some v ∧
    v.leave n = some (v', true)

variable {ops past : List Op} {v : State}

theorem receives_snoc (hv : run (step H config) s past = some v) : Receives H config s (past ++ [op]) n ↔
      Receives H config s past n ∨ op = .leave n ∧ ∃ v', v.leave n = some (v', true) := by
  constructor
  · rintro ⟨before, after, u, v', heq, hu, hleave⟩
    rcases eq_nil_or_concat after with rfl | ⟨after, last, rfl⟩
    · obtain ⟨rfl, hop⟩ := append_inj' heq rfl
      cases hv.symm.trans hu
      exact .inr ⟨(List.cons.inj hop).1, v', hleave⟩
    · rw [concat_eq_append, ← cons_append, ← append_assoc] at heq
      obtain ⟨rfl, _⟩ := append_inj' heq rfl
      exact .inl ⟨before, after, u, v', rfl, hu, hleave⟩
  · rintro (⟨before, after, u, v', rfl, hu, hleave⟩ | ⟨rfl, v', hleave⟩)
    · exact ⟨before, after ++ [op], u, v', by simp, hu, hleave⟩
    · exact ⟨past, [], v, v', rfl, hv, hleave⟩

/-- Where a group stands after some of its holders left, since the state `s`: who was given the hold is
the only one that may be counted, a counted one that has left was given it, and if none is counted
any more, one was given it or went without leaving. -/
structure Leaving (H : Hickory) (config : CoalescingConfig) (s : State) (w : Nat) (past : List Op) (v : State) : Prop where
  of : ∀ n, s.Of w n → v.Of w n
  counted : ∀ n, v.Counted w n → s.Counted w n
  only : ∀ n, s.Counted w n → Receives H config s past n → ∀ m, v.Counted w m → m = n
  one : ∀ n m, s.Counted w n → s.Counted w m → Receives H config s past n → Receives H config s past m → n = m
  given : ∀ n, v.Counted w n → .leave n ∈ past → Receives H config s past n
  rest : (∃ n, v.Counted w n) ∨ (∃ n, s.Counted w n ∧ Receives H config s past n) ∨
    ∃ n, s.Counted w n ∧ .leave n ∉ past ∧ ¬v.Counted w n

theorem Leaving.start (hsome : ∃ n, s.Counted w n) : Leaving H config s w [] s := by
  have hnone : ∀ n, ¬Receives H config s [] n := by
    rintro n ⟨before, after, _, _, heq, _⟩
    simp at heq
  exact ⟨fun _ h => h, fun _ h => h, fun n _ h => absurd h (hnone n), fun n _ _ _ h => absurd h (hnone n),
    nofun, .inl hsome⟩

theorem Leaving.step {v' : State} (hvalid : Valid config) (hinv : Inv config v) (hv : run (step H config) s past = some v)
    (hl : Leaving H config s w past v) (hs : Flight.step H config v op = some v')
    (hnew : ∀ n, v'.Counted w n → v.Counted w n) : Leaving H config s w (past ++ [op]) v' := by
  have hkept := fun n => step_counted hs w n
  -- a leave of one of the holders in this step
  have hleave : ∀ n, s.Counted w n → op = .leave n → ∃ last, v.leave n = some (v', last) ∧ v.Counted w n ∧
      (last = true ↔ ∀ m, v.Counted w m → m = n) ∧ (last = false → ∀ m, v'.Counted w m ↔ v.Counted w m ∧ m ≠ n) := by
    rintro n hn rfl
    obtain ⟨⟨u, last⟩, hu, rfl⟩ := map_eq_some_iff.mp hs
    obtain ⟨_, x, hx, rfl, hp⟩ := leave_counted hu
    obtain ⟨_, hx', hwork⟩ := hl.of n (Counted.of hn)
    cases hx'.symm.trans hx
    have hc : v.Counted w n := ⟨x, hx, hwork, hp⟩
    obtain ⟨_, _, hu', _, hone, _, hothers⟩ := leave_spec hinv hvalid.waiters hc
    cases hu.symm.trans hu'
    exact ⟨last, hu, hc, hone, hothers⟩
  have hreceives : ∀ n, s.Counted w n → Receives H config s (past ++ [op]) n →
      Receives H config s past n ∨ v.Counted w n ∧ ∀ m, v.Counted w m → m = n := by
    intro n hn hr
    rcases (receives_snoc hv).mp hr with hr | ⟨hop, u, hu⟩
    · exact .inl hr
    · obtain ⟨last, hlast, hc, hone, _⟩ := hleave n hn hop
      cases hu.symm.trans hlast
      exact .inr ⟨hc, hone.mp rfl⟩
  have hstays : ∀ n, Receives H config s past n → Receives H config s (past ++ [op]) n := fun n hr =>
    (receives_snoc hv).mpr (.inl hr)
  refine ⟨fun n hn => (hkept n).1 (hl.of n hn), fun n hn => hl.counted n (hnew n hn), fun n hn hr m hm => ?_,
    fun n m hn hm hrn hrm => ?_, fun n hn hmem => ?_, ?_⟩
  · rcases hreceives n hn hr with hr | ⟨_, hall⟩
    · exact hl.only n hn hr m (hnew m hm)
    · exact hall m (hnew m hm)
  · rcases hreceives n hn hrn with hrn | ⟨hcn, halln⟩
    · rcases hreceives m hm hrm with hrm | ⟨hcm, _⟩
      · exact hl.one n m hn hm hrn hrm
      · exact (hl.only n hn hrn m hcm).symm
    · rcases hreceives m hm hrm with hrm | ⟨hcm, _⟩
      · exact hl.only m hm hrm n hcn
      · exact (halln m hcm).symm
  · rcases mem_append.mp hmem with hmem | hop
    · exact hstays n (hl.given n (hnew n hn) hmem)
    · have hop := (mem_singleton.mp hop).symm
      obtain ⟨last, hlast, _, _, hothers⟩ := hleave n (hl.counted n (hnew n hn)) hop
      cases last with
      | true => exact (receives_snoc hv).mpr (.inr ⟨hop, v', hlast⟩)
      | false => exact absurd rfl ((hothers rfl n).mp hn).2
  · rcases hl.rest with ⟨n, hn⟩ | ⟨n, hn, hr⟩ | ⟨n, hn, hmem, hgone⟩
    · have hns := hl.counted n hn
      by_cases hstill : v'.Counted w n
      · exact .inl ⟨n, hstill⟩
      · by_cases hleft : .leave n ∈ past
        · exact .inr (.inl ⟨n, hns, hstays n (hl.given n hn hleft)⟩)
        · rcases (hkept n).2.2 hn with hc | rfl | ⟨rfl, u, hu⟩
          · exact absurd hc hstill
          · exact .inr (.inr ⟨n, hns, by simpa using hleft, hstill⟩)
          · -- it left before the last: another one is counted, and stays so
            obtain ⟨last, hlast, _, hone, hothers⟩ := hleave n hns rfl
            cases hu.symm.trans hlast
            have hmore : ¬∀ m, v.Counted w m → m = n := fun hall => absurd (hone.mpr hall) (by decide)
            obtain ⟨m, hm⟩ := not_forall.mp hmore
            obtain ⟨hm, hne⟩ := Classical.not_imp.mp hm
            exact .inl ⟨m, (hothers rfl m).mpr ⟨hm, hne⟩⟩
    · exact .inr (.inl ⟨n, hn, hstays n hr⟩)
    · refine .inr (.inr ⟨n, hn, fun hm => ?_, fun hc => hgone (hnew n hc)⟩)
      rcases mem_append.mp hm with hm | hop
      · exact hmem hm
      · obtain ⟨_, _, hc, _⟩ := hleave n hn (mem_singleton.mp hop).symm
        exact hgone hc

/-- **Who is given the hold.** If all holders of a work leave and nobody joins it, exactly one of them
is given its hold back. -/
theorem one_receives (hvalid : Valid config) (hinv : Inv config s) (hsome : ∃ n, s.Counted w n)
    (hrun : run (step H config) s ops = some s') (hall : ∀ n, s.Counted w n → .leave n ∈ ops)
    (hnobody : ∀ n, s'.Of w n → s.Of w n) :
    ∃ n, (s.Counted w n ∧ Receives H config s ops n) ∧ ∀ m, s.Counted w m ∧ Receives H config s ops m → m = n := by
  have hleaving := run_induction
    (I := fun past v => Inv config v ∧ ((∀ n, v.Of w n → s.Of w n) → Leaving H config s w past v))
    ⟨hinv, fun _ => .start hsome⟩ ?_ hrun
  · have hl := hleaving.2 hnobody
    have hone : ∀ {n}, s.Counted w n → Receives H config s ops n →
        ∀ m, s.Counted w m ∧ Receives H config s ops m → m = n := fun hn hr m hm => hl.one m _ hm.1 hn hm.2 hr
    rcases hl.rest with ⟨n, hn⟩ | ⟨n, hn, hr⟩ | ⟨n, hn, hmem, _⟩
    · have hns := hl.counted n hn
      have hr := hl.given n hn (hall n hns)
      exact ⟨n, ⟨hns, hr⟩, hone hns hr⟩
    · exact ⟨n, ⟨hn, hr⟩, hone hn hr⟩
    · exact absurd (hall n hn) hmem
  · rintro past v op v' hv ⟨hinv, hl⟩ hs
    refine ⟨step_inv hvalid hinv hs, fun hnobody => ?_⟩
    have hkept := fun n => step_counted hs w n
    have hl := hl fun n hn => hnobody n ((hkept n).1 hn)
    refine hl.step hvalid hinv hv hs fun n hn => ((hkept n).2.1 hn).resolve_right fun hge => ?_
    obtain ⟨x, hx, _⟩ := hl.of n (hnobody n (Counted.of hn))
    exact absurd (List.getElem?_eq_some_iff.mp hx).1 (Nat.not_lt.mpr hge)

/-! ## A join that nothing disturbs -/

/-- The join goes on from `s` to `s'` alone. -/
abbrev Proceeds (config : CoalescingConfig) := Relation.ReflTransGen fun s s' => State.advance config s = some s'

theorem Proceeds.count {role} (h : s.joining = some (.counting w role)) : Proceeds config s (s.newHold w role) :=
  .single (by rw [State.advance, h, Option.map_some])

/-- A join that looks for a group keeps no work alive. -/
theorem alive_reaping (hidle : s.joining = none) {key groups todo} :
    State.alive { s with groups, joining := some (.reaping key todo) } = s.alive := by
  funext w
  simp [State.alive, hidle, Joining.keeps]

/-- `retain` keeps the groups whose work can be upgraded and is not complete. -/
theorem reap (hidle : s.joining = none) {key : Bytes} {groups : List (Bytes × Nat)} (hgroups : groups.Nodup) {todo t}
    (ht : Proceeds config { s with
      groups := groups.filter fun g => decide (g ∉ todo) || (s.alive g.2 && !s.finished g.2)
      joining := some (.reaping key []) } t) :
    Proceeds config { s with groups, joining := some (.reaping key todo) } t := by
  induction todo generalizing groups with
  | nil => simpa using ht
  | cons g todo ih =>
    have hstep : State.advance config { s with groups, joining := some (.reaping key (g :: todo)) } = some { s with
        groups := if s.alive g.2 && !s.finished g.2 then groups else groups.erase g
        joining := some (.reaping key todo) } := by
      simp only [State.advance, alive_reaping hidle, Option.map_some]
      cases s.alive g.2 && !s.finished g.2 <;> rfl
    refine .head hstep (ih ?_ ?_)
    · split
      · exact hgroups
      · exact hgroups.erase g
    · have hsame : (groups.filter fun g' => decide (g' ∉ g :: todo) || (s.alive g'.2 && !s.finished g'.2)) =
          (if s.alive g.2 && !s.finished g.2 then groups else groups.erase g).filter fun g' =>
            decide (g' ∉ todo) || (s.alive g'.2 && !s.finished g'.2) := by
        split
        · refine filter_congr fun g' _ => ?_
          by_cases heq : g' = g <;> simp_all
        · rw [hgroups.erase_eq_filter, List.filter_filter]
          refine filter_congr fun g' _ => ?_
          by_cases heq : g' = g <;> simp_all
      rw [← hsame]
      exact ht

/-- The steps of a join that nothing disturbs come to `Flights::join` as the resolver's requests take it. -/
theorem join_undisturbed {key : Option Bytes} {order} (hkeys : (s.groups.map Prod.fst).Nodup) (hidle : s.joining = none)
    (horder : order.Perm s.groups) :
    let out := Flights.join config ⟨s.groups⟩ key (fun w => s.alive w && !s.finished w) s.alive s.counter s.works
    ∃ s1 s', s.join config key order = some s1 ∧ Proceeds config s1 s' ∧ s'.joining = none ∧
      s'.groups = out.1.groups ∧ s'.answers = s.answers ++ [out.2.map fun x => (s.holds.length, x.2)] ∧
      s'.holds = s.holds ++ (out.2.map fun x => ({ work := x.1 } : Hold)).toList := by
  simp only [State.join, Flights.join]
  generalize (if config.enabled = true then key else none) = key
  cases key with
  | none => exact ⟨_, _, rfl, .refl, hidle, rfl, rfl, rfl⟩
  | some key =>
    simp only [hidle, horder, and_self, if_true]
    generalize hkept : (s.groups.filter fun g => s.alive g.2 && !s.finished g.2) = kept
    have hreap : ∀ {t}, Proceeds config { s with groups := kept, joining := some (.reaping key []) } t →
        Proceeds config { s with joining := some (.reaping key order) } t := by
      intro t ht
      refine reap hidle (Nodup.of_map _ hkeys) ?_
      have hall : (s.groups.filter fun g => decide (g ∉ order) || (s.alive g.2 && !s.finished g.2)) = kept := by
        rw [← hkept]
        exact filter_congr fun g hg => by simp [horder.mem_iff.mpr hg]
      rw [hall]
      exact ht
    cases hfind : kept.find? fun g => g.1 = key ∧ s.alive g.2 with
    | some g =>
      have hfound : State.advance config { s with groups := kept, joining := some (.reaping key []) } =
          some { s with groups := kept, joining := some (.found g.2) } := by
        simp only [State.advance, Option.map_some, alive_reaping hidle, hfind]
      by_cases hfull : config.maxWaiters ≤ s.counter g.2
      · refine ⟨_, State.refuse { s with groups := kept, joining := some (.found g.2) }, rfl,
          hreap (.head hfound (.single ?_)), rfl, ?_⟩
        · simp only [State.advance, Option.map_some, if_pos hfull]
        · simp [hfull, State.refuse]
      · have hcount : State.advance config { s with groups := kept, joining := some (.found g.2) } =
            some { s with groups := kept, joining := some (.counting g.2 .joined) } := by
          simp only [State.advance, Option.map_some, if_neg hfull]
        refine ⟨_, _, rfl, hreap (.head hfound (.head hcount (Proceeds.count rfl))), rfl, ?_⟩
        simp [hfull, State.newHold]
    | none =>
      have hmissing : State.advance config { s with groups := kept, joining := some (.reaping key []) } =
          some { s with groups := kept, joining := some (.missing key) } := by
        simp only [State.advance, Option.map_some, alive_reaping hidle, hfind]
      by_cases hfull : config.maxGroups ≤ kept.length
      · refine ⟨_, State.refuse { s with groups := kept, joining := some (.missing key) }, rfl,
          hreap (.head hmissing (.single ?_)), rfl, ?_⟩
        · simp only [State.advance, Option.map_some, if_pos hfull]
        · simp [hfull, State.refuse]
      · have hlead : State.advance config { s with groups := kept, joining := some (.missing key) } = some { s with
            works := s.works + 1
            keyOf := Function.update s.keyOf s.works (some key)
            groups := (key, s.works) :: kept.filter fun g => g.1 ≠ key
            joining := some (.counting s.works .leader) } := by
          simp only [State.advance, Option.map_some, if_neg hfull]
        refine ⟨_, _, rfl, hreap (.head hmissing (.head hlead (Proceeds.count rfl))), rfl, ?_⟩
        simp [hfull, State.newHold]

/-! ## Every run -/

/-- Unfinished work of the key that has a counted hold. -/
def State.Runs (s : State) (key : Bytes) (work : Nat) : Prop :=
  s.keyOf work = some key ∧ s.finished work = false ∧ ∃ n, s.Counted work n

theorem Inv.runs_registered {key} (hinv : Inv config s) (h : s.Runs key w) : (key, w) ∈ s.groups := by
  obtain ⟨hkey, hf, n, x, hx, rfl, hc⟩ := h
  have hmem := mem_of_getElem? hx
  exact hinv.registered.registered _ key hkey hf (alive_iff.mpr (.inl ⟨x, hmem, rfl, hinv.counts.strong x hmem hc hf⟩))

/-- **Shared work in every run.** Each counter is the number of counted holds of its work, at most
`max_waiters`; there are at most `max_groups` groups; a key has at most one unfinished work with a
counted hold. `leave` gives a hold back exactly when it is the only counted one of its work, and
then leaves it counted; a counted hold stays so until it is dropped or leaves before the last. And if
from here on all holders of a work leave and nobody joins it, exactly one of them is given it. -/
theorem flights_shared (hvalid : Valid config) (hrun : run (step H config) {} ops = some s) :
    (∀ w, s.counter w = s.countedOf w ∧ s.counter w ≤ config.maxWaiters) ∧
      s.groups.length ≤ config.maxGroups ∧
      (∀ key w w', s.Runs key w → s.Runs key w' → w = w') ∧
      (∀ w n, s.Counted w n → ∃ s' last, s.leave n = some (s', last) ∧
        (last = true ↔ ∀ m, s.Counted w m → m = n) ∧ (last = true → s'.Counted w n)) ∧
      (∀ w n op s', s.Counted w n → step H config s op = some s' →
        s'.Counted w n ∨ op = .drop n ∨ op = .leave n ∧ ∃ v, s.leave n = some (v, false)) ∧
      ∀ w later s', (∃ n, s.Counted w n) → run (step H config) s later = some s' →
        (∀ n, s.Counted w n → .leave n ∈ later) → (∀ n, s'.Of w n → s.Of w n) →
        ∃ n, (s.Counted w n ∧ Receives H config s later n) ∧ ∀ m, s.Counted w m ∧ Receives H config s later m → m = n := by
  have hinv := run_inv hvalid hrun
  refine ⟨fun w => ⟨hinv.counts.counts w, hinv.counts.within w⟩, hinv.registered.size, fun key w w' hw hw' => ?_,
    fun w n hn => ?_,
    fun w n op s' hn hs => (step_counted hs w n).2.2 hn,
    fun w later s' hsome hlater hall hnobody => one_receives hvalid hinv hsome hlater hall hnobody⟩
  · have heq := inj_on_of_nodup_map hinv.registered.keyed (hinv.runs_registered hw) (hinv.runs_registered hw') rfl
    exact (Prod.mk.inj heq).2
  · obtain ⟨s', last, hs, _, hone, hsame, _⟩ := leave_spec hinv hvalid.waiters hn
    exact ⟨s', last, hs, hone, fun hlast => hsame hlast ▸ hn⟩

/-! ### Two callers -/

def pair : List Op :=
  [.join sampleQuery.message []] ++ List.replicate 3 .advance ++
    [.join sampleQuery.message [(Resolver.sampleQueryWire, 0)]] ++ List.replicate 4 .advance

/-- Both leave, and one of them is given the hold. -/
theorem flights_shared_pair : ∃ s n, run (step Resolver.flightPlatform.hickory {}) {} pair = some s ∧ s.counter 0 = 2 ∧
    s.Counted 0 n ∧ Receives Resolver.flightPlatform.hickory {} s [.leave 0, .leave 1] n := by
  have hshape : ((run (step Resolver.flightPlatform.hickory {}) {} pair).bind fun s =>
      (run (step Resolver.flightPlatform.hickory {}) s [.leave 0, .leave 1]).map fun s' =>
        (s.counter 0, s.holds, s'.holds)) =
      some (2, [{ work := 0 }, { work := 0 }], [{ work := 0, phase := .left }, { work := 0 }]) := by decide +kernel
  obtain ⟨s, hs, hshape⟩ := bind_eq_some_iff.mp hshape
  obtain ⟨s', hs', heq⟩ := map_eq_some_iff.mp hshape
  simp only [Prod.mk.injEq] at heq
  obtain ⟨htwo, hholds, hholds'⟩ := heq
  obtain ⟨_, _, _, _, _, hlast⟩ := flights_shared (show Valid {} by decide) hs
  have htwoHolds : ∀ {n : Nat} {x : Hold}, s.holds[n]? = some x → n = 0 ∨ n = 1 := by
    intro n x hx
    have := (List.getElem?_eq_some_iff.mp hx).1
    rw [hholds] at this
    simp at this
    omega
  obtain ⟨n, ⟨hn, hr⟩, _⟩ := hlast 0 [.leave 0, .leave 1] s' ⟨0, { work := 0 }, by rw [hholds]; rfl, rfl, rfl⟩ hs'
    (fun n ⟨x, hx, _⟩ => by rcases htwoHolds hx with rfl | rfl <;> simp)
    (fun n ⟨x, hx, _⟩ => by
      have hlt := (List.getElem?_eq_some_iff.mp hx).1
      rw [hholds'] at hlt
      have : n = 0 ∨ n = 1 := by
        simp at hlt
        omega
      rcases this with rfl | rfl <;> exact ⟨{ work := 0 }, by rw [hholds]; rfl, rfl⟩)
  exact ⟨s, n, hs, htwo, hn, hr⟩

end Parins.Flight
