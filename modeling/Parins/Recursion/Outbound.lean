/-
The bounds on the queries of the recursor: a semaphore, and a token bucket whose
callers look at the clock before they have its lock. However the attempts are
interleaved, what the bucket grants from one caller to a later one is paid for by
the time between the latest clocks that they brought.
-/
import Parins.Lib.Bucket
import Parins.Lib.Runs

namespace Parins.Recursion
open Lib List

/-- One token, and one second: in billionths of a token and nanoseconds, the reals of the code are whole numbers. -/
def TOKEN : Nat := 1000000000

/-- `Duration::from_secs_f64`: to the nearest nanosecond, and of two to the even one. -/
def nearest (n d : Nat) : Nat :=
  if 2 * (n % d) < d ∨ 2 * (n % d) = d ∧ n / d % 2 = 0 then n / d else n / d + 1

/-- The locked part of `take`: the bucket, and how long to wait if it has no token. -/
def takeLocked (rate : Nat) (b : Bucket) (now : Nat) : Bucket × Option Nat :=
  let credit := min (b.credit + (now - b.updated) * rate) (rate * TOKEN)
  let updated := max b.updated now
  if TOKEN ≤ credit then (⟨credit - TOKEN, updated⟩, none)
  else (⟨credit, updated⟩, some (nearest (TOKEN - credit) rate))

/-- Where an attempt is in `admit`, `take` and after them. -/
inductive Phase where
  | acquiring
  | starting
  | looping (started : Nat) (waited : Bool)
  | checked (started : Nat) (waited : Bool)
  | captured (started : Nat) (waited : Bool) (now : Nat)
  | waiting (started wait : Nat)
  | sleeping (started wake : Nat)
  | granted (started : Nat) (waited : Bool)
  | admitted
  | ended
  | refused
  | cancelled

structure Bounds where
  rate : Nat
  /-- The permits that `inflight` has left. -/
  available : Nat
  closed : Bool := false
  bucket : Bucket
  sent : Nat := 0
  rateWaits : Nat := 0
  rateWaitUs : Nat := 0
  refused : Nat := 0

/-- `passes` is for the statements, and nothing reads it: the clocks that callers brought to the bucket, in the order
of the lock, and whether each got a token. -/
structure State where
  bounds : Bounds
  clock : Nat
  attempts : List Phase := []
  passes : List (Nat × Bool) := []

def Bounds.new (perSecond inflight now : Nat) : Bounds where
  rate := perSecond
  available := inflight
  bucket := ⟨perSecond * TOKEN, now⟩

namespace State

def set (s : State) (i : Nat) (p : Phase) : State := { s with attempts := s.attempts.set i p }

/-- The permit of an attempt is dropped. -/
def release (s : State) (i : Nat) (p : Phase) : State :=
  { s.set i p with bounds := { s.bounds with available := s.bounds.available + 1 } }

def refuse (s : State) : State := { s with bounds := { s.bounds with refused := s.bounds.refused + 1 } }

/-- The next action of an attempt in this phase; none while it has to wait. -/
def advance (s : State) (i : Nat) : Phase → Option State
  | .acquiring =>
    if s.bounds.closed then some (s.refuse.set i .refused)
    else if s.bounds.available = 0 then none
    else some { s.set i .starting with bounds := { s.bounds with available := s.bounds.available - 1 } }
  | .starting => some (s.set i (.looping s.clock false))
  | .looping started waited =>
    some (if s.bounds.closed then s.refuse.release i .refused else s.set i (.checked started waited))
  | .checked started waited => some (s.set i (.captured started waited s.clock))
  | .captured started waited now =>
    let (bucket, wait) := takeLocked s.bounds.rate s.bounds.bucket now
    some { s.set i (wait.elim (.granted started waited) (.waiting started)) with
      bounds := { s.bounds with bucket }, passes := s.passes ++ [(now, wait.isNone)] }
  | .waiting started wait => some (s.set i (.sleeping started (s.clock + wait)))
  | .sleeping started wake => if wake ≤ s.clock then some (s.set i (.looping started true)) else none
  | .granted started waited =>
    let us := (s.clock - started) / 1000
    some { s.set i .admitted with
      bounds := { s.bounds with
        sent := s.bounds.sent + 1
        rateWaits := s.bounds.rateWaits + waited.toNat
        rateWaitUs := s.bounds.rateWaitUs + if waited then us else 0 } }
  | .admitted | .ended | .refused | .cancelled => none

end State

inductive Event where
  | begin
  | act (i : Nat)
  | cancel (i : Nat)
  /-- The attempt ends, or is dropped. -/
  | finish (i : Nat)
  | close
  | tick (d : Nat)

/-- A future can be dropped where it awaits. -/
def step (s : State) : Event → Option State
  | .begin => some { s with attempts := s.attempts ++ [.acquiring] }
  | .act i => s.attempts[i]?.bind (s.advance i)
  | .cancel i =>
    match s.attempts[i]? with
    | some .acquiring => some (s.set i .cancelled)
    | some (.sleeping _ _) => some (s.release i .cancelled)
    | _ => none
  | .finish i =>
    match s.attempts[i]? with
    | some .admitted => some (s.release i .ended)
    | _ => none
  | .close => some { s with bounds := { s.bounds with closed := true } }
  | .tick d => some { s with clock := s.clock + d }

/-- The bounds as they are made at `now`. -/
def opened (perSecond inflight now : Nat) : State := ⟨.new perSecond inflight now, now, [], []⟩

/-! ## The bucket -/

/-- The largest clock that was brought. -/
def latest (passes : List (Nat × Bool)) : Nat := (passes.map Prod.fst).foldr max 0

def tokens (passes : List (Nat × Bool)) : Nat := passes.countP (·.2)

/-- The bucket after these passes. -/
inductive Passed (rate start : Nat) : List (Nat × Bool) → Bucket → Prop
  | nil : Passed rate start [] ⟨rate * TOKEN, start⟩
  | snoc {passes b now} : Passed rate start passes b → start ≤ now →
    Passed rate start (passes ++ [(now, (takeLocked rate b now).2.isNone)]) (takeLocked rate b now).1

variable {rate start : Nat} {passes : List (Nat × Bool)} {b : Bucket}

theorem latest_append (l l') : latest (l ++ l') = max (latest l) (latest l') := by
  induction l with
  | nil => simp [latest]
  | cons p l ih =>
    simp only [latest, cons_append, map_cons, foldr_cons] at ih ⊢
    rw [ih, Nat.max_assoc]

/-- What a pass does: the bucket is refilled, and pays for a token that it grants. -/
theorem takeLocked_spec (rate b now) : (takeLocked rate b now).1.updated = max b.updated now ∧
    (takeLocked rate b now).1.credit + TOKEN * tokens [(now, (takeLocked rate b now).2.isNone)] =
      min (b.credit + (now - b.updated) * rate) (rate * TOKEN) := by
  unfold takeLocked
  dsimp only
  split
  · next h => exact ⟨rfl, by simp [tokens]; omega⟩
  · exact ⟨rfl, by simp [tokens]⟩

theorem Passed.inv {p} (h : Passed rate start (passes ++ [p]) b) : ∃ b', Passed rate start passes b' ∧ start ≤ p.1 ∧
    b.updated = max b'.updated p.1 ∧
    b.credit + TOKEN * tokens [p] = min (b'.credit + (p.1 - b'.updated) * rate) (rate * TOKEN) := by
  generalize hl : passes ++ [p] = l at h
  cases h with
  | nil => simp at hl
  | snoc h hnow =>
    obtain ⟨rfl, hp⟩ := append_inj' hl rfl
    cases hp
    exact ⟨_, h, hnow, takeLocked_spec _ _ _⟩

theorem Passed.before {later} (h : Passed rate start (passes ++ later) b) : ∃ b', Passed rate start passes b' := by
  induction later using List.reverseRecOn generalizing b with
  | nil => exact ⟨b, by simpa using h⟩
  | append_singleton later p ih =>
    rw [← append_assoc] at h
    obtain ⟨_, h, _⟩ := h.inv
    exact ih h

theorem Passed.updated (h : Passed rate start passes b) : b.updated = max start (latest passes) := by
  induction h with
  | nil => simp [latest]
  | snoc h hnow ih =>
    rw [(takeLocked_spec _ _ _).1, ih, latest_append, Nat.max_assoc]
    simp [latest]

theorem Passed.credit_le (h : Passed rate start passes b) : b.credit ≤ rate * TOKEN := by
  cases passes using List.reverseRecOn with
  | nil => generalize hl : [] = l at h; cases h <;> simp at hl ⊢
  | append_singleton passes p =>
    obtain ⟨_, _, _, _, hcredit⟩ := h.inv
    omega

/-- **What is granted is paid for.** From one pass on, tokens cost what the bucket holds at most and what the time
since has brought in. -/
theorem Passed.window {before p window} (h : Passed rate start (before ++ p :: window) b) :
    b.credit + TOKEN * tokens (p :: window) ≤
      rate * TOKEN + (latest (before ++ p :: window) - latest (before ++ [p])) * rate := by
  induction window using List.reverseRecOn generalizing b with
  | nil =>
    obtain ⟨_, _, _, _, hcredit⟩ := h.inv
    rw [Nat.sub_self]
    omega
  | append_singleton window q ih =>
    have hsplit : before ++ p :: (window ++ [q]) = (before ++ p :: window) ++ [q] := by simp
    rw [hsplit] at h ⊢
    obtain ⟨b', h', _, _, hcredit⟩ := h.inv
    have hspent := ih h'
    have hstart : start ≤ p.1 := by
      have hfirst : before ++ p :: window = (before ++ [p]) ++ window := by simp
      obtain ⟨_, hp⟩ := (hfirst ▸ h').before
      exact hp.inv.choose_spec.2.1
    have hupdated := h'.updated
    have htokens : tokens (p :: (window ++ [q])) = tokens (p :: window) + tokens [q] := by
      rw [← cons_append]
      exact countP_append
    -- the clock of the bucket is the latest one so far
    generalize hlast : latest (before ++ p :: window) = last at *
    generalize hfirst : latest (before ++ [p]) = first at *
    have hle : first ≤ last ∧ start ≤ first := by
      have hcons : latest (p :: window) = max p.1 (latest window) := rfl
      have hone : latest [p] = p.1 := Nat.max_zero _
      rw [← hlast, ← hfirst, latest_append, latest_append, hcons, hone]
      omega
    have hnext : latest (before ++ p :: window ++ [q]) = max last q.1 := by
      rw [latest_append, hlast]
      simp [latest]
    have htime : (max last q.1 - first) * rate = (last - first) * rate + (q.1 - last) * rate := by
      rw [← Nat.add_mul]
      congr 1
      omega
    have hclock : b'.updated = last := by omega
    rw [hclock] at hcredit
    rw [htokens, hnext, htime, Nat.mul_add]
    omega

/-! ## Every run -/

/-- The attempt has a permit. -/
def Phase.holds : Phase → Bool
  | .acquiring | .ended | .refused | .cancelled => false
  | _ => true

/-- The attempt has taken a token. -/
def Phase.paid : Phase → Bool
  | .granted _ _ | .admitted | .ended => true
  | _ => false

structure Inv (rate limit start : Nat) (s : State) : Prop where
  ratio : s.bounds.rate = rate
  permits : s.bounds.available + s.attempts.countP Phase.holds = limit
  paid : tokens s.passes = s.attempts.countP Phase.paid
  passed : Passed rate start s.passes s.bounds.bucket
  clock : start ≤ s.clock
  captured : ∀ started waited now, .captured started waited now ∈ s.attempts → start ≤ now

theorem countP_set {P : Phase → Bool} {l : List Phase} {i p} (h : l[i]? = some p) (p') :
    (l.set i p').countP P + (P p).toNat = l.countP P + (P p').toNat := by
  obtain ⟨hi, rfl⟩ := List.getElem?_eq_some_iff.mp h
  have hle : (P l[i]).toNat ≤ l.countP P := by
    cases hp : P l[i] with
    | false => exact Nat.zero_le _
    | true => exact countP_pos_iff.mpr ⟨_, getElem_mem hi, hp⟩
  rw [List.countP_set hi]
  cases hp : P l[i] <;> cases P p' <;> rw [hp] at hle <;>
    simp only [Bool.toNat_true, Bool.toNat_false, if_true, Bool.false_eq_true, if_false] at hle ⊢ <;> omega

variable {limit : Nat} {s s' : State} {i : Nat} {p p' : Phase}

section
variable (h : Inv rate limit start s)
include h

/-- One attempt goes on: permits and tokens go with it. -/
theorem Inv.move (hp : s.attempts[i]? = some p) (hattempts : s'.attempts = s.attempts.set i p')
    (hratio : s'.bounds.rate = rate) (hclock : s'.clock = s.clock)
    (hpermits : s'.bounds.available + p'.holds.toNat = s.bounds.available + p.holds.toNat)
    (hpaid : tokens s'.passes + p.paid.toNat = tokens s.passes + p'.paid.toNat)
    (hpassed : Passed rate start s'.passes s'.bounds.bucket)
    (hcaptured : ∀ started waited now, p' = .captured started waited now → start ≤ now) : Inv rate limit start s' := by
  have hheld := countP_set (P := Phase.holds) hp p'
  have htaken := countP_set (P := Phase.paid) hp p'
  have hlimit := h.permits
  have htokens := h.paid
  refine ⟨hratio, ?_, ?_, hpassed, hclock ▸ h.clock, fun started waited now hmem => ?_⟩
  · rw [hattempts]
    omega
  · rw [hattempts]
    omega
  · rw [hattempts] at hmem
    rcases mem_or_eq_of_mem_set hmem with hmem | heq
    · exact h.captured _ _ _ hmem
    · exact hcaptured _ _ _ heq.symm

theorem Inv.set (hp : s.attempts[i]? = some p) (hholds : p'.holds = p.holds)
    (hpaid : p'.paid = p.paid) (hcaptured : ∀ started waited now, p' = .captured started waited now → start ≤ now) :
    Inv rate limit start (s.set i p') :=
  h.move hp rfl h.ratio rfl (by rw [hholds]; rfl) (by rw [hpaid]; rfl) h.passed hcaptured

theorem Inv.release (hp : s.attempts[i]? = some p) (hheld : p.holds = true)
    (hholds : p'.holds = false) (hpaid : p'.paid = p.paid) : Inv rate limit start (s.release i p') :=
  h.move hp rfl h.ratio rfl (by rw [hheld, hholds]; rfl) (by rw [hpaid]; rfl) h.passed fun _ _ _ heq => by
    cases heq; cases hholds

theorem Inv.refuse : Inv rate limit start s.refuse :=
  ⟨h.ratio, h.permits, h.paid, h.passed, h.clock, h.captured⟩

theorem Inv.advance (hp : s.attempts[i]? = some p) (hs : s.advance i p = some s') :
    Inv rate limit start s' := by
  cases p with
  | acquiring =>
    simp only [State.advance] at hs
    split at hs
    · cases hs
      exact h.refuse.set hp rfl rfl nofun
    · split at hs <;> cases hs
      refine h.move hp rfl h.ratio rfl ?_ rfl h.passed nofun
      simp [Phase.holds]
      omega
  | starting =>
    cases hs
    exact h.set hp rfl rfl nofun
  | looping started waited =>
    simp only [State.advance] at hs
    split at hs <;> cases hs
    · exact h.refuse.release hp rfl rfl rfl
    · exact h.set hp rfl rfl nofun
  | checked started waited =>
    cases hs
    exact h.set hp rfl rfl fun _ _ _ heq => by cases heq; exact h.clock
  | captured started waited now =>
    have hnow := h.captured _ _ _ (mem_of_getElem? hp)
    simp only [State.advance, h.ratio] at hs
    cases hs
    have hsnoc : tokens (s.passes ++ [(now, (takeLocked rate s.bounds.bucket now).2.isNone)]) =
        tokens s.passes + tokens [(now, (takeLocked rate s.bounds.bucket now).2.isNone)] := countP_append
    refine h.move hp rfl rfl rfl ?_ ?_ (h.passed.snoc hnow) ?_
    · cases (takeLocked rate s.bounds.bucket now).2 <;> rfl
    · rw [hsnoc]
      cases (takeLocked rate s.bounds.bucket now).2 <;> rfl
    · cases (takeLocked rate s.bounds.bucket now).2 <;> nofun
  | waiting started wait =>
    cases hs
    exact h.set hp rfl rfl nofun
  | sleeping started wake =>
    simp only [State.advance] at hs
    split at hs <;> cases hs
    exact h.set hp rfl rfl nofun
  | granted started waited =>
    cases hs
    exact h.move hp rfl h.ratio rfl rfl rfl h.passed nofun
  | admitted | ended | refused | cancelled => cases hs

theorem step_inv {e} (hs : step s e = some s') : Inv rate limit start s' := by
  cases e with
  | begin =>
    cases hs
    refine ⟨h.ratio, ?_, ?_, h.passed, h.clock, fun _ _ _ hmem => ?_⟩
    · simpa [Phase.holds] using h.permits
    · simpa [Phase.paid] using h.paid
    · exact h.captured _ _ _ (by simpa using hmem)
  | act i =>
    obtain ⟨p, hp, hs⟩ := Option.bind_eq_some_iff.mp hs
    exact h.advance hp hs
  | cancel i =>
    simp only [step] at hs
    split at hs
    · next hp => cases hs; exact h.set hp rfl rfl nofun
    · next hp => cases hs; exact h.release hp rfl rfl rfl
    · cases hs
  | finish i =>
    simp only [step] at hs
    split at hs
    · next hp => cases hs; exact h.release hp rfl rfl rfl
    · cases hs
  | close =>
    cases hs
    exact ⟨h.ratio, h.permits, h.paid, h.passed, h.clock, h.captured⟩
  | tick d =>
    cases hs
    exact ⟨h.ratio, h.permits, h.paid, h.passed, Nat.le_add_right_of_le h.clock, h.captured⟩

end

/-- **The bounds hold in every interleaving.** The bucket stays within one second of tokens; from any pass to a later
one no more tokens are granted than that and what the latest clocks have moved; the tokens are those of the attempts that
were let through, so a cancelled wait takes none; and the permits that are out are those of the attempts that have got one
and have not ended, failed or been cancelled. -/
theorem outbound_bounds {perSecond events} (hrun : run step (opened perSecond limit start) events = some s) :
    s.bounds.bucket.credit ≤ perSecond * TOKEN ∧
    (∀ before p window after, s.passes = before ++ p :: window ++ after → TOKEN * tokens (p :: window) ≤
      perSecond * TOKEN + perSecond * (latest (before ++ p :: window) - latest (before ++ [p]))) ∧
    tokens s.passes = s.attempts.countP Phase.paid ∧
    s.bounds.available + s.attempts.countP Phase.holds = limit := by
  have hinv : Inv perSecond limit start s :=
    run_induction (I := fun _ => Inv perSecond limit start) ⟨rfl, rfl, rfl, .nil, Nat.le_refl _, by simp [opened]⟩
      (fun _ _ _ _ _ h hs => step_inv h hs) hrun
  refine ⟨hinv.passed.credit_le, fun before p window after hsplit => ?_, hinv.paid, hinv.permits⟩
  obtain ⟨b, hb⟩ := (hsplit ▸ hinv.passed).before
  have := hb.window
  rw [Nat.mul_comm perSecond (_ - _)]
  omega

/-- Of two attempts the second looks at the clock a second later, and is first at the bucket; the first is cancelled. -/
def lateEvents : List Event :=
  [.begin, .begin, .act 0, .act 1, .act 0, .act 1, .act 0, .act 1, .act 0, .tick TOKEN, .act 1, .act 1, .act 0, .act 0,
    .cancel 0]

theorem outbound_bounds_late : ∃ s, run step (opened 1 2 5) lateEvents = some s ∧
    s.passes = [(TOKEN + 5, true), (5, false)] ∧ s.bounds.available = 1 ∧ tokens s.passes = s.attempts.countP Phase.paid ∧
    s.bounds.available + s.attempts.countP Phase.holds = 2 := by
  have hrun : run step (opened 1 2 5) lateEvents = some _ := rfl
  obtain ⟨_, _, hpaid, hpermits⟩ := outbound_bounds hrun
  exact ⟨_, hrun, rfl, rfl, hpaid, hpermits⟩

end Parins.Recursion
