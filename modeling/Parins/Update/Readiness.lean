/-
When a launched program counts as ready. `Readiness` keeps two moments; what
they stand for is said here of the calls themselves: fresh receipts, none more
than three seconds after the one before, over ten seconds without a break.
-/
import Parins.Lib.Runs
import Parins.Update.Journal
import Mathlib.Logic.Relation
import Mathlib.Order.Nat

namespace Parins.Update.Readiness
open Lib Relation Option

/-- One call of `observe`. -/
structure Call where
  now : Nat
  sample : Option Health
  pending : PendingLaunch
  pid : Nat
  invocation : Text
  revision : Nat

def Call.seq (c : Call) : Option Nat :=
  (c.sample.filter (isMatch c.pending c.pid c.invocation c.revision)).map (·.sampleSeq)

def Call.observe (c : Call) (r : Readiness) : Bool × Readiness :=
  Readiness.observe r c.now c.sample c.pending c.pid c.invocation c.revision

def after (calls : List Call) : Readiness := calls.foldl (fun r c => (c.observe r).2) {}

section Calls

variable (calls : List Call)

def seqAt (i : Nat) : Option Nat := calls[i]?.bind Call.seq

def timeAt (i : Nat) : Nat := (calls[i]?.map Call.now).getD 0

/-- The receipt is missing or does not match, or is older than that of an unbroken call before. -/
def Broken : Nat → Prop
  | 0 => seqAt calls 0 = none
  | i + 1 => ∀ seq, seqAt calls (i + 1) = some seq → ¬Broken i ∧ ∃ before, seqAt calls i = some before ∧ seq < before

/-- An unbroken call with a receipt the one before did not have. -/
def Advance (i : Nat) : Prop :=
  ¬Broken calls i ∧ ∀ j, i = j + 1 → ¬Broken calls j →
    ∃ before seq, seqAt calls j = some before ∧ seqAt calls i = some seq ∧ before < seq

/-- A later advance within three seconds. -/
structure Follows (i j : Nat) : Prop where
  later : i < j
  advance : Advance calls j
  soon : timeAt calls j ≤ timeAt calls i + 3000

/-- From the advance `first` on, advances follow each other to three seconds before call `n`, and no
call is broken. -/
structure Steady (first n : Nat) : Prop where
  advance : Advance calls first
  reaches : ∃ last ≤ n, ReflTransGen (Follows calls) first last ∧ timeAt calls n ≤ timeAt calls last + 3000
  unbroken : ∀ i, first ≤ i → i ≤ n → ¬Broken calls i

end Calls

variable {calls : List Call} {i j n first last : Nat}

/-! ## Calls -/

theorem Broken.of_none (h : seqAt calls i = none) : Broken calls i := by
  cases i with
  | zero => exact h
  | succ i =>
    intro seq hseq
    rw [h] at hseq
    cases hseq

theorem timeAt_mono (hordered : Ordered Call.now calls) (hij : i ≤ j) (hj : j < calls.length) :
    timeAt calls i ≤ timeAt calls j := by
  have hi : i < calls.length := by omega
  simp only [timeAt, List.getElem?_eq_getElem hi, List.getElem?_eq_getElem hj, map_some, getD_some]
  rcases Nat.eq_or_lt_of_le hij with rfl | hlt
  · exact le_rfl
  · exact List.pairwise_iff_getElem.mp hordered i j hi hj hlt

theorem reaches_le (h : ReflTransGen (Follows calls) first last) : first ≤ last := by
  induction h with
  | refl => exact le_rfl
  | tail _ hstep ih => exact ih.trans hstep.later.le

theorem reaches_advance (h : ReflTransGen (Follows calls) first last) (hfirst : Advance calls first) :
    Advance calls last := by
  cases h with
  | refl => exact hfirst
  | tail _ hstep => exact hstep.advance

/-! ## One call -/

/-- What the two moments stand for after call `n`, in the words of the calls. -/
structure Means (calls : List Call) (n : Nat) (r : Readiness) : Prop where
  reset : Broken calls n → r = {}
  last : ¬Broken calls n → ∃ a seq, r.last = some (seq, timeAt calls a) ∧ seqAt calls n = some seq ∧ a ≤ n ∧
    Advance calls a ∧ (∀ i, a < i → i ≤ n → ¬Advance calls i) ∧ ∀ i, a ≤ i → i ≤ n → ¬Broken calls i
  since : ∀ s, r.since = some s → ∃ first, Steady calls first n ∧ timeAt calls first = s
  earliest : ∀ first, Steady calls first n → ∃ s, r.since = some s ∧ s ≤ timeAt calls first

theorem Steady.not_broken (h : Steady calls first n) : ¬Broken calls n := by
  obtain ⟨last, hle, hreach, _⟩ := h.reaches
  exact h.unbroken n ((reaches_le hreach).trans hle) le_rfl

theorem means_broken (h : Broken calls n) : Means calls n {} :=
  ⟨fun _ => rfl, fun hnot => absurd h hnot, fun s hs => (by cases hs), fun first hs => absurd h hs.not_broken⟩

variable {seq : Nat}

theorem means_fresh (hadvance : Advance calls n) (hseq : seqAt calls n = some seq)
    (hbefore : ∀ j, n = j + 1 → Broken calls j) :
    Means calls n ⟨some (seq, timeAt calls n), some (timeAt calls n)⟩ := by
  have hown : Steady calls n n :=
    ⟨hadvance, ⟨n, le_rfl, .refl, by omega⟩, fun i hi hi' => le_antisymm hi hi' ▸ hadvance.1⟩
  refine ⟨fun h => absurd h hadvance.1, fun _ => ?_, fun s hs => ⟨n, hown, by simpa using hs⟩, fun first h => ?_⟩
  · refine ⟨n, seq, rfl, hseq, le_rfl, hadvance, fun i hi hi' => by omega, fun i hi hi' => le_antisymm hi hi' ▸ hadvance.1⟩
  · obtain ⟨last, hle, hreach, _⟩ := h.reaches
    have hle := (reaches_le hreach).trans hle
    -- no window reaches back over the broken call before
    have hfirst : first = n := by
      by_contra hne
      obtain ⟨j, rfl⟩ : ∃ j, n = j + 1 := ⟨n - 1, by omega⟩
      exact h.unbroken j (by omega) (by omega) (hbefore j rfl)
    exact ⟨_, rfl, by rw [hfirst]⟩

/-- Where the advances are that a later call can be steady by. -/
structure Latest (calls : List Call) (a n : Nat) : Prop where
  le : a ≤ n
  advance : Advance calls a
  none : ∀ i, a < i → i ≤ n → ¬Advance calls i
  unbroken : ∀ i, a ≤ i → i ≤ n → ¬Broken calls i

variable {a : Nat}

theorem Steady.latest (hordered : Ordered Call.now calls) (hn : n < calls.length) (ha : Latest calls a n)
    (h : Steady calls first n) : ReflTransGen (Follows calls) first a := by
  obtain ⟨last, hle, hreach, hsoon⟩ := h.reaches
  rcases Nat.lt_trichotomy last a with hlt | rfl | hgt
  · refine hreach.tail ⟨hlt, ha.advance, ?_⟩
    have := timeAt_mono hordered ha.le hn
    omega
  · exact hreach
  · exact absurd (reaches_advance hreach h.advance) (ha.none last hgt hle)

/-- What is steady at the next call without its own advance was steady before, and its latest
advance is not too old. -/
theorem Steady.before (hordered : Ordered Call.now calls) (hn : n + 1 < calls.length) (ha : Latest calls a n)
    (h : Steady calls first (n + 1)) (hfirst : first ≤ n) :
    Steady calls first n ∧ timeAt calls (n + 1) ≤ timeAt calls a + 3000 := by
  -- the last of its advances up to call `n`
  obtain ⟨last, hle, hreach, hsoon⟩ : ∃ last ≤ n, ReflTransGen (Follows calls) first last ∧
      timeAt calls (n + 1) ≤ timeAt calls last + 3000 := by
    obtain ⟨last, hle, hreach, hsoon⟩ := h.reaches
    rcases Nat.le_succ_iff.mp hle with hle | rfl
    · exact ⟨last, hle, hreach, hsoon⟩
    · cases hreach with
      | refl => omega
      | @tail j _ hj hstep => exact ⟨j, Nat.lt_succ_iff.mp hstep.later, hj, hstep.soon⟩
  have hlast : last ≤ a := by
    by_contra hgt
    exact ha.none last (by omega) hle (reaches_advance hreach h.advance)
  have hmono := timeAt_mono hordered hlast (ha.le.trans_lt (by omega))
  have hnext := timeAt_mono hordered (show n ≤ n + 1 by omega) hn
  exact ⟨⟨h.advance, ⟨last, hle, hreach, by omega⟩, fun i hi hi' => h.unbroken i hi (by omega)⟩, by omega⟩

theorem Steady.step (ha : Latest calls a n) (hbroken : ¬Broken calls (n + 1)) (h : Steady calls first n)
    (hreach : ReflTransGen (Follows calls) first a) (hsoon : timeAt calls (n + 1) ≤ timeAt calls a + 3000) :
    Steady calls first (n + 1) := by
  refine ⟨h.advance, ⟨a, ha.le.trans (Nat.le_succ n), hreach, hsoon⟩, fun i hi hi' => ?_⟩
  rcases Nat.le_succ_iff.mp hi' with hi' | rfl
  · exact h.unbroken i hi hi'
  · exact hbroken

/-- The window after a gap. -/
def kept (r : Readiness) (now at_ : Nat) : Option Nat := if 3000 < now - at_ then none else r.since

variable {r : Readiness}

theorem Means.kept (hordered : Ordered Call.now calls) (hn : n + 1 < calls.length)
    (h : Means calls n r) (ha : Latest calls a n) (hbroken : ¬Broken calls (n + 1)) :
    (∀ s, kept r (timeAt calls (n + 1)) (timeAt calls a) = some s →
      ∃ first, Steady calls first (n + 1) ∧ timeAt calls first = s ∧ first ≤ n) ∧
    ∀ first ≤ n, Steady calls first (n + 1) →
      ∃ s, kept r (timeAt calls (n + 1)) (timeAt calls a) = some s ∧ s ≤ timeAt calls first := by
  unfold Readiness.kept
  refine ⟨fun s hs => ?_, fun first hfirst hsteady => ?_⟩
  · split at hs
    · cases hs
    · next hsoon =>
      obtain ⟨first, hsteady, htime⟩ := h.since s hs
      have hreach := hsteady.latest hordered (by omega) ha
      exact ⟨first, hsteady.step ha hbroken hreach (by omega), htime, (reaches_le hreach).trans ha.le⟩
  · obtain ⟨hsteady, hsoon⟩ := hsteady.before hordered hn ha hfirst
    rw [if_neg (by omega)]
    exact h.earliest first hsteady

theorem Means.stall (hordered : Ordered Call.now calls) (hn : n + 1 < calls.length)
    (h : Means calls n r) (ha : Latest calls a n) (hbroken : ¬Broken calls (n + 1)) (hnot : ¬Advance calls (n + 1))
    (hlast : r.last = some (seq, timeAt calls a)) (hseq : seqAt calls (n + 1) = some seq) :
    Means calls (n + 1) ⟨r.last, Readiness.kept r (timeAt calls (n + 1)) (timeAt calls a)⟩ := by
  obtain ⟨hsince, hearliest⟩ := h.kept hordered hn ha hbroken
  refine ⟨fun hb => absurd hb hbroken, fun _ => ⟨a, seq, hlast, hseq, ha.le.trans (Nat.le_succ n), ha.advance, ?_, ?_⟩,
    fun s hs => ?_, fun first hsteady => ?_⟩
  · intro i hi hi'
    rcases Nat.le_succ_iff.mp hi' with hi' | rfl
    · exact ha.none i hi hi'
    · exact hnot
  · intro i hi hi'
    rcases Nat.le_succ_iff.mp hi' with hi' | rfl
    · exact ha.unbroken i hi hi'
    · exact hbroken
  · obtain ⟨first, hsteady, htime, _⟩ := hsince s hs
    exact ⟨first, hsteady, htime⟩
  · refine hearliest first ?_ hsteady
    obtain ⟨last, hle, hreach, _⟩ := hsteady.reaches
    by_contra hgt
    have := reaches_le hreach
    exact hnot (by rw [show n + 1 = first by omega]; exact hsteady.advance)

theorem Means.advance (hordered : Ordered Call.now calls) (hn : n + 1 < calls.length)
    (h : Means calls n r) (ha : Latest calls a n) (hadvance : Advance calls (n + 1))
    (hseq : seqAt calls (n + 1) = some seq) : Means calls (n + 1) ⟨some (seq, timeAt calls (n + 1)),
      some ((Readiness.kept r (timeAt calls (n + 1)) (timeAt calls a)).getD (timeAt calls (n + 1)))⟩ := by
  obtain ⟨hsince, hearliest⟩ := h.kept hordered hn ha hadvance.1
  have hself : ∀ i, n + 1 ≤ i → i ≤ n + 1 → ¬Broken calls i := fun i hi hi' => le_antisymm hi hi' ▸ hadvance.1
  have hown : Steady calls (n + 1) (n + 1) := ⟨hadvance, ⟨n + 1, le_rfl, .refl, by omega⟩, hself⟩
  refine ⟨fun hb => absurd hb hadvance.1, fun _ => ⟨n + 1, seq, rfl, hseq, le_rfl, hadvance, fun i hi hi' => by omega,
    hself⟩,
    fun s hs => ?_, fun first hsteady => ⟨_, rfl, ?_⟩⟩
  · cases hkept : Readiness.kept r (timeAt calls (n + 1)) (timeAt calls a) with
    | none => exact ⟨n + 1, hown, by simpa [hkept] using hs⟩
    | some since =>
      obtain ⟨first, hsteady, htime, _⟩ := hsince since hkept
      exact ⟨first, hsteady, htime.trans (by simpa [hkept] using hs)⟩
  · rcases Nat.lt_or_ge n first with hgt | hle
    · -- the window of this call alone
      obtain ⟨last, hlast, hreach, _⟩ := hsteady.reaches
      have := reaches_le hreach
      obtain rfl : first = n + 1 := by omega
      cases hkept : Readiness.kept r (timeAt calls (n + 1)) (timeAt calls a) with
      | none => exact le_rfl
      | some since =>
        obtain ⟨first, _, htime, hle⟩ := hsince since hkept
        have := timeAt_mono hordered (show first ≤ n + 1 by omega) hn
        simp only [getD_some]
        omega
    · obtain ⟨s, hs, hle⟩ := hearliest first hle hsteady
      rw [hs]
      exact hle

/-! ## Every sequence of calls -/

theorem observe_eq (c : Call) (r : Readiness) : c.observe r =
    match c.seq with
    | none => (false, {})
    | some seq =>
      match r.last with
      | none => (held (some (r.since.getD c.now)) c.now, ⟨some (seq, c.now), some (r.since.getD c.now)⟩)
      | some (before, at_) =>
        if seq < before then (false, {})
        else if seq = before then (held (kept r c.now at_) c.now, ⟨r.last, kept r c.now at_⟩)
        else (held (some ((kept r c.now at_).getD c.now)) c.now,
          ⟨some (seq, c.now), some ((kept r c.now at_).getD c.now)⟩) := by
  unfold Call.observe Readiness.observe Call.seq Readiness.kept
  cases c.sample.filter (isMatch c.pending c.pid c.invocation c.revision) with
  | none => rfl
  | some h => cases r.last <;> simp only [map_some]

theorem observe_ready (c : Call) (r) : (c.observe r).1 = held (c.observe r).2.since c.now := by
  rw [observe_eq]
  repeat' split
  all_goals rfl

theorem after_snoc (calls : List Call) (n) {c : Call} (hc : calls[n]? = some c) :
    after (calls.take (n + 1)) = (c.observe (after (calls.take n))).2 := by
  unfold after
  rw [List.take_add_one, hc, toList_some, List.foldl_append]
  rfl

/-- **The moments mean what they should** after every call. -/
theorem means_after (hordered : Ordered Call.now calls) (hn : n < calls.length) :
    Means calls n (after (calls.take (n + 1))) := by
  induction n with
  | zero =>
    have hc := List.getElem?_eq_getElem hn
    have hseq : seqAt calls 0 = calls[0].seq := by simp [seqAt, hc]
    have htime : timeAt calls 0 = calls[0].now := by simp [timeAt, hc]
    rw [after_snoc calls 0 hc, observe_eq, List.take_zero]
    cases hs : calls[0].seq with
    | none => exact means_broken (.of_none (hseq.trans hs))
    | some seq =>
      have hadvance : Advance calls 0 := by
        refine ⟨fun hb => ?_, fun j hj => by omega⟩
        have hb : seqAt calls 0 = none := hb
        rw [hseq, hs] at hb
        cases hb
      have hmeans := means_fresh hadvance (hseq.trans hs) fun j hj => by omega
      rwa [htime] at hmeans
  | succ n ih =>
    have hc := List.getElem?_eq_getElem hn
    have hseq : seqAt calls (n + 1) = calls[n + 1].seq := by simp [seqAt, hc]
    have htime : timeAt calls (n + 1) = calls[n + 1].now := by simp [timeAt, hc]
    have hmeans := ih (by omega)
    rw [after_snoc calls (n + 1) hc, observe_eq]
    generalize after (calls.take (n + 1)) = r at hmeans ⊢
    cases hs : calls[n + 1].seq with
    | none => exact means_broken (.of_none (hseq.trans hs))
    | some seq =>
    have hseq := hseq.trans hs
    by_cases hbroken : Broken calls n
    · obtain rfl := hmeans.reset hbroken
      have hunbroken : ¬Broken calls (n + 1) := fun hb => (hb seq hseq).1 hbroken
      have hadvance : Advance calls (n + 1) := by
        refine ⟨hunbroken, fun j hj hnot => ?_⟩
        obtain rfl : j = n := by omega
        exact absurd hbroken hnot
      have hfresh := means_fresh hadvance hseq fun j hj => by
        obtain rfl : j = n := by omega
        exact hbroken
      rwa [htime] at hfresh
    · obtain ⟨a, before, hlast, hbefore, hle, ha, hnone, hfrom⟩ := hmeans.last hbroken
      have hlatest : Latest calls a n := ⟨hle, ha, hnone, hfrom⟩
      dsimp only
      rw [hlast]
      dsimp only
      have hunbroken : ¬seq < before → ¬Broken calls (n + 1) := by
        intro hnot hb
        obtain ⟨_, before', hbefore', hlt⟩ := hb seq hseq
        cases hbefore.symm.trans hbefore'
        exact hnot hlt
      split
      · next hlt =>
        refine means_broken fun seq' hseq' => ⟨hbroken, before, hbefore, ?_⟩
        cases hseq.symm.trans hseq'
        exact hlt
      · next hnot =>
        split
        · next heq =>
          subst heq
          have hstalled : ¬Advance calls (n + 1) := by
            intro hadv
            obtain ⟨b, q, hb, hq, hlt⟩ := hadv.2 n rfl hbroken
            cases hbefore.symm.trans hb
            cases hseq.symm.trans hq
            omega
          have hstall := hmeans.stall hordered hn hlatest (hunbroken hnot) hstalled hlast hseq
          rw [htime, hlast] at hstall
          exact hstall
        · next hne =>
          have hadvance : Advance calls (n + 1) := by
            refine ⟨hunbroken hnot, fun j hj _ => ?_⟩
            obtain rfl : j = n := by omega
            exact ⟨before, seq, hbefore, hseq, by omega⟩
          have hnext := hmeans.advance hordered hn hlatest hadvance hseq
          rw [htime] at hnext
          exact hnext

/-- **Readiness.** A call finds the program ready exactly when advances up to it follow each other
within three seconds from ten seconds before it to three seconds before it, and no call since the
first of them is broken. -/
theorem ready_iff (hordered : Ordered Call.now calls) {call : Call} (hcall : calls[n]? = some call) :
    (call.observe (after (calls.take n))).1 = true ↔
      ∃ first, Advance calls first ∧ timeAt calls first + 10000 ≤ call.now ∧
        (∃ last ≤ n, ReflTransGen (Follows calls) first last ∧ call.now ≤ timeAt calls last + 3000) ∧
        ∀ i, first ≤ i → i ≤ n → ¬Broken calls i := by
  have hn := (List.getElem?_eq_some_iff.mp hcall).1
  have hmeans := means_after hordered hn
  have htime : timeAt calls n = call.now := by simp [timeAt, hcall]
  rw [observe_ready, ← after_snoc calls n hcall]
  constructor
  · intro hready
    cases hs : (after (calls.take (n + 1))).since with
    | none =>
      rw [hs] at hready
      cases hready
    | some s =>
      rw [hs] at hready
      have hlong : 10000 ≤ call.now - s := by simpa [held] using hready
      obtain ⟨first, hsteady, rfl⟩ := hmeans.since s hs
      exact ⟨first, hsteady.advance, by omega, htime ▸ hsteady.reaches, hsteady.unbroken⟩
  · rintro ⟨first, hadvance, hlong, hreaches, hunbroken⟩
    rw [← htime] at hreaches
    obtain ⟨s, hs, hle⟩ := hmeans.earliest first ⟨hadvance, hreaches, hunbroken⟩
    simp only [held, hs, any_some, decide_eq_true_eq]
    omega

def receiptBuild : BuildInfo :=
  ⟨ascii "1.1.0", ascii "x86_64-unknown-linux-musl", List.replicate 40 97, true, 1, 1, ascii "1", 1, 1, 3, 1⟩

/-- A launch and the receipts of its program, one each second. -/
def launch : PendingLaunch :=
  ⟨List.replicate 32 49, List.replicate 32 50, ⟨receiptBuild, List.replicate 64 51⟩, false, .validating,
    List.replicate 32 53, true⟩

def receipt (seq : Nat) : Health :=
  ⟨launch.operationId, launch.launchNonce, launch.identity, 7, 1, true, true, true, seq, 123, List.replicate 32 52⟩

def tick (i : Nat) : Call := ⟨i * 1000, some (receipt (i + 1)), launch, 123, List.replicate 32 52, 7⟩

/-- Eleven fresh receipts over ten seconds. -/
theorem ready_iff_ticks : ∃ first, Advance ((List.range 11).map tick) first ∧
    timeAt ((List.range 11).map tick) first + 10000 ≤ (tick 10).now := by
  have hordered : Ordered Call.now ((List.range 11).map tick) := by
    unfold Ordered
    decide +kernel
  have hcall : ((List.range 11).map tick)[10]? = some (tick 10) := rfl
  obtain ⟨first, hadvance, hlong, _⟩ := (ready_iff hordered hcall).mp (by decide +kernel)
  exact ⟨first, hadvance, hlong⟩

end Parins.Update.Readiness
