/-
The budget of authentication attempts (`manage/auth_budget.rs`): five a minute
for each source, in a bounded table that a rotating sweep keeps clear of sources
that owe nothing. Whatever the sweep removes, the table remembers every attempt
that still counts.
-/
import Parins.Lib.Runs
import Parins.Lib.Sweep
import Parins.Lib.Window
import Parins.Net.Address

namespace Parins.Manage.AuthBudget
open Net Lib

def second : Nat := 1000000000

def WINDOW : Nat := 60 * second
def ATTEMPTS : Nat := 5
def MAX_SOURCES : Nat := 1024
def RECLAIM_SCAN : Nat := 16

/-- The accepted attempts of each source, and the order of the sweep. -/
structure Sources where
  entries : AList fun _ : IpAddr => List Nat := ∅
  sweep : List IpAddr := []

/-- Whom an attempt is charged to: an IPv4 address, also a mapped one, or the /64 of an IPv6
address. -/
def identity (peer : IpAddr) : IpAddr :=
  let peer := peer.canonical
  if peer.isIpv4 then peer
  else ⟨false, blockStart 64 peer.bits, Nat.lt_of_le_of_lt (blockStart_le _ _) (by
    have := peer.bound
    have hw : width peer.isIpv4 ≤ width false := by cases peer.isIpv4 <;> decide
    exact this.trans_le (Nat.pow_le_pow_right (by decide) hw))⟩

namespace Sources

/-- The sweep of a bounded batch; `none` is a failed `unwrap`. -/
def reclaim (now : Nat) : Nat → Sources → Option Sources
  | 0, s => some s
  | n + 1, s =>
    match s.sweep with
    | [] => none
    | source :: rest => do
      let attempts := expire WINDOW now (← s.entries.lookup source)
      if attempts.isEmpty then reclaim now n ⟨s.entries.erase source, rest⟩
      else reclaim now n ⟨s.entries.insert source attempts, rest ++ [source]⟩

/-- The attempt of a source that is in the table: whether it is accepted. -/
def charge (s : Sources) (source : IpAddr) (now : Nat) : Option (Sources × Bool) := do
  let attempts := expire WINDOW now (← s.entries.lookup source)
  if attempts.length = ATTEMPTS then some ({ s with entries := s.entries.insert source attempts }, false)
  else
    -- The queue stays ordered whatever order callers took the lock in.
    let at_ := (attempts.getLast?.map fun last => max last now).getD now
    some ({ s with entries := s.entries.insert source (attempts ++ [at_]) }, true)

/-- `Budget::attempt_at`: whether the attempt is accepted; `none` is a panic. -/
def attemptAt (s : Sources) (peer : IpAddr) (now : Nat) : Option (Sources × Bool) := do
  let source := identity peer
  let s ← s.reclaim now (min RECLAIM_SCAN s.sweep.length)
  if (s.entries.lookup source).isSome then s.charge source now
  else if s.entries.keys.length = MAX_SOURCES then some (s, false)
  else (⟨s.entries.insert source [], s.sweep ++ [source]⟩ : Sources).charge source now

end Sources

/-! ## Runs -/

structure Attempt where
  peer : IpAddr
  now : Nat

/-- The table, and the accepted attempts so far: their peers and times. -/
structure InUse where
  sources : Sources := {}
  accepted : List (IpAddr × Nat) := []

def InUse.step (u : InUse) (a : Attempt) : Option InUse := do
  let (sources, accepted) ← u.sources.attemptAt a.peer a.now
  some ⟨sources, if accepted then u.accepted ++ [(a.peer, a.now)] else u.accepted⟩

/-- The times of the accepted attempts of a source. -/
def InUse.timesOf (u : InUse) (source : IpAddr) : List Nat :=
  (u.accepted.filter fun p => identity p.1 = source).map Prod.snd

/-! ## What a call does -/

variable {s s' : Sources} {source k : IpAddr} {now : Nat} {times : List Nat}

def Sources.debt (s : Sources) (source : IpAddr) : List Nat := (s.entries.lookup source).getD []

/-- The queue lists the table, and the table has room for what it holds. -/
structure Sources.Wf (s : Sources) : Prop where
  swept : Swept s.entries s.sweep
  size : s.entries.keys.length ≤ MAX_SOURCES

variable {attempts : List Nat}

theorem debt_of_lookup (h : s.entries.lookup source = some attempts) : s.debt source = attempts := by
  rw [Sources.debt, h]
  rfl

theorem debt_insert (entries : AList fun _ : IpAddr => List Nat) (sweep source attempts k) :
    Sources.debt ⟨entries.insert source attempts, sweep⟩ k =
      if k = source then attempts else Sources.debt ⟨entries, sweep⟩ k := by
  unfold Sources.debt
  by_cases hk : k = source
  · subst hk
    rw [if_pos rfl, AList.lookup_insert]
    rfl
  · rw [if_neg hk, AList.lookup_insert_ne hk]

theorem debt_erase (entries : AList fun _ : IpAddr => List Nat) (sweep source k) :
    Sources.debt ⟨entries.erase source, sweep⟩ k = if k = source then [] else Sources.debt ⟨entries, sweep⟩ k := by
  unfold Sources.debt
  by_cases hk : k = source
  · subst hk
    rw [if_pos rfl, AList.lookup_erase]
    rfl
  · rw [if_neg hk, AList.lookup_erase_ne hk]

theorem window_pos : 0 < WINDOW := by decide

/-- What counts at `now` is still known. -/
def Sources.Kept (now : Nat) (s s' : Sources) : Prop :=
  ∀ k times, Tracks WINDOW now (s.debt k) times → Tracks WINDOW now (s'.debt k) times

/-- A sweep forgets only what no longer counts. -/
theorem reclaim_spec (now n) (hwf : s.Wf) (hn : n ≤ s.sweep.length) :
    ∃ s', s.reclaim now n = some s' ∧ s'.Wf ∧ s.Kept now s' := by
  induction n generalizing s with
  | zero => exact ⟨s, rfl, hwf, fun _ _ h => h⟩
  | succ n ih =>
    obtain ⟨entries, sweep⟩ := s
    cases sweep with
    | nil => simp at hn
    | cons source rest =>
    have hn : n ≤ rest.length := by simpa using hn
    obtain ⟨attempts, hheld⟩ := hwf.swept.mem.mp List.mem_cons_self
    have hdebt : Sources.debt ⟨entries, source :: rest⟩ source = attempts := debt_of_lookup hheld
    simp only [Sources.reclaim, hheld, bind, Option.bind]
    split
    · next hempty =>
      have hless : (entries.erase source).keys.length ≤ entries.keys.length := by
        rw [AList.keys_erase]
        exact List.length_erase_le
      obtain ⟨s', hs', hwf', hkept⟩ := ih (s := ⟨entries.erase source, rest⟩)
        ⟨hwf.swept.erase, hless.trans hwf.size⟩ hn
      refine ⟨s', hs', hwf', fun k times h => hkept k times ?_⟩
      rw [debt_erase]
      split
      · next hk =>
        subst hk
        have hexpired := h.expire window_pos
        rw [hdebt, List.isEmpty_iff.mp hempty] at hexpired
        exact hexpired
      · exact h
    · obtain ⟨s', hs', hwf', hkept⟩ := ih (s := ⟨entries.insert source (expire WINDOW now attempts), rest ++ [source]⟩)
        ⟨hwf.swept.rotate _, (keys_insert_held hheld _).length_eq.le.trans hwf.size⟩
        (by simp; omega)
      refine ⟨s', hs', hwf', fun k times h => hkept k times ?_⟩
      rw [debt_insert]
      split
      · next hk =>
        subst hk
        rw [← hdebt]
        exact h.expire window_pos
      · exact h

/-- What a call comes to for its source, whose accepted attempts were at `times`. -/
structure Sources.Charged (now : Nat) (source : IpAddr) (times : List Nat) (s s' : Sources) (accepted : Bool) : Prop where
  wf : s'.Wf
  own : Tracks WINDOW now (s'.debt source) (if accepted then times ++ [now] else times)
  others : ∀ k, k ≠ source → s'.debt k = s.debt k

theorem charge_spec (hwf : s.Wf) (hheld : s.entries.lookup source = some attempts)
    (htracks : Tracks WINDOW now attempts times) :
    ∃ s' accepted, s.charge source now = some (s', accepted) ∧ s.Charged now source times s' accepted ∧
      (accepted = false ↔ (recent WINDOW now times).length = ATTEMPTS) := by
  have hexpired := htracks.expire window_pos
  have hwf' : ∀ attempts', Sources.Wf { s with entries := s.entries.insert source attempts' } := fun attempts' =>
    ⟨hwf.swept.update hheld _, (keys_insert_held hheld _).length_eq.le.trans hwf.size⟩
  have hothers : ∀ attempts' k, k ≠ source →
      Sources.debt { s with entries := s.entries.insert source attempts' } k = s.debt k := fun attempts' k hk => by
    rw [debt_insert, if_neg hk]
  unfold Sources.charge
  simp only [hheld, bind, Option.bind]
  rw [← htracks.expire_eq window_pos]
  split
  · next hfull =>
    refine ⟨_, _, rfl, ⟨hwf' _, ?_, hothers _⟩, by simpa using hfull⟩
    rw [debt_insert, if_pos rfl]
    exact hexpired
  · next hroom =>
    refine ⟨_, _, rfl, ⟨hwf' _, ?_, hothers _⟩, by simpa using hroom⟩
    -- nothing in the queue is later than this call
    have hat : ((expire WINDOW now attempts).getLast?.map fun last => max last now).getD now = now := by
      cases hlast : (expire WINDOW now attempts).getLast? with
      | none => rfl
      | some last =>
        have := hexpired.past last (List.mem_of_getLast? hlast)
        simp only [Option.map_some, Option.getD_some]
        omega
    rw [debt_insert, if_pos rfl, hat]
    exact hexpired.push

/-- **A call** keeps what counts, and says why it refuses. -/
theorem attemptAt_spec (peer) (hwf : s.Wf) (htracks : Tracks WINDOW now (s.debt (identity peer)) times) :
    ∃ s' accepted, s.attemptAt peer now = some (s', accepted) ∧ s'.Wf ∧
      Tracks WINDOW now (s'.debt (identity peer)) (if accepted then times ++ [now] else times) ∧
      (∀ k times, k ≠ identity peer → Tracks WINDOW now (s.debt k) times → Tracks WINDOW now (s'.debt k) times) ∧
      (accepted = true → (recent WINDOW now times).length ≠ ATTEMPTS) ∧
      (accepted = false → (recent WINDOW now times).length = ATTEMPTS ∨ s'.entries.keys.length = MAX_SOURCES) := by
  obtain ⟨m, hm, hmwf, hkept⟩ := reclaim_spec now _ hwf (min_le_right RECLAIM_SCAN s.sweep.length)
  have howed := hkept _ times htracks
  unfold Sources.attemptAt
  simp only [hm, bind, Option.bind]
  cases hheld : m.entries.lookup (identity peer) with
  | some attempts =>
    rw [debt_of_lookup hheld] at howed
    obtain ⟨s', accepted, hs', hcharged, hwhy⟩ := charge_spec hmwf hheld howed
    refine ⟨s', accepted, by simpa using hs', hcharged.wf, hcharged.own, fun k times hk h => ?_, fun ha hfull => ?_,
      fun ha => .inl (hwhy.mp ha)⟩
    · rw [hcharged.others k hk]
      exact hkept k times h
    · rw [hwhy.mpr hfull] at ha
      cases ha
  | none =>
    have hempty : m.debt (identity peer) = [] := by
      rw [Sources.debt, hheld]
      rfl
    rw [if_neg (by simp)]
    split
    · next hfull =>
      refine ⟨m, false, rfl, hmwf, howed, fun k times _ h => hkept k times h, by simp, fun _ => .inr hfull⟩
    · next hroom =>
      have hwf' : Sources.Wf ⟨m.entries.insert (identity peer) [], m.sweep ++ [identity peer]⟩ := by
        refine ⟨hmwf.swept.add hheld [], ?_⟩
        have := hmwf.size
        show (m.entries.insert (identity peer) []).keys.length ≤ MAX_SOURCES
        rw [keys_insert_new hheld, List.length_cons]
        omega
      rw [hempty] at howed
      obtain ⟨s', accepted, hs', hcharged, hwhy⟩ := charge_spec hwf' (AList.lookup_insert _) howed
      refine ⟨s', accepted, hs', hcharged.wf, hcharged.own, fun k times hk h => ?_, fun ha hfull => ?_,
        fun ha => .inl (hwhy.mp ha)⟩
      · rw [hcharged.others k hk, debt_insert, if_neg hk]
        exact hkept k times h
      · rw [hwhy.mpr hfull] at ha
        cases ha

/-! ## Every run -/

structure Inv (now : Nat) (u : InUse) : Prop where
  wf : u.sources.Wf
  tracks : ∀ k, Tracks WINDOW now (u.sources.debt k) (u.timesOf k)
  few : ∀ k, (recent WINDOW now (u.timesOf k)).length ≤ ATTEMPTS
  bounded : ∀ k, AtMostIn WINDOW ATTEMPTS (u.timesOf k)

theorem timesOf_snoc (u : InUse) (sources) (a : Attempt) (k) :
    InUse.timesOf ⟨sources, u.accepted ++ [(a.peer, a.now)]⟩ k =
      if k = identity a.peer then u.timesOf k ++ [a.now] else u.timesOf k := by
  unfold InUse.timesOf
  rw [List.filter_append, List.map_append]
  by_cases hk : k = identity a.peer
  · rw [if_pos hk, List.filter_cons_of_pos (by simpa using hk.symm)]
    rfl
  · rw [if_neg hk, List.filter_cons_of_neg (by simpa using fun h => hk h.symm)]
    exact List.append_nil _

variable {u : InUse}

theorem Inv.later {now after} (hle : now ≤ after) (h : Inv now u) : Inv after u :=
  ⟨h.wf, fun k => (h.tracks k).later hle, fun k => (length_recent_le hle _).trans (h.few k), h.bounded⟩

theorem Inv.step {a : Attempt} (h : Inv a.now u) : ∃ u', u.step a = some u' ∧ Inv a.now u' := by
  obtain ⟨sources, accepted, hs, hwf, hown, hothers, hroom, _⟩ := attemptAt_spec a.peer h.wf (h.tracks _)
  have hstep : u.step a = some ⟨sources, if accepted then u.accepted ++ [(a.peer, a.now)] else u.accepted⟩ := by
    simp only [InUse.step, hs, bind, Option.bind]
  refine ⟨_, hstep, ?_⟩
  cases accepted with
  | false =>
    refine ⟨hwf, fun k => ?_, h.few, h.bounded⟩
    by_cases hk : k = identity a.peer
    · subst hk
      exact hown
    · exact hothers k _ hk (h.tracks k)
  | true =>
    rw [if_pos rfl] at hown ⊢
    have hlt : (recent WINDOW a.now (u.timesOf (identity a.peer))).length < ATTEMPTS :=
      lt_of_le_of_ne (h.few _) (hroom rfl)
    -- the source of this call has one more, the others are as they were
    have hcases : ∀ {p : IpAddr → List Nat → Prop}, p (identity a.peer) (u.timesOf (identity a.peer) ++ [a.now]) →
        (∀ k, k ≠ identity a.peer → p k (u.timesOf k)) →
          ∀ k, p k (InUse.timesOf ⟨sources, u.accepted ++ [(a.peer, a.now)]⟩ k) := by
      intro p hself hrest k
      rw [timesOf_snoc]
      split
      · next hk => exact hk ▸ hself
      · next hk => exact hrest k hk
    exact ⟨hwf, hcases hown fun k hk => hothers k _ hk (h.tracks k),
      hcases (p := fun _ times => (recent WINDOW a.now times).length ≤ ATTEMPTS)
        ((length_recent_snoc window_pos _).le.trans hlt) fun k _ => h.few k,
      hcases (p := fun _ times => AtMostIn WINDOW ATTEMPTS times) ((h.bounded _).snoc hlt) fun k _ => h.bounded k⟩

theorem inv_start : Inv 0 {} :=
  ⟨⟨.nil, Nat.zero_le _⟩, fun _ => .nil _ _, fun _ => Nat.zero_le _, fun _ _ => Nat.zero_le _⟩

/-- **The budget of a source.** Whatever attempts are made, no `unwrap` fails; in every window of a
minute at most five attempts of peers with one identity are accepted; the queue lists the table, which
holds at most 1024 sources; and the next attempt is refused only if five of its source still count or
the table is full. -/
theorem attempts_within_budget {attempts : List Attempt} (hordered : Ordered Attempt.now attempts) :
    ∃ u, run InUse.step {} attempts = some u ∧
      (∀ source, AtMostIn WINDOW ATTEMPTS (u.timesOf source)) ∧
      u.sources.sweep.Perm u.sources.entries.keys ∧ u.sources.entries.keys.length ≤ MAX_SOURCES ∧
      ∀ peer now, (∀ a ∈ attempts, a.now ≤ now) → ∃ sources accepted,
        u.sources.attemptAt peer now = some (sources, accepted) ∧
        (accepted = false → (recent WINDOW now (u.timesOf (identity peer))).length = ATTEMPTS ∨
          sources.entries.keys.length = MAX_SOURCES) := by
  obtain ⟨u, hrun, ⟨_, h⟩, hinv⟩ :=
    run_timed_total Attempt.now inv_start (fun _ _ _ => Inv.later) (fun _ _ => Inv.step) hordered
  refine ⟨u, hrun, h.bounded, h.wf.swept, h.wf.size, fun peer now hlast => ?_⟩
  obtain ⟨sources, accepted, hs, _, _, _, _, hwhy⟩ := attemptAt_spec peer h.wf ((hinv now hlast).tracks _)
  exact ⟨sources, accepted, hs, hwhy⟩

/-- Five attempts of one IPv4 address, a second apart. -/
def sampleAttempts : List Attempt := (List.range 5).map fun i => ⟨.ofV4 192 0 2 1, i * second⟩

/-- A sixth one, from the mapped form of the address, is refused. -/
theorem attempts_within_budget_sample : ∃ u sources, run InUse.step {} sampleAttempts = some u ∧
    u.sources.attemptAt ⟨false, 0xffffc0000201, by decide⟩ (5 * second) = some (sources, false) ∧
    (recent WINDOW (5 * second) (u.timesOf (.ofV4 192 0 2 1))).length = ATTEMPTS := by
  have hordered : Ordered Attempt.now sampleAttempts := by
    unfold Ordered
    decide
  obtain ⟨u, hrun, _, _, _, hnext⟩ := attempts_within_budget hordered
  obtain ⟨sources, accepted, hs, hwhy⟩ := hnext ⟨false, 0xffffc0000201, by decide⟩ (5 * second) (by decide)
  have hshape : ((run InUse.step {} sampleAttempts).bind fun u =>
      (u.sources.attemptAt ⟨false, 0xffffc0000201, by decide⟩ (5 * second)).map fun p =>
        (p.2, p.1.entries.keys.length)) = some (false, 1) := by decide +kernel
  rw [hrun, Option.bind_some, hs, Option.map_some, Option.some.injEq, Prod.mk.injEq] at hshape
  obtain ⟨hrefused, hsize⟩ := hshape
  dsimp only at hrefused hsize
  subst hrefused
  refine ⟨u, sources, hrun, hs, (hwhy rfl).resolve_right fun hfull => ?_⟩
  rw [hsize] at hfull
  exact absurd hfull (by decide)

end Parins.Manage.AuthBudget
